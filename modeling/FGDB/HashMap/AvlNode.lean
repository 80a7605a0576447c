import FGDB.Foundation.Run
import FGDB.HashMap.Key
import Mathlib.Logic.Function.Basic

/-!
# The tree nodes of a bucket

A bucket keeps its keys in a tree of nodes with links to their children and to
their parent. No link leaves a bucket, so each bucket has a heap of its own. A
function of the source that takes the address of a pointer returns the new value
of that pointer, and the caller stores it where the source's caller has it.
Loops and recursions follow links, so they carry fuel; as many steps as there
are addresses are enough for every walk that ends. Allocation succeeds. Code that
the source writes once for the left and once for the right child takes the side
as an argument.
-/

namespace FGDB.HashMap

open Foundation

inductive Side
  | left
  | right
  deriving DecidableEq, Repr

def Side.other : Side → Side
  | left => right
  | right => left

/-- `avlnode`; `keyMeta` is the source's `meta`. -/
structure AvlNode (μ : Type) where
  key : Str
  keyMeta : μ
  left : Option ℕ
  right : Option ℕ
  parent : Option ℕ
  hight : ℕ
  deriving DecidableEq, Repr

def AvlNode.child {μ : Type} (node : AvlNode μ) : Side → Option ℕ
  | .left => node.left
  | .right => node.right

def AvlNode.setChild {μ : Type} (node : AvlNode μ) : Side → Option ℕ → AvlNode μ
  | .left, pointer => { node with left := pointer }
  | .right, pointer => { node with right := pointer }

/-- An address below `next` that has no node has been freed. -/
structure NodeHeap (μ : Type) where
  cells : ℕ → Option (AvlNode μ)
  next : ℕ

variable {μ : Type}

namespace NodeHeap

def empty : NodeHeap μ := ⟨fun _ ↦ none, 0⟩

def load (heap : NodeHeap μ) : Option ℕ → Outcome (AvlNode μ)
  | none => .error .nullPointer
  | some address =>
    match heap.cells address with
    | none => .error .danglingPointer
    | some node => .ok node

def set (heap : NodeHeap μ) (address : ℕ) (node : AvlNode μ) : NodeHeap μ :=
  { heap with cells := Function.update heap.cells address (some node) }

/-- Store to some of the fields of a node. -/
def modify (heap : NodeHeap μ) (pointer : Option ℕ) (change : AvlNode μ → AvlNode μ) :
    Outcome (NodeHeap μ) :=
  match pointer with
  | none => .error .nullPointer
  | some address =>
    match heap.cells address with
    | none => .error .danglingPointer
    | some node => .ok (heap.set address (change node))

/-- `if (node) node->parent = parent`. -/
def adopt (heap : NodeHeap μ) (node parent : Option ℕ) : Outcome (NodeHeap μ) :=
  match node with
  | none => .ok heap
  | some address => heap.modify (some address) fun child ↦ { child with parent := parent }

def alloc (heap : NodeHeap μ) (node : AvlNode μ) : NodeHeap μ :=
  ⟨Function.update heap.cells heap.next (some node), heap.next + 1⟩

def fuel (heap : NodeHeap μ) : ℕ := heap.next + 1

end NodeHeap

/-- `avl_new_node`. -/
def avlNewNode (heap : NodeHeap μ) (key : Str) (keyMeta : μ) : NodeHeap μ × Option ℕ :=
  (heap.alloc ⟨key, keyMeta, none, none, none, 1⟩, some heap.next)

/-- `avl_delete_node`, which destroys the key with its node. -/
def avlDeleteNode (heap : NodeHeap μ) : Option ℕ → NodeHeap μ
  | none => heap
  | some address => { heap with cells := Function.update heap.cells address none }

def avlSearch : ℕ → NodeHeap μ → Option ℕ → Str → Outcome (Option ℕ)
  | 0, _, _, _ => .error .nontermination
  | _ + 1, _, none, _ => .ok none
  | fuel + 1, heap, some address, key => do
    let node ← heap.load (some address)
    let mid := keyComp node.key key
    if mid = 0 then return some address
    else if mid > 0 then avlSearch fuel heap node.right key
    else avlSearch fuel heap node.left key

def avlGetHight (heap : NodeHeap μ) : Option ℕ → Outcome ℕ
  | none => .ok 0
  | some address => do return (← heap.load (some address)).hight

def avlCalcHight (heap : NodeHeap μ) : Option ℕ → Outcome (NodeHeap μ)
  | none => .ok heap
  | some address => do
    let node ← heap.load (some address)
    let left ← avlGetHight heap node.left
    let right ← avlGetHight heap node.right
    heap.modify (some address) fun node ↦ { node with hight := max left right + 1 }

def avlCalcBalance (heap : NodeHeap μ) : Option ℕ → Outcome ℤ
  | none => .ok 0
  | some address => do
    let node ← heap.load (some address)
    let right ← avlGetHight heap node.right
    let left ← avlGetHight heap node.left
    return right - left

/-- The child on a side takes the place of its parent, which gets the child's inner subtree. -/
def avlMove (side : Side) (heap : NodeHeap μ) (node : Option ℕ) :
    Outcome (NodeHeap μ × Option ℕ) := do
  let mid := (← heap.load node).child side
  let inner := (← heap.load mid).child side.other
  let heap ← heap.modify node fun node ↦ node.setChild side inner
  let heap ← heap.adopt inner node
  let parent := (← heap.load node).parent
  let heap ← heap.modify mid fun mid ↦ { mid with parent := parent }
  let heap ← heap.modify node fun node ↦ { node with parent := mid }
  let heap ← heap.modify mid fun mid ↦ mid.setChild side.other node
  let heap ← avlCalcHight heap node
  let heap ← avlCalcHight heap mid
  return (heap, mid)

def avlRightMove (heap : NodeHeap μ) (node : Option ℕ) : Outcome (NodeHeap μ × Option ℕ) :=
  avlMove .left heap node

def avlLeftMove (heap : NodeHeap μ) (node : Option ℕ) : Outcome (NodeHeap μ × Option ℕ) :=
  avlMove .right heap node

/-- A move of the child on a side the other way, and then a move of the node. -/
def avlDoubleMove (side : Side) (heap : NodeHeap μ) (node : Option ℕ) :
    Outcome (NodeHeap μ × Option ℕ) := do
  let (heap, child) ← avlMove side.other heap ((← heap.load node).child side)
  let heap ← heap.modify node fun node ↦ node.setChild side child
  avlMove side heap node

def avlLRMove (heap : NodeHeap μ) (node : Option ℕ) : Outcome (NodeHeap μ × Option ℕ) :=
  avlDoubleMove .left heap node

def avlRLMove (heap : NodeHeap μ) (node : Option ℕ) : Outcome (NodeHeap μ × Option ℕ) :=
  avlDoubleMove .right heap node

/-- The last test asks for the balance of the left child, where its mirror image would ask for
that of the right one. -/
def avlRebalance (heap : NodeHeap μ) (node : Option ℕ) : Outcome (NodeHeap μ × Option ℕ) := do
  let balance ← avlCalcBalance heap node
  if balance = -2 then
    let left ← avlCalcBalance heap (← heap.load node).left
    if left = -1 then avlRightMove heap node
    else if left = 1 then avlLRMove heap node
    else return (heap, node)
  else if balance = 2 then
    let right ← avlCalcBalance heap (← heap.load node).right
    if right = 1 then avlLeftMove heap node
    else
      let left ← avlCalcBalance heap (← heap.load node).left
      if left = -1 then avlRLMove heap node
      else return (heap, node)
  else return (heap, node)

/-- The result of the recursive call is not looked at. -/
def avlInsertNode : ℕ → NodeHeap μ → Option ℕ → Option ℕ →
    Outcome (NodeHeap μ × Option ℕ × ℤ)
  | 0, _, _, _ => .error .nontermination
  | fuel + 1, heap, node, nodeNew => do
    let here ← heap.load node
    let order := keyComp here.key (← heap.load nodeNew).key
    if order = 0 then return (heap, node, -1)
    else
      let side := if order > 0 then Side.right else Side.left
      let (heap, child) ← (here.child side).elim (.ok (heap, nodeNew)) fun address ↦ do
        let (heap, child, _) ← avlInsertNode fuel heap (some address) nodeNew
        return (heap, child)
      let heap ← heap.modify node fun node ↦ node.setChild side child
      let heap ← heap.adopt child node
      let heap ← avlCalcHight heap node
      let (heap, node) ← avlRebalance heap node
      return (heap, node, 1)

/-- `while (mid1->right) mid1 = mid1->right`. -/
def goRight : ℕ → NodeHeap μ → Option ℕ → Outcome (Option ℕ)
  | 0, _, _ => .error .nontermination
  | fuel + 1, heap, mid1 => do
    match (← heap.load mid1).right with
    | none => return mid1
    | some right => goRight fuel heap (some right)

/-- The loop from the parent of the predecessor up to the node, on a pointer of its own. -/
def climb : ℕ → NodeHeap μ → Option ℕ → Option ℕ → Outcome (NodeHeap μ)
  | 0, _, _, _ => .error .nontermination
  | fuel + 1, heap, mid2, node => do
    if mid2 = node then return heap
    else
      let heap ← avlCalcHight heap mid2
      let (heap, mid2) ← avlRebalance heap mid2
      climb fuel heap (← heap.load mid2).parent node

/-- The parent of a leaf forgets it. -/
def forgetLeaf (heap : NodeHeap μ) (last node : Option ℕ) : Outcome (NodeHeap μ) :=
  match last with
  | none => .ok heap
  | some address => do
    let parent ← heap.load (some address)
    if parent.left = node then heap.modify last fun last ↦ { last with left := none }
    else if parent.right = node then heap.modify last fun last ↦ { last with right := none }
    else return heap

/-- The case of a leaf. -/
def removeLeaf (heap : NodeHeap μ) (node : Option ℕ) :
    Outcome (NodeHeap μ × Option ℕ × ℤ) := do
  let last := (← heap.load node).parent
  let heap ← forgetLeaf heap last node
  let heap ← avlCalcHight heap last
  return (avlDeleteNode heap node, none, 1)

/-- The predecessor leaves the tree: its left child takes its place under its parent. -/
def unlink (heap : NodeHeap μ) (mid1 : Option ℕ) : Outcome (NodeHeap μ) := do
  let mid ← heap.load mid1
  let heap ← heap.adopt mid.left mid.parent
  let heap ← heap.modify mid.parent fun parent ↦ { parent with right := mid.left }
  return avlDeleteNode heap mid1

/-- The case of two children: the predecessor gives its key and is unlinked. -/
def removeInner (fuel : ℕ) (heap : NodeHeap μ) (node : Option ℕ) :
    Outcome (NodeHeap μ × Option ℕ × ℤ) := do
  let here ← heap.load node
  let mid1 ← goRight fuel heap here.left
  let mid ← heap.load mid1
  let heap ← heap.modify node fun node ↦ { node with key := mid.key, keyMeta := mid.keyMeta }
  let heap ← heap.modify mid1 fun mid ↦ { mid with key := here.key, keyMeta := here.keyMeta }
  if mid1 = here.left then
    let heap ← heap.modify node fun node ↦ { node with left := mid.left }
    let heap ← heap.adopt mid.left node
    let heap ← avlCalcHight heap node
    let (heap, node) ← avlRebalance heap node
    return (avlDeleteNode heap mid1, node, 1)
  else
    let heap ← unlink heap mid1
    let heap ← climb fuel heap mid.parent node
    let heap ← avlCalcHight heap node
    let (heap, node) ← avlRebalance heap node
    return (heap, node, 1)

/-- The case of one child: the child gives its key and its children and is unlinked. -/
def removeSingle (heap : NodeHeap μ) (node mid1 : Option ℕ) :
    Outcome (NodeHeap μ × Option ℕ × ℤ) := do
  let here ← heap.load node
  let mid ← heap.load mid1
  let heap ← heap.modify node fun node ↦ { node with key := mid.key, keyMeta := mid.keyMeta }
  let heap ← heap.modify mid1 fun mid ↦ { mid with key := here.key, keyMeta := here.keyMeta }
  let heap ← heap.modify node fun node ↦ { node with left := mid.left }
  let heap ← heap.adopt mid.left node
  let heap ← heap.modify node fun node ↦ { node with right := mid.right }
  let heap ← heap.adopt mid.right node
  let heap ← avlCalcHight heap node
  let (heap, node) ← avlRebalance heap node
  return (avlDeleteNode heap mid1, node, 1)

/-- The recursive calls work on a copy of the child pointer, which is dropped. -/
def avlRemoveNode : ℕ → NodeHeap μ → Option ℕ → Str → Outcome (NodeHeap μ × Option ℕ × ℤ)
  | 0, _, _, _ => .error .nontermination
  | _ + 1, heap, none, _ => .ok (heap, none, -1)
  | fuel + 1, heap, some address, key => do
    let here ← heap.load (some address)
    let order := keyComp here.key key
    if order = 0 then
      match here.left, here.right with
      | none, none => removeLeaf heap (some address)
      | some _, some _ => removeInner fuel heap (some address)
      | some left, none => removeSingle heap (some address) (some left)
      | none, some right => removeSingle heap (some address) (some right)
    else
      let side := if order > 0 then Side.right else Side.left
      let (heap, _, _) ← avlRemoveNode fuel heap (here.child side) key
      let heap ← avlCalcHight heap (some address)
      let (heap, node) ← avlRebalance heap (some address)
      return (heap, node, 1)

end FGDB.HashMap
