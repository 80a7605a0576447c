import FGDB.HashMap.AvlNode

/-!
# The table of trees, and the map over it

A table has a slot for each value of the hash. The length of a slot says what
its pointer points to: below the threshold the tree of a bucket, above it a
child table, one deeper. A bucket that reaches the threshold is turned into a
child table.
-/

namespace FGDB.HashMap

open Foundation

/-- What the pointer of a slot points to. -/
inductive VoidPtr (μ : Type)
  | null
  | avlnode (heap : NodeHeap μ) (root : ℕ)
  | hmNode (dep : ℕ) (lenOfList : ℕ → ℕ) (top : ℕ → VoidPtr μ)

variable {μ : Type}

namespace VoidPtr

def ofTree (heap : NodeHeap μ) : Option ℕ → VoidPtr μ
  | none => null
  | some root => avlnode heap root

/-- The pointer used as one to a tree node. -/
def toTree : VoidPtr μ → Outcome (NodeHeap μ × Option ℕ)
  | null => .ok (NodeHeap.empty, none)
  | avlnode heap root => .ok (heap, some root)
  | hmNode _ _ _ => .error .typeConfusion

end VoidPtr

def hashNewNode (dep : ℕ) : VoidPtr μ := .hmNode dep (fun _ ↦ 0) fun _ ↦ .null

/-- The loop of `hash_search`. -/
def searchFrom (key : Str) : VoidPtr μ → Outcome (Option (AvlNode μ))
  | .null => .error .nullPointer
  | .avlnode _ _ => .error .typeConfusion
  | .hmNode dep lenOfList top =>
    if lenOfList (hash key dep) < maxHashDep then do
      let (heap, root) ← (top (hash key dep)).toTree
      match ← avlSearch heap.fuel heap root key with
      | none => return none
      | some address => return some (← heap.load (some address))
    else searchFrom key (top (hash key dep))

def hashSearch (node : VoidPtr μ) (key : Str) : Outcome (Option (AvlNode μ)) :=
  match node with
  | .null => .ok none
  | .avlnode _ _ | .hmNode _ _ _ => searchFrom key node

/-- Put a fresh node into the tree of a slot, or make it the tree. -/
def linkNode (heap : NodeHeap μ) (root new : Option ℕ) : Outcome (VoidPtr μ × ℤ) :=
  match root with
  | none => .ok (.ofTree heap new, 1)
  | some _ => do
    let (heap, root, answer) ← avlInsertNode heap.fuel heap root new
    return (.ofTree heap root, answer)

/-- A node of an old tree becomes a node of a table; it keeps its address. -/
def moveNode (dep next address : ℕ) (go : AvlNode μ) (table : (ℕ → ℕ) × (ℕ → VoidPtr μ)) :
    Outcome ((ℕ → ℕ) × (ℕ → VoidPtr μ)) := do
  let index := hash go.key dep
  let (heap, root) ← (table.2 index).toTree
  let moved : NodeHeap μ :=
    { heap.set address ⟨go.key, go.keyMeta, none, none, none, 1⟩ with next := next }
  let (tree, _) ← linkNode moved root (some address)
  return (Function.update table.1 index (wrap32 (table.1 index + 1)),
    Function.update table.2 index tree)

/-- `__hash_insert_avl_in_hash`: the nodes of a tree move to a new table, children first. -/
def hashInsertAvlInHash (dep : ℕ) (old : NodeHeap μ) :
    ℕ → Option ℕ → (ℕ → ℕ) × (ℕ → VoidPtr μ) → Outcome ((ℕ → ℕ) × (ℕ → VoidPtr μ))
  | 0, _, _ => .error .nontermination
  | _ + 1, none, table => .ok table
  | fuel + 1, some address, table => do
    let go ← old.load (some address)
    let table ← hashInsertAvlInHash dep old fuel go.left table
    let table ← hashInsertAvlInHash dep old fuel go.right table
    moveNode dep old.next address go table

/-- `__hash_remake`. -/
def hashRemake (dep : ℕ) (lenOfList : ℕ → ℕ) (top : ℕ → VoidPtr μ) (index : ℕ) :
    Outcome (VoidPtr μ) :=
  if lenOfList index ≠ maxHashDep then .ok (.hmNode dep lenOfList top)
  else do
    let (heap, root) ← (top index).toTree
    let (childLen, childTop) ←
      hashInsertAvlInHash (dep + 1) heap heap.fuel root (fun _ ↦ 0, fun _ ↦ .null)
    return .hmNode dep (Function.update lenOfList index (wrap32 (lenOfList index + 1)))
      (Function.update top index (.hmNode (dep + 1) childLen childTop))

/-- The loop of `hash_insert` and what follows it. -/
def insertFrom (key : Str) (keyMeta : μ) : VoidPtr μ → Outcome (VoidPtr μ × ℤ)
  | .null => .error .nullPointer
  | .avlnode _ _ => .error .typeConfusion
  | .hmNode dep lenOfList top =>
    if lenOfList (hash key dep) ≥ maxHashDep then do
      let (child, result) ← insertFrom key keyMeta (top (hash key dep))
      return (.hmNode dep lenOfList (Function.update top (hash key dep) child), result)
    else do
      let index := hash key dep
      let (heap, root) ← (top index).toTree
      let (heap, new) := avlNewNode heap key keyMeta
      let (tree, answer) ← linkNode heap root new
      let lenOfList := Function.update lenOfList index (wrap32 (lenOfList index + 1))
      let top := Function.update top index tree
      if answer = -1 then return (.hmNode dep lenOfList top, -1)
      else return (← hashRemake dep lenOfList top index, 1)

def hashInsert (node : VoidPtr μ) (key : Str) (keyMeta : μ) : Outcome (VoidPtr μ × ℤ) :=
  match node with
  | .null => .ok (.null, -1)
  | .avlnode _ _ | .hmNode _ _ _ => insertFrom key keyMeta node

/-- The loop of `hash_delete`. -/
def deleteFrom (key : Str) : VoidPtr μ → Outcome (VoidPtr μ)
  | .null => .error .nullPointer
  | .avlnode _ _ => .error .typeConfusion
  | .hmNode dep lenOfList top =>
    if lenOfList (hash key dep) < maxHashDep then do
      let index := hash key dep
      let (heap, root) ← (top index).toTree
      let (heap, root, stat) ← avlRemoveNode heap.fuel heap root key
      let lenOfList := if stat = 1 then
        Function.update lenOfList index (wrap32 (lenOfList index + (2 ^ 32 - 1))) else lenOfList
      return .hmNode dep lenOfList (Function.update top index (.ofTree heap root))
    else do
      let child ← deleteFrom key (top (hash key dep))
      return .hmNode dep lenOfList (Function.update top (hash key dep) child)

def hashDelete (node : VoidPtr μ) (key : Str) : Outcome (VoidPtr μ × ℤ) :=
  match node with
  | .null => .ok (.null, 0)
  | .avlnode _ _ | .hmNode _ _ _ => do return (← deleteFrom key node, 1)

/-- `hashmap_error_t`. -/
inductive HashmapError
  | success
  | keyFound
  | noSpaceLeft
  | internalError
  deriving DecidableEq, Repr

/-- `key_meta_t`; a missing key is NULL. -/
structure KeyMeta where
  weakKey : Option Str
  headerKeyId : ℕ
  page : ℕ
  deriving DecidableEq, Repr

def hashmapNew : VoidPtr μ := hashNewNode 0

def hashmapInsertKey (hmap : VoidPtr μ) (keyMeta : μ) (key : Str) :
    Outcome (VoidPtr μ × ℤ × HashmapError) := do
  match ← hashSearch hmap key with
  | some _ => return (hmap, -1, .keyFound)
  | none => do
    let (hmap, result) ← hashInsert hmap key keyMeta
    if result ≠ 1 then return (hmap, -1, .internalError)
    else return (hmap, 0, .success)

def hashmapLookupKey (hmap : VoidPtr μ) (key : Str) : Outcome (Option μ × HashmapError) := do
  match ← hashSearch hmap key with
  | some found => return (some found.keyMeta, .success)
  | none => return (none, .success)

/-- The result is a copy of the meta without its key, made before the node goes; `metas` is the
memory behind the pointers. -/
def hashmapDeleteKey (metas : μ → Outcome KeyMeta) (hmap : VoidPtr μ) (key : Str) :
    Outcome (VoidPtr μ × Option KeyMeta × HashmapError) := do
  match ← hashSearch hmap key with
  | none => return (hmap, none, .success)
  | some found => do
    let keyMeta ← metas found.keyMeta
    let (hmap, result) ← hashDelete hmap key
    if result = 1 then return (hmap, some { keyMeta with weakKey := none }, .success)
    else .error .assertionFailed

end FGDB.HashMap
