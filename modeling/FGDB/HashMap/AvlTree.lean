import FGDB.Foundation.SearchTree
import FGDB.HashMap.AvlNode
import Mathlib.Data.List.Nodup

/-!
# The trees that the nodes of a bucket stand for

A heap represents a tree when each node of the tree is a cell with links to the
roots of its subtrees and to its parent, and with its true height. Each function
on cells is matched with a function on trees; what it leaves alone is stated as
a frame.
-/

namespace FGDB.HashMap

open Foundation SearchTree

structure Entry (μ : Type) where
  addr : ℕ
  key : Str
  keyMeta : μ
  deriving DecidableEq, Repr

abbrev AvlTree (μ : Type) := BinaryTree (Entry μ)

variable {μ : Type}

namespace AvlTree

def root : AvlTree μ → Option ℕ
  | .nil => none
  | .node e _ _ => some e.addr

def addrs (t : AvlTree μ) : List ℕ := (inorder t).map Entry.addr

/-- A tree given by its root, the subtree on a side and the subtree on the other one. -/
def join (side : Side) (e : Entry μ) (near far : AvlTree μ) : AvlTree μ :=
  match side with
  | .left => .node e near far
  | .right => .node e far near

def balance : AvlTree μ → ℤ
  | .nil => 0
  | .node _ l r => r.height - l.height

def rotate : Side → AvlTree μ → AvlTree μ
  | .left => rotateRight
  | .right => rotateLeft

/-- What the source's rebalancing does, with its last test as it is. -/
def rebalance : AvlTree μ → AvlTree μ
  | .nil => .nil
  | .node e l r =>
    if balance (.node e l r) = -2 then
      if balance l = -1 then rotate .left (.node e l r)
      else if balance l = 1 then rotate .left (.node e (rotate .right l) r)
      else .node e l r
    else if balance (.node e l r) = 2 then
      if balance r = 1 then rotate .right (.node e l r)
      else if balance l = -1 then rotate .right (.node e l (rotate .left r))
      else .node e l r
    else .node e l r

/-- The last case has the pivot that it rotates: the right child has a left child. -/
def HasPivot : AvlTree μ → Prop
  | .nil => True
  | .node e l r =>
    balance (.node e l r) = 2 → balance r ≠ 1 → balance l = -1 → r.left ≠ .nil

/-- Rebalancing does nothing here. -/
def Still : AvlTree μ → Prop
  | .nil => True
  | .node e l r =>
    ¬ (balance (.node e l r) = -2 ∧ (balance l = -1 ∨ balance l = 1)) ∧
      ¬ (balance (.node e l r) = 2 ∧ (balance r = 1 ∨ balance l = -1))

instance (t : AvlTree μ) : Decidable (t = .nil) :=
  match t with
  | .nil => isTrue rfl
  | .node _ _ _ => isFalse nofun

instance (t : AvlTree μ) : Decidable (HasPivot t) :=
  match t with
  | .nil => isTrue trivial
  | .node e l r => inferInstanceAs (Decidable (balance (.node e l r) = 2 → balance r ≠ 1 →
      balance l = -1 → ¬ r.left = .nil))

instance (t : AvlTree μ) : Decidable (Still t) :=
  match t with
  | .nil => isTrue trivial
  | .node e l r => inferInstanceAs (Decidable
      (¬ (balance (.node e l r) = -2 ∧ (balance l = -1 ∨ balance l = 1)) ∧
        ¬ (balance (.node e l r) = 2 ∧ (balance r = 1 ∨ balance l = -1))))

@[simp] theorem root_nil : root (.nil : AvlTree μ) = none := rfl

@[simp] theorem root_node (e : Entry μ) (l r : AvlTree μ) : root (.node e l r) = some e.addr := rfl

@[simp] theorem root_join (side : Side) (e : Entry μ) (near far : AvlTree μ) :
    root (join side e near far) = some e.addr := by
  cases side <;> rfl

@[simp] theorem height_join (side : Side) (e : Entry μ) (near far : AvlTree μ) :
    (join side e near far).height = max near.height far.height + 1 := by
  cases side <;> simp [join, max_comm]

@[simp] theorem rotate_join (side : Side) (e m : Entry μ) (near inner far : AvlTree μ) :
    rotate side (join side e (join side m near inner) far) =
      join side m near (join side e inner far) := by
  cases side <;> rfl

theorem join_other (side : Side) (e : Entry μ) (near far : AvlTree μ) :
    join side.other e near far = join side e far near := by
  cases side <;> rfl

@[simp] theorem inorder_rotate (side : Side) (t : AvlTree μ) :
    inorder (rotate side t) = inorder t := by
  cases side <;> simp [rotate]

@[simp] theorem addrs_rotate (side : Side) (t : AvlTree μ) : addrs (rotate side t) = addrs t := by
  rw [addrs, inorder_rotate, addrs]

theorem inorder_rebalance (t : AvlTree μ) : inorder (rebalance t) = inorder t := by
  cases t with
  | nil => rfl
  | node e l r =>
    simp only [rebalance]
    split_ifs <;> simp

theorem rebalance_of_still {t : AvlTree μ} (h : Still t) : rebalance t = t := by
  cases t with
  | nil => rfl
  | node e l r =>
    simp only [Still] at h
    simp only [rebalance]
    split_ifs <;> simp_all

@[simp] theorem addrs_rebalance (t : AvlTree μ) : addrs (rebalance t) = addrs t := by
  rw [addrs, inorder_rebalance, addrs]

theorem addrs_join_perm (side : Side) (e : Entry μ) (near far : AvlTree μ) :
    (addrs (join side e near far)).Perm (e.addr :: (addrs near ++ addrs far)) := by
  cases side with
  | left =>
    simp only [addrs, join, inorder_node, List.map_append, List.map_cons]
    exact List.perm_middle
  | right =>
    simp only [addrs, join, inorder_node, List.map_append, List.map_cons]
    exact List.perm_middle.trans (List.perm_append_comm.cons _)

theorem mem_addrs_join {side : Side} {e : Entry μ} {near far : AvlTree μ} {address : ℕ} :
    address ∈ addrs (join side e near far) ↔
      address = e.addr ∨ address ∈ addrs near ∨ address ∈ addrs far := by
  rw [(addrs_join_perm side e near far).mem_iff, List.mem_cons, List.mem_append]

/-- The nodes of a tree have addresses of their own. -/
theorem nodup_addrs_join {side : Side} {e : Entry μ} {near far : AvlTree μ} :
    (addrs (join side e near far)).Nodup ↔ e.addr ∉ addrs near ∧ e.addr ∉ addrs far ∧
      (addrs near).Nodup ∧ (addrs far).Nodup ∧ ∀ address ∈ addrs near, address ∉ addrs far := by
  rw [(addrs_join_perm side e near far).nodup_iff, List.nodup_cons, List.nodup_append',
    List.mem_append, not_or, and_assoc]
  rfl

end AvlTree

open AvlTree

namespace NodeHeap

/-- Only the given addresses may have changed. -/
def Frame (addresses : List ℕ) (heap heap' : NodeHeap μ) : Prop :=
  heap'.next = heap.next ∧ ∀ address, address ∉ addresses →
    heap'.cells address = heap.cells address

theorem Frame.refl (addresses : List ℕ) (heap : NodeHeap μ) : Frame addresses heap heap :=
  ⟨rfl, fun _ _ ↦ rfl⟩

theorem Frame.trans {addresses : List ℕ} {heap heap' heap'' : NodeHeap μ}
    (h : Frame addresses heap heap') (h' : Frame addresses heap' heap'') :
    Frame addresses heap heap'' :=
  ⟨h'.1.trans h.1, fun address hnot ↦ (h'.2 address hnot).trans (h.2 address hnot)⟩

theorem Frame.mono {addresses more : List ℕ} {heap heap' : NodeHeap μ}
    (h : Frame addresses heap heap') (hsub : ∀ address ∈ addresses, address ∈ more) :
    Frame more heap heap' :=
  ⟨h.1, fun address hnot ↦ h.2 address fun hmem ↦ hnot (hsub address hmem)⟩

theorem frame_set {addresses : List ℕ} {address : ℕ} (heap : NodeHeap μ) (node : AvlNode μ)
    (h : address ∈ addresses) : Frame addresses heap (heap.set address node) := by
  apply And.intro rfl
  intro other hnot
  have hne : other ≠ address := fun heq ↦ hnot (by rw [heq]; exact h)
  exact Function.update_of_ne hne _ _

@[simp] theorem cells_set_self (heap : NodeHeap μ) (address : ℕ) (node : AvlNode μ) :
    (heap.set address node).cells address = some node :=
  Function.update_self _ _ _

theorem cells_set_of_ne (heap : NodeHeap μ) {address other : ℕ} (node : AvlNode μ)
    (h : other ≠ address) : (heap.set address node).cells other = heap.cells other :=
  Function.update_of_ne h _ _

theorem load_of_cells {heap : NodeHeap μ} {address : ℕ} {node : AvlNode μ}
    (h : heap.cells address = some node) : heap.load (some address) = .ok node := by
  simp [load, h]

theorem modify_of_cells {heap : NodeHeap μ} {address : ℕ} {node : AvlNode μ}
    (h : heap.cells address = some node) (change : AvlNode μ → AvlNode μ) :
    heap.modify (some address) change = .ok (heap.set address (change node)) := by
  simp [modify, h]

end NodeHeap

open NodeHeap

/-- The cell of the root of a tree, by sides. -/
def cellOf (side : Side) (e : Entry μ) (parent : Option ℕ) (near far : AvlTree μ) : AvlNode μ :=
  ((⟨e.key, e.keyMeta, none, none, parent, max near.height far.height + 1⟩ : AvlNode μ).setChild
    side (root near)).setChild side.other (root far)

/-- The heap has the tree, and the parent of its root is the given one. -/
def Rep (heap : NodeHeap μ) : Option ℕ → AvlTree μ → Prop
  | _, .nil => True
  | parent, .node e l r => heap.cells e.addr = some (cellOf .left e parent l r) ∧
    Rep heap (some e.addr) l ∧ Rep heap (some e.addr) r

theorem rep_nil (heap : NodeHeap μ) (parent : Option ℕ) : Rep heap parent .nil := trivial

theorem cellOf_left (side : Side) (e : Entry μ) (parent : Option ℕ) (near far : AvlTree μ) :
    cellOf side.other e parent far near = cellOf side e parent near far := by
  cases side <;> simp [cellOf, Side.other, AvlNode.setChild, max_comm]

theorem rep_join {heap : NodeHeap μ} {side : Side} {parent : Option ℕ} {e : Entry μ}
    {near far : AvlTree μ} : Rep heap parent (join side e near far) ↔
      heap.cells e.addr = some (cellOf side e parent near far) ∧
        Rep heap (some e.addr) near ∧ Rep heap (some e.addr) far := by
  cases side with
  | left => rfl
  | right =>
    rw [← cellOf_left, and_comm (a := Rep heap (some e.addr) near)]
    rfl

theorem Rep.congr {heap heap' : NodeHeap μ} {parent : Option ℕ} {t : AvlTree μ}
    (hrep : Rep heap parent t) (h : ∀ address ∈ addrs t, heap'.cells address = heap.cells address) :
    Rep heap' parent t := by
  induction t generalizing parent with
  | nil => trivial
  | node e l r ihl ihr =>
    have hmem {address : ℕ} := @mem_addrs_join μ .left e l r address
    refine ⟨?_, ihl hrep.2.1 fun address hl ↦ h address (hmem.mpr (.inr (.inl hl))),
      ihr hrep.2.2 fun address hr ↦ h address (hmem.mpr (.inr (.inr hr)))⟩
    rw [h e.addr (hmem.mpr (.inl rfl))]
    exact hrep.1

theorem Rep.frame {heap heap' : NodeHeap μ} {parent : Option ℕ} {t : AvlTree μ}
    {addresses : List ℕ} (hrep : Rep heap parent t) (hframe : Frame addresses heap heap')
    (h : ∀ address ∈ addrs t, address ∉ addresses) : Rep heap' parent t :=
  hrep.congr fun address hmem ↦ hframe.2 address (h address hmem)

theorem Rep.set {heap : NodeHeap μ} {parent : Option ℕ} {t : AvlTree μ} {address : ℕ}
    (hrep : Rep heap parent t) (node : AvlNode μ) (h : address ∉ addrs t) :
    Rep (heap.set address node) parent t := by
  apply hrep.congr
  intro other hother
  have hne : other ≠ address := fun heq ↦ h (heq ▸ hother)
  exact cells_set_of_ne heap node hne

/-- The root of a tree gets another parent. -/
theorem adopt_rep {heap : NodeHeap μ} {parent : Option ℕ} {t : AvlTree μ}
    (hrep : Rep heap parent t) (hnodup : (addrs t).Nodup) (parent' : Option ℕ) :
    ∃ heap', heap.adopt (root t) parent' = .ok heap' ∧ Rep heap' parent' t ∧
      Frame (addrs t) heap heap' := by
  cases t with
  | nil => exact ⟨heap, rfl, trivial, Frame.refl _ _⟩
  | node e l r =>
    have hparts := (@nodup_addrs_join μ .left e l r).mp hnodup
    refine ⟨heap.set e.addr (cellOf .left e parent' l r), ?_, ?_, ?_⟩
    · exact modify_of_cells hrep.1 _
    · exact ⟨cells_set_self _ _ _, hrep.2.1.set _ hparts.1, hrep.2.2.set _ hparts.2.1⟩
    · exact frame_set _ _ ((@mem_addrs_join μ .left e l r _).mpr (.inl rfl))

theorem avlGetHight_rep {heap : NodeHeap μ} {parent : Option ℕ} {t : AvlTree μ}
    (hrep : Rep heap parent t) : avlGetHight heap (root t) = .ok t.height := by
  cases t with
  | nil => rfl
  | node e l r => simp only [avlGetHight, root, load_of_cells hrep.1, ok_bind, pure_eq_ok]; rfl

theorem avlCalcBalance_rep {heap : NodeHeap μ} {parent : Option ℕ} {t : AvlTree μ}
    (hrep : Rep heap parent t) : avlCalcBalance heap (root t) = .ok (balance t) := by
  cases t with
  | nil => rfl
  | node e l r =>
    have hleft := avlGetHight_rep hrep.2.1
    have hright := avlGetHight_rep hrep.2.2
    simp only [avlCalcBalance, root, load_of_cells hrep.1, ok_bind, pure_eq_ok]
    simp only [cellOf, AvlNode.setChild, Side.other, hleft, hright, ok_bind, balance]

/-- The height of a cell is made right when its children are. -/
theorem avlCalcHight_cell {heap : NodeHeap μ} {side : Side} {address : ℕ} {node : AvlNode μ}
    {near far : AvlTree μ} (hcell : heap.cells address = some node)
    (hnear : node.child side = root near) (hfar : node.child side.other = root far)
    (hrepNear : Rep heap (some address) near) (hrepFar : Rep heap (some address) far) :
    avlCalcHight heap (some address) =
      .ok (heap.set address { node with hight := max near.height far.height + 1 }) := by
  have hgetNear := avlGetHight_rep hrepNear
  have hgetFar := avlGetHight_rep hrepFar
  rw [← hnear] at hgetNear
  rw [← hfar] at hgetFar
  cases side with
  | left =>
    simp only [AvlNode.child, Side.other] at hgetNear hgetFar
    simp only [avlCalcHight, load_of_cells hcell, ok_bind, hgetNear, hgetFar,
      modify_of_cells hcell]
  | right =>
    simp only [AvlNode.child, Side.other] at hgetNear hgetFar
    simp only [avlCalcHight, load_of_cells hcell, ok_bind, hgetNear, hgetFar,
      modify_of_cells hcell, max_comm]

@[simp] theorem child_setChild (node : AvlNode μ) (side : Side) (pointer : Option ℕ) :
    (node.setChild side pointer).child side = pointer := by
  cases side <;> rfl

@[simp] theorem child_setChild_other (node : AvlNode μ) (side : Side) (pointer : Option ℕ) :
    (node.setChild side.other pointer).child side = node.child side := by
  cases side <;> rfl

@[simp] theorem child_other_setChild (node : AvlNode μ) (side : Side) (pointer : Option ℕ) :
    (node.setChild side pointer).child side.other = node.child side.other := by
  cases side <;> rfl

@[simp] theorem setChild_parent (node : AvlNode μ) (side : Side) (pointer : Option ℕ) :
    (node.setChild side pointer).parent = node.parent := by
  cases side <;> rfl

@[simp] theorem child_cellOf (side : Side) (e : Entry μ) (parent : Option ℕ)
    (near far : AvlTree μ) : (cellOf side e parent near far).child side = root near := by
  simp [cellOf]

@[simp] theorem child_other_cellOf (side : Side) (e : Entry μ) (parent : Option ℕ)
    (near far : AvlTree μ) : (cellOf side e parent near far).child side.other = root far := by
  simp [cellOf]

@[simp] theorem parent_cellOf (side : Side) (e : Entry μ) (parent : Option ℕ)
    (near far : AvlTree μ) : (cellOf side e parent near far).parent = parent := by
  simp [cellOf]

/-- The cell of a node whose height may be out of date. -/
def Stale (heap : NodeHeap μ) (side : Side) (parent : Option ℕ) (e : Entry μ)
    (near far : AvlTree μ) : Prop :=
  ∃ hight, heap.cells e.addr = some { cellOf side e parent near far with hight := hight } ∧
    Rep heap (some e.addr) near ∧ Rep heap (some e.addr) far

theorem Rep.stale {heap : NodeHeap μ} {side : Side} {parent : Option ℕ} {e : Entry μ}
    {near far : AvlTree μ} (hrep : Rep heap parent (join side e near far)) :
    Stale heap side parent e near far :=
  ⟨_, (rep_join.mp hrep).1, (rep_join.mp hrep).2⟩

theorem avlCalcHight_stale {heap : NodeHeap μ} {side : Side} {parent : Option ℕ} {e : Entry μ}
    {near far : AvlTree μ} (hstale : Stale heap side parent e near far)
    (hnodup : (addrs (join side e near far)).Nodup) :
    ∃ heap', avlCalcHight heap (some e.addr) = .ok heap' ∧
      Rep heap' parent (join side e near far) ∧ Frame [e.addr] heap heap' := by
  obtain ⟨hight, hcell, hnear, hfar⟩ := hstale
  have hparts := nodup_addrs_join.mp hnodup
  have hcalc := @avlCalcHight_cell μ heap side e.addr _ near far hcell (by cases side <;> rfl)
    (by cases side <;> rfl) hnear hfar
  refine ⟨_, hcalc, rep_join.mpr ⟨?_, hnear.set _ hparts.1, hfar.set _ hparts.2.1⟩,
    frame_set _ _ (by simp)⟩
  rw [cells_set_self]
  cases side <;> rfl

/-- One move turns the node and its child, and all heights are right again. -/
theorem avlMove_rep {heap : NodeHeap μ} {side : Side} {parent : Option ℕ} {e m : Entry μ}
    {near inner far : AvlTree μ}
    (hstale : Stale heap side parent e (join side m near inner) far)
    (hnodup : (addrs (join side e (join side m near inner) far)).Nodup) :
    ∃ heap', avlMove side heap (some e.addr) = .ok (heap', some m.addr) ∧
      Rep heap' parent (join side m near (join side e inner far)) ∧
      Frame (addrs (join side e (join side m near inner) far)) heap heap' := by
  obtain ⟨hight, hcell, hmid, hfar⟩ := hstale
  obtain ⟨hmcell, hnear, hinner⟩ := rep_join.mp hmid
  obtain ⟨heMid, heFar, hnodupMid, hnodupFar, hdisjoint⟩ := nodup_addrs_join.mp hnodup
  obtain ⟨hmNear, hmInner, hnodupNear, hnodupInner, hsplit⟩ := nodup_addrs_join.mp hnodupMid
  have hne : e.addr ≠ m.addr := fun h ↦ heMid (mem_addrs_join.mpr (.inl h))
  have heNear : e.addr ∉ addrs near := fun h ↦ heMid (mem_addrs_join.mpr (.inr (.inl h)))
  have heInner : e.addr ∉ addrs inner := fun h ↦ heMid (mem_addrs_join.mpr (.inr (.inr h)))
  have hmFar : m.addr ∉ addrs far := hdisjoint _ (mem_addrs_join.mpr (.inl rfl))
  have hInnerFar (a : ℕ) (h : a ∈ addrs inner) : a ∉ addrs far :=
    hdisjoint a (mem_addrs_join.mpr (.inr (.inr h)))
  obtain ⟨c1, hc1⟩ : ∃ c1, ({ cellOf side e parent (join side m near inner) far with
    hight := hight } : AvlNode μ).setChild side (root inner) = c1 := ⟨_, rfl⟩
  obtain ⟨h2, hadopt, hinner2, hframe2⟩ :=
    adopt_rep (hinner.set c1 heInner) hnodupInner (some e.addr)
  have he2 : h2.cells e.addr = some c1 := (hframe2.2 _ heInner).trans (cells_set_self _ _ _)
  have hm2 : h2.cells m.addr = some (cellOf side m (some e.addr) near inner) :=
    (hframe2.2 _ hmInner).trans ((cells_set_of_ne _ _ hne.symm).trans hmcell)
  have hparent : c1.parent = parent := by
    rw [← hc1]
    cases side <;> rfl
  obtain ⟨h3, hh3⟩ : ∃ h3, h2.set m.addr { cellOf side m (some e.addr) near inner with
    parent := parent } = h3 := ⟨_, rfl⟩
  have he3 : h3.cells e.addr = some c1 := by rw [← hh3, cells_set_of_ne _ _ hne, he2]
  obtain ⟨h4, hh4⟩ : ∃ h4, h3.set e.addr { c1 with parent := some m.addr } = h4 := ⟨_, rfl⟩
  have hm4 : h4.cells m.addr = some { cellOf side m (some e.addr) near inner with
      parent := parent } := by
    rw [← hh4, cells_set_of_ne _ _ hne.symm, ← hh3, cells_set_self]
  obtain ⟨h5, hh5⟩ : ∃ h5, h4.set m.addr (({ cellOf side m (some e.addr) near inner with
    parent := parent } : AvlNode μ).setChild side.other (some e.addr)) = h5 := ⟨_, rfl⟩
  have hkeep {t : AvlTree μ} {p : Option ℕ} (hrep : Rep h2 p t) (he : e.addr ∉ addrs t)
      (hm : m.addr ∉ addrs t) : Rep h5 p t := by
    rw [← hh5, ← hh4, ← hh3]
    exact ((hrep.set _ hm).set _ he).set _ hm
  have hstale5 : Stale h5 side (some m.addr) e inner far := by
    refine ⟨hight, ?_, hkeep hinner2 heInner hmInner,
      hkeep ((hfar.set c1 heFar).frame hframe2 fun a h h' ↦ hInnerFar a h' h) heFar hmFar⟩
    rw [← hh5, cells_set_of_ne _ _ hne, ← hh4, cells_set_self, ← hc1]
    cases side <;> rfl
  have hnodup5 : (addrs (join side e inner far)).Nodup :=
    nodup_addrs_join.mpr ⟨heInner, heFar, hnodupInner, hnodupFar, hInnerFar⟩
  obtain ⟨h6, hcalc6, hrep6, hframe6⟩ := avlCalcHight_stale hstale5 hnodup5
  have hmNotSelf : m.addr ∉ [e.addr] := by simpa using hne.symm
  have hstale6 : Stale h6 side parent m near (join side e inner far) := by
    have hnear5 : Rep h5 (some m.addr) near :=
      hkeep ((hnear.set c1 heNear).frame hframe2 hsplit) heNear hmNear
    have hnear6 : Rep h6 (some m.addr) near := hnear5.frame hframe6 fun a h h' ↦
      heNear (List.mem_singleton.mp h' ▸ h)
    refine ⟨max near.height inner.height + 1, ?_, hnear6, hrep6⟩
    rw [hframe6.2 _ hmNotSelf, ← hh5, cells_set_self]
    cases side <;> rfl
  have hnodup6 : (addrs (join side m near (join side e inner far))).Nodup := by
    rw [← rotate_join, addrs_rotate]
    exact hnodup
  obtain ⟨h7, hcalc7, hrep7, hframe7⟩ := avlCalcHight_stale hstale6 hnodup6
  refine ⟨h7, ?_, hrep7, ?_⟩
  · have hchild : ({ cellOf side e parent (join side m near inner) far with
        hight := hight } : AvlNode μ).child side = some m.addr := by
      cases side <;> rfl
    simp only [avlMove, load_of_cells hcell, ok_bind, hchild, load_of_cells hmcell,
      child_other_cellOf, modify_of_cells hcell, hc1, hadopt, load_of_cells he2, hparent,
      modify_of_cells hm2, hh3, modify_of_cells he3, hh4, modify_of_cells hm4, hh5, hcalc6,
      hcalc7, pure_eq_ok]
  · have he : e.addr ∈ addrs (join side e (join side m near inner) far) :=
      mem_addrs_join.mpr (.inl rfl)
    have hm : m.addr ∈ addrs (join side e (join side m near inner) far) :=
      mem_addrs_join.mpr (.inr (.inl (mem_addrs_join.mpr (.inl rfl))))
    have hinner' : ∀ a ∈ addrs inner, a ∈ addrs (join side e (join side m near inner) far) :=
      fun a h ↦ mem_addrs_join.mpr (.inr (.inl (mem_addrs_join.mpr (.inr (.inr h)))))
    have hframe3 : Frame _ h2 h3 := hh3 ▸ frame_set h2 _ hm
    have hframe4 : Frame _ h3 h4 := hh4 ▸ frame_set h3 _ he
    have hframe5 : Frame _ h4 h5 := hh5 ▸ frame_set h4 _ hm
    have hsingle {a : ℕ} (h : a ∈ addrs (join side e (join side m near inner) far)) :
        ∀ b ∈ [a], b ∈ addrs (join side e (join side m near inner) far) := by
      simpa using h
    exact ((((((frame_set heap c1 he).trans (hframe2.mono hinner')).trans hframe3).trans
      hframe4).trans hframe5).trans (hframe6.mono (hsingle he))).trans (hframe7.mono (hsingle hm))

/-- The double move: the grandchild comes up, and all heights are right again. -/
theorem avlDoubleMove_rep {heap : NodeHeap μ} {side : Side} {parent : Option ℕ} {e m k : Entry μ}
    {near near' far far' : AvlTree μ}
    (hrep : Rep heap parent (join side e (join side.other m (join side.other k near near') far')
      far))
    (hnodup : (addrs (join side e (join side.other m (join side.other k near near') far')
      far)).Nodup) :
    ∃ heap', avlDoubleMove side heap (some e.addr) = .ok (heap', some k.addr) ∧
      Rep heap' parent (join side k (join side.other m near' far') (join side e near far)) ∧
      Frame (addrs (join side e (join side.other m (join side.other k near near') far') far))
        heap heap' := by
  obtain ⟨hcell, hchild, hfar⟩ := rep_join.mp hrep
  obtain ⟨heChild, heFar, hnodupChild, hnodupFar, hdisjoint⟩ := nodup_addrs_join.mp hnodup
  obtain ⟨h1, hmove1, hrep1, hframe1⟩ := avlMove_rep hchild.stale hnodupChild
  have hsame : (addrs (join side.other k near (join side.other m near' far'))).Perm
      (addrs (join side.other m (join side.other k near near') far')) := by
    rw [← rotate_join, addrs_rotate]
  have he1 : h1.cells e.addr = some (cellOf side e parent
      (join side.other m (join side.other k near near') far') far) :=
    (hframe1.2 _ heChild).trans hcell
  obtain ⟨h2, hh2⟩ : ∃ h2, h1.set e.addr ((cellOf side e parent
    (join side.other m (join side.other k near near') far') far).setChild side (some k.addr)) =
      h2 := ⟨_, rfl⟩
  rw [join_other] at hrep1 hsame
  have hstale2 : Stale h2 side parent e (join side k (join side.other m near' far') near) far := by
    have heNew : e.addr ∉ addrs (join side k (join side.other m near' far') near) :=
      fun h ↦ heChild (hsame.mem_iff.mp h)
    refine ⟨max (join side.other m (join side.other k near near') far').height far.height + 1, ?_,
      hh2 ▸ hrep1.set _ heNew, hh2 ▸ (hfar.frame hframe1 fun a h h' ↦ hdisjoint a h' h).set _ heFar⟩
    rw [← hh2, cells_set_self]
    cases side <;> rfl
  have hperm : (addrs (join side e (join side k (join side.other m near' far') near) far)).Perm
      (addrs (join side e (join side.other m (join side.other k near near') far') far)) :=
    (addrs_join_perm _ _ _ _).trans (((hsame.append_right _).cons _).trans
      (addrs_join_perm _ _ _ _).symm)
  obtain ⟨h3, hmove3, hrep3, hframe3⟩ := avlMove_rep hstale2 (hperm.nodup_iff.mpr hnodup)
  refine ⟨h3, ?_, hrep3, ?_⟩
  · simp only [avlDoubleMove, load_of_cells hcell, ok_bind, child_cellOf, root_join, hmove1,
      modify_of_cells he1, hh2, hmove3]
  · have hframe2 : Frame (addrs (join side e (join side.other m (join side.other k near near') far')
        far)) h1 h2 := hh2 ▸ frame_set h1 _ (mem_addrs_join.mpr (.inl rfl))
    have hchildFrame := hframe1.mono fun a h ↦ (mem_addrs_join.mpr (.inr (.inl h)) :
      a ∈ addrs (join side e (join side.other m (join side.other k near near') far') far))
    exact (hchildFrame.trans hframe2).trans (hframe3.mono fun a h ↦ hperm.mem_iff.mp h)

theorem exists_node_of_balance {t : AvlTree μ} (h : balance t ≠ 0) :
    ∃ e l r, t = .node e l r := by
  cases t with
  | nil => exact absurd rfl h
  | node e l r => exact ⟨e, l, r, rfl⟩

theorem exists_node_of_height {t : AvlTree μ} (h : 0 < t.height) : ∃ e l r, t = .node e l r := by
  cases t with
  | nil => exact absurd h (by simp)
  | node e l r => exact ⟨e, l, r, rfl⟩

/-- The rebalancing of the cells is the rebalancing of the tree, as long as it finds its pivot. -/
theorem avlRebalance_rep {heap : NodeHeap μ} {parent : Option ℕ} {t : AvlTree μ}
    (hrep : Rep heap parent t) (hnodup : (addrs t).Nodup) (hpivot : HasPivot t) :
    ∃ heap', avlRebalance heap (root t) = .ok (heap', root (rebalance t)) ∧
      Rep heap' parent (rebalance t) ∧ Frame (addrs t) heap heap' := by
  have hbalance := avlCalcBalance_rep hrep
  have hdone : ∃ heap', (.ok (heap, root t) : Outcome (NodeHeap μ × Option ℕ)) =
      .ok (heap', root t) ∧ Rep heap' parent t ∧ Frame (addrs t) heap heap' :=
    ⟨heap, rfl, hrep, Frame.refl _ _⟩
  cases t with
  | nil => exact hdone
  | node e l r =>
    have hleft := avlCalcBalance_rep hrep.2.1
    have hright := avlCalcBalance_rep hrep.2.2
    have hload : heap.load (root (.node e l r)) = .ok (cellOf .left e parent l r) :=
      load_of_cells hrep.1
    have hcellLeft : (cellOf .left e parent l r).left = root l := rfl
    have hcellRight : (cellOf .left e parent l r).right = root r := rfl
    simp only [avlRebalance, hbalance, ok_bind, hload, hcellLeft, hcellRight, hleft, hright,
      pure_eq_ok, rebalance]
    by_cases hlow : balance (.node e l r) = -2
    · simp only [if_pos hlow]
      by_cases hsingle : balance l = -1
      · simp only [if_pos hsingle]
        obtain ⟨m, a, b, rfl⟩ := exists_node_of_balance (by omega : balance l ≠ 0)
        exact @avlMove_rep μ heap .left parent e m a b r hrep.stale hnodup
      · simp only [if_neg hsingle]
        by_cases hdouble : balance l = 1
        · simp only [if_pos hdouble]
          obtain ⟨m, a, b, rfl⟩ := exists_node_of_balance (by omega : balance l ≠ 0)
          simp only [balance] at hdouble
          obtain ⟨k, c, d, rfl⟩ := exists_node_of_height (by omega : 0 < b.height)
          exact @avlDoubleMove_rep μ heap .left parent e m k d c r a hrep hnodup
        · simpa only [if_neg hdouble] using hdone
    · simp only [if_neg hlow]
      by_cases hhigh : balance (.node e l r) = 2
      · simp only [if_pos hhigh]
        by_cases hsingle : balance r = 1
        · simp only [if_pos hsingle]
          obtain ⟨m, a, b, rfl⟩ := exists_node_of_balance (by omega : balance r ≠ 0)
          exact @avlMove_rep μ heap .right parent e m b a l
            (@Rep.stale μ heap .right parent e (.node m a b) l hrep) hnodup
        · simp only [if_neg hsingle]
          by_cases hdouble : balance l = -1
          · simp only [if_pos hdouble]
            have hinner := hpivot hhigh hsingle hdouble
            simp only [balance] at hhigh
            obtain ⟨m, a, b, rfl⟩ := exists_node_of_height (by omega : 0 < r.height)
            cases a with
            | nil => exact absurd rfl hinner
            | node k c d =>
              exact @avlDoubleMove_rep μ heap .right parent e m k c d l b hrep hnodup
          · simpa only [if_neg hdouble] using hdone
      · simpa only [if_neg hhigh] using hdone

/-- Without the pivot the last case of the rebalancing follows a NULL pointer. -/
theorem avlRebalance_null {heap : NodeHeap μ} {parent : Option ℕ} {t : AvlTree μ}
    (hrep : Rep heap parent t) (hpivot : ¬ HasPivot t) :
    avlRebalance heap (root t) = .error .nullPointer := by
  have hbalance := avlCalcBalance_rep hrep
  cases t with
  | nil => exact absurd trivial hpivot
  | node e l r =>
    simp only [HasPivot, Classical.not_imp, not_not] at hpivot
    obtain ⟨hhigh, hsingle, hdouble, hinner⟩ := hpivot
    have hlow : ¬ (2 : ℤ) = -2 := by decide
    have hleft := avlCalcBalance_rep hrep.2.1
    have hright := avlCalcBalance_rep hrep.2.2
    have hload : heap.load (root (.node e l r)) = .ok (cellOf .left e parent l r) :=
      load_of_cells hrep.1
    have hcellLeft : (cellOf .left e parent l r).left = root l := rfl
    have hcellRight : (cellOf .left e parent l r).right = root r := rfl
    have hchild : (cellOf .left e parent l r).child .right = root r := rfl
    simp only [avlRebalance, hbalance, ok_bind, hhigh, if_neg hlow, if_true, hload, hcellLeft,
      hcellRight, hleft, hright, if_neg hsingle, hdouble, avlRLMove, avlDoubleMove, hchild]
    simp only [balance] at hhigh
    obtain ⟨m, a, b, rfl⟩ := exists_node_of_height (by omega : 0 < r.height)
    obtain rfl : a = .nil := hinner
    have hmid : heap.load (root (.node m .nil b)) = .ok (cellOf .left m (some e.addr) .nil b) :=
      load_of_cells hrep.2.2.1
    have hinnermost : (cellOf .left m (some e.addr) .nil b).child .left = none := rfl
    have hnull : heap.load none = .error .nullPointer := rfl
    simp only [avlMove, Side.other, hmid, ok_bind, hinnermost, hnull, error_bind]

/-- A call that ends with the rebalancing of a tree, after which it may free a node outside it. It
has touched the given addresses only. -/
def EndsIn (call : Outcome (NodeHeap μ × Option ℕ × ℤ)) (addresses : List ℕ) (heap : NodeHeap μ)
    (parent : Option ℕ) (t : AvlTree μ) : Prop :=
  ∃ heap' gone, call = (avlRebalance heap' (root t) >>= fun result ↦
      .ok (avlDeleteNode result.1 gone, result.2, 1)) ∧
    Rep heap' parent t ∧ Frame addresses heap heap' ∧
      ∀ address, gone = some address → address ∈ addresses ∧ address ∉ addrs t

theorem frame_delete {addresses : List ℕ} {address : ℕ} (heap : NodeHeap μ)
    (h : address ∈ addresses) : Frame addresses heap (avlDeleteNode heap (some address)) := by
  apply And.intro rfl
  intro other hnot
  have hne : other ≠ address := fun heq ↦ hnot (by rw [heq]; exact h)
  exact Function.update_of_ne hne _ _

theorem Rep.delete {heap : NodeHeap μ} {parent : Option ℕ} {t : AvlTree μ} {address : ℕ}
    (hrep : Rep heap parent t) (h : address ∉ addrs t) :
    Rep (avlDeleteNode heap (some address)) parent t :=
  hrep.frame (frame_delete heap (List.mem_singleton.mpr rfl)) fun _ hmem heq ↦
    h (List.mem_singleton.mp heq ▸ hmem)

/-- The call leaves the rebalanced tree when it finds the pivot. -/
theorem EndsIn.ok {call : Outcome (NodeHeap μ × Option ℕ × ℤ)} {addresses : List ℕ}
    {heap : NodeHeap μ} {parent : Option ℕ} {t : AvlTree μ}
    (h : EndsIn call addresses heap parent t) (hnodup : (addrs t).Nodup)
    (hsub : ∀ address ∈ addrs t, address ∈ addresses) (hpivot : HasPivot t) :
    ∃ heap', call = .ok (heap', root (rebalance t), 1) ∧ Rep heap' parent (rebalance t) ∧
      Frame addresses heap heap' := by
  obtain ⟨heap1, gone, rfl, hrep1, hframe1, hgone⟩ := h
  obtain ⟨heap2, hbalance, hrep2, hframe2⟩ := avlRebalance_rep hrep1 hnodup hpivot
  have hframe := hframe1.trans (hframe2.mono hsub)
  rw [hbalance, ok_bind]
  cases gone with
  | none => exact ⟨heap2, rfl, hrep2, hframe⟩
  | some address =>
    obtain ⟨hmem, hnot⟩ := hgone address rfl
    refine ⟨avlDeleteNode heap2 (some address), rfl, hrep2.delete ?_,
      hframe.trans (frame_delete heap2 hmem)⟩
    rwa [addrs_rebalance]

theorem EndsIn.fails {call : Outcome (NodeHeap μ × Option ℕ × ℤ)} {addresses : List ℕ}
    {heap : NodeHeap μ} {parent : Option ℕ} {t : AvlTree μ}
    (h : EndsIn call addresses heap parent t) (hpivot : ¬ HasPivot t) :
    call = .error .nullPointer := by
  obtain ⟨heap1, gone, rfl, hrep1, -, -⟩ := h
  rw [avlRebalance_null hrep1 hpivot, error_bind]

end FGDB.HashMap
