import FGDB.HashMap.AvlRemove

/-!
# Nodes that a removal loses

A set of cells is closed when its cells point into it. Moving and rebalancing a
cell of a closed set leaves the set closed, so a node outside it stays outside.
A rotation below the root, whose new root nobody stores back, leaves the other
nodes of its subtree closed, and so do all later steps of the removal.
-/

namespace FGDB.HashMap

open Foundation AvlTree NodeHeap
open SearchTree hiding insert find Sorted erase

variable {μ : Type}

theorem Side.eq_or_other (side other : Side) : other = side ∨ other = side.other := by
  cases side <;> cases other <;> simp [Side.other]

/-- The cells of the set point to cells of the set. -/
def Closed (inside : Set ℕ) (heap : NodeHeap μ) : Prop :=
  ∀ address ∈ inside, ∀ node, heap.cells address = some node →
    ∀ side child, node.child side = some child → child ∈ inside

/-- A step that changes cells of a closed set only and leaves it closed. -/
structure Keeps (inside : Set ℕ) (heap heap' : NodeHeap μ) : Prop where
  closed : Closed inside heap'
  frame : ∀ address ∉ inside, heap'.cells address = heap.cells address

theorem Keeps.refl {inside : Set ℕ} {heap : NodeHeap μ} (h : Closed inside heap) :
    Keeps inside heap heap :=
  ⟨h, fun _ _ ↦ rfl⟩

theorem Keeps.trans {inside : Set ℕ} {heap heap' heap'' : NodeHeap μ}
    (h : Keeps inside heap heap') (h' : Keeps inside heap' heap'') : Keeps inside heap heap'' :=
  ⟨h'.closed, fun address hnot ↦ (h'.frame address hnot).trans (h.frame address hnot)⟩

theorem Closed.set {inside : Set ℕ} {heap : NodeHeap μ} {address : ℕ} {node : AvlNode μ}
    (h : Closed inside heap) (hmem : address ∈ inside)
    (hnode : ∀ side child, node.child side = some child → child ∈ inside) :
    Keeps inside heap (heap.set address node) := by
  constructor
  · intro other hother cell hcell
    by_cases heq : other = address
    · rw [heq, cells_set_self] at hcell
      cases hcell
      exact hnode
    · rw [cells_set_of_ne _ _ heq] at hcell
      exact h other hother cell hcell
  · intro other hnot
    apply cells_set_of_ne
    rintro rfl
    exact hnot hmem

theorem load_eq_ok {heap : NodeHeap μ} {pointer : Option ℕ} {node : AvlNode μ} :
    heap.load pointer = .ok node ↔
      ∃ address, pointer = some address ∧ heap.cells address = some node := by
  cases pointer with
  | none => simp [NodeHeap.load]
  | some address => cases hcell : heap.cells address <;> simp [NodeHeap.load, hcell]

theorem modify_eq_ok {heap heap' : NodeHeap μ} {pointer : Option ℕ}
    {change : AvlNode μ → AvlNode μ} : heap.modify pointer change = .ok heap' ↔
      ∃ address node, pointer = some address ∧ heap.cells address = some node ∧
        heap' = heap.set address (change node) := by
  cases pointer with
  | none => simp [NodeHeap.modify]
  | some address =>
    cases hcell : heap.cells address with
    | none => simp [NodeHeap.modify, hcell]
    | some node => simp [NodeHeap.modify, hcell, eq_comm]

/-- A change of a cell that gives it no child from outside. -/
theorem Closed.modify {inside : Set ℕ} {heap heap' : NodeHeap μ} {address : ℕ}
    {change : AvlNode μ → AvlNode μ} (h : Closed inside heap) (hmem : address ∈ inside)
    (hrun : heap.modify (some address) change = .ok heap')
    (hchange : ∀ node side child, (change node).child side = some child →
      node.child side = some child ∨ child ∈ inside) : Keeps inside heap heap' := by
  obtain ⟨_, node, heq, hcell, rfl⟩ := modify_eq_ok.mp hrun
  cases heq
  apply h.set hmem
  intro side child hchild
  rcases hchange node side child hchild with hchild | hchild
  · exact h address hmem node hcell side child hchild
  · exact hchild

theorem Closed.adopt {inside : Set ℕ} {heap heap' : NodeHeap μ} {node parent : Option ℕ}
    (h : Closed inside heap) (hmem : ∀ address, node = some address → address ∈ inside)
    (hrun : heap.adopt node parent = .ok heap') : Keeps inside heap heap' := by
  cases node with
  | none =>
    cases hrun
    exact Keeps.refl h
  | some address =>
    apply h.modify (hmem address rfl) hrun
    intro node side child hchild
    cases side <;> exact .inl hchild

theorem child_hight (node : AvlNode μ) (hight : ℕ) (side : Side) :
    ({ node with hight := hight } : AvlNode μ).child side = node.child side := by
  cases side <;> rfl

/-- The height of a cell is all that its computation changes. -/
theorem avlCalcHight_set {heap heap' : NodeHeap μ} {address : ℕ}
    (hrun : avlCalcHight heap (some address) = .ok heap') :
    ∃ node hight, heap.cells address = some node ∧
      heap' = heap.set address { node with hight := hight } := by
  obtain ⟨node, hload, hrun⟩ := bind_eq_ok.mp hrun
  obtain ⟨left, -, hrun⟩ := bind_eq_ok.mp hrun
  obtain ⟨right, -, hrun⟩ := bind_eq_ok.mp hrun
  obtain ⟨_, node, heq, hcell, rfl⟩ := modify_eq_ok.mp hrun
  cases heq
  exact ⟨node, _, hcell, rfl⟩

theorem Closed.calcHight {inside : Set ℕ} {heap heap' : NodeHeap μ} {address : ℕ}
    (h : Closed inside heap) (hmem : address ∈ inside)
    (hrun : avlCalcHight heap (some address) = .ok heap') : Keeps inside heap heap' := by
  obtain ⟨node, hight, hcell, rfl⟩ := avlCalcHight_set hrun
  apply h.set hmem
  intro side child hchild
  rw [child_hight] at hchild
  exact h address hmem node hcell side child hchild

/-- The parent that a cell has. -/
def parentAt (heap : NodeHeap μ) (address : ℕ) : Option ℕ :=
  (heap.cells address).bind AvlNode.parent

theorem parentAt_set_self (heap : NodeHeap μ) (address : ℕ) (node : AvlNode μ) :
    parentAt (heap.set address node) address = node.parent := by
  rw [parentAt, cells_set_self, Option.bind_some]

theorem parentAt_set_of_ne (heap : NodeHeap μ) {address other : ℕ} (node : AvlNode μ)
    (h : other ≠ address) : parentAt (heap.set address node) other = parentAt heap other := by
  rw [parentAt, cells_set_of_ne _ _ h, parentAt]

/-- A change of one cell keeps the parents of the others, and its own unless it writes it. -/
theorem parentAt_modify {heap heap' : NodeHeap μ} {address other : ℕ}
    {change : AvlNode μ → AvlNode μ} (hrun : heap.modify (some address) change = .ok heap')
    (h : other ≠ address ∨ ∀ node, (change node).parent = node.parent) :
    parentAt heap' other = parentAt heap other := by
  obtain ⟨_, node, heq, hcell, rfl⟩ := modify_eq_ok.mp hrun
  cases heq
  by_cases heq : other = address
  · rw [heq, parentAt_set_self, parentAt, hcell, Option.bind_some]
    exact (h.resolve_left (not_not.mpr heq)) node
  · exact parentAt_set_of_ne _ _ heq

theorem parentAt_calcHight {heap heap' : NodeHeap μ} {address : ℕ}
    (hrun : avlCalcHight heap (some address) = .ok heap') (other : ℕ) :
    parentAt heap' other = parentAt heap other := by
  obtain ⟨node, hight, hcell, rfl⟩ := avlCalcHight_set hrun
  by_cases heq : other = address
  · rw [heq, parentAt_set_self, parentAt, hcell, Option.bind_some]
  · exact parentAt_set_of_ne _ _ heq

theorem child_mem_setChild {inside : Set ℕ} {side : Side} {pointer : Option ℕ}
    (hmem : ∀ address, pointer = some address → address ∈ inside) (node : AvlNode μ)
    (other : Side) (child : ℕ) (hchild : (node.setChild side pointer).child other = some child) :
    node.child other = some child ∨ child ∈ inside := by
  cases side <;> cases other
  · exact .inr (hmem child hchild)
  · exact .inl hchild
  · exact .inl hchild
  · exact .inr (hmem child hchild)

/-- A move stays inside. When no cell inside points to the moved one, the cell that comes up gets
its parent. -/
theorem avlMove_keeps {inside : Set ℕ} {heap heap' : NodeHeap μ} {side : Side} {address : ℕ}
    {pointer : Option ℕ} (h : Closed inside heap) (hmem : address ∈ inside)
    (hrun : avlMove side heap (some address) = .ok (heap', pointer)) :
    ∃ up ∈ inside, pointer = some up ∧ Keeps inside heap heap' ∧
      ((∀ other ∈ inside, ∀ node, heap.cells other = some node →
        ∀ side, node.child side ≠ some address) → parentAt heap' up = parentAt heap address) := by
  obtain ⟨node, hload, hrun⟩ := bind_eq_ok.mp hrun
  obtain ⟨midNode, hloadMid, hrun⟩ := bind_eq_ok.mp hrun
  obtain ⟨heap1, h1, hrun⟩ := bind_eq_ok.mp hrun
  obtain ⟨heap2, h2, hrun⟩ := bind_eq_ok.mp hrun
  obtain ⟨node2, hload2, hrun⟩ := bind_eq_ok.mp hrun
  obtain ⟨heap3, h3, hrun⟩ := bind_eq_ok.mp hrun
  obtain ⟨heap4, h4, hrun⟩ := bind_eq_ok.mp hrun
  obtain ⟨heap5, h5, hrun⟩ := bind_eq_ok.mp hrun
  obtain ⟨heap6, h6, hrun⟩ := bind_eq_ok.mp hrun
  obtain ⟨heap7, h7, hrun⟩ := bind_eq_ok.mp hrun
  cases hrun
  obtain ⟨_, heq, hcell⟩ := load_eq_ok.mp hload
  cases heq
  obtain ⟨up, hup, hcellUp⟩ := load_eq_ok.mp hloadMid
  rw [hup] at h3 h4 h5 h7 ⊢
  have hupMem : up ∈ inside := h address hmem node hcell side up hup
  have hinner (child : ℕ) (hchild : midNode.child side.other = some child) : child ∈ inside :=
    h up hupMem midNode hcellUp _ child hchild
  have k1 := h.modify hmem h1 (child_mem_setChild hinner)
  have k2 := k1.closed.adopt hinner h2
  have k3 := k2.closed.modify hupMem h3 fun node side child hchild ↦ .inl hchild
  have k4 := k3.closed.modify hmem h4 fun node side child hchild ↦ .inl hchild
  have k5 := k4.closed.modify hupMem h5 (child_mem_setChild fun other heq ↦ by cases heq; exact hmem)
  have k6 := k5.closed.calcHight hmem h6
  have k7 := k6.closed.calcHight hupMem h7
  refine ⟨up, hupMem, rfl, (((((k1.trans k2).trans k3).trans k4).trans k5).trans k6).trans k7, ?_⟩
  intro hno
  have hne : up ≠ address := fun heq ↦ hno address hmem node hcell side (heq ▸ hup)
  have hparent : node2.parent = parentAt heap address := by
    obtain ⟨_, heq, hcell2⟩ := load_eq_ok.mp hload2
    cases heq
    have hinnerNe (child : ℕ) (hchild : midNode.child side.other = some child) :
        address ≠ child := fun heq ↦ hno up hupMem midNode hcellUp _ (heq ▸ hchild)
    calc node2.parent = parentAt heap2 address := by rw [parentAt, hcell2, Option.bind_some]
      _ = parentAt heap1 address := by
        cases hin : midNode.child side.other with
        | none =>
          rw [hin] at h2
          cases h2
          rfl
        | some child =>
          rw [hin] at h2
          exact parentAt_modify h2 (.inl (hinnerNe child hin))
      _ = parentAt heap address := parentAt_modify h1 (.inr fun node ↦ setChild_parent _ _ _)
  calc parentAt heap' up = parentAt heap6 up := parentAt_calcHight h7 up
    _ = parentAt heap5 up := parentAt_calcHight h6 up
    _ = parentAt heap4 up := parentAt_modify h5 (.inr fun node ↦ setChild_parent _ _ _)
    _ = parentAt heap3 up := parentAt_modify h4 (.inl hne)
    _ = node2.parent := by
      obtain ⟨_, node3, heq, -, rfl⟩ := modify_eq_ok.mp h3
      cases heq
      exact parentAt_set_self _ _ _
    _ = parentAt heap address := hparent

/-- A cell outside a closed set whose children are inside. -/
structure Hangs (inside : Set ℕ) (heap : NodeHeap μ) (address : ℕ) : Prop where
  closed : Closed inside heap
  outside : address ∉ inside
  children : ∀ node, heap.cells address = some node →
    ∀ side child, node.child side = some child → child ∈ inside

theorem Hangs.insert_closed {inside : Set ℕ} {heap : NodeHeap μ} {address : ℕ}
    (h : Hangs inside heap address) : Closed (insert address inside) heap := by
  intro other hother node hcell side child hchild
  rcases hother with rfl | hother
  · exact .inr (h.children node hcell side child hchild)
  · exact .inr (h.closed other hother node hcell side child hchild)

theorem Hangs.not_child {inside : Set ℕ} {heap : NodeHeap μ} {address : ℕ}
    (h : Hangs inside heap address) (other : ℕ) (hother : other ∈ insert address inside)
    (node : AvlNode μ) (hcell : heap.cells other = some node) (side : Side) :
    node.child side ≠ some address := by
  intro hchild
  apply h.outside
  rcases hother with rfl | hother
  · exact h.children node hcell side other hchild
  · exact h.closed other hother node hcell side address hchild

/-- The height of the cell over a closed set. -/
theorem Hangs.calcHight {inside : Set ℕ} {heap heap' : NodeHeap μ} {address : ℕ}
    (h : Hangs inside heap address) (hrun : avlCalcHight heap (some address) = .ok heap') :
    Hangs inside heap' address ∧ Keeps (insert address inside) heap heap' := by
  have hkeeps := h.insert_closed.calcHight (Set.mem_insert _ _) hrun
  obtain ⟨node, hight, hcell, rfl⟩ := avlCalcHight_set hrun
  refine ⟨⟨?_, h.outside, ?_⟩, hkeeps⟩
  · intro other hother cell hcell'
    have hne : other ≠ address := fun heq ↦ h.outside (heq ▸ hother)
    rw [cells_set_of_ne _ _ hne] at hcell'
    exact h.closed other hother cell hcell'
  · intro cell hcell' side child hchild
    rw [cells_set_self] at hcell'
    cases hcell'
    rw [child_hight] at hchild
    exact h.children node hcell side child hchild

theorem avlDoubleMove_hangs {inside : Set ℕ} {heap heap' : NodeHeap μ} {side : Side} {address : ℕ}
    {pointer : Option ℕ} (h : Hangs inside heap address)
    (hrun : avlDoubleMove side heap (some address) = .ok (heap', pointer)) :
    ∃ up ∈ insert address inside, pointer = some up ∧ Keeps (insert address inside) heap heap' ∧
      parentAt heap' up = parentAt heap address := by
  obtain ⟨node, hload, hrun⟩ := bind_eq_ok.mp hrun
  obtain ⟨⟨heap1, pointer1⟩, h1, hrun⟩ := bind_eq_ok.mp hrun
  obtain ⟨heap2, h2, hrun⟩ := bind_eq_ok.mp hrun
  obtain ⟨_, heq, hcell⟩ := load_eq_ok.mp hload
  cases heq
  cases hchild : node.child side with
  | none =>
    rw [hchild] at h1
    cases h1
  | some child =>
    rw [hchild] at h1
    -- the move of the child does not touch the node over the closed set
    obtain ⟨up1, hup1, rfl, k1, -⟩ := avlMove_keeps h.closed (h.children node hcell side child hchild) h1
    have hcell1 : heap1.cells address = some node := (k1.frame address h.outside).trans hcell
    obtain ⟨_, node2, heq, hcell2, rfl⟩ := modify_eq_ok.mp h2
    cases heq
    rw [hcell1] at hcell2
    cases hcell2
    have hangs2 : Hangs inside (heap1.set address (node.setChild side (some up1))) address := by
      refine ⟨?_, h.outside, ?_⟩
      · intro other hother cell hcell'
        have hne : other ≠ address := fun heq ↦ h.outside (heq ▸ hother)
        rw [cells_set_of_ne _ _ hne] at hcell'
        exact k1.closed other hother cell hcell'
      · intro cell hcell' other child' hchild'
        rw [cells_set_self] at hcell'
        cases hcell'
        rcases child_mem_setChild (fun _ heq ↦ Option.some.inj heq ▸ hup1) node other child' hchild'
          with hchild' | hchild'
        · exact h.children node hcell other child' hchild'
        · exact hchild'
    obtain ⟨up, hup, hpointer, k2, hparent⟩ :=
      avlMove_keeps hangs2.insert_closed (Set.mem_insert _ _) hrun
    refine ⟨up, hup, hpointer, ⟨k2.closed, fun other hother ↦ ?_⟩, ?_⟩
    · have hne : other ≠ address := fun heq ↦ hother (.inl heq)
      rw [k2.frame other hother, cells_set_of_ne _ _ hne]
      exact k1.frame other fun hmem ↦ hother (.inr hmem)
    · rw [hparent hangs2.not_child, parentAt_set_self, setChild_parent, parentAt, hcell,
        Option.bind_some]

/-- Rebalancing a cell over a closed set gives a cell of both, which gets its parent. -/
theorem avlRebalance_hangs {inside : Set ℕ} {heap heap' : NodeHeap μ} {address : ℕ}
    {pointer : Option ℕ} (h : Hangs inside heap address)
    (hrun : avlRebalance heap (some address) = .ok (heap', pointer)) :
    ∃ up ∈ insert address inside, pointer = some up ∧ Keeps (insert address inside) heap heap' ∧
      parentAt heap' up = parentAt heap address := by
  have hsame (hrun : (.ok (heap, some address) : Outcome (NodeHeap μ × Option ℕ)) =
      .ok (heap', pointer)) : ∃ up ∈ insert address inside, pointer = some up ∧
        Keeps (insert address inside) heap heap' ∧ parentAt heap' up = parentAt heap address := by
    cases hrun
    exact ⟨address, Set.mem_insert _ _, rfl, Keeps.refl h.insert_closed, rfl⟩
  have hmove {side : Side} (hrun : avlMove side heap (some address) = .ok (heap', pointer)) :
      ∃ up ∈ insert address inside, pointer = some up ∧
        Keeps (insert address inside) heap heap' ∧ parentAt heap' up = parentAt heap address := by
    obtain ⟨up, hup, hpointer, hkeeps, hparent⟩ :=
      avlMove_keeps h.insert_closed (Set.mem_insert _ _) hrun
    exact ⟨up, hup, hpointer, hkeeps, hparent h.not_child⟩
  obtain ⟨balance, -, hrun⟩ := bind_eq_ok.mp hrun
  split at hrun
  · obtain ⟨node, -, hrun⟩ := bind_eq_ok.mp hrun
    obtain ⟨left, -, hrun⟩ := bind_eq_ok.mp hrun
    split at hrun
    · exact hmove hrun
    · split at hrun
      · exact avlDoubleMove_hangs h hrun
      · exact hsame hrun
  · split at hrun
    · obtain ⟨node, -, hrun⟩ := bind_eq_ok.mp hrun
      obtain ⟨right, -, hrun⟩ := bind_eq_ok.mp hrun
      split at hrun
      · exact hmove hrun
      · obtain ⟨node', -, hrun⟩ := bind_eq_ok.mp hrun
        obtain ⟨left, -, hrun⟩ := bind_eq_ok.mp hrun
        split at hrun
        · exact avlDoubleMove_hangs h hrun
        · exact hsame hrun
    · exact hsame hrun

namespace AvlTree

theorem root_mem_addrs {t : AvlTree μ} {address : ℕ} (h : root t = some address) :
    address ∈ addrs t := by
  cases t with
  | nil => cases h
  | node e l r =>
    cases h
    exact (@mem_addrs_join μ .left e l r _).mpr (.inl rfl)

theorem root_rotate_join {side : Side} {e : Entry μ} {near far : AvlTree μ} (hne : near ≠ .nil) :
    root (rotate side (join side e near far)) = root near := by
  cases near with
  | nil => exact absurd rfl hne
  | node m a b => cases side <;> rfl

theorem rotate_ne_nil (side : Side) {t : AvlTree μ} (hne : t ≠ .nil) : rotate side t ≠ .nil := by
  cases t with
  | nil => exact absurd rfl hne
  | node e l r => cases side <;> cases l <;> cases r <;> exact nofun

/-- A rotation brings up a node of the subtree on its side. -/
theorem exists_root_rotate {side : Side} {e : Entry μ} {near near' far : AvlTree μ}
    (hne : near ≠ .nil) (hsame : addrs near = addrs near') :
    ∃ up ∈ addrs near', root (rotate side (join side e near far)) = some up := by
  rw [root_rotate_join hne, ← hsame]
  cases near with
  | nil => exact absurd rfl hne
  | node m a b => exact ⟨m.addr, root_mem_addrs rfl, rfl⟩

theorem root_rebalance_ne {e : Entry μ} {l r : AvlTree μ}
    (hnodup : (addrs (join .left e l r)).Nodup) (hstill : ¬ Still (.node e l r)) :
    ∃ up, root (rebalance (.node e l r)) = some up ∧ up ≠ e.addr := by
  obtain ⟨hel, her, -⟩ := nodup_addrs_join.mp hnodup
  have hleft {l' : AvlTree μ} (hne : l' ≠ .nil) (hsame : addrs l' = addrs l) :
      ∃ up, root (rotate .left (join .left e l' r)) = some up ∧ up ≠ e.addr := by
    obtain ⟨up, hup, hroot⟩ := exists_root_rotate hne hsame
    exact ⟨up, hroot, fun heq ↦ hel (heq ▸ hup)⟩
  have hright {r' : AvlTree μ} (hne : r' ≠ .nil) (hsame : addrs r' = addrs r) :
      ∃ up, root (rotate .right (join .right e r' l)) = some up ∧ up ≠ e.addr := by
    obtain ⟨up, hup, hroot⟩ := exists_root_rotate hne hsame
    exact ⟨up, hroot, fun heq ↦ her (heq ▸ hup)⟩
  have hnonempty {t : AvlTree μ} (h : balance t ≠ 0) : t ≠ .nil := fun heq ↦ h (heq ▸ rfl)
  simp only [Still] at hstill
  simp only [rebalance]
  split_ifs with hlow hsingle hdouble hhigh hsingle hdouble
  · exact hleft (hnonempty (by omega)) rfl
  · exact hleft (rotate_ne_nil _ (hnonempty (by omega))) (addrs_rotate _ _)
  · exact absurd (by omega) hstill
  · exact hright (hnonempty (by omega)) rfl
  · have hr : r ≠ .nil := by
      rintro rfl
      simp only [balance, BinaryTree.height] at hhigh
      omega
    exact hright (rotate_ne_nil _ hr) (addrs_rotate _ _)
  · exact absurd (by omega) hstill
  · exact absurd (by omega) hstill

end AvlTree

/-- The nodes of a tree but one. -/
def restOf (t : AvlTree μ) (gone : ℕ) : Set ℕ := {address | address ∈ addrs t ∧ address ≠ gone}

/-- No other node of the tree leads to one of its nodes. -/
structure Lost (heap : NodeHeap μ) (gone : ℕ) (t : AvlTree μ) : Prop where
  mem : gone ∈ addrs t
  closed : Closed (restOf t gone) heap

theorem Rep.parentAt {heap : NodeHeap μ} {parent : Option ℕ} {t : AvlTree μ} {address : ℕ}
    (hrep : Rep heap parent t) (hroot : root t = some address) :
    parentAt heap address = parent := by
  cases t with
  | nil => cases hroot
  | node e l r =>
    cases hroot
    rw [HashMap.parentAt, hrep.1]
    rfl

/-- The children of a node are nodes of the tree, and not its root. -/
theorem Rep.child_mem {heap : NodeHeap μ} {parent : Option ℕ} {t : AvlTree μ}
    (hrep : Rep heap parent t) (hnodup : (addrs t).Nodup) {address : ℕ} (hmem : address ∈ addrs t)
    {node : AvlNode μ} (hcell : heap.cells address = some node) {side : Side} {child : ℕ}
    (hchild : node.child side = some child) : child ∈ addrs t ∧ root t ≠ some child := by
  induction t generalizing parent with
  | nil => exact absurd hmem List.not_mem_nil
  | node e l r ihl ihr =>
    obtain ⟨hel, her, hnodupl, hnodupr, -⟩ := (@nodup_addrs_join μ .left e l r).mp hnodup
    have hjoin {c : ℕ} := @mem_addrs_join μ .left e l r c
    have hbelow (h : child ∈ addrs l ∨ child ∈ addrs r) :
        child ∈ addrs (.node e l r) ∧ root (.node e l r) ≠ some child := by
      refine ⟨hjoin.mpr (.inr h), fun heq ↦ ?_⟩
      cases heq
      exact h.elim hel her
    rcases hjoin.mp hmem with rfl | hmem | hmem
    · rw [hrep.1] at hcell
      cases hcell
      apply hbelow
      cases side with
      | left => exact .inl (root_mem_addrs hchild)
      | right => exact .inr (root_mem_addrs hchild)
    · exact hbelow (.inl (ihl hrep.2.1 hnodupl hmem).1)
    · exact hbelow (.inr (ihr hrep.2.2 hnodupr hmem).1)

/-- Who does not have the root of a tree does not reach it. -/
theorem Rep.lost {heap : NodeHeap μ} {parent : Option ℕ} {t : AvlTree μ} {gone : ℕ}
    (hrep : Rep heap parent t) (hnodup : (addrs t).Nodup) (hroot : root t = some gone) :
    Lost heap gone t := by
  apply Lost.mk (root_mem_addrs hroot)
  intro address hmem node hcell side child hchild
  obtain ⟨hin, hne⟩ := hrep.child_mem hnodup hmem.1 hcell hchild
  exact ⟨hin, fun heq ↦ hne (heq ▸ hroot)⟩

theorem Lost.of_rebalance {heap : NodeHeap μ} {gone : ℕ} {t : AvlTree μ}
    (h : Lost heap gone (rebalance t)) : Lost heap gone t := by
  obtain ⟨hmem, hclosed⟩ := h
  constructor
  · rwa [addrs_rebalance] at hmem
  · rwa [restOf, addrs_rebalance] at hclosed

/-- The rebalancing of a node above does not find the lost one. -/
theorem Lost.join {heap1 heap2 heap3 : NodeHeap μ} {side : Side} {x : Entry μ}
    {near far : AvlTree μ} {gone : ℕ} {node : AvlNode μ} {pointer : Option ℕ}
    (h : Lost heap1 gone near) (hcell : heap1.cells x.addr = some node)
    (hnear : ∀ child, node.child side = some child → child ∈ restOf near gone)
    (hside : node.child side.other = root far) (hfar : Rep heap1 (some x.addr) far)
    (hnodup : (addrs (join side x near far)).Nodup)
    (hcalc : avlCalcHight heap1 (some x.addr) = .ok heap2)
    (hbalance : avlRebalance heap2 (some x.addr) = .ok (heap3, pointer)) :
    ∃ up ∈ restOf (join side x near far) gone, pointer = some up ∧
      Lost heap3 gone (join side x near far) ∧ parentAt heap3 up = node.parent ∧
        ∀ address ∉ addrs (join side x near far), heap3.cells address = heap1.cells address := by
  obtain ⟨hxNear, hxFar, -, hnodupFar, hdisjoint⟩ := nodup_addrs_join.mp hnodup
  have hgoneFar : gone ∉ addrs far := hdisjoint gone h.mem
  obtain ⟨inside, hinside⟩ : ∃ inside : Set ℕ, inside = restOf near gone ∪ {a | a ∈ addrs far} :=
    ⟨_, rfl⟩
  have hangs : Hangs inside heap1 x.addr := by
    rw [hinside]
    constructor
    · rintro address (hmem | hmem) cell hcell' other child hchild
      · exact .inl (h.closed address hmem cell hcell' other child hchild)
      · exact .inr (hfar.child_mem hnodupFar hmem hcell' hchild).1
    · rintro (hmem | hmem)
      · exact hxNear hmem.1
      · exact hxFar hmem
    · intro cell hcell' other child hchild
      rw [hcell] at hcell'
      cases hcell'
      rcases Side.eq_or_other side other with rfl | rfl
      · exact .inl (hnear child hchild)
      · rw [hside] at hchild
        exact .inr (root_mem_addrs hchild)
  have hset : insert x.addr inside = restOf (AvlTree.join side x near far) gone := by
    ext address
    rw [hinside]
    simp only [restOf, Set.mem_insert_iff, Set.mem_union, Set.mem_ofPred_eq, mem_addrs_join]
    constructor
    · rintro (rfl | hmem | hmem)
      · exact ⟨.inl rfl, fun heq ↦ hxNear (heq ▸ h.mem)⟩
      · exact ⟨.inr (.inl hmem.1), hmem.2⟩
      · exact ⟨.inr (.inr hmem), fun heq ↦ hgoneFar (heq ▸ hmem)⟩
    · rintro ⟨rfl | hmem | hmem, hne⟩
      · exact .inl rfl
      · exact .inr (.inl ⟨hmem, hne⟩)
      · exact .inr (.inr hmem)
  obtain ⟨hangs2, k2⟩ := hangs.calcHight hcalc
  obtain ⟨up, hup, hpointer, k3, hparent⟩ := avlRebalance_hangs hangs2 hbalance
  rw [hset] at hup k2 k3
  refine ⟨up, hup, hpointer, ⟨mem_addrs_join.mpr (.inr (.inl h.mem)), k3.closed⟩, ?_, ?_⟩
  · rw [hparent, parentAt_calcHight hcalc, parentAt, hcell, Option.bind_some]
  · intro address hnot
    exact (k2.trans k3).frame address fun hmem ↦ hnot hmem.1

/-- A step of the climb that ends. -/
theorem climb_eq_ok {heap final : NodeHeap μ} {fuel address target : ℕ} (hne : address ≠ target)
    (hrun : climb fuel heap (some address) (some target) = .ok final) :
    ∃ fuel' heap2 heap3 pointer, avlCalcHight heap (some address) = .ok heap2 ∧
      avlRebalance heap2 (some address) = .ok (heap3, pointer) ∧
        ∀ up, pointer = some up → climb fuel' heap3 (parentAt heap3 up) (some target) = .ok final := by
  cases fuel with
  | zero => cases hrun
  | succ fuel =>
    have hdiffer : ¬ some address = some target := fun heq ↦ hne (Option.some.inj heq)
    rw [climb, if_neg hdiffer] at hrun
    obtain ⟨heap2, hcalc, hrun⟩ := bind_eq_ok.mp hrun
    obtain ⟨⟨heap3, pointer⟩, hbalance, hrun⟩ := bind_eq_ok.mp hrun
    refine ⟨fuel, heap2, heap3, pointer, hcalc, hbalance, ?_⟩
    rintro up rfl
    obtain ⟨node, hload, hrun⟩ := bind_eq_ok.mp hrun
    obtain ⟨_, heq, hcell⟩ := load_eq_ok.mp hload
    cases heq
    rwa [parentAt, hcell, Option.bind_some]

theorem climb_here {heap final : NodeHeap μ} {fuel : ℕ} {pointer : Option ℕ}
    (hrun : climb fuel heap pointer pointer = .ok final) : heap = final := by
  cases fuel with
  | zero => cases hrun
  | succ fuel =>
    rw [climb, if_pos rfl] at hrun
    exact Except.ok.inj hrun

/-- More fuel does not change a climb that ends. -/
theorem climb_add {heap final : NodeHeap μ} {fuel : ℕ} {pointer target : Option ℕ}
    (hrun : climb fuel heap pointer target = .ok final) (more : ℕ) :
    climb (fuel + more) heap pointer target = .ok final := by
  induction fuel generalizing heap pointer with
  | zero => cases hrun
  | succ fuel ih =>
    rw [Nat.succ_add]
    by_cases heq : pointer = target
    · rw [climb, if_pos heq] at hrun ⊢
      exact hrun
    · rw [climb, if_neg heq] at hrun ⊢
      obtain ⟨heap2, hcalc, hrun⟩ := bind_eq_ok.mp hrun
      obtain ⟨turned, hbalance, hrun⟩ := bind_eq_ok.mp hrun
      obtain ⟨node, hload, hrun⟩ := bind_eq_ok.mp hrun
      simp only [hcalc, hbalance, hload, ok_bind]
      exact ih hrun

/-- A rotation on the climb loses the node that it brings up. -/
theorem climb_lost {heap final : NodeHeap μ} {parent : Option ℕ} {e : Entry μ} {l r : AvlTree μ}
    {fuel target : ℕ} (hstale : Stale heap .left parent e l r)
    (hnodup : (addrs (join .left e l r)).Nodup) (hstill : ¬ Still (.node e l r))
    (hne : e.addr ≠ target) (hrun : climb fuel heap (some e.addr) (some target) = .ok final) :
    ∃ fuel' heap' gone, climb fuel' heap' parent (some target) = .ok final ∧
      Lost heap' gone (.node e l r) ∧ e.addr ≠ gone ∧
        Frame (addrs (join .left e l r)) heap heap' := by
  obtain ⟨fuel', heap2, heap3, pointer, hcalc, hbalance, hrun⟩ := climb_eq_ok hne hrun
  obtain ⟨heap2', hcalc', hrep2, hframe2⟩ := avlCalcHight_stale hstale hnodup
  rw [hcalc] at hcalc'
  cases hcalc'
  by_cases hpivot : HasPivot (.node e l r)
  · obtain ⟨heap3', hbalance', hrep3, hframe3⟩ := avlRebalance_rep hrep2 hnodup hpivot
    obtain ⟨up, hup, hupNe⟩ := root_rebalance_ne hnodup hstill
    change root (rebalance (join .left e l r)) = some up at hup
    rw [root_join, hbalance, hup] at hbalance'
    cases hbalance'
    have hclimb := hrun up rfl
    rw [hrep3.parentAt hup] at hclimb
    have hlost : Lost heap3 up (.node e l r) :=
      (hrep3.lost (by rwa [addrs_rebalance]) hup).of_rebalance
    have hframe : Frame (addrs (join .left e l r)) heap heap2 :=
      hframe2.mono (by simpa using mem_addrs_join.mpr (.inl rfl))
    exact ⟨fuel', heap3, up, hclimb, hlost, hupNe.symm, hframe.trans hframe3⟩
  · have hnull := avlRebalance_null hrep2 hpivot
    rw [root_join, hbalance] at hnull
    cases hnull

/-- A rotation anywhere on the climb from the predecessor loses a node. -/
theorem unlink_climb_lost {heap heap0 heap1 final : NodeHeap μ} {parent : Option ℕ} {e y : Entry μ}
    {l a b : AvlTree μ} {m : Entry μ} {node : AvlNode μ} {fuel target : ℕ} {key : Str}
    {keyMeta : μ} (hrep : Rep heap parent (.node e l (.node y a b)))
    (hnodup : (addrs (.node e l (.node y a b))).Nodup)
    (hstill : ¬ PopStill (.node e l (.node y a b)))
    (htarget : target ∉ addrs (.node e l (.node y a b)))
    (hlast : last (.node e l (.node y a b)) = some m) (hcell : heap.cells m.addr = some node)
    (hheap0 : heap0 = heap.set m.addr { node with key := key, keyMeta := keyMeta })
    (hunlink : unlink heap0 (some m.addr) = .ok heap1)
    (hrun : climb fuel heap1 node.parent (some target) = .ok final) :
    ∃ fuel' heap2 gone, climb fuel' heap2 parent (some target) = .ok final ∧
      Lost heap2 gone (dropLast (.node e l (.node y a b))) ∧ e.addr ≠ gone ∧
        ∀ address ∉ addrs (.node e l (.node y a b)), heap2.cells address = heap0.cells address := by
  induction b generalizing heap heap0 parent e y l a fuel final with
  | nil =>
    obtain rfl : y = m := by simpa [last] using hlast
    obtain rfl : cellOf .left y (some e.addr) a .nil = node := by
      simpa [hcell] using hrep.2.2.1.symm
    have hmem {c : ℕ} := @mem_addrs_join μ .left e l (.node y a .nil) c
    obtain ⟨heap1', hunlink', hstale, hnodup', hframe1, hsub⟩ := unlink_stale hrep hnodup hheap0
    rw [hunlink] at hunlink'
    cases hunlink'
    have hte : e.addr ≠ target := fun h ↦ htarget (by rw [← h]; exact hmem.mpr (.inl rfl))
    have hturn : ¬ Still (.node e l a) := fun h ↦ hstill ⟨trivial, h⟩
    obtain ⟨fuel', heap2, gone, hclimb, hlost, hne, hframe2⟩ :=
      climb_lost hstale hnodup' hturn hte hrun
    exact ⟨fuel', heap2, gone, hclimb, hlost, hne, (hframe1.trans (hframe2.mono hsub)).2⟩
  | node z c d _ ihd =>
    obtain ⟨hel, her, hnodupl, hnodupr, hdisjoint⟩ := (@nodup_addrs_join μ .left e l _).mp hnodup
    have hmem {q : ℕ} := @mem_addrs_join μ .left e l (.node y a (.node z c d)) q
    have hlast' : last (.node y a (.node z c d)) = some m := hlast
    have hem : e.addr ≠ m.addr := fun h ↦ her (h ▸ last_mem_addrs hlast')
    have hml : m.addr ∉ addrs l := fun h ↦ hdisjoint _ h (last_mem_addrs hlast')
    have htarget' : target ∉ addrs (.node y a (.node z c d)) :=
      fun h ↦ htarget (hmem.mpr (.inr (.inr h)))
    have hte : e.addr ≠ target := fun h ↦ htarget (by rw [← h]; exact hmem.mpr (.inl rfl))
    have he0 : heap0.cells e.addr = some (cellOf .left e parent l (.node y a (.node z c d))) := by
      rw [hheap0, cells_set_of_ne _ _ hem]
      exact hrep.1
    have hl0 : Rep heap0 (some e.addr) l := hheap0 ▸ hrep.2.1.set _ hml
    have hdrop (q : ℕ) (h : q ∈ addrs (dropLast (.node y a (.node z c d)))) :
        q ∈ addrs (.node y a (.node z c d)) := by
      rw [addrs_eq_dropLast_append hlast']
      exact List.mem_append_left _ h
    have hnodupDrop : (addrs (dropLast (.node y a (.node z c d)))).Nodup := by
      rw [addrs_eq_dropLast_append hlast'] at hnodupr
      exact (List.nodup_append'.mp hnodupr).1
    have hnodup' : (addrs (join .left e l (dropLast (.node y a (.node z c d))))).Nodup :=
      nodup_addrs_join.mpr ⟨hel, fun h ↦ her (hdrop _ h), hnodupl, hnodupDrop,
        fun q h h' ↦ hdisjoint q h (hdrop q h')⟩
    have hsub (q : ℕ) (h : q ∈ addrs (join .left e l (dropLast (.node y a (.node z c d))))) :
        q ∈ addrs (.node e l (.node y a (.node z c d))) := by
      rcases mem_addrs_join.mp h with h | h | h
      · exact hmem.mpr (.inl h)
      · exact hmem.mpr (.inr (.inl h))
      · exact hmem.mpr (.inr (.inr (hdrop q h)))
    by_cases hbelow : PopStill (.node y a (.node z c d))
    · -- the first rotation is at this node
      have hturn : ¬ Still (.node e l (dropLast (.node y a (.node z c d)))) :=
        fun h ↦ hstill ⟨hbelow, h⟩
      obtain ⟨heap1', heap2, steps, hunlink', -, hclimb, hrep2, hframe2⟩ :=
        unlink_climb hrep.2.2 hnodupr hbelow htarget' hlast' hcell hheap0
      rw [hunlink] at hunlink'
      cases hunlink'
      have hrun2 := climb_add hrun steps
      rw [hclimb] at hrun2
      have hstale : Stale heap2 .left parent e l (dropLast (.node y a (.node z c d))) :=
        ⟨_, (hframe2.2 _ her).trans he0, hl0.frame hframe2 hdisjoint, hrep2⟩
      obtain ⟨fuel', heap3, gone, hclimb3, hlost, hne, hframe3⟩ :=
        climb_lost hstale hnodup' hturn hte hrun2
      exact ⟨fuel', heap3, gone, hclimb3, hlost, hne,
        ((hframe2.mono fun q h ↦ hmem.mpr (.inr (.inr h))).trans (hframe3.mono hsub)).2⟩
    · -- a node below is lost already, and this node points past it
      obtain ⟨fuel1, heap2, gone, hclimb, hlost, hne, hframe2⟩ :=
        ihd hrep.2.2 hnodupr hbelow htarget' hlast' hcell hheap0 hunlink hrun
      obtain ⟨fuel2, heap3, heap4, pointer, hcalc, hbalance, hnext⟩ := climb_eq_ok hte hclimb
      have hy : y.addr ∈ restOf (dropLast (.node y a (.node z c d))) gone :=
        ⟨root_mem_addrs (root_dropLast y z a c d), hne⟩
      obtain ⟨up, hup, hpointer, hlost4, hparent, hframe4⟩ := @Lost.join μ heap2 heap3 heap4 .right e
        (dropLast (.node y a (.node z c d))) l gone _ pointer hlost ((hframe2 _ her).trans he0)
        (fun child hchild ↦ by cases hchild; exact hy) rfl
        (hl0.congr fun q h ↦ hframe2 q (hdisjoint q h)) hnodup' hcalc hbalance
      have hclimb4 := hnext up hpointer
      rw [hparent] at hclimb4
      refine ⟨fuel2, heap4, gone, hclimb4, hlost4, fun heq ↦ ?_, fun q hnot ↦ ?_⟩
      · exact her (hdrop _ (heq ▸ hlost.mem))
      · rw [hframe4 q fun h ↦ hnot (hsub q h)]
        exact hframe2 q fun h ↦ hnot (hmem.mpr (.inr (.inr h)))

/-- A removal that has lost a node: the returned pointer and the old root lead to the others only. -/
def Loses (heap heap' : NodeHeap μ) (pointer : Option ℕ) (t t' : AvlTree μ) : Prop :=
  ∃ gone, Lost heap' gone t' ∧ (∃ up ∈ restOf t' gone, pointer = some up) ∧
    (∀ address, root t = some address → address ∈ restOf t' gone) ∧
      ∀ address ∉ addrs t, heap'.cells address = heap.cells address

theorem removeInner_lost {heap heap' : NodeHeap μ} {parent pointer : Option ℕ} {x : Entry μ}
    {l r : AvlTree μ} {status : ℤ} {fuel : ℕ} (hrep : Rep heap parent (.node x l r))
    (hnodup : (addrs (.node x l r)).Nodup) (hr : r ≠ .nil) (hstill : ¬ PopStill l)
    (hfuel : l.height < fuel)
    (hrun : removeInner fuel heap (some x.addr) = .ok (heap', pointer, status)) :
    Loses heap heap' pointer (.node x l r) (eraseRoot fill x l r) := by
  cases l with
  | nil => exact absurd trivial hstill
  | node p a b =>
    cases b with
    | nil => exact absurd trivial hstill
    | node z e f =>
      obtain ⟨m, mid, hlast, hm, hmidKey, hmidMeta⟩ := exists_last_cell hrep.2.1 (by simp)
      obtain ⟨heap1, heap2, hheap2, hm1, hrepl1, hx2, hrepr2, hframe2, hcall⟩ :=
        removeInner_swap hrep hnodup hlast hm hmidKey hmidMeta hfuel
      obtain ⟨hxl, hxr, hnodupl, hnodupr, hdisjoint⟩ := (@nodup_addrs_join μ .left x _ r).mp hnodup
      have hmem {q : ℕ} := @mem_addrs_join μ .left x (.node p a (.node z e f)) r q
      have hlast' : last (.node z e f) = some m := hlast
      have hmp : ¬ some m.addr = root (.node p a (.node z e f)) := fun h ↦
        ((@nodup_addrs_join μ .left p a (.node z e f)).mp hnodupl).2.1
          (Option.some.inj h ▸ last_mem_addrs hlast')
      rw [hcall, if_neg hmp] at hrun
      obtain ⟨heap3, hunlink, hrun⟩ := bind_eq_ok.mp hrun
      obtain ⟨heap4, hclimb, hrun⟩ := bind_eq_ok.mp hrun
      obtain ⟨heap5, hcalc, hrun⟩ := bind_eq_ok.mp hrun
      obtain ⟨⟨_, _⟩, hbalance, hrun⟩ := bind_eq_ok.mp hrun
      cases hrun
      obtain ⟨fuel', heap4', gone, hclimb', hlost, hne, hframe4⟩ :=
        unlink_climb_lost hrepl1 hnodupl hstill hxl hlast hm1 hheap2 hunlink hclimb
      obtain rfl := climb_here hclimb'
      have hdrop (q : ℕ) (h : q ∈ addrs (dropLast (.node p a (.node z e f)))) :
          q ∈ addrs (.node p a (.node z e f)) := by
        rw [addrs_eq_dropLast_append hlast]
        exact List.mem_append_left _ h
      have hnodupDrop : (addrs (dropLast (.node p a (.node z e f)))).Nodup := by
        rw [addrs_eq_dropLast_append hlast] at hnodupl
        exact (List.nodup_append'.mp hnodupl).1
      have herase : eraseRoot fill x (.node p a (.node z e f)) r =
          join .left (fill x m) (dropLast (.node p a (.node z e f))) r := by
        cases r with
        | nil => exact absurd rfl hr
        | node n c d => simp only [eraseRoot, hlast, Option.map_some, Option.getD_some, join]
      have hp : p.addr ∈ restOf (dropLast (.node p a (.node z e f))) gone :=
        ⟨root_mem_addrs (root_dropLast p z a e f), hne⟩
      have hnodup' : (addrs (join .left (fill x m) (dropLast (.node p a (.node z e f))) r)).Nodup :=
        nodup_addrs_join.mpr ⟨fun h ↦ hxl (hdrop _ h), hxr, hnodupDrop, hnodupr,
          fun q h ↦ hdisjoint q (hdrop q h)⟩
      obtain ⟨up, hup, hpointer, hlost6, -, hframe6⟩ := @Lost.join μ heap4' heap5 heap' .left
        (fill x m) (dropLast (.node p a (.node z e f))) r gone _ pointer hlost
        ((hframe4 _ hxl).trans hx2) (fun child hchild ↦ by cases hchild; exact hp) rfl
        (hrepr2.congr fun q h ↦ hframe4 q fun h' ↦ hdisjoint q h' h) hnodup' hcalc hbalance
      rw [herase]
      refine ⟨gone, hlost6, ⟨up, hup, hpointer⟩, fun address haddress ↦ ?_, fun q hnot ↦ ?_⟩
      · cases haddress
        exact ⟨root_mem_addrs (root_join _ (fill x m) _ _), fun heq ↦ hxl (hdrop _ (heq ▸ hlost.mem))⟩
      · rw [hframe6 q fun h ↦ ?_, hframe4 q fun h ↦ hnot (hmem.mpr (.inr (.inl h)))]
        · exact hframe2.2 q hnot
        · rcases mem_addrs_join.mp h with h | h | h
          · exact hnot (hmem.mpr (.inl h))
          · exact hnot (hmem.mpr (.inr (.inl (hdrop q h))))
          · exact hnot (hmem.mpr (.inr (.inr h)))

/-- The step of a removal that loses a node, at a node above the key. -/
theorem avlRemoveNode_lost_join {heap heap' : NodeHeap μ} {side : Side} {parent pointer : Option ℕ}
    {x : Entry μ} {near far : AvlTree μ} {key : Str} {fuel : ℕ} {status : ℤ}
    (hrep : Rep heap parent (join side x near far)) (hnodup : (addrs (join side x near far)).Nodup)
    (hfuel : near.height < fuel) (horder : keyComp x.key key ≠ 0)
    (hside : (if keyComp x.key key > 0 then Side.right else Side.left) = side)
    (hstill : ¬ (EraseStill key near ∧ Still (AvlTree.erase key near)))
    (hnear : ∀ heap1 pointer status, ¬ EraseStill key near →
      avlRemoveNode fuel heap (root near) key = .ok (heap1, pointer, status) →
        Loses heap heap1 pointer near (AvlTree.erase key near))
    (hrun : avlRemoveNode (fuel + 1) heap (some x.addr) key = .ok (heap', pointer, status)) :
    Loses heap heap' pointer (join side x near far) (join side x (AvlTree.erase key near) far) := by
  obtain ⟨hx, hrepNear, hrepFar⟩ := rep_join.mp hrep
  obtain ⟨hxNear, hxFar, hnodupNear, hnodupFar, hdisjoint⟩ := nodup_addrs_join.mp hnodup
  have hkey : (cellOf side x parent near far).key = x.key := by cases side <;> rfl
  simp only [avlRemoveNode, load_of_cells hx, ok_bind, hkey, if_neg horder, hside,
    child_cellOf] at hrun
  obtain ⟨⟨heap1, pointer1, status1⟩, hcall, hrun⟩ := bind_eq_ok.mp hrun
  obtain ⟨heap2, hcalc, hrun⟩ := bind_eq_ok.mp hrun
  obtain ⟨⟨heap3, pointer3⟩, hbalance, hrun⟩ := bind_eq_ok.mp hrun
  cases hrun
  have hlost : ∃ gone, Lost heap1 gone (AvlTree.erase key near) ∧
      (∀ address, root near = some address → address ∈ restOf (AvlTree.erase key near) gone) ∧
        ∀ address ∉ addrs near, heap1.cells address = heap.cells address := by
    by_cases hbelow : EraseStill key near
    · -- the call below rotates at the root of the subtree
      have hturn : ¬ Still (AvlTree.erase key near) := fun h ↦ hstill ⟨hbelow, h⟩
      have hne : AvlTree.erase key near ≠ .nil := fun heq ↦ hturn (heq ▸ trivial)
      have hends := avlRemoveNode_ends hrepNear hnodupNear hfuel hbelow hne
      have hnodupErase := (@addrs_erase μ key near hnodupNear).1
      by_cases hpivot : HasPivot (AvlTree.erase key near)
      · obtain ⟨heap1', hcall', hrep1, hframe1⟩ := hends.erases hnodupNear hpivot
        rw [hcall] at hcall'
        cases hcall'
        obtain ⟨y, a, b, hy⟩ : ∃ y a b, AvlTree.erase key near = .node y a b := by
          cases herase : AvlTree.erase key near with
          | nil => exact absurd herase hne
          | node y a b => exact ⟨y, a, b, rfl⟩
        obtain ⟨up, hup, hupNe⟩ := root_rebalance_ne (hy ▸ hnodupErase) (hy ▸ hturn)
        rw [← hy] at hup
        refine ⟨up, (hrep1.lost (by rwa [addrs_rebalance]) hup).of_rebalance, ?_, hframe1.2⟩
        intro address haddress
        rw [← root_erase hne] at haddress
        refine ⟨root_mem_addrs haddress, ?_⟩
        rw [hy] at haddress
        cases haddress
        exact hupNe.symm
      · rw [hends.fails hpivot] at hcall
        cases hcall
    · obtain ⟨gone, hgone, -, hroot, hframe⟩ := hnear heap1 pointer1 status1 hbelow hcall
      exact ⟨gone, hgone, hroot, hframe⟩
  obtain ⟨gone, hgone, hroot, hframe1⟩ := hlost
  obtain ⟨hnodupErase, hsub⟩ := @addrs_erase μ key near hnodupNear
  have hnodup' : (addrs (join side x (AvlTree.erase key near) far)).Nodup :=
    nodup_addrs_join.mpr ⟨fun h ↦ hxNear (hsub _ h), hxFar, hnodupErase, hnodupFar,
      fun a h ↦ hdisjoint a (hsub a h)⟩
  obtain ⟨up, hup, hpointer, hlost3, -, hframe3⟩ := hgone.join ((hframe1 _ hxNear).trans hx)
    (fun child hchild ↦ hroot child (by rwa [child_cellOf] at hchild)) (child_other_cellOf _ _ _ _ _)
    (hrepFar.congr fun q h ↦ hframe1 q fun h' ↦ hdisjoint q h' h) hnodup' hcalc hbalance
  refine ⟨gone, hlost3, ⟨up, hup, hpointer⟩, fun address haddress ↦ ?_, fun q hnot ↦ ?_⟩
  · rw [root_join] at haddress
    cases haddress
    exact ⟨mem_addrs_join.mpr (.inl rfl), fun heq ↦ hxNear (hsub _ (heq ▸ hgone.mem))⟩
  · rw [hframe3 q fun h ↦ ?_, hframe1 q fun h ↦ hnot (mem_addrs_join.mpr (.inr (.inl h)))]
    rcases mem_addrs_join.mp h with h | h | h
    · exact hnot (mem_addrs_join.mpr (.inl h))
    · exact hnot (mem_addrs_join.mpr (.inr (.inl (hsub q h))))
    · exact hnot (mem_addrs_join.mpr (.inr (.inr h)))

/-- A removal that rotates below the root loses a node. -/
theorem avlRemoveNode_lost {heap heap' : NodeHeap μ} {parent pointer : Option ℕ} {t : AvlTree μ}
    {key : Str} {fuel : ℕ} {status : ℤ} (hrep : Rep heap parent t) (hnodup : (addrs t).Nodup)
    (hfuel : t.height < fuel) (hstill : ¬ EraseStill key t)
    (hrun : avlRemoveNode fuel heap (root t) key = .ok (heap', pointer, status)) :
    Loses heap heap' pointer t (AvlTree.erase key t) := by
  induction t generalizing heap heap' parent pointer status fuel with
  | nil => exact absurd trivial hstill
  | node x l r ihl ihr =>
    cases fuel with
    | zero => exact absurd hfuel (Nat.not_lt_zero _)
    | succ fuel =>
      have hparts := (@nodup_addrs_join μ .left x l r).mp hnodup
      have hheight : (BinaryTree.node x l r).height = max l.height r.height + 1 := rfl
      unfold EraseStill at hstill
      rcases lt_trichotomy x.key key with hlt | heq | hgt
      · have hpos := (keyComp_pos_iff _ _).mpr hlt
        rw [if_pos hlt] at hstill
        rw [erase_of_lt hlt]
        apply @avlRemoveNode_lost_join μ heap heap' .right parent pointer x r l key fuel status hrep
          hnodup (by omega) hpos.ne' (if_pos hpos) hstill _ hrun
        intro heap1 pointer1 status1 hbelow
        exact ihr hrep.2.2 hparts.2.2.2.1 (by omega : r.height < fuel) hbelow
      · rw [if_neg heq.not_lt, if_neg heq.not_gt, Classical.not_imp] at hstill
        obtain ⟨hr, hpop⟩ := hstill
        rw [erase_of_eq heq]
        have hcellKey : (cellOf .left x parent l r).key = x.key := rfl
        have hcellLeft : (cellOf .left x parent l r).left = root l := rfl
        have hcellRight : (cellOf .left x parent l r).right = root r := rfl
        simp only [avlRemoveNode, root_node, load_of_cells hrep.1, ok_bind, hcellKey,
          (keyComp_eq_zero_iff _ _).mpr heq, if_true, hcellLeft, hcellRight] at hrun
        cases l with
        | nil => exact absurd trivial hpop
        | node p a b =>
          cases r with
          | nil => exact absurd rfl hr
          | node n c d => exact removeInner_lost hrep hnodup hr hpop (by omega) hrun
      · have hneg := (keyComp_neg_iff _ _).mpr hgt
        rw [if_neg hgt.not_gt, if_pos hgt] at hstill
        rw [erase_of_gt hgt]
        apply @avlRemoveNode_lost_join μ heap heap' .left parent pointer x l r key fuel status hrep
          hnodup (by omega) hneg.ne (if_neg hneg.not_gt) hstill _ hrun
        intro heap1 pointer1 status1 hbelow
        exact ihl hrep.2.1 hparts.2.2.1 (by omega : l.height < fuel) hbelow

end FGDB.HashMap
