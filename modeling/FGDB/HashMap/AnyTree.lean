import FGDB.HashMap.Deletions

/-!
# Insertion into any tree

The insertion keeps a tree a search tree with all its links and heights right,
whatever its shape: the rebalancing turns subtrees of any heights, and what it
stores is right as long as the pivots it dereferences exist. The tree may hang
below another node.
-/

namespace FGDB.HashMap

open Foundation AvlTree NodeHeap
open SearchTree hiding insert find Sorted erase

variable {μ : Type}

theorem avlInsertNode_succ {fuel : ℕ} {heap : NodeHeap μ} {node nodeNew : Option ℕ}
    {result : NodeHeap μ × Option ℕ × ℤ} (h : avlInsertNode fuel heap node nodeNew = .ok result) :
    avlInsertNode (fuel + 1) heap node nodeNew = .ok result := by
  induction fuel generalizing heap node result with
  | zero => cases h
  | succ fuel ih =>
    rw [avlInsertNode] at h ⊢
    cases hhere : heap.load node with
    | error fault =>
      rw [hhere, error_bind] at h
      cases h
    | ok here =>
      cases hnew : heap.load nodeNew with
      | error fault =>
        rw [hhere, hnew, ok_bind, error_bind] at h
        cases h
      | ok new =>
        rw [hhere, hnew] at h
        simp only [ok_bind] at h ⊢
        by_cases hequal : keyComp here.key new.key = 0
        · rwa [if_pos hequal] at h ⊢
        · rw [if_neg hequal] at h ⊢
          cases hchild : here.child (if keyComp here.key new.key > 0 then .right else .left) with
          | none => rwa [hchild] at h
          | some address =>
            rw [hchild] at h
            simp only [Option.elim_some] at h ⊢
            cases hcall : avlInsertNode fuel heap (some address) nodeNew with
            | error fault =>
              rw [hcall, error_bind] at h
              cases h
            | ok below =>
              rw [hcall] at h
              rwa [ih hcall]

/-- A call that returns does so with any number of further steps. -/
theorem avlInsertNode_mono {fuel fuel' : ℕ} {heap : NodeHeap μ} {node nodeNew : Option ℕ}
    {result : NodeHeap μ × Option ℕ × ℤ} (hle : fuel ≤ fuel')
    (h : avlInsertNode fuel heap node nodeNew = .ok result) :
    avlInsertNode fuel' heap node nodeNew = .ok result := by
  induction hle with
  | refl => exact h
  | step _ ih => exact avlInsertNode_succ ih

/-- A node with an absent key is not a node of the tree. -/
theorem Linked.fresh {heap : NodeHeap μ} {parent parent' : Option ℕ} {t : AvlTree μ} {e : Entry μ}
    (h : Linked heap parent t) (hnew : Rep heap parent' (.node e .nil .nil))
    (habsent : ∀ x ∈ inorder t, x.key ≠ e.key) : e.addr ∉ addrs t := by
  intro hmem
  obtain ⟨x, hx, haddr⟩ := List.mem_map.mp hmem
  obtain ⟨node, hcell, hkey⟩ := h.cell hx
  rw [haddr, hnew.1] at hcell
  cases hcell
  exact habsent x hx hkey.symm

/-- An insertion of an absent key into any search tree that returns gives the search tree with the
new entry in its place, below the same parent and with all links and heights right, in which the
search finds the old keys and the new one. -/
theorem avlInsertNode_inserts {heap : NodeHeap μ} {parent : Option ℕ} {t : AvlTree μ} {e : Entry μ}
    (hne : t ≠ .nil) (hrep : Rep heap parent t) (hsorted : AvlTree.Sorted t)
    (hnew : Rep heap none (.node e .nil .nil)) (habsent : ∀ x ∈ inorder t, x.key ≠ e.key)
    {fuel : ℕ} {heap' : NodeHeap μ} {root' : Option ℕ} {status : ℤ}
    (hinsert : avlInsertNode fuel heap (root t) (some e.addr) = .ok (heap', root', status)) :
    ∃ t' front back, root' = root t' ∧ Rep heap' parent t' ∧ AvlTree.Sorted t' ∧
      inorder t = front ++ back ∧ inorder t' = front ++ e :: back ∧
        ∀ key fuel', t'.height < fuel' → avlSearch fuel' heap' root' key =
          .ok (if key = e.key then some e.addr else (AvlTree.find key t).map Entry.addr) := by
  have hnodup := hrep.linked.nodup hsorted
  have hfresh := hrep.linked.fresh hnew habsent
  have hreturned := avlInsertNode_mono (Nat.le_max_left fuel t.height) hinsert
  by_cases hpivots : InsertPivots e t
  · obtain ⟨heap1, status1, hcall, hrep1, -, -⟩ :=
      avlInsertNode_rep hne (Nat.le_max_right fuel t.height) hrep hnew hfresh hnodup hpivots
    rw [hcall] at hreturned
    cases hreturned
    obtain ⟨front, back, hold, hinorder, -, -⟩ :=
      SearchTree.inorder_insert Entry.key inorder_rebalance hsorted habsent
    refine ⟨AvlTree.insert e t, front, back, rfl, hrep1, sorted_insert hsorted e, hold, hinorder,
      fun key fuel' hfuel' ↦ ?_⟩
    have hfind : AvlTree.find key (AvlTree.insert e t) =
        if key = e.key then some e else AvlTree.find key t :=
      SearchTree.find_insert Entry.key inorder_rebalance hsorted habsent key
    rw [avlSearch_rep hrep1 hfuel', hfind]
    split <;> rfl
  · rw [avlInsertNode_null (Nat.le_max_right fuel t.height) hrep hnew hfresh hnodup hpivots]
      at hreturned
    cases hreturned

/-- Two nodes in a row below another one, and a new node. -/
def rowHeap : NodeHeap ℕ where
  cells
    | 1 => some ⟨byteKey 1, 10, none, some 2, some 0, 2⟩
    | 2 => some ⟨byteKey 2, 20, none, none, some 1, 1⟩
    | 3 => some ⟨byteKey 3, 30, none, none, none, 1⟩
    | _ => none
  next := 4

/-- The two nodes as a tree. -/
def rowTree : AvlTree ℕ := .node ⟨1, byteKey 1, 10⟩ .nil (.node ⟨2, byteKey 2, 20⟩ .nil .nil)

/-- The insertion of a third key into the row turns it. -/
theorem avlInsertNode_inserts_row : ∃ heap' root' status,
    avlInsertNode 3 rowHeap (some 1) (some 3) = .ok (heap', root', status) ∧ root' = some 2 ∧
      ∃ t' front back, root' = root t' ∧ Rep heap' (some 0) t' ∧ AvlTree.Sorted t' ∧
        inorder rowTree = front ++ back ∧ inorder t' = front ++ ⟨3, byteKey 3, 30⟩ :: back ∧
          ∀ key fuel', t'.height < fuel' → avlSearch fuel' heap' root' key =
            .ok (if key = byteKey 3 then some 3
              else (AvlTree.find key rowTree).map Entry.addr) := by
  have hrep : Rep rowHeap (some 0) rowTree := ⟨rfl, trivial, rfl, trivial, trivial⟩
  have hnew : Rep rowHeap none (.node ⟨3, byteKey 3, 30⟩ .nil .nil) := ⟨rfl, trivial, trivial⟩
  have hsorted : AvlTree.Sorted rowTree := by
    unfold AvlTree.Sorted SearchTree.Sorted
    decide
  have hne : rowTree ≠ .nil := nofun
  have hcall : ∃ heap' root' status, avlInsertNode 3 rowHeap (root rowTree) (some 3) =
      .ok (heap', root', status) ∧ root' = some 2 := ⟨_, _, _, rfl, rfl⟩
  obtain ⟨heap', root', status, hinsert, hroot⟩ := hcall
  exact ⟨heap', root', status, hinsert, hroot,
    avlInsertNode_inserts hne hrep hsorted hnew (by decide) hinsert⟩

end FGDB.HashMap
