import FGDB.HashMap.Sequence

/-!
# Sequences of insertions into one bucket

The trees that insertions build from a first node. As long as each rebalancing
finds its pivot, the tree stays sorted and keeps its links; the first insertion
whose rebalancing lacks the pivot follows a NULL pointer.
-/

namespace FGDB.HashMap

open Foundation AvlTree NodeHeap
open SearchTree hiding insert find Sorted erase

variable {μ : Type}

/-- The tree of one new node. -/
def firstNode (key : Str) (keyMeta : μ) : NodeHeap μ × Option ℕ :=
  avlNewNode NodeHeap.empty key keyMeta

/-- A new node is inserted, and the returned root is stored back. -/
def insertStep (state : NodeHeap μ × Option ℕ) (pair : Str × μ) :
    Outcome ((NodeHeap μ × Option ℕ) × ℤ) := do
  let (heap, nodeNew) := avlNewNode state.1 pair.1 pair.2
  let (heap, root, result) ← avlInsertNode heap.fuel heap state.2 nodeNew
  return ((heap, root), result)

/-- The tree behind the pointer of a state. -/
def treeAt (state : NodeHeap μ × Option ℕ) : AvlTree μ := treeOf state.1.fuel state.1 state.2

/-- No rebalancing on the way of the key lacks its pivot. -/
def FindsPivots (state : NodeHeap μ × Option ℕ) (pair : Str × μ) : Prop :=
  InsertPivots ⟨state.1.next, pair.1, pair.2⟩ (treeAt state)

instance (state : NodeHeap μ × Option ℕ) (pair : Str × μ) : Decidable (FindsPivots state pair) :=
  inferInstanceAs (Decidable (InsertPivots _ _))

/-- The state is a tree with all its links and heights right. -/
structure Grown (state : NodeHeap μ × Option ℕ) : Prop where
  root : state.2 = (treeAt state).root
  represents : Represents state.1 (treeAt state)
  ne_nil : treeAt state ≠ .nil

theorem treeAt_root {heap : NodeHeap μ} {t : AvlTree μ} (h : Represents heap t) :
    treeAt (heap, root t) = t :=
  treeOf_rep h.rep h.height_lt

theorem Represents.grown {heap : NodeHeap μ} {t : AvlTree μ} (h : Represents heap t)
    (hne : t ≠ .nil) : Grown (heap, root t) := by
  have htree := treeAt_root h
  constructor
  · rw [htree]
  · rwa [htree]
  · rwa [htree]

theorem firstNode_grown (key : Str) (keyMeta : μ) : Grown (firstNode key keyMeta) := by
  apply @Represents.grown μ _ (.node ⟨0, key, keyMeta⟩ .nil .nil)
  · refine ⟨(avlNewNode_rep (represents_nil _) key keyMeta).2.1, List.nodup_singleton _, ?_,
      List.pairwise_singleton _ _⟩
    intro address hmem
    rw [List.mem_singleton.mp hmem]
    exact Nat.zero_lt_one
  · exact nofun

theorem sorted_insert {t : AvlTree μ} (h : AvlTree.Sorted t) (e : Entry μ) :
    AvlTree.Sorted (AvlTree.insert e t) := by
  by_cases hpresent : ∃ x ∈ inorder t, x.key = e.key
  · obtain ⟨x, hx, hkey⟩ := hpresent
    have hsame := SearchTree.inorder_insert_of_mem Entry.key inorder_rebalance h hx hkey
    unfold AvlTree.Sorted SearchTree.Sorted AvlTree.insert
    rwa [hsame]
  · apply SearchTree.sorted_insert Entry.key inorder_rebalance h
    intro x hx hkey
    exact hpresent ⟨x, hx, hkey⟩

theorem insert_ne_nil (e : Entry μ) {t : AvlTree μ} (hne : t ≠ .nil) : AvlTree.insert e t ≠ .nil := by
  intro hnil
  have hsize : (inorder (AvlTree.insert e t)).length = 0 := by rw [hnil]; rfl
  have hpos : 0 < (inorder t).length := by
    rw [List.length_pos_iff]
    cases t with
    | nil => exact absurd rfl hne
    | node x l r => simp
  rcases inorder_insert_perm_or_eq Entry.key inorder_rebalance e t with hperm | hsame
  · have hlength := hperm.length_eq
    rw [List.length_cons] at hlength
    exact absurd (hlength.symm.trans hsize) (Nat.succ_ne_zero _)
  · exact hpos.ne' (hsame ▸ hsize)

/-- An insertion that finds its pivots is the insertion into the tree. -/
theorem insertStep_represents {heap : NodeHeap μ} {t : AvlTree μ} {pair : Str × μ}
    (h : Represents heap t) (hne : t ≠ .nil)
    (hpivots : InsertPivots ⟨heap.next, pair.1, pair.2⟩ t) :
    ∃ heap' status, insertStep (heap, root t) pair =
      .ok ((heap', root (AvlTree.insert ⟨heap.next, pair.1, pair.2⟩ t)), status) ∧
        Represents heap' (AvlTree.insert ⟨heap.next, pair.1, pair.2⟩ t) := by
  obtain ⟨hrep, hnew, hfresh⟩ := avlNewNode_rep h pair.1 pair.2
  have hfuel : t.height ≤ (avlNewNode heap pair.1 pair.2).1.fuel :=
    (Nat.le_of_lt h.height_lt).trans (Nat.le_succ _)
  obtain ⟨heap', status, hinsert, hrep', hframe, -⟩ :=
    avlInsertNode_rep hne hfuel hrep hnew hfresh h.nodup hpivots
  refine ⟨heap', status, ?_, hrep', nodup_addrs_insert h.nodup hfresh, fun address hmem ↦ ?_,
    sorted_insert h.sorted _⟩
  · have hinsert' : avlInsertNode (avlNewNode heap pair.1 pair.2).1.fuel
        (avlNewNode heap pair.1 pair.2).1 (root t) (avlNewNode heap pair.1 pair.2).2 = _ := hinsert
    simp only [insertStep, hinsert', ok_bind, pure_eq_ok]
  · rw [hframe.1]
    rcases mem_addrs_insert hmem with rfl | hmem
    · exact Nat.lt_succ_self _
    · exact Nat.lt_succ_of_lt (h.below address hmem)

/-- An insertion that finds its pivots gives a tree with all its links and heights right. -/
theorem insertStep_grown {state : NodeHeap μ × Option ℕ} {pair : Str × μ} (h : Grown state)
    (hpivots : FindsPivots state pair) :
    ∃ next status, insertStep state pair = .ok (next, status) ∧ Grown next := by
  obtain ⟨heap', status, hinsert, hrep'⟩ := insertStep_represents h.represents h.ne_nil hpivots
  rw [← h.root] at hinsert
  exact ⟨_, status, hinsert, hrep'.grown (insert_ne_nil _ h.ne_nil)⟩

theorem insertStep_null {state : NodeHeap μ × Option ℕ} {pair : Str × μ} (h : Grown state)
    (hpivots : ¬ FindsPivots state pair) : insertStep state pair = .error .nullPointer := by
  obtain ⟨hrep, hnew, hfresh⟩ := avlNewNode_rep h.represents pair.1 pair.2
  have hfuel : (treeAt state).height ≤ (avlNewNode state.1 pair.1 pair.2).1.fuel :=
    (Nat.le_of_lt h.represents.height_lt).trans (Nat.le_succ _)
  have hinsert := avlInsertNode_null hfuel hrep hnew hfresh h.represents.nodup hpivots
  have hinsert' : avlInsertNode (avlNewNode state.1 pair.1 pair.2).1.fuel
      (avlNewNode state.1 pair.1 pair.2).1 state.2 (avlNewNode state.1 pair.1 pair.2).2 = _ :=
    h.root ▸ hinsert
  simp only [insertStep, hinsert', error_bind]

/-- A sequence of insertions follows no NULL pointer if and only if each of them finds its
pivots. -/
theorem insertions_ne_null_iff (key : Str) (keyMeta : μ) (pairs : List (Str × μ)) :
    run insertStep (firstNode key keyMeta) pairs ≠ .error .nullPointer ↔
      EachStep insertStep FindsPivots (firstNode key keyMeta) pairs :=
  run_ne_fault_iff (fun _ _ ↦ insertStep_grown) (fun _ _ ↦ insertStep_null)
    (firstNode_grown key keyMeta)

/-- Eight keys of one bucket, in an order whose last insertion turns a right child that has no left
one. -/
def eightKeys : List (Str × ℕ) :=
  ([2, 3, 0, 5, 4, 6, 7] : List UInt8).map fun x ↦ (pairKey x, x.toNat)

theorem insertions_null_eightKeys : (pairKey 1 :: eightKeys.map Prod.fst).Nodup ∧
    (∀ pair ∈ eightKeys, hash pair.1 0 = hash (pairKey 1) 0) ∧
      ¬ run insertStep (firstNode (pairKey 1) 1) eightKeys ≠ .error .nullPointer := by
  have hfault : (match run insertStep (firstNode (pairKey 1) 1) eightKeys with
      | .error fault => some fault
      | .ok _ => none) = some .nullPointer := by decide +kernel
  refine ⟨by decide +kernel, by decide +kernel, not_not.mpr ?_⟩
  cases hrun : run insertStep (firstNode (pairKey 1) 1) eightKeys with
  | error fault =>
    rw [hrun] at hfault
    exact congrArg Except.error (Option.some.inj hfault)
  | ok result =>
    rw [hrun] at hfault
    cases hfault

end FGDB.HashMap
