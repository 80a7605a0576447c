import FGDB.HashMap.Insertions
import FGDB.HashMap.Unreachable

/-!
# Deletions from one bucket

A removal from a tree that insertions built gives the tree without the key, with
all links right, if and only if it rotates nothing below the root and finds the
pivot there. A rotation further down leaves one node out of every such tree, by
counting.
-/

namespace FGDB.HashMap

open Foundation AvlTree NodeHeap
open SearchTree hiding insert find Sorted erase

variable {μ : Type}

/-- The keys of a tree in order, with their metas. -/
def pairsOf (t : AvlTree μ) : List (Str × μ) := (inorder t).map fun x ↦ (x.key, x.keyMeta)

/-- Removing the key and storing back the root leaves a sorted tree of the other pairs, with all
links right. -/
def RemovesKey (state : NodeHeap μ × Option ℕ) (key : Str) : Prop :=
  ∃ heap root' status t,
    avlRemoveNode state.1.fuel state.1 state.2 key = .ok (heap, root', status) ∧
      root' = root t ∧ Linked heap none t ∧ AvlTree.Sorted t ∧
        pairsOf t = (pairsOf (treeAt state)).filter fun pair ↦ pair.1 ≠ key

theorem pairsOf_erase {t : AvlTree μ} (h : AvlTree.Sorted t) (key : Str) :
    pairsOf (AvlTree.erase key t) = (pairsOf t).filter fun pair ↦ pair.1 ≠ key := by
  have hpairs := @SearchTree.inorder_erase _ _ _ _ Entry.key fill (fun x ↦ (x.key, x.keyMeta))
    (fun _ _ ↦ rfl) t h key
  rw [pairsOf, AvlTree.erase, hpairs, pairsOf, List.filter_map]
  rfl

theorem pairsOf_rebalance (t : AvlTree μ) : pairsOf (rebalance t) = pairsOf t := by
  rw [pairsOf, inorder_rebalance, pairsOf]

theorem length_pairsOf (t : AvlTree μ) : (pairsOf t).length = (addrs t).length := by
  rw [pairsOf, addrs, List.length_map, List.length_map]

theorem Linked.cell {heap : NodeHeap μ} {parent : Option ℕ} {t : AvlTree μ}
    (h : Linked heap parent t) {x : Entry μ} (hx : x ∈ inorder t) :
    ∃ node, heap.cells x.addr = some node ∧ node.key = x.key := by
  induction t generalizing parent with
  | nil => exact absurd hx List.not_mem_nil
  | node e l r ihl ihr =>
    obtain ⟨⟨hight, hcell⟩, hl, hr⟩ := h
    rcases List.mem_append.mp hx with hx | hx
    · exact ihl hl hx
    · rcases List.mem_cons.mp hx with rfl | hx
      · exact ⟨_, hcell, rfl⟩
      · exact ihr hr hx

/-- The nodes of a sorted tree have addresses of their own. -/
theorem Linked.nodup {heap : NodeHeap μ} {parent : Option ℕ} {t : AvlTree μ}
    (h : Linked heap parent t) (hsorted : AvlTree.Sorted t) : (addrs t).Nodup := by
  apply List.pairwise_map.mpr
  apply List.Pairwise.imp_of_mem _ hsorted
  intro x y hx hy hlt haddr
  obtain ⟨node, hcell, hkey⟩ := h.cell hx
  obtain ⟨node', hcell', hkey'⟩ := h.cell hy
  rw [haddr, hcell'] at hcell
  cases hcell
  exact hlt.ne (hkey.symm.trans hkey')

theorem Linked.inside {heap : NodeHeap μ} {parent : Option ℕ} {t : AvlTree μ} {inside : Set ℕ}
    (h : Linked heap parent t) (hclosed : Closed inside heap)
    (hroot : ∀ address, root t = some address → address ∈ inside) :
    ∀ address ∈ addrs t, address ∈ inside := by
  induction t generalizing parent with
  | nil => exact fun address hmem ↦ absurd hmem List.not_mem_nil
  | node e l r ihl ihr =>
    obtain ⟨⟨hight, hcell⟩, hl, hr⟩ := h
    have he : e.addr ∈ inside := hroot e.addr rfl
    intro address hmem
    rcases (@mem_addrs_join μ .left e l r _).mp hmem with rfl | hmem | hmem
    · exact he
    · exact ihl hl (fun child ↦ hclosed e.addr he _ hcell .left child) address hmem
    · exact ihr hr (fun child ↦ hclosed e.addr he _ hcell .right child) address hmem

/-- A tree behind a pointer that leads past a node has fewer nodes. -/
theorem Loses.length_lt {heap heap' : NodeHeap μ} {pointer : Option ℕ} {t t' built : AvlTree μ}
    (h : Loses heap heap' pointer t t') (hlinked : Linked heap' none built)
    (hsorted : AvlTree.Sorted built) (hroot : pointer = root built) :
    (addrs built).length < (addrs t').length := by
  obtain ⟨gone, hlost, ⟨up, hup, hpointer⟩, -, -⟩ := h
  have hinside : ∀ address ∈ addrs built, address ∈ restOf t' gone := by
    apply hlinked.inside hlost.closed
    intro address haddress
    rw [← hroot, hpointer] at haddress
    cases haddress
    exact hup
  have hsub : (addrs built).Subset ((addrs t').erase gone) := fun address hmem ↦
    (List.mem_erase_of_ne (hinside address hmem).2).mpr (hinside address hmem).1
  calc (addrs built).length ≤ ((addrs t').erase gone).length :=
        ((hlinked.nodup hsorted).subperm hsub).length_le
    _ < (addrs t').length := by
        have hpos := List.length_pos_of_mem hlost.mem
        rw [List.length_erase_of_mem hlost.mem]
        omega

/-- A removal that rotates nothing below the root, and finds the pivot there. -/
theorem removesKey_of_still {state : NodeHeap μ × Option ℕ} {key : Str} (h : Grown state)
    (hstill : EraseStill key (treeAt state)) (hpivot : HasPivot (AvlTree.erase key (treeAt state))) : RemovesKey state key := by
  have hrep := h.represents
  unfold RemovesKey
  rw [← pairsOf_erase hrep.sorted, h.root]
  by_cases hnil : AvlTree.erase key (treeAt state) = .nil
  · rw [hnil]
    rcases erase_eq_nil hnil with hempty | ⟨y, hy, hykey⟩
    · exact absurd hempty h.ne_nil
    · refine ⟨avlDeleteNode state.1 (some y.addr), none, 1, .nil, ?_, rfl, trivial, SearchTree.sorted_nil _, rfl⟩
      rw [hy] at hrep ⊢
      exact avlRemoveNode_only hykey hrep.rep
  · obtain ⟨heap, hremove, hrep', -⟩ :=
      avlRemoveNode_rep hrep.rep hrep.nodup hrep.height_lt hstill hpivot hnil
    exact ⟨heap, _, 1, _, hremove, rfl, hrep'.linked,
      sorted_rebalance (sorted_erase hrep.sorted key), pairsOf_rebalance _⟩

/-- A removal that rotates below the root, or lacks the pivot there, does not give the tree. -/
theorem still_of_removesKey {state : NodeHeap μ × Option ℕ} {key : Str} (h : Grown state)
    (hremoves : RemovesKey state key) :
    EraseStill key (treeAt state) ∧ HasPivot (AvlTree.erase key (treeAt state)) := by
  have hrep := h.represents
  obtain ⟨heap, root', status, built, hrun, hroot, hlinked, hsorted, hpairs⟩ := hremoves
  rw [h.root] at hrun
  have hstill : EraseStill key (treeAt state) := by
    by_contra hturn
    have hloses := avlRemoveNode_lost hrep.rep hrep.nodup hrep.height_lt hturn hrun
    have hlt := hloses.length_lt hlinked hsorted hroot
    rw [← pairsOf_erase hrep.sorted] at hpairs
    have hlength := congrArg List.length hpairs
    rw [length_pairsOf, length_pairsOf] at hlength
    exact hlt.ne hlength
  apply And.intro hstill
  by_contra hpivot
  have hne : AvlTree.erase key (treeAt state) ≠ .nil := fun heq ↦ hpivot (heq ▸ trivial)
  have hends := avlRemoveNode_ends hrep.rep hrep.nodup hrep.height_lt hstill hne
  rw [hends.fails hpivot] at hrun
  cases hrun

theorem insertions_grown {key : Str} {keyMeta : μ} {pairs : List (Str × μ)}
    {state : NodeHeap μ × Option ℕ} {results : List ℤ}
    (hrun : run insertStep (firstNode key keyMeta) pairs = .ok (state, results)) : Grown state := by
  have hstep (state next : NodeHeap μ × Option ℕ) (pair : Str × μ) (result : ℤ) (h : Grown state)
      (hnext : insertStep state pair = .ok (next, result)) : Grown next := by
    by_cases hpivots : FindsPivots state pair
    · obtain ⟨next', status, hok, hgrown⟩ := insertStep_grown h hpivots
      rw [hnext] at hok
      cases hok
      exact hgrown
    · rw [insertStep_null h hpivots] at hnext
      cases hnext
  exact run_invariant (fun state pair next result h _ ↦ hstep state next pair result h)
    (firstNode_grown key keyMeta) (eachStep_of_forall fun _ _ ↦ trivial) hrun

/-- In a tree that insertions built the removal of a key leaves the other pairs in a linked tree if
and only if it rotates nothing below the root and finds its pivot there. -/
theorem removesKey_iff {first key : Str} {keyMeta : μ} {pairs : List (Str × μ)}
    {state : NodeHeap μ × Option ℕ} {results : List ℤ}
    (hrun : run insertStep (firstNode first keyMeta) pairs = .ok (state, results)) :
    RemovesKey state key ↔
      EraseStill key (treeAt state) ∧ HasPivot (AvlTree.erase key (treeAt state)) := by
  have hgrown := insertions_grown hrun
  constructor
  · exact still_of_removesKey hgrown
  · intro h
    exact removesKey_of_still hgrown h.1 h.2

/-- Seven keys of one bucket in the order of their insertion. -/
def sevenKeys : List (Str × ℕ) :=
  ([2, 5, 1, 3, 6, 0] : List UInt8).map fun x ↦ (pairKey x, x.toNat)

theorem removesKey_sevenKeys : ∃ state results,
    run insertStep (firstNode (pairKey 4) 4) sevenKeys = .ok (state, results) ∧
      RemovesKey state (pairKey 6) := by
  obtain ⟨state, results, hrun, hstill⟩ :
      ∃ state results, run insertStep (firstNode (pairKey 4) 4) sevenKeys = .ok (state, results) ∧
        EraseStill (pairKey 6) (treeAt state) ∧
          HasPivot (AvlTree.erase (pairKey 6) (treeAt state)) := by
    apply exists_run_of_any
    decide +kernel
  exact ⟨state, results, hrun, (removesKey_iff hrun).mpr hstill⟩

theorem not_removesKey_sevenKeys : ∃ state results,
    run insertStep (firstNode (pairKey 4) 4) sevenKeys = .ok (state, results) ∧
      pairKey 3 ∈ (pairsOf (treeAt state)).map Prod.fst ∧ ¬ RemovesKey state (pairKey 3) := by
  obtain ⟨state, results, hrun, hkey, hpairs, hleft⟩ :
      ∃ state results, run insertStep (firstNode (pairKey 4) 4) sevenKeys = .ok (state, results) ∧
        pairKey 3 ∈ (pairsOf (treeAt state)).map Prod.fst ∧
        ((pairsOf (treeAt state)).filter fun pair ↦ pair.1 ≠ pairKey 3).length = 6 ∧
        ((avlRemoveNode state.1.fuel state.1 state.2 (pairKey 3)).toOption.map fun result ↦
          (pairsOf (treeOf 7 result.1 result.2.1)).length) = some 4 := by
    apply exists_run_of_any
    decide +kernel
  refine ⟨state, results, hrun, hkey, ?_⟩
  rintro ⟨heap, root', status, built, hremove, rfl, hlinked, -, hbuilt⟩
  have hlength : (pairsOf built).length = 6 := by rw [hbuilt, hpairs]
  have hheight : built.height < 7 := by
    have hle := height_le_numNodes built
    rw [pairsOf, List.length_map, length_inorder] at hlength
    omega
  rw [hremove] at hleft
  have hfour : (pairsOf (treeOf 7 heap (root built))).length = 4 := Option.some.inj hleft
  rw [treeOf_linked hlinked hheight, hlength] at hfour
  cases hfour

end FGDB.HashMap
