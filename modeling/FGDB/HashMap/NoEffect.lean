import FGDB.HashMap.Counters
import FGDB.HashMap.Deletions

/-!
# Calls that should have no effect

Inserting a key that is present and deleting one that is absent leave the trees
as they are. The counter of the bucket goes up all the same when the insertion
fails, and down when the deletion has looked at a node. Only a deletion from an
empty bucket leaves the map alone.
-/

namespace FGDB.HashMap

open Foundation AvlTree NodeHeap
open SearchTree hiding insert find Sorted erase

variable {μ : Type}

/-- The counters of all tables are the same, and the pairs of all trees are. -/
def SameMap : VoidPtr μ → VoidPtr μ → Prop
  | .hmNode dep lenOfList top, .hmNode dep' lenOfList' top' =>
    dep = dep' ∧ lenOfList = lenOfList' ∧ ∀ index, SameMap (top index) (top' index)
  | .hmNode _ _ _, .null => False
  | .hmNode _ _ _, .avlnode _ _ => False
  | .null, .hmNode _ _ _ => False
  | .avlnode _ _, .hmNode _ _ _ => False
  | slot, slot' => ∀ pair, pair ∈ pairsOf (slotTree slot) ↔ pair ∈ pairsOf (slotTree slot')

/-- What a search finds. -/
def answerOf (node : VoidPtr μ) (key : Str) : Outcome (Option (Str × μ)) :=
  (hashSearch node key).map fun found ↦ found.map fun avlnode ↦ (avlnode.key, avlnode.keyMeta)

/-- The key of an insertion is found before it, and that of a deletion is not. -/
def Ineffective (node : VoidPtr μ) : HashCall μ → Prop
  | .insert key _ => ∃ found, hashSearch node key = .ok (some found)
  | .delete key => hashSearch node key = .ok none

/-- The call returns, an insertion with -1, and no counter, no tree and no answer has changed. -/
def LeavesMap (node : VoidPtr μ) (call : HashCall μ) : Prop :=
  ∃ node' result, hashStep node call = .ok (node', result) ∧
    (∀ key keyMeta, call = .insert key keyMeta → result = -1) ∧ SameMap node node' ∧
      ∀ key, answerOf node' key = answerOf node key

theorem SameMap.refl (node : VoidPtr μ) : SameMap node node := by
  induction node with
  | null => exact fun _ ↦ Iff.rfl
  | avlnode heap root => exact fun _ ↦ Iff.rfl
  | hmNode dep lenOfList top ih => exact ⟨rfl, rfl, ih⟩

section Counts

variable {key : Str} {dep : ℕ} {lenOfList : ℕ → ℕ} {top : ℕ → VoidPtr μ} {node node' : VoidPtr μ}

/-- A remade table counts more. -/
theorem hashRemake_counts {index : ℕ} (h : hashRemake dep lenOfList top index = .ok node') : ∃ lenOfList' top', node' = .hmNode dep lenOfList' top' ∧
      lenOfList index ≤ lenOfList' index := by
  by_cases hfull : lenOfList index = maxHashDep
  · simp only [hashRemake, hfull, ne_eq, not_true_eq_false, if_false, bind_eq_ok, pure_eq_ok,
      Except.ok.injEq] at h
    obtain ⟨tree, htree, table, htable, rfl⟩ := h
    refine ⟨_, _, rfl, ?_⟩
    rw [Function.update_self, hfull]
    decide
  · rw [hashRemake, if_pos hfull] at h
    cases h
    exact ⟨_, _, rfl, le_rfl⟩

/-- Every insertion that returns has counted. -/
theorem insertFrom_counts {keyMeta : μ} {result : ℤ}
    (h : insertFrom key keyMeta node = .ok (node', result)) : ¬ SameMap node node' := by
  induction node generalizing node' result with
  | null => cases h
  | avlnode heap root => cases h
  | hmNode dep lenOfList top ih =>
    intro hsame
    by_cases hlen : lenOfList (hash key dep) ≥ maxHashDep
    · simp only [insertFrom, if_pos hlen, bind_eq_ok, Prod.exists, pure_eq_ok, Except.ok.injEq,
        Prod.mk.injEq] at h
      obtain ⟨child, answer, hchild, rfl, rfl⟩ := h
      have hsub := hsame.2.2 (hash key dep)
      rw [Function.update_self] at hsub
      exact ih (hash key dep) hchild hsub
    · have hwrap : wrap32 (lenOfList (hash key dep) + 1) = lenOfList (hash key dep) + 1 := by
        unfold wrap32
        unfold maxHashDep at hlen
        omega
      simp only [insertFrom, if_neg hlen, bind_eq_ok, Prod.exists] at h
      obtain ⟨heap, root, -, tree, answer, -, hrest⟩ := h
      have hcounted : ∃ lenOfList' top', node' = .hmNode dep lenOfList' top' ∧
          lenOfList (hash key dep) + 1 ≤ lenOfList' (hash key dep) := by
        split at hrest
        · cases hrest
          refine ⟨_, _, rfl, ?_⟩
          rw [Function.update_self, hwrap]
        · simp only [bind_eq_ok, pure_eq_ok, Except.ok.injEq, Prod.mk.injEq] at hrest
          obtain ⟨remade, hremade, rfl, -⟩ := hrest
          obtain ⟨lenOfList', top', rfl, hle⟩ := hashRemake_counts hremade
          rw [Function.update_self, hwrap] at hle
          exact ⟨lenOfList', top', rfl, hle⟩
      obtain ⟨lenOfList', top', rfl, hle⟩ := hcounted
      rw [← hsame.2.1] at hle
      omega

/-- Where the search finds nothing, an empty bucket is a null pointer, and another one has a root
with another key. -/
theorem bucket_of_absent (hlen : lenOfList (hash key dep) < maxHashDep)
    (hnone : searchFrom key (.hmNode dep lenOfList top) = .ok none) :
    top (hash key dep) = .null ∨ ∃ heap root here, top (hash key dep) = .avlnode heap root ∧
      heap.load (some root) = .ok here ∧ keyComp here.key key ≠ 0 := by
  rw [searchFrom, if_pos hlen] at hnone
  cases hslot : top (hash key dep) with
  | null => exact .inl rfl
  | hmNode dep' lenOfList' top' =>
    rw [hslot] at hnone
    cases hnone
  | avlnode heap root =>
    rw [hslot] at hnone
    have htree : (VoidPtr.avlnode heap root).toTree = .ok (heap, some root) := rfl
    simp only [htree, ok_bind, fuel, avlSearch] at hnone
    obtain ⟨found, hfound, hanswer⟩ := bind_eq_ok.mp hnone
    obtain ⟨here, hload, hbranch⟩ := bind_eq_ok.mp hfound
    refine .inr ⟨heap, root, here, rfl, hload, fun hequal ↦ ?_⟩
    rw [if_pos hequal, pure_eq_ok] at hbranch
    rw [← Except.ok.inj hbranch] at hanswer
    obtain ⟨node, -, hsome⟩ := bind_eq_ok.mp hanswer
    cases hsome

/-- A deletion that finds nothing in a bucket with nodes has counted. -/
theorem deleteFrom_counts (hnone : searchFrom key node = .ok none) (hfilled : ¬ BucketEmpty key node)
    (h : deleteFrom key node = .ok node') : ¬ SameMap node node' := by
  induction node generalizing node' with
  | null => cases h
  | avlnode heap root => cases h
  | hmNode dep lenOfList top ih =>
    intro hsame
    rw [BucketEmpty] at hfilled
    by_cases hlen : lenOfList (hash key dep) < maxHashDep
    · rw [if_pos hlen] at hfilled
      rcases bucket_of_absent hlen hnone with hnull | ⟨heap, root, here, hslot, hload, hkey⟩
      · rw [hnull] at hfilled
        exact hfilled rfl
      · have htree : (VoidPtr.avlnode heap root).toTree = .ok (heap, some root) := rfl
        simp only [deleteFrom, if_pos hlen, hslot, htree, ok_bind, fuel, avlRemoveNode, hload,
          if_neg hkey, bind_eq_ok, Prod.exists] at h
        obtain ⟨heap', root', stat, ⟨_, _, _, -, _, -, _, _, -, hstat⟩, hrest⟩ := h
        cases hstat
        rw [if_pos rfl] at hrest
        cases hrest
        have hcount := congrFun hsame.2.1 (hash key dep)
        rw [Function.update_self] at hcount
        unfold wrap32 at hcount
        unfold maxHashDep at hlen
        omega
    · rw [if_neg hlen] at hfilled
      rw [searchFrom, if_neg hlen] at hnone
      simp only [deleteFrom, if_neg hlen, bind_eq_ok] at h
      obtain ⟨child, hchild, hrest⟩ := h
      cases hrest
      have hsub := hsame.2.2 (hash key dep)
      rw [Function.update_self] at hsub
      exact ih (hash key dep) hnone hfilled hchild hsub

/-- A deletion from an empty bucket changes nothing. -/
theorem deleteFrom_empty (hnone : searchFrom key node = .ok none) (hempty : BucketEmpty key node) :
    deleteFrom key node = .ok node := by
  induction node with
  | null => cases hnone
  | avlnode heap root => cases hnone
  | hmNode dep lenOfList top ih =>
    rw [BucketEmpty] at hempty
    by_cases hlen : lenOfList (hash key dep) < maxHashDep
    · rw [if_pos hlen] at hempty
      rcases bucket_of_absent hlen hnone with hnull | ⟨heap, root, here, hslot, hload, hkey⟩
      · exact deleteFrom_null hlen hnull
      · obtain ⟨address, haddress, hcell⟩ := load_eq_ok.mp hload
        cases haddress
        simp only [hslot, slotTree, fuel, treeOf, hcell] at hempty
        cases hempty
    · rw [if_neg hlen] at hempty
      rw [searchFrom, if_neg hlen] at hnone
      rw [deleteFrom, if_neg hlen, ih (hash key dep) hnone hempty, ok_bind, Function.update_eq_self]
      rfl

end Counts

/-- A call that should have no effect has none exactly when it is a deletion from an empty
bucket. -/
theorem leavesMap_iff {node : VoidPtr μ} {call : HashCall μ} (h : Ineffective node call) :
    LeavesMap node call ↔ ∃ key, call = .delete key ∧ BucketEmpty key node := by
  cases call with
  | insert key keyMeta =>
    apply iff_of_false
    · rintro ⟨node', result, hstep, -, hsame, -⟩
      obtain ⟨found, hfound⟩ := h
      cases node with
      | null => cases hfound
      | avlnode heap root => cases hfound
      | hmNode dep lenOfList top => exact insertFrom_counts hstep hsame
    · rintro ⟨key', hcall, -⟩
      cases hcall
  | delete key =>
    have hcall : (∃ key', HashCall.delete (μ := μ) key = .delete key' ∧ BucketEmpty key' node) ↔
        BucketEmpty key node := by simp
    rw [hcall]
    cases node with
    | null => exact iff_of_true ⟨.null, 0, rfl, nofun, .refl _, fun _ ↦ rfl⟩ trivial
    | avlnode heap root => cases h
    | hmNode dep lenOfList top =>
      constructor
      · rintro ⟨node', result, hstep, -, hsame, -⟩
        obtain ⟨deleted, hdeleted, hresult⟩ := bind_eq_ok.mp hstep
        cases hresult
        by_contra hfilled
        exact deleteFrom_counts h hfilled hdeleted hsame
      · intro hempty
        have hdelete := deleteFrom_empty h hempty
        have hstep : hashStep (.hmNode dep lenOfList top) (.delete key) =
            .ok (.hmNode dep lenOfList top, 1) := by
          simp only [hashStep, hashDelete, hdelete, ok_bind, pure_eq_ok]
        exact ⟨_, 1, hstep, nofun, .refl _, fun _ ↦ rfl⟩

/-- A deletion from a map that holds nothing. -/
theorem leavesMap_empty : LeavesMap (hashmapNew : VoidPtr ℕ) (.delete (byteKey 0x61)) := by
  have habsent : Ineffective (hashmapNew : VoidPtr ℕ) (.delete (byteKey 0x61)) := rfl
  exact (leavesMap_iff habsent).mpr ⟨_, rfl, rfl⟩

/-- A key that is inserted a second time is refused and counted again. -/
theorem not_leavesMap_same_key : ∃ node results,
    run hashStep (hashmapNew : VoidPtr ℕ) [.insert (byteKey 0x61) 7] = .ok (node, results) ∧
      Ineffective node (.insert (byteKey 0x61) 8) ∧ ¬ LeavesMap node (.insert (byteKey 0x61) 8) := by
  refine ⟨_, _, rfl, ⟨_, rfl⟩, ?_⟩
  rintro ⟨node', result, hstep, -, hsame, -⟩
  exact insertFrom_counts hstep hsame

end FGDB.HashMap
