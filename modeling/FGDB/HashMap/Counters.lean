import FGDB.HashMap.Sequence

/-!
# The counters of the tables

The counter of a slot is the number of nodes of its tree and, above the
threshold, the mark of a child table. An insertion counts one more and a removal
one less also when the tree does not change, so the counters are right as long
as present keys are not inserted and absent ones are removed from empty buckets
only.
-/

namespace FGDB.HashMap

open Foundation AvlTree NodeHeap
open SearchTree hiding insert find Sorted erase

variable {μ : Type}

/-- Every slot points to a tree of the counted size, with keys of its hash, or to a child table. -/
def TableWellFormed : VoidPtr μ → ℕ → Prop
  | .null, _ => False
  | .avlnode _ _, _ => False
  | .hmNode dep lenOfList top, depth => dep = depth ∧ ∀ index,
    (lenOfList index < maxHashDep ∧ ∃ t, Bucket (top index) t ∧ t.numNodes = lenOfList index ∧
      ∀ x ∈ inorder t, hash x.key dep = index) ∨
    (lenOfList index = maxHashDep + 1 ∧ TableWellFormed (top index) (depth + 1))

theorem TableHolds.wellFormed {d : Str → Option μ} {node : VoidPtr μ} {depth : ℕ}
    {routed : Str → Prop} (h : TableHolds d node depth routed) : TableWellFormed node depth := by
  induction node generalizing depth routed with
  | null => exact h.elim
  | avlnode heap root => exact h.elim
  | hmNode dep lenOfList top ih =>
    apply And.intro h.1
    intro index
    rcases h.2 index with ⟨hlen, t, hsize, hslot⟩ | ⟨hlen, htable⟩
    · exact .inl ⟨hlen, t, hslot.bucket, hsize, hslot.hashed⟩
    · exact .inr ⟨hlen, ih index htable⟩

inductive HashCall (μ : Type)
  | insert (key : Str) (keyMeta : μ)
  | delete (key : Str)
  deriving DecidableEq, Repr

def hashStep (node : VoidPtr μ) : HashCall μ → Outcome (VoidPtr μ × ℤ)
  | .insert key keyMeta => hashInsert node key keyMeta
  | .delete key => hashDelete node key

/-- The bucket of a key has no node. -/
def BucketEmpty (key : Str) : VoidPtr μ → Prop
  | .null => True
  | .avlnode _ _ => False
  | .hmNode dep lenOfList top =>
    if lenOfList (hash key dep) < maxHashDep then slotTree (top (hash key dep)) = .nil
    else BucketEmpty key (top (hash key dep))

/-- Only absent keys are inserted, and an absent key is removed only where its bucket is empty. -/
def CallCounts (node : VoidPtr μ) : HashCall μ → Prop
  | .insert key _ => hashSearch node key = .ok none ∧ InsertSafe key node
  | .delete key => (hashSearch node key = .ok none → BucketEmpty key node) ∧ DeleteSafe key node

/-- Nothing is removed from a slot without a tree. -/
theorem deleteFrom_null {key : Str} {dep : ℕ} {lenOfList : ℕ → ℕ} {top : ℕ → VoidPtr μ}
    (hlen : lenOfList (hash key dep) < maxHashDep) (hnull : top (hash key dep) = .null) :
    deleteFrom key (.hmNode dep lenOfList top) = .ok (.hmNode dep lenOfList top) := by
  have htop : Function.update top (hash key dep) .null = top := by
    rw [← hnull, Function.update_eq_self]
  have htree : (VoidPtr.null : VoidPtr μ).toTree = .ok (NodeHeap.empty, none) := rfl
  have hremove : avlRemoveNode (NodeHeap.empty : NodeHeap μ).fuel (NodeHeap.empty : NodeHeap μ) none key =
      .ok ((NodeHeap.empty : NodeHeap μ), none, -1) := rfl
  have hstat : ¬ ((-1 : ℤ) = 1) := by decide
  have hroot : VoidPtr.ofTree (NodeHeap.empty : NodeHeap μ) none = .null := rfl
  simp only [deleteFrom, if_pos hlen, hnull, htree, ok_bind, hremove, if_neg hstat, hroot, htop,
    pure_eq_ok]

theorem deleteFrom_bucketEmpty {d : Str → Option μ} {node : VoidPtr μ} {depth : ℕ}
    {routed : Str → Prop} (h : TableHolds d node depth routed) {key : Str}
    (hempty : BucketEmpty key node) : deleteFrom key node = .ok node := by
  induction node generalizing depth routed with
  | null => exact h.elim
  | avlnode heap root => exact h.elim
  | hmNode dep lenOfList top ih =>
    unfold BucketEmpty at hempty
    rcases h.2 (hash key dep) with ⟨hlen, t, -, hslot⟩ | ⟨hlen, htable⟩
    · rw [if_pos hlen, slotTree_bucket hslot.bucket] at hempty
      obtain ⟨next, heap, hslot, -⟩ := hslot.bucket
      rw [hempty] at hslot
      exact deleteFrom_null hlen hslot
    · rw [if_neg (by omega)] at hempty
      have hchild := ih (hash key dep) htable hempty
      rw [deleteFrom, if_neg (by omega), hchild, ok_bind, Function.update_eq_self]
      rfl

theorem MapHolds.absent_iff {d : Str → Option μ} {node : VoidPtr μ} (h : MapHolds d node)
    (key : Str) : hashSearch node key = .ok none ↔ d key = none := by
  obtain ⟨found, hsearch, hfound⟩ := hashSearch_holds h key
  rw [hsearch, ← hfound, Except.ok.injEq, Option.map_eq_none_iff]

/-- What a counted call does to a dictionary. -/
def hashSpec (d : Str → Option μ) : HashCall μ → (Str → Option μ) × ℤ
  | .insert key keyMeta => (Function.update d key (some keyMeta), 1)
  | .delete key => (Function.update d key none, 1)

theorem hashStep_simulates {d : Str → Option μ} {node : VoidPtr μ} {call : HashCall μ}
    (h : MapHolds d node) (hcounts : CallCounts node call) :
    ∃ node', hashStep node call = .ok (node', (hashSpec d call).2) ∧
      MapHolds (hashSpec d call).1 node' := by
  obtain ⟨dep, lenOfList, top, rfl⟩ := h.not_null
  cases call with
  | insert key keyMeta =>
    have habsent := (h.absent_iff key).mp hcounts.1
    exact insertFrom_holds h trivial habsent hcounts.2 keyMeta
  | delete key =>
    have hdelete (node' : VoidPtr μ) (hdelete : deleteFrom key (.hmNode dep lenOfList top) =
        .ok node') : hashStep (.hmNode dep lenOfList top) (.delete key) = .ok (node', 1) := by
      simp only [hashStep, hashDelete, hdelete, ok_bind, pure_eq_ok]
    cases hkey : d key with
    | none =>
      have hempty := hcounts.1 ((h.absent_iff key).mpr hkey)
      have hsame : Function.update d key none = d := by
        rw [← hkey, Function.update_eq_self]
      refine ⟨_, hdelete _ (deleteFrom_bucketEmpty h hempty), ?_⟩
      rw [hashSpec, hsame]
      exact h
    | some old =>
      obtain ⟨node', hnode', hholds⟩ := deleteFrom_holds h trivial hkey hcounts.2
      exact ⟨node', hdelete node' hnode', hholds⟩

/-- The calls on an empty map end in well-formed tables, in which every search finds its way. -/
def KeepsTables (calls : List (HashCall μ)) : Prop :=
  ∃ node results, run hashStep hashmapNew calls = .ok (node, results) ∧ TableWellFormed node 0 ∧
    ∀ key, ∃ found, hashSearch node key = .ok found

/-- The counter and the tree of a slot of a table. -/
def slotOf (index : ℕ) : VoidPtr μ → ℕ × ℕ
  | .hmNode _ lenOfList top => (lenOfList index, (slotTree (top index)).numNodes)
  | _ => (0, 0)

end FGDB.HashMap
