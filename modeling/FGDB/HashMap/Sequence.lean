import FGDB.HashMap.Dictionary

/-!
# Sequences of calls on the map

The calls of the map against those of a finite dictionary. Every sequence whose
insertions and deletions are safe for the tree they reach answers as the
dictionary does. A deletion that rotates below the root of a bucket loses keys
it was not asked for.
-/

namespace FGDB.HashMap

open Foundation

variable {μ : Type}

/-- The map stands for a dictionary. -/
def MapHolds (d : Str → Option μ) (hmap : VoidPtr μ) : Prop := TableHolds d hmap 0 fun _ ↦ True

theorem MapHolds.not_null {d : Str → Option μ} {hmap : VoidPtr μ} (h : MapHolds d hmap) :
    ∃ dep lenOfList top, hmap = .hmNode dep lenOfList top := by
  cases hmap with
  | null => exact h.elim
  | avlnode heap root => exact h.elim
  | hmNode dep lenOfList top => exact ⟨dep, lenOfList, top, rfl⟩

theorem hashmapNew_holds : MapHolds (fun _ ↦ none) (hashmapNew : VoidPtr μ) := by
  refine ⟨rfl, fun index ↦ .inl ⟨Nat.succ_pos _, .nil, rfl, ⟨0, bucketAt_null 0⟩, ?_, ?_⟩⟩
  · intro x hx
    exact absurd hx List.not_mem_nil
  · intro key _
    rfl

theorem hashSearch_holds {d : Str → Option μ} {hmap : VoidPtr μ} (h : MapHolds d hmap)
    (key : Str) : ∃ found, hashSearch hmap key = .ok found ∧ found.map AvlNode.keyMeta = d key := by
  obtain ⟨dep, lenOfList, top, rfl⟩ := h.not_null
  exact searchFrom_holds h trivial

theorem hashmapLookupKey_holds {d : Str → Option μ} {hmap : VoidPtr μ} (h : MapHolds d hmap)
    (key : Str) : hashmapLookupKey hmap key = .ok (d key, .success) := by
  obtain ⟨found, hsearch, hfound⟩ := hashSearch_holds h key
  rw [← hfound]
  cases found <;> simp [hashmapLookupKey, hsearch]

theorem hashmapInsertKey_present {d : Str → Option μ} {hmap : VoidPtr μ} (h : MapHolds d hmap)
    {key : Str} {old : μ} (hpresent : d key = some old) (keyMeta : μ) :
    hashmapInsertKey hmap keyMeta key = .ok (hmap, -1, .keyFound) := by
  obtain ⟨found, hsearch, hfound⟩ := hashSearch_holds h key
  rw [hpresent] at hfound
  obtain ⟨node, rfl, -⟩ := Option.map_eq_some_iff.mp hfound
  simp [hashmapInsertKey, hsearch]

theorem hashmapInsertKey_absent {d : Str → Option μ} {hmap : VoidPtr μ} (h : MapHolds d hmap)
    {key : Str} (habsent : d key = none) (hsafe : InsertSafe key hmap) (keyMeta : μ) :
    ∃ hmap', hashmapInsertKey hmap keyMeta key = .ok (hmap', 0, .success) ∧
      MapHolds (Function.update d key (some keyMeta)) hmap' := by
  obtain ⟨found, hsearch, hfound⟩ := hashSearch_holds h key
  rw [habsent, Option.map_eq_none_iff] at hfound
  obtain ⟨hmap', hinsert, hholds⟩ := insertFrom_holds h trivial habsent hsafe keyMeta
  obtain ⟨dep, lenOfList, top, rfl⟩ := h.not_null
  refine ⟨hmap', ?_, hholds⟩
  simp [hashmapInsertKey, hsearch, hfound, hashInsert, hinsert]

theorem hashmapDeleteKey_absent {d : Str → Option μ} {hmap : VoidPtr μ} (h : MapHolds d hmap)
    {key : Str} (habsent : d key = none) (metas : μ → Outcome KeyMeta) :
    hashmapDeleteKey metas hmap key = .ok (hmap, none, .success) := by
  obtain ⟨found, hsearch, hfound⟩ := hashSearch_holds h key
  rw [habsent, Option.map_eq_none_iff] at hfound
  simp [hashmapDeleteKey, hsearch, hfound]

theorem hashmapDeleteKey_present {d : Str → Option μ} {hmap : VoidPtr μ} (h : MapHolds d hmap)
    {key : Str} {old : μ} (hpresent : d key = some old) (hsafe : DeleteSafe key hmap)
    (metas : μ → Outcome KeyMeta) {keyMeta : KeyMeta} (hmeta : metas old = .ok keyMeta) :
    ∃ hmap', hashmapDeleteKey metas hmap key =
      .ok (hmap', some { keyMeta with weakKey := none }, .success) ∧
        MapHolds (Function.update d key none) hmap' := by
  obtain ⟨found, hsearch, hfound⟩ := hashSearch_holds h key
  rw [hpresent] at hfound
  obtain ⟨node, rfl, hnode⟩ := Option.map_eq_some_iff.mp hfound
  obtain ⟨hmap', hdelete, hholds⟩ := deleteFrom_holds h trivial hpresent hsafe
  obtain ⟨dep, lenOfList, top, rfl⟩ := h.not_null
  refine ⟨hmap', ?_, hholds⟩
  simp [hashmapDeleteKey, hsearch, hnode, hmeta, hashDelete, hdelete]

/-- A call on the map; a deletion reads the metas as they are then. -/
inductive HashmapCall (μ : Type)
  | insertKey (keyMeta : μ) (key : Str)
  | lookupKey (key : Str)
  | deleteKey (metas : μ → KeyMeta) (key : Str)

inductive HashmapResult (μ : Type)
  | inserted (result : ℤ) (err : HashmapError)
  | found (keyMeta : Option μ) (err : HashmapError)
  | deleted (keyMeta : Option KeyMeta) (err : HashmapError)
  deriving DecidableEq, Repr

def hashmapStep (hmap : VoidPtr μ) : HashmapCall μ → Outcome (VoidPtr μ × HashmapResult μ)
  | .insertKey keyMeta key => do
    let (hmap, result, err) ← hashmapInsertKey hmap keyMeta key
    return (hmap, .inserted result err)
  | .lookupKey key => do
    let (keyMeta, err) ← hashmapLookupKey hmap key
    return (hmap, .found keyMeta err)
  | .deleteKey metas key => do
    let (hmap, keyMeta, err) ← hashmapDeleteKey (fun pointer ↦ .ok (metas pointer)) hmap key
    return (hmap, .deleted keyMeta err)

/-- What the calls do to a dictionary. -/
def dictionaryStep (d : Str → Option μ) : HashmapCall μ → (Str → Option μ) × HashmapResult μ
  | .insertKey keyMeta key =>
    match d key with
    | some _ => (d, .inserted (-1) .keyFound)
    | none => (Function.update d key (some keyMeta), .inserted 0 .success)
  | .lookupKey key => (d, .found (d key) .success)
  | .deleteKey metas key =>
    (Function.update d key none,
      .deleted ((d key).map fun pointer ↦ { metas pointer with weakKey := none }) .success)

/-- A call whose tree operations are safe for the tree they reach. -/
def CallSafe (hmap : VoidPtr μ) : HashmapCall μ → Prop
  | .insertKey _ key => InsertSafe key hmap
  | .lookupKey _ => True
  | .deleteKey _ key => DeleteSafe key hmap

theorem hashmapStep_simulates {d : Str → Option μ} {hmap : VoidPtr μ} {call : HashmapCall μ}
    (h : MapHolds d hmap) (hsafe : CallSafe hmap call) :
    ∃ hmap', hashmapStep hmap call = .ok (hmap', (dictionaryStep d call).2) ∧
      MapHolds (dictionaryStep d call).1 hmap' := by
  cases call with
  | insertKey keyMeta key =>
    cases hkey : d key with
    | some old =>
      refine ⟨hmap, ?_, ?_⟩
      · simp [hashmapStep, hashmapInsertKey_present h hkey, dictionaryStep, hkey]
      · simpa [dictionaryStep, hkey] using h
    | none =>
      obtain ⟨hmap', hinsert, hholds⟩ := hashmapInsertKey_absent h hkey hsafe keyMeta
      refine ⟨hmap', ?_, ?_⟩
      · simp [hashmapStep, hinsert, dictionaryStep, hkey]
      · simpa [dictionaryStep, hkey] using hholds
  | lookupKey key =>
    refine ⟨hmap, ?_, h⟩
    simp [hashmapStep, hashmapLookupKey_holds h key, dictionaryStep]
  | deleteKey metas key =>
    cases hkey : d key with
    | some old =>
      obtain ⟨hmap', hdelete, hholds⟩ := hashmapDeleteKey_present h hkey hsafe
        (fun pointer ↦ .ok (metas pointer)) rfl
      refine ⟨hmap', ?_, hholds⟩
      simp [hashmapStep, hdelete, dictionaryStep, hkey]
    | none =>
      refine ⟨hmap, ?_, ?_⟩
      · simp [hashmapStep, hashmapDeleteKey_absent h hkey, dictionaryStep, hkey]
      · have hsame : Function.update d key none = d := by
          rw [← hkey, Function.update_eq_self]
        rw [dictionaryStep, hsame]
        exact h

/-- The calls on a new map are answered as by a dictionary. -/
def FollowsDictionary (calls : List (HashmapCall μ)) : Prop :=
  ∃ hmap, run hashmapStep hashmapNew calls =
    .ok (hmap, (runSpec dictionaryStep (fun _ ↦ none) calls).2)

/-- Every sequence of safe calls on a new map is answered as by a dictionary. -/
theorem hashmap_follows_dictionary {calls : List (HashmapCall μ)}
    (hsafe : EachStep hashmapStep CallSafe hashmapNew calls) : FollowsDictionary calls := by
  obtain ⟨hmap, hrun, -⟩ :=
    run_simulates (fun _ _ _ h hcall ↦ hashmapStep_simulates h hcall) hashmapNew_holds hsafe
  exact ⟨hmap, hrun⟩

def byteKey (x : UInt8) : Str := ⟨[x], by simp⟩

/-- One key comes, is found and goes. -/
theorem followsDictionary_one_key : FollowsDictionary
    [.insertKey 7 (byteKey 0x61), .lookupKey (byteKey 0x61),
      .deleteKey (fun pointer ↦ ⟨none, pointer, 0⟩) (byteKey 0x61)] := by
  apply hashmap_follows_dictionary
  apply And.intro
  · intro _ _ _
    exact ⟨trivial, fun hfull ↦ absurd hfull (by decide)⟩
  · intro next output hinsert
    cases hinsert
    apply And.intro trivial
    intro next output hlookup
    cases hlookup
    refine ⟨fun _ ↦ ⟨fun hchild ↦ absurd rfl hchild, trivial⟩, ?_⟩
    intro next output hdelete
    trivial

/-- Two bytes of one sum have one hash. -/
def pairKey (x : UInt8) : Str := ⟨[x, 100 - x], by simp⟩

/-- Seven keys of one bucket, and a deletion that rotates below its root. -/
def pairCalls : List (HashmapCall ℕ) :=
  (([4, 2, 5, 1, 3, 6, 0] : List UInt8).map fun x ↦ .insertKey x.toNat (pairKey x)) ++
    [.deleteKey (fun _ ↦ ⟨none, 0, 0⟩) (pairKey 3), .lookupKey (pairKey 1)]

/-- The deletion of one key loses another. -/
theorem not_followsDictionary_pairCalls : ¬ FollowsDictionary pairCalls := by
  intro ⟨hmap, hrun⟩
  have hlost : ((run hashmapStep hashmapNew pairCalls).toOption.bind fun result ↦
      result.2.getLast?) = some (.found none .success) := by decide +kernel
  have hkept : (runSpec dictionaryStep (fun _ ↦ none) pairCalls).2.getLast? =
      some (.found (some 1) .success) := by decide +kernel
  rw [hrun] at hlost
  have hsame := hkept.symm.trans hlost
  simp at hsame

end FGDB.HashMap
