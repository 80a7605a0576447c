import FGDB.HashMap.Deletions
import Mathlib.Data.Int.ModEq

/-!
# When a full bucket splits

Modulo the size of a table the hash of a key is the multiplier times the sum of
the key's signed bytes, plus 2^32 for each negative byte. Keys that share a slot
therefore share one in the child table exactly when their sums agree modulo a
divisor of the size that depends on the depth, and below the listed depths the
multiplier does not change, so that they always do.
-/

namespace FGDB.HashMap

open Foundation AvlTree NodeHeap
open SearchTree hiding insert find Sorted erase

variable {μ : Type}

/-- A byte as a signed character. -/
def signedByte (byte : UInt8) : ℤ := if byte.toNat < 128 then byte.toNat else byte.toNat - 2 ^ 8

def isNegative (byte : UInt8) : Bool := 128 ≤ byte.toNat

def signedSum (key : Str) : ℤ := (key.bytes.map signedByte).sum

/-- The number of the negative bytes. -/
def negatives (key : Str) : ℕ := key.bytes.countP isNegative

/-- Keys with one hash at the depth have one hash below it if and only if their sums agree modulo
this. -/
def splitModulus : ℕ → ℤ
  | 0 => 2503
  | 1 => 2503
  | 2 => 10012
  | 3 => 5006
  | 4 => 10012
  | _ + 5 => 1

theorem multiplier_cases (dep : ℕ) : multiplier dep = 57 ∨ multiplier dep = 97 ∨
    multiplier dep = 71 ∨ multiplier dep = 107 ∨ multiplier dep = 89 := by
  unfold multiplier
  split <;> simp

/-- The product of the multiplier and a negative character wraps once. -/
theorem wrap_char (dep : ℕ) (byte : UInt8) :
    (wrap32 (multiplier dep * charValue byte) : ℤ) =
      multiplier dep * signedByte byte + ([byte].countP isNegative : ℕ) * 2 ^ 32 := by
  have hlt := byte.toNat_lt
  unfold wrap32 charValue signedByte
  by_cases hpositive : byte.toNat < 128
  · have hcount : [byte].countP isNegative = 0 := by
      simp [isNegative, hpositive]
    rw [if_pos hpositive, if_pos hpositive, hcount]
    rcases multiplier_cases dep with h | h | h | h | h <;> rw [h] <;> omega
  · have hcount : [byte].countP isNegative = 1 := by
      simp [isNegative, Nat.le_of_not_lt hpositive]
    rw [if_neg hpositive, if_neg hpositive, hcount]
    rcases multiplier_cases dep with h | h | h | h | h <;> rw [h] <;> omega

/-- The hash is linear in the sum of the bytes and the number of the negative ones. -/
theorem hash_modEq (key : Str) (dep : ℕ) : (hash key dep : ℤ) ≡
    multiplier dep * signedSum key + negatives key * 2 ^ 32 [ZMOD maxHashNode] := by
  have hfold (bytes : List UInt8) (mid : ℕ) (hmid : mid < maxHashNode) :
      ((bytes.foldl (fun mid byte ↦
        wrap32 (mid + wrap32 (multiplier dep * charValue byte) % maxHashNode) % maxHashNode)
          mid : ℕ) : ℤ) ≡ mid + (multiplier dep * (bytes.map signedByte).sum +
            (bytes.countP isNegative : ℕ) * 2 ^ 32) [ZMOD maxHashNode] := by
    induction bytes generalizing mid with
    | nil => simp
    | cons byte rest ih =>
      have hstep : ((wrap32 (mid + wrap32 (multiplier dep * charValue byte) % maxHashNode) %
          maxHashNode : ℕ) : ℤ) ≡ mid + wrap32 (multiplier dep * charValue byte)
            [ZMOD maxHashNode] := by
        unfold Int.ModEq
        generalize wrap32 (multiplier dep * charValue byte) = product
        unfold maxHashNode at hmid ⊢
        unfold wrap32
        omega
      have hcount : (byte :: rest).countP isNegative =
          [byte].countP isNegative + rest.countP isNegative := by
        rw [← List.countP_append, List.singleton_append]
      rw [List.foldl_cons]
      apply (ih _ (Nat.mod_lt _ (by decide))).trans
      apply (hstep.add_right _).trans
      rw [wrap_char, List.map_cons, List.sum_cons, hcount]
      push_cast
      ring_nf
      rfl
  have h := hfold key.bytes 0 (by decide)
  rwa [Nat.cast_zero, zero_add] at h

theorem hash_eq_iff {first second : Str} (dep : ℕ) : hash first dep = hash second dep ↔
    multiplier dep * signedSum first + negatives first * 2 ^ 32 ≡
      multiplier dep * signedSum second + negatives second * 2 ^ 32 [ZMOD maxHashNode] := by
  have hfirst := hash_modEq first dep
  have hsecond := hash_modEq second dep
  have hlt := hash_lt first dep
  have hlt' := hash_lt second dep
  constructor
  · intro h
    exact hfirst.symm.trans (h ▸ hsecond)
  · intro h
    have hboth := (hfirst.trans h).trans hsecond.symm
    apply Int.natCast_inj.mp
    rwa [Int.ModEq, Int.emod_eq_of_lt (by omega) (by omega),
      Int.emod_eq_of_lt (by omega) (by omega)] at hboth

/-- The modulus is the size of a table without the factors that it shares with the difference of the
multipliers. -/
theorem splitModulus_dvd_iff (dep : ℕ) (difference : ℤ) :
    (maxHashNode : ℤ) ∣ (multiplier (dep + 1) - multiplier dep) * difference ↔
      splitModulus dep ∣ difference := by
  unfold maxHashNode
  match dep with
  | 0 => simp only [multiplier, splitModulus]; omega
  | 1 => simp only [multiplier, splitModulus]; omega
  | 2 => simp only [multiplier, splitModulus]; omega
  | 3 => simp only [multiplier, splitModulus]; omega
  | 4 => simp only [multiplier, splitModulus]; omega
  | _ + 5 => simp only [multiplier, splitModulus]; omega

/-- The next multiplier separates two keys that collide if and only if their sums differ modulo the
modulus of the depth. -/
theorem hash_succ_eq_iff {first second : Str} {dep : ℕ} (h : hash first dep = hash second dep) :
    hash first (dep + 1) = hash second (dep + 1) ↔
      signedSum first ≡ signedSum second [ZMOD splitModulus dep] := by
  rw [hash_eq_iff, Int.modEq_iff_dvd] at h
  rw [hash_eq_iff, Int.modEq_iff_dvd, Int.modEq_iff_dvd, ← splitModulus_dvd_iff]
  have hsplit : (multiplier (dep + 1) * signedSum second + negatives second * 2 ^ 32 : ℤ) -
      (multiplier (dep + 1) * signedSum first + negatives first * 2 ^ 32) =
        (multiplier (dep + 1) - multiplier dep) * (signedSum second - signedSum first) +
          (multiplier dep * signedSum second + negatives second * 2 ^ 32 -
            (multiplier dep * signedSum first + negatives first * 2 ^ 32)) := by
    ring
  rw [hsplit]
  exact Int.dvd_add_left h

section Splits

variable (dep : ℕ)

/-- The sums of the keys do not all agree modulo the modulus of the depth. -/
def Spread (t : AvlTree μ) : Prop := ∃ x ∈ inorder t, ∃ y ∈ inorder t,
  ¬ signedSum x.key ≡ signedSum y.key [ZMOD splitModulus dep]

/-- The hash of the child table separates keys of the bucket, and the remade bucket is a child table
without a full bucket, in which every key is found with its own meta. -/
structure Splits (lenOfList : ℕ → ℕ) (top : ℕ → VoidPtr μ) (index : ℕ) (t : AvlTree μ) : Prop where
  separates : ∃ x ∈ inorder t, ∃ y ∈ inorder t, hash x.key (dep + 1) ≠ hash y.key (dep + 1)
  remade : ∃ childLen childTop node, hashRemake dep lenOfList top index = .ok node ∧
    node = .hmNode dep (Function.update lenOfList index (maxHashDep + 1))
      (Function.update top index (.hmNode (dep + 1) childLen childTop)) ∧
    (∀ other, childLen other = (slotTree (childTop other)).numNodes ∧
      childLen other < maxHashDep) ∧
    ∀ x ∈ inorder t, ∃ found, searchFrom x.key node = .ok (some found) ∧
      found.keyMeta = x.keyMeta

variable {dep} {lenOfList : ℕ → ℕ} {top : ℕ → VoidPtr μ} {index : ℕ} {t : AvlTree μ}

theorem spread_iff (hhashed : ∀ x ∈ inorder t, hash x.key dep = index) : Spread dep t ↔
    ∃ x ∈ inorder t, ∃ y ∈ inorder t, hash x.key (dep + 1) ≠ hash y.key (dep + 1) := by
  have hpair (x y : Entry μ) (hx : x ∈ inorder t) (hy : y ∈ inorder t) :=
    hash_succ_eq_iff ((hhashed x hx).trans (hhashed y hy).symm)
  constructor
  · rintro ⟨x, hx, y, hy, hne⟩
    exact ⟨x, hx, y, hy, fun heq ↦ hne ((hpair x y hx hy).mp heq)⟩
  · rintro ⟨x, hx, y, hy, hne⟩
    exact ⟨x, hx, y, hy, fun heq ↦ hne ((hpair x y hx hy).mpr heq)⟩

/-- Keys that the hash separates do not fill a slot of the child table. -/
theorem remakeSafe_of_separates (hfull : t.numNodes = maxHashDep)
    (hseparates : ∃ x ∈ inorder t, ∃ y ∈ inorder t, hash x.key (dep + 1) ≠ hash y.key (dep + 1))
    (hpivots : LinkPivots (dep + 1) (fun _ ↦ .nil) (postorder t)) : RemakeSafe (dep + 1) t := by
  refine ⟨hpivots, fun other ↦ ?_⟩
  have hlength : (postorder t).length = maxHashDep :=
    (postorder_perm t).length_eq.trans ((length_inorder t).trans hfull)
  rw [← hlength]
  apply List.length_filter_lt_length_iff_exists.mpr
  obtain ⟨x, hx, y, hy, hne⟩ := hseparates
  by_cases hother : hash x.key (dep + 1) = other
  · refine ⟨y, (postorder_perm t).mem_iff.mpr hy, ?_⟩
    simpa using fun heq ↦ hne (hother.trans heq.symm)
  · exact ⟨x, (postorder_perm t).mem_iff.mpr hx, by simpa using hother⟩

/-- A full bucket splits if and only if the sums of its keys do not all agree modulo the modulus of
its depth, and no insertion of the move lacks its pivot. -/
theorem splits_iff (hbucket : Bucket (top index) t) (hfull : t.numNodes = maxHashDep)
    (hlen : lenOfList index = maxHashDep) (hhashed : ∀ x ∈ inorder t, hash x.key dep = index) :
    Splits dep lenOfList top index t ↔
      Spread dep t ∧ LinkPivots (dep + 1) (fun _ ↦ .nil) (postorder t) := by
  rw [spread_iff hhashed]
  constructor
  · intro h
    refine ⟨h.separates, ?_⟩
    by_contra hpivots
    obtain ⟨heap, htree, hrep⟩ := toTree_bucket hbucket
    have hmoving := hrep.moving (by rw [hfull]; decide)
    have hnull := (hashInsertAvlInHash_eq (dep + 1) hrep.rep hrep.height_lt _).trans
      (hmoving.null (dep + 1) hpivots)
    obtain ⟨childLen, childTop, node, hremake, -⟩ := h.remade
    simp only [hashRemake, hlen, ne_eq, not_true_eq_false, if_false, htree, ok_bind, hnull,
      error_bind] at hremake
    cases hremake
  · rintro ⟨hseparates, hpivots⟩
    obtain ⟨heap, -, hrep⟩ := toTree_bucket hbucket
    have hslot : SlotHolds (fun key ↦ (AvlTree.find key t).map Entry.keyMeta) dep index
        (fun key ↦ hash key dep = index) (top index) t := ⟨hbucket, hhashed, fun _ _ ↦ rfl⟩
    obtain ⟨childLen, childTop, hremake, hfew, hchild⟩ := remake_holds hslot hfull
      (remakeSafe_of_separates hfull hseparates hpivots) rfl hlen
    refine ⟨hseparates, childLen, childTop, _, hremake, rfl, fun other ↦ ⟨?_, hfew other⟩,
      fun x hx ↦ ?_⟩
    · rcases hchild.2 other with ⟨-, child, hsize, hchildSlot⟩ | ⟨hlarge, -⟩
      · rw [slotTree_bucket hchildSlot.bucket, hsize]
      · exact absurd hlarge (by have := hfew other; omega)
    · obtain ⟨found, hsearch, hfound⟩ := searchFrom_holds hchild (hhashed x hx)
      have hfind : AvlTree.find x.key t = some x :=
        (SearchTree.find_eq_some_iff Entry.key hrep.sorted).mpr ⟨hx, rfl⟩
      rw [hfind, Option.map_some, Option.map_eq_some_iff] at hfound
      obtain ⟨node, rfl, hmeta⟩ := hfound
      refine ⟨node, ?_, hmeta⟩
      rw [searchFrom, hhashed x hx, Function.update_self, Function.update_self,
        if_neg (by omega), hsearch]

end Splits

theorem exists_rep {t : AvlTree μ} (hnodup : (addrs t).Nodup) (parent : Option ℕ) :
    ∃ heap, Rep heap parent t ∧ ∀ address ∈ addrs t, address < heap.next := by
  induction t generalizing parent with
  | nil => exact ⟨NodeHeap.empty, trivial, fun _ h ↦ absurd h List.not_mem_nil⟩
  | node e l r ihl ihr =>
    have haddrs : addrs (.node e l r) = addrs l ++ e.addr :: addrs r := by
      simp only [addrs, inorder_node, List.map_append, List.map_cons]
    rw [haddrs] at hnodup ⊢
    rw [List.nodup_append, List.nodup_cons] at hnodup
    obtain ⟨hl, ⟨hroot, hr⟩, hdisjoint⟩ := hnodup
    obtain ⟨left, hleft, hleftBelow⟩ := ihl hl (some e.addr)
    obtain ⟨right, hright, hrightBelow⟩ := ihr hr (some e.addr)
    have hrootLeft : e.addr ∉ addrs l := fun hmem ↦
      hdisjoint _ hmem _ List.mem_cons_self rfl
    let heap : NodeHeap μ := ⟨fun address ↦ if address = e.addr then some (cellOf .left e parent l r)
      else if address ∈ addrs l then left.cells address else right.cells address,
      max (e.addr + 1) (max left.next right.next)⟩
    refine ⟨heap, ⟨if_pos rfl, hleft.congr fun address hmem ↦ ?_,
      hright.congr fun address hmem ↦ ?_⟩, fun address hmem ↦ ?_⟩
    · have hne : address ≠ e.addr := fun heq ↦ hrootLeft (heq ▸ hmem)
      simp only [heap, if_neg hne, if_pos hmem]
    · have hne : address ≠ e.addr := fun heq ↦ hroot (heq ▸ hmem)
      have hnot : address ∉ addrs l := fun hleftMem ↦
        hdisjoint _ hleftMem _ (List.mem_cons_of_mem _ hmem) rfl
      simp only [heap, if_neg hne, if_neg hnot]
    · rw [List.mem_append, List.mem_cons] at hmem
      rcases hmem with hmem | rfl | hmem
      · have := hleftBelow address hmem
        simp only [heap]
        omega
      · simp only [heap]
        omega
      · have := hrightBelow address hmem
        simp only [heap]
        omega

theorem exists_bucket {t : AvlTree μ} (hnodup : (addrs t).Nodup) (hsorted : AvlTree.Sorted t) :
    ∃ slot, Bucket slot t := by
  obtain ⟨heap, hrep, hbelow⟩ := exists_rep hnodup none
  exact ⟨_, _, heap, rfl, ⟨hrep, hnodup, hbelow, hsorted⟩, rfl⟩

section Colliding

/-- Four characters that sum up to 254. -/
def collidingKey (number : ℕ) : Str :=
  ⟨[UInt8.ofNat (number / 128), UInt8.ofNat (127 - number / 128), UInt8.ofNat (number % 128),
    UInt8.ofNat (127 - number % 128)], by simp⟩

variable {number : ℕ}

theorem toNat_character {value : ℕ} (h : value < 128) : (UInt8.ofNat value).toNat = value :=
  Nat.mod_eq_of_lt (by omega)

theorem character_spec (value : ℕ) (h : value < 128) :
    signedByte (UInt8.ofNat value) = value ∧ isNegative (UInt8.ofNat value) = false := by
  unfold signedByte isNegative
  rw [toNat_character h]
  exact ⟨if_pos h, decide_eq_false (Nat.not_le_of_lt h)⟩

theorem hash_collidingKey (h : number < maxHashDep) (dep : ℕ) :
    signedSum (collidingKey number) = 254 ∧
      hash (collidingKey number) dep = multiplier dep * 254 % maxHashNode := by
  unfold maxHashDep at h
  have h1 := character_spec (number / 128) (by omega)
  have h2 := character_spec (127 - number / 128) (by omega)
  have h3 := character_spec (number % 128) (by omega)
  have h4 := character_spec (127 - number % 128) (by omega)
  have hsum : signedSum (collidingKey number) = 254 := by
    simp only [signedSum, collidingKey, List.map_cons, List.map_nil, List.sum_cons, List.sum_nil,
      h1.1, h2.1, h3.1, h4.1]
    omega
  have hnegatives : negatives (collidingKey number) = 0 := by
    simp [negatives, collidingKey, h1.2, h2.2, h3.2, h4.2]
  have hmod := hash_modEq (collidingKey number) dep
  have hlt := hash_lt (collidingKey number) dep
  rw [hsum, hnegatives, Nat.cast_zero, zero_mul, add_zero] at hmod
  refine ⟨hsum, ?_⟩
  have hnat : hash (collidingKey number) dep ≡ multiplier dep * 254 [MOD maxHashNode] :=
    Int.natCast_modEq_iff.mp (by push_cast; exact hmod)
  rwa [Nat.ModEq, Nat.mod_eq_of_lt hlt] at hnat

theorem collidingKey_lt {other : ℕ} (hlt : number < other) (h : other < maxHashDep) :
    collidingKey number < collidingKey other := by
  apply (keyComp_pos_iff _ _).mp
  unfold maxHashDep at h
  have hsize : (collidingKey number).size = (collidingKey other).size := rfl
  have htens : (UInt8.ofNat (number / 128)).toNat = number / 128 := toNat_character (by omega)
  have htens' : (UInt8.ofNat (other / 128)).toNat = other / 128 := toNat_character (by omega)
  have hones : (UInt8.ofNat (number % 128)).toNat = number % 128 := toNat_character (by omega)
  have hones' : (UInt8.ofNat (other % 128)).toNat = other % 128 := toNat_character (by omega)
  rw [keyComp, if_neg (not_not.mpr hsize)]
  by_cases hsame : other / 128 = number / 128
  · have hne : UInt8.ofNat (other % 128) ≠ UInt8.ofNat (number % 128) := by
      intro heq
      have := congrArg UInt8.toNat heq
      omega
    simp only [collidingKey, hsame, memcmp, if_true, if_neg hne]
    omega
  · have hne : UInt8.ofNat (other / 128) ≠ UInt8.ofNat (number / 128) := by
      intro heq
      have := congrArg UInt8.toNat heq
      omega
    simp only [collidingKey, memcmp, if_neg hne]
    omega

/-- As many keys as fill a bucket share a slot in the first table and also in its child. -/
theorem not_separates_collidingKey : ∃ keys : List Str, keys.length = maxHashDep ∧ keys.Nodup ∧
    (∀ key ∈ keys, hash key 0 = 2582) ∧ ∀ key ∈ keys, hash key 1 = 14478 := by
  have hhash (dep : ℕ) (key : Str) (hmem : key ∈ (List.range maxHashDep).map collidingKey) :
      hash key dep = multiplier dep * 254 % maxHashNode := by
    obtain ⟨number, hnumber, rfl⟩ := List.mem_map.mp hmem
    exact (hash_collidingKey (List.mem_range.mp hnumber) dep).2
  refine ⟨(List.range maxHashDep).map collidingKey, by rw [List.length_map, List.length_range], ?_,
    hhash 0, hhash 1⟩
  apply List.pairwise_map.mpr
  apply List.pairwise_lt_range.imp_of_mem
  intro number other _ hother hlt
  exact ne_of_lt (collidingKey_lt hlt (List.mem_range.mp hother))

/-- A tree in which every node is the right child of the one before it. -/
def chain (entries : List (Entry μ)) : AvlTree μ := entries.foldr (fun e t ↦ .node e .nil t) .nil

theorem inorder_chain (entries : List (Entry μ)) : inorder (chain entries) = entries := by
  induction entries with
  | nil => rfl
  | cons e rest ih => exact congrArg (e :: ·) ih

def collidingTree : AvlTree ℕ :=
  chain ((List.range maxHashDep).map fun number ↦ ⟨number, collidingKey number, number⟩)

theorem collidingTree_bucket : ∃ slot, Bucket slot collidingTree := by
  have haddrs : addrs collidingTree = List.range maxHashDep := by
    rw [addrs, collidingTree, inorder_chain, List.map_map]
    exact List.map_id _
  have hsorted : AvlTree.Sorted collidingTree := by
    unfold AvlTree.Sorted SearchTree.Sorted collidingTree
    rw [inorder_chain, List.pairwise_map]
    apply List.pairwise_lt_range.imp_of_mem
    intro number other _ hother hlt
    exact collidingKey_lt hlt (List.mem_range.mp hother)
  have hnodup : (addrs collidingTree).Nodup := haddrs ▸ List.nodup_range
  exact exists_bucket hnodup hsorted

/-- The bucket of these keys does not split. -/
theorem not_splits_collidingTree : ∃ slot, Bucket slot collidingTree ∧
    ¬ Splits 0 (fun _ ↦ maxHashDep) (fun _ ↦ slot) 2582 collidingTree := by
  obtain ⟨slot, hbucket⟩ := collidingTree_bucket
  have hkeys (x : Entry ℕ) (hx : x ∈ inorder collidingTree) :
      signedSum x.key = 254 ∧ hash x.key 0 = 2582 := by
    rw [collidingTree, inorder_chain] at hx
    obtain ⟨number, hnumber, rfl⟩ := List.mem_map.mp hx
    exact hash_collidingKey (List.mem_range.mp hnumber) 0
  have hfull : collidingTree.numNodes = maxHashDep := by
    rw [← length_inorder, collidingTree, inorder_chain, List.length_map, List.length_range]
  refine ⟨slot, hbucket, fun hsplits ↦ ?_⟩
  obtain ⟨⟨x, hx, y, hy, hne⟩, -⟩ :=
    (splits_iff hbucket hfull rfl fun x hx ↦ (hkeys x hx).2).mp hsplits
  apply hne
  rw [(hkeys x hx).1, (hkeys y hy).1]

end Colliding

end FGDB.HashMap
