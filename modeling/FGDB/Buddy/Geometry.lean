import FGDB.Buddy.Requests
import Mathlib.Order.Bounds.Basic
import Mathlib.Order.CompletePartialOrder
import Mathlib.Order.Interval.Set.Disjoint

/-!
# The places of the blocks

The logarithm is a loop that counts bits; it ends for the numbers below `2 ^ 31`, and
for a larger one it shifts by 32 and more, which the processor takes modulo 32. From
the logarithm come the level of a node, its capacity and its offset in the level. The
kilobytes of a node are those of its two children, and two nodes share a kilobyte
exactly when one is above the other.
-/

namespace FGDB.Buddy

open Foundation

/-- `num >> rv`. -/
def shiftRight (num rv : ℕ) : ℕ := num >>> (rv % 32)

/-- `1 << count`, made unsigned. -/
def shiftLeft (count : ℕ) : ℕ := wrap32 (1 <<< (count % 32))

/-- The loop of `bsqrt`, for at most so many rounds. -/
def countBits (num : ℕ) : ℕ → ℕ → Outcome ℕ
  | 0, _ => .error .nontermination
  | rounds + 1, rv => if shiftRight num rv = 0 then .ok rv else countBits num rounds (rv + 1)

/-- `bsqrt` of a 32-bit number, step by step. -/
def bsqrtLoop (rounds num : ℕ) : Outcome ℕ := do
  let rv ← countBits num rounds 0
  return if shiftLeft (wrap32 (rv + (2 ^ 32 - 1))) = num then rv - 1 else rv

/-- The call comes to an end with a value. -/
def BsqrtReturns (num value : ℕ) : Prop := ∃ rounds, bsqrtLoop rounds num = .ok value

section Loop

variable {num : ℕ}

theorem shiftRight_eq_zero_iff {rv : ℕ} (hrv : rv < 32) : shiftRight num rv = 0 ↔ num.size ≤ rv := by
  rw [shiftRight, Nat.mod_eq_of_lt hrv, Nat.shiftRight_eq_div_pow, Nat.size_le,
    Nat.div_eq_zero_iff_lt (Nat.two_pow_pos rv)]

/-- A loop that ends has counted the bits, and it ends when it has enough rounds. -/
theorem countBits_eq_ok_iff (hsize : num.size < 32) {rounds rv value : ℕ} (hrv : rv ≤ num.size) :
    countBits num rounds rv = .ok value ↔ num.size < rounds + rv ∧ value = num.size := by
  induction rounds generalizing rv with
  | zero => exact iff_of_false nofun (by omega)
  | succ rounds ih =>
    rw [countBits]
    by_cases hlast : num.size ≤ rv
    · rw [if_pos ((shiftRight_eq_zero_iff (by omega)).mpr hlast), Except.ok.injEq]
      omega
    · rw [if_neg (mt (shiftRight_eq_zero_iff (by omega)).mp hlast), ih (by omega)]
      omega

/-- The choice behind the loop gives the closed form. -/
theorem bsqrt_eq_choice (hsize : num.size < 32) :
    (if shiftLeft (wrap32 (num.size + (2 ^ 32 - 1))) = num then num.size - 1 else num.size) =
      bsqrt num := by
  rcases Nat.eq_zero_or_pos num with rfl | hpos
  · rfl
  · have hone : 0 < num.size := Nat.size_pos.mpr hpos
    have hback : wrap32 (num.size + (2 ^ 32 - 1)) = num.size - 1 := by
      unfold wrap32
      omega
    have hshift : shiftLeft (num.size - 1) = 1 <<< (num.size - 1) := by
      have hlt : 2 ^ (num.size - 1) < 2 ^ 32 := Nat.pow_lt_pow_right Nat.one_lt_two (by omega)
      rw [shiftLeft, Nat.mod_eq_of_lt (by omega), Nat.one_shiftLeft]
      exact Nat.mod_eq_of_lt hlt
    rw [hback, hshift, bsqrt]

/-- The highest bit is shifted out by no count. -/
theorem countBits_stuck (hnum : 2 ^ 31 ≤ num) (rounds rv : ℕ) :
    countBits num rounds rv = .error .nontermination := by
  induction rounds generalizing rv with
  | zero => rfl
  | succ rounds ih =>
    rw [countBits, if_neg, ih]
    have hlt : rv % 32 < 32 := Nat.mod_lt _ (by decide)
    have hpow : 2 ^ (rv % 32) ≤ 2 ^ 31 := Nat.pow_le_pow_right Nat.two_pos (by omega)
    rw [shiftRight, Nat.shiftRight_eq_div_pow, Nat.div_eq_zero_iff_lt (Nat.two_pow_pos _)]
    omega

theorem bsqrtLoop_eq (hnum : num < 2 ^ 31) : bsqrtLoop 32 num = .ok (bsqrt num) := by
  have hsize : num.size < 32 := Nat.lt_succ_of_le (Nat.size_le.mpr hnum)
  rw [bsqrtLoop, (countBits_eq_ok_iff hsize (Nat.zero_le _)).mpr ⟨hsize, rfl⟩, ok_bind,
    bsqrt_eq_choice hsize]
  rfl

theorem bsqrtReturns_iff {value : ℕ} :
    BsqrtReturns num value ↔ num < 2 ^ 31 ∧ value = bsqrt num := by
  constructor
  · intro ⟨rounds, hloop⟩
    by_cases hnum : num < 2 ^ 31
    · have hsize : num.size < 32 := Nat.lt_succ_of_le (Nat.size_le.mpr hnum)
      obtain ⟨rv, hcount, hvalue⟩ := bind_eq_ok.mp hloop
      rw [((countBits_eq_ok_iff hsize (Nat.zero_le _)).mp hcount).2, bsqrt_eq_choice hsize] at hvalue
      exact ⟨hnum, (Except.ok.inj hvalue).symm⟩
    · rw [bsqrtLoop, countBits_stuck (Nat.le_of_not_lt hnum), error_bind] at hloop
      cases hloop
  · rintro ⟨hnum, rfl⟩
    exact ⟨32, bsqrtLoop_eq hnum⟩

end Loop

/-- `offset` in `_buddy_ack_memory`. -/
def nodeOffset (pos : ℕ) : ℕ := (pos + 1) % 1 <<< (levelFromPos pos - 1)

/-- The kilobytes of a node on its level. -/
def nodeCapacity (hight pos : ℕ) : ℕ := 2 ^ (hight - levelFromPos pos)

/-- The kilobytes of the pool that a node addresses. -/
def addressInterval (hight pos : ℕ) : Set ℕ :=
  Set.Ico (nodeOffset pos * nodeCapacity hight pos) ((nodeOffset pos + 1) * nodeCapacity hight pos)

/-- A node is the other one or an ancestor of it. -/
abbrev Above (pos other : ℕ) : Prop := Relation.ReflTransGen Child pos other

/-- The nodes of a tree of a height lie in the pool as they lie in the tree. -/
structure Geometry (hight : ℕ) : Prop where
  address : ∀ pos < 2 ^ hight - 1,
    blockAddress hight pos = nodeOffset pos * nodeCapacity hight pos * kb
  inside : ∀ pos < 2 ^ hight - 1, addressInterval hight pos ⊆ Set.Ico 0 (2 ^ (hight - 1))
  children : ∀ pos, 2 * pos + 1 < 2 ^ hight - 1 →
    addressInterval hight pos =
      addressInterval hight (2 * pos + 1) ∪ addressInterval hight (2 * pos + 2) ∧
    Disjoint (addressInterval hight (2 * pos + 1)) (addressInterval hight (2 * pos + 2))
  nested : ∀ pos < 2 ^ hight - 1, ∀ other < 2 ^ hight - 1,
    addressInterval hight other ⊆ addressInterval hight pos ↔ Above pos other
  apart : ∀ pos < 2 ^ hight - 1, ∀ other < 2 ^ hight - 1,
    Disjoint (addressInterval hight pos) (addressInterval hight other) ↔
      ¬ Above pos other ∧ ¬ Above other pos

section Intervals

variable {hight pos other : ℕ}

theorem depth_lt (h : pos < 2 ^ hight - 1) : depth pos < hight :=
  Nat.log_lt_of_lt_pow (Nat.succ_ne_zero pos) (Nat.add_lt_of_lt_sub h)

theorem nodeCapacity_eq (hight pos : ℕ) : nodeCapacity hight pos = capacity hight pos := by
  rw [nodeCapacity, capacity, levelFromPos_eq, Nat.add_comm, Nat.sub_sub]

theorem nodeOffset_mul (h : depth pos < hight) :
    nodeOffset pos * nodeCapacity hight pos = firstLeaf hight pos := by
  rw [nodeOffset, nodeCapacity_eq, levelFromPos_eq, Nat.add_sub_cancel, Nat.one_shiftLeft,
    offset_mul_capacity h]

theorem mem_addressInterval (h : depth pos < hight) {place : ℕ} :
    place ∈ addressInterval hight pos ↔
      firstLeaf hight pos ≤ place ∧ place < firstLeaf hight pos + capacity hight pos := by
  rw [addressInterval, Nat.succ_mul, nodeOffset_mul h, nodeCapacity_eq, Set.mem_Ico]

theorem depth_leaf {place : ℕ} (h : place < 2 ^ (hight - 1)) :
    depth (place + 2 ^ (hight - 1) - 1) = hight - 1 := by
  rw [depth, Nat.sub_add_cancel (by omega)]
  apply Nat.log_eq_of_pow_le_of_lt_pow (Nat.le_add_left _ _)
  rw [pow_succ]
  omega

/-- A kilobyte is in the interval of a node exactly when its leaf is under the node. -/
theorem mem_addressInterval_iff_under (h : depth pos < hight) {place : ℕ} :
    place ∈ addressInterval hight pos ↔
      place < 2 ^ (hight - 1) ∧ Under pos (place + 2 ^ (hight - 1) - 1) := by
  have hbounds := firstLeaf_bounds h
  have hpos : 0 < 2 ^ (hight - 1) := Nat.two_pow_pos _
  rw [mem_addressInterval h]
  constructor
  · intro hplace
    exact ⟨by omega, under_leaf h hplace.1 hplace.2⟩
  · intro ⟨hinside, j, hj⟩
    have hlog := depth_leaf hinside
    rw [depth] at hlog
    rw [Nat.sub_add_cancel (by omega)] at hj hlog
    have hdepth : hight - 1 - j = depth pos := by
      rw [depth, ← hj, Nat.log_div_base_pow, hlog]
    have hle : j ≤ hight - 1 := by
      by_contra hlt
      have hpow : place + 2 ^ (hight - 1) < 2 ^ j :=
        Nat.lt_pow_of_log_lt Nat.one_lt_two (by omega)
      rw [Nat.div_eq_of_lt hpow] at hj
      cases hj
    have hcapacity : capacity hight pos = 2 ^ j := by
      rw [capacity]
      congr 1
      omega
    have hlow := Nat.div_mul_le_self (place + 2 ^ (hight - 1)) (2 ^ j)
    have hhigh := Nat.lt_div_mul_add (a := place + 2 ^ (hight - 1)) (Nat.two_pow_pos j)
    rw [hj, ← hcapacity, ← hbounds.1] at hlow hhigh
    omega

theorem firstLeaf_mem (h : depth pos < hight) :
    firstLeaf hight pos ∈ addressInterval hight pos :=
  (mem_addressInterval h).mpr ⟨Nat.le_refl _, Nat.lt_add_of_pos_right (Nat.two_pow_pos _)⟩

theorem addressInterval_subset_of_under (hpos : depth pos < hight) (hother : depth other < hight)
    (hunder : Under pos other) : addressInterval hight other ⊆ addressInterval hight pos := by
  intro place hplace
  rw [mem_addressInterval_iff_under hother] at hplace
  exact (mem_addressInterval_iff_under hpos).mpr ⟨hplace.1, hunder.trans hplace.2⟩

/-- Two nodes with a common kilobyte are one above the other. -/
theorem under_of_mem (hpos : depth pos < hight) (hother : depth other < hight) {place : ℕ}
    (hplace : place ∈ addressInterval hight pos) (hplace' : place ∈ addressInterval hight other) :
    Under pos other ∨ Under other pos :=
  ((mem_addressInterval_iff_under hpos).mp hplace).2.total
    ((mem_addressInterval_iff_under hother).mp hplace').2

theorem addressInterval_subset_iff (hpos : depth pos < hight) (hother : depth other < hight) :
    addressInterval hight other ⊆ addressInterval hight pos ↔ Under pos other := by
  refine ⟨fun hsubset ↦ ?_, addressInterval_subset_of_under hpos hother⟩
  have hfirst := firstLeaf_mem hother
  rcases under_of_mem hpos hother (hsubset hfirst) hfirst with hunder | hunder
  · exact hunder
  · -- the lower node has no more kilobytes, so both are on one level
    have hcapacity : 0 < capacity hight other := Nat.two_pow_pos _
    have hlast : firstLeaf hight other + capacity hight other - 1 ∈ addressInterval hight other :=
      (mem_addressInterval hother).mpr (by omega)
    have hlow := (mem_addressInterval hpos).mp (hsubset hfirst)
    have hhigh := (mem_addressInterval hpos).mp (hsubset hlast)
    have hworth : capacity hight other ≤ capacity hight pos := by omega
    have hexponent : hight - 1 - depth other ≤ hight - 1 - depth pos :=
      (Nat.pow_le_pow_iff_right Nat.one_lt_two).mp hworth
    have hdepth := hunder.log_le
    have hlevel : depth other = depth pos := le_antisymm hdepth (by omega)
    rw [hunder.eq_of_log hlevel]
    exact .refl pos

theorem disjoint_addressInterval_iff (hpos : depth pos < hight) (hother : depth other < hight) :
    Disjoint (addressInterval hight pos) (addressInterval hight other) ↔
      ¬ Under pos other ∧ ¬ Under other pos := by
  rw [Set.disjoint_left]
  constructor
  · intro hdisjoint
    constructor
    · intro hunder
      have hfirst := firstLeaf_mem hother
      exact hdisjoint (addressInterval_subset_of_under hpos hother hunder hfirst) hfirst
    · intro hunder
      have hfirst := firstLeaf_mem hpos
      exact hdisjoint hfirst (addressInterval_subset_of_under hother hpos hunder hfirst)
  · intro hapart place hplace hplace'
    exact (under_of_mem hpos hother hplace hplace').elim hapart.1 hapart.2

/-- The leaves under an inner node are those under its children. -/
theorem addressInterval_children (hchild : depth (2 * pos + 1) < hight) :
    addressInterval hight pos =
        addressInterval hight (2 * pos + 1) ∪ addressInterval hight (2 * pos + 2) ∧
      Disjoint (addressInterval hight (2 * pos + 1)) (addressInterval hight (2 * pos + 2)) := by
  have hleft := depth_left pos
  have hright : depth (2 * pos + 2) < hight := by
    rwa [depth_right, ← hleft]
  have hpos : depth pos < hight := by omega
  constructor
  · ext place
    rw [Set.mem_union, mem_addressInterval_iff_under hpos, mem_addressInterval_iff_under hchild,
      mem_addressInterval_iff_under hright, ← and_or_left, and_congr_right_iff]
    intro hplace
    constructor
    · intro hunder
      rcases hunder.cases_child with heq | hbelow
      · have hdepth := depth_leaf hplace
        rw [heq] at hdepth
        omega
      · exact hbelow
    · intro hbelow
      rcases hbelow with hbelow | hbelow
      · exact (Under.left pos).trans hbelow
      · exact (Under.right pos).trans hbelow
  · rw [Set.disjoint_left]
    intro place hplace hplace'
    exact not_under_right ((mem_addressInterval_iff_under hchild).mp hplace).2
      ((mem_addressInterval_iff_under hright).mp hplace').2

end Intervals

/-- The capacity of the root is computed wrongly in the highest tree, and there the offset is 0. -/
theorem offset_mul_capasity {hight : ℕ} (hhight : hight ≤ 22) (pos : ℕ) :
    nodeOffset pos * capasityFromPos hight pos = nodeOffset pos * nodeCapacity hight pos := by
  rcases Nat.eq_zero_or_pos pos with rfl | hpos
  · have hroot : nodeOffset 0 = 0 := by decide +kernel
    rw [hroot, Nat.zero_mul, Nat.zero_mul]
  · have hdepth : 0 < depth pos := depth_pos hpos.ne'
    rw [capasityFromPos_eq (by omega), nodeCapacity_eq]

/-- The place that is computed for a node is the start of its interval. -/
theorem blockAddress_eq_offset {hight pos : ℕ} (hhight : hight ≤ 22) (h : depth pos < hight) :
    blockAddress hight pos = nodeOffset pos * nodeCapacity hight pos * kb := by
  have hbounds := firstLeaf_bounds h
  have hcapacity : 0 < capacity hight pos := Nat.two_pow_pos _
  have hpow : 2 ^ (hight - 1) ≤ 2 ^ 21 := Nat.pow_le_pow_right Nat.two_pos (by omega)
  have hproduct : blockAddress hight pos = wrap32 (nodeOffset pos * capasityFromPos hight pos * kb) :=
    rfl
  rw [hproduct, offset_mul_capasity hhight, nodeOffset_mul h]
  apply Nat.mod_eq_of_lt
  unfold kb
  omega

theorem bsqrt_isLeast (num : ℕ) : IsLeast {k | num ≤ 2 ^ k} (bsqrt num) :=
  ⟨le_pow_bsqrt num, fun _ hk ↦ bsqrt_le hk⟩

/-- The geometry of the trees whose pools 32 bits address, and the logarithm that it comes from. -/
theorem geometry_of_hight {hight : ℕ} (hhight : hight ≤ 22) :
    Geometry hight ∧ ∀ num, 1 ≤ num → num ≤ 2 ^ 31 - 1 →
      BsqrtReturns num (bsqrt num) ∧ IsLeast {k | num ≤ 2 ^ k} (bsqrt num) := by
  constructor
  · constructor
    · intro pos hpos
      exact blockAddress_eq_offset hhight (depth_lt hpos)
    · intro pos hpos place hplace
      exact ⟨Nat.zero_le _, ((mem_addressInterval_iff_under (depth_lt hpos)).mp hplace).1⟩
    · intro pos hchild
      exact addressInterval_children (depth_lt hchild)
    · intro pos hpos other hother
      rw [Above, ← under_iff_reachable]
      exact addressInterval_subset_iff (depth_lt hpos) (depth_lt hother)
    · intro pos hpos other hother
      rw [Above, Above, ← under_iff_reachable, ← under_iff_reachable]
      exact disjoint_addressInterval_iff (depth_lt hpos) (depth_lt hother)
  · intro num _ hnum
    exact ⟨bsqrtReturns_iff.mpr ⟨by omega, rfl⟩, bsqrt_isLeast num⟩

theorem geometry_of_three_levels : Geometry 3 ∧ ∀ num, 1 ≤ num → num ≤ 2 ^ 31 - 1 →
    BsqrtReturns num (bsqrt num) ∧ IsLeast {k | num ≤ 2 ^ k} (bsqrt num) :=
  geometry_of_hight (by decide)

end FGDB.Buddy
