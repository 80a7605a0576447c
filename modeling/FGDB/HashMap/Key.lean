import FGDB.Common
import Mathlib.Order.Basic

/-!
# Keys: their order and their hash

Keys are ordered by size and then by bytes. The comparison of the source is
positive when its second argument is the larger one. The hash depends on the
depth of the table through its multiplier, and reads the bytes as signed
characters.
-/

namespace FGDB.HashMap

open Foundation

/-- `MAX_HASH_NODE`. -/
def maxHashNode : ℕ := 20024

/-- `MAX_HASH_DEP`. -/
def maxHashDep : ℕ := 10024

/-- The difference of the first bytes that differ. -/
def memcmp : List UInt8 → List UInt8 → ℤ
  | a :: first, b :: second => if a = b then memcmp first second else a.toNat - b.toNat
  | _, _ => 0

def keyComp (first second : Str) : ℤ :=
  if first.size ≠ second.size then second.size - first.size
  else memcmp second.bytes first.bytes

theorem memcmp_swap (first second : List UInt8) : memcmp second first = -memcmp first second := by
  fun_induction memcmp first second with
  | case1 a first second ih => simpa [memcmp] using ih
  | case2 a first b second hne =>
    simp only [memcmp, if_neg (Ne.symm hne)]
    omega
  | case3 first second hcons =>
    cases first with
    | nil => cases second <;> simp [memcmp]
    | cons a first =>
      cases second with
      | nil => simp [memcmp]
      | cons b second => exact absurd rfl (hcons a first b second rfl)

theorem memcmp_eq_zero_iff {first second : List UInt8} (h : first.length = second.length) :
    memcmp first second = 0 ↔ first = second := by
  induction first generalizing second with
  | nil =>
    cases second with
    | nil => simp [memcmp]
    | cons => simp at h
  | cons a first ih =>
    cases second with
    | nil => simp at h
    | cons b second =>
      rw [memcmp, List.cons.injEq]
      split
      · next heq => rw [ih (by simpa using h), and_iff_right heq]
      · next hne =>
        have hnat : a.toNat ≠ b.toNat := fun heq ↦ hne (UInt8.toNat_inj.mp heq)
        simp only [hne, false_and, iff_false]
        omega

theorem memcmp_trans {first second third : List UInt8} (h : first.length = second.length)
    (h' : second.length = third.length) (hfirst : 0 ≤ memcmp first second)
    (hsecond : 0 ≤ memcmp second third) : 0 ≤ memcmp first third := by
  induction first generalizing second third with
  | nil => simp [memcmp]
  | cons a first ih =>
    cases second with
    | nil => simp at h
    | cons b second =>
      cases third with
      | nil => simp at h'
      | cons c third =>
        rw [memcmp] at hfirst hsecond ⊢
        by_cases hab : a = b
        · rw [if_pos hab] at hfirst
          rw [hab]
          split
          · next hbc =>
            rw [if_pos hbc] at hsecond
            exact ih (by simpa using h) (by simpa using h') hfirst hsecond
          · next hbc => rwa [if_neg hbc] at hsecond
        · have hnat : a.toNat ≠ b.toNat := fun heq ↦ hab (UInt8.toNat_inj.mp heq)
          rw [if_neg hab] at hfirst
          have hbc : c.toNat ≤ b.toNat := by
            by_cases hbc : b = c
            · rw [hbc]
            · rw [if_neg hbc] at hsecond
              omega
          have hac : a ≠ c := by
            intro hac
            rw [hac] at hfirst hnat
            omega
          rw [if_neg hac]
          omega

theorem keyComp_swap (first second : Str) : keyComp second first = -keyComp first second := by
  unfold keyComp
  by_cases h : first.size = second.size
  · rw [if_neg (by simp [h]), if_neg (by simp [h]), memcmp_swap]
  · rw [if_pos (Ne.symm h), if_pos h]
    omega

theorem keyComp_eq_zero_iff (first second : Str) : keyComp first second = 0 ↔ first = second := by
  unfold keyComp
  split
  · next h =>
    have hne : first ≠ second := fun heq ↦ h (heq ▸ rfl)
    simp only [hne, iff_false]
    omega
  · next h =>
    have hsize : second.bytes.length = first.bytes.length := (not_not.mp h).symm
    rw [memcmp_eq_zero_iff hsize]
    constructor
    · intro hbytes
      exact Str.ext hbytes.symm
    · intro heq
      rw [heq]

theorem keyComp_trans {first second third : Str} (h : 0 ≤ keyComp first second)
    (h' : 0 ≤ keyComp second third) : 0 ≤ keyComp first third := by
  unfold keyComp at h h' ⊢
  split at h <;> split at h' <;> split
  all_goals try omega
  next hfirst hsecond _ =>
    exact memcmp_trans (not_not.mp hsecond).symm (not_not.mp hfirst).symm h' h

/-- The order of the keys: by size, and by bytes within a size. -/
instance : LinearOrder Str where
  le first second := 0 ≤ keyComp first second
  lt first second := 0 < keyComp first second
  le_refl key := le_of_eq ((keyComp_eq_zero_iff key key).mpr rfl).symm
  le_trans _ _ _ := keyComp_trans
  lt_iff_le_not_ge first second := by
    rw [keyComp_swap first second]
    omega
  le_antisymm first second h h' := by
    rw [keyComp_swap first second] at h'
    exact (keyComp_eq_zero_iff first second).mp (by omega)
  le_total first second := by
    rw [keyComp_swap first second]
    omega
  toDecidableEq := inferInstance
  toDecidableLE first second := inferInstanceAs (Decidable (0 ≤ keyComp first second))
  toDecidableLT first second := inferInstanceAs (Decidable (0 < keyComp first second))

theorem keyComp_pos_iff (first second : Str) : keyComp first second > 0 ↔ first < second :=
  Iff.rfl

theorem keyComp_neg_iff (first second : Str) : keyComp first second < 0 ↔ second < first := by
  change _ ↔ 0 < keyComp second first
  rw [keyComp_swap first second]
  omega

/-- The unsigned value that a character is converted to. -/
def charValue (byte : UInt8) : ℕ :=
  if byte.toNat < 128 then byte.toNat else byte.toNat + (2 ^ 32 - 2 ^ 8)

/-- The multiplier of a table at the given depth. -/
def multiplier : ℕ → ℕ
  | 1 => 57
  | 2 => 97
  | 3 => 71
  | 4 => 107
  | _ => 89

def hash (key : Str) (dep : ℕ) : ℕ :=
  key.bytes.foldl (fun mid byte ↦
    wrap32 (mid + wrap32 (multiplier dep * charValue byte) % maxHashNode) % maxHashNode) 0

theorem hash_lt (key : Str) (dep : ℕ) : hash key dep < maxHashNode := by
  have hfold (bytes : List UInt8) : ∀ mid, mid < maxHashNode →
      bytes.foldl (fun mid byte ↦
        wrap32 (mid + wrap32 (multiplier dep * charValue byte) % maxHashNode) % maxHashNode) mid <
          maxHashNode := by
    induction bytes with
    | nil => exact fun mid h ↦ h
    | cons byte rest ih => exact fun mid _ ↦ ih _ (Nat.mod_lt _ (by decide))
  exact hfold key.bytes 0 (by decide)

end FGDB.HashMap
