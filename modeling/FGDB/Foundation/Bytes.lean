import FGDB.Foundation.Run
import Mathlib.Tactic.Ring

/-!
# Bytes, integers in memory order and sequential reads

Integers are stored least significant byte first. `leBytes` takes the width in
bytes and drops what does not fit, as a store to a variable of that width does.
`takeBytes` is a copy out of a block of memory at a cursor: asking for more than
is left is a fault. `strncpy` copies a string up to its first zero.
-/

namespace FGDB.Foundation

def leBytes : ℕ → ℕ → List UInt8
  | 0, _ => []
  | width + 1, value => UInt8.ofNat value :: leBytes width (value / 256)

def leValue : List UInt8 → ℕ
  | [] => 0
  | byte :: rest => byte.toNat + 256 * leValue rest

@[simp] theorem length_leBytes (width value : ℕ) : (leBytes width value).length = width := by
  induction width generalizing value with
  | zero => rfl
  | succ width ih => simp [leBytes, ih]

theorem leValue_leBytes (width value : ℕ) : leValue (leBytes width value) = value % 256 ^ width := by
  induction width generalizing value with
  | zero => simp [leBytes, leValue, Nat.mod_one]
  | succ width ih =>
    calc leValue (leBytes (width + 1) value)
        = value % 256 + 256 * (value / 256 % 256 ^ width) := by
          simp [leBytes, leValue, ih]
      _ = value % 256 ^ (width + 1) := by
          rw [pow_succ', Nat.mod_mul]

theorem leValue_leBytes_of_lt {width value : ℕ} (h : value < 256 ^ width) :
    leValue (leBytes width value) = value := by
  rw [leValue_leBytes, Nat.mod_eq_of_lt h]

theorem leValue_lt (bytes : List UInt8) : leValue bytes < 256 ^ bytes.length := by
  induction bytes with
  | nil => simp [leValue]
  | cons byte rest ih =>
    have hbyte := byte.toNat_lt
    simp only [leValue, List.length_cons, pow_succ']
    omega

theorem leValue_append_zeros (bytes : List UInt8) (count : ℕ) :
    leValue (bytes ++ List.replicate count 0) = leValue bytes := by
  induction bytes with
  | nil =>
    induction count with
    | zero => rfl
    | succ count ih => simpa [List.replicate_succ, leValue] using ih
  | cons byte rest ih => simp only [List.cons_append, leValue, ih]

theorem leBytes_zero (width : ℕ) : leBytes width 0 = List.replicate width 0 := by
  induction width with
  | zero => rfl
  | succ width ih => simp [leBytes, ih, List.replicate_succ]

theorem leBytes_add (width more value : ℕ) :
    leBytes (width + more) value = leBytes width value ++ leBytes more (value / 256 ^ width) := by
  induction width generalizing value with
  | zero => simp [leBytes]
  | succ width ih =>
    rw [Nat.succ_add]
    simp only [leBytes, ih, List.cons_append, pow_succ', Nat.div_div_eq_div_mul]

/-- A store drops what does not fit. -/
theorem leBytes_mod (width value : ℕ) :
    leBytes width (value % 256 ^ width) = leBytes width value := by
  induction width generalizing value with
  | zero => rfl
  | succ width ih =>
    have hbyte : UInt8.ofNat (value % 256 ^ (width + 1)) = UInt8.ofNat value := by
      apply UInt8.toNat_inj.mp
      rw [UInt8.toNat_ofNat', UInt8.toNat_ofNat', pow_succ', Nat.mod_mul_right_mod]
    have hrest : value % 256 ^ (width + 1) / 256 = value / 256 % 256 ^ width := by
      rw [pow_succ', Nat.mod_mul_right_div_self]
    rw [leBytes, leBytes, hbyte, hrest, ih]

/-- Copy `count` bytes out of what is left of a block. -/
def takeBytes (count : ℕ) (block : List UInt8) : Outcome (List UInt8 × List UInt8) :=
  if count ≤ block.length then .ok (block.take count, block.drop count) else .error .outOfBounds

theorem takeBytes_eq_ok {count : ℕ} {block front back : List UInt8}
    (h : takeBytes count block = .ok (front, back)) :
    count ≤ block.length ∧ front = block.take count := by
  unfold takeBytes at h
  split at h
  · next hle =>
    cases h
    exact ⟨hle, rfl⟩
  · cases h

@[simp] theorem takeBytes_append {count : ℕ} {front back : List UInt8}
    (h : front.length = count) : takeBytes count (front ++ back) = .ok (front, back) := by
  simp [takeBytes, ← h]

theorem takeBytes_leBytes (width value : ℕ) (back : List UInt8) :
    takeBytes width (leBytes width value ++ back) = .ok (leBytes width value, back) :=
  takeBytes_append (length_leBytes width value)

/-- A variable after a read that delivered some of its bytes. -/
def overwrite (old new : List UInt8) : List UInt8 := new ++ old.drop new.length

theorem overwrite_of_length_le {old new : List UInt8} (h : old.length ≤ new.length) :
    overwrite old new = new := by
  rw [overwrite, List.drop_of_length_le h, List.append_nil]

theorem take_overwrite (old : List UInt8) {new : List UInt8} {width : ℕ} (h : new.length = width) :
    (overwrite old new).take width = new := List.take_left' h

/-- The bytes up to the first zero, of so many, and zeros for the others. -/
def strncpy (src : List UInt8) (count : ℕ) : List UInt8 :=
  let text := (src.take count).takeWhile (· ≠ 0)
  text ++ List.replicate (count - text.length) 0

/-- Nothing but zeros follows a zero. -/
def ZerosAfterZero (bytes : List UInt8) : Prop := ∀ byte ∈ bytes.dropWhile (· ≠ 0), byte = 0

instance (bytes : List UInt8) : Decidable (ZerosAfterZero bytes) :=
  inferInstanceAs (Decidable (∀ byte ∈ _, _ = _))

theorem length_strncpy (src : List UInt8) (count : ℕ) : (strncpy src count).length = count := by
  have htext : (src.take count).takeWhile (· ≠ 0) <+: src.take count := List.takeWhile_prefix _
  have htake := List.length_take_le count src
  rw [strncpy, List.length_append, List.length_replicate]
  exact Nat.add_sub_of_le (htext.length_le.trans htake)

/-- A string that is copied whole stays as it is if and only if only zeros follow its first zero. -/
theorem strncpy_eq_self_iff {bytes : List UInt8} :
    strncpy bytes bytes.length = bytes ↔ ZerosAfterZero bytes := by
  obtain ⟨text, htext⟩ : ∃ text, bytes.takeWhile (· ≠ 0) = text := ⟨_, rfl⟩
  obtain ⟨rest, hrest⟩ : ∃ rest, bytes.dropWhile (· ≠ 0) = rest := ⟨_, rfl⟩
  have hsplit : text ++ rest = bytes := by
    rw [← htext, ← hrest]
    exact List.takeWhile_append_dropWhile
  have hlength : bytes.length - text.length = rest.length := by
    rw [← hsplit, List.length_append, Nat.add_sub_cancel_left]
  rw [ZerosAfterZero, hrest, strncpy, List.take_length, htext, hlength]
  calc text ++ List.replicate rest.length 0 = bytes
      ↔ text ++ List.replicate rest.length 0 = text ++ rest := by rw [hsplit]
    _ ↔ rest = List.replicate rest.length 0 := by rw [List.append_right_inj, eq_comm]
    _ ↔ ∀ byte ∈ rest, byte = 0 := by rw [List.eq_replicate_iff, and_iff_right rfl]

end FGDB.Foundation
