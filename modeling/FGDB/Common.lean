import FGDB.Foundation.Bytes

/-!
# Byte strings

A string of the database is a 16-bit size and a pointer to that many bytes, any
byte included. The size is the length of the bytes, so the type carries the
bound that the size field imposes.
-/

namespace FGDB

open Foundation

/-- `str_t`. -/
structure Str where
  bytes : List UInt8
  size_lt : bytes.length < 2 ^ 16
  deriving DecidableEq, Repr

namespace Str

def size (s : Str) : ℕ := s.bytes.length

def empty : Str := ⟨[], by decide⟩

def ofByte (b : UInt8) : Str := ⟨[b], Nat.one_lt_two_pow (by decide)⟩

@[ext] theorem ext {s t : Str} (h : s.bytes = t.bytes) : s = t := by
  cases s
  cases t
  simpa using h

end Str

theorem leValue_pair_lt (low high : UInt8) : leValue [low, high] < 2 ^ 16 := by
  have hlow := low.toNat_lt
  have hhigh := high.toNat_lt
  simp only [leValue]
  omega

/-- Copy a two-byte size and then as many bytes out of what is left of a block. -/
def takeStr : List UInt8 → Outcome (Str × List UInt8)
  | low :: high :: rest =>
    if leValue [low, high] ≤ rest.length then
      .ok (⟨rest.take (leValue [low, high]),
        lt_of_le_of_lt (List.length_take_le _ _) (leValue_pair_lt low high)⟩,
        rest.drop (leValue [low, high]))
    else .error .outOfBounds
  | _ => .error .outOfBounds

theorem takeStr_append (s : Str) (back : List UInt8) :
    takeStr (leBytes 2 s.size ++ (s.bytes ++ back)) = .ok (s, back) := by
  have hlt : s.size < 256 ^ 2 := s.size_lt
  have hvalue : leValue [UInt8.ofNat s.size, UInt8.ofNat (s.size / 256)] = s.size :=
    leValue_leBytes_of_lt hlt
  have hle : s.size ≤ (s.bytes ++ back).length := by
    simp [Str.size]
  simp only [leBytes, List.cons_append, List.nil_append, takeStr, hvalue, if_pos hle]
  congr 2
  · exact Str.ext (List.take_left' rfl)
  · exact List.drop_left' rfl

def wrap16 (value : ℕ) : ℕ := value % 2 ^ 16

def wrap32 (value : ℕ) : ℕ := value % 2 ^ 32

def wrap64 (value : ℕ) : ℕ := value % 2 ^ 64

end FGDB
