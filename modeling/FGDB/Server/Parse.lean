import FGDB.Server.Message
import FGDB.Server.Request

/-!
# The message in a request

The message of a request is taken out of the object that it was decoded to. The
strings of an object have 32-bit sizes and any bytes; they are copied with
`strncpy`, which ends at the first zero, into strings with 16-bit sizes.
-/

namespace FGDB.Server

open Foundation

/-- `msgpack_object_str`, and `msgpack_object_bin`, which is laid out as that one. -/
structure Raw where
  bytes : List UInt8
  size_lt : bytes.length < 2 ^ 32
  deriving DecidableEq, Repr

/-- `msgpack_object`; the payloads that are never looked at are given as their bits. -/
inductive Object
  | nil
  | boolean (value : Bool)
  | positiveInteger (value : UInt64)
  | negativeInteger (bits : UInt64)
  | float (bits : UInt64)
  | str (raw : Raw)
  | bin (raw : Raw)
  | array (items : List Object)
  | map (pairs : List (Object × Object))
  | ext (raw : Raw)

/-- `init_message`: the command is what the heap held there. -/
def initMessage (cmd : UInt8) : Msg := ⟨cmd, .empty, .empty⟩

/-- `message_set` with the bytes that the size counts. The size of the string is 16 bits wide. -/
def messageSet (src : List UInt8) (size : ℕ) : Str :=
  if size = 0 then .empty
  else ⟨(strncpy src size).take (wrap16 size), by
    rw [List.length_take, length_strncpy]
    exact (min_le_left _ _).trans_lt (Nat.mod_lt _ (by decide))⟩

/-- `message_command`; the enumeration is packed into one byte. -/
def messageCommand (msg : Msg) (num : UInt32) : Msg := { msg with cmd := num.toUInt8 }

/-- The string of an object of one of the two types that are accepted. -/
def Object.raw : Object → Option Raw
  | .str raw | .bin raw => some raw
  | _ => none

/-- `none` is -1. The text of the error for another type asks for a string and is given a number. -/
def parseData (cmd : UInt8) : Object → Outcome (Option Msg)
  | .bin raw | .str raw =>
    .ok (some { initMessage cmd with
      key := messageSet raw.bytes raw.bytes.length
      val := messageSet [] 0 })
  | .map [] => .ok none
  | .map ((key, val) :: _) =>
    match key.raw, val.raw with
    | some key, some val =>
      .ok (some { initMessage cmd with
        key := messageSet key.bytes key.bytes.length
        val := messageSet val.bytes val.bytes.length })
    | _, _ => .ok none
  | _ => .error .typeConfusion

/-- `none` is -1. The number is read as a signed one, which keeps its bits. -/
def parseCommand (msg : Msg) : Object → Option Msg
  | .positiveInteger value => some (messageCommand msg value.toUInt32)
  | _ => none

/-- The key and the value that an object is to give. -/
def Object.strings : Object → Option (List UInt8 × List UInt8)
  | .bin raw | .str raw => some (raw.bytes, [])
  | .map ((key, val) :: _) => do
    let key ← key.raw
    let val ← val.raw
    return (key.bytes, val.bytes)
  | _ => none

/-- An object that is accepted, of a request that is not too long. -/
structure DataObject where
  object : Object
  key : List UInt8
  val : List UInt8
  strings : object.strings = some (key, val)
  size_le : key.length + val.length ≤ maxMessageSize

section Messages

theorem messageSet_bytes {src : List UInt8} (h : src.length < 2 ^ 16) :
    (messageSet src src.length).bytes = strncpy src src.length := by
  by_cases hempty : src.length = 0
  · rw [List.length_eq_zero_iff] at hempty
    rw [hempty]
    rfl
  · rw [messageSet, if_neg hempty]
    apply List.take_of_length_le
    rw [length_strncpy, wrap16, Nat.mod_eq_of_lt h]

/-- The objects that are accepted are those with strings, and what they give is copied from them. -/
theorem parseData_eq_some {cmd : UInt8} {object : Object} {msg : Msg} :
    parseData cmd object = .ok (some msg) ↔ ∃ key val, object.strings = some (key, val) ∧
      msg = ⟨cmd, messageSet key key.length, messageSet val val.length⟩ := by
  constructor
  · intro h
    cases object with
    | bin raw | str raw => exact ⟨raw.bytes, [], rfl, (Option.some.inj (Except.ok.inj h)).symm⟩
    | map pairs =>
      cases pairs with
      | nil => cases h
      | cons pair rest =>
        obtain ⟨key, val⟩ := pair
        rw [parseData] at h
        split at h
        · next keyRaw valRaw hkey hval =>
          refine ⟨keyRaw.bytes, valRaw.bytes, ?_, (Option.some.inj (Except.ok.inj h)).symm⟩
          rw [Object.strings, hkey, hval]
          rfl
        · cases h
    | _ => cases h
  · rintro ⟨key, val, hstrings, rfl⟩
    cases object with
    | bin raw | str raw =>
      cases hstrings
      rfl
    | map pairs =>
      cases pairs with
      | nil => cases hstrings
      | cons pair rest =>
        obtain ⟨first, second⟩ := pair
        rw [Object.strings] at hstrings
        cases hkey : first.raw with
        | none =>
          rw [hkey] at hstrings
          cases hstrings
        | some keyRaw =>
          cases hval : second.raw with
          | none =>
            rw [hkey, hval] at hstrings
            cases hstrings
          | some valRaw =>
            rw [hkey, hval] at hstrings
            cases hstrings
            rw [parseData, hkey, hval]
            rfl
    | _ => cases hstrings

/-- The message of the object holds its strings. -/
def DataObject.Carried (x : DataObject) (cmd : UInt8) : Prop :=
  ∃ msg, parseData cmd x.object = .ok (some msg) ∧ msg.key.bytes = x.key ∧ msg.val.bytes = x.val

/-- Different keys are different in the messages. -/
def ToldApart (x y : DataObject) (cmd cmd' : UInt8) : Prop :=
  x.key ≠ y.key → ∀ msg msg', parseData cmd x.object = .ok (some msg) →
    parseData cmd' y.object = .ok (some msg') → msg.key ≠ msg'.key

theorem DataObject.parse (x : DataObject) (cmd : UInt8) : parseData cmd x.object =
    .ok (some ⟨cmd, messageSet x.key x.key.length, messageSet x.val x.val.length⟩) :=
  parseData_eq_some.mpr ⟨x.key, x.val, x.strings, rfl⟩

theorem DataObject.carried_iff (x : DataObject) (cmd : UInt8) :
    x.Carried cmd ↔ ZerosAfterZero x.key ∧ ZerosAfterZero x.val := by
  have hsize := x.size_le
  have hbound : maxMessageSize < 2 ^ 16 := by decide
  have hkey := @messageSet_bytes x.key (by omega)
  have hval := @messageSet_bytes x.val (by omega)
  rw [← strncpy_eq_self_iff, ← strncpy_eq_self_iff, ← hkey, ← hval]
  constructor
  · rintro ⟨msg, hparse, hcarried⟩
    rw [x.parse] at hparse
    cases hparse
    exact hcarried
  · intro hcarried
    exact ⟨_, x.parse cmd, hcarried⟩

/-- Messages that hold the strings of their objects have different keys for different ones. -/
theorem toldApart_of_carried {x y : DataObject} {cmd cmd' : UInt8} (hx : x.Carried cmd)
    (hy : y.Carried cmd') : ToldApart x y cmd cmd' := by
  obtain ⟨msg, hmsg, hkey, -⟩ := hx
  obtain ⟨msg', hmsg', hkey', -⟩ := hy
  intro hne first second hfirst hsecond heq
  cases hmsg.symm.trans hfirst
  cases hmsg'.symm.trans hsecond
  apply hne
  rw [← hkey, ← hkey', heq]

end Messages

/-- For all two objects with strings of any bytes, both messages hold the strings of their objects
and tell different keys apart if and only if in all these strings only zeros follow a zero. -/
theorem carried_toldApart_iff (x y : DataObject) (cmd cmd' : UInt8) :
    (x.Carried cmd ∧ y.Carried cmd' ∧ ToldApart x y cmd cmd') ↔
      (ZerosAfterZero x.key ∧ ZerosAfterZero x.val) ∧
        ZerosAfterZero y.key ∧ ZerosAfterZero y.val := by
  rw [← x.carried_iff cmd, ← y.carried_iff cmd', ← and_assoc]
  exact and_iff_left_of_imp fun h ↦ toldApart_of_carried h.1 h.2

/-- A key of a zero and one more byte, without a value. -/
def zeroKey (byte : UInt8) : DataObject where
  object := .bin ⟨[0, byte], (by decide : 2 < 2 ^ 32)⟩
  key := [0, byte]
  val := []
  strings := rfl
  size_le := (by decide : 2 ≤ maxMessageSize)

/-- Of a key that starts with a zero the rest is lost, and two such keys of one length are one. -/
theorem not_toldApart_zero_keys :
    ¬ (zeroKey 1).Carried 0 ∧ ¬ ToldApart (zeroKey 1) (zeroKey 2) 0 0 := by
  constructor
  · rintro ⟨msg, hparse, hkey, -⟩
    rw [(zeroKey 1).parse] at hparse
    cases hparse
    revert hkey
    decide
  · intro hapart
    refine hapart (by decide) _ _ ((zeroKey 1).parse 0) ((zeroKey 2).parse 0) ?_
    decide

end FGDB.Server
