import FGDB.Operations.Answers
import FGDB.Operations.Reply
import FGDB.Server.Parse

/-!
# The client

`send_message` packs a command with a key, or with a hash of a key and its value, and
sends the result behind its length. It calls `recv` once for the reply, unpacks what has
come, and returns a hash with names from its own tables. The packers of both sides come
from other libraries and are parameters.
-/

namespace FGDB.Client

open Foundation Server Operations

/-- What comes behind the command: a key, or a hash of one key. -/
inductive Argument
  | key (key : Str)
  | pair (key val : Str)
  deriving DecidableEq, Repr

structure ClientCall where
  cmd : Command
  argument : Argument
  deriving DecidableEq, Repr

/-- `%COMMANDS`. -/
def commands : Command → UInt64
  | .peek => 0x1
  | .select => 0x2
  | .insert => 0x3
  | .update => 0x4
  | .delete => 0x5

def rawOf (s : Str) : Raw := ⟨s.bytes, s.size_lt.trans (by decide)⟩

def Argument.object : Argument → Object
  | .key k => .str (rawOf k)
  | .pair k v => .map [(.str (rawOf k), .str (rawOf v))]

/-- The array that is packed. -/
def ClientCall.object (call : ClientCall) : Object :=
  .array [.positiveInteger (commands call.cmd), call.argument.object]

/-- The template `V/A*` puts the length in front. -/
def sendMessage (encode : Object → List UInt8) (call : ClientCall) : List UInt8 :=
  message (encode call.object)

/-- A value that is not a reference. A name is a string from one of the tables. -/
inductive Scalar
  | undefined
  | int (value : ℤ)
  | bytes (bytes : List UInt8)
  | name (name : String)
  deriving DecidableEq, Repr

/-- The pairs of a hash; later ones override. -/
abbrev PerlHash := List (String × Scalar)

/-- The second element of a reply. -/
inductive Element
  | scalar (value : Scalar)
  | hash (pairs : PerlHash)
  | reference
  deriving DecidableEq, Repr

/-- What becomes of the buffer: `unpack` dies, or there is an array whose first element is a number,
or something else. -/
inductive Unpacked
  | died
  | array (code : ℤ) (second : Element)
  | other
  deriving DecidableEq, Repr

def replyCode : List String := ["OK", "ERROR", "FATAL"]

def fgdbCode : List String := ["CODE_OK", "KEY_EXISTS", "KEY_NOT_FOUND", "OPERATION_UNKNOWN"]

def protoError : List String := ["UNKNOWN", "ERROR_COMMAND"]

/-- An index below zero counts from the end. -/
def element (names : List String) (index : ℤ) : Scalar :=
  let place := if index < 0 then names.length + index else index
  if place < 0 then .undefined else names[place.toNat]?.elim .undefined .name

section Reply

variable (numify : Element → ℤ)

/-- The number that an element is as an index. -/
def Element.number : Element → ℤ
  | .scalar (.int value) => value
  | element => numify element

/-- What `send_message` returns, or `none` for nothing. -/
def readReply (cmd : Command) : Unpacked → Outcome (Option PerlHash)
  | .died => .ok none
  | .other => .error .exit
  | .array code second =>
    let reply := [("code", element replyCode code)]
    if element replyCode code = .name "ERROR" then
      .ok (some (reply ++ [("error", element fgdbCode (second.number numify))]))
    else if element replyCode code = .name "FATAL" then
      .ok (some (reply ++ [("fatal", element protoError (second.number numify))]))
    else
      match second with
      | .reference => .error .exit
      | .hash pairs => .ok (some (reply ++ pairs))
      | .scalar value =>
        if cmd = .insert ∨ cmd = .update ∨ cmd = .peek then
          .ok (some (reply ++ [("status", element fgdbCode (second.number numify))]))
        else .ok (some (reply ++ [("value", value)]))

end Reply

/-- The message of the server that holds the call. -/
def ClientCall.msg : ClientCall → Msg
  | ⟨cmd, .key key⟩ => ⟨cmd.code, key, .empty⟩
  | ⟨cmd, .pair key val⟩ => ⟨cmd.code, key, val⟩

def codeName : FgdbCode → String
  | .codeOk => "CODE_OK"
  | .keyExists => "KEY_EXISTS"
  | .keyNotFound => "KEY_NOT_FOUND"
  | .operationUnknown => "OPERATION_UNKNOWN"

/-- The client has no name for a value that is missing. -/
def errorName : ProtoReplyError → Scalar
  | .unknown => .name "UNKNOWN"
  | .command => .name "ERROR_COMMAND"
  | .valueRequired => .undefined

/-- An answer as a hash. -/
def answerHash : Answer → PerlHash
  | .ok _ none => [("code", .name "OK"), ("status", .name "CODE_OK")]
  | .ok _ (some val) => [("code", .name "OK"), ("value", .bytes val.bytes)]
  | .error err => [("code", .name "ERROR"), ("error", .name (codeName err))]
  | .fatal error => [("code", .name "FATAL"), ("fatal", errorName error)]

/-- The calls of the packer for a whole reply, and what they are unpacked to. -/
inductive Unpacks : List PackCall → Unpacked → Prop
  | status (code : ReplyCode) (value : ℕ) (hvalue : value < 4) :
    Unpacks [.array 2, .int code.value, .int value] (.array code.value (.scalar (.int value)))
  | value (code : ReplyCode) (val : Str) :
    Unpacks [.array 2, .int code.value, .bin val.size, .binBody val.bytes]
      (.array code.value (.scalar (.bytes val.bytes)))

/-- The libraries of the two sides understand each other, and a part of a reply is not one. -/
structure Interoperates (encode : Object → List UInt8) (decode : List UInt8 → Option Object)
    (pack : List PackCall → List UInt8) (unpack : List UInt8 → Unpacked) : Prop where
  request : ∀ call : ClientCall, decode (encode call.object) = some call.object
  reply : ∀ packed unpacked, Unpacks packed unpacked → unpack (pack packed) = unpacked
  part : ∀ packed unpacked bytes, Unpacks packed unpacked → bytes <+: pack packed →
    bytes ≠ pack packed → unpack bytes = .died

section Call

variable (call : ClientCall)

theorem commands_code (cmd : Command) : (commands cmd).toUInt32.toUInt8 = cmd.code := by
  cases cmd <;> rfl

theorem commands_le (cmd : Command) : (commands cmd).toNat % 256 ≤ 5 := by
  cases cmd <;> decide

/-- The argument of the call is copied out of its object, when its strings are text. -/
theorem parseData_argument (cmd : UInt8) (hkey : ZerosAfterZero call.msg.key.bytes)
    (hval : ZerosAfterZero call.msg.val.bytes) : parseData cmd call.argument.object =
      .ok (some { call.msg with cmd := cmd }) := by
  have hcopy {s : Str} (hs : ZerosAfterZero s.bytes) : messageSet s.bytes s.bytes.length = s := by
    apply Str.ext
    rw [messageSet_bytes s.size_lt, strncpy_eq_self_iff.mpr hs]
  obtain ⟨command, argument⟩ := call
  cases argument with
  | key key =>
    have hkey : ZerosAfterZero key.bytes := hkey
    simp only [Argument.object, parseData, rawOf, hcopy hkey]
    rfl
  | pair key val =>
    have hkey : ZerosAfterZero key.bytes := hkey
    have hval : ZerosAfterZero val.bytes := hval
    simp only [Argument.object, parseData, Object.raw, rawOf, hcopy hkey, hcopy hval]
    rfl

end Call

section Answer

variable {numify : Element → ℤ} {reply : ProtoReply} {answer : Answer} {cmd : Command}
  {call : OperationCall}

/-- The commands whose answers have a value. -/
def HasValue (cmd : Command) : Prop := cmd = .select ∨ cmd = .delete

instance (cmd : Command) : Decidable (HasValue cmd) := inferInstanceAs (Decidable (_ ∨ _))

/-- An answer is one to the command. -/
def AnswerTo (cmd : Command) : Answer → Prop
  | .ok code val => code = cmd.code ∧ (val ≠ none ↔ HasValue cmd)
  | .error _ | .fatal _ => True

theorem mapStep_answerTo (d : Str → Option Str) (hcmd : call.trans.msg.cmd = cmd.code) :
    AnswerTo cmd (mapStep d call).2 := by
  have hcodes : (cmd.code = Command.insert.code ↔ cmd = .insert) ∧
      (cmd.code = Command.delete.code ↔ cmd = .delete) ∧
        (cmd.code = Command.select.code ↔ cmd = .select) := by
    cases cmd <;> decide
  simp only [mapStep, hcmd, hcodes]
  split
  · next hinsert =>
    split
    · trivial
    · split
      · trivial
      · exact ⟨rfl, iff_of_false (fun hne ↦ hne rfl) (by rw [hinsert]; decide)⟩
  · split
    · trivial
    · split
      · next hdelete => exact ⟨rfl, iff_of_true (Option.some_ne_none _) (.inr hdelete)⟩
      · next hdelete =>
        split
        · next hselect => exact ⟨rfl, iff_of_true (Option.some_ne_none _) (.inl hselect)⟩
        · next hselect =>
          exact ⟨rfl, iff_of_false (fun hne ↦ hne rfl) fun hvalue ↦ hvalue.elim hselect hdelete⟩

theorem element_fgdbCode (err : FgdbCode) : element fgdbCode err.value = .name (codeName err) := by
  cases err <;> rfl

theorem element_protoError (error : ProtoReplyError) :
    element protoError error.value = errorName error := by
  cases error <;> rfl

theorem serializeOk_eq (hword : reply.word % 256 = cmd.code.toNat) : serializeOk reply =
    if HasValue cmd then [.bin reply.val.size, .binBody reply.val.bytes]
    else [.int FgdbCode.codeOk.value] := by
  simp only [serializeOk, hword]
  cases cmd <;> rfl

theorem readReply_error (numify : Element → ℤ) (cmd : Command) (err : FgdbCode) :
    readReply numify cmd (.array ReplyCode.error.value (.scalar (.int err.value))) =
      .ok (some (answerHash (.error err))) := by
  rw [answerHash, ← element_fgdbCode]
  rfl

theorem readReply_fatal (numify : Element → ℤ) (cmd : Command) (error : ProtoReplyError) :
    readReply numify cmd (.array ReplyCode.fatal.value (.scalar (.int error.value))) =
      .ok (some (answerHash (.fatal error))) := by
  rw [answerHash, ← element_protoError]
  rfl

theorem readReply_status (numify : Element → ℤ) (code : UInt8) (hvalue : ¬ HasValue cmd) :
    readReply numify cmd (.array ReplyCode.ok.value (.scalar (.int FgdbCode.codeOk.value))) =
      .ok (some (answerHash (.ok code none))) := by
  cases cmd with
  | peek | insert | update => rfl
  | select => exact absurd (.inl rfl) hvalue
  | delete => exact absurd (.inr rfl) hvalue

theorem readReply_value (numify : Element → ℤ) (code : UInt8) (val : Str) (hvalue : HasValue cmd) :
    readReply numify cmd (.array ReplyCode.ok.value (.scalar (.bytes val.bytes))) =
      .ok (some (answerHash (.ok code (some val)))) := by
  rcases hvalue with rfl | rfl <;> rfl

/-- The hash of a reply is that of the answer that the reply says. -/
theorem says_unpacks (numify : Element → ℤ) (hanswer : AnswerTo cmd answer)
    (hsaid : Says reply answer) : ∃ unpacked, Unpacks (serializeReply reply) unpacked ∧
      readReply numify cmd unpacked = .ok (some (answerHash answer)) := by
  cases answer with
  | ok code val =>
    obtain ⟨rfl, hval⟩ := hanswer
    obtain ⟨hcode, hword, hsame⟩ := hsaid
    rw [serializeReply, hcode, serializeOk_eq hword]
    by_cases hvalue : HasValue cmd
    · obtain ⟨v, rfl⟩ := Option.ne_none_iff_exists'.mp (hval.mpr hvalue)
      rw [if_pos hvalue, hsame v rfl]
      exact ⟨_, .value .ok v, readReply_value numify _ v hvalue⟩
    · obtain rfl : val = none := not_not.mp (mt hval.mp hvalue)
      rw [if_neg hvalue]
      exact ⟨_, .status .ok 0 (by decide), readReply_status numify _ hvalue⟩
  | error err =>
    obtain ⟨hcode, hword⟩ := hsaid
    have hsmall : err.value < 4 ∧ Int.bmod err.value (2 ^ 32) = err.value := by
      cases err <;> decide
    rw [serializeReply, hcode, hword]
    simp only [hsmall.2]
    exact ⟨_, .status .error err.value hsmall.1, readReply_error numify cmd err⟩
  | fatal error =>
    obtain ⟨hcode, hword⟩ := hsaid
    have hsmall : error.value < 4 ∧ Int.bmod error.value (2 ^ 32) = error.value := by
      cases error <;> decide
    rw [serializeReply, hcode, hword]
    simp only [hsmall.2]
    exact ⟨_, .status .fatal error.value hsmall.1, readReply_fatal numify cmd error⟩

end Answer

end FGDB.Client
