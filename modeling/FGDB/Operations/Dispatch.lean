import FGDB.Operations.Reply
import FGDB.Queue.TransactionQueue
import FGDB.Server.Parse

/-!
# Dispatching a request

A request whose message has been parsed is queued if its command is one, and answered
with an error otherwise. The number that a client sends as the command has 64 bits. The
message keeps its lowest byte, which also selects the name that is logged.
-/

namespace FGDB.Operations

open Foundation Memory Queue Server

/-- `message_cmd_str`. -/
def messageCmdStr : List String := ["UNKNOWN", "PEEK", "SELECT", "INSERT", "UPDATE", "DELETE"]

/-- `convert_request`; `none` is NULL, when no memory is granted. -/
def convertRequest (granted : Bool) (request : ℕ) (msg : Msg) : Option Transaction :=
  if granted then some ⟨some request, msg⟩ else none

/-- What becomes of a request whose message has been received. -/
inductive Handled
  | queued (trans : PushedTransaction)
  | replied (packed : List PackCall)
  | destroyed
  deriving DecidableEq, Repr

section Dispatch

variable (heap : Memory) (pack : List PackCall → List UInt8) (stack : ProtoReply) (granted : Bool)
  (padding : UInt8 × UInt8 × UInt8)

/-- A reply on the stack, of which the code and the error are set. -/
def replyFatal (s : Requests × TransactionQueue) (request : ℕ) (error : ProtoReplyError) :
    Outcome ((Requests × TransactionQueue) × Handled) := do
  let reply := { stack with code := .fatal }.setFatal error
  let (requests, packed) ← requestReply heap pack s.1 (some request) (.object reply)
  return ((requests, s.2), .replied packed)

/-- The name of the command is logged first. -/
def onRequest (s : Requests × TransactionQueue) (request : ℕ) (msg : Msg) :
    Outcome ((Requests × TransactionQueue) × Handled) := do
  let _ ← messageCmdStr[msg.cmd.toNat]?.elim (.error .outOfBounds) .ok
  if msg.cmd = Command.peek.code ∨ msg.cmd = Command.select.code ∨
      msg.cmd = Command.insert.code ∨ msg.cmd = Command.delete.code ∨
      msg.cmd = Command.update.code then
    match convertRequest granted request msg with
    | none => replyFatal heap pack stack s request .unknown
    | some transaction =>
      return ((s.1, pushQueue s.2 ⟨transaction, padding⟩), .queued ⟨transaction, padding⟩)
  else replyFatal heap pack stack s request .command

/-- The end of the PARSE case, for the object of the command. -/
def parseService (s : Requests × TransactionQueue) (request : ℕ) (msg : Msg) (command : Object) :
    Outcome ((Requests × TransactionQueue) × Handled) :=
  match parseCommand msg command with
  | none => do
    let requests ← destroyRequest s.1 (some request)
    return ((requests, s.2), .destroyed)
  | some msg => onRequest heap pack stack granted padding s request msg

end Dispatch

/-- The request has been queued with its message as the operation. -/
def QueuedAs (queue queue' : TransactionQueue) (request : ℕ) (handled : Handled) (c : Command) :
    Prop :=
  ∃ t, handled = .queued t ∧ t.cmd = c.code ∧ t.trans.ancestor = some request ∧
    queue' = pushQueue queue t

/-- The request has been answered with the error for a command, and the queue is as it was. -/
def Refused (queue queue' : TransactionQueue) (handled : Handled) : Prop :=
  handled = .replied [.array 2, .int ReplyCode.fatal.value, .int ProtoReplyError.command.value] ∧
    queue' = queue

/-- What a number sent as the command is to lead to, for a request that is in service. -/
def Dispatched (heap : Memory) (pack : List PackCall → List UInt8) (stack : ProtoReply)
    (granted : Bool) (padding : UInt8 × UInt8 × UInt8) (requests : Requests)
    (queue : TransactionQueue) (request : ℕ) (req : Req) (msg : Msg) (n : UInt64) : Prop :=
  ∃ requests' queue' handled, parseService heap pack stack granted padding
      (requests.set (some request) (some req), queue) request msg (.positiveInteger n) =
        .ok ((requests', queue'), handled) ∧
    (∀ c : Command, QueuedAs queue queue' request handled c ↔ n.toNat = c.code.toNat) ∧
    ((∀ c : Command, n.toNat ≠ c.code.toNat) → Refused queue queue' handled)

section Dispatch

variable {heap : Memory} {pack : List PackCall → List UInt8} {stack : ProtoReply} {granted : Bool}
  {padding : UInt8 × UInt8 × UInt8} {requests : Requests} {queue : TransactionQueue} {request : ℕ}
  {req : Req} {msg : Msg}

theorem code_bounds (c : Command) : 1 ≤ c.code.toNat ∧ c.code.toNat ≤ 5 := by
  cases c <;> decide

/-- A byte from one to five is the code of a command. -/
theorem exists_code {byte : UInt8} (hpos : 1 ≤ byte.toNat) (hle : byte.toNat ≤ 5) :
    ∃ c : Command, byte = c.code := by
  have hcases : byte.toNat = 1 ∨ byte.toNat = 2 ∨ byte.toNat = 3 ∨ byte.toNat = 4 ∨
      byte.toNat = 5 := by
    omega
  rcases hcases with h | h | h | h | h
  · exact ⟨.peek, UInt8.toNat_inj.mp h⟩
  · exact ⟨.select, UInt8.toNat_inj.mp h⟩
  · exact ⟨.insert, UInt8.toNat_inj.mp h⟩
  · exact ⟨.update, UInt8.toNat_inj.mp h⟩
  · exact ⟨.delete, UInt8.toNat_inj.mp h⟩

theorem replyFatal_ok (error : ProtoReplyError) :
    ∃ requests', replyFatal heap pack stack (requests.set (some request) (some req), queue) request
      error = .ok ((requests', queue), .replied [.array 2, .int ReplyCode.fatal.value,
        .int error.value]) := by
  have hload : Requests.load (requests.set (some request) (some req)) (some request) = .ok req :=
    Requests.load_eq_ok.mpr (Requests.set_self requests request (some req))
  have hword : Int.bmod error.value (2 ^ 32) = error.value := by
    cases error <;> decide
  simp only [replyFatal, requestReply, ReplyPointer.load, hload, ok_bind, pure_eq_ok,
    serializeReply, ProtoReply.setFatal, hword]
  exact ⟨_, rfl⟩

/-- The command of the message is the lowest byte of the number. -/
theorem parseService_positiveInteger (n : UInt64) :
    parseService heap pack stack granted padding (requests, queue) request msg
        (.positiveInteger n) =
      onRequest heap pack stack granted padding (requests, queue) request
        { msg with cmd := n.toUInt32.toUInt8 } := rfl

theorem lowest_byte (n : UInt64) : n.toUInt32.toUInt8.toNat = n.toNat % 256 := by
  rw [UInt32.toNat_toUInt8, UInt64.toNat_toUInt32]
  exact Nat.mod_mod_of_dvd _ (by decide)

theorem onRequest_outOfBounds (h : 6 ≤ msg.cmd.toNat) :
    onRequest heap pack stack granted padding (requests, queue) request msg =
      .error .outOfBounds := by
  rw [onRequest, List.getElem?_eq_none h]
  rfl

theorem messageCmdStr_code (c : Command) : ∃ name, messageCmdStr[c.code.toNat]? = some name := by
  cases c <;> exact ⟨_, rfl⟩

theorem onRequest_granted {c : Command} (h : msg.cmd = c.code) :
    onRequest heap pack stack true padding (requests, queue) request msg =
      .ok ((requests, pushQueue queue ⟨⟨some request, msg⟩, padding⟩),
        .queued ⟨⟨some request, msg⟩, padding⟩) := by
  obtain ⟨name, hname⟩ := messageCmdStr_code c
  rw [onRequest, h, hname, Option.elim_some, ok_bind, if_pos]
  · rfl
  · cases c <;> simp

theorem onRequest_not_granted {c : Command} (h : msg.cmd = c.code) :
    onRequest heap pack stack false padding (requests, queue) request msg =
      replyFatal heap pack stack (requests, queue) request .unknown := by
  obtain ⟨name, hname⟩ := messageCmdStr_code c
  rw [onRequest, h, hname, Option.elim_some, ok_bind, if_pos]
  · rfl
  · cases c <;> simp

theorem onRequest_zero (h : msg.cmd = 0) :
    onRequest heap pack stack granted padding (requests, queue) request msg =
      replyFatal heap pack stack (requests, queue) request .command := by
  rw [onRequest, h, if_neg (by decide)]
  rfl

theorem not_queuedAs_replied {queue' : TransactionQueue} {packed : List PackCall} {c : Command} :
    ¬ QueuedAs queue queue' request (.replied packed) c := by
  rintro ⟨t, hhandled, -⟩
  cases hhandled

variable {n : UInt64}

theorem dispatched_of_zero (h : n.toNat % 256 = 0) :
    Dispatched heap pack stack granted padding requests queue request req msg n := by
  obtain ⟨requests', hreply⟩ := @replyFatal_ok heap pack stack requests queue request req .command
  have hcmd : n.toUInt32.toUInt8 = 0 := UInt8.toNat_inj.mp ((lowest_byte n).trans h)
  refine ⟨requests', queue, _, ?_, fun c ↦ iff_of_false not_queuedAs_replied ?_, fun _ ↦ ⟨rfl, rfl⟩⟩
  · rw [parseService_positiveInteger, onRequest_zero hcmd]
    exact hreply
  · have hbounds := code_bounds c
    omega

theorem not_dispatched_of_outOfBounds (h : 6 ≤ n.toNat % 256) :
    ¬ Dispatched heap pack stack granted padding requests queue request req msg n := by
  rintro ⟨requests', queue', handled, hservice, -⟩
  rw [parseService_positiveInteger, onRequest_outOfBounds (h.trans_eq (lowest_byte n).symm)]
    at hservice
  cases hservice

/-- A number with the code of a command in its lowest byte is queued as this command. -/
theorem dispatched_granted_iff {c : Command} (h : n.toNat % 256 = c.code.toNat) :
    Dispatched heap pack stack true padding requests queue request req msg n ↔
      n.toNat = c.code.toNat := by
  have hcmd : n.toUInt32.toUInt8 = c.code := UInt8.toNat_inj.mp ((lowest_byte n).trans h)
  rw [Dispatched, parseService_positiveInteger, onRequest_granted hcmd]
  constructor
  · rintro ⟨requests', queue', handled, hservice, hqueued, -⟩
    cases hservice
    exact (hqueued c).mp ⟨_, rfl, hcmd, rfl, rfl⟩
  · intro hn
    refine ⟨_, _, _, rfl, fun other ↦ ⟨?_, fun hother ↦ ?_⟩, fun hnone ↦ absurd hn (hnone c)⟩
    · rintro ⟨t, hhandled, hcode, -⟩
      cases hhandled
      rw [hn, ← hcode]
      exact congrArg UInt8.toNat hcmd.symm
    · refine ⟨_, rfl, ?_, rfl, rfl⟩
      exact hcmd.trans (UInt8.toNat_inj.mp (hn.symm.trans hother))

/-- Without memory for a transaction such a number is answered with an unknown error. -/
theorem not_dispatched_of_not_granted {c : Command} (h : n.toNat % 256 = c.code.toNat) :
    ¬ Dispatched heap pack stack false padding requests queue request req msg n := by
  have hcmd : n.toUInt32.toUInt8 = c.code := UInt8.toNat_inj.mp ((lowest_byte n).trans h)
  obtain ⟨replied, hreply⟩ := @replyFatal_ok heap pack stack requests queue request req .unknown
  rw [Dispatched, parseService_positiveInteger, onRequest_not_granted hcmd, hreply]
  rintro ⟨requests', queue', handled, hservice, hqueued, hrefused⟩
  cases hservice
  have hnone (other : Command) : n.toNat ≠ other.code.toNat :=
    mt (hqueued other).mpr not_queuedAs_replied
  have hcalls := (hrefused hnone).1
  revert hcalls
  decide

end Dispatch

/-- For every number, whatever the queue and the heap are: it leads to what it is to lead to if and
only if it is one of the five codes and there is memory for a transaction, or its lowest byte is
zero. -/
theorem dispatched_iff (heap : Memory) (pack : List PackCall → List UInt8) (stack : ProtoReply)
    (granted : Bool) (padding : UInt8 × UInt8 × UInt8) (requests : Requests)
    (queue : TransactionQueue) (request : ℕ) (req : Req) (msg : Msg) (n : UInt64) :
    Dispatched heap pack stack granted padding requests queue request req msg n ↔
      ((1 ≤ n.toNat ∧ n.toNat ≤ 5) ∧ granted = true) ∨ 256 ∣ n.toNat := by
  have hbyte := lowest_byte n
  have hcases : n.toNat % 256 = 0 ∨ (1 ≤ n.toNat % 256 ∧ n.toNat % 256 ≤ 5) ∨
      6 ≤ n.toNat % 256 := by
    omega
  rcases hcases with hzero | ⟨hpos, hle⟩ | hlarge
  · exact iff_of_true (dispatched_of_zero hzero) (.inr (Nat.dvd_of_mod_eq_zero hzero))
  · obtain ⟨c, hc⟩ := exists_code (hpos.trans_eq hbyte.symm) (hbyte.trans_le hle)
    have hcode : n.toNat % 256 = c.code.toNat := by
      rw [← hbyte, hc]
    cases granted with
    | true =>
      rw [dispatched_granted_iff hcode, ← hcode, and_iff_left rfl]
      omega
    | false =>
      refine iff_of_false (not_dispatched_of_not_granted hcode) ?_
      rintro (⟨-, hgranted⟩ | hdvd)
      · cases hgranted
      · omega
  · refine iff_of_false (not_dispatched_of_outOfBounds hlarge) ?_
    omega

/-- The number 257 is queued as a PEEK, and 6 selects a name behind the table. -/
theorem not_dispatched_257 :
    ¬ Dispatched (fun _ ↦ 0) (fun _ ↦ []) ⟨.ok, 0, .empty⟩ true (0, 0, 0) (fun _ ↦ none) initQueue 0
      ⟨.service, none⟩ (initMessage 0) 257 ∧
    parseService (fun _ ↦ 0) (fun _ ↦ []) ⟨.ok, 0, .empty⟩ true (0, 0, 0)
      (fun _ ↦ none, initQueue) 0 (initMessage 0) (.positiveInteger 6) = .error .outOfBounds := by
  refine ⟨fun h ↦ ?_, rfl⟩
  have hcode : (257 : UInt64).toNat % 256 = Command.peek.code.toNat := by decide
  exact absurd ((dispatched_granted_iff hcode).mp h) (by decide)

end FGDB.Operations
