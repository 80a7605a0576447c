import FGDB.Operations.Database
import FGDB.Server.Request

/-!
# Replies

A reply is packed into a new buffer of its request, and the request waits until the
network has taken it. The packer is a parameter: it turns the calls that it gets into
bytes. A request that has been destroyed is gone from the table of requests.
-/

namespace FGDB.Operations

open Foundation Memory Server

/-- `enum proto_reply_code_t`. -/
def ReplyCode.value : ReplyCode → ℤ
  | ok => 0x0
  | error => 0x1
  | fatal => 0x2

/-- A call of the packer of a reply. -/
inductive PackCall
  | array (size : ℕ)
  | int (value : ℤ)
  | bin (size : ℕ)
  | binBody (body : List UInt8)
  deriving DecidableEq, Repr

/-- The second element of a reply; for an unknown command there is none. -/
def serializeOk (reply : ProtoReply) : List PackCall :=
  let cmd := reply.word % 256
  if cmd = Command.peek.code.toNat ∨ cmd = Command.insert.code.toNat ∨
      cmd = Command.update.code.toNat then [.int FgdbCode.codeOk.value]
  else if cmd = Command.select.code.toNat ∨ cmd = Command.delete.code.toNat then
    [.bin reply.val.size, .binBody reply.val.bytes]
  else []

/-- The members of the union are packed as signed numbers. -/
def serializeReply (reply : ProtoReply) : List PackCall :=
  .array 2 :: .int reply.code.value ::
    match reply.code with
    | .ok => serializeOk reply
    | .error | .fatal => [.int (Int.bmod reply.word (2 ^ 32))]

/-- What an operation gives to the worker as the pointer to its reply. -/
inductive ReplyPointer
  | object (reply : ProtoReply)
  | null
  | indeterminate
  deriving DecidableEq, Repr

def ReplyPointer.load : ReplyPointer → Outcome ProtoReply
  | object reply => .ok reply
  | null => .error .nullPointer
  | indeterminate => .error .indeterminate

/-- The requests that are not destroyed, by their address. -/
abbrev Requests := ℕ → Option Req

def Requests.load (requests : Requests) : Option ℕ → Outcome Req
  | none => .error .nullPointer
  | some request => (requests request).elim (.error .danglingPointer) .ok

def Requests.set (requests : Requests) (request : Option ℕ) (req : Option Req) : Requests :=
  request.elim requests fun address ↦ Function.update requests address req

namespace Requests

variable {requests : Requests} {request : ℕ} {req : Req}

theorem load_eq_ok : requests.load (some request) = .ok req ↔ requests request = some req :=
  elim_eq_ok

theorem set_some (requests : Requests) (request : ℕ) (req : Option Req) :
    requests.set (some request) req = Function.update requests request req := rfl

theorem set_self (requests : Requests) (request : ℕ) (req : Option Req) :
    requests.set (some request) req request = req := by
  rw [set_some, Function.update_self]

end Requests

/-- `destroy_request`, which does nothing for NULL. -/
def destroyRequest (requests : Requests) (request : Option ℕ) : Outcome Requests :=
  if request = none then .ok requests else do
    let _ ← requests.load request
    return requests.set request none

/-- `request_reply`; the new buffer is as long as the packed reply. -/
def requestReply (heap : Memory) (pack : List PackCall → List UInt8) (requests : Requests)
    (request : Option ℕ) (reply : ReplyPointer) : Outcome (Requests × List PackCall) := do
  let reply ← reply.load
  let data := pack (serializeReply reply)
  let _ ← requests.load request
  let buf := (bufferPush (initBuffer heap data.length) data).1
  return (requests.set request (some ⟨.write, some buf⟩), serializeReply reply)

/-- What one call to send meets: no room, an error, or so many bytes are taken. -/
inductive SendOutcome
  | again
  | failed
  | taken (count : ℕ)
  deriving DecidableEq, Repr

/-- `write_reply`, with the bytes that the socket takes; `none` is a destroyed request. -/
def writeReply (req : Req) (outcome : SendOutcome) : Outcome (Option Req × List UInt8) :=
  if req.state ≠ .write then .ok (none, [])
  else do
    let buf ← req.buf.elim (.error .nullPointer) .ok
    if buf.used = 0 then return (none, [])
    else
      match outcome with
      | .again => return (some req, [])
      | .failed => return (none, [])
      | .taken count =>
        let bytes := min count buf.used
        return (some { req with buf := some { buf with
          start := buf.start + bytes
          used := buf.used - bytes } }, buf.ptr.load buf.start bytes)

/-- A request that is being answered has a buffer, and keeps it until it is destroyed. -/
theorem writeReply_ok {req : Req} (hstate : req.state = .write) (hbuf : req.buf ≠ none)
    (outcome : SendOutcome) : ∃ req' data, writeReply req outcome = .ok (req', data) ∧
      ∀ kept, req' = some kept → kept.state = .write ∧ kept.buf ≠ none := by
  obtain ⟨buf, hsome⟩ := Option.ne_none_iff_exists'.mp hbuf
  rw [writeReply, if_neg (not_not.mpr hstate), hsome, Option.elim_some, ok_bind]
  by_cases hused : buf.used = 0
  · rw [if_pos hused]
    exact ⟨none, [], rfl, nofun⟩
  · rw [if_neg hused]
    cases outcome with
    | failed => exact ⟨none, [], rfl, nofun⟩
    | again =>
      refine ⟨some req, [], rfl, fun kept hkept ↦ ?_⟩
      rw [← Option.some.inj hkept]
      exact ⟨hstate, hbuf⟩
    | taken count =>
      refine ⟨_, _, rfl, fun kept hkept ↦ ?_⟩
      rw [← Option.some.inj hkept]
      exact ⟨hstate, nofun⟩

end FGDB.Operations
