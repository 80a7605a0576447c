import FGDB.Operations.Dispatch

/-!
# The life of a request

A request reads its message, is queued or refused, gets its reply and writes it out.
Its buffer is filled by a push, by a read behind its end that leaves the end where it
is, emptied, replaced by one that holds the reply, and drained from its start. Read
events call the parser until a message has come, write events call the writer once
there is a reply, and in between the worker answers or destroys the request.
-/

namespace FGDB.Operations

open Foundation Memory Queue Server

/-- The ends of a buffer are as far apart as it has bytes in use, and are inside of its storage. -/
structure Placed (buf : Buf) : Prop where
  stop : buf.stop = buf.start + buf.used
  inside : buf.stop ≤ buf.total

/-- What a call of the parser finds: the blocks of the allocator with the byte of the command in
that of the message, the stack behind the array and at a reply, whether there is memory for a
transaction, the padding of the message, and the queue. -/
structure Surroundings where
  heap : Memory
  cmd : UInt8
  stack : Memory
  reply : ProtoReply
  granted : Bool
  padding : UInt8 × UInt8 × UInt8
  queue : TransactionQueue

/-- What happens to a request: its socket can be read, the worker answers it, its socket can be
written, or the worker destroys it. -/
inductive ConnectionEvent
  | readable (around : Surroundings)
  | answer (heap : Memory) (reply : ReplyPointer)
  | writable (outcome : SendOutcome)
  | drop

/-- The table of the requests and the network of the one at hand, with the bytes of its reply, the
bytes that send has accepted, and the buffer that it had when it was last called for. -/
structure Connection where
  requests : Requests
  net : Net
  serialized : List UInt8
  accepted : List UInt8
  last : Option Buf

/-- The INIT case where the copy out of the array goes on into the stack behind it. -/
def parseInitOnStack (stack heap : Memory) (req : Req) (net : Net) : Outcome (Verdict × Net) :=
  match recv net 1023 with
  | (.again, net) => .ok (.waiting req, net)
  | (.failed, net) => .ok (.destroyed, net)
  | (.bytes data, net) =>
    let buffer := overwrite (List.replicate 1024 0) data
    let msgLen := leValue (buffer.take 4)
    if msgLen > maxMessageSize then .ok (.destroyed, net)
    else
      let bytes2copy := if data.length > msgLen then msgLen else data.length
      let src := (buffer.drop 4 ++ stack.load 0 3).take bytes2copy
      parseRead ⟨.read, some (bufferPush (initBuffer heap msgLen) src).1⟩ net

def parseRequestOnStack (stack heap : Memory) (req : Req) (net : Net) : Outcome (Verdict × Net) :=
  match req.state with
  | .init => parseInitOnStack stack heap req net
  | .read => parseRead req net
  | .parse => .ok (.parsing req, net)
  | .write | .service => .ok (.destroyed, net)

/-- Where the copy stays inside of the array, and everywhere behind it, this is the parser. -/
theorem parseRequestOnStack_eq {heap : Memory} {req : Req} {net : Net} {result : Verdict × Net}
    (h : parseRequest heap req net = .ok result) (stack : Memory) :
    parseRequestOnStack stack heap req net = .ok result := by
  obtain ⟨state, buf⟩ := req
  cases state with
  | init =>
    obtain ⟨received, net', hrecv⟩ : ∃ received net', recv net 1023 = (received, net') :=
      ⟨_, _, rfl⟩
    rw [parseRequest, parseInit, hrecv] at h
    rw [parseRequestOnStack, parseInitOnStack, hrecv]
    cases received with
    | again | failed => exact h
    | bytes data =>
      simp only at h ⊢
      split at h
      · next hlen =>
        rw [if_pos hlen]
        exact h
      · next hlen =>
        obtain ⟨⟨src, rest⟩, htake, h⟩ := bind_eq_ok.mp h
        obtain ⟨hle, rfl⟩ := takeBytes_eq_ok htake
        rw [if_neg hlen, List.take_append_of_le_length hle]
        exact h
  | read | write | parse | service => exact h

section Connection

variable (decode : List UInt8 → Option Object) (pack : List PackCall → List UInt8) (request : ℕ)

def destroyHandled (requests : Requests) : Outcome (Requests × Handled) := do
  let requests ← destroyRequest requests (some request)
  return (requests, .destroyed)

/-- The PARSE case; the decoder returns nothing for a parse error. -/
def parseMessage (around : Surroundings) (requests : Requests) (buf : Buf) :
    Outcome (Requests × Handled) :=
  match decode buf.contents with
  | some (.array [command, data]) => do
    match ← parseData around.cmd data with
    | none => destroyHandled request requests
    | some msg =>
      let requests := requests.set (some request) (some ⟨.service, some (bufferFree buf)⟩)
      let ((requests, _), handled) ← parseService around.heap pack around.reply around.granted
        around.padding (requests, around.queue) request msg command
      return (requests, handled)
  | _ => destroyHandled request requests

/-- The reply that a handled request has got already. -/
def Handled.serialized : Handled → List UInt8
  | .replied packed => pack packed
  | _ => []

/-- The watcher of a request calls the parser until the message is there. -/
def onReadable (c : Connection) (around : Surroundings) : Outcome Connection :=
  match c.requests request with
  | none => .ok c
  | some req =>
    if req.state = .init ∨ req.state = .read then do
      match ← parseRequestOnStack around.stack around.heap req c.net with
      | (.waiting req, net) =>
        return { c with requests := c.requests.set (some request) (some req), net := net }
      | (.destroyed, net) => do
        let requests ← destroyRequest c.requests (some request)
        return { c with requests := requests, net := net }
      | (.parsing parsed, net) => do
        let buf ← parsed.buf.elim (.error .nullPointer) .ok
        let (requests, handled) ← parseMessage decode pack request around c.requests buf
        return { c with requests := requests, net := net, serialized := handled.serialized pack }
    else .ok c

/-- The worker has a transaction for a request that is in service, or that it has destroyed. -/
def Connection.served (c : Connection) : Bool :=
  (c.requests request).all fun req ↦ req.state = .service

def onAnswer (c : Connection) (heap : Memory) (reply : ReplyPointer) : Outcome Connection :=
  if c.served request then do
    let (requests, packed) ← requestReply heap pack c.requests (some request) reply
    return { c with requests := requests, serialized := pack packed }
  else .ok c

/-- An UPDATE destroys the request of its transaction. -/
def onDrop (c : Connection) : Outcome Connection :=
  if c.served request then do
    let requests ← destroyRequest c.requests (some request)
    return { c with requests := requests }
  else .ok c

/-- The watcher of a request calls the writer once there is a reply. -/
def onWritable (c : Connection) (outcome : SendOutcome) : Outcome Connection :=
  match c.requests request with
  | none => .ok c
  | some req =>
    if req.state = .write then do
      let (req, data) ← writeReply req outcome
      return { c with
        requests := c.requests.set (some request) req
        accepted := c.accepted ++ data }
    else .ok c

def Connection.callback (c : Connection) : ConnectionEvent → Outcome Connection
  | .readable around => onReadable decode pack request c around
  | .answer heap reply => onAnswer pack request c heap reply
  | .writable outcome => onWritable request c outcome
  | .drop => onDrop request c

def connectionStep (c : Connection) (event : ConnectionEvent) : Outcome (Connection × Unit) := do
  let next ← c.callback decode pack request event
  return ({ next with last := (c.requests request).elim c.last Req.buf }, ())

/-- A request that was just made. -/
def startConnection (requests : Requests) (net : Net) : Connection where
  requests := requests.set (some request) (some initRequest)
  net := net
  serialized := []
  accepted := []
  last := none

end Connection

/-- The buffer of the request is in place, what has been accepted is a prefix of the reply, and it is
the whole reply once the request has been destroyed with no byte in use. -/
structure Sound (request : ℕ) (c : Connection) : Prop where
  placed : ∀ req buf, c.requests request = some req → req.buf = some buf → Placed buf
  accepted : c.accepted <+: c.serialized
  drained : c.requests request = none → (∀ buf, c.last = some buf → buf.used = 0) →
    c.accepted = c.serialized

/-- A request between two calls. Only one that has its reply has bytes to write. -/
inductive Between (serialized accepted : List UInt8) : Req → Prop
  | init (hnone : serialized = [] ∧ accepted = []) : Between serialized accepted initRequest
  | reading (buf : Buf) (hplaced : Placed buf) (hstart : buf.start = 0)
    (hsmall : buf.total ≤ maxMessageSize) (hnone : serialized = [] ∧ accepted = []) :
    Between serialized accepted ⟨.read, some buf⟩
  | serving (buf : Buf) (hplaced : Placed buf) (hnone : serialized = [] ∧ accepted = []) :
    Between serialized accepted ⟨.service, some buf⟩
  | writing (buf : Buf) (hplaced : Placed buf) (hrest : accepted ++ buf.contents = serialized) :
    Between serialized accepted ⟨.write, some buf⟩

/-- What holds between two calls. -/
structure Kept (request : ℕ) (c : Connection) : Prop where
  alive : ∀ req, c.requests request = some req → Between c.serialized c.accepted req
  gone : c.requests request = none → c.accepted <+: c.serialized ∧
    ((∀ buf, c.last = some buf → buf.used = 0) → c.accepted = c.serialized)

section Kept

variable {decode : List UInt8 → Option Object} {pack : List PackCall → List UInt8} {request : ℕ}
  {requests requests' : Requests} {heap : Memory} {buf : Buf} {net net' : Net} {c c' : Connection}

theorem Kept.sound (h : Kept request c) : Sound request c := by
  refine ⟨fun req buf hreq hbuf ↦ ?_, ?_, fun hnone ↦ (h.gone hnone).2⟩
  · cases h.alive req hreq with
    | init => cases hbuf
    | reading _ hplaced | serving _ hplaced | writing _ hplaced =>
      cases hbuf
      exact hplaced
  · cases hreq : c.requests request with
    | none => exact (h.gone hreq).1
    | some req =>
      cases h.alive req hreq with
      | init hnone | reading _ _ _ _ hnone | serving _ _ hnone =>
        have hsame : c.accepted = c.serialized := hnone.2.trans hnone.1.symm
        exact hsame ▸ List.prefix_refl _
      | writing buf _ hrest => exact ⟨buf.contents, hrest⟩

theorem placed_push (heap : Memory) {buflen : ℕ} {src : List UInt8} (h : src.length ≤ buflen) :
    Placed (bufferPush (initBuffer heap buflen) src).1 ∧
      (bufferPush (initBuffer heap buflen) src).1.start = 0 ∧
      (bufferPush (initBuffer heap buflen) src).1.total = buflen ∧
      (bufferPush (initBuffer heap buflen) src).1.contents = src := by
  rw [bufferPush_init heap h]
  exact ⟨⟨(Nat.zero_add _).symm, h⟩, rfl, rfl, load_store heap 0 src⟩

theorem placed_free (buf : Buf) : Placed (bufferFree buf) := ⟨rfl, Nat.zero_le _⟩

theorem recv_length_le {count : ℕ} {data : List UInt8} (h : recv net count = (.bytes data, net')) :
    data.length ≤ count := by
  unfold recv at h
  split at h
  · cases h
  · cases h
  · cases h
  · cases h
    exact (List.length_take_le _ _).trans (min_le_right _ _)

/-- A read that brings bytes leaves the end of the buffer behind, and goes on to the parser of
messages at once. -/
theorem parseRead_placed (h : Placed buf) (hstart : buf.start = 0)
    (hsmall : buf.total ≤ maxMessageSize) (net : Net) :
    ∃ verdict net', parseRead ⟨.read, some buf⟩ net = .ok (verdict, net') ∧
      (verdict = .waiting ⟨.read, some buf⟩ ∨ verdict = .destroyed ∨
        ∃ buf', verdict = .parsing ⟨.parse, some buf'⟩) := by
  have hstop := h.stop
  have hinside := h.inside
  have hbound : maxMessageSize < 2 ^ 16 := by decide
  have hleft : bufferLeft buf = buf.total - buf.used := bufferLeft_of_le (by omega) (by omega)
  by_cases hmore : bufferLeft buf > 0
  · simp only [parseRead, if_pos hmore]
    split
    · exact ⟨_, _, rfl, .inl rfl⟩
    · exact ⟨_, _, rfl, .inr (.inl rfl)⟩
    · next data net' hrecv =>
      have hdata := recv_length_le hrecv
      rw [if_neg (by omega)]
      split
      · exact ⟨_, _, rfl, .inr (.inr ⟨_, rfl⟩)⟩
      · next hwait =>
        -- `!buffer_left` is zero only as long as nothing is in use
        exfalso
        apply hwait
        by_cases hempty : data.length = 0
        · exact .inl hempty
        · right
          simp only [notBufferLeft, wrap64]
          rw [if_neg (by omega)]
          omega
  · simp only [parseRead, if_neg hmore]
    exact ⟨_, _, rfl, .inr (.inr ⟨buf, rfl⟩)⟩

theorem bytes2copy_le (bytes msgLen : ℕ) : (if bytes > msgLen then msgLen else bytes) ≤ msgLen := by
  split <;> omega

/-- The parser does not fault. It waits with a request as it was, or with a buffer in place, unless
it gives the request up or hands it on. -/
theorem parseRequestOnStack_between {req : Req} (h : Between [] [] req)
    (hstate : req.state = .init ∨ req.state = .read) (stack heap : Memory) (net : Net) :
    ∃ verdict net', parseRequestOnStack stack heap req net = .ok (verdict, net') ∧
      ((∃ req', verdict = .waiting req' ∧ Between [] [] req') ∨ verdict = .destroyed ∨
        ∃ buf', verdict = .parsing ⟨.parse, some buf'⟩) := by
  have hread {buf : Buf} (hplaced : Placed buf) (hstart : buf.start = 0)
      (hsmall : buf.total ≤ maxMessageSize) (net : Net) :
      ∃ verdict net', parseRead ⟨.read, some buf⟩ net = .ok (verdict, net') ∧
        ((∃ req', verdict = .waiting req' ∧ Between [] [] req') ∨ verdict = .destroyed ∨
          ∃ buf', verdict = .parsing ⟨.parse, some buf'⟩) := by
    obtain ⟨verdict, net', hparse, hwaiting | hother⟩ := parseRead_placed hplaced hstart hsmall net
    · exact ⟨verdict, net', hparse,
        .inl ⟨_, hwaiting, .reading buf hplaced hstart hsmall ⟨rfl, rfl⟩⟩⟩
    · exact ⟨verdict, net', hparse, .inr hother⟩
  cases h with
  | init hnone =>
    simp only [parseRequestOnStack, initRequest, parseInitOnStack]
    split
    · exact ⟨_, _, rfl, .inl ⟨_, rfl, .init hnone⟩⟩
    · exact ⟨_, _, rfl, .inr (.inl rfl)⟩
    · split
      · exact ⟨_, _, rfl, .inr (.inl rfl)⟩
      · next hlen =>
        obtain ⟨hplaced, hstart, htotal, -⟩ := placed_push heap
          ((List.length_take_le _ _).trans (bytes2copy_le _ _))
        exact hread hplaced hstart (htotal.trans_le (Nat.le_of_not_lt hlen)) _
  | reading buf hplaced hstart hsmall hnone => exact hread hplaced hstart hsmall net
  | serving buf hplaced hnone => simp at hstate
  | writing buf hplaced hrest => simp at hstate

theorem destroyRequest_gone (h : destroyRequest requests (some request) = .ok requests') :
    (∃ req, requests request = some req) ∧ requests' request = none := by
  rw [destroyRequest, if_neg (Option.some_ne_none request)] at h
  obtain ⟨req, hload, h⟩ := bind_eq_ok.mp h
  rw [← Except.ok.inj h]
  exact ⟨⟨req, Requests.load_eq_ok.mp hload⟩, requests.set_self request none⟩

/-- A request with its reply in a new buffer. -/
def Answered (requests : Requests) (request : ℕ) (data : List UInt8) : Prop :=
  ∃ buf, requests request = some ⟨.write, some buf⟩ ∧ Placed buf ∧ buf.contents = data

theorem requestReply_answered {reply : ReplyPointer} {packed : List PackCall}
    (h : requestReply heap pack requests (some request) reply = .ok (requests', packed)) :
    (∃ req, requests request = some req) ∧ Answered requests' request (pack packed) := by
  obtain ⟨reply, -, h⟩ := bind_eq_ok.mp h
  obtain ⟨req, hload, h⟩ := bind_eq_ok.mp h
  obtain ⟨hrequests, hpacked⟩ := Prod.mk.inj (Except.ok.inj h)
  obtain ⟨hplaced, -, -, hcontents⟩ :=
    placed_push heap (Nat.le_refl (pack (serializeReply reply)).length)
  rw [← hrequests, ← hpacked]
  exact ⟨⟨req, Requests.load_eq_ok.mp hload⟩, _, requests.set_self request _, hplaced, hcontents⟩

/-- What becomes of a request whose message has come: it is gone, in service as it was, or
answered. -/
inductive Settled (requests requests' : Requests) (request : ℕ)
    (pack : List PackCall → List UInt8) : Handled → Prop
  | destroyed (hgone : requests' request = none) :
    Settled requests requests' request pack .destroyed
  | queued (transaction : PushedTransaction) (hsame : requests' = requests) :
    Settled requests requests' request pack (.queued transaction)
  | replied (packed : List PackCall) (hanswered : Answered requests' request (pack packed)) :
    Settled requests requests' request pack (.replied packed)

section Settled

variable {stack : ProtoReply} {granted : Bool} {padding : UInt8 × UInt8 × UInt8}
  {queue queue' : TransactionQueue} {msg : Msg} {handled : Handled}

theorem replyFatal_settled {error : ProtoReplyError}
    (h : replyFatal heap pack stack (requests, queue) request error =
      .ok ((requests', queue'), handled)) : Settled requests requests' request pack handled := by
  obtain ⟨⟨replied, packed⟩, hreply, h⟩ := bind_eq_ok.mp h
  cases h
  exact .replied packed (requestReply_answered hreply).2

theorem onRequest_settled (h : onRequest heap pack stack granted padding (requests, queue) request
    msg = .ok ((requests', queue'), handled)) : Settled requests requests' request pack handled := by
  obtain ⟨name, -, h⟩ := bind_eq_ok.mp h
  split at h
  · split at h
    · exact replyFatal_settled h
    · cases h
      exact .queued _ rfl
  · exact replyFatal_settled h

theorem parseService_settled {command : Object}
    (h : parseService heap pack stack granted padding (requests, queue) request msg command =
      .ok ((requests', queue'), handled)) : Settled requests requests' request pack handled := by
  unfold parseService at h
  split at h
  · obtain ⟨destroyed, hdestroy, h⟩ := bind_eq_ok.mp h
    cases h
    exact .destroyed (destroyRequest_gone hdestroy).2
  · exact onRequest_settled h

theorem destroyHandled_settled {start : Requests}
    (h : destroyHandled request requests = .ok (requests', handled)) :
    Settled start requests' request pack handled := by
  obtain ⟨destroyed, hdestroy, h⟩ := bind_eq_ok.mp h
  cases h
  exact .destroyed (destroyRequest_gone hdestroy).2

/-- The buffer of a request that goes into service has been reset. -/
theorem parseMessage_settled {around : Surroundings}
    (h : parseMessage decode pack request around requests buf = .ok (requests', handled)) :
    Settled (requests.set (some request) (some ⟨.service, some (bufferFree buf)⟩)) requests' request
      pack handled := by
  unfold parseMessage at h
  split at h
  · obtain ⟨parsed, -, h⟩ := bind_eq_ok.mp h
    split at h
    · exact destroyHandled_settled h
    · obtain ⟨⟨⟨served, queue⟩, result⟩, hservice, h⟩ := bind_eq_ok.mp h
      cases h
      exact parseService_settled hservice
  · exact destroyHandled_settled h

end Settled

/-- Bytes are taken off the front of a buffer by hand. -/
theorem placed_drain (h : Placed buf) {bytes : ℕ} (hle : bytes ≤ buf.used) :
    Placed { buf with start := buf.start + bytes, used := buf.used - bytes } ∧
      buf.ptr.load buf.start bytes ++ buf.ptr.load (buf.start + bytes) (buf.used - bytes) =
        buf.contents := by
  refine ⟨⟨?_, h.inside⟩, ?_⟩
  · change buf.stop = buf.start + bytes + (buf.used - bytes)
    have hstop := h.stop
    omega
  · rw [← load_add, Nat.add_sub_of_le hle, Buf.contents]

/-- A request that is being written is destroyed only by an error or when nothing is left, and what
send takes off its buffer was at the front. -/
theorem writeReply_placed {outcome : SendOutcome} {req' : Option Req} {data : List UInt8}
    (h : Placed buf) (hwrite : writeReply ⟨.write, some buf⟩ outcome = .ok (req', data)) :
    (req' = none ∧ data = []) ∨ ∃ buf', req' = some ⟨.write, some buf'⟩ ∧ Placed buf' ∧
      data ++ buf'.contents = buf.contents := by
  rw [writeReply, if_neg (not_not.mpr rfl), Option.elim_some, ok_bind] at hwrite
  split at hwrite
  · cases hwrite
    exact .inl ⟨rfl, rfl⟩
  cases outcome with
  | again =>
    cases hwrite
    exact .inr ⟨buf, rfl, h, List.nil_append _⟩
  | failed =>
    cases hwrite
    exact .inl ⟨rfl, rfl⟩
  | taken count =>
    cases hwrite
    obtain ⟨hplaced, hcontents⟩ := placed_drain h (min_le_right count buf.used)
    exact .inr ⟨_, rfl, hplaced, hcontents⟩

theorem Kept.of_alive {req : Req} (hreq : c.requests request = some req)
    (hbetween : Between c.serialized c.accepted req) : Kept request c := by
  refine ⟨fun other hother ↦ ?_, fun hnone ↦ ?_⟩
  · cases hreq.symm.trans hother
    exact hbetween
  · cases hreq.symm.trans hnone

theorem Kept.of_gone (hnone : c.requests request = none) (hsame : c.accepted = c.serialized) :
    Kept request c := by
  refine ⟨fun req hreq ↦ ?_, fun _ ↦ ⟨hsame ▸ List.prefix_refl _, fun _ ↦ hsame⟩⟩
  cases hreq.symm.trans hnone

/-- A request whose buffer is noted at a call that does nothing. -/
theorem Kept.noted (h : Kept request c) :
    Kept request { c with last := (c.requests request).elim c.last Req.buf } := by
  refine ⟨h.alive, fun hnone ↦ ?_⟩
  have hnone' : c.requests request = none := hnone
  rw [hnone', Option.elim_none]
  exact h.gone hnone

theorem Between.nothing {serialized accepted : List UInt8} {req : Req}
    (h : Between serialized accepted req) (hstate : req.state ≠ .write) :
    serialized = [] ∧ accepted = [] := by
  cases h with
  | init hnone | reading _ _ _ _ hnone | serving _ _ hnone => exact hnone
  | writing buf hplaced hrest => exact absurd rfl hstate

theorem startConnection_kept (requests : Requests) (net : Net) :
    Kept request (startConnection request requests net) :=
  .of_alive (requests.set_self request _) (.init ⟨rfl, rfl⟩)

theorem onReadable_kept {around : Surroundings} (h : Kept request c)
    (hcall : onReadable decode pack request c around = .ok c') :
    Kept request { c' with last := (c.requests request).elim c.last Req.buf } := by
  unfold onReadable at hcall
  split at hcall
  · cases hcall
    exact h.noted
  · next req hreq =>
    split at hcall
    · next hstate =>
      have hbetween := h.alive req hreq
      obtain ⟨hserialized, haccepted⟩ := hbetween.nothing (by rintro hwrite; simp [hwrite] at hstate)
      rw [hserialized, haccepted] at hbetween
      obtain ⟨verdict, net, hparse, hverdict⟩ :=
        parseRequestOnStack_between hbetween hstate around.stack around.heap c.net
      rw [hparse, ok_bind] at hcall
      rcases hverdict with ⟨req', rfl, hbetween'⟩ | rfl | ⟨buf, rfl⟩
      · cases hcall
        refine .of_alive (c.requests.set_self request _) ?_
        rw [hserialized, haccepted]
        exact hbetween'
      · obtain ⟨requests, hdestroy, hcall⟩ := bind_eq_ok.mp hcall
        cases hcall
        exact .of_gone (destroyRequest_gone hdestroy).2 (haccepted.trans hserialized.symm)
      · simp only [Option.elim_some, ok_bind] at hcall
        obtain ⟨⟨requests, handled⟩, hmessage, hcall⟩ := bind_eq_ok.mp hcall
        cases hcall
        cases parseMessage_settled hmessage with
        | destroyed hgone => exact .of_gone hgone haccepted
        | queued transaction hsame =>
          refine .of_alive ?_ (.serving (bufferFree buf) (placed_free buf) ⟨rfl, haccepted⟩)
          rw [hsame]
          exact c.requests.set_self request _
        | replied packed hanswered =>
          obtain ⟨reply, hreply, hplaced, hcontents⟩ := hanswered
          refine .of_alive hreply (.writing reply hplaced ?_)
          rw [haccepted]
          exact hcontents
    · cases hcall
      exact h.noted

/-- A request that the worker serves has nothing of its reply yet. -/
theorem Kept.served (h : Kept request c) (hserved : c.served request = true) {req : Req}
    (hreq : c.requests request = some req) : c.serialized = [] ∧ c.accepted = [] := by
  rw [Connection.served, hreq] at hserved
  have hstate : req.state = .service := of_decide_eq_true hserved
  apply (h.alive req hreq).nothing
  rw [hstate]
  exact nofun

theorem onAnswer_kept {reply : ReplyPointer} (h : Kept request c)
    (hcall : onAnswer pack request c heap reply = .ok c') :
    Kept request { c' with last := (c.requests request).elim c.last Req.buf } := by
  unfold onAnswer at hcall
  split at hcall
  · next hserved =>
    obtain ⟨⟨requests, packed⟩, hreply, hcall⟩ := bind_eq_ok.mp hcall
    cases hcall
    obtain ⟨⟨req, hreq⟩, buf, hbuf, hplaced, hcontents⟩ := requestReply_answered hreply
    refine .of_alive hbuf (.writing buf hplaced ?_)
    rw [(h.served hserved hreq).2]
    exact hcontents
  · cases hcall
    exact h.noted

theorem onDrop_kept (h : Kept request c) (hcall : onDrop request c = .ok c') :
    Kept request { c' with last := (c.requests request).elim c.last Req.buf } := by
  unfold onDrop at hcall
  split at hcall
  · next hserved =>
    obtain ⟨requests, hdestroy, hcall⟩ := bind_eq_ok.mp hcall
    cases hcall
    obtain ⟨⟨req, hreq⟩, hgone⟩ := destroyRequest_gone hdestroy
    obtain ⟨hserialized, haccepted⟩ := h.served hserved hreq
    exact .of_gone hgone (haccepted.trans hserialized.symm)
  · cases hcall
    exact h.noted

theorem onWritable_kept {outcome : SendOutcome} (h : Kept request c)
    (hcall : onWritable request c outcome = .ok c') :
    Kept request { c' with last := (c.requests request).elim c.last Req.buf } := by
  unfold onWritable at hcall
  split at hcall
  · cases hcall
    exact h.noted
  · next req hreq =>
    split at hcall
    · next hstate =>
      obtain ⟨⟨written, data⟩, hwrite, hcall⟩ := bind_eq_ok.mp hcall
      cases hcall
      cases h.alive req hreq with
      | init | reading | serving => cases hstate
      | writing buf hplaced hrest =>
        rcases writeReply_placed hplaced hwrite with ⟨rfl, rfl⟩ | ⟨buf', rfl, hplaced', hsplit⟩
        · refine ⟨fun other hother ↦ ?_, fun _ ↦ ⟨⟨buf.contents, ?_⟩, fun hlast ↦ ?_⟩⟩
          · cases (c.requests.set_self request none).symm.trans hother
          · rw [List.append_nil]
            exact hrest
          · have hused : buf.used = 0 := hlast buf (by rw [hreq]; rfl)
            have hcontents : buf.contents = [] := by
              rw [Buf.contents, hused, load_zero]
            rw [hcontents, List.append_nil] at hrest
            rw [List.append_nil]
            exact hrest
        · refine .of_alive (c.requests.set_self request _) (.writing buf' hplaced' ?_)
          rw [List.append_assoc, hsplit]
          exact hrest
    · cases hcall
      exact h.noted

theorem connectionStep_kept {event : ConnectionEvent} {output : Unit} (h : Kept request c)
    (hstep : connectionStep decode pack request c event = .ok (c', output)) : Kept request c' := by
  obtain ⟨next, hcall, hstep⟩ := bind_eq_ok.mp hstep
  cases hstep
  cases event with
  | readable around => exact onReadable_kept h hcall
  | answer heap reply => exact onAnswer_kept h hcall
  | writable outcome => exact onWritable_kept h hcall
  | drop => exact onDrop_kept h hcall

end Kept

/-- Whatever the decoder and the packer do, whatever the socket brings and takes and whenever the
worker comes, every state that a request reaches is sound. -/
theorem sound_of_run {decode : List UInt8 → Option Object} {pack : List PackCall → List UInt8}
    {request : ℕ} {requests : Requests} {net : Net} {events : List ConnectionEvent} {c : Connection}
    {outputs : List Unit} (hrun : run (connectionStep decode pack request)
      (startConnection request requests net) events = .ok (c, outputs)) : Sound request c := by
  have hkept : Kept request c := run_invariant
    (fun _ _ _ _ h _ hstep ↦ connectionStep_kept h hstep) (startConnection_kept requests net)
    (eachStep_of_all fun _ _ ↦ trivial) hrun
  exact hkept.sound

/-- The decoder on the message of a PEEK of a key of one byte. -/
def decodePeek (bytes : List UInt8) : Option Object :=
  if bytes = [0x92, 0x01, 0xa1, 0x6b] then
    some (.array [.positiveInteger 1, .str ⟨[0x6b], by decide⟩])
  else some .nil

/-- A PEEK that comes in one chunk, and a reply that is taken in two. -/
def peekEvents : List ConnectionEvent :=
  [.readable ⟨fun _ ↦ 0, 0, fun _ ↦ 0, ⟨.ok, 0, .empty⟩, true, (0, 0, 0), initQueue⟩,
    .answer (fun _ ↦ 0) (.object ⟨.ok, 1, .empty⟩), .writable (.taken 2), .writable .again,
    .writable (.taken 5), .writable .again]

theorem sound_peek : ∃ c : Connection, (c.accepted, (c.requests 0).isNone) =
    ([0x92, 0x00, 0x00], true) ∧ Sound 0 c := by
  obtain ⟨net, hnet⟩ : ∃ net : Net, net = ⟨message [0x92, 0x01, 0xa1, 0x6b], [.data 8]⟩ := ⟨_, rfl⟩
  have hview : (run (connectionStep decodePeek (fun _ ↦ [0x92, 0x00, 0x00]) 0)
      (startConnection 0 (fun _ ↦ none) net) peekEvents).toOption.map
        (fun result ↦ (result.1.accepted, (result.1.requests 0).isNone)) =
          some ([0x92, 0x00, 0x00], true) := by
    rw [hnet]
    decide +kernel
  obtain ⟨result, hrun, hseen⟩ := exists_ok_of_map hview
  exact ⟨result.1, hseen, sound_of_run hrun⟩

end FGDB.Operations
