import FGDB.Client.MessagePack
import FGDB.Service.Linearization

/-!
# The clients and the process

Each connection is that of one client, which has sent its whole message when the server
first has something to read. What the parser makes of the bytes is the call again, so the
operations of the process are the calls of the clients. What a client reads when the
whole reply has come is the answer to its own call; of a part of the reply it reads
nothing.
-/

namespace FGDB.Client

open Foundation Memory HashMap Pages Queue Server Wal Operations Restart Service
open FGDB.Vector (Growth)

/-- The first call of recv that finds something takes the whole message. -/
def ComesWhole (length : ℕ) : List RecvOutcome → Prop
  | [] => True
  | .again :: rest => ComesWhole length rest
  | .failed :: _ => True
  | .data count :: _ => length ≤ count

instance decidableComesWhole (length : ℕ) :
    (outcomes : List RecvOutcome) → Decidable (ComesWhole length outcomes)
  | [] | .failed :: _ => isTrue trivial
  | .again :: rest => decidableComesWhole length rest
  | .data count :: _ => inferInstanceAs (Decidable (length ≤ count))

/-- A reply is nothing yet, or the whole of what has been returned or of a refusal. -/
def Whole (pack : List PackCall → List UInt8) (trace : List Note) (number : ℕ) (bytes : List UInt8) :
    Prop :=
  bytes = [] ∨ ∃ packed, bytes = pack packed ∧
    (.ret number packed ∈ trace ∨ Refusal packed ∧ Uncalled trace number)

/-- The connection brings the message of the call, whose strings are text, and it fits into the array
of the parser. -/
structure Sends (encode : Object → List UInt8) (call : ClientCall) (net : Net) : Prop where
  stream : net.stream = sendMessage encode call
  whole : ComesWhole (sendMessage encode call).length net.outcomes
  short : (sendMessage encode call).length ≤ 1023
  key : ZerosAfterZero call.msg.key.bytes
  val : ZerosAfterZero call.msg.val.bytes

/-- What the requests that are read are to get comes from their clients. -/
def Arriving (encode : Object → List UInt8) (clients : ℕ → ClientCall) (requests : Requests)
    (nets : ℕ → Net) (number : ℕ → ℕ) : Prop :=
  ∀ request req, requests request = some req → req.state = .init ∨ req.state = .read →
    req = initRequest ∧ Sends encode (clients (number request)) (nets request)

/-- The process works for the clients. -/
structure Listening (encode : Object → List UInt8) (pack : List PackCall → List UInt8)
    (clients : ℕ → ClientCall) (p : Process) (trace : List Note) : Prop where
  arriving : Arriving encode clients p.requests p.nets p.connections.number
  called : ∀ number msg, .call number msg ∈ trace → msg = (clients number).msg
  whole : ∀ number, Whole pack trace number (p.connections.serialized number)

section Parser

variable {encode : Object → List UInt8} {decode : List UInt8 → Option Object}
  {pack : List PackCall → List UInt8} {unpack : List UInt8 → Unpacked} {call : ClientCall} {net : Net}

/-- A whole message that has come is handed on as it was packed. -/
theorem Sends.parse (h : Sends encode call net) (stack heap : Memory) :
    ∃ verdict net', parseRequestOnStack stack heap initRequest net = .ok (verdict, net') ∧
      (verdict = .waiting initRequest ∧ Sends encode call net' ∨ verdict = .destroyed ∨
        ∃ buf, verdict = .parsing ⟨.parse, some buf⟩ ∧ buf.contents = encode call.object) := by
  obtain ⟨stream, outcomes⟩ := net
  obtain ⟨hstream, hwhole, hshort, hkey, hval⟩ := h
  cases outcomes with
  | nil => exact ⟨_, _, rfl, .inl ⟨rfl, hstream, trivial, hshort, hkey, hval⟩⟩
  | cons first rest =>
    cases first with
    | again => exact ⟨_, _, rfl, .inl ⟨rfl, hstream, hwhole, hshort, hkey, hval⟩⟩
    | failed => exact ⟨_, _, rfl, .inr (.inl rfl)⟩
    | data count =>
      have hlength : (sendMessage encode call).length = (encode call.object).length + 4 := by
        rw [sendMessage, message, List.length_append, length_leBytes, Nat.add_comm]
      have hcount : (sendMessage encode call).length ≤ count := hwhole
      rw [hlength] at hshort hcount
      have hfirst : firstRead (encode call.object) count = (encode call.object).length + 4 := by
        unfold firstRead
        omega
      have hannounced : announced (encode call.object) count = (encode call.object).length := by
        rw [announced, hfirst]
        apply Nat.mod_eq_of_lt
        calc (encode call.object).length < 256 ^ 4 := by omega
          _ ≤ 256 ^ ((encode call.object).length + 4) :=
            Nat.pow_le_pow_right (by decide) (Nat.le_add_left 4 _)
      have hsmall : (encode call.object).length ≤ maxMessageSize := by
        unfold maxMessageSize
        omega
      have hcopied : copied (encode call.object) count = encode call.object := by
        rw [copied, hfirst, hannounced, Nat.add_sub_cancel, List.take_length,
          min_eq_right (Nat.le_add_right _ 4)]
        exact List.take_left' rfl
      have hleft : bufferLeft (firstBuf heap (encode call.object) count) = 0 := by
        rw [bufferLeft_firstBuf hsmall, hannounced, hfirst]
        omega
      have hparse : parseRequest heap initRequest ⟨stream, .data count :: rest⟩ =
          .ok (.parsing ⟨.parse, some (firstBuf heap (encode call.object) count)⟩,
            ⟨(message (encode call.object)).drop (firstRead (encode call.object) count), rest⟩) := by
        have hstream : stream = message (encode call.object) := hstream
        rw [hstream, parseRequest_first hsmall, if_pos (by omega)]
        simp only [parseRequest, parseRead, hleft, gt_iff_lt, Nat.lt_irrefl, if_false]
      exact ⟨_, _, parseRequestOnStack_eq hparse stack,
        .inr (.inr ⟨_, rfl, (contents_firstBuf ..).trans hcopied⟩)⟩

/-- The message of the call is understood. -/
theorem Sends.understood (hinter : Interoperates encode decode pack unpack)
    (h : Sends encode call net) : Understood decode (encode call.object) := by
  intro command data hdecode
  cases (hinter.request call).symm.trans hdecode
  refine ⟨fun cmd ↦ ⟨_, parseData_argument call cmd h.key h.val⟩, fun n hn ↦ ?_⟩
  cases hn
  exact commands_le call.cmd

/-- What is queued for the message of a call has the call as its operation. -/
theorem Sends.parseMessage_msg (hinter : Interoperates encode decode pack unpack)
    (h : Sends encode call net) {around : Surroundings} {requests requests' : Requests} {request : ℕ}
    {buf : Buf} {t : PushedTransaction} (hcontents : buf.contents = encode call.object)
    (hparse : parseMessage decode pack request around requests buf =
      .ok (requests', .queued t)) : t.trans.msg = call.msg := by
  have hcmd : { call.msg with cmd := (commands call.cmd).toUInt32.toUInt8 } = call.msg := by
    obtain ⟨cmd, argument⟩ := call
    rw [commands_code]
    cases argument <;> rfl
  have hcode : call.msg.cmd = call.cmd.code := by
    obtain ⟨cmd, argument⟩ := call
    cases argument <;> rfl
  rw [parseMessage, hcontents, hinter.request call] at hparse
  simp only [ClientCall.object, parseData_argument call around.cmd h.key h.val, ok_bind] at hparse
  obtain ⟨⟨⟨served, queue⟩, handled⟩, hservice, hparse⟩ := bind_eq_ok.mp hparse
  cases hparse
  rw [parseService_positiveInteger, hcmd] at hservice
  cases hgranted : around.granted with
  | true =>
    rw [hgranted, onRequest_granted hcode] at hservice
    cases hservice
    rfl
  | false =>
    rw [hgranted, onRequest_not_granted hcode] at hservice
    obtain ⟨⟨replied, packed⟩, -, hservice⟩ := bind_eq_ok.mp hservice
    cases hservice

/-- A request whose message is the call is as it was, is gone, or has been handled as the call. -/
theorem Sends.readRequest (hinter : Interoperates encode decode pack unpack)
    (h : Sends encode call net) {around : Surroundings} {requests requests' : Requests} {request : ℕ}
    {net' : Net} {handled : Option Handled}
    (hread : Service.readRequest decode pack around requests request initRequest net =
      .ok (requests', net', handled)) :
    ∃ kept, requests' = requests.set (some request) kept ∧
      (∀ req, kept = some req → req.state = .init ∨ req.state = .read →
        req = initRequest ∧ Sends encode call net') ∧
      ReadEnds pack request kept handled ∧
        ∀ t, handled = some (.queued t) → t.trans.msg = call.msg := by
  have hnone (t : PushedTransaction) (hqueued : none = some (Handled.queued t)) :
      t.trans.msg = call.msg := by
    cases hqueued
  obtain ⟨verdict, rest, hparse, hverdict⟩ := h.parse around.stack around.heap
  rw [Service.readRequest, hparse, ok_bind] at hread
  rcases hverdict with ⟨rfl, hrest⟩ | rfl | ⟨buf, rfl, hcontents⟩
  · cases hread
    exact ⟨some initRequest, rfl, forall_some fun _ ↦ ⟨rfl, hrest⟩,
      .waiting initRequest (.init ⟨rfl, rfl⟩) init_ne_service, hnone⟩
  · obtain ⟨destroyed, hdestroy, hread⟩ := bind_eq_ok.mp hread
    cases hread
    exact ⟨none, destroyRequest_eq_ok hdestroy, forall_none, .closed, hnone⟩
  · simp only [Option.elim_some, ok_bind] at hread
    obtain ⟨⟨served, result⟩, hmessage, hread⟩ := bind_eq_ok.mp hread
    cases hread
    obtain ⟨kept, hset, hends⟩ := parseMessage_ends hmessage
    refine ⟨kept, hset, fun req hkept hstate ↦ ?_, hends, fun t hqueued ↦ ?_⟩
    · -- a message that has been handled is not read any more
      cases hends with
      | destroyed => cases hkept
      | queued =>
        cases hkept
        exact absurd hstate service_not_read
      | replied =>
        cases hkept
        exact absurd hstate write_not_read
    · cases hqueued
      exact h.parseMessage_msg hinter hcontents hmessage

end Parser

section Steps

variable {encode : Object → List UInt8} {decode : List UInt8 → Option Object}
  {pack : List PackCall → List UInt8} {unpack : List UInt8 → Unpacked} {growth : Growth}
  {clients : ℕ → ClientCall} {p p' : Process} {note : Option Note} {trace : List Note} {request : ℕ}

theorem Whole.concat {number : ℕ} {bytes : List UInt8} {last : Note} (h : Whole pack trace number bytes)
    (hlast : ∀ op, .call number op ≠ last) : Whole pack (trace ++ [last]) number bytes := by
  rcases h with hnone | ⟨packed, hpacked, hret | ⟨hrefusal, huncalled⟩⟩
  · exact .inl hnone
  · exact .inr ⟨packed, hpacked, .inl (List.mem_append_left _ hret)⟩
  · exact .inr ⟨packed, hpacked, .inr ⟨hrefusal, huncalled.concat hlast⟩⟩

/-- One request is kept in another way, and nothing has happened to the others. -/
theorem Arriving.set {requests : Requests} {nets nets' : ℕ → Net} {number number' : ℕ → ℕ}
    {kept : Option Req} (h : Arriving encode clients requests nets number)
    (hothers : ∀ other, other ≠ request → nets' other = nets other ∧ number' other = number other)
    (hkept : ∀ req, kept = some req → req.state = .init ∨ req.state = .read →
      req = initRequest ∧ Sends encode (clients (number' request)) (nets' request)) :
    Arriving encode clients (requests.set (some request) kept) nets' number' := by
  intro other req hreq hstate
  by_cases hother : other = request
  · rw [hother, Requests.set_self] at hreq
    exact hother ▸ hkept req hreq hstate
  · rw [Requests.set_some, Function.update_of_ne hother] at hreq
    obtain ⟨hnet, hnumber⟩ := hothers other hother
    rw [hnet, hnumber]
    exact h other req hreq hstate

theorem Arriving.closed {nets : ℕ → Net} {number : ℕ → ℕ} :
    Arriving encode clients (fun _ ↦ none) nets number := by
  intro request req hreq
  cases hreq

/-- A step that replies to nobody and calls nothing. -/
theorem Listening.later (h : Listening encode pack clients p trace)
    (harriving : Arriving encode clients p'.requests p'.nets p'.connections.number)
    (hsame : p'.connections.serialized = p.connections.serialized)
    (hnote : ∀ last, note = some last → ∀ number op, .call number op ≠ last) :
    Listening encode pack clients p' (trace ++ note.toList) := by
  cases note with
  | none =>
    rw [Option.toList_none, List.append_nil]
    exact ⟨harriving, h.called, hsame ▸ h.whole⟩
  | some last =>
    refine ⟨harriving, fun number msg hmem ↦ ?_, fun number ↦ ?_⟩
    · rcases List.mem_append.mp hmem with hmem | hlast
      · exact h.called number msg hmem
      · exact absurd (List.mem_singleton.mp hlast) (hnote last rfl number msg)
    · rw [hsame]
      exact (h.whole number).concat (hnote last rfl number)

theorem Listening.accept {net : Net} {nonblock : Bool} (h : Listening encode pack clients p trace)
    (hsends : Sends encode (clients p.connections.count) net)
    (hstep : p.accept request net nonblock = .ok p') : Listening encode pack clients p' trace := by
  unfold Process.accept at hstep
  split at hstep
  · cases hstep
    exact h
  · split at hstep
    · cases hstep
      refine ⟨h.arriving.set (fun other hother ↦ ?_) (forall_some fun _ ↦ ⟨rfl, ?_⟩), h.called, h.whole⟩
      · exact ⟨Function.update_of_ne hother .., Function.update_of_ne hother ..⟩
      · simp only [Connections.add, Function.update_self]
        exact hsends
    · cases hstep

/-- What has come from a client is waited for, given up, or handled as its call. -/
theorem Listening.readable {around : Surroundings}
    (hinter : Interoperates encode decode pack unpack) (howned : Owned p) (htraced : Traced pack p trace)
    (h : Listening encode pack clients p trace)
    (hstep : p.readable decode pack request around = .ok (p', note)) :
    Listening encode pack clients p' (trace ++ note.toList) := by
  unfold Process.readable at hstep
  split at hstep
  · cases hstep
    rw [Option.toList_none, List.append_nil]
    exact h
  · next req hreq =>
    split at hstep
    · next hstate =>
      obtain ⟨rfl, hsends⟩ := h.arriving request req hreq hstate
      have huncalled := htraced.reading request initRequest hreq hstate
      have hnothing := (howned.peers.reading hreq hstate).1
      obtain ⟨⟨requests, net, handled⟩, hread, hstep⟩ := bind_eq_ok.mp hstep
      obtain ⟨kept, rfl, hkept, hends, hqueued⟩ := hsends.readRequest hinter hread
      have harriving : Arriving encode clients (p.requests.set (some request) kept)
          (Function.update p.nets request net) p.connections.number := by
        refine h.arriving.set (fun other hother ↦ ⟨Function.update_of_ne hother .., rfl⟩)
          fun req hsome hstate ↦ ?_
        rw [Function.update_self]
        exact hkept req hsome hstate
      cases hends with
      | waiting | closed | destroyed =>
        cases hstep
        rw [Option.toList_none, List.append_nil]
        exact ⟨harriving, h.called, h.whole⟩
      | replied packed buf hrefusal hplaced hcontents =>
        cases hstep
        rw [Option.toList_none, List.append_nil]
        refine ⟨harriving, h.called, fun number ↦ ?_⟩
        simp only [Connections.replied]
        by_cases hnumber : number = p.connections.number request
        · rw [hnumber, Function.update_self]
          exact .inr ⟨packed, rfl, .inr ⟨hrefusal, huncalled⟩⟩
        · rw [Function.update_of_ne hnumber]
          exact h.whole number
      | queued t buf hplaced hancestor hcmd =>
        cases hstep
        rw [Option.toList_some]
        refine ⟨harriving, fun number msg hmem ↦ ?_, fun number ↦ ?_⟩
        · rcases List.mem_append.mp hmem with hmem | hlast
          · exact h.called number msg hmem
          · cases List.mem_singleton.mp hlast
            exact hqueued t rfl
        · by_cases hnumber : number = p.connections.number request
          · exact .inl (hnumber ▸ hnothing.1)
          · exact (h.whole number).concat fun _ ↦ TraceEvent.call_ne_call hnumber _
    · cases hstep
      rw [Option.toList_none, List.append_nil]
      exact h

theorem Listening.writable {outcome : SendOutcome} (howned : Owned p)
    (h : Listening encode pack clients p trace) (hstep : p.writable request outcome = .ok p') :
    Listening encode pack clients p' trace := by
  unfold Process.writable at hstep
  split at hstep
  · cases hstep
    exact h
  · next req hreq =>
    split at hstep
    · next hstate =>
      obtain ⟨⟨kept, data⟩, hwrite, hstep⟩ := bind_eq_ok.mp hstep
      cases hstep
      refine ⟨h.arriving.set (fun _ _ ↦ ⟨rfl, rfl⟩) fun req' hkept hread ↦ ?_, h.called, h.whole⟩
      cases howned.peers.between request req hreq with
      | init | reading | serving => cases hstate
      | writing buf hplaced hrest =>
        rcases writeReply_placed hplaced hwrite with ⟨rfl, -⟩ | ⟨buf', rfl, -⟩
        · cases hkept
        · cases hkept
          exact absurd hread write_not_read
    · cases hstep
      exact h

theorem Listening.wait (h : Listening encode pack clients p trace) :
    Listening encode pack clients p.wait trace := by
  unfold Process.wait
  split
  · exact ⟨h.arriving, h.called, h.whole⟩
  · exact h

theorem Listening.pop (h : Listening encode pack clients p trace) (hstep : p.pop = .ok p') :
    Listening encode pack clients p' trace := by
  unfold Process.pop at hstep
  split at hstep
  · split at hstep
    · cases hstep
    · cases hstep
      exact ⟨h.arriving, h.called, h.whole⟩
  · cases hstep
    exact h

/-- An operation takes effect, or it destroys its request. -/
theorem Listening.operate {reply : ProtoReply} (h : Listening encode pack clients p trace)
    (hstep : p.operate growth reply = .ok (p', note)) :
    Listening encode pack clients p' (trace ++ note.toList) := by
  unfold Process.operate at hstep
  split at hstep
  · next t hworker =>
    obtain ⟨⟨db, requests, pointer⟩, hoperation, hstep⟩ := bind_eq_ok.mp hstep
    cases hstep
    have hnote (last : Note) (hlast : p.effectOf t pointer = some last) (number : ℕ) (op : Msg) :
        .call number op ≠ last := by
      cases pointer with
      | null | indeterminate => cases hlast
      | object reply =>
        obtain ⟨request, -, hpoint⟩ := Option.map_eq_some_iff.mp hlast
        exact hpoint ▸ TraceEvent.call_ne_point _
    refine h.later ?_ rfl hnote
    obtain ⟨loaded, hload, hoperation⟩ := bind_eq_ok.mp hoperation
    split at hoperation
    · obtain ⟨destroyed, hdestroy, hoperation⟩ := bind_eq_ok.mp hoperation
      cases hoperation
      cases hancestor : t.trans.ancestor with
      | none =>
        rw [hancestor] at hload
        cases hload
      | some request =>
        rw [hancestor] at hdestroy
        rw [destroyRequest_eq_ok hdestroy]
        exact h.arriving.set (fun _ _ ↦ ⟨rfl, rfl⟩) forall_none
    · obtain ⟨⟨db', result⟩, -, hoperation⟩ := bind_eq_ok.mp hoperation
      cases hoperation
      exact h.arriving
  · cases hstep
    rw [Option.toList_none, List.append_nil]
    exact h

/-- The worker returns the reply of an operation. -/
theorem Listening.answer {heap : Memory} (h : Listening encode pack clients p trace)
    (hstep : p.answer pack heap = .ok (p', note)) :
    Listening encode pack clients p' (trace ++ note.toList) := by
  unfold Process.answer at hstep
  split at hstep
  · next t pointer hworker =>
    obtain ⟨⟨requests, packed⟩, hreply, hstep⟩ := bind_eq_ok.mp hstep
    cases hancestor : t.trans.ancestor with
    | none =>
      rw [hancestor] at hreply
      obtain ⟨object, -, hreply⟩ := bind_eq_ok.mp hreply
      cases hreply
    | some request =>
      rw [hancestor] at hreply hstep
      obtain ⟨object, buf, -, -, rfl, -, -⟩ := requestReply_eq_ok hreply
      cases hstep
      rw [Option.map_some, Option.toList_some]
      refine ⟨h.arriving.set (fun _ _ ↦ ⟨rfl, rfl⟩) (forall_some fun hread ↦ absurd hread write_not_read),
        fun number msg hmem ↦ ?_, fun number ↦ ?_⟩
      · rcases List.mem_append.mp hmem with hmem | hlast
        · exact h.called number msg hmem
        · cases List.mem_singleton.mp hlast
      · simp only [Option.elim_some, Connections.replied]
        by_cases hnumber : number = p.connections.number request
        · rw [hnumber, Function.update_self]
          exact .inr ⟨packed, rfl, .inl (List.mem_append_right _ List.mem_cons_self)⟩
        · rw [Function.update_of_ne hnumber]
          exact (h.whole number).concat fun _ ↦ TraceEvent.call_ne_ret
  · cases hstep
    rw [Option.toList_none, List.append_nil]
    exact h

/-- The connections accept with what their clients send; the rest is as without clients. -/
def ClientFits (encode : Object → List UInt8) (decode : List UInt8 → Option Object) (growth : Growth)
    (clients : ℕ → ClientCall) (p : Process) : ProcessEvent → Prop
  | .accept _ net nonblock => nonblock = true ∧ Sends encode (clients p.connections.count) net
  | .readable _ _ => True
  | event => StepFits decode growth p event

/-- What the clients send fits. -/
theorem Listening.stepFits {event : ProcessEvent} (hinter : Interoperates encode decode pack unpack)
    (howned : Owned p) (h : Listening encode pack clients p trace)
    (hfits : ClientFits encode decode growth clients p event) : StepFits decode growth p event := by
  cases event with
  | accept request net nonblock => exact hfits.1
  | readable request around =>
    intro req buf net hreq hparse
    by_cases hstate : req.state = .init ∨ req.state = .read
    · obtain ⟨rfl, hsends⟩ := h.arriving request req hreq hstate
      obtain ⟨verdict, net', hverdict, hends⟩ := hsends.parse around.stack around.heap
      cases hparse.symm.trans hverdict
      rcases hends with ⟨hwaiting, -⟩ | hdestroyed | ⟨buf', hparsing, hcontents⟩
      · cases hwaiting
      · cases hdestroyed
      · cases hparsing
        exact hcontents ▸ hsends.understood hinter
    · cases howned.peers.between request req hreq with
      | init => exact absurd (.inl rfl) hstate
      | reading => exact absurd (.inr rfl) hstate
      | serving | writing => cases hparse
  | writable | wait | pop | operate | answer | snapshot | restart => exact hfits

/-- Every step that fits goes on to work for the clients. -/
theorem Listening.step {event : ProcessEvent} (hinter : Interoperates encode decode pack unpack)
    (howned : Owned p) (htraced : Traced pack p trace) (h : Listening encode pack clients p trace)
    (hfits : ClientFits encode decode growth clients p event)
    (hstep : processStep decode pack growth p event = .ok (p', note)) :
    Listening encode pack clients p' (trace ++ note.toList) := by
  cases event with
  | readable request around => exact h.readable hinter howned htraced hstep
  | operate reply => exact h.operate hstep
  | answer heap => exact h.answer hstep
  | wait =>
    cases hstep
    rw [Option.toList_none, List.append_nil]
    exact h.wait
  | accept request net nonblock =>
    obtain ⟨next, haccept, hstep⟩ := bind_eq_ok.mp hstep
    cases hstep
    rw [Option.toList_none, List.append_nil]
    exact h.accept hfits.2 haccept
  | writable request outcome =>
    obtain ⟨next, hwrite, hstep⟩ := bind_eq_ok.mp hstep
    cases hstep
    rw [Option.toList_none, List.append_nil]
    exact h.writable howned hwrite
  | pop =>
    obtain ⟨next, hpop, hstep⟩ := bind_eq_ok.mp hstep
    cases hstep
    rw [Option.toList_none, List.append_nil]
    exact h.pop hpop
  | snapshot moved =>
    obtain ⟨next, hnext, hstep⟩ := bind_eq_ok.mp hstep
    obtain ⟨s, -, hnext⟩ := bind_eq_ok.mp hnext
    cases hnext
    cases hstep
    rw [Option.toList_none, List.append_nil]
    exact ⟨h.arriving, h.called, h.whole⟩
  | restart memory =>
    obtain ⟨next, hnext, hstep⟩ := bind_eq_ok.mp hstep
    obtain ⟨db, -, hnext⟩ := bind_eq_ok.mp hnext
    cases hnext
    cases hstep
    rw [Option.toList_none, List.append_nil]
    exact ⟨.closed, h.called, h.whole⟩

end Steps

/-- The finite map on the calls. -/
def callStep (d : Str → Option Str) (call : ClientCall) : (Str → Option Str) × Answer :=
  msgStep d call.msg

def Reads (hash : Outcome (Option PerlHash)) (answer : Answer) : Prop :=
  hash = .ok (some (answerHash answer))

section Reading

variable (numify : Element → ℤ) (unpack : List UInt8 → Unpacked) (clients : ℕ → ClientCall)

/-- What the client of a connection returns for a buffer. -/
def clientReads (number : ℕ) (buffer : List UInt8) : Outcome (Option PerlHash) :=
  readReply numify (clients number).cmd (unpack buffer)

/-- What is noted of the messages and replies, as the clients know them. -/
def clientNote (pack : List PackCall → List UInt8) :
    Note → TraceEvent ℕ ClientCall (Outcome (Option PerlHash)) :=
  .map (fun number _ ↦ clients number)
    fun number packed ↦ clientReads numify unpack clients number (pack packed)

/-- A client reads nothing of a part of the reply. Of the whole one it reads the result of its call,
or a refusal when the call has not taken effect. -/
def Sees (order : List (Effect ℕ ClientCall (Outcome (Option PerlHash)))) (number : ℕ)
    (reply buffer : List UInt8) : Prop :=
  if buffer = [] ∨ buffer ≠ reply then clientReads numify unpack clients number buffer = .ok none
  else
    (∃ e ∈ order, e.id = number ∧ clientReads numify unpack clients number buffer = e.result) ∨
      (∀ e ∈ order, e.id ≠ number) ∧
        ∃ error, Reads (clientReads numify unpack clients number buffer) (.fatal error)

/-- No step faults, and the operations are the calls of the clients. Each takes effect between the
call and the return, all are answered as by one finite map that the pages have at the end, and a
client reads the answer to its own call. -/
def ServesClients (decode : List UInt8 → Option Object) (pack : List PackCall → List UInt8)
    (growth : Growth) (start : Process) (events : List ProcessEvent) : Prop :=
  ∃ p notes, run (processStep decode pack growth) start events = .ok (p, notes) ∧
    (∀ number msg, .call number msg ∈ notes.filterMap id → msg = (clients number).msg) ∧
    ∃ order : List (Effect ℕ ClientCall (Outcome (Option PerlHash))),
      Linearizes callStep Reads (fun _ ↦ none) order
        (history ((notes.filterMap id).map (clientNote numify unpack clients pack))) ∧
      (∀ key, storedValue hashmapCalls p.db key =
        (runSpec callStep (fun _ ↦ none) (order.map Effect.op)).1 key) ∧
      ∀ number buffer, buffer <+: p.connections.accepted number →
        Sees numify unpack clients order number (p.connections.serialized number) buffer

end Reading

section Answers

variable {numify : Element → ℤ} {encode : Object → List UInt8} {decode : List UInt8 → Option Object}
  {pack : List PackCall → List UInt8} {unpack : List UInt8 → Unpacked} {clients : ℕ → ClientCall}
  {p : Process} {trace : List Note}

/-- A reply is not empty, so an empty buffer is a part of one. -/
theorem Interoperates.unpack_nil (h : Interoperates encode decode pack unpack) : unpack [] = .died := by
  have hfirst := Unpacks.status .ok 0 (by decide)
  have hsecond := Unpacks.status .ok 1 (by decide)
  by_cases hempty : [] = pack [.array 2, .int ReplyCode.ok.value, .int ((0 : ℕ) : ℤ)]
  · apply h.part _ _ [] hsecond List.nil_prefix
    intro hboth
    have hone := h.reply _ _ hfirst
    rw [← hempty, hboth, h.reply _ _ hsecond] at hone
    cases hone
  · exact h.part _ _ [] hfirst List.nil_prefix hempty

/-- The hash that a client reads of a reply with the answer of the map to its call. -/
theorem Interoperates.reads (h : Interoperates encode decode pack unpack) (numify : Element → ℤ)
    (number : ℕ) {packed : List PackCall} {d : Str → Option Str}
    (hpacks : Packs packed (msgStep d (clients number).msg).2) :
    (∃ unpacked, Unpacks packed unpacked) ∧
      Reads (clientReads numify unpack clients number (pack packed))
        (msgStep d (clients number).msg).2 := by
  have hcmd : (clients number).msg.cmd = (clients number).cmd.code := by
    obtain ⟨cmd, argument⟩ := clients number
    cases argument <;> rfl
  obtain ⟨reply, rfl, hsaid⟩ := hpacks
  obtain ⟨unpacked, hunpacks, hread⟩ := says_unpacks numify (mapStep_answerTo d hcmd) hsaid
  refine ⟨⟨unpacked, hunpacks⟩, ?_⟩
  rw [Reads, clientReads, h.reply _ _ hunpacks, hread]
  rfl

/-- The operations that have taken effect are the calls of their clients. -/
theorem Listening.effects_msg (h : Listening encode pack clients p trace) (htraced : Traced pack p trace)
    {e : Effect ℕ Msg (List PackCall)} (hmem : e ∈ effects trace) : e.op = (clients e.id).msg :=
  h.called e.id e.op (htraced.pointed.called (mem_effects.mp hmem))

/-- The calls are answered as by the map that the operations leave. -/
theorem Listening.legal (hinter : Interoperates encode decode pack unpack)
    (h : Listening encode pack clients p trace) (htraced : Traced pack p trace) :
    Legal callStep Reads (fun _ ↦ none)
        (effects (trace.map (clientNote numify unpack clients pack))) ∧
      (runSpec callStep (fun _ ↦ none) ((effects (trace.map (clientNote numify unpack clients
        pack))).map Effect.op)).1 = mapOf trace := by
  rw [clientNote, effects_map]
  refine Legal.map (fun state e hmem ↦ ?_) htraced.legal
  rw [callStep, ← h.effects_msg htraced hmem]
  refine ⟨rfl, fun hpacks ↦ ?_⟩
  rw [h.effects_msg htraced hmem] at hpacks ⊢
  exact (hinter.reads numify e.id hpacks).2

/-- The reply of a connection is one that the packer was asked for. -/
theorem Listening.sees (hinter : Interoperates encode decode pack unpack)
    (h : Listening encode pack clients p trace) (htraced : Traced pack p trace) {number : ℕ}
    {buffer : List UInt8} (hbuffer : buffer <+: p.connections.serialized number) :
    Sees numify unpack clients (effects (trace.map (clientNote numify unpack clients pack))) number
      (p.connections.serialized number) buffer := by
  rw [clientNote, effects_map]
  by_cases hnone : buffer = []
  · rw [Sees, if_pos (.inl hnone), hnone, clientReads, hinter.unpack_nil]
    rfl
  · obtain ⟨packed, hpacked, hshown⟩ : ∃ packed, p.connections.serialized number = pack packed ∧
        (.ret number packed ∈ trace ∨ Refusal packed ∧ Uncalled trace number) := by
      rcases h.whole number with hempty | hreply
      · rw [hempty, List.prefix_nil] at hbuffer
        exact absurd hbuffer hnone
      · exact hreply
    rw [hpacked] at hbuffer ⊢
    have hpart (hunpacks : ∃ unpacked, Unpacks packed unpacked) (hne : buffer ≠ pack packed) :
        clientReads numify unpack clients number buffer = .ok none := by
      obtain ⟨unpacked, hunpacks⟩ := hunpacks
      rw [clientReads, hinter.part packed unpacked buffer hunpacks hbuffer hne]
      rfl
    rcases hshown with hret | ⟨⟨error, rfl⟩, huncalled⟩
    · obtain ⟨op, hpoint⟩ := htraced.pointed.returned hret
      have hmem := mem_effects.mpr hpoint
      obtain ⟨state, hpacks⟩ := htraced.legal.answered hmem
      rw [h.effects_msg htraced hmem] at hpacks
      by_cases hsame : buffer = pack packed
      · rw [Sees, if_neg (by rw [not_or, not_ne_iff]; exact ⟨hnone, hsame⟩)]
        exact .inl ⟨_, List.mem_map_of_mem hmem, rfl, by rw [hsame]; rfl⟩
      · rw [Sees, if_pos (.inr hsame)]
        exact hpart (hinter.reads numify number hpacks).1 hsame
    · have hunpacks := Unpacks.status .fatal error.value (by cases error <;> decide)
      by_cases hsame : buffer = pack [.array 2, .int ReplyCode.fatal.value, .int error.value]
      · rw [Sees, if_neg (by rw [not_or, not_ne_iff]; exact ⟨hnone, hsame⟩)]
        refine .inr ⟨fun e hmem hid ↦ ?_, error, ?_⟩
        · obtain ⟨e', he', rfl⟩ := List.mem_map.mp hmem
          cases hid
          exact huncalled _ (htraced.pointed.called (mem_effects.mp he'))
        · rw [hsame, Reads, clientReads, hinter.reply _ _ hunpacks]
          exact readReply_fatal numify _ error
      · rw [Sees, if_pos (.inr hsame)]
        exact hpart ⟨_, hunpacks⟩ hsame

end Answers

section Letters

instance (encode : Object → List UInt8) (call : ClientCall) (net : Net) :
    Decidable (Sends encode call net) :=
  decidable_of_iff (net.stream = sendMessage encode call ∧
      ComesWhole (sendMessage encode call).length net.outcomes ∧
      (sendMessage encode call).length ≤ 1023 ∧ ZerosAfterZero call.msg.key.bytes ∧
        ZerosAfterZero call.msg.val.bytes)
    ⟨fun ⟨hstream, hwhole, hshort, hkey, hval⟩ ↦ ⟨hstream, hwhole, hshort, hkey, hval⟩,
      fun h ↦ ⟨h.stream, h.whole, h.short, h.key, h.val⟩⟩

/-- The first client inserts a letter, the others peek for it. -/
def letterClients (number : ℕ) : ClientCall :=
  if number = 0 then ⟨.insert, .pair (.ofByte 0x6b) (.ofByte 0x76)⟩ else ⟨.peek, .key (.ofByte 0x6b)⟩

def plainlySent (p : Process) : ProcessEvent → Bool
  | .accept _ net _ => decide (Sends packObject (letterClients p.connections.count) net)
  | _ => true

theorem clientFits_of_plain {p : Process} {event : ProcessEvent}
    (h : plainFits p event = true ∧ plainlySent p event = true) :
    ClientFits packObject unpackObject .source letterClients p event := by
  have hfits := stepFits_of_plainFits h.1
  cases event with
  | accept request net nonblock => exact ⟨hfits, of_decide_eq_true h.2⟩
  | readable => trivial
  | writable | wait | pop | operate | answer | snapshot | restart => exact hfits

end Letters

end FGDB.Client
