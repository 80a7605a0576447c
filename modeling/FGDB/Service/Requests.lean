import FGDB.Service.Process

/-!
# The requests of the process

What a call of the parser makes of a request and of its message, and what the table of the
requests is to agree with: the transactions, of which each one has a request in service, and
the connections, which have sent only what their requests had to send.
-/

namespace FGDB.Service

open Foundation Memory Queue Server Operations

section Parser

variable {decode : List UInt8 → Option Object} {pack : List PackCall → List UInt8}
  {requests requests' : Requests} {request : ℕ} {queue queue' : TransactionQueue} {msg : Msg}
  {handled : Handled} {req : Req} {net net' : Net} {heap : Memory}

/-- A reply with the error of a request that has not been queued. -/
def Refusal (packed : List PackCall) : Prop :=
  ∃ error : ProtoReplyError, packed = [.array 2, .int ReplyCode.fatal.value, .int error.value]

/-- What a call of the parser makes of the request, and of a message that has come. -/
inductive ReadEnds (pack : List PackCall → List UInt8) (request : ℕ) :
    Option Req → Option Handled → Prop
  | waiting (req : Req) (hbetween : Between [] [] req) (hstate : req.state ≠ .service) :
    ReadEnds pack request (some req) none
  | closed : ReadEnds pack request none none
  | destroyed : ReadEnds pack request none (some .destroyed)
  | queued (t : PushedTransaction) (buf : Buf) (hplaced : Placed buf)
    (hancestor : t.trans.ancestor = some request) (hcmd : ∃ c : Command, t.trans.msg.cmd = c.code) :
    ReadEnds pack request (some ⟨.service, some buf⟩) (some (.queued t))
  | replied (packed : List PackCall) (buf : Buf) (hrefusal : Refusal packed) (hplaced : Placed buf)
    (hcontents : buf.contents = pack packed) :
    ReadEnds pack request (some ⟨.write, some buf⟩) (some (.replied packed))

theorem set_set (requests : Requests) (request : ℕ) (first second : Option Req) :
    (requests.set (some request) first).set (some request) second =
      requests.set (some request) second := by
  rw [Requests.set_some, Requests.set_some, Function.update_idem, Requests.set_some]

theorem destroyRequest_eq_ok (h : destroyRequest requests (some request) = .ok requests') :
    requests' = requests.set (some request) none := by
  rw [destroyRequest, if_neg (Option.some_ne_none request)] at h
  obtain ⟨req, -, h⟩ := bind_eq_ok.mp h
  exact (Except.ok.inj h).symm

theorem destroyRequest_alive (hreq : requests request = some req) :
    destroyRequest requests (some request) = .ok (requests.set (some request) none) := by
  rw [destroyRequest, if_neg (Option.some_ne_none request), Requests.load_eq_ok.mpr hreq, ok_bind]
  rfl

theorem requestReply_eq_ok {reply : ReplyPointer} {packed : List PackCall}
    (h : requestReply heap pack requests (some request) reply = .ok (requests', packed)) :
    ∃ object buf, reply = .object object ∧ packed = serializeReply object ∧
      requests' = requests.set (some request) (some ⟨.write, some buf⟩) ∧ Placed buf ∧
        buf.contents = pack packed := by
  obtain ⟨object, hload, h⟩ := bind_eq_ok.mp h
  obtain ⟨req, -, h⟩ := bind_eq_ok.mp h
  obtain ⟨hrequests, hpacked⟩ := Prod.mk.inj (Except.ok.inj h)
  obtain ⟨hplaced, -, -, hcontents⟩ :=
    placed_push heap (Nat.le_refl (pack (serializeReply object)).length)
  cases reply with
  | object reply =>
    cases hload
    exact ⟨object, _, rfl, hpacked.symm, hrequests.symm, hplaced, hpacked ▸ hcontents⟩
  | null | indeterminate => cases hload

/-- A command has a code, and a byte without one is refused. -/
theorem onRequest_ends {around : Surroundings}
    (h : onRequest around.heap pack around.reply around.granted around.padding (requests, queue)
      request msg = .ok ((requests', queue'), handled)) :
    (∃ t, handled = .queued t ∧ requests' = requests ∧ t.trans.ancestor = some request ∧
      ∃ c : Command, t.trans.msg.cmd = c.code) ∨
    ∃ packed buf, handled = .replied packed ∧ Refusal packed ∧
      requests' = requests.set (some request) (some ⟨.write, some buf⟩) ∧ Placed buf ∧
        buf.contents = pack packed := by
  have hfatal {error : ProtoReplyError}
      (h : replyFatal around.heap pack around.reply (requests, queue) request error =
        .ok ((requests', queue'), handled)) : ∃ packed buf, handled = .replied packed ∧
          Refusal packed ∧ requests' = requests.set (some request) (some ⟨.write, some buf⟩) ∧
            Placed buf ∧ buf.contents = pack packed := by
    obtain ⟨⟨replied, packed⟩, hreply, h⟩ := bind_eq_ok.mp h
    cases h
    obtain ⟨object, buf, hobject, hpacked, hrequests, hplaced, hcontents⟩ := requestReply_eq_ok hreply
    cases hobject
    have hword : Int.bmod error.value (2 ^ 32) = error.value := by
      cases error <;> decide
    refine ⟨packed, buf, rfl, ⟨error, hpacked.trans ?_⟩, hrequests, hplaced, hcontents⟩
    simp only [serializeReply, ProtoReply.setFatal, hword]
  obtain ⟨name, -, h⟩ := bind_eq_ok.mp h
  split at h
  · next hcmd =>
    unfold convertRequest at h
    split at h
    · exact .inr (hfatal h)
    · next transaction hgranted =>
      cases h
      split at hgranted
      · cases hgranted
        refine .inl ⟨_, rfl, rfl, rfl, ?_⟩
        rcases hcmd with hcmd | hcmd | hcmd | hcmd | hcmd
        exacts [⟨_, hcmd⟩, ⟨_, hcmd⟩, ⟨_, hcmd⟩, ⟨_, hcmd⟩, ⟨_, hcmd⟩]
      · cases hgranted
  · exact .inr (hfatal h)

theorem parseMessage_ends {around : Surroundings} {buf : Buf}
    (h : parseMessage decode pack request around requests buf = .ok (requests', handled)) :
    ∃ kept, requests' = requests.set (some request) kept ∧
      ReadEnds pack request kept (some handled) := by
  have hdestroyed {start : Requests} (hstart : ∀ kept, start.set (some request) kept =
      requests.set (some request) kept)
      (h : destroyHandled request start = .ok (requests', handled)) :
      ∃ kept, requests' = requests.set (some request) kept ∧
        ReadEnds pack request kept (some handled) := by
    obtain ⟨destroyed, hdestroy, h⟩ := bind_eq_ok.mp h
    cases h
    exact ⟨none, (destroyRequest_eq_ok hdestroy).trans (hstart none), .destroyed⟩
  unfold parseMessage at h
  split at h
  · obtain ⟨parsed, -, h⟩ := bind_eq_ok.mp h
    split at h
    · exact hdestroyed (fun _ ↦ rfl) h
    · obtain ⟨⟨⟨served, queue⟩, result⟩, hservice, h⟩ := bind_eq_ok.mp h
      cases h
      unfold parseService at hservice
      split at hservice
      · obtain ⟨destroyed, hdestroy, hservice⟩ := bind_eq_ok.mp hservice
        cases hservice
        exact ⟨none, (destroyRequest_eq_ok hdestroy).trans (set_set ..), .destroyed⟩
      · rcases onRequest_ends hservice with ⟨t, rfl, rfl, hancestor, hcmd⟩ |
          ⟨packed, reply, rfl, hrefusal, rfl, hplaced, hcontents⟩
        · exact ⟨_, rfl, .queued t _ (placed_free buf) hancestor hcmd⟩
        · exact ⟨_, set_set .., .replied packed reply hrefusal hplaced hcontents⟩
  · exact hdestroyed (fun _ ↦ rfl) h

theorem init_ne_service : State.init ≠ .service := by decide

theorem read_ne_service : State.read ≠ .service := by decide

theorem write_ne_service : State.write ≠ .service := by decide

/-- A request that waits is not in service. -/
theorem parseRequestOnStack_waiting {stack : Memory} {req' : Req}
    (hstate : req.state = .init ∨ req.state = .read)
    (h : parseRequestOnStack stack heap req net = .ok (.waiting req', net')) :
    req'.state ≠ .service := by
  have hread {buf : Buf} {net : Net}
      (h : parseRead ⟨.read, some buf⟩ net = .ok (.waiting req', net')) : req'.state ≠ .service := by
    unfold parseRead at h
    simp only at h
    repeat' split at h
    all_goals cases h
    all_goals exact read_ne_service
  obtain ⟨state, buf⟩ := req
  rcases hstate with hstate | hstate
  · cases hstate
    simp only [parseRequestOnStack, parseInitOnStack] at h
    split at h
    · cases h
      exact init_ne_service
    · cases h
    · split at h
      · cases h
      · exact hread h
  · cases hstate
    cases buf with
    | none => cases h
    | some buf => exact hread h

theorem readRequest_ends {around : Surroundings} {read : Option Handled} (hbetween : Between [] [] req)
    (hstate : req.state = .init ∨ req.state = .read)
    (h : readRequest decode pack around requests request req net = .ok (requests', net', read)) :
    ∃ kept, requests' = requests.set (some request) kept ∧ ReadEnds pack request kept read := by
  obtain ⟨verdict, rest, hparse, hverdict⟩ :=
    parseRequestOnStack_between hbetween hstate around.stack around.heap net
  rw [readRequest, hparse, ok_bind] at h
  rcases hverdict with ⟨req', rfl, hbetween'⟩ | rfl | ⟨buf, rfl⟩
  · cases h
    exact ⟨some req', rfl, .waiting req' hbetween' (parseRequestOnStack_waiting hstate hparse)⟩
  · obtain ⟨destroyed, hdestroy, h⟩ := bind_eq_ok.mp h
    cases h
    exact ⟨none, destroyRequest_eq_ok hdestroy, .closed⟩
  · simp only [Option.elim_some, ok_bind] at h
    obtain ⟨⟨served, result⟩, hmessage, h⟩ := bind_eq_ok.mp h
    cases h
    exact parseMessage_ends hmessage

end Parser

/-- The requests that the transactions answer. -/
def ancestors (transactions : List PushedTransaction) : List (Option ℕ) :=
  transactions.map fun t ↦ t.trans.ancestor

def InService (requests : Requests) (request : ℕ) : Prop :=
  ∃ req, requests request = some req ∧ req.state = .service

/-- The transactions are those of the requests in service, one for one. -/
structure Attended (requests : Requests) (transactions : List PushedTransaction) : Prop where
  distinct : (ancestors transactions).Nodup
  owned : none ∉ ancestors transactions
  service : ∀ request, some request ∈ ancestors transactions ↔ InService requests request

/-- The requests in the table are numbered apart and agree with what their connections have sent and
are to send. A connection has sent nothing that is not of its reply. -/
structure Peers (requests : Requests) (c : Connections) : Prop where
  between : ∀ request req, requests request = some req →
    Between (c.serialized (c.number request)) (c.accepted (c.number request)) req
  numbered : ∀ request req, requests request = some req → c.number request < c.count
  apart : ∀ request request' req req', requests request = some req →
    requests request' = some req' → c.number request = c.number request' → request = request'
  delivered : ∀ number, c.accepted number <+: c.serialized number
  fresh : ∀ number, c.count ≤ number → c.serialized number = [] ∧ c.accepted number = []

section Kept

variable {P : Req → Prop} {req : Req}

/-- Nothing is asked of a request that is not kept. -/
theorem forall_none : ∀ req', (none : Option Req) = some req' → P req' := by
  intro req' hreq'
  cases hreq'

theorem forall_some (h : P req) : ∀ req', some req = some req' → P req' := by
  intro req' hreq'
  rwa [← Option.some.inj hreq']

end Kept

section Attended

variable {requests : Requests} {transactions transactions' : List PushedTransaction}
  {t : PushedTransaction} {request : ℕ} {kept : Option Req}

theorem inService_set_self :
    InService (requests.set (some request) kept) request ↔ ∃ req, kept = some req ∧
      req.state = .service := by
  rw [InService, Requests.set_self]

theorem inService_set_of_ne {other : ℕ} (hne : other ≠ request) :
    InService (requests.set (some request) kept) other ↔ InService requests other := by
  rw [InService, Requests.set_some, Function.update_of_ne hne, InService]

theorem Attended.perm (h : Attended requests transactions)
    (hperm : transactions.Perm transactions') : Attended requests transactions' := by
  have hancestors : (ancestors transactions).Perm (ancestors transactions') := hperm.map _
  refine ⟨hancestors.nodup h.distinct, fun hnone ↦ ?_, fun request ↦ ?_⟩
  · exact h.owned (hancestors.mem_iff.mpr hnone)
  · rw [← hancestors.mem_iff]
    exact h.service request

/-- Neither before nor after is the request in service. -/
theorem Attended.set (h : Attended requests transactions) (hbefore : ¬ InService requests request)
    (hafter : ∀ req, kept = some req → req.state ≠ .service) :
    Attended (requests.set (some request) kept) transactions := by
  refine ⟨h.distinct, h.owned, fun other ↦ ?_⟩
  rw [h.service]
  by_cases hother : other = request
  · rw [hother, inService_set_self]
    exact iff_of_false hbefore fun ⟨req, hreq, hstate⟩ ↦ hafter req hreq hstate
  · exact (inService_set_of_ne hother).symm

/-- The request goes into service with a transaction. -/
theorem Attended.enqueue (h : Attended requests transactions) (hbefore : ¬ InService requests request)
    (hancestor : t.trans.ancestor = some request) {req : Req} (hstate : req.state = .service) :
    Attended (requests.set (some request) (some req)) (t :: transactions) := by
  have hancestors : ancestors (t :: transactions) = some request :: ancestors transactions := by
    rw [ancestors, List.map_cons, hancestor, ancestors]
  refine ⟨?_, ?_, fun other ↦ ?_⟩
  · rw [hancestors, List.nodup_cons, h.service]
    exact ⟨hbefore, h.distinct⟩
  · rw [hancestors, List.mem_cons, not_or]
    exact ⟨(Option.some_ne_none request).symm, h.owned⟩
  · rw [hancestors, List.mem_cons, Option.some.injEq, h.service]
    by_cases hother : other = request
    · rw [hother, inService_set_self]
      exact iff_of_true (.inl rfl) ⟨req, rfl, hstate⟩
    · rw [inService_set_of_ne hother]
      exact or_iff_right hother

/-- The request leaves the service with its transaction. -/
theorem Attended.dequeue (h : Attended requests (t :: transactions))
    (hancestor : t.trans.ancestor = some request)
    (hafter : ∀ req, kept = some req → req.state ≠ .service) :
    Attended (requests.set (some request) kept) transactions := by
  have hancestors : ancestors (t :: transactions) = some request :: ancestors transactions := by
    rw [ancestors, List.map_cons, hancestor, ancestors]
  have hdistinct := h.distinct
  have howned := h.owned
  rw [hancestors, List.nodup_cons] at hdistinct
  rw [hancestors, List.mem_cons, not_or] at howned
  refine ⟨hdistinct.2, howned.2, fun other ↦ ?_⟩
  have hservice := h.service other
  rw [hancestors, List.mem_cons, Option.some.injEq] at hservice
  by_cases hother : other = request
  · rw [hother, inService_set_self]
    exact iff_of_false hdistinct.1 fun ⟨req, hreq, hstate⟩ ↦ hafter req hreq hstate
  · rw [inService_set_of_ne hother, ← hservice]
    exact (or_iff_right hother).symm

theorem Attended.closed : Attended (fun _ ↦ none) [] := by
  refine ⟨List.nodup_nil, List.not_mem_nil, fun request ↦ iff_of_false List.not_mem_nil ?_⟩
  rintro ⟨req, hreq, -⟩
  cases hreq

/-- The request of a transaction is in the table. -/
theorem Attended.alive (h : Attended requests transactions) (hmem : t ∈ transactions) :
    ∃ request req, t.trans.ancestor = some request ∧ requests request = some req ∧
      req.state = .service := by
  have hancestor : t.trans.ancestor ∈ ancestors transactions := List.mem_map_of_mem hmem
  cases hsome : t.trans.ancestor with
  | none => exact absurd (hsome ▸ hancestor) h.owned
  | some request =>
    obtain ⟨req, hreq, hstate⟩ := (h.service request).mp (hsome ▸ hancestor)
    exact ⟨request, req, rfl, hreq, hstate⟩

end Attended

section Peers

variable {requests : Requests} {c : Connections} {request : ℕ} {req : Req} {kept : Option Req}

/-- What the connection of a request in the table has sent and is to send is noted anew. -/
def Connections.noted (c : Connections) (request : ℕ) (serialized accepted : List UInt8) :
    Connections :=
  { c with
    serialized := Function.update c.serialized (c.number request) serialized
    accepted := Function.update c.accepted (c.number request) accepted }

theorem noted_same (c : Connections) (request : ℕ) : c.noted request
    (c.serialized (c.number request)) (c.accepted (c.number request)) = c := by
  rw [Connections.noted, Function.update_eq_self, Function.update_eq_self]

theorem replied_eq_noted (c : Connections) (request : ℕ) (data : List UInt8) :
    c.replied request data = c.noted request data (c.accepted (c.number request)) := by
  rw [Connections.replied, Connections.noted, Function.update_eq_self]

theorem sent_eq_noted (c : Connections) (request : ℕ) (data : List UInt8) :
    c.sent request data = c.noted request (c.serialized (c.number request))
      (c.accepted (c.number request) ++ data) := by
  rw [Connections.sent, Connections.noted, Function.update_eq_self]

theorem Peers.noted (h : Peers requests c) (hreq : requests request = some req)
    {serialized accepted : List UInt8} (hstarts : accepted <+: serialized)
    (hkept : ∀ req', kept = some req' → Between serialized accepted req') :
    Peers (requests.set (some request) kept) (c.noted request serialized accepted) := by
  have hother {other : ℕ} {req' : Req} (hne : other ≠ request)
      (hreq' : requests.set (some request) kept other = some req') :
      requests other = some req' ∧ c.number other ≠ c.number request := by
    rw [Requests.set_some, Function.update_of_ne hne] at hreq'
    exact ⟨hreq', fun hsame ↦ hne (h.apart other request req' req hreq' hreq hsame)⟩
  have halive {other : ℕ} {req' : Req}
      (hreq' : requests.set (some request) kept other = some req') :
      ∃ req, requests other = some req := by
    by_cases hne : other = request
    · exact ⟨req, hne ▸ hreq⟩
    · exact ⟨req', (hother hne hreq').1⟩
  refine ⟨fun other req' hreq' ↦ ?_, fun other req' hreq' ↦ ?_,
    fun first second req' req'' hfirst hsecond ↦ ?_, fun number ↦ ?_, fun number hnumber ↦ ?_⟩
  · by_cases hne : other = request
    · rw [hne, Requests.set_self] at hreq'
      simp only [Connections.noted, hne, Function.update_self]
      exact hkept req' hreq'
    · obtain ⟨hold, hnumber⟩ := hother hne hreq'
      simp only [Connections.noted, Function.update_of_ne hnumber]
      exact h.between other req' hold
  · obtain ⟨old, hold⟩ := halive hreq'
    exact h.numbered other old hold
  · obtain ⟨old, hold⟩ := halive hfirst
    obtain ⟨old', hold'⟩ := halive hsecond
    exact h.apart first second old old' hold hold'
  · by_cases hnumber : number = c.number request
    · simp only [Connections.noted, hnumber, Function.update_self]
      exact hstarts
    · simp only [Connections.noted, Function.update_of_ne hnumber]
      exact h.delivered number
  · have hne : number ≠ c.number request := by
      have hlt := h.numbered request req hreq
      have hcount : c.count ≤ number := hnumber
      omega
    simp only [Connections.noted, Function.update_of_ne hne]
    exact h.fresh number hnumber

/-- The request is kept in another way, and the network has seen nothing of it. -/
theorem Peers.set (h : Peers requests c) (hreq : requests request = some req)
    (hkept : ∀ req', kept = some req' →
      Between (c.serialized (c.number request)) (c.accepted (c.number request)) req') :
    Peers (requests.set (some request) kept) c :=
  noted_same c request ▸ h.noted hreq (h.delivered _) hkept

theorem Peers.replied (h : Peers requests c) (hreq : requests request = some req)
    (hstate : req.state ≠ .write) {buf : Buf} (hplaced : Placed buf) :
    Peers (requests.set (some request) (some ⟨.write, some buf⟩))
      (c.replied request buf.contents) := by
  have hnone := ((h.between request req hreq).nothing hstate).2
  rw [replied_eq_noted, hnone]
  exact h.noted hreq List.nil_prefix (forall_some (.writing buf hplaced rfl))

theorem Peers.sent (h : Peers requests c) (hreq : requests request = some req) {data : List UInt8}
    (hstarts : c.accepted (c.number request) ++ data <+: c.serialized (c.number request))
    (hkept : ∀ req', kept = some req' → Between (c.serialized (c.number request))
      (c.accepted (c.number request) ++ data) req') :
    Peers (requests.set (some request) kept) (c.sent request data) := by
  rw [sent_eq_noted]
  exact h.noted hreq hstarts hkept

theorem Peers.add (h : Peers requests c) (request : ℕ) :
    Peers (requests.set (some request) (some initRequest)) (c.add request) := by
  have hold {other : ℕ} {req' : Req} (hne : other ≠ request)
      (hreq' : requests.set (some request) (some initRequest) other = some req') :
      requests other = some req' ∧ (c.add request).number other = c.number other := by
    rw [Requests.set_some, Function.update_of_ne hne] at hreq'
    exact ⟨hreq', Function.update_of_ne hne ..⟩
  have hnew : (c.add request).number request = c.count := Function.update_self ..
  have hlt {other : ℕ} {req' : Req} (hne : other ≠ request)
      (hreq' : requests.set (some request) (some initRequest) other = some req') :
      (c.add request).number other < c.count := by
    obtain ⟨hother, hnumber⟩ := hold hne hreq'
    exact hnumber ▸ h.numbered other req' hother
  refine ⟨fun other req' hreq' ↦ ?_, fun other req' hreq' ↦ ?_,
    fun first second req' req'' hfirst hsecond hsame ↦ ?_, h.delivered, fun number hnumber ↦ ?_⟩
  · by_cases hne : other = request
    · rw [hne, Requests.set_self] at hreq'
      rw [hne, hnew, ← Option.some.inj hreq']
      exact .init (h.fresh c.count le_rfl)
    · obtain ⟨hother, hnumber⟩ := hold hne hreq'
      rw [hnumber]
      exact h.between other req' hother
  · by_cases hne : other = request
    · rw [hne, hnew]
      exact Nat.lt_succ_self _
    · exact (hlt hne hreq').trans (Nat.lt_succ_self _)
  · by_cases hne : first = request
    · by_cases hne' : second = request
      · rw [hne, hne']
      · rw [hne, hnew] at hsame
        exact absurd hsame (hlt hne' hsecond).ne'
    · by_cases hne' : second = request
      · rw [hne', hnew] at hsame
        exact absurd hsame (hlt hne hfirst).ne
      · obtain ⟨hfirst', hnumber⟩ := hold hne hfirst
        obtain ⟨hsecond', hnumber'⟩ := hold hne' hsecond
        rw [hnumber, hnumber'] at hsame
        exact h.apart first second req' req'' hfirst' hsecond' hsame
  · exact h.fresh number ((Nat.le_succ _).trans hnumber)

theorem Peers.closed (h : Peers requests c) : Peers (fun _ ↦ none) c where
  between _ _ hreq := by cases hreq
  numbered _ _ hreq := by cases hreq
  apart _ _ _ _ hreq := by cases hreq
  delivered := h.delivered
  fresh := h.fresh

end Peers

end FGDB.Service
