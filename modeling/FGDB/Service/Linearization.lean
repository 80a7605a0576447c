import FGDB.Service.Ownership

/-!
# The process is linearizable

However the event loop, the worker and the signals take turns, the process serves its
connections as one finite map would that runs their operations one after another, in the
order in which the worker runs them. Snapshots and restarts do not show: what was
answered before a restart is there afterwards. Excluded are the steps at which the process
is known to go wrong: UPDATE, SELECT of a key that is there, values and pages that do not
fit, and messages that the parser does not understand.
-/

namespace FGDB.Service

open Foundation Memory HashMap Pages Queue Server Wal Operations Restart
open FGDB.Vector (Growth)

/-- The finite map on the messages alone. -/
def msgStep (d : Str → Option Str) (msg : Msg) : (Str → Option Str) × Answer :=
  mapStep d ⟨⟨none, msg⟩, ⟨.ok, 0, .empty⟩⟩

theorem msgStep_eq (d : Str → Option Str) (call : OperationCall) :
    msgStep d call.trans.msg = mapStep d call := rfl

/-- The packer has got a reply with the answer. -/
def Packs (packed : List PackCall) (answer : Answer) : Prop :=
  ∃ reply, packed = serializeReply reply ∧ Says reply answer

/-- What a connection has got belongs to the answer of its operation, or to the refusal of a message
that was never queued. -/
def Shown (pack : List PackCall → List UInt8) (trace : List Note) (number : ℕ) (bytes : List UInt8) :
    Prop :=
  bytes = [] ∨ ∃ packed, bytes <+: pack packed ∧
    (.ret number packed ∈ trace ∨ Refusal packed ∧ Uncalled trace number)

/-- The sockets become nonblocking, messages are understood, an operation has an answer and fits, and
so do the dirty pages of a snapshot and the files of a restart. No snapshot is taken while a reply
borrows from a page. -/
def StepFits (decode : List UInt8 → Option Object) (growth : Growth) (p : Process) :
    ProcessEvent → Prop
  | .accept _ _ nonblock => nonblock = true
  | .readable request around => ∀ req buf net, p.requests request = some req →
    parseRequestOnStack around.stack around.heap req (p.nets request) =
      .ok (.parsing ⟨.parse, some buf⟩, net) → Understood decode buf.contents
  | .operate reply => ∀ t, p.worker = .working t → t.trans.msg.cmd ≠ Command.update.code ∧
    EventFits growth p.db (.operation ⟨t.trans, reply⟩) ∧
      (t.trans.msg.cmd = Command.select.code → ¬ Present hashmapCalls p.db t.trans.msg.key)
  | .snapshot _ => EventFits growth p.db .snapshot ∧ p.worker.borrows = false
  | .restart memory => EventFits growth p.db (.restart memory)
  | .writable _ _ | .wait | .pop | .answer _ => True

/-- No step faults. The operations of all connections, each taking effect between its call and its
return, are answered as by one finite map; at the end the pages have what is in this map, and a
connection has got only what the answer to it starts with. -/
def ServesLinearizably (decode : List UInt8 → Option Object) (pack : List PackCall → List UInt8)
    (growth : Growth) (start : Process) (events : List ProcessEvent) : Prop :=
  ∃ p notes, run (processStep decode pack growth) start events = .ok (p, notes) ∧
    ∃ order : List (Effect ℕ Msg (List PackCall)),
      Linearizes msgStep Packs (fun _ ↦ none) order (history (notes.filterMap id)) ∧
      (∀ key, storedValue hashmapCalls p.db key =
        (runSpec msgStep (fun _ ↦ none) (order.map Effect.op)).1 key) ∧
      ∀ number, Shown pack (notes.filterMap id) number (p.connections.accepted number)

/-- The transactions whose operation has not been run. -/
def WorkerState.pending : WorkerState → List PushedTransaction
  | working t => [t]
  | waiting | woken | replying _ _ => []

def Process.pending (p : Process) : List PushedTransaction := p.queue.queued ++ p.worker.pending

/-- The transaction has been called with a command and has not taken effect. -/
def Pending (c : Connections) (trace : List Note) (t : PushedTransaction) : Prop :=
  ∃ request, ∃ cmd : Command, t.trans.ancestor = some request ∧ t.trans.msg.cmd = cmd.code ∧
    .call (c.number request) t.trans.msg ∈ trace ∧ Unpointed trace (c.number request)

/-- A request that is read has no operation. -/
def Reading (requests : Requests) (c : Connections) (trace : List Note) : Prop :=
  ∀ request req, requests request = some req → req.state = .init ∨ req.state = .read →
    Uncalled trace (c.number request)

/-- What a worker replies is what the operation had as its result, and it is replied once. -/
def Replying (c : Connections) (trace : List Note) (worker : WorkerState) : Prop :=
  ∀ t reply, worker = .replying t reply → ∃ request object, t.trans.ancestor = some request ∧
    reply = .object object ∧
      .point (c.number request) t.trans.msg (serializeReply object) ∈ trace ∧
        Unreturned trace (c.number request)

/-- The map after the operations that have taken effect. -/
def mapOf (trace : List Note) : Str → Option Str :=
  (runSpec msgStep (fun _ ↦ none) ((effects trace).map Effect.op)).1

/-- What has been noted fits the state of the process. -/
structure Traced (pack : List PackCall → List UInt8) (p : Process) (trace : List Note) : Prop where
  pointed : Pointed trace
  legal : Legal msgStep Packs (fun _ ↦ none) (effects trace)
  carries : Carries p.db (mapOf trace)
  fresh : ∀ number, p.connections.count ≤ number → Uncalled trace number
  reading : Reading p.requests p.connections trace
  pending : ∀ t ∈ p.pending, Pending p.connections trace t
  replying : Replying p.connections trace p.worker
  shown : ∀ number, Shown pack trace number (p.connections.serialized number)

section Concat

variable {pack : List PackCall → List UInt8} {requests : Requests} {c : Connections} {trace : List Note}
  {last : Note} {worker : WorkerState} {t : PushedTransaction} {request : ℕ} {kept : Option Req}

theorem Shown.concat {number : ℕ} {bytes : List UInt8} (h : Shown pack trace number bytes)
    (hlast : ∀ op, .call number op ≠ last) : Shown pack (trace ++ [last]) number bytes := by
  rcases h with hnone | ⟨packed, hstarts, hret | ⟨hrefusal, huncalled⟩⟩
  · exact .inl hnone
  · exact .inr ⟨packed, hstarts, .inl (List.mem_append_left _ hret)⟩
  · exact .inr ⟨packed, hstarts, .inr ⟨hrefusal, huncalled.concat hlast⟩⟩

theorem Shown.take {number : ℕ} {bytes less : List UInt8} (h : Shown pack trace number bytes)
    (hstarts : less <+: bytes) : Shown pack trace number less := by
  rcases h with rfl | ⟨packed, hpacked, hshown⟩
  · exact .inl (List.prefix_nil.mp hstarts)
  · exact .inr ⟨packed, hstarts.trans hpacked, hshown⟩

theorem Pending.concat (h : Pending c trace t)
    (hlast : ∀ request op result, t.trans.ancestor = some request →
      .point (c.number request) op result ≠ last) : Pending c (trace ++ [last]) t := by
  obtain ⟨request, cmd, hancestor, hcmd, hcall, hunpointed⟩ := h
  exact ⟨request, cmd, hancestor, hcmd, List.mem_append_left _ hcall,
    hunpointed.concat fun op result ↦ hlast request op result hancestor⟩

theorem Replying.concat (h : Replying c trace worker) (hlast : ∀ number result, .ret number result ≠ last) :
    Replying c (trace ++ [last]) worker := by
  intro t reply hworker
  obtain ⟨request, object, hancestor, hobject, hpoint, hunreturned⟩ := h t reply hworker
  exact ⟨request, object, hancestor, hobject, List.mem_append_left _ hpoint,
    hunreturned.concat fun result ↦ hlast _ result⟩

/-- A request that is kept is not read, or nothing has been called for it. -/
theorem Reading.set (h : Reading requests c trace) (hkept : ∀ req, kept = some req →
    req.state = .init ∨ req.state = .read → Uncalled trace (c.number request)) :
    Reading (requests.set (some request) kept) c trace := by
  intro other req hreq hstate
  by_cases hother : other = request
  · rw [hother, Requests.set_self] at hreq
    exact hother ▸ hkept req hreq hstate
  · rw [Requests.set_some, Function.update_of_ne hother] at hreq
    exact h other req hreq hstate

theorem Reading.removed (h : Reading requests c trace) :
    Reading (requests.set (some request) none) c trace := h.set forall_none

/-- Nothing is read, queued or replied to after a restart. -/
theorem Reading.closed : Reading (fun _ ↦ none) c trace := by
  intro request req hreq
  cases hreq

theorem Replying.waiting : Replying c trace .waiting := by
  intro t reply hworker
  cases hworker

theorem Replying.woken : Replying c trace .woken := by
  intro t reply hworker
  cases hworker

theorem Replying.working : Replying c trace (.working t) := by
  intro u reply hworker
  cases hworker

theorem write_not_read {buf : Option Buf} :
    ¬ ((Req.mk .write buf).state = .init ∨ (Req.mk .write buf).state = .read) := by
  rintro (hinit | hread)
  · cases hinit
  · cases hread

theorem service_not_read {buf : Option Buf} :
    ¬ ((Req.mk .service buf).state = .init ∨ (Req.mk .service buf).state = .read) := by
  rintro (hinit | hread)
  · cases hinit
  · cases hread

/-- An operation is called for a request that is not read any more. -/
theorem Reading.called (h : Reading requests c trace) (hpeers : Peers requests c) {req : Req}
    (hreq : requests request = some req)
    (hkept : ∀ req, kept = some req → ¬ (req.state = .init ∨ req.state = .read)) (msg : Msg) :
    Reading (requests.set (some request) kept) c (trace ++ [.call (c.number request) msg]) := by
  intro other req' hother hread
  by_cases hsame : other = request
  · rw [hsame, Requests.set_self] at hother
    exact absurd hread (hkept req' hother)
  · rw [Requests.set_some, Function.update_of_ne hsame] at hother
    refine (h other req' hother hread).concat fun op ↦ TraceEvent.call_ne_call (fun hnumber ↦ ?_) msg
    exact hsame (hpeers.apart other request req' req hother hreq hnumber)

end Concat

section Moves

variable {decode : List UInt8 → Option Object} {pack : List PackCall → List UInt8} {growth : Growth}
  {p p' : Process} {note : Option Note} {trace : List Note}

/-- Transactions that are pending wait for the worker or are in its hands. -/
theorem pending_subset (p : Process) : p.pending ⊆ p.queue.queued ++ p.worker.held := by
  intro t hmem
  rcases List.mem_append.mp hmem with hqueued | hpending
  · exact List.mem_append_left _ hqueued
  · apply List.mem_append_right
    cases hworker : p.worker with
    | working t => rwa [hworker] at hpending
    | waiting | woken | replying =>
      rw [hworker] at hpending
      cases hpending

/-- A connection is accepted: its number is new, and the others keep theirs. -/
theorem Traced.accepted (h : Traced pack p trace) (howned : Owned p) {request : ℕ} (net : Net)
    (hfree : p.requests request = none) :
    Traced pack { p with
      requests := p.requests.set (some request) (some initRequest)
      nets := Function.update p.nets request net
      connections := p.connections.add request } trace := by
  have hkept {other : ℕ} {req : Req} (hreq : p.requests other = some req) :
      (p.connections.add request).number other = p.connections.number other := by
    apply Function.update_of_ne
    rintro rfl
    cases hfree.symm.trans hreq
  have hancestor {t : PushedTransaction} (hmem : t ∈ p.queue.queued ++ p.worker.held) {other : ℕ}
      (hother : t.trans.ancestor = some other) :
      (p.connections.add request).number other = p.connections.number other := by
    obtain ⟨alive, req, halive, hreq, -⟩ := howned.attended.alive hmem
    cases halive.symm.trans hother
    exact hkept hreq
  refine ⟨h.pointed, h.legal, h.carries, fun number hnumber ↦ ?_, fun other req hreq hstate ↦ ?_,
    fun t hmem ↦ ?_, fun t reply hworker ↦ ?_, h.shown⟩
  · exact h.fresh number ((Nat.le_succ _).trans hnumber)
  · by_cases hother : other = request
    · have hnew : (p.connections.add request).number other = p.connections.count := by
        rw [hother]
        exact Function.update_self ..
      exact hnew ▸ h.fresh _ le_rfl
    · have hold : p.requests other = some req := by
        have hset : p.requests.set (some request) (some initRequest) other = some req := hreq
        rwa [Requests.set_some, Function.update_of_ne hother] at hset
      exact (hkept hold).symm ▸ h.reading other req hold hstate
  · obtain ⟨other, cmd, hother, hcmd, hcall, hunpointed⟩ := h.pending t hmem
    have hsame := hancestor (pending_subset p hmem) hother
    exact ⟨other, cmd, hother, hcmd, hsame.symm ▸ hcall, hsame.symm ▸ hunpointed⟩
  · obtain ⟨other, object, hother, rfl, hpoint, hunreturned⟩ := h.replying t reply hworker
    have hworker' : p.worker = .replying t (.object object) := hworker
    have hmem : t ∈ p.queue.queued ++ p.worker.held := by
      rw [hworker']
      exact List.mem_append_right _ List.mem_cons_self
    have hsame := hancestor hmem hother
    exact ⟨other, object, hother, rfl, hsame.symm ▸ hpoint, hsame.symm ▸ hunreturned⟩

/-- A request is read: it waits or is gone, its message is queued and the operation called, or it is
refused. -/
theorem Traced.read (h : Traced pack p trace) (howned : Owned p) {request : ℕ} {req : Req}
    {nets : ℕ → Net} {kept : Option Req} {handled : Option Handled}
    (hreq : p.requests request = some req) (hstate : req.state = .init ∨ req.state = .read)
    (hends : ReadEnds pack request kept handled) :
    Traced pack
      (Process.handle pack { p with requests := p.requests.set (some request) kept, nets := nets }
        request handled).1
      (trace ++ (Process.handle pack
        { p with requests := p.requests.set (some request) kept, nets := nets } request
          handled).2.toList) := by
  have huncalled := h.reading request req hreq hstate
  have hnothing := (howned.peers.reading hreq hstate).1
  cases hends with
  | waiting req' hbetween hstate' =>
    rw [Process.handle, Option.toList_none, List.append_nil]
    exact ⟨h.pointed, h.legal, h.carries, h.fresh, h.reading.set fun _ _ _ ↦ huncalled, h.pending,
      h.replying, h.shown⟩
  | closed | destroyed =>
    rw [Process.handle, Option.toList_none, List.append_nil]
    exact ⟨h.pointed, h.legal, h.carries, h.fresh, h.reading.removed, h.pending, h.replying, h.shown⟩
  | replied packed buf hrefusal hplaced hcontents =>
    rw [Process.handle, Option.toList_none, List.append_nil]
    refine ⟨h.pointed, h.legal, h.carries, h.fresh, h.reading.set fun _ _ _ ↦ huncalled, h.pending,
      h.replying, fun number ↦ ?_⟩
    simp only [Connections.replied]
    by_cases hnumber : number = p.connections.number request
    · rw [hnumber, Function.update_self]
      exact .inr ⟨packed, List.prefix_refl _, .inr ⟨hrefusal, huncalled⟩⟩
    · rw [Function.update_of_ne hnumber]
      exact h.shown number
  | queued t buf hplaced hancestor hcmd =>
    obtain ⟨cmd, hcmd⟩ := hcmd
    simp only [Process.handle, Option.toList_some, handledQueue]
    refine ⟨.call h.pointed huncalled, ?_, ?_, fun number hnumber ↦ ?_,
      h.reading.called howned.peers hreq (forall_some service_not_read) _, fun u hmem ↦ ?_,
      h.replying.concat fun _ _ ↦ TraceEvent.ret_ne_call, fun number ↦ ?_⟩
    · rw [effects_call]
      exact h.legal
    · rw [mapOf, effects_call]
      exact h.carries
    · have hlt := (howned.peers.numbered request req hreq).trans_le hnumber
      exact (h.fresh number hnumber).concat fun _ ↦ TraceEvent.call_ne_call hlt.ne' _
    · have hperm : (pushQueue p.queue t).queued.Perm (p.queue.queued ++ [t]) :=
        (pushQueue_spec howned.heap t).2
      have hold (hmem : u ∈ p.pending) : Pending p.connections
          (trace ++ [.call (p.connections.number request) t.trans.msg]) u :=
        (h.pending u hmem).concat fun _ _ _ _ ↦ TraceEvent.point_ne_call _
      rcases List.mem_append.mp hmem with hqueued | hpending
      · rcases List.mem_append.mp (hperm.mem_iff.mp hqueued) with hqueued | hnew
        · exact hold (List.mem_append_left _ hqueued)
        · rw [List.mem_singleton.mp hnew]
          exact ⟨request, cmd, hancestor, hcmd, List.mem_append_right _ List.mem_cons_self,
            (h.pointed.unpointed huncalled).concat fun _ _ ↦ TraceEvent.point_ne_call _⟩
      · exact hold (List.mem_append_right _ hpending)
    · by_cases hnumber : number = p.connections.number request
      · exact .inl (hnumber ▸ hnothing.1)
      · exact (h.shown number).concat fun _ ↦ TraceEvent.call_ne_call hnumber _

/-- The operation of the transaction in the hands of the worker takes effect. -/
theorem Traced.operated (h : Traced pack p trace) (howned : Owned p) {t : PushedTransaction}
    {request : ℕ} {db : Database (VoidPtr ℕ)} {reply : ProtoReply} (hworker : p.worker = .working t)
    (hancestor : t.trans.ancestor = some request)
    (hcarries : Carries db (msgStep (mapOf trace) t.trans.msg).1)
    (hsaid : Says reply (msgStep (mapOf trace) t.trans.msg).2) :
    Traced pack { p with db := db, worker := .replying t (.object reply) }
      (trace ++ [.point (p.connections.number request) t.trans.msg (serializeReply reply)]) := by
  have hmem : t ∈ p.pending := by
    rw [Process.pending, hworker]
    exact List.mem_append_right _ List.mem_cons_self
  have hattended := howned.attended.perm List.perm_append_comm
  rw [hworker] at hattended
  obtain ⟨request', req, hancestor', hreq, -⟩ := hattended.alive List.mem_cons_self
  cases hancestor.symm.trans hancestor'
  obtain ⟨request', cmd, hancestor', -, hcall, hunpointed⟩ := h.pending t hmem
  cases hancestor.symm.trans hancestor'
  refine ⟨.point h.pointed hcall hunpointed, ?_, ?_, fun number hnumber ↦ ?_,
    fun other req' hother hread ↦ ?_, fun u hqueued ↦ ?_, fun u object hreplying ↦ ?_, fun number ↦ ?_⟩
  · rw [effects_point]
    exact h.legal.concat ⟨reply, rfl, hsaid⟩
  · rw [mapOf, effects_point, List.map_append, List.map_singleton, runSpec_concat]
    exact hcarries
  · exact (h.fresh number hnumber).concat TraceEvent.call_ne_point
  · exact (h.reading other req' hother hread).concat TraceEvent.call_ne_point
  · have hqueued : u ∈ p.queue.queued := (List.append_nil p.queue.queued) ▸ hqueued
    refine (h.pending u (List.mem_append_left _ hqueued)).concat fun other op result hother heq ↦ ?_
    have hqueued' := List.mem_cons_of_mem t hqueued
    obtain ⟨request', req', hrequest, hreq', -⟩ := hattended.alive hqueued'
    cases hother.symm.trans hrequest
    have hsame : other = request :=
      howned.peers.apart other request req' req hreq' hreq (TraceEvent.point.inj heq).1
    apply (List.nodup_cons.mp hattended.distinct).1
    exact List.mem_map.mpr ⟨u, hqueued, hother.trans (hsame ▸ hancestor.symm)⟩
  · cases hreplying
    exact ⟨request, reply, hancestor, rfl, List.mem_append_right _ List.mem_cons_self,
      (h.pointed.unreturned hunpointed).concat fun _ ↦ TraceEvent.ret_ne_point⟩
  · exact (h.shown number).concat TraceEvent.call_ne_point

/-- The worker replies to its request. -/
theorem Traced.answered (h : Traced pack p trace) {t : PushedTransaction} {request : ℕ}
    {reply : ProtoReply} {buf : Buf} (hworker : p.worker = .replying t (.object reply))
    (hancestor : t.trans.ancestor = some request) :
    Traced pack { p with
      requests := p.requests.set (some request) (some ⟨.write, some buf⟩)
      worker := .waiting
      connections := p.connections.replied request (pack (serializeReply reply)) }
      (trace ++ [.ret (p.connections.number request) (serializeReply reply)]) := by
  obtain ⟨request', object, hancestor', hobject, hpoint, hunreturned⟩ := h.replying t _ hworker
  cases hancestor.symm.trans hancestor'
  cases hobject
  refine ⟨.ret h.pointed hpoint hunreturned, ?_, ?_, fun number hnumber ↦ ?_,
    Reading.set (fun other req hreq hstate ↦ ?_)
      (forall_some fun hread ↦ absurd hread write_not_read),
    fun u hmem ↦ ?_, .waiting, fun number ↦ ?_⟩
  · rw [effects_ret]
    exact h.legal
  · rw [mapOf, effects_ret]
    exact h.carries
  · exact (h.fresh number hnumber).concat fun _ ↦ TraceEvent.call_ne_ret
  · exact (h.reading other req hreq hstate).concat fun _ ↦ TraceEvent.call_ne_ret
  · have hqueued : u ∈ p.queue.queued := (List.append_nil p.queue.queued) ▸ hmem
    exact (h.pending u (List.mem_append_left _ hqueued)).concat fun _ _ _ _ ↦ TraceEvent.point_ne_ret
  · simp only [Connections.replied]
    by_cases hnumber : number = p.connections.number request
    · rw [hnumber, Function.update_self]
      exact .inr ⟨_, List.prefix_refl _, .inl (List.mem_append_right _ List.mem_cons_self)⟩
    · rw [Function.update_of_ne hnumber]
      exact (h.shown number).concat fun _ ↦ TraceEvent.call_ne_ret

theorem moved_of_not_borrows {worker : WorkerState} (h : worker.borrows = false) (memory : Memory) :
    worker.moved memory = worker := by
  cases worker with
  | waiting | woken | working => rfl
  | replying t reply =>
    cases reply with
    | null | indeterminate => rfl
    | object reply =>
      unfold WorkerState.moved
      simp only [h]
      rfl

/-- A step that leaves the database alone. -/
theorem Quiet.traced (hquiet : Quiet pack p p' note) (howned : Owned p) (h : Traced pack p trace) :
    Traced pack p' (trace ++ note.toList) := by
  cases hquiet with
  | idle =>
    rw [Option.toList_none, List.append_nil]
    exact h
  | accepted request net hfree =>
    rw [Option.toList_none, List.append_nil]
    exact h.accepted howned net hfree
  | read request req nets kept handled hreq hstate hends => exact h.read howned hreq hstate hends
  | finished request buf hreq =>
    rw [Option.toList_none, List.append_nil]
    exact ⟨h.pointed, h.legal, h.carries, h.fresh, h.reading.removed, h.pending, h.replying, h.shown⟩
  | written request buf buf' data hreq hplaced hdata =>
    rw [Option.toList_none, List.append_nil]
    exact ⟨h.pointed, h.legal, h.carries, h.fresh,
      h.reading.set (forall_some fun hread ↦ absurd hread write_not_read), h.pending, h.replying,
      h.shown⟩
  | woken queue hworker hwait =>
    obtain ⟨hh, -⟩ := SharedQueue.semWait_eq_ok hwait
    have hqueued : queue.queued = p.queue.queued := by
      rw [TransactionQueue.queued, hh, TransactionQueue.queued]
    have hpending := h.pending
    rw [Process.pending, hworker, ← hqueued] at hpending
    rw [Option.toList_none, List.append_nil]
    exact ⟨h.pointed, h.legal, h.carries, h.fresh, h.reading, hpending, .woken, h.shown⟩
  | popped queue t hworker hpop =>
    obtain ⟨-, -, hpopped⟩ := popLocked_spec howned.heap hpop
    have hpending := h.pending
    rw [Process.pending, hworker] at hpending
    cases hpopped with
    | taken t hperm hmin =>
      rw [Option.toList_none, List.append_nil]
      refine ⟨h.pointed, h.legal, h.carries, h.fresh, h.reading, fun u hmem ↦ ?_, .working, h.shown⟩
      have hqueued : (queue.queued ++ [t]).Perm p.queue.queued :=
        (List.perm_append_singleton t _).trans hperm
      exact hpending u (List.mem_append_left _ (hqueued.mem_iff.mp hmem))
  | answered t request reply buf hworker hancestor hplaced hcontents =>
    exact h.answered hworker hancestor

/-- The operation of a transaction that fits has its answer. -/
theorem operate_traced (howned : Owned p) (h : Traced pack p trace) {block : ProtoReply}
    (hfits : StepFits decode growth p (.operate block)) :
    ∃ p' note, p.operate growth block = .ok (p', note) ∧ Owned p' ∧
      Traced pack p' (trace ++ note.toList) := by
  cases hworker : p.worker with
  | waiting | woken | replying =>
    refine ⟨p, none, ?_, howned, ?_⟩
    · simp only [Process.operate, hworker]
    · rw [Option.toList_none, List.append_nil]
      exact h
  | working t =>
    obtain ⟨hupdate, hevent, hselect⟩ := hfits t hworker
    have hmem : t ∈ p.pending := by
      rw [Process.pending, hworker]
      exact List.mem_append_right _ List.mem_cons_self
    obtain ⟨request, cmd, hancestor, hcmd, -⟩ := h.pending t hmem
    have hrequest : IsRequest ⟨t.trans, block⟩ := isRequest_of_command hancestor hcmd hupdate
    obtain ⟨db, hoperation, hcarries⟩ := operation_carries h.carries hrequest hevent
    obtain ⟨⟨db', result⟩, hstep, hdb⟩ := bind_eq_ok.mp hoperation
    cases hdb
    obtain ⟨pointers, hholds, hlasts⟩ := h.carries
    have hserves : Serves MapHolds p.db (mapOf trace) := by
      obtain ⟨pointers', hsame, hbound⟩ := hlasts.serves.index
      obtain rfl : pointers = pointers' := hsame
      exact ⟨hlasts.serves.valid, pointers, hholds, hbound⟩
    obtain ⟨db', result', hstep', -, hanswers⟩ :=
      operationStep_ends hashmapCalls_lawful hserves hrequest hevent.1
    cases hstep.symm.trans hstep'
    obtain ⟨reply, rfl, hsaid⟩ := hanswers hselect
    have hguarded : Guarded decode pack p := howned.guarded
    obtain ⟨req, hload⟩ := hguarded.operate t hworker
    have hrun : p.operate growth block = .ok ({ p with db := db, worker := .replying t (.object reply) },
        some (.point (p.connections.number request) t.trans.msg (serializeReply reply))) := by
      rw [hancestor] at hload
      simp only [Process.operate, hworker, workerOperation, hancestor, hload, ok_bind, if_neg hupdate,
        hstep, pure_eq_ok, Option.elim_some, Process.effectOf, Option.map_some]
    have hmove : Moves pack growth p _ _ := operate_moves howned hrun
    refine ⟨_, _, hrun, hmove.owned howned, ?_⟩
    exact h.operated howned hworker hancestor hcarries hsaid

/-- Every step that fits succeeds, and what has been noted goes on to fit. -/
theorem processStep_traced {event : ProcessEvent} (howned : Owned p) (h : Traced pack p trace)
    (hfits : StepFits decode growth p event) :
    ∃ p' note, processStep decode pack growth p event = .ok (p', note) ∧ Owned p' ∧
      Traced pack p' (trace ++ note.toList) := by
  have hquiet {p' : Process} {note : Option Note} (hq : Quiet pack p p' note) :
      Owned p' ∧ Traced pack p' (trace ++ note.toList) := ⟨hq.owned howned, hq.traced howned h⟩
  have hguarded : Guarded decode pack p := howned.guarded
  cases event with
  | accept request net nonblock =>
    obtain ⟨p', haccept⟩ : ∃ p', p.accept request net nonblock = .ok p' := by
      have hnonblock : nonblock = true := hfits
      rw [Process.accept, if_pos hnonblock]
      split <;> exact ⟨_, rfl⟩
    refine ⟨p', none, ?_, hquiet (accept_quiet haccept)⟩
    rw [processStep, haccept]
    rfl
  | readable request around =>
    have hok : ∃ result, p.readable decode pack request around = .ok result := by
      cases hstep : p.readable decode pack request around with
      | ok result => exact ⟨result, rfl⟩
      | error fault =>
        obtain ⟨req, buf, net', hreq, hparse, hmisread⟩ :=
          howned.readable_failsOnly request around fault hstep
        exact absurd (hfits req buf net' hreq hparse) hmisread.1
    obtain ⟨⟨p', note⟩, hstep⟩ := hok
    exact ⟨p', note, hstep, hquiet (readable_quiet howned hstep)⟩
  | writable request outcome =>
    obtain ⟨p', hwrite⟩ := hguarded.writable request outcome
    refine ⟨p', none, ?_, hquiet (writable_quiet howned hwrite)⟩
    rw [processStep, hwrite]
    rfl
  | wait => exact ⟨p.wait, none, rfl, hquiet (wait_quiet p)⟩
  | pop =>
    obtain ⟨p', hpop⟩ := hguarded.pop
    refine ⟨p', none, ?_, hquiet (pop_quiet hpop)⟩
    rw [processStep, hpop]
    rfl
  | operate block => exact operate_traced howned h hfits
  | answer heap =>
    rcases hguarded.answer heap with ⟨⟨p', note⟩, hanswer⟩ | ⟨t, reply, hworker, hnone⟩
    · exact ⟨p', note, hanswer, hquiet (answer_quiet howned hanswer)⟩
    · obtain ⟨-, object, -, hobject, -⟩ := h.replying t reply hworker
      exact absurd hobject (hnone object)
  | snapshot moved =>
    obtain ⟨db, hsession, hcarries⟩ := snapshot_carries h.carries hfits.1
    obtain ⟨s, hsnapshot, hdb⟩ := bind_eq_ok.mp hsession
    cases hdb
    have hstep : processStep decode pack growth p (.snapshot moved) =
        .ok ({ p with db := { p.db with storage := s }, worker := p.worker.moved moved }, none) := by
      rw [processStep, Process.takeSnapshot, hsnapshot]
      rfl
    refine ⟨_, none, hstep, (processStep_moves howned hstep).owned howned, ?_⟩
    rw [moved_of_not_borrows hfits.2, Option.toList_none, List.append_nil]
    exact ⟨h.pointed, h.legal, hcarries, h.fresh, h.reading, h.pending, h.replying, h.shown⟩
  | restart memory =>
    obtain ⟨db, hsession, hcarries⟩ := restart_carries h.carries hfits
    obtain ⟨db', hrestart, hdb⟩ := bind_eq_ok.mp hsession
    cases hdb
    have hstep : processStep decode pack growth p (.restart memory) =
        .ok ({ Process.start db with connections := p.connections }, none) := by
      rw [processStep, Process.stopAndStart, hrestart]
      rfl
    refine ⟨_, none, hstep, (processStep_moves howned hstep).owned howned, ?_⟩
    rw [Option.toList_none, List.append_nil]
    exact ⟨h.pointed, h.legal, hcarries, h.fresh, .closed, List.forall_mem_nil _, .waiting, h.shown⟩

/-- At a start without files nothing has been noted. -/
theorem start_traced {memory : Memory} {log : List UInt8} {db : Database (VoidPtr ℕ)}
    (hstart : dbStart hashmapCalls growth memory hashmapNew [] [] log = .ok db) :
    Owned (Process.start db) ∧ Traced pack (Process.start db) [] := by
  have hempty : Carries db (mapOf []) := by
    rw [← Except.ok.inj hstart]
    exact emptyDatabase_carries growth memory 0 _
  refine ⟨Owned.start db Connections.start_peers, ?_⟩
  exact ⟨.nil, .nil, hempty, fun _ _ _ ↦ List.not_mem_nil, .closed, List.forall_mem_nil _, .waiting,
    fun _ ↦ .inl rfl⟩

end Moves

section Letters

def letterRaw (byte : UInt8) : Raw := ⟨[byte], Nat.one_lt_two_pow (Nat.succ_ne_zero 31)⟩

/-- The decoder on the messages of an INSERT and of a PEEK of one letter. -/
def decodeLetters (bytes : List UInt8) : Option Object :=
  if bytes = [0x92, 0x03, 0x81, 0xa1, 0x6b, 0xa1, 0x76] then
    some (.array [.positiveInteger 3,
      .map [(.str (letterRaw 0x6b), .str (letterRaw 0x76))]])
  else decodePeek bytes

theorem understood_letters (bytes : List UInt8) : Understood decodeLetters bytes := by
  intro command data hdecode
  unfold decodeLetters decodePeek at hdecode
  split at hdecode
  · cases hdecode
    refine ⟨fun _ ↦ ⟨_, rfl⟩, fun n hn ↦ ?_⟩
    cases hn
    decide
  · split at hdecode
    · cases hdecode
      refine ⟨fun _ ↦ ⟨_, rfl⟩, fun n hn ↦ ?_⟩
      cases hn
      decide
    · cases hdecode

/-- The packer on replies without a value. -/
def packSmall (calls : List PackCall) : List UInt8 :=
  calls.map fun
    | .array size => UInt8.ofNat (0x90 + size)
    | .int value => UInt8.ofNat value.toNat
    | .bin _ | .binBody _ => 0

/-- A letter is inserted over one connection, the process is started again while a second connection
waits, and a third one peeks for the letter. -/
def letterEvents : List ProcessEvent :=
  [.accept 0 ⟨message [0x92, 0x03, 0x81, 0xa1, 0x6b, 0xa1, 0x76], [.data 11]⟩ true,
    .accept 1 peekNet true, .readable 0 zeroSurroundings, .wait, .pop, .readable 1 zeroSurroundings,
    .operate ⟨.ok, 0, .empty⟩, .answer fun _ ↦ 0, .writable 0 (.taken 2), .restart fun _ ↦ 0,
    .accept 0 peekNet true, .readable 0 zeroSurroundings, .wait, .pop, .operate ⟨.ok, 0, .empty⟩,
    .answer fun _ ↦ 0, .writable 0 (.taken 3)]

def slotEmpty (key : Str) : HashMap.VoidPtr ℕ → Bool
  | .hmNode dep lenOfList top =>
    lenOfList (hash key dep) = 0 && match top (hash key dep) with
      | .null => true
      | .avlnode _ _ | .hmNode _ _ _ => false
  | .null | .avlnode _ _ => true

theorem insertSafe_of_slotEmpty {key : Str} {hashmap : VoidPtr ℕ} (h : slotEmpty key hashmap = true) :
    InsertSafe key hashmap := by
  cases hashmap with
  | null | avlnode => trivial
  | hmNode dep lenOfList top =>
    rw [slotEmpty, Bool.and_eq_true, decide_eq_true_eq] at h
    obtain ⟨hlength, hslot⟩ := h
    have hdep : 0 < maxHashDep := by decide
    rw [InsertSafe, hlength, if_pos hdep]
    intro _ addr keyMeta
    cases htop : top (hash key dep) with
    | null => exact ⟨trivial, fun hfull ↦ absurd hfull (by decide)⟩
    | avlnode | hmNode =>
      rw [htop] at hslot
      cases hslot

/-- Only peeks and insertions into an empty database are run, and restarts with the one letter. -/
def plainFits (p : Process) : ProcessEvent → Bool
  | .accept _ _ nonblock => nonblock
  | .operate _ =>
    match p.worker with
    | .working t => t.trans.msg.cmd = Command.peek.code ∨
      t.trans.msg.cmd = Command.insert.code ∧ t.trans.msg.val.size + 2 ≤ pageSize ∧
        p.db.storage.headers.length = 0 ∧ 0 < p.db.storage.arena.allocatedPages ∧
          Growth.source.Room 0 p.db.storage.arena.headers.capacity ∧
            slotEmpty t.trans.msg.key p.db.hashmap = true
    | _ => true
  | .snapshot _ => false
  | .restart _ => p.db.storage.headers.map PageHeader.places = [[0]] ∧
    p.db.storage.disk.keysDumped = 0 ∧ listedNames p.db.storage = [.ofByte 107]
  | .readable _ _ | .writable _ _ | .wait | .pop | .answer _ => true

theorem stepFits_of_plainFits {p : Process} {event : ProcessEvent} (h : plainFits p event = true) :
    StepFits decodeLetters .source p event := by
  cases event with
  | accept request net nonblock => exact h
  | readable request around => exact fun req buf net _ _ ↦ understood_letters _
  | writable | wait | pop | answer => trivial
  | snapshot moved => cases h
  | restart memory =>
    obtain ⟨hplaces, hdumped, hnames⟩ := of_decide_eq_true h
    refine ⟨savable_one_value hplaces hdumped, ?_⟩
    rw [hnames]
    exact ⟨fun _ _ _ ↦ ⟨trivial, fun hfull ↦ absurd hfull (by decide)⟩, fun _ _ _ ↦ trivial⟩
  | operate block =>
    intro t hworker
    rw [plainFits, hworker] at h
    have hcodes : Command.peek.code ≠ Command.update.code ∧ Command.peek.code ≠ Command.insert.code ∧
        Command.peek.code ≠ Command.delete.code ∧ Command.peek.code ≠ Command.select.code ∧
          Command.insert.code ≠ Command.update.code ∧ Command.insert.code ≠ Command.delete.code ∧
            Command.insert.code ≠ Command.select.code := by decide
    rcases of_decide_eq_true h with hcmd | ⟨hcmd, hsize, hempty, hpages, hroom, hslot⟩
    · rw [← hcmd] at hcodes
      exact ⟨hcodes.1, ⟨⟨fun hinsert ↦ absurd hinsert hcodes.2.1,
        fun hdelete ↦ absurd hdelete hcodes.2.2.1⟩, fun hinsert ↦ absurd hinsert hcodes.2.1⟩,
          fun hselect ↦ absurd hselect hcodes.2.2.2.1⟩
    · rw [List.length_eq_zero_iff] at hempty
      obtain ⟨-, -, -, -, hupdate, hdelete, hselect⟩ := hcodes
      rw [← hcmd] at hupdate hdelete hselect
      have hnone {index : ℕ} {header : PageHeader} {size : ℕ} :
          ¬ FirstFit p.db.storage.headers size index header := by
        intro hfirst
        have hhere := hfirst.here
        rw [hempty] at hhere
        cases hhere
      refine ⟨hupdate, ⟨⟨fun _ _ _ ↦ ⟨⟨hsize, fun _ _ hfirst ↦ absurd hfirst hnone, ?_⟩,
        insertSafe_of_slotEmpty hslot⟩, fun hcmd ↦ absurd hcmd hdelete⟩,
          fun _ _ _ _ _ hfirst ↦ absurd hfirst hnone⟩, fun hcmd ↦ absurd hcmd hselect⟩
      refine .inr ⟨?_, ?_, ?_, by decide⟩
      · rw [hempty]
        exact List.forall_mem_nil _
      · rwa [hempty]
      · rwa [hempty]

end Letters

end FGDB.Service
