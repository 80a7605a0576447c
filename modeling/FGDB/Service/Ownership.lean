import FGDB.Service.Requests

/-!
# Who owns a request

A request is in the hands of the event loop while it reads and writes, and in the hands of
the worker while it is in service, from its push on the queue to its reply. What a step of
the process can do is said once. From it follows, for every interleaving, that the requests
in service are those of the transactions in the queue and in the hands of the worker, one
for one, that no step touches a request that has been destroyed, and that a connection gets
no byte that is not of its own reply.
-/

namespace FGDB.Service

open Foundation Memory HashMap Pages Queue Server Operations Restart
open FGDB.Vector (Growth)

section Moves

variable {pack : List PackCall → List UInt8} {growth : Growth}

/-- What a step makes of the process that leaves the database alone. -/
inductive Quiet (pack : List PackCall → List UInt8) (p : Process) : Process → Option Note → Prop
  | idle : Quiet pack p p none
  | accepted (request : ℕ) (net : Net) (hfree : p.requests request = none) :
    Quiet pack p { p with
      requests := p.requests.set (some request) (some initRequest)
      nets := Function.update p.nets request net
      connections := p.connections.add request } none
  | read (request : ℕ) (req : Req) (nets : ℕ → Net) (kept : Option Req) (handled : Option Handled)
    (hreq : p.requests request = some req) (hstate : req.state = .init ∨ req.state = .read)
    (hends : ReadEnds pack request kept handled) :
    Quiet pack p
      (Process.handle pack { p with requests := p.requests.set (some request) kept, nets := nets }
        request handled).1
      (Process.handle pack { p with requests := p.requests.set (some request) kept, nets := nets }
        request handled).2
  | finished (request : ℕ) (buf : Buf) (hreq : p.requests request = some ⟨.write, some buf⟩) :
    Quiet pack p { p with
      requests := p.requests.set (some request) none
      connections := p.connections.sent request [] } none
  | written (request : ℕ) (buf buf' : Buf) (data : List UInt8)
    (hreq : p.requests request = some ⟨.write, some buf⟩) (hplaced : Placed buf')
    (hdata : data ++ buf'.contents = buf.contents) :
    Quiet pack p { p with
      requests := p.requests.set (some request) (some ⟨.write, some buf'⟩)
      connections := p.connections.sent request data } none
  | woken (queue : TransactionQueue) (hworker : p.worker = .waiting)
    (hwait : semWait p.queue = .ok queue) :
    Quiet pack p { p with queue := queue, worker := .woken } none
  | popped (queue : TransactionQueue) (t : PushedTransaction) (hworker : p.worker = .woken)
    (hpop : popLocked p.queue = (queue, some t)) :
    Quiet pack p { p with queue := queue, worker := .working t } none
  | answered (t : PushedTransaction) (request : ℕ) (reply : ProtoReply) (buf : Buf)
    (hworker : p.worker = .replying t (.object reply))
    (hancestor : t.trans.ancestor = some request) (hplaced : Placed buf)
    (hcontents : buf.contents = pack (serializeReply reply)) :
    Quiet pack p { p with
      requests := p.requests.set (some request) (some ⟨.write, some buf⟩)
      worker := .waiting
      connections := p.connections.replied request (pack (serializeReply reply)) }
      (some (.ret (p.connections.number request) (serializeReply reply)))

/-- What a step makes of the process. -/
inductive Moves (pack : List PackCall → List UInt8) (growth : Growth) (p : Process) :
    Process → Option Note → Prop
  | quiet (p' : Process) (note : Option Note) (hquiet : Quiet pack p p' note) :
    Moves pack growth p p' note
  | operated (t : PushedTransaction) (request : ℕ) (block : ProtoReply)
    (db : Database (VoidPtr ℕ)) (result : Option ProtoReply) (hworker : p.worker = .working t)
    (hancestor : t.trans.ancestor = some request)
    (hcmd : t.trans.msg.cmd ≠ Command.update.code)
    (hstep : operationStep hashmapCalls growth p.db ⟨t.trans, block⟩ = .ok (db, result)) :
    Moves pack growth p
      { p with db := db, worker := .replying t (result.elim .indeterminate .object) }
      (result.map fun reply ↦
        .point (p.connections.number request) t.trans.msg (serializeReply reply))
  | dropped (t : PushedTransaction) (request : ℕ) (hworker : p.worker = .working t)
    (hancestor : t.trans.ancestor = some request)
    (hcmd : t.trans.msg.cmd = Command.update.code) :
    Moves pack growth p { p with
      requests := p.requests.set (some request) none
      worker := .replying t .null } none
  | snapshot (s : Storage) (moved : Memory) (hsnapshot : Pages.snapshot p.db.storage = .ok s) :
    Moves pack growth p
      { p with db := { p.db with storage := s }, worker := p.worker.moved moved } none
  | restart (db : Database (VoidPtr ℕ)) (memory : Memory)
    (hrestart : Restart.restart hashmapCalls growth hashmapNew memory p.db = .ok db) :
    Moves pack growth p { Process.start db with connections := p.connections } none

end Moves

/-- The invariant of the process. -/
structure Owned (p : Process) : Prop where
  heap : HeapValid p.queue.h
  counter : p.queue.ntransSem + p.worker.claims = p.queue.queued.length
  attended : Attended p.requests (p.queue.queued ++ p.worker.held)
  peers : Peers p.requests p.connections

section Step

variable {decode : List UInt8 → Option Object} {pack : List PackCall → List UInt8} {growth : Growth}
  {p p' : Process} {note : Option Note}

theorem Owned.start (db : Database (VoidPtr ℕ)) {c : Connections} (h : Peers (fun _ ↦ none) c) :
    Owned { Process.start db with connections := c } where
  heap := heapValid_nil
  counter := rfl
  attended := .closed
  peers := h

theorem Connections.start_peers : Peers (fun _ ↦ none) .start where
  between _ _ hreq := by cases hreq
  numbered _ _ hreq := by cases hreq
  apart _ _ _ _ hreq := by cases hreq
  delivered _ := List.prefix_refl _
  fresh _ _ := ⟨rfl, rfl⟩

/-- A request that the parser is called for has nothing to send. -/
theorem Peers.reading {requests : Requests} {c : Connections} {request : ℕ} {req : Req}
    (h : Peers requests c) (hreq : requests request = some req)
    (hstate : req.state = .init ∨ req.state = .read) :
    (c.serialized (c.number request) = [] ∧ c.accepted (c.number request) = []) ∧
      Between [] [] req := by
  have hbetween := h.between request req hreq
  have hnone := hbetween.nothing (by rintro hwrite; simp [hwrite] at hstate)
  rw [hnone.1, hnone.2] at hbetween
  exact ⟨hnone, hbetween⟩

theorem not_inService {requests : Requests} {request : ℕ} {req : Req}
    (hreq : requests request = some req) (hstate : req.state ≠ .service) :
    ¬ InService requests request := by
  rintro ⟨other, hother, hservice⟩
  cases hreq.symm.trans hother
  exact hstate hservice

theorem readable_quiet (h : Owned p) {request : ℕ} {around : Surroundings}
    (hstep : p.readable decode pack request around = .ok (p', note)) : Quiet pack p p' note := by
  unfold Process.readable at hstep
  split at hstep
  · cases hstep
    exact .idle
  · next req hreq =>
    split at hstep
    · next hstate =>
      obtain ⟨⟨requests, net, handled⟩, hread, hstep⟩ := bind_eq_ok.mp hstep
      obtain ⟨kept, rfl, hends⟩ := readRequest_ends (h.peers.reading hreq hstate).2 hstate hread
      have hquiet : Quiet pack p _ _ := .read request req (Function.update p.nets request net) kept
        handled hreq hstate hends
      rw [Except.ok.inj hstep] at hquiet
      exact hquiet
    · cases hstep
      exact .idle

theorem writable_quiet (h : Owned p) {request : ℕ} {outcome : SendOutcome}
    (hstep : p.writable request outcome = .ok p') : Quiet pack p p' none := by
  unfold Process.writable at hstep
  split at hstep
  · cases hstep
    exact .idle
  · next req hreq =>
    split at hstep
    · next hstate =>
      obtain ⟨⟨kept, data⟩, hwrite, hstep⟩ := bind_eq_ok.mp hstep
      cases hstep
      cases h.peers.between request req hreq with
      | init | reading | serving => cases hstate
      | writing buf hplaced hrest =>
        rcases writeReply_placed hplaced hwrite with ⟨rfl, rfl⟩ | ⟨buf', rfl, hplaced', hdata⟩
        · exact .finished request buf hreq
        · exact .written request buf buf' data hreq hplaced' hdata
    · cases hstep
      exact .idle

/-- The operation of a transaction whose request is in the table. -/
theorem operate_moves (h : Owned p) {reply : ProtoReply}
    (hstep : p.operate growth reply = .ok (p', note)) : Moves pack growth p p' note := by
  unfold Process.operate at hstep
  split at hstep
  · next t hworker =>
    have hmem : t ∈ p.queue.queued ++ p.worker.held := by
      rw [hworker]
      exact List.mem_append_right _ List.mem_cons_self
    obtain ⟨request, req, hancestor, -, -⟩ := h.attended.alive hmem
    obtain ⟨⟨db, requests, pointer⟩, hoperation, hstep⟩ := bind_eq_ok.mp hstep
    cases hstep
    obtain ⟨loaded, -, hoperation⟩ := bind_eq_ok.mp hoperation
    split at hoperation
    · next hcmd =>
      obtain ⟨destroyed, hdestroy, hoperation⟩ := bind_eq_ok.mp hoperation
      cases hoperation
      have hdestroy' : destroyRequest p.requests (some request) = .ok requests := hancestor ▸ hdestroy
      rw [destroyRequest_eq_ok hdestroy']
      exact .dropped t request hworker hancestor hcmd
    · next hcmd =>
      obtain ⟨⟨db', result⟩, hrun, hoperation⟩ := bind_eq_ok.mp hoperation
      cases hoperation
      have hmove : Moves pack growth p _ _ :=
        .operated t request reply db result hworker hancestor hcmd hrun
      cases result with
      | none => exact hmove
      | some object =>
        have hnote : p.effectOf t (.object object) = some (.point (p.connections.number request)
            t.trans.msg (serializeReply object)) := by
          rw [Process.effectOf, hancestor, Option.map_some]
        rw [Option.elim_some, hnote]
        exact hmove
  · cases hstep
    exact .quiet _ _ .idle

theorem answer_quiet (h : Owned p) {heap : Memory}
    (hstep : p.answer pack heap = .ok (p', note)) : Quiet pack p p' note := by
  unfold Process.answer at hstep
  split at hstep
  · next t pointer hworker =>
    obtain ⟨⟨requests, packed⟩, hreply, hstep⟩ := bind_eq_ok.mp hstep
    cases hstep
    cases pointer with
    | null | indeterminate => cases hreply
    | object reply =>
      have hmem : t ∈ p.queue.queued ++ p.worker.held := by
        rw [hworker]
        exact List.mem_append_right _ List.mem_cons_self
      obtain ⟨request, req, hancestor, -, -⟩ := h.attended.alive hmem
      rw [hancestor] at hreply
      obtain ⟨object, buf, hobject, rfl, rfl, hplaced, hcontents⟩ := requestReply_eq_ok hreply
      cases hobject
      rw [hancestor, Option.elim_some, Option.map_some]
      exact .answered t request reply buf hworker hancestor hplaced hcontents
  · cases hstep
    exact .idle

theorem accept_quiet {request : ℕ} {net : Net} {nonblock : Bool}
    (hstep : p.accept request net nonblock = .ok p') : Quiet pack p p' none := by
  unfold Process.accept at hstep
  split at hstep
  · cases hstep
    exact .idle
  · next hfree =>
    split at hstep
    · cases hstep
      exact .accepted request net (Option.not_isSome_iff_eq_none.mp hfree)
    · cases hstep

theorem wait_quiet (p : Process) : Quiet pack p p.wait none := by
  unfold Process.wait
  split
  · next queue hworker hwait => exact .woken queue hworker hwait
  · exact .idle

theorem pop_quiet (hstep : p.pop = .ok p') : Quiet pack p p' none := by
  unfold Process.pop at hstep
  split at hstep
  · next hworker =>
    split at hstep
    · cases hstep
    · next queue t hpopped =>
      cases hstep
      exact .popped queue t hworker hpopped
  · cases hstep
    exact .idle

theorem processStep_moves (h : Owned p) {event : ProcessEvent}
    (hstep : processStep decode pack growth p event = .ok (p', note)) :
    Moves pack growth p p' note := by
  cases event with
  | accept request net nonblock =>
    obtain ⟨next, haccept, hstep⟩ := bind_eq_ok.mp hstep
    cases hstep
    exact .quiet _ _ (accept_quiet haccept)
  | readable request around => exact .quiet _ _ (readable_quiet h hstep)
  | writable request outcome =>
    obtain ⟨next, hwrite, hstep⟩ := bind_eq_ok.mp hstep
    cases hstep
    exact .quiet _ _ (writable_quiet h hwrite)
  | wait =>
    cases hstep
    exact .quiet _ _ (wait_quiet p)
  | pop =>
    obtain ⟨next, hpop, hstep⟩ := bind_eq_ok.mp hstep
    cases hstep
    exact .quiet _ _ (pop_quiet hpop)
  | operate reply => exact operate_moves h hstep
  | answer heap => exact .quiet _ _ (answer_quiet h hstep)
  | snapshot moved =>
    obtain ⟨next, hnext, hstep⟩ := bind_eq_ok.mp hstep
    cases hstep
    obtain ⟨s, hsnapshot, hnext⟩ := bind_eq_ok.mp hnext
    cases hnext
    exact .snapshot s moved hsnapshot
  | restart memory =>
    obtain ⟨next, hnext, hstep⟩ := bind_eq_ok.mp hstep
    cases hstep
    obtain ⟨db, hrestart, hnext⟩ := bind_eq_ok.mp hnext
    cases hnext
    exact .restart db memory hrestart

theorem ReadEnds.keeps {request : ℕ} {kept : Option Req} {handled : Option Handled}
    (hends : ReadEnds pack request kept handled) (h : Owned p) {req : Req}
    (hreq : p.requests request = some req) (hstate : req.state = .init ∨ req.state = .read)
    (nets : ℕ → Net) :
    Owned (Process.handle pack { p with
      requests := p.requests.set (some request) kept
      nets := nets } request handled).1 := by
  have hbefore : ¬ InService p.requests request :=
    not_inService hreq (by rintro hservice; simp [hservice] at hstate)
  obtain ⟨hnone, -⟩ := h.peers.reading hreq hstate
  cases hends with
  | waiting req' hbetween hstate' =>
    refine ⟨h.heap, h.counter, h.attended.set hbefore (forall_some hstate'),
      h.peers.set hreq (forall_some ?_)⟩
    rwa [hnone.1, hnone.2]
  | closed | destroyed =>
    exact ⟨h.heap, h.counter, h.attended.set hbefore forall_none, h.peers.set hreq forall_none⟩
  | queued t buf hplaced hancestor hcmd =>
    obtain ⟨hheap, hperm⟩ := pushQueue_spec h.heap t
    refine ⟨hheap, ?_, ?_, h.peers.set hreq (forall_some (.serving buf hplaced hnone))⟩
    · calc p.queue.ntransSem + 1 + p.worker.claims
          = p.queue.ntransSem + p.worker.claims + 1 := Nat.add_right_comm ..
        _ = p.queue.queued.length + 1 := by rw [h.counter]
        _ = (pushQueue p.queue t).queued.length := by
          rw [hperm.length_eq, List.length_append, List.length_singleton]
    · apply (h.attended.enqueue hbefore hancestor rfl).perm
      exact (((hperm.trans (List.perm_append_singleton t _)).append_right _).symm)
  | replied packed buf hrefusal hplaced hcontents =>
    have hpeers := h.peers.replied hreq (by rintro hwrite; simp [hwrite] at hstate) hplaced
    rw [hcontents] at hpeers
    exact ⟨h.heap, h.counter, h.attended.set hbefore (forall_some write_ne_service), hpeers⟩

theorem held_moved (worker : WorkerState) (memory : Memory) :
    (worker.moved memory).held = worker.held ∧ (worker.moved memory).claims = worker.claims := by
  cases worker with
  | waiting | woken | working => exact ⟨rfl, rfl⟩
  | replying t reply =>
    cases reply with
    | null | indeterminate => exact ⟨rfl, rfl⟩
    | object reply =>
      unfold WorkerState.moved
      simp only
      split <;> exact ⟨rfl, rfl⟩

/-- A request that is written is not in service, and what it has sent is of its reply. -/
theorem Quiet.keeps_written (h : Owned p) {request : ℕ} {buf buf' : Buf} {data : List UInt8}
    (hreq : p.requests request = some ⟨.write, some buf⟩) (hplaced : Placed buf')
    (hdata : data ++ buf'.contents = buf.contents) :
    Owned { p with
      requests := p.requests.set (some request) (some ⟨.write, some buf'⟩)
      connections := p.connections.sent request data } := by
  have hrest : p.connections.accepted (p.connections.number request) ++ data ++ buf'.contents =
      p.connections.serialized (p.connections.number request) := by
    rw [List.append_assoc, hdata]
    cases h.peers.between request _ hreq with
    | writing buf hplaced hrest => exact hrest
  exact ⟨h.heap, h.counter,
    h.attended.set (not_inService hreq write_ne_service) (forall_some write_ne_service),
    h.peers.sent hreq ⟨buf'.contents, hrest⟩ (forall_some (.writing buf' hplaced hrest))⟩

theorem Quiet.keeps_popped (h : Owned p) {queue : TransactionQueue} {t : PushedTransaction}
    (hworker : p.worker = .woken) (hpop : popLocked p.queue = (queue, some t)) :
    Owned { p with queue := queue, worker := .working t } := by
  obtain ⟨hheap, hsem, hpopped⟩ := popLocked_spec h.heap hpop
  have hcounter := h.counter
  have hattended := h.attended
  rw [hworker] at hcounter hattended
  cases hpopped with
  | taken t hperm hmin =>
    refine ⟨hheap, ?_, ?_, h.peers⟩
    · have hlength := hperm.length_eq
      rw [List.length_cons, ← hcounter, ← hsem] at hlength
      exact (Nat.succ.inj hlength).symm
    · rw [WorkerState.held, List.append_nil] at hattended
      exact hattended.perm (hperm.symm.trans (List.perm_append_singleton t _).symm)

theorem Quiet.owned (hquiet : Quiet pack p p' note) (h : Owned p) : Owned p' := by
  cases hquiet with
  | idle => exact h
  | accepted request net hfree =>
    have hbefore : ¬ InService p.requests request := by
      rintro ⟨req, hreq, -⟩
      cases hfree.symm.trans hreq
    exact ⟨h.heap, h.counter, h.attended.set hbefore (forall_some init_ne_service),
      h.peers.add request⟩
  | read request req nets kept handled hreq hstate hends => exact hends.keeps h hreq hstate nets
  | finished request buf hreq =>
    refine ⟨h.heap, h.counter, h.attended.set (not_inService hreq write_ne_service) forall_none,
      h.peers.sent hreq ?_ forall_none⟩
    rw [List.append_nil]
    exact h.peers.delivered _
  | written request buf buf' data hreq hplaced hdata => exact Quiet.keeps_written h hreq hplaced hdata
  | woken queue hworker hwait =>
    obtain ⟨hh, hsem⟩ := SharedQueue.semWait_eq_ok hwait
    have hcounter := h.counter
    have hattended := h.attended
    have hqueued : queue.queued = p.queue.queued := by
      rw [TransactionQueue.queued, hh, TransactionQueue.queued]
    rw [hworker] at hcounter hattended
    refine ⟨hh ▸ h.heap, ?_, ?_, h.peers⟩
    · exact (hsem.trans hcounter).trans (congrArg List.length hqueued.symm)
    · exact hqueued ▸ hattended
  | popped queue t hworker hpop => exact Quiet.keeps_popped h hworker hpop
  | answered t request reply buf hworker hancestor hplaced hcontents =>
    have hcounter := h.counter
    have hattended := h.attended.perm List.perm_append_comm
    rw [hworker] at hcounter hattended
    obtain ⟨request', req, hancestor', hreq, hstate⟩ := hattended.alive List.mem_cons_self
    cases hancestor.symm.trans hancestor'
    have hpeers := h.peers.replied hreq (by rw [hstate]; decide) hplaced
    rw [hcontents] at hpeers
    refine ⟨h.heap, hcounter, ?_, hpeers⟩
    exact (List.append_nil p.queue.queued).symm ▸
      hattended.dequeue hancestor (forall_some write_ne_service)

/-- Every step keeps the invariant. -/
theorem Moves.owned (hmove : Moves pack growth p p' note) (h : Owned p) : Owned p' := by
  cases hmove with
  | quiet p' note hquiet => exact hquiet.owned h
  | operated t request block db result hworker hancestor hcmd hstep =>
    have hcounter := h.counter
    have hattended := h.attended
    rw [hworker] at hcounter hattended
    cases result with
    | none => exact ⟨h.heap, hcounter, hattended, h.peers⟩
    | some reply => exact ⟨h.heap, hcounter, hattended, h.peers⟩
  | dropped t request hworker hancestor hcmd =>
    have hcounter := h.counter
    have hattended := h.attended.perm List.perm_append_comm
    rw [hworker] at hcounter hattended
    obtain ⟨request', req, hancestor', hreq, hstate⟩ := hattended.alive List.mem_cons_self
    cases hancestor.symm.trans hancestor'
    refine ⟨h.heap, hcounter, ?_, h.peers.set hreq forall_none⟩
    exact (List.append_nil p.queue.queued).symm ▸ hattended.dequeue hancestor forall_none
  | snapshot s moved hsnapshot =>
    obtain ⟨hheld, hclaims⟩ := held_moved p.worker moved
    refine ⟨h.heap, ?_, ?_, h.peers⟩
    · exact hclaims ▸ h.counter
    · exact hheld.symm ▸ h.attended
  | restart db memory hrestart => exact Owned.start db h.peers.closed

end Step

section Safety

variable {decode : List UInt8 → Option Object} {pack : List PackCall → List UInt8} {growth : Growth}
  {p : Process}

/-- The data of a message is of a type that the parser knows, and the lowest byte of the number of
its command selects a name. -/
def Understood (decode : List UInt8 → Option Object) (bytes : List UInt8) : Prop :=
  ∀ command data, decode bytes = some (.array [command, data]) →
    (∀ cmd, ∃ parsed, parseData cmd data = .ok parsed) ∧
      ∀ n, command = .positiveInteger n → n.toNat % 256 ≤ 5

/-- What may end a call of the parser of messages. -/
def Misread (decode : List UInt8 → Option Object) (bytes : List UInt8) (fault : Fault) : Prop :=
  ¬ Understood decode bytes ∧ (fault = .typeConfusion ∨ fault = .outOfBounds)

theorem parseData_failsOnly (cmd : UInt8) (data : Object) :
    FailsOnly (· = .typeConfusion) (parseData cmd data) := by
  cases data with
  | bin | str => exact failsOnly_ok _ _
  | map pairs =>
    cases pairs with
    | nil => exact failsOnly_ok _ _
    | cons pair rest =>
      obtain ⟨key, val⟩ := pair
      rw [parseData]
      split <;> exact failsOnly_ok _ _
  | _ => exact failsOnly_error rfl

theorem onRequest_failsOnly {around : Surroundings} {requests : Requests} {request : ℕ} {req : Req}
    {queue : TransactionQueue} {msg : Msg} (hreq : requests request = some req) :
    FailsOnly (fun fault ↦ fault = .outOfBounds ∧ 6 ≤ msg.cmd.toNat) (onRequest around.heap pack
      around.reply around.granted around.padding (requests, queue) request msg) := by
  have hfatal (error : ProtoReplyError) : FailsOnly (fun fault ↦ fault = .outOfBounds ∧
      6 ≤ msg.cmd.toNat) (replyFatal around.heap pack around.reply (requests, queue) request error) := by
    simp only [replyFatal, requestReply, ReplyPointer.load, Requests.load_eq_ok.mpr hreq, ok_bind,
      pure_eq_ok]
    exact failsOnly_ok _ _
  apply FailsOnly.bind
  · cases hname : messageCmdStr[msg.cmd.toNat]? with
    | some name => exact failsOnly_ok _ _
    | none => exact failsOnly_error ⟨rfl, List.getElem?_eq_none_iff.mp hname⟩
  · rintro name -
    split
    · split
      · exact hfatal _
      · exact failsOnly_ok _ _
    · exact hfatal _

theorem parseMessage_failsOnly {around : Surroundings} {requests : Requests} {request : ℕ} {req : Req}
    {buf : Buf} (hreq : requests request = some req) : FailsOnly (Misread decode buf.contents)
      (parseMessage decode pack request around requests buf) := by
  have hdestroyed {allowed : Fault → Prop} : FailsOnly allowed (destroyHandled request requests) := by
    rw [destroyHandled, destroyRequest_alive hreq, ok_bind]
    exact failsOnly_ok _ _
  unfold parseMessage
  split
  · next command data hdecode =>
    apply FailsOnly.bind
    · intro fault hfault
      refine ⟨fun hunderstood ↦ ?_, .inl (parseData_failsOnly _ _ _ hfault)⟩
      obtain ⟨parsed, hparsed⟩ := (hunderstood command data hdecode).1 around.cmd
      cases hparsed.symm.trans hfault
    · intro parsed hparsed
      cases parsed with
      | none => exact hdestroyed
      | some msg =>
        apply FailsOnly.bind
        · have hset (kept : Req) := Requests.set_self requests request (some kept)
          unfold parseService
          split
          · rw [destroyRequest_alive (hset _), ok_bind]
            exact failsOnly_ok _ _
          · next named hcommand =>
            intro fault hfault
            obtain ⟨hfault, hlarge⟩ := onRequest_failsOnly (hset _) fault hfault
            refine ⟨fun hunderstood ↦ ?_, .inr hfault⟩
            cases command with
            | positiveInteger n =>
              have hsmall := (hunderstood _ data hdecode).2 n rfl
              rw [← Option.some.inj hcommand] at hlarge
              exact absurd (hlarge.trans_eq (lowest_byte n)) (by omega)
            | _ => cases hcommand
        · exact fun _ _ ↦ failsOnly_ok _ _
  · exact hdestroyed

theorem readRequest_failsOnly {around : Surroundings} {requests : Requests} {request : ℕ} {req : Req}
    {net : Net} (hreq : requests request = some req) (hbetween : Between [] [] req)
    (hstate : req.state = .init ∨ req.state = .read) :
    FailsOnly (fun fault ↦ ∃ buf net', parseRequestOnStack around.stack around.heap req net =
        .ok (.parsing ⟨.parse, some buf⟩, net') ∧ Misread decode buf.contents fault)
      (readRequest decode pack around requests request req net) := by
  obtain ⟨verdict, net', hparse, hverdict⟩ :=
    parseRequestOnStack_between hbetween hstate around.stack around.heap net
  rw [readRequest, hparse, ok_bind]
  rcases hverdict with ⟨req', rfl, -⟩ | rfl | ⟨buf, rfl⟩
  · exact failsOnly_ok _ _
  · rw [destroyRequest_alive hreq]
    exact failsOnly_ok _ _
  · simp only [Option.elim_some, ok_bind]
    refine FailsOnly.bind (fun fault hfault ↦ ?_) fun _ _ ↦ failsOnly_ok _ _
    exact ⟨buf, net', rfl, parseMessage_failsOnly hreq fault hfault⟩

theorem Owned.readable_failsOnly (h : Owned p) (request : ℕ) (around : Surroundings) :
    FailsOnly (fun fault ↦ ∃ req buf net', p.requests request = some req ∧
      parseRequestOnStack around.stack around.heap req (p.nets request) =
        .ok (.parsing ⟨.parse, some buf⟩, net') ∧ Misread decode buf.contents fault)
      (p.readable decode pack request around) := by
  unfold Process.readable
  split
  · exact failsOnly_ok _ _
  · next req hreq =>
    split
    · next hstate =>
      refine FailsOnly.bind (fun fault hfault ↦ ?_) fun _ _ ↦ failsOnly_ok _ _
      obtain ⟨-, hbetween⟩ := h.peers.reading hreq hstate
      obtain ⟨buf, net', hparse, hmisread⟩ := readRequest_failsOnly hreq hbetween hstate fault hfault
      exact ⟨req, buf, net', hreq, hparse, hmisread⟩
    · exact failsOnly_ok _ _

/-- No step to come pops nothing or uses a request that has been destroyed: the worker finds what it
has taken the semaphore for, the watchers and the operation find their requests, and only the
operation can leave the worker without a reply. -/
structure Guarded (decode : List UInt8 → Option Object) (pack : List PackCall → List UInt8)
    (p : Process) : Prop where
  pop : ∃ p', p.pop = .ok p'
  readable : ∀ request around, FailsOnly (fun fault ↦ fault = .typeConfusion ∨ fault = .outOfBounds)
    (p.readable decode pack request around)
  writable : ∀ request outcome, ∃ p', p.writable request outcome = .ok p'
  operate : ∀ t, p.worker = .working t → ∃ req, p.requests.load t.trans.ancestor = .ok req
  answer : ∀ heap, (∃ result, p.answer pack heap = .ok result) ∨
    ∃ t reply, p.worker = .replying t reply ∧ ∀ object, reply ≠ .object object

theorem Owned.pop_ok (h : Owned p) : ∃ p', p.pop = .ok p' := by
  unfold Process.pop
  split
  · next hworker =>
    have hcounter := h.counter
    rw [hworker] at hcounter
    obtain ⟨queue, result, hpop⟩ : ∃ queue result, popLocked p.queue = (queue, result) :=
      ⟨_, _, rfl⟩
    obtain ⟨-, -, hpopped⟩ := popLocked_spec h.heap hpop
    rw [hpop]
    cases hpopped with
    | empty hempty hempty' =>
      rw [hempty] at hcounter
      cases hcounter
    | taken t hperm hmin => exact ⟨_, rfl⟩
  · exact ⟨p, rfl⟩

theorem Owned.writable_ok (h : Owned p) (request : ℕ) (outcome : SendOutcome) :
    ∃ p', p.writable request outcome = .ok p' := by
  unfold Process.writable
  split
  · exact ⟨p, rfl⟩
  · next req hreq =>
    split
    · next hstate =>
      have hbuf : req.buf ≠ none := by
        cases h.peers.between request req hreq with
        | init | reading | serving => cases hstate
        | writing buf => exact Option.some_ne_none buf
      obtain ⟨kept, data, hwrite, -⟩ := writeReply_ok hstate hbuf outcome
      rw [hwrite, ok_bind]
      exact ⟨_, rfl⟩
    · exact ⟨p, rfl⟩

/-- The request of the transaction in the hands of the worker. -/
theorem Owned.held_alive (h : Owned p) {t : PushedTransaction} (hheld : t ∈ p.worker.held) :
    ∃ request req, t.trans.ancestor = some request ∧ p.requests request = some req ∧
      req.state = .service := h.attended.alive (List.mem_append_right _ hheld)

theorem Owned.answer_ok (h : Owned p) {t : PushedTransaction} {reply : ProtoReply}
    (hworker : p.worker = .replying t (.object reply)) (heap : Memory) :
    ∃ result, p.answer pack heap = .ok result := by
  have hheld : t ∈ p.worker.held := by
    rw [hworker]
    exact List.mem_cons_self
  obtain ⟨request, req, hancestor, hreq, -⟩ := h.held_alive hheld
  have hload : p.requests.load t.trans.ancestor = .ok req := by
    rw [hancestor]
    exact Requests.load_eq_ok.mpr hreq
  simp only [Process.answer, hworker, requestReply, ReplyPointer.load, hload, ok_bind, pure_eq_ok]
  exact ⟨_, rfl⟩

theorem Owned.guarded (h : Owned p) : Guarded decode pack p where
  pop := h.pop_ok
  writable := h.writable_ok
  readable request around fault hfault := by
    obtain ⟨req, buf, net', -, -, hmisread⟩ := h.readable_failsOnly request around fault hfault
    exact hmisread.2
  operate t hworker := by
    have hheld : t ∈ p.worker.held := by
      rw [hworker]
      exact List.mem_cons_self
    obtain ⟨request, req, hancestor, hreq, -⟩ := h.held_alive hheld
    rw [hancestor]
    exact ⟨req, Requests.load_eq_ok.mpr hreq⟩
  answer heap := by
    cases hworker : p.worker with
    | replying t reply =>
      cases reply with
      | object reply => exact .inl (h.answer_ok hworker heap)
      | null => exact .inr ⟨t, _, rfl, fun _ ↦ ReplyPointer.noConfusion⟩
      | indeterminate => exact .inr ⟨t, _, rfl, fun _ ↦ ReplyPointer.noConfusion⟩
    | waiting | woken | working =>
      refine .inl ⟨(p, none), ?_⟩
      simp only [Process.answer, hworker]

end Safety

/-- The surroundings of a call of the parser that finds zeros and memory. -/
def zeroSurroundings : Surroundings :=
  ⟨fun _ ↦ 0, 0, fun _ ↦ 0, ⟨.ok, 0, .empty⟩, true, (0, 0, 0), initQueue⟩

/-- The message of a PEEK comes in one chunk. -/
def peekNet : Net := ⟨message [0x92, 0x01, 0xa1, 0x6b], [.data 8]⟩

/-- Two connections send a PEEK each. The first one has its reply before the worker has popped the
transaction of the second one, and ends. -/
def twoPeeks : List ProcessEvent :=
  [.accept 0 peekNet true, .accept 1 peekNet true, .readable 0 zeroSurroundings,
    .readable 1 zeroSurroundings, .wait, .pop, .operate ⟨.ok, 0, .empty⟩, .answer fun _ ↦ 0, .wait,
    .writable 0 (.taken 3), .writable 0 .again, .pop]

end FGDB.Service
