import FGDB.Service.Linearization

/-!
# Every request is answered

The steps of the worker come round in one order. As long as the worker is given its steps
in turn, four of them for each transaction that is queued or in its hands and for each one
that is called meanwhile, every request that is in service is answered, whatever comes in
between. The queue does not keep the order of the calls, so nothing less is enough: all
the transactions that come later may be taken first.
-/

namespace FGDB.Service

open Foundation Memory HashMap Pages Queue Server Wal Operations Restart
open FGDB.Vector (Growth)

/-- The steps of the loop of the worker. -/
inductive Turn
  | wait
  | pop
  | operate
  | answer
  deriving DecidableEq, Repr

namespace Turn

def next : Turn → Turn
  | wait => pop
  | pop => operate
  | operate => answer
  | answer => wait

def place : Turn → ℕ
  | wait => 0
  | pop => 1
  | operate => 2
  | answer => 3

/-- How many steps in turn there are before another one. -/
def before (turn other : Turn) : ℕ := (other.place + 4 - turn.place) % 4

/-- How many steps there are to the end of the round. -/
def rest (turn : Turn) : ℕ := (4 - turn.place) % 4

theorem before_self (turn : Turn) : turn.before turn = 0 := by
  cases turn <;> rfl

theorem before_next {turn other : Turn} (h : turn ≠ other) :
    turn.next.before other + 1 = turn.before other := by
  cases turn <;> cases other <;> first | rfl | exact absurd rfl h

theorem before_le (turn other : Turn) : turn.before other.next ≤ turn.before other + 1 := by
  cases turn <;> cases other <;> decide

theorem rest_next {turn : Turn} (h : turn ≠ wait) : turn.next.rest + 1 = turn.rest := by
  cases turn <;> first | rfl | exact absurd rfl h

end Turn

def ProcessEvent.turn : ProcessEvent → Option Turn
  | .wait => some .wait
  | .pop => some .pop
  | .operate _ => some .operate
  | .answer _ => some .answer
  | .accept _ _ _ | .readable _ _ | .writable _ _ | .snapshot _ | .restart _ => none

/-- The step at which the worker is. -/
def WorkerState.turn : WorkerState → Turn
  | waiting => .wait
  | woken => .pop
  | working _ => .operate
  | replying _ _ => .answer

/-- How many steps the worker is given in turn. -/
def paces : Turn → List ProcessEvent → ℕ
  | _, [] => 0
  | turn, event :: events =>
    if event.turn = some turn then paces turn.next events + 1 else paces turn events

/-- How many steps in turn the worker needs for all transactions. -/
def Process.need (p : Process) (turn : Turn) : ℕ :=
  4 * p.queue.ntransSem + (turn.before p.worker.turn + p.worker.turn.rest)

def isCall : Note → Bool
  | .call _ _ => true
  | .point _ _ _ | .ret _ _ => false

/-- The connection has a request in service. -/
def Awaits (p : Process) (number : ℕ) : Prop :=
  ∃ request, InService p.requests request ∧ p.connections.number request = number

def Returns (notes : List Note) (number : ℕ) : Prop := ∃ packed, .ret number packed ∈ notes

/-- No step faults, and with enough steps of the worker all that is in service is answered. -/
def AnswersAll (decode : List UInt8 → Option Object) (pack : List PackCall → List UInt8)
    (growth : Growth) (p : Process) (events : List ProcessEvent) : Prop :=
  ∃ final notes, run (processStep decode pack growth) p events = .ok (final, notes) ∧
    (4 * ((p.queue.queued ++ p.worker.held).length + (notes.filterMap id).countP isCall) ≤
        paces .wait events →
      ∀ number, Awaits p number → Returns (notes.filterMap id) number)

/-- What a step makes of the worker and of the transactions that it has not taken. -/
inductive WorkerMoves (p p' : Process) (calls : ℕ) (taken : Option Turn) : Prop
  | still (hsem : p'.queue.ntransSem = p.queue.ntransSem + calls)
    (hturn : p'.worker.turn = p.worker.turn) (hother : taken ≠ some p.worker.turn)
  | woken (htaken : taken = some .wait) (hturn : p.worker.turn = .wait)
    (hnext : p'.worker.turn = .pop) (hsem : p'.queue.ntransSem + 1 = p.queue.ntransSem)
    (hcalls : calls = 0)
  | goes (htaken : taken = some p.worker.turn) (hturn : p.worker.turn ≠ .wait)
    (hnext : p'.worker.turn = p.worker.turn.next) (hsem : p'.queue.ntransSem = p.queue.ntransSem)
    (hcalls : calls = 0)

section Need

variable {p p' : Process} {calls : ℕ} {taken : Option Turn} {turn : Turn}

theorem WorkerMoves.go (hturn : p.worker.turn = turn) (hwait : turn ≠ .wait)
    (hnext : p'.worker.turn = turn.next) (hsem : p'.queue.ntransSem = p.queue.ntransSem) :
    WorkerMoves p p' 0 (some turn) := by
  subst hturn
  exact .goes rfl hwait hnext hsem rfl

/-- A step that is the worker's in turn brings it nearer to the end. -/
theorem WorkerMoves.need_turn (h : WorkerMoves p p' calls (some turn)) :
    p'.need turn.next + 1 ≤ p.need turn + 4 * calls := by
  unfold Process.need
  cases h with
  | still hsem hturn hother =>
    have hbefore := Turn.before_next fun hsame ↦ hother (congrArg some hsame)
    rw [hsem, hturn]
    omega
  | woken htaken hturn hnext hsem hcalls =>
    cases htaken
    rw [hturn, hnext, ← hsem]
    simp only [Turn.before, Turn.next, Turn.place, Turn.rest]
    omega
  | goes htaken hturn hnext hsem hcalls =>
    cases htaken
    have hrest := Turn.rest_next hturn
    rw [hnext, hsem, Turn.before_self, Turn.before_self]
    omega

/-- Another step does not take it further away. -/
theorem WorkerMoves.need_le (h : WorkerMoves p p' calls taken) (turn : Turn) :
    p'.need turn ≤ p.need turn + 4 * calls := by
  unfold Process.need
  cases h with
  | still hsem hturn hother =>
    rw [hsem, hturn]
    omega
  | woken htaken hturn hnext hsem hcalls =>
    have hbefore := turn.before_le .wait
    rw [hturn, hnext, ← hsem]
    simp only [Turn.next, Turn.rest, Turn.place] at hbefore ⊢
    omega
  | goes htaken hturn hnext hsem hcalls =>
    have hbefore := turn.before_le p.worker.turn
    have hrest := Turn.rest_next hturn
    rw [hnext, hsem]
    omega

end Need

section Step

variable {decode : List UInt8 → Option Object} {pack : List PackCall → List UInt8} {growth : Growth}
  {p p' : Process} {note : Option Note} {number : ℕ} {event : ProcessEvent}

theorem turn_moved (worker : WorkerState) (memory : Memory) :
    (worker.moved memory).turn = worker.turn := by
  cases worker with
  | waiting | woken | working => rfl
  | replying t reply =>
    cases reply with
    | null | indeterminate => rfl
    | object reply =>
      unfold WorkerState.moved
      simp only
      split <;> rfl

theorem readable_workerMoves {request : ℕ} {around : Surroundings}
    (hstep : p.readable decode pack request around = .ok (p', note)) :
    WorkerMoves p p' (note.toList.countP isCall) none := by
  have hnone : none ≠ some p.worker.turn := (Option.some_ne_none _).symm
  unfold Process.readable at hstep
  split at hstep
  · cases hstep
    exact .still rfl rfl hnone
  · split at hstep
    · obtain ⟨⟨requests, net, handled⟩, -, hstep⟩ := bind_eq_ok.mp hstep
      cases handled with
      | none =>
        cases hstep
        exact .still rfl rfl hnone
      | some handled =>
        cases handled with
        | queued | replied | destroyed =>
          cases hstep
          exact .still rfl rfl hnone
    · cases hstep
      exact .still rfl rfl hnone

/-- The worker is somewhere else in its loop. -/
theorem other_workerMoves {turn : Turn} (h : p.worker.turn ≠ turn) :
    WorkerMoves p p 0 (some turn) :=
  .still rfl rfl fun hsame ↦ h (Option.some.inj hsame).symm

/-- A worker that waits for the semaphore while there is something to do takes it. -/
theorem wait_workerMoves (h : Owned p) (hbusy : p.queue.queued ++ p.worker.held ≠ []) :
    WorkerMoves p p.wait 0 (some .wait) := by
  cases hworker : p.worker with
  | waiting =>
    have hturn : p.worker.turn = .wait := congrArg WorkerState.turn hworker
    have hsem : p.queue.ntransSem ≠ 0 := by
      intro hzero
      have hcounter := h.counter
      rw [hworker, hzero] at hcounter
      rw [hworker, WorkerState.held, List.append_nil] at hbusy
      exact hbusy (List.length_eq_zero_iff.mp hcounter.symm)
    have hwait : semWait p.queue = .ok { p.queue with ntransSem := p.queue.ntransSem - 1 } :=
      if_neg hsem
    simp only [Process.wait, hworker, hwait]
    exact .woken rfl hturn rfl (Nat.sub_add_cancel (Nat.pos_of_ne_zero hsem)) rfl
  | woken | working | replying =>
    have hother : p.worker.turn ≠ .wait := by
      rw [hworker]
      rintro ⟨⟩
    simp only [Process.wait, hworker]
    exact other_workerMoves hother

theorem pop_workerMoves (h : Owned p) (hstep : p.pop = .ok p') :
    WorkerMoves p p' 0 (some .pop) := by
  cases hworker : p.worker with
  | woken =>
    have hturn : p.worker.turn = .pop := congrArg WorkerState.turn hworker
    simp only [Process.pop, hworker] at hstep
    split at hstep
    · cases hstep
    · next queue t hpopped =>
      cases hstep
      obtain ⟨-, hsem, -⟩ := popLocked_spec h.heap hpopped
      exact .go hturn (by decide) rfl hsem
  | waiting | working | replying =>
    have hother : p.worker.turn ≠ .pop := by
      rw [hworker]
      rintro ⟨⟩
    simp only [Process.pop, hworker] at hstep
    cases hstep
    exact other_workerMoves hother

theorem effectOf_calls (p : Process) (t : PushedTransaction) (pointer : ReplyPointer) :
    (p.effectOf t pointer).toList.countP isCall = 0 := by
  cases pointer with
  | null | indeterminate => rfl
  | object reply => cases hancestor : t.trans.ancestor <;> rw [Process.effectOf, hancestor] <;> rfl

theorem operate_workerMoves {reply : ProtoReply} (hstep : p.operate growth reply = .ok (p', note)) :
    WorkerMoves p p' (note.toList.countP isCall) (some .operate) := by
  cases hworker : p.worker with
  | working t =>
    have hturn : p.worker.turn = .operate := congrArg WorkerState.turn hworker
    simp only [Process.operate, hworker] at hstep
    obtain ⟨⟨db, requests, pointer⟩, -, hstep⟩ := bind_eq_ok.mp hstep
    cases hstep
    rw [effectOf_calls]
    exact .go hturn (by decide) rfl rfl
  | waiting | woken | replying =>
    have hother : p.worker.turn ≠ .operate := by
      rw [hworker]
      rintro ⟨⟩
    simp only [Process.operate, hworker] at hstep
    cases hstep
    exact other_workerMoves hother

theorem answer_workerMoves {heap : Memory} (hstep : p.answer pack heap = .ok (p', note)) :
    WorkerMoves p p' (note.toList.countP isCall) (some .answer) := by
  cases hworker : p.worker with
  | replying t pointer =>
    have hturn : p.worker.turn = .answer := congrArg WorkerState.turn hworker
    simp only [Process.answer, hworker] at hstep
    obtain ⟨⟨requests, packed⟩, -, hstep⟩ := bind_eq_ok.mp hstep
    cases hstep
    have hcalls : (t.trans.ancestor.map fun request ↦
        (.ret (p.connections.number request) packed : Note)).toList.countP isCall = 0 := by
      cases t.trans.ancestor <;> rfl
    rw [hcalls]
    exact .go hturn (by decide) rfl rfl
  | waiting | woken | working =>
    have hother : p.worker.turn ≠ .answer := by
      rw [hworker]
      rintro ⟨⟩
    simp only [Process.answer, hworker] at hstep
    cases hstep
    exact other_workerMoves hother

/-- What a step makes of the worker while there is something to do. -/
theorem step_workerMoves (h : Owned p) (hbusy : p.queue.queued ++ p.worker.held ≠ [])
    (hrestart : ∀ memory, event ≠ .restart memory)
    (hstep : processStep decode pack growth p event = .ok (p', note)) :
    WorkerMoves p p' (note.toList.countP isCall) event.turn := by
  have hnone : none ≠ some p.worker.turn := (Option.some_ne_none _).symm
  cases event with
  | accept request net nonblock =>
    obtain ⟨next, haccept, hstep⟩ := bind_eq_ok.mp hstep
    cases hstep
    unfold Process.accept at haccept
    split at haccept
    · cases haccept
      exact .still rfl rfl hnone
    · split at haccept
      · cases haccept
        exact .still rfl rfl hnone
      · cases haccept
  | readable request around => exact readable_workerMoves hstep
  | writable request outcome =>
    obtain ⟨next, hwrite, hstep⟩ := bind_eq_ok.mp hstep
    cases hstep
    unfold Process.writable at hwrite
    split at hwrite
    · cases hwrite
      exact .still rfl rfl hnone
    · split at hwrite
      · obtain ⟨⟨kept, data⟩, -, hwrite⟩ := bind_eq_ok.mp hwrite
        cases hwrite
        exact .still rfl rfl hnone
      · cases hwrite
        exact .still rfl rfl hnone
  | wait =>
    cases hstep
    exact wait_workerMoves h hbusy
  | pop =>
    obtain ⟨next, hpop, hstep⟩ := bind_eq_ok.mp hstep
    cases hstep
    exact pop_workerMoves h hpop
  | operate reply => exact operate_workerMoves hstep
  | answer heap => exact answer_workerMoves hstep
  | snapshot moved =>
    obtain ⟨next, hnext, hstep⟩ := bind_eq_ok.mp hstep
    cases hstep
    obtain ⟨s, -, hnext⟩ := bind_eq_ok.mp hnext
    cases hnext
    exact .still rfl (turn_moved p.worker moved) hnone
  | restart memory => exact absurd rfl (hrestart memory)

/-- A request in service has a transaction in the queue or in the hands of the worker. -/
theorem Awaits.busy (hawaits : Awaits p number) (h : Owned p) :
    p.queue.queued ++ p.worker.held ≠ [] := by
  obtain ⟨request, hservice, -⟩ := hawaits
  intro hnone
  have hmem := (h.attended.service request).mpr hservice
  rw [hnone] at hmem
  cases hmem

/-- A request stays in service until the worker replies to it. -/
theorem Quiet.awaits (hquiet : Quiet pack p p' note) (hawaits : Awaits p number) :
    (∃ packed, note = some (.ret number packed)) ∨ Awaits p' number := by
  obtain ⟨request, hservice, rfl⟩ := hawaits
  have hne {other : ℕ} {req : Req} (hreq : p.requests other = some req)
      (hstate : req.state ≠ .service) : request ≠ other := by
    rintro rfl
    exact not_inService hreq hstate hservice
  cases hquiet with
  | idle => exact .inr ⟨request, hservice, rfl⟩
  | accepted other net hfree =>
    have hother : request ≠ other := by
      rintro rfl
      obtain ⟨req, hreq, -⟩ := hservice
      cases hfree.symm.trans hreq
    exact .inr ⟨request, (inService_set_of_ne hother).mpr hservice, Function.update_of_ne hother ..⟩
  | read other req nets kept handled hreq hstate hends =>
    have hother := hne hreq (by rintro hread; simp [hread] at hstate)
    cases hends with
    | waiting | closed | destroyed | queued | replied =>
      exact .inr ⟨request, (inService_set_of_ne hother).mpr hservice, rfl⟩
  | finished other buf hreq | written other buf buf' data hreq =>
    exact .inr ⟨request, (inService_set_of_ne (hne hreq write_ne_service)).mpr hservice, rfl⟩
  | woken | popped => exact .inr ⟨request, hservice, rfl⟩
  | answered t other reply buf hworker hancestor =>
    by_cases hother : request = other
    · exact .inl ⟨serializeReply reply, hother ▸ rfl⟩
    · exact .inr ⟨request, (inService_set_of_ne hother).mpr hservice, rfl⟩

/-- An operation that is not UPDATE leaves the requests alone. -/
theorem operate_requests {reply : ProtoReply} (hfits : StepFits decode growth p (.operate reply))
    (hstep : p.operate growth reply = .ok (p', note)) :
    p'.requests = p.requests ∧ p'.connections = p.connections := by
  cases hworker : p.worker with
  | working t =>
    simp only [Process.operate, hworker] at hstep
    obtain ⟨⟨db, requests, pointer⟩, hoperation, hstep⟩ := bind_eq_ok.mp hstep
    cases hstep
    obtain ⟨loaded, -, hoperation⟩ := bind_eq_ok.mp hoperation
    rw [if_neg (hfits t hworker).1] at hoperation
    obtain ⟨⟨db', result⟩, -, hoperation⟩ := bind_eq_ok.mp hoperation
    cases hoperation
    exact ⟨rfl, rfl⟩
  | waiting | woken | replying =>
    simp only [Process.operate, hworker] at hstep
    cases hstep
    exact ⟨rfl, rfl⟩

theorem step_awaits (h : Owned p) (hfits : StepFits decode growth p event)
    (hrestart : ∀ memory, event ≠ .restart memory)
    (hstep : processStep decode pack growth p event = .ok (p', note)) (hawaits : Awaits p number) :
    (∃ packed, note = some (.ret number packed)) ∨ Awaits p' number := by
  cases event with
  | accept request net nonblock =>
    obtain ⟨next, haccept, hstep⟩ := bind_eq_ok.mp hstep
    cases hstep
    have hquiet : Quiet pack p p' none := accept_quiet haccept
    exact hquiet.awaits hawaits
  | readable request around => exact (readable_quiet h hstep).awaits hawaits
  | writable request outcome =>
    obtain ⟨next, hwrite, hstep⟩ := bind_eq_ok.mp hstep
    cases hstep
    have hquiet : Quiet pack p p' none := writable_quiet h hwrite
    exact hquiet.awaits hawaits
  | wait =>
    cases hstep
    have hquiet : Quiet pack p p.wait none := wait_quiet p
    exact hquiet.awaits hawaits
  | pop =>
    obtain ⟨next, hpop, hstep⟩ := bind_eq_ok.mp hstep
    cases hstep
    have hquiet : Quiet pack p p' none := pop_quiet hpop
    exact hquiet.awaits hawaits
  | operate reply =>
    obtain ⟨hrequests, hconnections⟩ := operate_requests hfits hstep
    obtain ⟨request, hservice, hnumber⟩ := hawaits
    exact .inr ⟨request, hrequests.symm ▸ hservice, hconnections.symm ▸ hnumber⟩
  | answer heap => exact (answer_quiet h hstep).awaits hawaits
  | snapshot moved =>
    obtain ⟨next, hnext, hstep⟩ := bind_eq_ok.mp hstep
    cases hstep
    obtain ⟨s, -, hnext⟩ := bind_eq_ok.mp hnext
    cases hnext
    exact .inr hawaits
  | restart memory => exact absurd rfl (hrestart memory)

end Step

section Rounds

variable {decode : List UInt8 → Option Object} {pack : List PackCall → List UInt8} {growth : Growth}
  {p : Process} {trace : List Note} {number : ℕ}

/-- A worker that needs no more steps has nothing to do. -/
theorem Owned.idle (h : Owned p) {turn : Turn} (hneed : p.need turn = 0) :
    p.queue.queued ++ p.worker.held = [] := by
  obtain ⟨hsem, hrest⟩ := Nat.add_eq_zero_iff.mp hneed
  have hcounter := h.counter
  have hzero : p.queue.ntransSem = 0 := by omega
  cases hworker : p.worker with
  | waiting =>
    rw [hworker, hzero] at hcounter
    rw [List.length_eq_zero_iff.mp hcounter.symm]
    rfl
  | woken | working | replying =>
    rw [hworker] at hrest
    cases (Nat.add_eq_zero_iff.mp hrest).2

/-- Four steps for each transaction that is queued or in the hands of the worker. -/
theorem Traced.need_le (h : Traced pack p trace) (howned : Owned p) :
    p.need .wait ≤ 4 * (p.queue.queued ++ p.worker.held).length := by
  have hcounter := howned.counter
  rw [List.length_append, Process.need]
  cases hworker : p.worker with
  | waiting | woken | working =>
    rw [hworker] at hcounter
    simp only [WorkerState.turn, WorkerState.held, WorkerState.claims, Turn.before, Turn.place,
      Turn.rest, List.length_nil, List.length_singleton] at hcounter ⊢
    omega
  | replying t reply =>
    obtain ⟨-, object, -, rfl, -⟩ := h.replying t reply hworker
    rw [hworker] at hcounter
    simp only [WorkerState.turn, WorkerState.held, WorkerState.claims, Turn.before, Turn.place,
      Turn.rest, List.length_singleton] at hcounter ⊢
    omega

theorem filterMap_cons_note (note : Option Note) (notes : List (Option Note)) :
    (note :: notes).filterMap id = note.toList ++ notes.filterMap id := by
  cases note <;> rfl

/-- With the steps that the worker needs, what is in service is answered. The induction is on the
steps; each of the worker's in turn is one that it needs less, and each call four more. -/
theorem returns_of_need {events : List ProcessEvent} {turn : Turn} {final : Process}
    {notes : List (Option Note)} (howned : Owned p) (hawaits : Awaits p number)
    (hfits : EachStep (processStep decode pack growth) (StepFits decode growth) p events)
    (hrestarts : ∀ memory, .restart memory ∉ events)
    (hrun : run (processStep decode pack growth) p events = .ok (final, notes))
    (hneed : p.need turn + 4 * (notes.filterMap id).countP isCall ≤ paces turn events) :
    Returns (notes.filterMap id) number := by
  induction events generalizing p turn notes with
  | nil =>
    have hzero : p.need turn = 0 := by
      rw [paces] at hneed
      omega
    exact absurd (howned.idle hzero) (hawaits.busy howned)
  | cons event events ih =>
    obtain ⟨next, note, rest, hstep, hrest, rfl⟩ := run_cons_eq_ok.mp hrun
    rw [filterMap_cons_note] at hneed ⊢
    rw [List.countP_append] at hneed
    obtain ⟨hevent, hafter⟩ := hfits
    have hrestart (memory : Memory) : event ≠ .restart memory := by
      rintro rfl
      exact hrestarts memory List.mem_cons_self
    have hmoves := step_workerMoves howned (hawaits.busy howned) hrestart hstep
    rcases step_awaits howned hevent hrestart hstep hawaits with ⟨packed, rfl⟩ | hawaits'
    · exact ⟨packed, List.mem_append_left _ List.mem_cons_self⟩
    · have hreturns {turn : Turn} (hneed : next.need turn + 4 * (rest.filterMap id).countP isCall ≤
          paces turn events) : Returns (note.toList ++ rest.filterMap id) number := by
        obtain ⟨packed, hret⟩ := ih ((processStep_moves howned hstep).owned howned) hawaits'
          (hafter next note hstep)
          (fun memory hmem ↦ hrestarts memory (List.mem_cons_of_mem _ hmem)) hrest hneed
        exact ⟨packed, List.mem_append_right _ hret⟩
      rw [paces] at hneed
      split at hneed
      · next hturn =>
        rw [hturn] at hmoves
        have hless := hmoves.need_turn
        exact @hreturns turn.next (by omega)
      · have hless := hmoves.need_le turn
        exact @hreturns turn (by omega)

end Rounds

/-- Two peeks are in service, and a third connection sends one meanwhile. -/
def peeksBefore : List ProcessEvent :=
  [.accept 0 peekNet true, .accept 1 peekNet true, .accept 2 peekNet true,
    .readable 0 zeroSurroundings, .readable 1 zeroSurroundings]

/-- The worker is given three rounds. -/
def peeksAfter : List ProcessEvent :=
  [.wait, .pop, .readable 2 zeroSurroundings, .operate ⟨.ok, 0, .empty⟩, .answer fun _ ↦ 0, .wait,
    .pop, .operate ⟨.ok, 0, .empty⟩, .writable 0 (.taken 3), .answer fun _ ↦ 0, .wait, .pop,
    .operate ⟨.ok, 0, .empty⟩, .answer fun _ ↦ 0]

end FGDB.Service
