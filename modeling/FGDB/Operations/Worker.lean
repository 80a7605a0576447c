import FGDB.Operations.Answers
import FGDB.Operations.Reply

/-!
# The queue worker

The worker takes one transaction after another, has its operation run and replies to
the request. Between two transactions the network writes replies out and destroys the
requests that it is done with. An UPDATE destroys its request itself and has no reply,
and a SELECT that finds its key does not return the one that it has made.
-/

namespace FGDB.Operations

open Foundation Memory HashMap Pages Server Wal
open FGDB.Vector (Growth)

/-- What the worker works on, and the replies that it has handed to the network. -/
structure Worker (H : Type) where
  db : Database H
  requests : Requests
  sent : List (Option ℕ × List PackCall)

/-- A transaction is popped, or the network calls back for a request. -/
inductive WorkerEvent
  | transaction (call : OperationCall)
  | write (request : ℕ) (outcome : SendOutcome)
  deriving DecidableEq, Repr

def transactionsOf : List WorkerEvent → List OperationCall
  | [] => []
  | .transaction call :: events => call :: transactionsOf events
  | .write _ _ :: events => transactionsOf events

section Worker

variable {H : Type} (calls : HashmapCalls H) (growth : Growth) (heap : Memory)
  (pack : List PackCall → List UInt8)

/-- The switch of the worker. The message of a transaction is the one of its request; a reply that
the operation does not return is indeterminate. -/
def workerOperation (w : Worker H) (call : OperationCall) :
    Outcome (Database H × Requests × ReplyPointer) := do
  let _ ← w.requests.load call.trans.ancestor
  if call.trans.msg.cmd = Command.update.code then do
    -- `operation_update`
    let requests ← destroyRequest w.requests call.trans.ancestor
    return (w.db, requests, .null)
  else do
    let (db, reply) ← operationStep calls growth w.db call
    return (db, w.requests, reply.elim .indeterminate .object)

/-- One round of the loop of `transaction_queue_worker`. -/
def workerTransaction (w : Worker H) (call : OperationCall) : Outcome (Worker H) := do
  let (db, requests, reply) ← workerOperation calls growth w call
  let (requests, packed) ← requestReply heap pack requests call.trans.ancestor reply
  return ⟨db, requests, w.sent ++ [(call.trans.ancestor, packed)]⟩

/-- The network calls back for the requests that wait for their reply to be written. -/
def networkWrite (w : Worker H) (request : ℕ) (outcome : SendOutcome) : Outcome (Worker H) :=
  match w.requests request with
  | none => .ok w
  | some req =>
    if req.state = .write then do
      let (req, _) ← writeReply req outcome
      return { w with requests := w.requests.set (some request) req }
    else .ok w

def workerStep (w : Worker H) (event : WorkerEvent) : Outcome (Worker H × Unit) := do
  let w ← match event with
    | .transaction call => workerTransaction calls growth heap pack w call
    | .write request outcome => networkWrite w request outcome
  return (w, ())

end Worker

/-- The same call with another command. -/
def OperationCall.withCmd (call : OperationCall) (cmd : Command) : OperationCall :=
  { call with trans := { call.trans with msg := { call.trans.msg with cmd := cmd.code } } }

section Answers

variable (growth : Growth) (heap : Memory) (pack : List PackCall → List UInt8)

/-- An UPDATE of a key that is there to a value leaves the map that a DELETE and an INSERT leave. -/
def UpdatesKey (db db' : Database (VoidPtr ℕ)) (call : OperationCall) : Prop :=
  call.trans.msg.cmd = Command.update.code → Present hashmapCalls db call.trans.msg.key →
    call.trans.msg.val.size ≠ 0 → ∀ deleted result inserted result' d,
      operationStep hashmapCalls growth db (call.withCmd .delete) = .ok (deleted, result) →
      operationStep hashmapCalls growth deleted (call.withCmd .insert) = .ok (inserted, result') →
      Serves MapHolds inserted d → Serves MapHolds db' d

/-- The operation of a transaction returns a reply, this reply is handed to the network for the
request, and nothing else is. -/
def RepliesOnce (w : Worker (VoidPtr ℕ)) : WorkerEvent → Prop
  | .transaction call => ∃ db requests reply w',
    workerOperation hashmapCalls growth w call = .ok (db, requests, .object reply) ∧
      workerTransaction hashmapCalls growth heap pack w call = .ok w' ∧ w'.db = db ∧
      w'.sent = w.sent ++ [(call.trans.ancestor, serializeReply reply)] ∧
      UpdatesKey growth w.db w'.db call
  | .write _ _ => True

/-- No NULL or indeterminate pointer and no destroyed request is used, the requests that were replied
to are those of the transactions, and each reply is the one of its operation. -/
def WorkerReplies (start : Worker (VoidPtr ℕ)) (events : List WorkerEvent) : Prop :=
  (∃ final outputs, run (workerStep hashmapCalls growth heap pack) start events =
    .ok (final, outputs) ∧ final.sent.map Prod.fst =
      start.sent.map Prod.fst ++ (transactionsOf events).map fun call ↦ call.trans.ancestor) ∧
  EachStep (workerStep hashmapCalls growth heap pack) (RepliesOnce growth heap pack) start events

/-- The transaction is no UPDATE, the store has an answer for it, and it is no SELECT of a key that
is there. -/
def Answerable (w : Worker (VoidPtr ℕ)) : WorkerEvent → Prop
  | .transaction call =>
    call.trans.msg.cmd ≠ Command.update.code ∧ Replied growth w.db call
  | .write _ _ => True

end Answers

/-- Every transaction to come is the only one of a request that is in service. -/
structure Waiting (requests : Requests) (calls : List OperationCall) : Prop where
  alive : ∀ call ∈ calls, ∃ request req, call.trans.ancestor = some request ∧
    requests request = some req ∧ req.state = .service
  distinct : (calls.map fun call ↦ call.trans.ancestor).Nodup
  buffered : ∀ request req, requests request = some req → req.state = .write → req.buf ≠ none

section Waiting

variable {requests : Requests} {calls : List OperationCall} {call : OperationCall} {request : ℕ}
  {req : Req}

/-- A request that has got its reply has no other transaction. -/
theorem Waiting.answered (h : Waiting requests (call :: calls))
    (hancestor : call.trans.ancestor = some request) (buf : Buf) :
    Waiting (requests.set (some request) (some ⟨.write, some buf⟩)) calls := by
  have hdistinct := List.nodup_cons.mp h.distinct
  refine ⟨fun other hother ↦ ?_, hdistinct.2, fun address kept hkept hstate ↦ ?_⟩
  · obtain ⟨address, kept, haddress, hkept, hservice⟩ := h.alive other (List.mem_cons_of_mem _ hother)
    refine ⟨address, kept, haddress, ?_, hservice⟩
    rw [Requests.set_some, Function.update_of_ne _ _ _, hkept]
    intro hsame
    apply hdistinct.1
    exact List.mem_map.mpr ⟨other, hother, haddress.trans (hsame ▸ hancestor.symm)⟩
  · rw [Requests.set_some] at hkept
    by_cases hsame : address = request
    · rw [hsame, Function.update_self] at hkept
      rw [← Option.some.inj hkept]
      exact nofun
    · rw [Function.update_of_ne hsame] at hkept
      exact h.buffered address kept hkept hstate

/-- The network destroys requests that have got their reply. -/
theorem Waiting.written (h : Waiting requests calls) (hreq : requests request = some req)
    (hstate : req.state = .write) {kept : Option Req}
    (hkept : ∀ req', kept = some req' → req'.state = .write ∧ req'.buf ≠ none) :
    Waiting (requests.set (some request) kept) calls := by
  refine ⟨fun call hcall ↦ ?_, h.distinct, fun address req' hreq' hstate' ↦ ?_⟩
  · obtain ⟨address, req', haddress, hreq', hservice⟩ := h.alive call hcall
    refine ⟨address, req', haddress, ?_, hservice⟩
    rw [Requests.set_some, Function.update_of_ne _ _ _, hreq']
    rintro rfl
    rw [hreq] at hreq'
    rw [← Option.some.inj hreq', hstate] at hservice
    cases hservice
  · rw [Requests.set_some] at hreq'
    by_cases hsame : address = request
    · rw [hsame, Function.update_self] at hreq'
      exact (hkept req' hreq').2
    · rw [Function.update_of_ne hsame] at hreq'
      exact h.buffered address req' hreq' hstate'

end Waiting

section Run

variable {growth : Growth} {heap : Memory} {pack : List PackCall → List UInt8}
  {w : Worker (VoidPtr ℕ)} {d : Str → Option Str} {call : OperationCall}
  {calls : List OperationCall}

theorem isRequest_of_command {request : ℕ} {cmd : Command}
    (hancestor : call.trans.ancestor = some request) (hcmd : call.trans.msg.cmd = cmd.code)
    (hupdate : call.trans.msg.cmd ≠ Command.update.code) : IsRequest call := by
  refine ⟨fun hnone ↦ ?_, ?_⟩
  · rw [hancestor] at hnone
    cases hnone
  cases cmd with
  | peek => exact .inl hcmd
  | select => exact .inr (.inl hcmd)
  | insert => exact .inr (.inr (.inl hcmd))
  | update => exact absurd hcmd hupdate
  | delete => exact .inr (.inr (.inr hcmd))

/-- The reply of a transaction goes to its request, which then waits for the network. -/
theorem workerTransaction_replies (hserves : Serves MapHolds w.db d)
    (hwaiting : Waiting w.requests (call :: calls)) {cmd : Command}
    (hcmd : call.trans.msg.cmd = cmd.code) (hanswerable : Answerable growth w (.transaction call)) :
    ∃ w', workerTransaction hashmapCalls growth heap pack w call = .ok w' ∧
      RepliesOnce growth heap pack w (.transaction call) ∧
      w'.sent.map Prod.fst = w.sent.map Prod.fst ++ [call.trans.ancestor] ∧
      Serves MapHolds w'.db (mapStep d call).1 ∧ Waiting w'.requests calls := by
  obtain ⟨hupdate, hregular, hselect⟩ := hanswerable
  obtain ⟨request, req, hancestor, hreq, -⟩ := hwaiting.alive call List.mem_cons_self
  obtain ⟨db, result, hstep, hserves', hanswers⟩ := operationStep_ends hashmapCalls_lawful hserves
    (isRequest_of_command hancestor hcmd hupdate) hregular
  obtain ⟨reply, hreply, -⟩ := hanswers hselect
  have hload : w.requests.load call.trans.ancestor = .ok req := by
    rw [hancestor]
    exact Requests.load_eq_ok.mpr hreq
  have hoperation : workerOperation hashmapCalls growth w call =
      .ok (db, w.requests, .object reply) := by
    rw [workerOperation, hload, ok_bind, if_neg hupdate, hstep, ok_bind, hreply]
    rfl
  obtain ⟨buf, hbuf⟩ : ∃ buf, requestReply heap pack w.requests call.trans.ancestor
      (.object reply) = .ok (w.requests.set (some request) (some ⟨.write, some buf⟩),
        serializeReply reply) := by
    rw [requestReply, ReplyPointer.load, ok_bind, hload, ok_bind, hancestor]
    exact ⟨_, rfl⟩
  obtain ⟨w', hw'⟩ : ∃ w', w' = Worker.mk db
      (w.requests.set (some request) (some ⟨.write, some buf⟩))
      (w.sent ++ [(call.trans.ancestor, serializeReply reply)]) := ⟨_, rfl⟩
  have htransaction : workerTransaction hashmapCalls growth heap pack w call = .ok w' := by
    simp only [workerTransaction, hoperation, ok_bind, hbuf, hw', pure_eq_ok]
  refine ⟨w', htransaction, ?_, ?_, ?_, ?_⟩
  · refine ⟨db, w.requests, reply, w', hoperation, htransaction, ?_, ?_, fun h ↦ absurd h hupdate⟩
    · rw [hw']
    · rw [hw']
  · rw [hw', List.map_append, List.map_singleton]
  · rw [hw']
    exact hserves'
  · rw [hw']
    exact hwaiting.answered hancestor buf

/-- The network leaves the requests alone that wait for the worker. -/
theorem networkWrite_keeps (hwaiting : Waiting w.requests calls) (request : ℕ)
    (outcome : SendOutcome) : ∃ w', networkWrite w request outcome = .ok w' ∧ w'.db = w.db ∧
      w'.sent = w.sent ∧ Waiting w'.requests calls := by
  unfold networkWrite
  cases hreq : w.requests request with
  | none => exact ⟨w, rfl, rfl, rfl, hwaiting⟩
  | some req =>
    by_cases hstate : req.state = .write
    · obtain ⟨kept, data, hwrite, hkept⟩ :=
        writeReply_ok hstate (hwaiting.buffered request req hreq hstate) outcome
      simp only [if_pos hstate, hwrite, ok_bind]
      exact ⟨_, rfl, rfl, rfl, hwaiting.written hreq hstate hkept⟩
    · simp only [if_neg hstate]
      exact ⟨w, rfl, rfl, rfl, hwaiting⟩

/-- From a store that serves a map, with the requests of the transactions in service, the worker
replies once to each transaction, with the reply of its operation, whatever the network writes in
between: as long as the store has answers, no transaction is an UPDATE and no SELECT finds its
key. -/
theorem workerReplies_of_answerable {events : List WorkerEvent} (hserves : Serves MapHolds w.db d)
    (hwaiting : Waiting w.requests (transactionsOf events))
    (hcommands : ∀ call ∈ transactionsOf events, ∃ cmd : Command, call.trans.msg.cmd = cmd.code)
    (hanswerable : EachStep (workerStep hashmapCalls growth heap pack) (Answerable growth) w
      events) : WorkerReplies growth heap pack w events := by
  induction events generalizing w d with
  | nil => exact ⟨⟨w, [], rfl, (List.append_nil _).symm⟩, trivial⟩
  | cons event events ih =>
    cases event with
    | transaction call =>
      obtain ⟨cmd, hcmd⟩ := hcommands call List.mem_cons_self
      obtain ⟨w', htransaction, hreplies, hsent, hserves', hwaiting'⟩ :=
        workerTransaction_replies hserves hwaiting hcmd hanswerable.1
      have hstep : workerStep hashmapCalls growth heap pack w (.transaction call) = .ok (w', ()) := by
        rw [workerStep, htransaction]
        rfl
      obtain ⟨⟨final, outputs, hrun, hfinal⟩, hrest⟩ := ih hserves' hwaiting'
        (fun other hother ↦ hcommands other (List.mem_cons_of_mem _ hother))
        (hanswerable.2 w' () hstep)
      refine ⟨⟨final, () :: outputs, ?_, ?_⟩, hreplies, fun next output hnext ↦ ?_⟩
      · rw [run_cons_of_step hstep, hrun]
        rfl
      · rw [hfinal, hsent, List.append_assoc]
        rfl
      · rw [hstep] at hnext
        cases hnext
        exact hrest
    | write request outcome =>
      obtain ⟨w', hwrite, hdb, hsent, hwaiting'⟩ := networkWrite_keeps hwaiting request outcome
      have hstep : workerStep hashmapCalls growth heap pack w (.write request outcome) =
          .ok (w', ()) := by
        rw [workerStep, hwrite]
        rfl
      obtain ⟨⟨final, outputs, hrun, hfinal⟩, hrest⟩ := ih (hdb ▸ hserves) hwaiting' hcommands
        (hanswerable.2 w' () hstep)
      refine ⟨⟨final, () :: outputs, ?_, ?_⟩, trivial, fun next output hnext ↦ ?_⟩
      · rw [run_cons_of_step hstep, hrun]
        rfl
      · rw [hfinal, hsent]
        rfl
      · rw [hstep] at hnext
        cases hnext
        exact hrest

end Run

/-- Requests in service with the given addresses, over an empty database. -/
def startWorker (serviced : List ℕ) : Worker (VoidPtr ℕ) where
  db := emptyDatabase .source 2 (fun _ ↦ 0) 0 (initDisk [] []) ⟨0, 0, ⟨[], 0⟩⟩
  requests request := if request ∈ serviced then some ⟨.service, none⟩ else none
  sent := []

/-- A key and a value of one byte each, for a request. -/
def requestCall (request : ℕ) (cmd : Command) : OperationCall :=
  ⟨⟨some request, ⟨cmd.code, .ofByte 107, .ofByte 118⟩⟩, ⟨.error, 0, Str.empty⟩⟩

theorem startWorker_waiting {serviced : List ℕ} {calls : List OperationCall}
    (halive : ∀ call ∈ calls, ∃ request, call.trans.ancestor = some request ∧ request ∈ serviced)
    (hdistinct : (calls.map fun call ↦ call.trans.ancestor).Nodup) :
    Waiting (startWorker serviced).requests calls := by
  refine ⟨fun call hcall ↦ ?_, hdistinct, fun request req hreq hstate ↦ ?_⟩
  · obtain ⟨request, hancestor, hmem⟩ := halive call hcall
    exact ⟨request, ⟨.service, none⟩, hancestor, if_pos hmem, rfl⟩
  · have hservice : (startWorker serviced).requests request =
        if request ∈ serviced then some ⟨.service, none⟩ else none := rfl
    rw [hservice] at hreq
    split at hreq
    · rw [← Option.some.inj hreq] at hstate
      cases hstate
    · cases hreq

theorem answerable_peek {growth : Growth} {w : Worker (VoidPtr ℕ)} {call : OperationCall}
    (hcmd : call.trans.msg.cmd = Command.peek.code) : Answerable growth w (.transaction call) := by
  have hcodes : Command.peek.code ≠ Command.update.code ∧ Command.peek.code ≠ Command.insert.code ∧
      Command.peek.code ≠ Command.delete.code ∧ Command.peek.code ≠ Command.select.code := by decide
  rw [← hcmd] at hcodes
  exact ⟨hcodes.1, ⟨fun h ↦ absurd h hcodes.2.1, fun h ↦ absurd h hcodes.2.2.1⟩,
    fun h ↦ absurd h hcodes.2.2.2⟩

/-- The reply to the INSERT is written in two parts before the PEEK; the packer packs as msgpack does
for the numbers of these two. -/
theorem workerReplies_insert_peek : WorkerReplies .source (fun _ ↦ 0) (fun _ ↦ [0x92, 0, 0])
    (startWorker [0, 1]) [.transaction (requestCall 0 .insert), .write 0 (.taken 2),
      .write 0 (.taken 1), .write 0 .again, .transaction (requestCall 1 .peek)] := by
  apply workerReplies_of_answerable
  · exact emptyDatabase_serves .source 2 (fun _ ↦ 0) 0 (initDisk [] []) ⟨0, 0, ⟨[], 0⟩⟩
  · apply startWorker_waiting
    · exact List.forall_mem_cons.mpr ⟨⟨0, rfl, by decide⟩, List.forall_mem_singleton.mpr
        ⟨1, rfl, by decide⟩⟩
    · decide
  · exact List.forall_mem_cons.mpr ⟨⟨.insert, rfl⟩, List.forall_mem_singleton.mpr ⟨.peek, rfl⟩⟩
  · have hinsert : Command.insert.code ≠ Command.update.code ∧
        Command.insert.code ≠ Command.delete.code ∧
        Command.insert.code ≠ Command.select.code := by decide
    refine ⟨⟨hinsert.1, ⟨fun _ _ _ ↦ ⟨⟨by decide, ?_, ?_⟩, ?_⟩, fun h ↦ absurd h hinsert.2.1⟩,
      fun h ↦ absurd h hinsert.2.2⟩, fun _ _ _ ↦ ⟨trivial, fun _ _ _ ↦ ⟨trivial, fun _ _ _ ↦
        ⟨trivial, fun _ _ _ ↦ ⟨answerable_peek rfl, fun _ _ _ ↦ trivial⟩⟩⟩⟩⟩
    · intro index header hfirst
      cases hfirst.here
    · exact .inr ⟨nofun, Nat.two_pos, by decide, by decide⟩
    · exact fun _ _ _ ↦ ⟨trivial, fun hfull ↦ absurd hfull (by decide)⟩

/-- The request of an UPDATE is destroyed, and the reply is NULL. -/
theorem not_workerReplies_update : ¬ WorkerReplies .source (fun _ ↦ 0) (fun _ ↦ [0x92, 0, 0])
    (startWorker [0, 1]) [.transaction (requestCall 0 .insert),
      .transaction (requestCall 1 .update)] := by
  intro ⟨⟨final, outputs, hrun, _⟩, _⟩
  have hfault : (run (workerStep hashmapCalls .source (fun _ ↦ 0) fun _ ↦ [0x92, 0, 0])
      (startWorker [0, 1]) [.transaction (requestCall 0 .insert),
        .transaction (requestCall 1 .update)]).toOption.isSome = false := by decide +kernel
  rw [hrun] at hfault
  cases hfault

end FGDB.Operations
