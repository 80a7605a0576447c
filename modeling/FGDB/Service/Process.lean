import FGDB.Foundation.Linearizability
import FGDB.Operations.Connection
import FGDB.Operations.Worker
import FGDB.Queue.Threads
import FGDB.Restart.Session

/-!
# The process

One thread runs the event loop: it accepts connections, calls the parser for those that
can be read and the writer for those that can be written. The other one is the queue
worker, which takes the semaphore, pops a transaction, runs its operation and replies. A
signal can come between any two of these steps, for a snapshot or for a shutdown, after
which the process is started again.

A call of an operation is the step that queues it, the operation takes effect where the
worker runs it, and it returns where the worker replies. A client calls before, and
has its answer after.
-/

namespace FGDB.Service

open Foundation Memory HashMap Pages Queue Server Operations Restart
open FGDB.Vector (Growth)

/-- Where the worker is in its loop: before the semaphore, before the mutex, with a transaction, and
with what the operation has given as the reply. -/
inductive WorkerState
  | waiting
  | woken
  | working (t : PushedTransaction)
  | replying (t : PushedTransaction) (reply : ReplyPointer)

/-- The connections, numbered as they were accepted. The last one of an address, the bytes of the
replies and those that send has taken are noted. -/
structure Connections where
  count : ℕ
  number : ℕ → ℕ
  serialized : ℕ → List UInt8
  accepted : ℕ → List UInt8

structure Process where
  db : Database (VoidPtr ℕ)
  requests : Requests
  nets : ℕ → Net
  queue : TransactionQueue
  worker : WorkerState
  connections : Connections

/-- What is noted of the transactions, by the number of the connection. -/
abbrev Note := TraceEvent ℕ Msg (List PackCall)

/-- A watcher or the worker runs, or a signal comes. The allocator gives the addresses and what is
there, the network its outcomes. -/
inductive ProcessEvent
  | accept (request : ℕ) (net : Net) (nonblock : Bool)
  | readable (request : ℕ) (around : Surroundings)
  | writable (request : ℕ) (outcome : SendOutcome)
  | wait
  | pop
  | operate (reply : ProtoReply)
  | answer (heap : Memory)
  | snapshot (moved : Memory)
  | restart (memory : Memory)

namespace Connections

def start : Connections := ⟨0, fun _ ↦ 0, fun _ ↦ [], fun _ ↦ []⟩

def add (c : Connections) (request : ℕ) : Connections :=
  { c with count := c.count + 1, number := Function.update c.number request c.count }

def replied (c : Connections) (request : ℕ) (data : List UInt8) : Connections :=
  { c with serialized := Function.update c.serialized (c.number request) data }

def sent (c : Connections) (request : ℕ) (data : List UInt8) : Connections :=
  { c with
    accepted := Function.update c.accepted (c.number request)
      (c.accepted (c.number request) ++ data) }

end Connections

namespace WorkerState

/-- The transaction that the worker has popped, if its request is still to be answered: an operation
without a reply has destroyed it. -/
def held : WorkerState → List PushedTransaction
  | waiting | woken | replying _ .null => []
  | working t | replying t (.object _) | replying t .indeterminate => [t]

/-- The worker has taken the semaphore for a transaction that is still in the queue. -/
def claims : WorkerState → ℕ
  | woken => 1
  | waiting | working _ | replying _ _ => 0

/-- The reply has the value of a DELETE, which is still in the page. -/
def borrows : WorkerState → Bool
  | replying t (.object reply) => t.cmd = Command.delete.code ∧ reply.code = .ok
  | _ => false

/-- The bytes of a value in a page are other ones. -/
def moved (worker : WorkerState) (memory : Memory) : WorkerState :=
  match worker with
  | replying t (.object reply) =>
    if worker.borrows then
      replying t (.object { reply with
        val := ⟨memory.load 0 reply.val.size, by rw [length_load]; exact reply.val.size_lt⟩ })
    else worker
  | _ => worker

end WorkerState

section Process

variable (decode : List UInt8 → Option Object) (pack : List PackCall → List UInt8)

/-- One call of the parser for a request in the table, with what became of a message that has
come. -/
def readRequest (around : Surroundings) (requests : Requests) (request : ℕ) (req : Req) (net : Net) :
    Outcome (Requests × Net × Option Handled) := do
  match ← parseRequestOnStack around.stack around.heap req net with
  | (.waiting req, net) => return (requests.set (some request) (some req), net, none)
  | (.destroyed, net) => do
    let requests ← destroyRequest requests (some request)
    return (requests, net, none)
  | (.parsing parsed, net) => do
    let buf ← parsed.buf.elim (.error .nullPointer) .ok
    let (requests, handled) ← parseMessage decode pack request around requests buf
    return (requests, net, some handled)

/-- The queue after a message has been handled. -/
def handledQueue (queue : TransactionQueue) : Handled → TransactionQueue
  | .queued t => pushQueue queue t
  | .replied _ | .destroyed => queue

namespace Process

/-- `db_start` has run, and no connection has been accepted. -/
def start (db : Database (VoidPtr ℕ)) : Process where
  db := db
  requests _ := none
  nets _ := ⟨[], []⟩
  queue := initQueue
  worker := .waiting
  connections := .start

/-- What is noted of a message that has been handled. -/
def handle (p : Process) (request : ℕ) : Option Handled → Process × Option Note
  | some (.queued t) => ({ p with queue := handledQueue p.queue (.queued t) },
      some (.call (p.connections.number request) t.trans.msg))
  | some (.replied packed) =>
    ({ p with connections := p.connections.replied request (pack packed) }, none)
  | some .destroyed | none => (p, none)

/-- `init_request`. A request that is given up there is destroyed with a buffer that nothing has
been written to. -/
def accept (p : Process) (request : ℕ) (net : Net) (nonblock : Bool) : Outcome Process :=
  if (p.requests request).isSome then .ok p
  else if nonblock then
    .ok { p with
      requests := p.requests.set (some request) (some initRequest)
      nets := Function.update p.nets request net
      connections := p.connections.add request }
  else .error .indeterminate

def readable (p : Process) (request : ℕ) (around : Surroundings) :
    Outcome (Process × Option Note) :=
  match p.requests request with
  | none => .ok (p, none)
  | some req =>
    if req.state = .init ∨ req.state = .read then do
      let (requests, net, handled) ← readRequest decode pack { around with queue := p.queue }
        p.requests request req (p.nets request)
      return handle pack { p with
        requests := requests
        nets := Function.update p.nets request net } request handled
    else .ok (p, none)

def writable (p : Process) (request : ℕ) (outcome : SendOutcome) : Outcome Process :=
  match p.requests request with
  | none => .ok p
  | some req =>
    if req.state = .write then do
      let (req, data) ← writeReply req outcome
      return { p with
        requests := p.requests.set (some request) req
        connections := p.connections.sent request data }
    else .ok p

/-- A worker that finds the counter at zero goes on waiting. -/
def wait (p : Process) : Process :=
  match p.worker, semWait p.queue with
  | .waiting, .ok queue => { p with queue := queue, worker := .woken }
  | _, _ => p

/-- The ancestor of the transaction is read before the pointer is checked. -/
def pop (p : Process) : Outcome Process :=
  match p.worker with
  | .woken =>
    match popLocked p.queue with
    | (_, none) => .error .nullPointer
    | (queue, some t) => .ok { p with queue := queue, worker := .working t }
  | _ => .ok p

/-- The operation has taken effect when it has a reply. -/
def effectOf (p : Process) (t : PushedTransaction) : ReplyPointer → Option Note
  | .object reply => t.trans.ancestor.map fun request ↦
      .point (p.connections.number request) t.trans.msg (serializeReply reply)
  | .null | .indeterminate => none

def operate (growth : Growth) (p : Process) (reply : ProtoReply) : Outcome (Process × Option Note) :=
  match p.worker with
  | .working t => do
    let (db, requests, pointer) ←
      workerOperation hashmapCalls growth ⟨p.db, p.requests, []⟩ ⟨t.trans, reply⟩
    return ({ p with db := db, requests := requests, worker := .replying t pointer },
      p.effectOf t pointer)
  | _ => .ok (p, none)

def answer (p : Process) (heap : Memory) : Outcome (Process × Option Note) :=
  match p.worker with
  | .replying t pointer => do
    let (requests, packed) ← requestReply heap pack p.requests t.trans.ancestor pointer
    return ({ p with
      requests := requests
      worker := .waiting
      connections := t.trans.ancestor.elim p.connections fun request ↦
        p.connections.replied request (pack packed) },
      t.trans.ancestor.map fun request ↦ .ret (p.connections.number request) packed)
  | _ => .ok (p, none)

/-- `snapshot_handler`; the pages are compacted under a reply that borrows from them. -/
def takeSnapshot (p : Process) (moved : Memory) : Outcome Process := do
  let s ← snapshot p.db.storage
  return { p with db := { p.db with storage := s }, worker := p.worker.moved moved }

/-- The shutdown handler and the next start. The connections are closed, and what was queued or in
the hands of the worker is gone. -/
def stopAndStart (growth : Growth) (p : Process) (memory : Memory) : Outcome Process := do
  let db ← restart hashmapCalls growth hashmapNew memory p.db
  return { start db with connections := p.connections }

end Process

def processStep (growth : Growth) (p : Process) (event : ProcessEvent) :
    Outcome (Process × Option Note) :=
  match event with
  | .accept request net nonblock => do
    let p ← p.accept request net nonblock
    return (p, none)
  | .readable request around => p.readable decode pack request around
  | .writable request outcome => do
    let p ← p.writable request outcome
    return (p, none)
  | .wait => .ok (p.wait, none)
  | .pop => do
    let p ← p.pop
    return (p, none)
  | .operate reply => p.operate growth reply
  | .answer heap => p.answer pack heap
  | .snapshot moved => do
    let p ← p.takeSnapshot moved
    return (p, none)
  | .restart memory => do
    let p ← p.stopAndStart growth memory
    return (p, none)

end Process

section Pieces

variable {decode : List UInt8 → Option Object} {pack : List PackCall → List UInt8}
  {requests requests' : Requests} {request : ℕ} {queue queue' : TransactionQueue} {msg : Msg}
  {handled : Handled}

/-- The watcher of a single connection calls the same parser. -/
theorem onReadable_eq {c : Connection} {req : Req} (hreq : c.requests request = some req)
    (hstate : req.state = .init ∨ req.state = .read) (around : Surroundings) :
    onReadable decode pack request c around = do
      let (requests, net, handled) ← readRequest decode pack around c.requests request req c.net
      return { c with
        requests := requests
        net := net
        serialized := handled.elim c.serialized (Handled.serialized pack) } := by
  rw [onReadable, hreq]
  simp only [if_pos hstate, readRequest]
  cases parseRequestOnStack around.stack around.heap req c.net with
  | error fault => rfl
  | ok result =>
    obtain ⟨verdict, net⟩ := result
    cases verdict with
    | waiting req => rfl
    | destroyed =>
      simp only [ok_bind]
      cases destroyRequest c.requests (some request) <;> rfl
    | parsing parsed =>
      simp only [ok_bind]
      cases parsed.buf with
      | none => rfl
      | some buf =>
        simp only [Option.elim_some, ok_bind]
        cases parseMessage decode pack request around c.requests buf <;> rfl

/-- The worker operates and answers as in one round of its loop, if nothing comes in between. -/
theorem operate_answer {growth : Growth} {p : Process} {t : PushedTransaction}
    (hworker : p.worker = .working t) (reply : ProtoReply) (heap : Memory) :
    (do
      let (p, _) ← p.operate growth reply
      let (p, _) ← p.answer pack heap
      return (p.db, p.requests)) = do
      let w ← workerTransaction hashmapCalls growth heap pack ⟨p.db, p.requests, []⟩
        ⟨t.trans, reply⟩
      return (w.db, w.requests) := by
  simp only [Process.operate, hworker, workerTransaction]
  cases workerOperation hashmapCalls growth ⟨p.db, p.requests, []⟩ ⟨t.trans, reply⟩ with
  | error fault => rfl
  | ok result =>
    obtain ⟨db, requests, pointer⟩ := result
    simp only [ok_bind, pure_eq_ok, Process.answer]
    cases requestReply heap pack requests t.trans.ancestor pointer <;> rfl

/-- The queue that the handling of a message leaves. -/
theorem parseService_queue {around : Surroundings} {command : Object}
    (h : parseService around.heap pack around.reply around.granted around.padding
      (requests, queue) request msg command = .ok ((requests', queue'), handled)) :
    queue' = handledQueue queue handled := by
  have hfatal {error : ProtoReplyError}
      (h : replyFatal around.heap pack around.reply (requests, queue) request error =
        .ok ((requests', queue'), handled)) : queue' = handledQueue queue handled := by
    obtain ⟨⟨replied, packed⟩, -, h⟩ := bind_eq_ok.mp h
    cases h
    rfl
  unfold parseService at h
  split at h
  · obtain ⟨destroyed, -, h⟩ := bind_eq_ok.mp h
    cases h
    rfl
  · obtain ⟨name, -, h⟩ := bind_eq_ok.mp h
    split at h
    · split at h
      · exact hfatal h
      · cases h
        rfl
    · exact hfatal h

end Pieces

end FGDB.Service
