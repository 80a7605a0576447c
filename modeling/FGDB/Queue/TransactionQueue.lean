import FGDB.Queue.Heap
import FGDB.Server.Message
import Mathlib.Data.List.MinMax

/-!
# The queue of transactions

The queue orders its transactions by a heap whose key is a pointer to the
command of the message. The command is one byte, and the comparison reads four:
the three behind it are padding that nothing has written. The counter of the
queue is a semaphore, which a forced pop does not touch.
-/

namespace FGDB.Queue

open Foundation Server

/-- A transaction with the padding behind the command of its message. -/
structure PushedTransaction where
  trans : Transaction
  padding : UInt8 × UInt8 × UInt8
  deriving DecidableEq, Repr

/-- The signed value of four bytes. -/
def signedValue (value : ℕ) : ℤ := if value < 2 ^ 31 then value else value - 2 ^ 32

namespace PushedTransaction

def cmd (t : PushedTransaction) : UInt8 := t.trans.msg.cmd

/-- What the comparison reads at the address of the command. -/
def heapKey (t : PushedTransaction) : ℤ :=
  signedValue (leValue [t.cmd, t.padding.1, t.padding.2.1, t.padding.2.2])

end PushedTransaction

/-- `queue_t`. -/
structure TransactionQueue where
  h : List (HeapEntry ℤ PushedTransaction)
  ntransSem : ℕ
  deriving DecidableEq, Repr

def initQueue : TransactionQueue := ⟨[], 0⟩

def pushQueue (queue : TransactionQueue) (t : PushedTransaction) : TransactionQueue where
  h := heapInsert compareIntKeys queue.h t.heapKey t
  ntransSem := queue.ntransSem + 1

/-- `sem_wait`; on a counter of zero the caller waits for another thread. -/
def semWait (queue : TransactionQueue) : Outcome TransactionQueue :=
  if queue.ntransSem = 0 then .error .nontermination
  else .ok { queue with ntransSem := queue.ntransSem - 1 }

/-- The part of `pop_queue` under the mutex. -/
def popLocked (queue : TransactionQueue) : TransactionQueue × Option PushedTransaction :=
  match heapDelmin compareIntKeys queue.h with
  | none => (queue, none)
  | some (entry, h) => ({ queue with h := h }, some entry.value)

def popQueue (queue : TransactionQueue) (force : Bool) :
    Outcome (TransactionQueue × Option PushedTransaction) :=
  if force then .ok (popLocked queue) else do
    let queue ← semWait queue
    return popLocked queue

inductive QueueCall
  | push (t : PushedTransaction)
  | pop (force : Bool)
  deriving DecidableEq, Repr

def queueStep (queue : TransactionQueue) :
    QueueCall → Outcome (TransactionQueue × Option PushedTransaction)
  | .push t => .ok (pushQueue queue t, none)
  | .pop force => popQueue queue force

/-- The transactions in the queue. -/
def TransactionQueue.queued (queue : TransactionQueue) : List PushedTransaction :=
  queue.h.map HeapEntry.value

/-- A heap of transactions under what their commands read as. -/
structure HeapValid (h : List (HeapEntry ℤ PushedTransaction)) : Prop where
  heap : IsHeap h
  keys : ∀ entry ∈ h, entry.key = entry.value.heapKey

theorem heapValid_nil : HeapValid [] where
  heap _ _ _ _ hparent := nomatch hparent
  keys _ hmem := nomatch hmem

theorem pushQueue_spec {queue : TransactionQueue} (h : HeapValid queue.h)
    (t : PushedTransaction) : HeapValid (pushQueue queue t).h ∧
      (pushQueue queue t).queued.Perm (queue.queued ++ [t]) := by
  obtain ⟨hheap, hperm⟩ := heapInsert_spec compareIntKeys_compares h.heap t.heapKey t
  refine ⟨⟨hheap, fun entry hmem ↦ ?_⟩, ?_⟩
  · rcases List.mem_append.mp (hperm.mem_iff.mp hmem) with hmem | hmem
    · exact h.keys entry hmem
    · rw [List.mem_singleton.mp hmem]
  · have hmap := hperm.map HeapEntry.value
    rwa [List.map_append, List.map_singleton] at hmap

/-- What the pop under the mutex takes out of the heap. -/
inductive Popped (queued queued' : List PushedTransaction) : Option PushedTransaction → Prop
  | empty (hempty : queued = []) (hempty' : queued' = []) : Popped queued queued' none
  | taken (t : PushedTransaction) (hperm : (t :: queued').Perm queued)
    (hmin : ∀ u ∈ queued, t.heapKey ≤ u.heapKey) : Popped queued queued' (some t)

/-- A pop under the mutex takes a transaction with a smallest key, if there is one. -/
theorem popLocked_spec {queue queue' : TransactionQueue} (h : HeapValid queue.h)
    {result : Option PushedTransaction} (hpop : popLocked queue = (queue', result)) :
    HeapValid queue'.h ∧ queue'.ntransSem = queue.ntransSem ∧
      Popped queue.queued queue'.queued result := by
  by_cases hne : queue.h = []
  · have hnone : popLocked queue = (queue, none) := by
      simp only [popLocked, hne, heapDelmin]
    have hempty : queue.queued = [] := by
      rw [TransactionQueue.queued, hne, List.map_nil]
    rw [hnone, Prod.mk.injEq] at hpop
    rw [← hpop.1, ← hpop.2]
    exact ⟨h, rfl, .empty hempty hempty⟩
  · obtain ⟨root, rest, hdelmin, hheap, hperm, hmin⟩ :=
      heapDelmin_spec compareIntKeys_compares h.heap hne
    have hsome : popLocked queue = ({ queue with h := rest }, some root.value) := by
      simp only [popLocked, hdelmin]
    rw [hsome, Prod.mk.injEq] at hpop
    rw [← hpop.1, ← hpop.2]
    refine ⟨⟨hheap, fun entry hmem ↦ ?_⟩, rfl, .taken root.value (hperm.map HeapEntry.value)
      fun u hu ↦ ?_⟩
    · exact h.keys entry (hperm.mem_iff.mp (List.mem_cons_of_mem _ hmem))
    · obtain ⟨entry, hentry, rfl⟩ := List.mem_map.mp hu
      rw [← h.keys entry hentry, ← h.keys root (hperm.mem_iff.mp List.mem_cons_self)]
      exact hmin entry hentry

theorem popQueue_spec {queue queue' : TransactionQueue} (h : HeapValid queue.h) {force : Bool}
    {result : Option PushedTransaction} (hpop : popQueue queue force = .ok (queue', result)) :
    HeapValid queue'.h ∧ Popped queue.queued queue'.queued result := by
  unfold popQueue at hpop
  cases force with
  | true =>
    have hspec := popLocked_spec h (Except.ok.inj hpop)
    exact ⟨hspec.1, hspec.2.2⟩
  | false =>
    obtain ⟨locked, hwait, hlocked⟩ := bind_eq_ok.mp hpop
    unfold semWait at hwait
    by_cases hzero : queue.ntransSem = 0
    · rw [if_pos hzero] at hwait
      cases hwait
    · rw [if_neg hzero, Except.ok.injEq] at hwait
      rw [← hwait] at hlocked
      have hspec := @popLocked_spec { queue with ntransSem := queue.ntransSem - 1 } queue' h result
        (Except.ok.inj hlocked)
      exact ⟨hspec.1, hspec.2.2⟩

theorem queueStep_heapValid (queue : TransactionQueue) (call : QueueCall)
    (next : TransactionQueue) (output : Option PushedTransaction) (h : HeapValid queue.h)
    (hstep : queueStep queue call = .ok (next, output)) : HeapValid next.h := by
  cases call with
  | push t =>
    rw [queueStep, Except.ok.injEq, Prod.mk.injEq] at hstep
    rw [← hstep.1]
    exact (pushQueue_spec h t).1
  | pop force => exact (popQueue_spec h hstep).1

end FGDB.Queue
