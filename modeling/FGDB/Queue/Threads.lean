import FGDB.Queue.TransactionQueue
import Mathlib.Data.List.Count
import Mathlib.Logic.Relation

/-!
# Threads on the queue

Any number of threads push and pop on one queue. A push is one step, since it
keeps the mutex from the insertion to `sem_post`. An unforced pop is two: it
takes the semaphore, and later, with the mutex, the root of the heap. The
counter of the queue and the threads between the two steps together are as many
as the transactions in the heap, so no such thread finds it empty.
-/

namespace FGDB.Queue

open Foundation Server

/-- A thread has taken the semaphore and not yet the mutex, or it is elsewhere. -/
inductive ThreadState
  | outside
  | waited
  deriving DecidableEq, Repr

/-- A queue, its threads, and what they have pushed and what their pops have returned. -/
structure SharedQueue where
  queue : TransactionQueue
  threads : List ThreadState
  pushed : List PushedTransaction
  returned : List (Option PushedTransaction)
  deriving DecidableEq, Repr

namespace SharedQueue

/-- `init_queue`, before any thread has called. -/
def start (threads : ℕ) : SharedQueue where
  queue := initQueue
  threads := List.replicate threads .outside
  pushed := []
  returned := []

def push (shared : SharedQueue) (t : PushedTransaction) : SharedQueue :=
  { shared with queue := pushQueue shared.queue t, pushed := shared.pushed ++ [t] }

def wait (shared : SharedQueue) (thread : ℕ) (queue : TransactionQueue) : SharedQueue :=
  { shared with queue := queue, threads := shared.threads.set thread .waited }

def pop (shared : SharedQueue) (thread : ℕ) : SharedQueue :=
  { shared with
    queue := (popLocked shared.queue).1
    threads := shared.threads.set thread .outside
    returned := shared.returned ++ [(popLocked shared.queue).2] }

/-- The threads between `sem_wait` and `heap_delmin`. -/
def poppers (shared : SharedQueue) : ℕ := shared.threads.count .waited

/-- One atomic step of one thread. -/
inductive Step : SharedQueue → SharedQueue → Prop
  | push (shared : SharedQueue) (thread : ℕ) (t : PushedTransaction)
    (hthread : shared.threads[thread]? = some .outside) : Step shared (shared.push t)
  | wait (shared : SharedQueue) (thread : ℕ) (queue : TransactionQueue)
    (hthread : shared.threads[thread]? = some .outside)
    (hwait : semWait shared.queue = .ok queue) : Step shared (shared.wait thread queue)
  | pop (shared : SharedQueue) (thread : ℕ)
    (hthread : shared.threads[thread]? = some .waited) : Step shared (shared.pop thread)

/-- The counter and the threads that have taken from it account for the heap, and what was
pushed is in the heap or was returned. -/
structure Invariant (shared : SharedQueue) : Prop where
  heap : HeapValid shared.queue.h
  counter : shared.queue.ntransSem + shared.poppers = shared.queue.queued.length
  conserved : (shared.queue.queued.map some ++ shared.returned).Perm (shared.pushed.map some)

theorem invariant_start (threads : ℕ) : (start threads).Invariant where
  heap := heapValid_nil
  counter := by
    have hnone : (start threads).poppers = 0 := by
      rw [poppers, start, List.count_replicate]
      rfl
    rw [hnone]
    rfl
  conserved := List.Perm.refl _

theorem poppers_set {threads : List ThreadState} {thread : ℕ} {old : ThreadState}
    (hthread : threads[thread]? = some old) (new : ThreadState) :
    (threads.set thread new).count .waited + [old].count .waited =
      threads.count .waited + [new].count .waited := by
  obtain ⟨hlt, hold⟩ := List.getElem?_eq_some_iff.mp hthread
  have hsplit : threads = threads.take thread ++ old :: threads.drop (thread + 1) := by
    rw [← hold, List.getElem_cons_drop, List.take_append_drop]
  have hset : threads.set thread new =
      threads.take thread ++ new :: threads.drop (thread + 1) := by
    rw [List.set_eq_take_append_cons_drop, if_pos hlt]
  have hcount := congrArg (List.count ThreadState.waited) hsplit
  rw [List.count_append, List.count_cons] at hcount
  rw [hset, List.count_append, List.count_cons, List.count_singleton, List.count_singleton]
  omega

theorem Invariant.push {shared : SharedQueue} (h : shared.Invariant) (t : PushedTransaction) :
    (shared.push t).Invariant := by
  obtain ⟨hheap, hperm⟩ := pushQueue_spec h.heap t
  refine ⟨hheap, ?_, ?_⟩
  · calc (shared.push t).queue.ntransSem + (shared.push t).poppers
        = shared.queue.ntransSem + shared.poppers + 1 := Nat.add_right_comm ..
      _ = shared.queue.queued.length + 1 := by rw [h.counter]
      _ = (shared.push t).queue.queued.length := by
        rw [SharedQueue.push, hperm.length_eq, List.length_append, List.length_singleton]
  · have hqueued : ((shared.push t).queue.queued.map some ++ shared.returned).Perm
        (shared.queue.queued.map some ++ [some t] ++ shared.returned) :=
      ((hperm.map some).trans (by rw [List.map_append, List.map_singleton])).append_right _
    have hmoved : (shared.queue.queued.map some ++ [some t] ++ shared.returned).Perm
        (shared.queue.queued.map some ++ shared.returned ++ [some t]) := by
      rw [List.append_assoc, List.append_assoc]
      exact List.perm_append_comm.append_left _
    have hpushed : (shared.push t).pushed.map some = shared.pushed.map some ++ [some t] := by
      rw [SharedQueue.push, List.map_append, List.map_singleton]
    rw [hpushed]
    exact (hqueued.trans hmoved).trans (h.conserved.append_right _)

theorem semWait_eq_ok {queue queue' : TransactionQueue} (hwait : semWait queue = .ok queue') :
    queue'.h = queue.h ∧ queue'.ntransSem + 1 = queue.ntransSem := by
  unfold semWait at hwait
  by_cases hzero : queue.ntransSem = 0
  · rw [if_pos hzero] at hwait
    cases hwait
  · rw [if_neg hzero, Except.ok.injEq] at hwait
    rw [← hwait]
    exact ⟨rfl, Nat.sub_add_cancel (Nat.pos_of_ne_zero hzero)⟩

theorem Invariant.wait {shared : SharedQueue} (h : shared.Invariant) {thread : ℕ}
    {queue : TransactionQueue} (hthread : shared.threads[thread]? = some .outside)
    (hwait : semWait shared.queue = .ok queue) : (shared.wait thread queue).Invariant := by
  obtain ⟨hh, hsem⟩ := semWait_eq_ok hwait
  have hqueued : queue.queued = shared.queue.queued := by
    rw [TransactionQueue.queued, hh, TransactionQueue.queued]
  have hpoppers : (shared.wait thread queue).poppers = shared.poppers + 1 :=
    poppers_set hthread .waited
  refine ⟨hh ▸ h.heap, ?_, ?_⟩
  · calc (shared.wait thread queue).queue.ntransSem + (shared.wait thread queue).poppers
        = queue.ntransSem + (shared.poppers + 1) := by rw [hpoppers, SharedQueue.wait]
      _ = queue.ntransSem + 1 + shared.poppers := by rw [Nat.add_comm shared.poppers, Nat.add_assoc]
      _ = shared.queue.queued.length := by rw [hsem, h.counter]
      _ = queue.queued.length := by rw [hqueued]
  · have hconserved := h.conserved
    rwa [← hqueued] at hconserved

/-- A thread that has taken the semaphore finds a transaction in the heap. -/
theorem Invariant.pop {shared : SharedQueue} (h : shared.Invariant) {thread : ℕ}
    (hthread : shared.threads[thread]? = some .waited) :
    (popLocked shared.queue).2 ≠ none ∧ (shared.pop thread).Invariant := by
  obtain ⟨queue', result, hpop⟩ : ∃ queue' result, popLocked shared.queue = (queue', result) :=
    ⟨_, _, rfl⟩
  obtain ⟨hheap, hsem, hpopped⟩ := popLocked_spec h.heap hpop
  have hpoppers : (shared.pop thread).poppers + 1 = shared.poppers := poppers_set hthread .outside
  have hqueue : (shared.pop thread).queue = queue' := by rw [SharedQueue.pop, hpop]
  have hreturned : (shared.pop thread).returned = shared.returned ++ [result] := by
    rw [SharedQueue.pop, hpop]
  have hcounter := h.counter
  rw [hpop]
  cases hpopped with
  | empty hempty =>
    rw [hempty, List.length_nil] at hcounter
    omega
  | taken t hperm =>
    refine ⟨nofun, hqueue ▸ hheap, ?_, ?_⟩
    · have hlength := hperm.length_eq
      rw [List.length_cons] at hlength
      rw [hqueue, hsem]
      omega
    · have htaken : (some t :: (queue'.queued.map some ++ shared.returned)).Perm
          (shared.queue.queued.map some ++ shared.returned) :=
        (hperm.map some).append_right shared.returned
      rw [hqueue, hreturned, ← List.append_assoc]
      exact (List.perm_append_singleton ..).trans (htaken.trans h.conserved)

theorem Step.invariant {shared shared' : SharedQueue} (hstep : Step shared shared')
    (h : shared.Invariant) : shared'.Invariant := by
  cases hstep with
  | push thread t hthread => exact h.push t
  | wait thread queue hthread hwait => exact h.wait hthread hwait
  | pop thread hthread => exact (h.pop hthread).2

/-- The states that some interleaving of the threads' steps reaches. -/
def Reachable (threads : ℕ) (shared : SharedQueue) : Prop :=
  Relation.ReflTransGen Step (start threads) shared

theorem Reachable.invariant {threads : ℕ} {shared : SharedQueue} (h : Reachable threads shared) :
    shared.Invariant := by
  induction h with
  | refl => exact invariant_start threads
  | tail _ hstep ih => exact hstep.invariant ih

/-- In every interleaving a pop that returns gives a transaction, no transaction is returned more
often than it was pushed, none is lost, and the counter matches the heap. -/
theorem pops_conserve_transactions {threads : ℕ} {shared : SharedQueue}
    (h : Reachable threads shared) :
    none ∉ shared.returned ∧
      (∀ t, shared.returned.count (some t) ≤ shared.pushed.count t) ∧
      (shared.queue.queued.map some ++ shared.returned).Perm (shared.pushed.map some) ∧
      shared.queue.ntransSem + shared.poppers = shared.queue.queued.length := by
  have hinv := h.invariant
  refine ⟨?_, ?_, hinv.conserved, hinv.counter⟩
  · intro hnone
    have hmem := hinv.conserved.mem_iff.mp (List.mem_append_right _ hnone)
    obtain ⟨t, _, ht⟩ := List.mem_map.mp hmem
    cases ht
  · intro t
    have hcount := hinv.conserved.count_eq (some t)
    rw [List.count_append, List.count_map_of_injective _ _ (Option.some_injective _)] at hcount
    rw [List.count_map_of_injective _ _ (Option.some_injective _)] at hcount
    omega

/-- One thread pushes a transaction without padding, and another pops it. -/
theorem pops_conserve_one_push : ∃ shared, Reachable 2 shared ∧ shared.returned ≠ [] ∧
    none ∉ shared.returned ∧
      (∀ t, shared.returned.count (some t) ≤ shared.pushed.count t) ∧
      (shared.queue.queued.map some ++ shared.returned).Perm (shared.pushed.map some) ∧
      shared.queue.ntransSem + shared.poppers = shared.queue.queued.length := by
  obtain ⟨t, ht⟩ : ∃ t, (⟨⟨none, ⟨0, Str.empty, Str.empty⟩⟩, (0, 0, 0)⟩ : PushedTransaction) = t :=
    ⟨_, rfl⟩
  have hpush : Step (start 2) ((start 2).push t) := .push _ 0 t rfl
  have hwait : Step ((start 2).push t)
      (((start 2).push t).wait 1 ⟨((start 2).push t).queue.h, 0⟩) := .wait _ 1 _ rfl rfl
  have hpop : Step (((start 2).push t).wait 1 ⟨((start 2).push t).queue.h, 0⟩)
      ((((start 2).push t).wait 1 ⟨((start 2).push t).queue.h, 0⟩).pop 1) := .pop _ 1 rfl
  have hreach : Reachable 2 ((((start 2).push t).wait 1 ⟨((start 2).push t).queue.h, 0⟩).pop 1) :=
    ((Relation.ReflTransGen.single hpush).tail hwait).tail hpop
  exact ⟨_, hreach, List.append_ne_nil_of_right_ne_nil _ (List.cons_ne_nil _ _),
    pops_conserve_transactions hreach⟩

end SharedQueue

end FGDB.Queue
