import FGDB.Queue.TransactionQueue

/-!
# The order in which transactions leave the queue

With arbitrary padding a pop takes the smallest command exactly when the
smallest four-byte value belongs to it. With padding of zeros the smallest
command is taken, but the design has three classes, and a class is served in the
order of arrival: the queue does so where the next transaction is the only one
with the smallest command.
-/

namespace FGDB.Queue

open Foundation Server

section Padding

/-- The transactions with the smallest key have the smallest command. -/
def SmallestFirst (queued : List PushedTransaction) : Prop :=
  ∀ t ∈ queued, (∀ u ∈ queued, t.heapKey ≤ u.heapKey) → ∀ u ∈ queued, t.cmd ≤ u.cmd

/-- A pop on a queue with transactions returns one whose command is the smallest. -/
def PopsSmallest (queue : TransactionQueue) (call : QueueCall) : Prop :=
  ∀ force queue' result, call = .pop force → popQueue queue force = .ok (queue', result) →
    queue.queued ≠ [] → ∃ t ∈ queue.queued, result = some t ∧ ∀ u ∈ queue.queued, t.cmd ≤ u.cmd

/-- The padding leaves the order of the commands to every pop that returns. -/
def PaddingAgrees (queue : TransactionQueue) (call : QueueCall) : Prop :=
  ∀ force, call = .pop force → (force = true ∨ 0 < queue.ntransSem) → SmallestFirst queue.queued

theorem signedValue_injective {a b : ℕ} (ha : a < 2 ^ 32) (hb : b < 2 ^ 32)
    (h : signedValue a = signedValue b) : a = b := by
  unfold signedValue at h
  split at h <;> split at h <;> omega

/-- Transactions with one key have one command. -/
theorem cmd_eq_of_heapKey {t u : PushedTransaction} (h : t.heapKey = u.heapKey) :
    t.cmd = u.cmd := by
  have hlt (v : PushedTransaction) :
      leValue [v.cmd, v.padding.1, v.padding.2.1, v.padding.2.2] < 2 ^ 32 := by
    simpa using leValue_lt [v.cmd, v.padding.1, v.padding.2.1, v.padding.2.2]
  have hvalue := signedValue_injective (hlt t) (hlt u) h
  have ht := t.cmd.toNat_lt
  have hu := u.cmd.toNat_lt
  apply UInt8.toNat_inj.mp
  simp only [leValue] at hvalue
  omega

theorem popQueue_returns_iff (queue : TransactionQueue) (force : Bool) :
    (∃ result, popQueue queue force = .ok result) ↔ force = true ∨ 0 < queue.ntransSem := by
  cases force with
  | true => simp [popQueue]
  | false =>
    by_cases hzero : queue.ntransSem = 0
    · simp [popQueue, semWait, hzero]
    · simp [popQueue, semWait, hzero, Nat.pos_of_ne_zero hzero]

theorem popsSmallest_step {queue : TransactionQueue} (h : HeapValid queue.h) (call : QueueCall) :
    PopsSmallest queue call ↔ PaddingAgrees queue call := by
  constructor
  · intro hpops force hcall hreturns t ht hmin u hu
    obtain ⟨⟨queue', result⟩, hpop⟩ := (popQueue_returns_iff queue force).mpr hreturns
    obtain ⟨v, hv, rfl, hsmallest⟩ :=
      hpops force queue' result hcall hpop (List.ne_nil_of_mem ht)
    cases (popQueue_spec h hpop).2 with
    | taken _ _ hleast =>
      rw [cmd_eq_of_heapKey (le_antisymm (hmin v hv) (hleast t ht))]
      exact hsmallest u hu
  · intro hagrees force queue' result hcall hpop hne
    have hreturns := (popQueue_returns_iff queue force).mp ⟨_, hpop⟩
    cases (popQueue_spec h hpop).2 with
    | empty hempty _ => exact absurd hempty hne
    | taken t hperm hleast =>
      have ht : t ∈ queue.queued := hperm.mem_iff.mp List.mem_cons_self
      exact ⟨t, ht, rfl, hagrees force hcall hreturns t ht hleast⟩

/-- Every pop of a sequence of calls returns a smallest command exactly when at every pop the
padding leaves the order of the commands. -/
theorem popsSmallest_iff (calls : List QueueCall) :
    EachStep queueStep PopsSmallest initQueue calls ↔
      EachStep queueStep PaddingAgrees initQueue calls :=
  eachStep_congr queueStep_heapValid (fun _ call h ↦ popsSmallest_step h call) heapValid_nil

/-- A transaction with empty strings. -/
def bareTransaction (command : Command) (padding : UInt8 × UInt8 × UInt8) : PushedTransaction :=
  ⟨⟨none, ⟨command.code, Str.empty, Str.empty⟩⟩, padding⟩

/-- One byte of padding puts a DELETE before a PEEK. -/
theorem not_popsSmallest_padded_peek : ¬ EachStep queueStep PopsSmallest initQueue
    [.push (bareTransaction .peek (1, 0, 0)), .push (bareTransaction .delete (0, 0, 0)),
      .pop false] := by
  intro h
  have hpops := ((h.2 _ _ rfl).2 _ _ rfl).1
  obtain ⟨t, ht, hresult, hsmallest⟩ := hpops false _ _ rfl rfl (by decide)
  have hpeek := hsmallest (bareTransaction .peek (1, 0, 0)) (by decide)
  obtain rfl : bareTransaction .delete (0, 0, 0) = t := Option.some.inj hresult
  exact absurd hpeek (by decide)

end Padding

section Classes

/-- The priority of a command: PEEK, SELECT, and then the modifications. -/
def commandClass (cmd : UInt8) : ℕ :=
  if cmd = Command.peek.code then 1 else if cmd = Command.select.code then 2 else 3

/-- The transaction that the design takes next: the first to arrive of the first class. -/
def designNext (queued : List PushedTransaction) : Option PushedTransaction :=
  queued.argmin fun t ↦ commandClass t.cmd

/-- The queue of the design holds the transactions in the order of their arrival. -/
def designStep (queued : List PushedTransaction) :
    QueueCall → List PushedTransaction × Option PushedTransaction
  | .push t => (queued ++ [t], none)
  | .pop _ => ((designNext queued).elim queued queued.erase, designNext queued)

/-- The padding is zero and the command is one of the five. -/
def IsPlain (t : PushedTransaction) : Prop :=
  t.padding = (0, 0, 0) ∧ ∃ command : Command, t.cmd = command.code

/-- At a pop the next transaction is the only one with the smallest command. -/
def NextAlone (queued : List PushedTransaction) (call : QueueCall) : Prop :=
  ∀ force t, call = .pop force → designNext queued = some t → ∀ u ∈ queued.erase t, t.cmd < u.cmd

/-- Every pop that returns gives what the design takes. -/
def FollowsDesign (calls : List QueueCall) : Prop :=
  ∀ queue outputs, run queueStep initQueue calls = .ok (queue, outputs) →
    outputs = (runSpec designStep [] calls).2

theorem heapKey_of_plain {t : PushedTransaction} (h : IsPlain t) : t.heapKey = t.cmd.toNat := by
  have hlt := t.cmd.toNat_lt
  have hvalue : leValue [t.cmd, t.padding.1, t.padding.2.1, t.padding.2.2] = t.cmd.toNat := by
    rw [h.1]
    simp [leValue]
  rw [PushedTransaction.heapKey, hvalue, signedValue, if_pos (by omega)]

/-- The queue and the design hold the same transactions. -/
structure SameQueued (queue : TransactionQueue) (queued : List PushedTransaction) : Prop where
  valid : HeapValid queue.h
  perm : queue.queued.Perm queued
  plain : ∀ t ∈ queued, IsPlain t

theorem designNext_mem {queued : List PushedTransaction} {t : PushedTransaction}
    (h : designNext queued = some t) : t ∈ queued :=
  List.argmin_mem (Option.mem_def.mpr h)

/-- A pop takes the next transaction of the design when it is the only one with the smallest
command. -/
theorem pop_designNext {queue queue' : TransactionQueue} {queued : List PushedTransaction}
    (h : SameQueued queue queued) {force : Bool} (halone : NextAlone queued (.pop force))
    {result : Option PushedTransaction} (hpop : popQueue queue force = .ok (queue', result)) :
    result = (designStep queued (.pop force)).2 ∧
      SameQueued queue' (designStep queued (.pop force)).1 := by
  have hspec := popQueue_spec h.valid hpop
  cases hspec.2 with
  | empty hempty hempty' =>
    have hnil : queued = [] := List.perm_nil.mp (hempty ▸ h.perm).symm
    rw [hnil]
    exact ⟨rfl, hspec.1, by rw [hempty']; exact List.Perm.refl _, fun _ hmem ↦ nomatch hmem⟩
  | taken t hperm hmin =>
    have ht : t ∈ queued := h.perm.mem_iff.mp (hperm.mem_iff.mp List.mem_cons_self)
    cases hnext : designNext queued with
    | none =>
      rw [designNext, List.argmin_eq_none] at hnext
      rw [hnext] at ht
      cases ht
    | some next =>
      have hmem := designNext_mem hnext
      have heq : t = next := by
        by_contra hne
        have hlater := halone force next rfl hnext t ((List.mem_erase_of_ne hne).mpr ht)
        have hle := hmin next (h.perm.mem_iff.mpr hmem)
        rw [heapKey_of_plain (h.plain t ht), heapKey_of_plain (h.plain next hmem)] at hle
        have hlt := UInt8.lt_iff_toNat_lt.mp hlater
        omega
      have hstep : designStep queued (.pop force) = (queued.erase next, some next) := by
        rw [designStep, hnext]
        rfl
      rw [hstep]
      refine ⟨congrArg some heq, hspec.1, ?_, fun u hu ↦ h.plain u (List.mem_of_mem_erase hu)⟩
      apply List.Perm.cons_inv (a := next)
      rw [← heq]
      exact (hperm.trans h.perm).trans (List.perm_cons_erase ht)

theorem run_designNext {calls : List QueueCall} (hplain : ∀ t, QueueCall.push t ∈ calls → IsPlain t)
    {queue final : TransactionQueue} {queued : List PushedTransaction} (h : SameQueued queue queued)
    (halone : EachStep (fun queued call ↦ .ok (designStep queued call)) NextAlone queued calls)
    {outputs : List (Option PushedTransaction)}
    (hrun : run queueStep queue calls = .ok (final, outputs)) :
    outputs = (runSpec designStep queued calls).2 := by
  induction calls generalizing queue queued outputs with
  | nil =>
    rw [run_nil, Except.ok.injEq, Prod.mk.injEq] at hrun
    rw [← hrun.2]
    rfl
  | cons call rest ih =>
    obtain ⟨next, output, tail, hnext, hrest, rfl⟩ := run_cons_eq_ok.mp hrun
    have hlater := halone.2 _ _ rfl
    have hplain' (t : PushedTransaction) (ht : QueueCall.push t ∈ rest) : IsPlain t :=
      hplain t (List.mem_cons_of_mem _ ht)
    have hstep : output = (designStep queued call).2 ∧
        SameQueued next (designStep queued call).1 := by
      cases call with
      | push t =>
        rw [queueStep, Except.ok.injEq, Prod.mk.injEq] at hnext
        rw [← hnext.1, ← hnext.2]
        have hpush := pushQueue_spec h.valid t
        refine ⟨rfl, hpush.1, hpush.2.trans (h.perm.append_right _), fun u hu ↦ ?_⟩
        rcases List.mem_append.mp hu with hu | hu
        · exact h.plain u hu
        · rw [List.mem_singleton.mp hu]
          exact hplain t List.mem_cons_self
      | pop force => exact pop_designNext h halone.1 hnext
    rw [hstep.1, ih hplain' hstep.2 hlater hrest]
    rfl

theorem nextAlone_push (queued : List PushedTransaction) (t : PushedTransaction) :
    NextAlone queued (.push t) := fun _ _ hcall ↦ nomatch hcall

theorem nextAlone_pop {queued : List PushedTransaction} {t : PushedTransaction} (force : Bool)
    (hnext : designNext queued = some t) (hlater : ∀ u ∈ queued.erase t, t.cmd < u.cmd) :
    NextAlone queued (.pop force) := by
  intro _ t' _ hnext'
  obtain rfl : t = t' := Option.some.inj (hnext.symm.trans hnext')
  exact hlater

end Classes

end FGDB.Queue
