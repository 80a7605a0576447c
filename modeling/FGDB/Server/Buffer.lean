import FGDB.Common
import FGDB.Foundation.Deque
import FGDB.Foundation.Memory
import FGDB.Foundation.Run

/-!
# Buffers of a request

A buffer is one block: the fields and behind them its storage. Positions in the
storage stand for the pointers of the source. The storage keeps what the heap
held there until something is written. A buffer is to be a deque of bytes, with
the places before `start` and behind `stop` free; the one operation that can
leave this is the insertion at the front.
-/

namespace FGDB.Server

open Foundation

/-- `buf_t`; `stop` is the source's `end`. -/
structure Buf where
  total : ℕ
  used : ℕ
  start : ℕ
  stop : ℕ
  ptr : Memory

def initBuffer (heap : Memory) (buflen : ℕ) : Buf :=
  { total := buflen, used := 0, start := 0, stop := 0, ptr := heap }

/-- The push fails without a change when the bytes pass the end of the storage. -/
def bufferPush (buf : Buf) (src : List UInt8) : Buf × ℤ :=
  if buf.stop + src.length > buf.total then (buf, -1)
  else ({ buf with
    ptr := buf.ptr.store buf.stop src
    stop := buf.stop + src.length
    used := buf.used + src.length }, 0)

/-- The pop fails without a change when there are too few bytes. -/
def bufferPop (buf : Buf) (bytes : ℕ) : Buf × ℤ × List UInt8 :=
  if buf.stop < buf.start + bytes then (buf, -1, [])
  else ({ buf with
    stop := buf.stop - bytes
    used := buf.used - bytes }, 0, buf.ptr.load (buf.stop - bytes) bytes)

/-- The shift fails without a change when there are too few bytes. -/
def bufferShift (buf : Buf) (bytes : ℕ) : Buf × ℤ × List UInt8 :=
  if buf.start + bytes > buf.stop then (buf, -1, [])
  else ({ buf with
    start := buf.start + bytes
    used := buf.used - bytes }, 0, buf.ptr.load buf.start bytes)

/-- The bytes go to the beginning of the storage, and `start` moves by their number. -/
def bufferUnshift (buf : Buf) (src : List UInt8) : Buf × ℤ :=
  if src.length > buf.start then (buf, -1)
  else ({ buf with
    ptr := buf.ptr.store 0 src
    start := buf.start - src.length
    used := buf.used + src.length }, 0)

def bufferFree (buf : Buf) : Buf := { buf with used := 0, start := 0, stop := 0 }

def bufferLeft (buf : Buf) : ℕ := wrap64 (buf.total + 2 ^ 64 - buf.used)

/-- What the parser of messages is given. -/
def Buf.contents (buf : Buf) : List UInt8 := buf.ptr.load buf.start buf.used

theorem bufferLeft_of_le {buf : Buf} (hused : buf.used ≤ buf.total) (htotal : buf.total < 2 ^ 64) :
    bufferLeft buf = buf.total - buf.used := by
  unfold bufferLeft wrap64
  omega

theorem bufferPush_init (heap : Memory) {buflen : ℕ} {src : List UInt8}
    (h : src.length ≤ buflen) : (bufferPush (initBuffer heap buflen) src).1 =
      ⟨buflen, src.length, 0, src.length, heap.store 0 src⟩ := by
  simp [bufferPush, initBuffer, Nat.not_lt.mpr h]

/-- A call on a buffer; the numbers are the sizes of the destinations. -/
inductive BufCall
  | push (src : List UInt8)
  | pop (bytes : ℕ)
  | shift (bytes : ℕ)
  | unshift (src : List UInt8)
  | free
  deriving DecidableEq

/-- The returned number and what the destination is given. -/
def bufferStep (buf : Buf) : BufCall → Outcome (Buf × ℤ × List UInt8)
  | .push src => .ok ((bufferPush buf src).1, (bufferPush buf src).2, [])
  | .pop bytes => .ok (bufferPop buf bytes)
  | .shift bytes => .ok (bufferShift buf bytes)
  | .unshift src => .ok ((bufferUnshift buf src).1, (bufferUnshift buf src).2, [])
  | .free => .ok (bufferFree buf, 0, [])

/-- An operation that the deque refuses returns -1 and changes nothing. -/
def inserted (deque : Deque UInt8) : Option (Deque UInt8) → Deque UInt8 × ℤ × List UInt8
  | some next => (next, 0, [])
  | none => (deque, -1, [])

def removed (deque : Deque UInt8) :
    Option (Deque UInt8 × List UInt8) → Deque UInt8 × ℤ × List UInt8
  | some (next, taken) => (next, 0, taken)
  | none => (deque, -1, [])

/-- The deque that a buffer is to be. -/
def dequeStep (deque : Deque UInt8) : BufCall → Deque UInt8 × ℤ × List UInt8
  | .push src => inserted deque (deque.push src)
  | .pop bytes => removed deque (deque.pop bytes)
  | .shift bytes => removed deque (deque.shift bytes)
  | .unshift src => inserted deque (deque.unshift src)
  | .free => (deque.clear, 0, [])

/-- The bytes between the two ends are the deque's, and both ends are inside of the storage. -/
structure Agrees (buf : Buf) (deque : Deque UInt8) : Prop where
  contents : buf.contents = deque.items
  used : buf.used = deque.items.length
  start : buf.start = deque.gap
  stop : buf.stop = deque.gap + deque.items.length
  total : buf.total = deque.places

/-- A call that returns -1 changes nothing. -/
def RefusesUnchanged (buf : Buf) (call : BufCall) : Prop :=
  ∀ next taken, bufferStep buf call = .ok (next, -1, taken) → next = buf

/-- After any number of the calls the buffer is the deque, and the calls have returned what the
deque's operations return. -/
def FollowsDeque (heap : Memory) (buflen : ℕ) (calls : List BufCall) : Prop :=
  (∀ done, done <+: calls → ∃ buf, run bufferStep (initBuffer heap buflen) done =
    .ok (buf, (runSpec dequeStep (.empty buflen) done).2) ∧
      Agrees buf (runSpec dequeStep (.empty buflen) done).1) ∧
    EachStep bufferStep RefusesUnchanged (initBuffer heap buflen) calls

/-- Each place right before `start` has its byte of the string once the string lies at the
beginning of the storage: the string covers the place with that byte, or the byte was there. -/
def InFront (buf : Buf) (src : List UInt8) : Prop :=
  ∀ index < src.length, src[index]? = some ((src[buf.start - src.length + index]?).getD
    (buf.ptr (buf.start - src.length + index)))

/-- The call is no insertion at the front, or it is refused, or the storage right before `start`
has its bytes. -/
def LandsInFront (buf : Buf) : BufCall → Prop
  | .unshift src => src.length ≤ buf.start → InFront buf src
  | _ => True

section Agreement

variable {buf : Buf} {deque : Deque UInt8}

theorem initBuffer_agrees (heap : Memory) (buflen : ℕ) :
    Agrees (initBuffer heap buflen) (.empty buflen) where
  contents := rfl
  used := rfl
  start := rfl
  stop := rfl
  total := by simp [initBuffer, Deque.empty, Deque.places]

theorem Agrees.room (h : Agrees buf deque) : buf.total = buf.stop + deque.room := by
  rw [h.total, h.stop, Deque.places]

theorem bufferPush_agrees (h : Agrees buf deque) (src : List UInt8) :
    (bufferPush buf src).2 = (inserted deque (deque.push src)).2.1 ∧
      Agrees (bufferPush buf src).1 (inserted deque (deque.push src)).1 := by
  have hroom := h.room
  by_cases hfull : deque.room < src.length
  · rw [bufferPush, if_pos (by omega), Deque.push, if_pos hfull]
    exact ⟨rfl, h⟩
  · have hnext : deque.push src = some ⟨deque.gap, deque.items ++ src, deque.room - src.length⟩ :=
      if_neg hfull
    have hplaces := Deque.places_push hnext
    rw [bufferPush, if_neg (by omega), hnext]
    refine ⟨rfl, ?_, ?_, h.start, ?_, h.total.trans hplaces.symm⟩
    · have hstop : buf.start + buf.used = buf.stop := by rw [h.start, h.used, h.stop]
      calc (buf.ptr.store buf.stop src).load buf.start (buf.used + src.length)
          = (buf.ptr.store buf.stop src).load buf.start buf.used ++
              (buf.ptr.store buf.stop src).load buf.stop src.length := by
            rw [Memory.load_add, hstop]
        _ = buf.contents ++ src := by
            rw [Memory.load_store_of_disjoint _ _ _ _ (.inl hstop.le), Memory.load_store]
            rfl
        _ = deque.items ++ src := by rw [h.contents]
    · simp [inserted, h.used]
    · simp [inserted, h.stop, Nat.add_assoc]

theorem bufferPop_agrees (h : Agrees buf deque) (bytes : ℕ) :
    (bufferPop buf bytes).2 = (removed deque (deque.pop bytes)).2 ∧
      Agrees (bufferPop buf bytes).1 (removed deque (deque.pop bytes)).1 := by
  have hstart := h.start
  have hstop := h.stop
  have hused := h.used
  by_cases hfew : deque.items.length < bytes
  · rw [bufferPop, if_pos (by omega), Deque.pop, if_pos hfew]
    exact ⟨rfl, h⟩
  · have hnext : deque.pop bytes = some (⟨deque.gap,
        deque.items.take (deque.items.length - bytes), deque.room + bytes⟩,
        deque.items.drop (deque.items.length - bytes)) := if_neg hfew
    have hplaces := Deque.places_pop hnext
    rw [bufferPop, if_neg (by omega), hnext]
    have hdrop : deque.items.drop (deque.items.length - bytes) =
        buf.ptr.load (buf.stop - bytes) bytes := by
      have hplace : buf.start + (buf.used - bytes) = buf.stop - bytes := by omega
      have hcount : buf.used - (buf.used - bytes) = bytes := by omega
      rw [← hused, ← h.contents, Buf.contents, Memory.drop_load _ _ _ (by omega), hplace, hcount]
    have htake : deque.items.take (deque.items.length - bytes) =
        buf.ptr.load buf.start (buf.used - bytes) := by
      rw [← hused, ← h.contents, Buf.contents, Memory.take_load _ _ _ (by omega)]
    refine ⟨by rw [removed, hdrop], htake.symm, ?_, hstart, ?_, h.total.trans hplaces.symm⟩
    · simp [removed, hused]
    · simp only [removed, List.length_take]
      omega

theorem bufferShift_agrees (h : Agrees buf deque) (bytes : ℕ) :
    (bufferShift buf bytes).2 = (removed deque (deque.shift bytes)).2 ∧
      Agrees (bufferShift buf bytes).1 (removed deque (deque.shift bytes)).1 := by
  have hstart := h.start
  have hstop := h.stop
  have hused := h.used
  by_cases hfew : deque.items.length < bytes
  · rw [bufferShift, if_pos (by omega), Deque.shift, if_pos hfew]
    exact ⟨rfl, h⟩
  · have hnext : deque.shift bytes = some (⟨deque.gap + bytes, deque.items.drop bytes, deque.room⟩,
        deque.items.take bytes) := if_neg hfew
    have hplaces := Deque.places_shift hnext
    rw [bufferShift, if_neg (by omega), hnext]
    have htake : deque.items.take bytes = buf.ptr.load buf.start bytes := by
      rw [← h.contents, Buf.contents, Memory.take_load _ _ _ (by omega)]
    have hdrop : deque.items.drop bytes =
        buf.ptr.load (buf.start + bytes) (buf.used - bytes) := by
      rw [← h.contents, Buf.contents, Memory.drop_load _ _ _ (by omega)]
    refine ⟨by rw [removed, htake], hdrop.symm, ?_, ?_, ?_, h.total.trans hplaces.symm⟩
    · simp [removed, hused]
    · simp [removed, hstart]
    · simp only [removed, List.length_drop]
      omega

theorem bufferFree_agrees (h : Agrees buf deque) : Agrees (bufferFree buf) deque.clear where
  contents := rfl
  used := rfl
  start := rfl
  stop := rfl
  total := by rw [Deque.places_clear, ← h.total, bufferFree]

/-- The places before `start` spell the string exactly when it is found there. -/
theorem inFront_iff {src : List UInt8} :
    InFront buf src ↔ (buf.ptr.store 0 src).load (buf.start - src.length) src.length = src := by
  constructor
  · intro h
    apply List.ext_getElem? 
    intro index
    by_cases hindex : index < src.length
    · rw [h index hindex]
      simp [Memory.load, Memory.store, hindex]
    · rw [List.getElem?_eq_none (by simpa using hindex),
        List.getElem?_eq_none (Nat.not_lt.mp hindex)]
  · intro h index hindex
    conv_lhs => rw [← h]
    simp [Memory.load, Memory.store, hindex]

theorem bufferUnshift_agrees (h : Agrees buf deque) (src : List UInt8) :
    (bufferUnshift buf src).2 = (inserted deque (deque.unshift src)).2.1 ∧
      (Agrees (bufferUnshift buf src).1 (inserted deque (deque.unshift src)).1 ↔
        LandsInFront buf (.unshift src)) := by
  have hstart := h.start
  by_cases hfew : deque.gap < src.length
  · rw [bufferUnshift, if_pos (by omega), Deque.unshift, if_pos hfew]
    refine ⟨rfl, fun _ hle ↦ absurd hle (by omega), fun _ ↦ h⟩
  · have hnext : deque.unshift src =
        some ⟨deque.gap - src.length, src ++ deque.items, deque.room⟩ := if_neg hfew
    have hplaces := Deque.places_unshift hnext
    have hle : src.length ≤ buf.start := by omega
    have hrest : (buf.ptr.store 0 src).load buf.start buf.used = deque.items :=
      (Memory.load_store_of_disjoint _ _ _ _ (.inr (by omega))).trans h.contents
    have hcontents : (bufferUnshift buf src).1.contents =
        (buf.ptr.store 0 src).load (buf.start - src.length) src.length ++ deque.items := by
      rw [bufferUnshift, if_neg (by omega)]
      calc (buf.ptr.store 0 src).load (buf.start - src.length) (buf.used + src.length)
          = (buf.ptr.store 0 src).load (buf.start - src.length) src.length ++
              (buf.ptr.store 0 src).load (buf.start - src.length + src.length) buf.used := by
            rw [Nat.add_comm, Memory.load_add]
        _ = (buf.ptr.store 0 src).load (buf.start - src.length) src.length ++ deque.items := by
            rw [Nat.sub_add_cancel hle, hrest]
    constructor
    · rw [bufferUnshift, if_neg (by omega), hnext]
      rfl
    refine ⟨fun hagrees _ ↦ ?_, fun hlands ↦ ?_⟩
    · have hsame := hcontents.symm.trans hagrees.contents
      rw [hnext] at hsame
      exact inFront_iff.mpr (List.append_cancel_right hsame)
    · rw [inFront_iff.mp (hlands hle)] at hcontents
      rw [hnext]
      refine ⟨hcontents, ?_, ?_, ?_, ?_⟩
      all_goals rw [bufferUnshift, if_neg (by omega)]
      · simp [inserted, h.used, Nat.add_comm]
      · simp [inserted, hstart]
      · simp only [inserted, h.stop, List.length_append]
        omega
      · exact h.total.trans hplaces.symm

/-- One call follows the deque exactly when its bytes land in front. -/
theorem bufferStep_agrees_iff (h : Agrees buf deque) (call : BufCall) :
    (∃ next, bufferStep buf call = .ok (next, (dequeStep deque call).2) ∧
      Agrees next (dequeStep deque call).1) ↔ LandsInFront buf call := by
  cases call with
  | push src =>
    have hpush := bufferPush_agrees h src
    refine iff_of_true ⟨_, ?_, hpush.2⟩ trivial
    rw [bufferStep, hpush.1, dequeStep]
    cases deque.push src <;> rfl
  | pop bytes =>
    have hpop := bufferPop_agrees h bytes
    refine iff_of_true ⟨_, ?_, hpop.2⟩ trivial
    rw [bufferStep, dequeStep, ← hpop.1]
  | shift bytes =>
    have hshift := bufferShift_agrees h bytes
    refine iff_of_true ⟨_, ?_, hshift.2⟩ trivial
    rw [bufferStep, dequeStep, ← hshift.1]
  | unshift src =>
    have hunshift := bufferUnshift_agrees h src
    have hstep : bufferStep buf (.unshift src) =
        .ok ((bufferUnshift buf src).1, (dequeStep deque (.unshift src)).2) := by
      rw [bufferStep, hunshift.1, dequeStep]
      cases deque.unshift src <;> rfl
    rw [← hunshift.2]
    constructor
    · rintro ⟨next, hnext, hagrees⟩
      rw [hstep] at hnext
      cases hnext
      exact hagrees
    · intro hagrees
      exact ⟨_, hstep, hagrees⟩
  | free => exact iff_of_true ⟨_, rfl, bufferFree_agrees h⟩ trivial

theorem bufferStep_refuses (buf : Buf) (call : BufCall) : RefusesUnchanged buf call := by
  intro next taken hstep
  cases call with
  | push src =>
    simp only [bufferStep, bufferPush] at hstep
    split at hstep <;> cases hstep
    rfl
  | pop bytes =>
    simp only [bufferStep, bufferPop] at hstep
    split at hstep <;> cases hstep
    rfl
  | shift bytes =>
    simp only [bufferStep, bufferShift] at hstep
    split at hstep <;> cases hstep
    rfl
  | unshift src =>
    simp only [bufferStep, bufferUnshift] at hstep
    split at hstep <;> cases hstep
    rfl
  | free => cases hstep

end Agreement

/-- A buffer follows the deque exactly in the runs whose insertions at the front find their bytes
right before `start`. -/
theorem followsDeque_iff (heap : Memory) (buflen : ℕ) (calls : List BufCall) :
    FollowsDeque heap buflen calls ↔
      EachStep bufferStep LandsInFront (initBuffer heap buflen) calls := by
  have hstep (buf : Buf) (deque : Deque UInt8) (call : BufCall) (h : Agrees buf deque)
      (_ : True) := bufferStep_agrees_iff h call
  rw [FollowsDeque, and_iff_left (eachStep_of_all bufferStep_refuses)]
  exact forall_prefix_simulates_iff hstep (initBuffer_agrees heap buflen)
    (eachStep_of_all fun _ _ ↦ trivial)

/-- Two of three bytes are read, and one is put back and read again. -/
def putBackCalls : List BufCall := [.push [1, 2, 3], .shift 2, .unshift [9], .shift 1]

theorem not_followsDeque_putBackCalls : ¬ FollowsDeque (fun _ ↦ 0) 10 putBackCalls := by
  intro h
  obtain ⟨buf, hrun, -⟩ := h.1 putBackCalls (List.prefix_refl _)
  have houtputs : (run bufferStep (initBuffer (fun _ ↦ 0) 10) putBackCalls).toOption.map Prod.snd =
      some (runSpec dequeStep (.empty 10) putBackCalls).2 := by
    rw [hrun]
    rfl
  revert houtputs
  decide

end FGDB.Server
