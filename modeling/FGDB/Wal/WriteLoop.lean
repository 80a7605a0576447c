import FGDB.Wal.Recovery

/-!
# The loop around write

A call to write may transfer a part of what it is asked to, or fail with EAGAIN
or EINTR. The loop adds what the call returned to its counter, and so also the
-1 of a failed call: a retry goes back by one byte, and a retry before the first
byte makes the counter the largest number, which ends the loop. A record is
written as it should be exactly when no call fails in this way before its last
byte is out.
-/

namespace FGDB.Wal

open Foundation Server

/-- The places of a record of the given size that the calls transfer, in their order. -/
def writtenPlaces (size : ℕ) : ℕ → List WriteOutcome → List ℕ
  | written, [] => List.range' written (size - written)
  | written, outcome :: rest =>
    if written < size then
      match outcome with
      | .wrote count => List.range' written (min count (size - written)) ++
          writtenPlaces size (written + min count (size - written)) rest
      | .again => writtenPlaces size (wrap64 (written + (2 ^ 64 - 1))) rest
      | .failed => []
    else []

/-- The log grows by the bytes of the record, and each of them is transferred once and in order. -/
def AppendsOnce (w : WalLogger) (t : Transaction) (outcomes : List WriteOutcome) : Prop :=
  ∀ logger r, toWalRecord w t = (logger, some r) →
    ∃ w', writeLog w t outcomes = .ok (w', r.lsn) ∧
      w'.file.content = (updateHeadingLSN logger r.lsn).file.content ++ toBinary r ∧
      writtenPlaces (toBinary r).length 0 outcomes = List.range (toBinary r).length

/-- No call fails with EAGAIN or EINTR while bytes remain. -/
def Uninterrupted : ℕ → List WriteOutcome → Prop
  | _, [] => True
  | remaining, .wrote count :: rest => Uninterrupted (remaining - count) rest
  | remaining, .again :: _ => remaining = 0
  | remaining, .failed :: _ => remaining = 0

instance decidableUninterrupted : (remaining : ℕ) → (outcomes : List WriteOutcome) →
    Decidable (Uninterrupted remaining outcomes)
  | _, [] => isTrue trivial
  | remaining, .wrote count :: rest => decidableUninterrupted (remaining - count) rest
  | remaining, .again :: _ => inferInstanceAs (Decidable (remaining = 0))
  | remaining, .failed :: _ => inferInstanceAs (Decidable (remaining = 0))

section Loop

variable {bytes : List UInt8} {size written : ℕ} {outcomes : List WriteOutcome}

theorem writtenPlaces_of_le (h : size ≤ written) (outcomes : List WriteOutcome) :
    writtenPlaces size written outcomes = [] := by
  cases outcomes with
  | nil => rw [writtenPlaces, Nat.sub_eq_zero_of_le h, List.range'_zero]
  | cons outcome rest => cases outcome <;> rw [writtenPlaces, if_neg (Nat.not_lt.mpr h)]

theorem uninterrupted_zero (outcomes : List WriteOutcome) : Uninterrupted 0 outcomes := by
  induction outcomes with
  | nil => trivial
  | cons outcome rest ih =>
    cases outcome with
    | wrote count => rwa [Uninterrupted, Nat.zero_sub]
    | again => rfl
    | failed => rfl

/-- The bytes at consecutive places. -/
theorem map_range' (bytes : List UInt8) (start count : ℕ) :
    (List.range' start count).filterMap (bytes[·]?) = (bytes.drop start).take count := by
  induction count generalizing start with
  | zero => simp
  | succ count ih =>
    rw [List.range'_succ, List.filterMap_cons, ih]
    by_cases hstart : start < bytes.length
    · rw [List.getElem?_eq_getElem hstart, List.drop_eq_getElem_cons hstart, List.take_succ_cons]
    · rw [List.getElem?_eq_none (by omega), List.drop_eq_nil_of_le (by omega),
        List.drop_eq_nil_of_le (by omega)]
      simp

/-- Behind the end of a file the loop appends the bytes at the places it transfers. -/
theorem writeLoop_places (houtcomes : WriteOutcome.failed ∉ outcomes) (content : List UInt8)
    (written : ℕ) : ∃ file, writeLoop bytes ⟨content, content.length⟩ written outcomes = .ok file ∧
      file.content =
        content ++ (writtenPlaces bytes.length written outcomes).filterMap (bytes[·]?) := by
  induction outcomes generalizing content written with
  | nil =>
    refine ⟨_, rfl, ?_⟩
    rw [writtenPlaces, map_range']
    by_cases hleft : written < bytes.length
    · rw [if_pos hleft, File.write_end, List.take_of_length_le (by simp)]
    · rw [if_neg hleft, Nat.sub_eq_zero_of_le (by omega)]
      simp
  | cons outcome rest ih =>
    have hrest : WriteOutcome.failed ∉ rest := fun h ↦ houtcomes (List.mem_cons_of_mem _ h)
    by_cases hleft : written < bytes.length
    · cases outcome with
      | wrote count =>
        have hlength : ((bytes.drop written).take count).length =
            min count (bytes.length - written) := by simp
        have htake : (bytes.drop written).take (min count (bytes.length - written)) =
            (bytes.drop written).take count := by
          rw [List.take_eq_take_iff, List.length_drop]
          omega
        obtain ⟨file, hloop, hcontent⟩ := ih hrest (content ++ (bytes.drop written).take count)
          (written + min count (bytes.length - written))
        rw [writeLoop, if_pos hleft, writtenPlaces, if_pos hleft]
        refine ⟨file, ?_, ?_⟩
        · simpa only [File.write_end, hlength] using hloop
        · rw [hcontent, List.filterMap_append, map_range', List.append_assoc, htake]
      | again =>
        rw [writeLoop, if_pos hleft, writtenPlaces, if_pos hleft]
        exact ih hrest content _
      | failed => exact absurd List.mem_cons_self houtcomes
    · refine ⟨⟨content, content.length⟩, by cases outcome <;> rw [writeLoop, if_neg hleft], ?_⟩
      rw [writtenPlaces_of_le (by omega)]
      simp

/-- A retry moves the counter back, or beyond the record. -/
theorem retry_cases (hsize : size < 2 ^ 64) (hleft : written < size) :
    size ≤ wrap64 (written + (2 ^ 64 - 1)) ∨ wrap64 (written + (2 ^ 64 - 1)) < written := by
  unfold wrap64
  omega

theorem range_append_range' (start count : ℕ) :
    List.range start ++ List.range' start count = List.range (start + count) := by
  rw [List.range_eq_range', List.range_eq_range', ← List.range'_append_1, Nat.zero_add]

/-- Nothing is transferred first that lies behind the counter. -/
theorem head_writtenPlaces_le (hsize : size < 2 ^ 64) {place : ℕ}
    (h : place ∈ (writtenPlaces size written outcomes).head?) : place ≤ written := by
  induction outcomes generalizing written with
  | nil =>
    rw [writtenPlaces, List.head?_range'] at h
    split at h
    · cases h
    · exact (Option.some.inj h).ge
  | cons outcome rest ih =>
    by_cases hleft : written < size
    · cases outcome with
      | wrote count =>
        rw [writtenPlaces, if_pos hleft] at h
        by_cases hnone : min count (size - written) = 0
        · rw [hnone, List.range'_zero, List.nil_append, Nat.add_zero] at h
          exact ih h
        · rw [List.head?_append, List.head?_range', if_neg hnone, Option.some_or] at h
          exact (Option.some.inj h).ge
      | again =>
        rw [writtenPlaces, if_pos hleft] at h
        rcases retry_cases hsize hleft with hover | hback
        · rw [writtenPlaces_of_le hover] at h
          cases h
        · exact (ih h).trans hback.le
      | failed => simp [writtenPlaces] at h
    · rw [writtenPlaces_of_le (by omega)] at h
      cases h

/-- With the places up to the counter behind it, the loop transfers every place once and in order
exactly when no call fails before the last one. -/
theorem writtenPlaces_iff (hsize : size < 2 ^ 64) (hle : written ≤ size)
    (houtcomes : WriteOutcome.failed ∉ outcomes) :
    List.range written ++ writtenPlaces size written outcomes = List.range size ↔
      Uninterrupted (size - written) outcomes := by
  induction outcomes generalizing written with
  | nil => simp [writtenPlaces, Uninterrupted, range_append_range', Nat.add_sub_cancel' hle]
  | cons outcome rest ih =>
    have hrest : WriteOutcome.failed ∉ rest := fun h ↦ houtcomes (List.mem_cons_of_mem _ h)
    rcases Nat.eq_or_lt_of_le hle with rfl | hleft
    · rw [writtenPlaces_of_le le_rfl, List.append_nil, Nat.sub_self]
      exact iff_of_true rfl (uninterrupted_zero _)
    · cases outcome with
      | wrote count =>
        have hremaining : size - (written + min count (size - written)) = size - written - count := by
          omega
        rw [writtenPlaces, if_pos hleft, ← List.append_assoc, range_append_range',
          ih (by omega) hrest, hremaining, Uninterrupted]
      | again =>
        rw [writtenPlaces, if_pos hleft, Uninterrupted]
        apply iff_of_false
        · intro hplaces
          have hplace : written ∈ (writtenPlaces size
              (wrap64 (written + (2 ^ 64 - 1))) rest).head? := by
            have hrange := range_append_range' written (size - written)
            rw [Nat.add_sub_cancel' hle, ← hplaces] at hrange
            rw [← List.append_cancel_left hrange, List.head?_range', if_neg (by omega)]
            rfl
          rcases retry_cases hsize hleft with hover | hback
          · rw [writtenPlaces_of_le hover] at hplace
            cases hplace
          · exact absurd (head_writtenPlaces_le hsize hplace) (Nat.not_le.mpr hback)
        · omega
      | failed => exact absurd List.mem_cons_self houtcomes

end Loop

/-- A record is appended once and in order exactly when no call to write fails with EAGAIN or EINTR
before the last byte is out. -/
theorem appendsOnce_iff {w logger : WalLogger} {t : Transaction} {r : LogRecord}
    {outcomes : List WriteOutcome} (hrecord : toWalRecord w t = (logger, some r))
    (houtcomes : .failed ∉ outcomes) :
    AppendsOnce w t outcomes ↔ Uninterrupted (binarySize r) outcomes := by
  have hsize : (toBinary r).length < 2 ^ 64 := (length_toBinary r).trans_lt (binarySize_lt r)
  have hplaces := writtenPlaces_iff hsize (Nat.zero_le _) houtcomes
  rw [List.range_zero, List.nil_append, Nat.sub_zero, length_toBinary] at hplaces
  constructor
  · intro h
    obtain ⟨w', hlog, hcontent, honce⟩ := h logger r hrecord
    rw [length_toBinary] at honce
    exact hplaces.mp honce
  · intro h logger' r' hrecord'
    obtain ⟨rfl, rfl⟩ : logger = logger' ∧ r = r' := by simpa [hrecord] using hrecord'
    have honce := hplaces.mpr h
    obtain ⟨file, hloop, hcontent⟩ := @writeLoop_places (toBinary r) outcomes houtcomes
      (updateHeadingLSN logger r.lsn).file.content 0
    have hbytes : (List.range (binarySize r)).filterMap ((toBinary r)[·]?) = toBinary r := by
      rw [List.range_eq_range', map_range', List.drop_zero, ← length_toBinary, List.take_length]
    refine ⟨{ updateHeadingLSN logger r.lsn with file := file }, ?_, ?_, ?_⟩
    · have hend : (updateHeadingLSN logger r.lsn).file =
          ⟨(updateHeadingLSN logger r.lsn).file.content,
            (updateHeadingLSN logger r.lsn).file.content.length⟩ := rfl
      rw [← hend] at hloop
      simp only [writeLog, hrecord, hloop, ok_bind, pure_eq_ok]
    · rw [hcontent, length_toBinary, honce, hbytes]
    · rw [length_toBinary, honce]

/-- An insertion that takes three calls, the second of which transfers nothing. -/
theorem appendsOnce_three_calls : AppendsOnce (newWalLogger [] 0 0)
    ⟨none, Command.insert.code, ⟨[107], by decide⟩, ⟨[118], by decide⟩⟩
    [.wrote 3, .wrote 0, .wrote 40] := by
  have hrecord : toWalRecord (newWalLogger [] 0 0)
      ⟨none, Command.insert.code, ⟨[107], by decide⟩, ⟨[118], by decide⟩⟩ =
      (giveNewLSN (newWalLogger [] 0 0),
        some ⟨1, ⟨[107], by decide⟩, ⟨[118], by decide⟩, Command.insert.code⟩) := rfl
  exact (appendsOnce_iff hrecord (by decide)).mpr (by decide)

/-- When the first call fails, nothing of the record is written. -/
theorem not_appendsOnce_retry : ¬ AppendsOnce (newWalLogger [] 0 0)
    ⟨none, Command.insert.code, ⟨[107], by decide⟩, ⟨[118], by decide⟩⟩ [.again] := by
  intro h
  obtain ⟨w', hlog, hcontent, -⟩ := h (giveNewLSN (newWalLogger [] 0 0))
    ⟨1, ⟨[107], by decide⟩, ⟨[118], by decide⟩, Command.insert.code⟩ rfl
  cases hlog
  revert hcontent
  decide

end FGDB.Wal
