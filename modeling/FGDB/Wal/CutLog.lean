import FGDB.Wal.Recovery
import Mathlib.Data.List.Infix

/-!
# A log that is cut

A crash in the middle of an append leaves the last record incomplete. Recovery
does not look at how many bytes its reads deliver: where the file ends inside of
the size or of the record, the rest is what the stack and the heap held before.
These bytes can complete the record, or be a record behind the end of the file,
so recovery never tells the end of the log from another transaction.
-/

namespace FGDB.Wal

open Foundation Server

/-- The transactions whose records lie in the first bytes behind the heading. -/
def completeIn : ℕ → List Transaction → List Transaction
  | _, [] => []
  | room, t :: rest =>
    if t.msg.cmd ≤ Command.select.code then completeIn room rest
    else if binarySize (recordOf 0 t) ≤ room then
      t :: completeIn (room - binarySize (recordOf 0 t)) rest
    else []

/-- The log of the transactions is cut. Whatever the stack and the heap hold, as many calls of
recovery as there are complete records return these in order, and no further call returns. -/
def RecoversComplete (lsn flushedLSN : ℕ) (ts : List Transaction) (cut : ℕ) : Prop :=
  ∃ w lsns, run writeStep (newWalLogger [] lsn flushedLSN) ts = .ok (w, lsns) ∧
    ∀ stack junks,
      let start := (getLatestLogLSN stack ⟨w.file.content.take cut, 0⟩).1
      let complete := completeIn (cut - sizeofLSN) ts
      (junks.length ≤ complete.length → ∃ u, run recoverStep start junks =
        .ok (u, (complete.take junks.length).map fun t ↦ ⟨none, t.msg⟩)) ∧
      (complete.length < junks.length → ∀ result, run recoverStep start junks ≠ .ok result)

/-- The records that lie in the first bytes behind the heading. -/
def completeRecords : ℕ → List LogRecord → List LogRecord
  | _, [] => []
  | room, r :: rest =>
    if binarySize r ≤ room then r :: completeRecords (room - binarySize r) rest else []

/-- The transactions that the log keeps. -/
def keptOf (ts : List Transaction) : List Transaction :=
  ts.filter fun t ↦ ¬ t.msg.cmd ≤ Command.select.code

theorem keptOf_cons_of_le {t : Transaction} (ts : List Transaction)
    (h : t.msg.cmd ≤ Command.select.code) : keptOf (t :: ts) = keptOf ts :=
  List.filter_cons_of_neg (by simpa using h)

theorem keptOf_cons_of_not_le {t : Transaction} (ts : List Transaction)
    (h : ¬ t.msg.cmd ≤ Command.select.code) : keptOf (t :: ts) = t :: keptOf ts :=
  List.filter_cons_of_pos (by simpa using h)

theorem binarySize_recordOf (lsn : ℕ) (t : Transaction) :
    binarySize (recordOf lsn t) = binarySize (recordOf 0 t) := rfl

theorem length_completeIn (lsn room : ℕ) (ts : List Transaction) :
    (completeIn room ts).length = (completeRecords room (recordsOf lsn (keptOf ts))).length := by
  induction ts generalizing lsn room with
  | nil => rfl
  | cons t rest ih =>
    by_cases hkept : t.msg.cmd ≤ Command.select.code
    · rw [completeIn, if_pos hkept, keptOf_cons_of_le rest hkept]
      exact ih lsn room
    · rw [completeIn, if_neg hkept, keptOf_cons_of_not_le rest hkept, recordsOf, completeRecords,
        binarySize_recordOf lsn]
      by_cases hroom : binarySize (recordOf 0 t) ≤ room
      · rw [if_pos hroom, if_pos hroom, List.length_cons, List.length_cons, ih (wrap64 (lsn + 1))]
      · rw [if_neg hroom, if_neg hroom]
        rfl

/-- What the first bytes of some records are: the complete ones, and the beginning of a record. -/
theorem take_records (room : ℕ) (records : List LogRecord) :
    ∃ part r, (records.flatMap toBinary).take room =
      (completeRecords room records).flatMap toBinary ++ part ∧ part <+: toBinary r := by
  induction records generalizing room with
  | nil => exact ⟨[], ⟨0, .empty, .empty, 0⟩, by simp [completeRecords], List.nil_prefix⟩
  | cons r rest ih =>
    by_cases hroom : binarySize r ≤ room
    · obtain ⟨part, last, htake, hpart⟩ := ih (room - binarySize r)
      refine ⟨part, last, ?_, hpart⟩
      rw [completeRecords, if_pos hroom, List.flatMap_cons, List.flatMap_cons, List.take_append,
        List.take_of_length_le ((length_toBinary r).trans_le hroom), length_toBinary, htake,
        List.append_assoc]
    · refine ⟨(toBinary r).take room, r, ?_, List.take_prefix _ _⟩
      rw [completeRecords, if_neg hroom, List.flatMap_cons,
        List.take_append_of_le_length (by rw [length_toBinary]; omega)]
      rfl

/-- The content of a log after any transactions. -/
theorem run_writeStep_headed {ts : List Transaction} {w w' : WalLogger} {lsns : List ℕ}
    {records : List LogRecord} (hrun : run writeStep w ts = .ok (w', lsns))
    (h : Headed w.file.content w.lsn records) :
    Headed w'.file.content w'.lsn (records ++ recordsOf w.lsn (keptOf ts)) := by
  induction ts generalizing w records lsns with
  | nil =>
    cases hrun
    simpa [keptOf, recordsOf] using h
  | cons t rest ih =>
    obtain ⟨next, output, tail, hnext, hrest, -⟩ := run_cons_eq_ok.mp hrun
    by_cases hkept : t.msg.cmd ≤ Command.select.code
    · have hstep : writeStep w t = .ok (w, 0) := by
        simp only [writeStep, writeLog, toWalRecord, if_pos hkept]
      rw [hstep] at hnext
      cases hnext
      rw [keptOf_cons_of_le rest hkept]
      exact ih hrest h
    · obtain ⟨logged, hstep, hlsn, hcontent⟩ := writeStep_of_kept hkept h
      rw [hstep] at hnext
      cases hnext
      have hheaded := ih hrest (.inr hcontent)
      rw [hlsn, List.append_assoc] at hheaded
      rw [keptOf_cons_of_not_le rest hkept]
      exact hheaded

theorem overwrite_of_prefix {old new : List UInt8} (h : new <+: old) : overwrite old new = old := by
  obtain ⟨rest, rfl⟩ := h
  rw [overwrite, List.drop_left' rfl]

theorem map_image (bytes : List UInt8) :
    (List.range bytes.length).map (File.image bytes) = bytes := by
  apply List.ext_getElem (by simp)
  intro index hindex hbytes
  rw [List.getElem_map, List.getElem_range, File.image, List.getElem?_eq_getElem hbytes,
    Option.getD_some]

/-- With a record in the stack and on the heap, recovery takes any beginning of this record at the
end of a file for the whole of it. -/
theorem recoverStep_of_prefix (front : List UInt8) {part : List UInt8} {r : LogRecord}
    (hpart : part <+: toBinary r) :
    ∃ u, recoverStep ⟨front ++ part, front.length⟩
      (leBytes 8 (binarySize r), File.image (bodyOf r)) = .ok (u, recovered r) := by
  rw [toBinary_eq] at hpart
  have hfirst : part.take 8 <+: leBytes 8 (binarySize r) := by
    have htake := hpart.take 8
    rwa [List.take_left' (length_leBytes ..)] at htake
  have hskip : part.drop (part.take 8).length = part.drop 8 := by
    rw [List.length_take]
    rcases Nat.le_total 8 part.length with hlong | hshort
    · rw [min_eq_left hlong]
    · rw [min_eq_right hshort, List.drop_length, List.drop_eq_nil_of_le hshort]
  have hsecond : (part.drop 8).take (bodyOf r).length <+: bodyOf r := by
    have hdrop := hpart.drop 8
    rw [List.drop_left' (length_leBytes ..)] at hdrop
    exact (List.take_prefix _ _).trans hdrop
  have hread (count : ℕ) : File.read ⟨front ++ part, front.length⟩ count =
      (⟨front ++ part, front.length + (part.take count).length⟩, part.take count) := by
    simp [File.read]
  have hread' (count : ℕ) :
      (File.read ⟨front ++ part, front.length + (part.take 8).length⟩ count).2 =
        (part.drop 8).take count := by
    simp only [File.read, List.drop_append, Nat.add_sub_cancel_left, hskip,
      List.drop_eq_nil_of_le (Nat.le_add_right _ _), List.nil_append]
  refine ⟨(File.read ⟨front ++ part, front.length + (part.take 8).length⟩ (bodyOf r).length).1, ?_⟩
  have hsize : (leBytes 8 (binarySize r)).take 8 = leBytes 8 (binarySize r) :=
    List.take_of_length_le (length_leBytes ..).le
  simp only [recoverStep, recoverTransaction, hread, overwrite_of_prefix hfirst, hsize,
    wrap64_binarySize, hread', map_image, overwrite_of_prefix hsecond, parseRecord_bodyOf, ok_bind,
    pure_eq_ok]

/-- Where recovery starts in a log that is cut behind its heading. -/
theorem getLatestLogLSN_cut {content : List UInt8} {lsn cut : ℕ} {records : List LogRecord}
    (h : Headed content lsn records) (hcut : sizeofLSN ≤ cut) :
    ∃ front part r, part <+: toBinary r ∧ ∀ stack,
      (getLatestLogLSN stack ⟨content.take cut, 0⟩).1 =
        ⟨front ++ ((completeRecords (cut - sizeofLSN) records).flatMap toBinary ++ part),
          front.length⟩ := by
  rcases h with ⟨rfl, rfl⟩ | rfl
  · exact ⟨[], [], ⟨0, .empty, .empty, 0⟩, List.nil_prefix, fun stack ↦ by
      simp [getLatestLogLSN, File.read, File.seek, completeRecords]⟩
  · obtain ⟨part, r, htake, hpart⟩ := take_records (cut - sizeofLSN) records
    refine ⟨leBytes 8 lsn, part, r, hpart, fun stack ↦ ?_⟩
    have hcontent : (leBytes 8 lsn ++ records.flatMap toBinary).take cut = leBytes 8 lsn ++
        ((completeRecords (cut - sizeofLSN) records).flatMap toBinary ++ part) := by
      have hheading : (leBytes 8 lsn).take cut = leBytes 8 lsn :=
        List.take_of_length_le ((length_leBytes ..).trans_le hcut)
      rw [List.take_append, hheading, length_leBytes, ← htake, sizeofLSN]
    have hread := @File.read_append [] (leBytes 8 lsn)
      ((completeRecords (cut - sizeofLSN) records).flatMap toBinary ++ part) sizeofLSN (by rfl)
    simp only [List.nil_append, List.length_nil, length_leBytes] at hread
    simp only [getLatestLogLSN, hcontent, hread, File.seek, add_zero, length_leBytes]

/-- However a log is cut behind its heading, recovery can return one transaction more than it has
complete records. -/
theorem not_recoversComplete (lsn flushedLSN : ℕ) (ts : List Transaction) {cut : ℕ}
    (hcut : sizeofLSN ≤ cut) : ¬ RecoversComplete lsn flushedLSN ts cut := by
  rintro ⟨w, lsns, hrun, hproperty⟩
  have hheaded := run_writeStep_headed hrun (.inl ⟨rfl, rfl⟩ : Headed [] lsn [])
  rw [List.nil_append] at hheaded
  obtain ⟨front, part, r, hpart, hstart⟩ := getLatestLogLSN_cut hheaded hcut
  have hlength : (List.replicate (completeIn (cut - sizeofLSN) ts).length
      (([], fun _ ↦ 0) : List UInt8 × (ℕ → UInt8))).length =
        (completeRecords (cut - sizeofLSN) (recordsOf lsn (keptOf ts))).length := by
    rw [List.length_replicate, length_completeIn lsn]
  have hreads := run_recoverStep hlength front part
  obtain ⟨u, hmore⟩ := recoverStep_of_prefix (front ++
    (completeRecords (cut - sizeofLSN) (recordsOf lsn (keptOf ts))).flatMap toBinary) hpart
  have hlast := run_cons_eq_ok.mpr ⟨u, _, [], hmore, run_nil u, rfl⟩
  rw [List.append_assoc] at hlast
  have hall := run_append_eq_ok.mpr ⟨_, _, _, hreads, hlast, rfl⟩
  apply (hproperty [] _).2 _ _ ((congrArg (run recoverStep · _) (hstart [])).trans hall)
  simp

/-- A log of one insertion, cut one byte before its end. -/
theorem not_recoversComplete_last_byte : ¬ RecoversComplete 0 0
    [⟨none, Command.insert.code, ⟨[107, 101, 121], by decide⟩, ⟨[118], by decide⟩⟩] 32 :=
  not_recoversComplete 0 0 _ (by decide)

/-- Behind the heading of a log that holds no record any more, recovery returns a transaction that
was never logged. -/
theorem not_recoversComplete_heading : ¬ RecoversComplete 0 0
    [⟨none, Command.insert.code, ⟨[107, 101, 121], by decide⟩, ⟨[118], by decide⟩⟩] 8 := by
  rintro ⟨w, lsns, hrun, hproperty⟩
  cases hrun
  obtain ⟨u, hmore⟩ := recoverStep_of_prefix (leBytes 8 1)
    (List.nil_prefix : [] <+: toBinary ⟨0, .empty, .empty, 0⟩)
  exact (hproperty [] [_]).2 (by decide) _ (run_cons_eq_ok.mpr ⟨u, _, [], hmore, run_nil u, rfl⟩)

end FGDB.Wal
