import FGDB.Wal.Log

/-!
# What recovery reads back from a log

The file a run of the logger leaves is the heading with the last LSN, followed by
the records in order. Recovery steps over one record after another and finds the
key and the value of each, but the byte it takes for the operation is the byte
behind the LSN in the C structure: the low byte of the size of the key.
-/

namespace FGDB.Wal

open Foundation Server

/-- A transaction the log keeps. -/
def Logged (t : Transaction) : Prop :=
  t.msg.cmd = Command.insert.code ∨ t.msg.cmd = Command.update.code ∨
    t.msg.cmd = Command.delete.code

instance (t : Transaction) : Decidable (Logged t) := inferInstanceAs (Decidable (_ ∨ _ ∨ _))

/-- Every write transfers all its bytes. -/
def writeStep (w : WalLogger) (t : Transaction) : Outcome (WalLogger × ℕ) := writeLog w t []

/-- The junk is what the stack and the heap hold when a call of recovery starts. -/
def recoverStep (u : File) (junk : List UInt8 × (ℕ → UInt8)) : Outcome (File × Transaction) :=
  recoverTransaction junk.1 junk.2 u

/-- Log the transactions into an empty file, open it again, and get back the LSN of the last one
and then the transactions themselves. -/
def LogRecovers (lsn flushedLSN : ℕ) (ts : List Transaction) : Prop :=
  ∃ w lsns, run writeStep (newWalLogger [] lsn flushedLSN) ts = .ok (w, lsns) ∧
    ∀ stack junks, junks.length = ts.length →
      (∀ last ∈ lsns.getLast?, (getLatestLogLSN stack ⟨w.file.content, 0⟩).2 = last) ∧
      ∃ u, run recoverStep (getLatestLogLSN stack ⟨w.file.content, 0⟩).1 junks =
        .ok (u, ts.map fun t ↦ ⟨none, t.msg⟩)

/-- The record a transaction gets from a logger at the given LSN. -/
def recordOf (lsn : ℕ) (t : Transaction) : LogRecord :=
  ⟨wrap64 (lsn + 1), t.msg.key, t.msg.val, t.msg.cmd⟩

def recordsOf : ℕ → List Transaction → List LogRecord
  | _, [] => []
  | lsn, t :: rest => recordOf lsn t :: recordsOf (wrap64 (lsn + 1)) rest

/-- What a record is read back as. -/
def recovered (r : LogRecord) : Transaction := ⟨none, UInt8.ofNat r.key.size, r.key, r.val⟩

theorem toWalRecord_of_kept (w : WalLogger) {t : Transaction}
    (h : ¬ t.msg.cmd ≤ Command.select.code) :
    toWalRecord w t = (giveNewLSN w, some (recordOf w.lsn t)) := by
  simp only [toWalRecord, if_neg h]
  rfl

theorem Logged.kept {t : Transaction} (h : Logged t) : ¬ t.msg.cmd ≤ Command.select.code := by
  rcases h with h | h | h <;> rw [h] <;> decide

theorem toWalRecord_of_logged (w : WalLogger) {t : Transaction} (h : Logged t) :
    toWalRecord w t = (giveNewLSN w, some (recordOf w.lsn t)) :=
  toWalRecord_of_kept w h.kept

/-- The content of a log file: nothing yet, or a heading and the records so far. -/
def Headed (content : List UInt8) (lsn : ℕ) (records : List LogRecord) : Prop :=
  (content = [] ∧ records = []) ∨ content = leBytes 8 lsn ++ records.flatMap toBinary

theorem updateHeadingLSN_content {w : WalLogger} {old lsn : ℕ} {records : List LogRecord}
    (h : Headed w.file.content old records) :
    (updateHeadingLSN w lsn).file =
      ⟨leBytes 8 lsn ++ records.flatMap toBinary,
        (leBytes 8 lsn ++ records.flatMap toBinary).length⟩ := by
  rcases h with ⟨hcontent, rfl⟩ | hcontent
  · simp only [updateHeadingLSN, File.seek, hcontent, File.write_empty, File.seekEnd,
      List.flatMap_nil, List.append_nil]
  · simp only [updateHeadingLSN, File.seek, hcontent, File.seekEnd]
    rw [File.write_start _ (by simp)]

theorem writeStep_of_kept {w : WalLogger} {old : ℕ} {records : List LogRecord} {t : Transaction}
    (hkept : ¬ t.msg.cmd ≤ Command.select.code) (h : Headed w.file.content old records) :
    ∃ w', writeStep w t = .ok (w', wrap64 (w.lsn + 1)) ∧ w'.lsn = wrap64 (w.lsn + 1) ∧
      w'.file.content =
        leBytes 8 w'.lsn ++ (records ++ [recordOf w.lsn t]).flatMap toBinary := by
  have hfile : (updateHeadingLSN (giveNewLSN w) (wrap64 (w.lsn + 1))).file = _ :=
    updateHeadingLSN_content h
  refine ⟨{ updateHeadingLSN (giveNewLSN w) (wrap64 (w.lsn + 1)) with
    file := (updateHeadingLSN (giveNewLSN w) (wrap64 (w.lsn + 1))).file.write
      (toBinary (recordOf w.lsn t)) }, ?_, rfl, ?_⟩
  · simp only [writeStep, writeLog, toWalRecord_of_kept w hkept, writeLoop_complete,
      ok_bind, pure_eq_ok, recordOf]
  · simp only [hfile, File.write_end]
    simp [updateHeadingLSN, giveNewLSN]

/-- The run rule of the logger: the heading keeps the last LSN and the records follow it. -/
theorem run_writeStep {ts : List Transaction} (hlogged : ∀ t ∈ ts, Logged t) {w : WalLogger}
    {records : List LogRecord} (h : Headed w.file.content w.lsn records) :
    ∃ w', run writeStep w ts = .ok (w', (recordsOf w.lsn ts).map LogRecord.lsn) ∧
      Headed w'.file.content w'.lsn (records ++ recordsOf w.lsn ts) ∧
      ∀ last ∈ ((recordsOf w.lsn ts).map LogRecord.lsn).getLast?, w'.lsn = last := by
  induction ts generalizing w records with
  | nil => exact ⟨w, rfl, by simpa [recordsOf] using h, by simp [recordsOf]⟩
  | cons t rest ih =>
    obtain ⟨next, hstep, hlsn, hcontent⟩ := writeStep_of_kept (hlogged t (by simp)).kept h
    obtain ⟨w', hrun, hheaded, hlast⟩ := ih (fun t ht ↦ hlogged t (by simp [ht])) (.inr hcontent)
    rw [hlsn] at hrun hheaded hlast
    refine ⟨w', ?_, by simpa [recordsOf] using hheaded, ?_⟩
    · rw [run_cons_of_step hstep, hrun]
      rfl
    · simp only [recordsOf, List.map_cons, List.getLast?_cons, Option.mem_def, Option.some.injEq]
      rintro last rfl
      cases hrest : ((recordsOf (wrap64 (w.lsn + 1)) rest).map LogRecord.lsn).getLast? with
      | none =>
        obtain rfl : rest = [] := by
          cases rest with
          | nil => rfl
          | cons => simp [recordsOf] at hrest
        obtain ⟨rfl, -⟩ : next = w' ∧ _ := by simpa using hrun
        exact hlsn
      | some last => exact hlast last hrest

theorem binarySize_lt (r : LogRecord) : binarySize r < 2 ^ 64 := by
  have hkey := r.key.size_lt
  have hval := r.val.size_lt
  simp only [binarySize, sizeofLSN, sizeofOperation, sizeofSize, Str.size]
  omega

/-- The body of a record: everything behind its length. -/
def bodyOf (r : LogRecord) : List UInt8 :=
  leBytes 8 r.lsn ++ ([UInt8.ofNat r.key.size] ++
    (leBytes 2 r.key.size ++ (r.key.bytes ++ (leBytes 2 r.val.size ++ r.val.bytes))))

theorem toBinary_eq (r : LogRecord) :
    toBinary r = leBytes 8 (binarySize r) ++ bodyOf r := by
  have hprefix : (structPrefix r).take (sizeofLSN + sizeofOperation) =
      leBytes 8 r.lsn ++ [UInt8.ofNat r.key.size] := by
    rw [structPrefix, List.take_append, List.take_of_length_le (by simp [sizeofLSN])]
    simp [sizeofLSN, sizeofOperation, leBytes]
  rw [toBinary, hprefix, bodyOf]
  simp

theorem length_bodyOf (r : LogRecord) : (bodyOf r).length + 8 = binarySize r := by
  simp only [bodyOf, binarySize, sizeofLSN, sizeofOperation, sizeofSize, Str.size,
    List.length_append, length_leBytes, List.length_cons, List.length_nil]
  omega

theorem length_toBinary (r : LogRecord) : (toBinary r).length = binarySize r := by
  rw [toBinary_eq, List.length_append, length_leBytes, ← length_bodyOf, Nat.add_comm]

theorem parseRecord_bodyOf (r : LogRecord) : parseRecord (bodyOf r) = .ok (recovered r) := by
  have hval : takeStr (leBytes 2 r.val.size ++ r.val.bytes) = .ok (r.val, []) := by
    simpa using takeStr_append r.val []
  have hoperation : leValue [UInt8.ofNat r.key.size] = (UInt8.ofNat r.key.size).toNat := by
    simp [leValue]
  have hbyte (back : List UInt8) : takeBytes 1 ([UInt8.ofNat r.key.size] ++ back) =
      .ok ([UInt8.ofNat r.key.size], back) := takeBytes_append rfl
  simp only [parseRecord, bodyOf, sizeofLSN, sizeofOperation, takeBytes_leBytes, hbyte, ok_bind, takeStr_append, hval, if_true, hoperation, UInt8.ofNat_toNat, recovered]

/-- The size of the body as recovery computes it. -/
theorem wrap64_binarySize (r : LogRecord) :
    wrap64 (leValue (leBytes 8 (binarySize r)) + (2 ^ 64 - 8)) = (bodyOf r).length := by
  have hlt := binarySize_lt r
  have hlength := length_bodyOf r
  rw [leValue_leBytes_of_lt hlt, wrap64]
  omega

/-- Recovery at the start of a record reads this record and stops at the next one. -/
theorem recoverStep_toBinary (front back : List UInt8) (r : LogRecord)
    (junk : List UInt8 × (ℕ → UInt8)) :
    recoverStep ⟨front ++ (toBinary r ++ back), front.length⟩ junk =
      .ok (⟨front ++ (toBinary r ++ back), (front ++ toBinary r).length⟩, recovered r) := by
  have hsize : wrap64 (leValue ((overwrite junk.1 (leBytes 8 (binarySize r))).take 8) +
      (2 ^ 64 - 8)) = (bodyOf r).length := by
    rw [take_overwrite _ (length_leBytes 8 _), wrap64_binarySize]
  have hfirst := @File.read_append front (leBytes 8 (binarySize r)) (bodyOf r ++ back) 8 (by simp)
  have hsecond := @File.read_append (front ++ leBytes 8 (binarySize r)) (bodyOf r) back
    (bodyOf r).length rfl
  rw [List.append_assoc front] at hsecond
  have hblock : overwrite ((List.range (bodyOf r).length).map junk.2) (bodyOf r) = bodyOf r :=
    overwrite_of_length_le (by simp)
  simp only [recoverStep, recoverTransaction, toBinary_eq, List.append_assoc, hfirst, hsize,
    hsecond, hblock, parseRecord_bodyOf, ok_bind, pure_eq_ok]

/-- The run rule of recovery: from the first of some records in a row it reads them all and stops
behind the last one. -/
theorem run_recoverStep {records : List LogRecord} {junks : List (List UInt8 × (ℕ → UInt8))}
    (hlength : junks.length = records.length) (front back : List UInt8) :
    run recoverStep ⟨front ++ (records.flatMap toBinary ++ back), front.length⟩ junks =
      .ok (⟨front ++ (records.flatMap toBinary ++ back),
        (front ++ records.flatMap toBinary).length⟩, records.map recovered) := by
  induction records generalizing front junks with
  | nil =>
    obtain rfl := List.eq_nil_of_length_eq_zero hlength
    simp
  | cons r rest ih =>
    cases junks with
    | nil => simp at hlength
    | cons junk junks =>
      have hrun := ih (by simpa using hlength) (front ++ toBinary r)
      have hstep := recoverStep_toBinary front (rest.flatMap toBinary ++ back) r junk
      simp only [List.flatMap_cons, List.append_assoc] at hrun hstep ⊢
      rw [run_cons_of_step hstep, hrun]
      rfl

theorem recordsOf_recovered (lsn : ℕ) (ts : List Transaction) :
    (recordsOf lsn ts).map recovered =
      ts.map fun t ↦ ⟨none, UInt8.ofNat t.msg.key.size, t.msg.key, t.msg.val⟩ := by
  induction ts generalizing lsn with
  | nil => rfl
  | cons t rest ih => simp [recordsOf, ih, recovered, recordOf]

theorem length_recordsOf (lsn : ℕ) (ts : List Transaction) :
    (recordsOf lsn ts).length = ts.length := by
  induction ts generalizing lsn with
  | nil => rfl
  | cons t rest ih => simp [recordsOf, ih]

theorem recordsOf_lsn_lt {lsn : ℕ} {ts : List Transaction} {r : LogRecord}
    (h : r ∈ recordsOf lsn ts) : r.lsn < 256 ^ 8 := by
  induction ts generalizing lsn with
  | nil => simp [recordsOf] at h
  | cons t rest ih =>
    rcases List.mem_cons.mp h with rfl | h
    · exact Nat.mod_lt _ (by decide)
    · exact ih h

/-- Logging and recovering: the LSN of the last record comes back, and each transaction with the
low byte of its key's size for a command. -/
theorem log_then_recover {ts : List Transaction} (hlogged : ∀ t ∈ ts, Logged t)
    (lsn flushedLSN : ℕ) :
    ∃ w lsns, run writeStep (newWalLogger [] lsn flushedLSN) ts = .ok (w, lsns) ∧
      ∀ stack junks, junks.length = ts.length →
        (∀ last ∈ lsns.getLast?, (getLatestLogLSN stack ⟨w.file.content, 0⟩).2 = last) ∧
        ∃ u, run recoverStep (getLatestLogLSN stack ⟨w.file.content, 0⟩).1 junks =
          .ok (u, ts.map fun t ↦ ⟨none, UInt8.ofNat t.msg.key.size, t.msg.key, t.msg.val⟩) := by
  have hinit : Headed (newWalLogger [] lsn flushedLSN).file.content lsn [] := .inl ⟨rfl, rfl⟩
  obtain ⟨w, hrun, hheaded, hlast⟩ := run_writeStep hlogged hinit
  refine ⟨w, _, hrun, fun stack junks hjunks ↦ ?_⟩
  simp only [newWalLogger, List.nil_append] at hheaded hlast ⊢
  rcases hheaded with ⟨hcontent, hnone⟩ | hcontent
  · obtain rfl : ts = [] := by
      have := length_recordsOf lsn ts
      rw [hnone] at this
      exact List.eq_nil_of_length_eq_zero this.symm
    obtain rfl := List.eq_nil_of_length_eq_zero hjunks
    exact ⟨by simp [recordsOf], _, rfl⟩
  · have hread := @File.read_append [] (leBytes 8 w.lsn) ((recordsOf lsn ts).flatMap toBinary) 8
      (by simp)
    simp only [List.nil_append, List.length_nil, length_leBytes] at hread
    have hrecover := run_recoverStep (hjunks.trans (length_recordsOf lsn ts).symm)
      (leBytes 8 w.lsn) []
    rw [recordsOf_recovered, length_leBytes, List.append_nil] at hrecover
    constructor
    · intro last hmem
      have hlsn := hlast last hmem
      have hlt : w.lsn < 256 ^ 8 := by
        obtain ⟨r, hr, hr'⟩ := List.mem_map.mp (List.mem_of_mem_getLast? hmem)
        rw [hlsn, ← hr']
        exact recordsOf_lsn_lt hr
      simp only [getLatestLogLSN, hcontent, sizeofLSN, hread]
      rw [take_overwrite _ (length_leBytes 8 _), leValue_leBytes_of_lt hlt, hlsn]
    · simp only [getLatestLogLSN, hcontent, sizeofLSN, hread, File.seek, add_zero]
      exact ⟨_, hrecover⟩

/-- Transactions come back as they were logged exactly when the size of each key ends in the byte
that is the code of its command. -/
theorem logRecovers_iff {ts : List Transaction} (hlogged : ∀ t ∈ ts, Logged t)
    (lsn flushedLSN : ℕ) :
    LogRecovers lsn flushedLSN ts ↔ ∀ t ∈ ts, t.msg.key.size % 256 = t.msg.cmd.toNat := by
  obtain ⟨w, lsns, hrun, hrecover⟩ := log_then_recover hlogged lsn flushedLSN
  have hbyte (t : Transaction) : (⟨none, UInt8.ofNat t.msg.key.size, t.msg.key, t.msg.val⟩ :
      Transaction) = ⟨none, t.msg⟩ ↔ t.msg.key.size % 256 = t.msg.cmd.toNat := by
    rcases t with ⟨ancestor, cmd, key, val⟩
    simp [← UInt8.toNat_inj]
  constructor
  · rintro ⟨w', lsns', hrun', hproperty⟩
    obtain ⟨rfl, rfl⟩ : w = w' ∧ lsns = lsns' := by simpa [hrun] using hrun'
    obtain ⟨-, u, hfound⟩ := hrecover [] (ts.map fun _ ↦ ([], fun _ ↦ 0)) (by simp)
    obtain ⟨-, u', hclaimed⟩ := hproperty [] (ts.map fun _ ↦ ([], fun _ ↦ 0)) (by simp)
    have hmaps : (ts.map fun t ↦ (⟨none, UInt8.ofNat t.msg.key.size, t.msg.key, t.msg.val⟩ :
        Transaction)) = ts.map fun t ↦ ⟨none, t.msg⟩ := by
      have := hfound.symm.trans hclaimed
      simp only [Except.ok.injEq, Prod.mk.injEq] at this
      exact this.2
    intro t ht
    exact (hbyte t).mp (List.map_inj_left.mp hmaps t ht)
  · intro hsizes
    refine ⟨w, lsns, hrun, fun stack junks hjunks ↦ ?_⟩
    obtain ⟨hlast, u, hfound⟩ := hrecover stack junks hjunks
    refine ⟨hlast, u, ?_⟩
    rw [hfound, List.map_congr_left fun t ht ↦ (hbyte t).mpr (hsizes t ht)]

/-- An insertion and an update whose key sizes happen to be their command codes. -/
theorem logRecovers_insert_update :
    LogRecovers 0 0
      [⟨none, Command.insert.code, ⟨[107, 101, 121], by decide⟩, ⟨[118], by decide⟩⟩,
        ⟨none, Command.update.code, ⟨[107, 101, 121, 49], by decide⟩, ⟨[119], by decide⟩⟩] :=
  (logRecovers_iff (by decide) 0 0).mpr (by decide)

/-- The insertion of a key of one byte comes back as another command. -/
theorem logRecovers_fails_insert :
    ¬ LogRecovers 0 0
      [⟨none, Command.insert.code, ⟨[107], by decide⟩, ⟨[118], by decide⟩⟩] := by
  rintro ⟨w, lsns, hrun, hproperty⟩
  have hlogged : ∀ t ∈ ([⟨none, Command.insert.code, ⟨[107], by decide⟩, ⟨[118], by decide⟩⟩] :
      List Transaction), Logged t := by decide
  obtain ⟨w', lsns', hrun', hrecover⟩ := log_then_recover hlogged 0 0
  obtain ⟨rfl, rfl⟩ : w = w' ∧ lsns = lsns' := by simpa [hrun] using hrun'
  obtain ⟨-, u, hclaimed⟩ := hproperty [] [([], fun _ ↦ 0)] rfl
  obtain ⟨-, u', hfound⟩ := hrecover [] [([], fun _ ↦ 0)] rfl
  have := hfound.symm.trans hclaimed
  simp [Str.size, Command.code] at this

end FGDB.Wal
