import FGDB.Restart.Checkpoint

/-!
# The log file over restarts and kills

Every start opens the log file again, counts its LSNs from zero and writes behind what
is there. So the file has the modifications of all sessions one behind another, also
those that the pages have lost in a kill, and recovery reads all of them back.
-/

namespace FGDB.Restart

open Foundation HashMap Pages Server Wal Operations
open FGDB.Vector (Growth)

section Format

/-- The content of a log file: the LSN of the last record, and all records. -/
def logFile (records : List LogRecord) : List UInt8 :=
  records.getLast?.elim [] fun last ↦ leBytes 8 last.lsn ++ records.flatMap toBinary

theorem logFile_concat (records : List LogRecord) (r : LogRecord) :
    logFile (records ++ [r]) = leBytes 8 r.lsn ++ (records ++ [r]).flatMap toBinary := by
  rw [logFile, List.getLast?_concat, Option.elim_some]

theorem headed_logFile (records : List LogRecord) : ∃ lsn, Headed (logFile records) lsn records := by
  cases records using List.reverseRecOn with
  | nil => exact ⟨0, .inl ⟨rfl, rfl⟩⟩
  | append_singleton records r => exact ⟨r.lsn, .inr (logFile_concat records r)⟩

/-- A transaction is logged behind the records that are there. -/
theorem writeStep_logFile {w w' : WalLogger} {t : Transaction} {records : List LogRecord} {lsn : ℕ}
    (hlogged : Logged t) (hfile : w.file.content = logFile records)
    (h : writeStep w t = .ok (w', lsn)) :
    w'.lsn = wrap64 (w.lsn + 1) ∧ w'.file.content = logFile (records ++ [Wal.recordOf w.lsn t]) := by
  obtain ⟨old, hheaded⟩ := headed_logFile records
  rw [← hfile] at hheaded
  obtain ⟨next, hnext, hlsn, hcontent⟩ := writeStep_of_kept hlogged.kept hheaded
  have hsame := (Prod.mk.inj (Except.ok.inj (hnext.symm.trans h))).1
  rw [← hsame, logFile_concat, hcontent, hlsn]
  exact ⟨rfl, rfl⟩

/-- What recovery gets from the content of a log file: the LSN of the last record, and from each
record the key and the value, with the low byte of the size of the key for a command. -/
def RecoversRecords (content : List UInt8) (records : List LogRecord) : Prop :=
  ∀ stack junks, junks.length = records.length →
    (∀ last ∈ records.getLast?, (getLatestLogLSN stack ⟨content, 0⟩).2 = last.lsn) ∧
      ∃ u, run recoverStep (getLatestLogLSN stack ⟨content, 0⟩).1 junks =
        .ok (u, records.map recovered)

theorem logFile_recovers {records : List LogRecord} (hlsns : ∀ r ∈ records, r.lsn < 256 ^ 8) :
    RecoversRecords (logFile records) records := by
  intro stack junks hjunks
  cases records using List.reverseRecOn with
  | nil =>
    rw [List.eq_nil_of_length_eq_zero hjunks]
    exact ⟨nofun, _, rfl⟩
  | append_singleton records r =>
    have hread := @File.read_append [] (leBytes 8 r.lsn) ((records ++ [r]).flatMap toBinary) 8
      (length_leBytes 8 _)
    have hrecover := run_recoverStep hjunks (leBytes 8 r.lsn) []
    simp only [List.nil_append, List.length_nil, length_leBytes] at hread
    rw [length_leBytes, List.append_nil] at hrecover
    rw [getLatestLogLSN, sizeofLSN, logFile_concat, hread]
    constructor
    · intro last hlast
      rw [List.getLast?_concat, Option.mem_some_iff] at hlast
      have hheading : leValue ((overwrite stack (leBytes 8 r.lsn)).take 8) = r.lsn := by
        rw [take_overwrite _ (length_leBytes 8 _)]
        exact leValue_leBytes_of_lt (hlsns r List.mem_concat_self)
      exact hheading.trans (congrArg LogRecord.lsn hlast)
    · exact ⟨_, hrecover⟩

end Format

section Operations

variable {growth : Growth} {db db' : Database (Str → Option ℕ)} {d : Str → Option Str}
  {call : OperationCall} {result : Option ProtoReply}

def answeredOk : Answer → Bool
  | .ok _ _ => true
  | .error _ | .fatal _ => false

theorem answeredOk_eq {answer : Answer} (h : Answers result answer) :
    repliedOk result = answeredOk answer := by
  obtain ⟨reply, rfl, hsays⟩ := h
  cases answer with
  | ok cmd val => exact decide_eq_true hsays.1
  | error err =>
    have hcode : reply.code = .error := hsays.1
    simp only [repliedOk, Option.any_some, hcode]
    rfl
  | fatal fatal =>
    have hcode : reply.code = .fatal := hsays.1
    simp only [repliedOk, Option.any_some, hcode]
    rfl

/-- An INSERT or a DELETE that is answered REPLY_OK. -/
def Acknowledged (d : Str → Option Str) (call : OperationCall) : Prop :=
  Modifies call ∧ answeredOk (mapStep d call).2 = true

instance (d : Str → Option Str) (call : OperationCall) : Decidable (Acknowledged d call) :=
  inferInstanceAs (Decidable (_ ∧ _))

/-- What an operation does to the log. -/
inductive LogStep (d : Str → Option Str) (call : OperationCall) (w w' : WalLogger) : Prop
  | logs (hlogged : Acknowledged d call) (lsn : ℕ) (hwrite : writeStep w call.trans = .ok (w', lsn))
  | keeps (hnot : ¬ Acknowledged d call) (hsame : w' = w)

theorem writeLog_writes {H : Type} {db db' : Database H} {trans : Transaction} {lsn : ℕ}
    (h : db.writeLog trans = .ok (db', lsn)) :
    writeStep db.walLogger trans = .ok (db'.walLogger, lsn) := by
  obtain ⟨⟨walLogger, lsn'⟩, hwrite, h⟩ := bind_eq_ok.mp h
  obtain ⟨rfl, rfl⟩ := Prod.mk.inj (Except.ok.inj h)
  exact hwrite

theorem LogStep.of_same {w w' : WalLogger} (hanswers : Answers result (mapStep d call).2)
    (hreply : repliedOk result = false) (hsame : w' = w) : LogStep d call w w' := by
  refine .keeps (fun hok ↦ ?_) hsame
  rw [Acknowledged, ← answeredOk_eq hanswers, hreply] at hok
  exact Bool.false_ne_true hok.2

theorem LogStep.of_read {w w' : WalLogger} {code : UInt8} (hcmd : call.trans.msg.cmd = code)
    (hinsert : code ≠ Command.insert.code) (hdelete : code ≠ Command.delete.code)
    (hsame : w' = w) : LogStep d call w w' := by
  refine .keeps (fun hok ↦ ?_) hsame
  rw [Acknowledged, Modifies, hcmd] at hok
  exact hok.1.elim hinsert hdelete

/-- Exactly the acknowledged modifications are logged. -/
theorem operationStep_logs (hlasts : Lasts db d) (hrequest : IsRequest call)
    (hputs : call.trans.msg.cmd = Command.insert.code → call.trans.msg.val.size ≠ 0 →
      db.hashmap call.trans.msg.key = none → PutsDirty growth db.storage call.trans.msg.val)
    (h : operationStep correctCalls growth db call = .ok (db', result)) :
    LogStep d call db.walLogger db'.walLogger := by
  obtain ⟨next, result', hnext, -, hanswers⟩ :=
    operationStep_ends correctCalls_lawful hlasts.serves hrequest (regular_of_putsDirty hputs)
  obtain ⟨rfl, rfl⟩ := Prod.mk.inj (Except.ok.inj (hnext.symm.trans h))
  unfold operationStep at h
  split at h
  · rename_i hpeek
    exact .of_read hpeek (by decide) (by decide) (by rw [operationPeek_shape h])
  split at h
  · rename_i hselect
    refine .of_read hselect (by decide) (by decide) ?_
    rcases operationSelect_shape h with hsame | ⟨pointer, keyMeta, storage, value, -, -, -, hdb⟩
    · rw [hsame]
    · rw [hdb]
  split at h
  · rename_i hselect hinsert
    have hanswer := hanswers fun hcmd ↦ absurd hcmd hselect
    rcases operationInsert_shape h with ⟨hsame, hreply⟩ | ⟨puts, hends⟩
    · exact .of_same hanswer hreply (by rw [hsame])
    · cases hends with
      | refused hrefused => cases hrefused
      | taken hok hdb =>
        have hwrite := writeLog_writes puts.log
        refine .logs ⟨.inl hinsert, ?_⟩ puts.lsn ?_
        · rw [← answeredOk_eq hanswer, hok]
        · rw [hdb]
          exact hwrite
  split at h
  · rename_i hselect hinsert hdelete
    have hanswer := hanswers fun hcmd ↦ absurd hcmd hselect
    rcases operationDelete_shape h with ⟨hsame, hreply⟩ | ⟨deletes, hreply⟩
    · exact .of_same hanswer hreply (by rw [hsame])
    · have hwrite := writeLog_writes deletes.log
      obtain ⟨pointers, hhashmap, hbound⟩ := hlasts.serves.index
      obtain rfl : db.hashmap = pointers := hhashmap
      obtain ⟨value, hvalue, -⟩ := hbound.stored call.trans.msg.key deletes.pointer deletes.found
      refine .logs ⟨.inr hdelete, ?_⟩ deletes.lsn ?_
      · simp only [mapStep, if_neg hinsert, hvalue, if_pos hdelete]
        rfl
      · rw [deletes.walLogger]
        exact hwrite
  split at h
  · cases h
  · rename_i hinsert hdelete hupdate
    exact .of_read rfl hinsert hdelete (by rw [(Prod.mk.inj (Except.ok.inj h)).1])

end Operations

section Journal

variable {growth : Growth} {db db' : Database (VoidPtr ℕ)}

/-- The map, the LSN of the session and the records of all sessions. -/
structure Journal where
  durable : Durable
  lsn : ℕ
  records : List LogRecord

/-- Acknowledged modifications are recorded with the next LSN, and every start counts from zero. -/
def journalSpec (j : Journal) (event : KillEvent) : Journal × Unit :=
  let durable := (killSpec j.durable event).1
  match event with
  | .event (.operation call) =>
    if Acknowledged j.durable.live call then
      (⟨durable, wrap64 (j.lsn + 1), j.records ++ [Wal.recordOf j.lsn call.trans]⟩, ())
    else (⟨durable, j.lsn, j.records⟩, ())
  | .event .snapshot => (⟨durable, j.lsn, j.records⟩, ())
  | .event (.restart _) | .kill _ => (⟨durable, 0, j.records⟩, ())

/-- The log file has the records. -/
structure Journals (db : Database (VoidPtr ℕ)) (j : Journal) : Prop where
  endures : Endures db j.durable
  lsn : db.walLogger.lsn = j.lsn
  file : db.walLogger.file.content = logFile j.records
  lsns : ∀ r ∈ j.records, r.lsn < 256 ^ 8

theorem dbStart_walLogger {H : Type} {calls : HashmapCalls H} {memory : Memory} {hashmap : H}
    {vfd kfd log : List UInt8} {db : Database H}
    (h : dbStart calls growth memory hashmap vfd kfd log = .ok db) :
    db.walLogger = newWalLogger log 0 0 := by
  obtain ⟨⟨kfd', st⟩, -, h⟩ := bind_eq_ok.mp h
  by_cases hshort : st.keys < (initDisk vfd kfd).nkeys
  · simp only [if_pos hshort] at h
    cases h
  · simp only [if_neg hshort] at h
    rw [← Except.ok.inj h]

theorem restart_walLogger {memory : Memory}
    (h : sessionStep growth db (.restart memory) = .ok (db', ())) :
    db'.walLogger = newWalLogger db.walLogger.file.content 0 0 := by
  obtain ⟨next, hrestart, h⟩ := bind_eq_ok.mp h
  obtain ⟨s, -, hstart⟩ := bind_eq_ok.mp hrestart
  rw [← (Prod.mk.inj (Except.ok.inj h)).1]
  exact dbStart_walLogger hstart

theorem kill_walLogger {memory : Memory} (h : killStep growth db (.kill memory) = .ok (db', ())) :
    db'.walLogger = newWalLogger db.walLogger.file.content 0 0 := by
  obtain ⟨next, hstart, h⟩ := bind_eq_ok.mp h
  rw [← (Prod.mk.inj (Except.ok.inj h)).1]
  exact dbStart_walLogger hstart

theorem snapshot_walLogger (growth : Growth)
    (h : sessionStep growth db .snapshot = .ok (db', ())) :
    db'.walLogger = db.walLogger := by
  obtain ⟨s, -, h⟩ := bind_eq_ok.mp h
  rw [← (Prod.mk.inj (Except.ok.inj h)).1]

/-- An acknowledged modification comes to the end of the log. -/
theorem LogStep.journals {j : Journal} {call : OperationCall} (h : Journals db j)
    (hlog : LogStep j.durable.live call db.walLogger db'.walLogger)
    (hendures : Endures db' (killSpec j.durable (.event (.operation call))).1) :
    Journals db' (journalSpec j (.event (.operation call))).1 := by
  cases hlog with
  | logs hlogged lsn hwrite =>
    have hfile := writeStep_logFile hlogged.1.logged h.file hwrite
    rw [journalSpec, if_pos hlogged]
    refine ⟨hendures, ?_, ?_, fun r hr ↦ ?_⟩
    · rw [hfile.1, h.lsn]
    · rw [hfile.2, h.lsn]
    · rcases List.mem_append.mp hr with hr | hr
      · exact h.lsns r hr
      · rw [List.mem_singleton.mp hr]
        exact Nat.mod_lt _ (by decide)
  | keeps hnot hsame =>
    rw [journalSpec, if_neg hnot]
    exact ⟨hendures, hsame ▸ h.lsn, hsame ▸ h.file, h.lsns⟩

/-- A start leaves the file alone. -/
theorem Journals.restarts {j : Journal} {durable : Durable} (h : Journals db j)
    (hendures : Endures db' durable)
    (hlogger : db'.walLogger = newWalLogger db.walLogger.file.content 0 0) :
    Journals db' ⟨durable, 0, j.records⟩ := by
  refine ⟨hendures, ?_, ?_, h.lsns⟩
  · rw [hlogger]
    rfl
  · rw [hlogger]
    exact h.file

theorem killStep_journals {j : Journal} {event : KillEvent} (h : Journals db j)
    (hevent : IsKillEvent event) (hfits : KillFits growth db event) : ∃ db',
      killStep growth db event = .ok (db', (journalSpec j event).2) ∧
        Journals db' (journalSpec j event).1 := by
  obtain ⟨db', hstep, hendures⟩ := killStep_endures h.endures hevent hfits
  refine ⟨db', hstep, ?_⟩
  cases event with
  | kill memory => exact h.restarts hendures (kill_walLogger hstep)
  | event event =>
    cases event with
    | restart memory => exact h.restarts hendures (restart_walLogger hstep)
    | snapshot =>
      have hsame := snapshot_walLogger growth hstep
      exact ⟨hendures, hsame ▸ h.lsn, hsame ▸ h.file, h.lsns⟩
    | operation call =>
      obtain ⟨db'', hfollows⟩ := operation_follows h.endures.carries hevent hfits
      obtain rfl := (Prod.mk.inj (Except.ok.inj (hfollows.step.symm.trans hstep))).1
      obtain ⟨pointers, next, result, hlasts, hputs, hnext, -, hlogger⟩ := hfollows.pages
      have hlog := operationStep_logs hlasts hevent hputs hnext
      rw [← hlogger] at hlog
      exact hlog.journals h hendures

/-- The acknowledged modifications of a run, of all its sessions, as records of the log. -/
def acknowledged (events : List KillEvent) : List LogRecord :=
  (runSpec journalSpec ⟨⟨fun _ ↦ none, fun _ ↦ none⟩, 0, []⟩ events).1.records

/-- Nothing faults, and the log file has exactly the acknowledged modifications in their order. -/
def KeepsLog (growth : Growth) (start : Database (VoidPtr ℕ)) (events : List KillEvent) : Prop :=
  ∃ db outputs, run (killStep growth) start events = .ok (db, outputs) ∧
    db.walLogger.file.content = logFile (acknowledged events) ∧
    RecoversRecords db.walLogger.file.content (acknowledged events)

/-- From an empty database and an empty log, with snapshots, restarts and kills between any two
operations, no acknowledged modification is missing from the log file, and recovery reads all of
them back. -/
theorem keepsLog_of_killFits {memory : Memory} {start : Database (VoidPtr ℕ)}
    (hstart : dbStart hashmapCalls growth memory hashmapNew [] [] [] = .ok start)
    {events : List KillEvent} (hevents : ∀ event ∈ events, IsKillEvent event)
    (hfits : EachStep (killStep growth) (KillFits growth) start events) :
    KeepsLog growth start events := by
  have hempty : Journals start ⟨⟨fun _ ↦ none, fun _ ↦ none⟩, 0, []⟩ := by
    refine ⟨start_endures hstart, ?_, ?_, nofun⟩
    · rw [dbStart_walLogger hstart]
      rfl
    · rw [dbStart_walLogger hstart]
      rfl
  have hstep (db : Database (VoidPtr ℕ)) (j : Journal) (event : KillEvent) (h : Journals db j)
      (hevent : IsKillEvent event ∧ KillFits growth db event) : ∃ db',
        killStep growth db event = .ok (db', (journalSpec j event).2) ∧
          Journals db' (journalSpec j event).1 :=
    killStep_journals h hevent.1 hevent.2
  obtain ⟨db, hrun, hjournals⟩ :=
    run_simulates hstep hempty ((eachStep_of_forall hevents).and hfits)
  refine ⟨db, _, hrun, hjournals.file, ?_⟩
  rw [hjournals.file]
  exact logFile_recovers hjournals.lsns

/-- A key is inserted, and the process is killed: the pages have lost it, and the log has it. -/
theorem keepsLog_one_kill : ∃ start,
    dbStart hashmapCalls .source (fun _ ↦ 0) hashmapNew [] [] [] = .ok start ∧
      KeepsLog .source start [.event (.operation (letterCall .insert)), .kill fun _ ↦ 0] ∧
      acknowledged [.event (.operation (letterCall .insert)), .kill fun _ ↦ 0] =
        [Wal.recordOf 0 (letterCall .insert).trans] ∧
      recoveredValues [.event (.operation (letterCall .insert)), .kill fun _ ↦ 0] (.ofByte 107) =
        none := by
  have hfiles : (dbStart hashmapCalls .source (fun _ ↦ 0) hashmapNew [] [] [] >>= fun start ↦
      killStep .source start (.event (.operation (letterCall .insert)))).toOption.map (fun result ↦
        ((initDisk result.1.storage.disk.vfd.content result.1.storage.disk.kfd.content).nkeys,
          (fileListings result.1.storage.disk).length)) = some (0, 0) := by
    decide +kernel
  have hstart := dbStart_empty .source (fun _ ↦ 0) []
  rw [hstart, ok_bind] at hfiles
  refine ⟨_, hstart, keepsLog_of_killFits hstart ?_ ⟨letterInsert_fits,
    fun next output hnext ↦ ⟨?_, fun _ _ _ ↦ trivial⟩⟩, ?_, ?_⟩
  · rw [List.forall_mem_cons, List.forall_mem_singleton]
    exact ⟨⟨by decide, .inr (.inr (.inl rfl))⟩, trivial⟩
  · rw [hnext] at hfiles
    obtain ⟨hcount, hnone⟩ := Prod.mk.inj (Option.some.inj hfiles)
    have hlistings := List.eq_nil_of_length_eq_zero hnone
    refine ⟨?_, ?_, ?_, ?_⟩
    · exact hcount ▸ Nat.zero_le _
    · rw [hlistings]
      exact fun used hused ↦ absurd hused (Nat.not_lt_zero used)
    · rw [hlistings]
      exact fun listing hmem ↦ absurd hmem List.not_mem_nil
    · rw [hlistings]
      trivial
  · decide
  · decide

end Journal

end FGDB.Restart
