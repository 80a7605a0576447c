import FGDB.Foundation.Replay
import FGDB.Restart.Reopen

/-!
# The watermark of the snapshot files

The LSN of the snapshot files is meant to divide the log: what the records up to it
did is in the files, and replaying the others loses no modification. This holds
until the process is started again, because the logger then counts from zero. A
record that is appended afterwards has an LSN that the log already has, and that
the files are taken to include.
-/

namespace FGDB.Restart

open Foundation Memory Records HashMap Pages Server Wal Operations
open FGDB.Vector (BoundedList Growth)

/-- The database, and the records that were appended to the log file before its last start. -/
structure System where
  db : Database (Str → Option ℕ)
  before : List LogRecord

/-- The records of the log file. -/
def System.log (sys : System) : List LogRecord := sys.before ++ sys.db.records

/-- An operation, the snapshot signal, or a shutdown and the next start. -/
inductive Event
  | operation (call : OperationCall)
  | snapshot
  | restart (memory : Memory)

def systemStep (sys : System) : Event → Outcome (System × Unit)
  | .operation call => do
    let (db, _) ← storeStep sys.db call
    return (⟨db, sys.before⟩, ())
  | .snapshot => do
    let s ← snapshot sys.db.storage
    return (⟨{ sys.db with storage := s }, sys.before⟩, ())
  | .restart memory => do
    let db ← reopen memory sys.db
    return (⟨db, sys.log⟩, ())

/-- What a modification leaves for its key. -/
def effect (r : LogRecord) : Option (List UInt8) :=
  if r.operation = Command.insert.code then some r.val.bytes else none

/-- The LSN of the files divides the log. -/
structure WatermarkHolds (sys : System) : Prop where
  unsaved : ∀ key r, lastRecord LogRecord.key sys.log key = some r →
    fileValue sys.db.storage.disk key ≠ effect r → sys.db.storage.disk.lsn < r.lsn
  increasing : sys.log.Pairwise fun r r' ↦ r.lsn < r'.lsn
  lossless : ∀ r ∈ sys.log, recover LogRecord.key effect (fileValue sys.db.storage.disk)
    (sys.log.filter fun r ↦ sys.db.storage.disk.lsn < r.lsn) r.key =
      recover LogRecord.key effect (fun _ ↦ none) sys.log r.key

/-- An INSERT of a new key with a value, or a DELETE of a key that is there. -/
def Changes (db : Database (Str → Option ℕ)) (call : OperationCall) : Prop :=
  (call.trans.msg.cmd = Command.insert.code ∧ call.trans.msg.val.size ≠ 0 ∧
    db.hashmap call.trans.msg.key = none) ∨
  (call.trans.msg.cmd = Command.delete.code ∧ db.hashmap call.trans.msg.key ≠ none)

/-- The logger has counted the records of the log before a modification, and a snapshot finds the
values of the dirty pages in places from which they can be moved. -/
def Orderly (sys : System) : Event → Prop
  | .operation call => Changes sys.db call →
    sys.db.walLogger.lsn = sys.log.length ∧ sys.log.length + 1 < 2 ^ 64
  | .snapshot => Dumpable sys.db.storage
  | .restart _ => Dumpable sys.db.storage

section Operations

variable {db db' : Database (Str → Option ℕ)} {call : OperationCall} {result : Option ProtoReply}

/-- An operation changes nothing, reads the page of a meta, or is a modification. -/
inductive StepKind (db db' : Database (Str → Option ℕ)) (call : OperationCall) : Prop
  | same (hsame : db' = db)
  | reads (pointer : ℕ) (keyMeta : KeyMeta) (storage : Storage) (value : ℕ × Str)
    (hget : pageValueGet db.storage keyMeta = .ok (storage, some value))
    (hdb : db' = { db with storage := storage })
  | changes (hchanges : Changes db call)

theorem storeStep_kind (h : storeStep db call = .ok (db', result)) : StepKind db db' call := by
  unfold storeStep operationStep at h
  split at h
  · exact .same (operationPeek_shape h)
  split at h
  · rcases operationSelect_shape h with hsame | ⟨pointer, keyMeta, storage, value, -, -, hget, hdb⟩
    · exact .same hsame
    · exact .reads pointer keyMeta storage value hget hdb
  split at h
  · rename_i hinsert
    rcases operationInsert_shape h with ⟨hsame, -⟩ | ⟨puts, -⟩
    · exact .same hsame
    · exact .changes (.inl ⟨hinsert, puts.value, puts.absent⟩)
  split at h
  · rename_i hdelete
    rcases operationDelete_shape h with ⟨hsame, -⟩ | ⟨deletes, -⟩
    · exact .same hsame
    · refine .changes (.inr ⟨hdelete, ?_⟩)
      rw [deletes.found]
      exact nofun
  split at h
  · cases h
  · exact .same (Prod.mk.inj (Except.ok.inj h)).1.symm

/-- A record is appended by modifications only. -/
theorem changes_of_records (h : storeStep db call = .ok (db', result))
    (hrecords : db'.records ≠ db.records) : Changes db call := by
  cases storeStep_kind h with
  | same hsame => exact absurd (congrArg Database.records hsame) hrecords
  | reads pointer keyMeta storage value hget hdb =>
    exact absurd (congrArg Database.records hdb) hrecords
  | changes hchanges => exact hchanges

end Operations

section Quiet

variable {s s' : Storage} {header : PageHeader} {listing : PageListing}

/-- A page that is in the file only is brought into a free page of the arena, and the files stay. -/
theorem heatPage_disk {pageId arenaId : ℕ}
    (hroom : s.arena.uploadedPages < s.arena.allocatedPages)
    (h : heatPage s pageId = .ok (s', arenaId)) :
    s'.disk.vfd.content = s.disk.vfd.content ∧ s'.disk.kfd = s.disk.kfd ∧
      s'.disk.lsn = s.disk.lsn := by
  obtain ⟨⟨s1, arenaPageId⟩, hnext, h⟩ := bind_eq_ok.mp h
  obtain ⟨s2, hupload, h⟩ := bind_eq_ok.mp h
  obtain ⟨_, -, h⟩ := bind_eq_ok.mp h
  rw [arenaGetNextPage, if_pos hroom, Except.ok.injEq, Prod.mk.injEq] at hnext
  obtain ⟨arena, -, hupload⟩ := bind_eq_ok.mp hupload
  split at hupload
  · cases hupload
  · rw [← (Prod.mk.inj (Except.ok.inj h)).1, ← Except.ok.inj hupload, ← hnext.1]
    exact ⟨rfl, rfl, rfl⟩

theorem warmHeader_disk {page : ℕ} (hroom : ∀ header, s.headers[page]? = some header →
    header.location = .inDisk → s.arena.uploadedPages < s.arena.allocatedPages)
    (h : warmHeader s page = .ok (s', header)) :
    s'.disk.vfd.content = s.disk.vfd.content ∧ s'.disk.kfd = s.disk.kfd ∧
      s'.disk.lsn = s.disk.lsn := by
  obtain ⟨old, hold, ⟨-, hsame, -⟩ | hheated⟩ := warmHeader_shape h
  · rw [hsame]
    exact ⟨rfl, rfl, rfl⟩
  · have hfound : s.arena.headers.contents[page]? = some old := hold
    rw [warmHeader, hfound, Option.elim_some, ok_bind, if_pos hheated.cold] at h
    obtain ⟨⟨s1, arenaId⟩, hheat, h⟩ := bind_eq_ok.mp h
    have hdisk := heatPage_disk (hroom old hold hheated.cold) hheat
    rw [← (Prod.mk.inj (Except.ok.inj h)).1]
    exact hdisk

theorem pageValueGet_settled {keyMeta : KeyMeta} {value : ℕ × Str} (h : Settled s header listing)
    (hget : pageValueGet s keyMeta = .ok (s', some value)) : Resettled s s' listing := by
  obtain ⟨⟨s1, found⟩, hwarm, hget⟩ := bind_eq_ok.mp hget
  have hresult : s1 = s' := by
    simp only [] at hget
    split at hget
    · split at hget
      · cases hget
      · obtain ⟨_, -, hget⟩ := bind_eq_ok.mp hget
        exact (Prod.mk.inj (Except.ok.inj hget)).1
    · cases hget
  rw [hresult] at hwarm
  obtain ⟨old, hold, ⟨-, hsame, -⟩ | hheated⟩ := warmHeader_shape hwarm
  · rw [hsame]
    exact ⟨⟨header, h⟩, rfl, rfl⟩
  · have hmem := List.mem_of_getElem? hold
    have hlt := (List.getElem?_eq_some_iff.mp hold).1
    rw [h.filed.headers] at hmem hlt
    obtain rfl := List.mem_singleton.mp hmem
    obtain hpage : keyMeta.page = 0 := Nat.lt_one_iff.mp hlt
    have hroom (header : PageHeader) (hhere : s.headers[keyMeta.page]? = some header)
        (hcold : header.location = .inDisk) : s.arena.uploadedPages < s.arena.allocatedPages := by
      obtain rfl := Option.some.inj (hhere.symm.trans hold)
      exact h.room hcold
    obtain ⟨hvfd, hkfd, hlsn⟩ := warmHeader_disk hroom hwarm
    have hsame := hheated.same
    have hheaders : s'.headers = [found] := by
      rw [hheated.headers, h.filed.headers, hpage, List.set_cons_zero]
    refine ⟨⟨found, ⟨hheaders, ⟨?_, ?_⟩, h.filed.inRange, h.filed.pageId, ?_, ?_⟩, ?_, ?_⟩, ?_, hlsn⟩
    · rw [hsame]
      exact h.filed.lists.offset
    · rw [hsame, hheated.metas]
      exact h.filed.lists.keys
    · rw [hkfd]
      exact h.filed.content
    · rw [hvfd]
      exact h.filed.length
    · rw [hsame]
      exact h.clean
    · rw [hsame]
      exact nofun
    · rw [Storage.snapImage, Storage.snapImage, hvfd]

/-- The values in the files are those of the listing in the page of the snapshot file. -/
theorem Filed.value (h : Filed s header listing) (key : Str) : fileValue s.disk key =
    (listing.keys.find? fun entry ↦ entry.key = key).map fun entry ↦
      payloadAt (s.snapImage 0) entry.offset := by
  rw [fileValue, h.entries]
  cases hfound : listing.keys.find? fun entry ↦ entry.key = key with
  | none => rw [Option.map_none, Option.map_none]
  | some entry =>
    have hpage := h.pageId entry (List.mem_of_find?_eq_some hfound)
    simp only [Option.map_some, hpage, Storage.snapImage]

theorem Settled.snapshot (h : Settled s header listing) (hsnapshot : snapshot s = .ok s') :
    Resettled s s' listing := by
  rw [snapshot_one_page h.filed.headers, snapshotHeader_clean h.filed.headers h.clean,
    ok_bind] at hsnapshot
  obtain ⟨hfiled, harena, -, hvfd, hlsn⟩ := diskDumpKeys_filed h.filed.headers h.filed.lists
    h.filed.inRange h.filed.pageId h.filed.length hsnapshot
  refine ⟨⟨header, hfiled, h.clean, ?_⟩, ?_, hlsn⟩
  · rw [harena]
    exact h.room
  · rw [Storage.snapImage, Storage.snapImage, hvfd]

/-- What holds since a start that found records in the log. -/
structure Quiet (sys : System) : Prop where
  holds : WatermarkHolds sys
  behind : sys.db.walLogger.lsn < sys.log.length
  lsn_lt : sys.db.storage.disk.lsn < 2 ^ 64
  settled : ∃ header listing, Settled sys.db.storage header listing

theorem WatermarkHolds.congr {sys sys' : System} (h : WatermarkHolds sys)
    (hlog : sys'.log = sys.log) (hfiles : ∀ key, fileValue sys'.db.storage.disk key =
      fileValue sys.db.storage.disk key)
    (hlsn : sys'.db.storage.disk.lsn = sys.db.storage.disk.lsn) : WatermarkHolds sys' := by
  have hall : fileValue sys'.db.storage.disk = fileValue sys.db.storage.disk := funext hfiles
  refine ⟨?_, ?_, ?_⟩
  · rw [hlog, hall, hlsn]
    exact h.unsaved
  · rw [hlog]
    exact h.increasing
  · rw [hlog, hall, hlsn]
    exact h.lossless

theorem Quiet.next {sys sys' : System} (h : Quiet sys)
    (hnext : ∀ header listing, Settled sys.db.storage header listing →
      Resettled sys.db.storage sys'.db.storage listing)
    (hlog : sys'.log = sys.log) (hbehind : sys'.db.walLogger.lsn < sys.log.length) :
    Quiet sys' := by
  obtain ⟨header, listing, hold⟩ := h.settled
  obtain ⟨⟨header', hnew⟩, himage, hlsn⟩ := hnext header listing hold
  refine ⟨h.holds.congr hlog (fun key ↦ ?_) hlsn, ?_, ?_, header', listing, hnew⟩
  · rw [hnew.filed.value, hold.filed.value, himage]
  · rw [hlog]
    exact hbehind
  · rw [hlsn]
    exact h.lsn_lt

end Quiet

section Watched

variable {sys : System} {d : Str → Option Str} {header : PageHeader}

/-- The only page while the logger counts the records of the log. -/
structure WatchedPage (s : Storage) (records : List LogRecord) (d : Str → Option Str)
    (header : PageHeader) : Prop where
  logged : records ≠ []
  headers : s.headers = [header]
  stamped : header.pLSN = records.length
  file : (s.disk.vfd.content.length ≤ arenaStart ∧ header.state = .dirty) ∨
    s.disk.vfd.content.length = pagePos 1
  clean : header.state ≠ .dirty → ∀ key value r, d key = some value →
    lastRecord LogRecord.key records key = some r → r.lsn ≤ s.disk.lsn →
      ∀ entry ∈ header.keys.contents, payloadAt (s.snapImage 0) entry.offset = value.bytes

/-- What holds as long as the logger has counted the records of the log. -/
structure Watched (sys : System) (d : Str → Option Str) : Prop where
  store : StoreIs sys.db d
  before : sys.before = []
  counter : sys.db.walLogger.lsn = sys.db.records.length
  small : sys.db.records.length < 2 ^ 64
  bounded : ∀ r ∈ sys.db.records, r.lsn ≤ sys.db.records.length
  increasing : sys.db.records.Pairwise fun r r' ↦ r.lsn < r'.lsn
  values : ∀ key, (lastRecord LogRecord.key sys.db.records key).bind effect =
    (d key).map Str.bytes
  mark : sys.db.storage.disk.lsn ≤ sys.db.records.length
  saved : ∀ key r, lastRecord LogRecord.key sys.db.records key = some r →
    r.lsn ≤ sys.db.storage.disk.lsn → fileValue sys.db.storage.disk key = effect r
  page : (sys.db.records = [] ∧ sys.db.storage.headers = [] ∧
    sys.db.storage.disk.vfd.content.length ≤ arenaStart) ∨
      ∃ header, WatchedPage sys.db.storage sys.db.records d header

theorem Watched.log (h : Watched sys d) : sys.log = sys.db.records := by
  rw [System.log, h.before, List.nil_append]

theorem Watched.holds (h : Watched sys d) : WatermarkHolds sys := by
  have hunsaved : ∀ key r, lastRecord LogRecord.key sys.log key = some r →
      fileValue sys.db.storage.disk key ≠ effect r → sys.db.storage.disk.lsn < r.lsn := by
    rw [h.log]
    intro key r hlast hne
    by_contra hle
    exact hne (h.saved key r hlast (Nat.le_of_not_lt hle))
  have hincreasing : sys.log.Pairwise fun r r' ↦ r.lsn < r'.lsn := by
    rw [h.log]
    exact h.increasing
  exact ⟨hunsaved, hincreasing, fun r hr ↦ recover_above hincreasing hunsaved hr⟩

/-- What the last record of a key left is what the store has. -/
theorem Watched.effect_eq (h : Watched sys d) {key : Str} {r : LogRecord}
    (hlast : lastRecord LogRecord.key sys.db.records key = some r) :
    effect r = (d key).map Str.bytes := by
  rw [← h.values key, hlast, Option.bind_some]

theorem watched_emptyStore (memory : Memory) (vfd kfd log : List UInt8)
    (hlength : vfd.length ≤ arenaStart) (hlsn : (initDisk vfd kfd).lsn = 0) :
    Watched ⟨emptyStore memory arenaPages 0 (initDisk vfd kfd) (newWalLogger log 0 0), []⟩
      fun _ ↦ none := by
  refine ⟨emptyStore_is _ _ _ _ _, rfl, rfl, Nat.two_pow_pos 64, nofun, .nil, fun _ ↦ rfl,
    hlsn.le, nofun, .inl ⟨rfl, rfl, hlength⟩⟩

end Watched

section Logged

variable {sys : System} {d : Str → Option Str} {call : OperationCall}
  {db : Database (Str → Option ℕ)} {result : Option ProtoReply}

theorem values_logged {records : List LogRecord} {r : LogRecord}
    (hvalues : ∀ key, (lastRecord LogRecord.key records key).bind effect = (d key).map Str.bytes)
    (hoperation : r.operation = Command.insert.code ∨ r.operation = Command.delete.code)
    (key : Str) : (lastRecord LogRecord.key (records ++ [r]) key).bind effect =
      (applyRecord d r key).map Str.bytes := by
  have hdelete : ¬ Command.delete.code = Command.insert.code := by decide
  rw [lastRecord_concat]
  by_cases hkey : r.key = key
  · rw [if_pos hkey, Option.bind_some, effect, applyRecord, ← hkey]
    rcases hoperation with hoperation | hoperation
    · rw [hoperation, if_pos rfl, if_pos rfl, Function.update_self, Option.map_some]
    · rw [hoperation, if_neg hdelete, if_neg hdelete, if_pos rfl, Function.update_self,
        Option.map_none]
  · rw [if_neg hkey, hvalues, applyRecord]
    rcases hoperation with hoperation | hoperation
    · rw [hoperation, if_pos rfl, Function.update_of_ne (Ne.symm hkey)]
    · rw [hoperation, if_neg hdelete, if_pos rfl, Function.update_of_ne (Ne.symm hkey)]

/-- A modification is logged above the mark. -/
theorem Watched.operation (h : Watched sys d) (horderly : Orderly sys (.operation call))
    (hstep : storeStep sys.db call = .ok (db, result)) : ∃ d', Watched ⟨db, sys.before⟩ d' := by
  cases storeStep_ends h.store hstep with
  | keeps hnot hsame =>
    rw [hsame]
    exact ⟨d, h⟩
  | logs hmodifies hstore hrecords hlsn hkeys hdisk hstamped =>
    obtain ⟨r, hr⟩ : ∃ r, Wal.recordOf sys.db.walLogger.lsn call.trans = r := ⟨_, rfl⟩
    have hchanges : Changes sys.db call := by
      refine changes_of_records hstep fun hsame ↦ ?_
      rw [hrecords, List.append_right_eq_self] at hsame
      exact List.cons_ne_nil _ _ hsame
    have hroom := (horderly hchanges).2
    rw [h.log] at hroom
    have hnext : wrap64 (sys.db.walLogger.lsn + 1) = sys.db.records.length + 1 := by
      rw [h.counter]
      exact Nat.mod_eq_of_lt hroom
    have hrlsn : r.lsn = sys.db.records.length + 1 := by
      rw [← hr, ← hnext]
      rfl
    have hlength : db.records.length = sys.db.records.length + 1 := by
      rw [hrecords, List.length_append, List.length_singleton]
    have hoperation : r.operation = Command.insert.code ∨ r.operation = Command.delete.code := by
      rw [← hr]
      exact hmodifies.1
    have hrkey : r.key = call.trans.msg.key := by
      rw [← hr]
      rfl
    rw [hr] at hstore hrecords hkeys
    rw [hnext] at hlsn hstamped
    have habove {key : Str} {r' : LogRecord}
        (hlast : lastRecord LogRecord.key db.records key = some r')
        (hle : r'.lsn ≤ db.storage.disk.lsn) : r.key ≠ key ∧
          lastRecord LogRecord.key sys.db.records key = some r' := by
      rw [hrecords, lastRecord_concat] at hlast
      have hmark := h.mark
      rw [hdisk] at hle
      by_cases hkey : r.key = key
      · rw [if_pos hkey, Option.some.injEq] at hlast
        rw [← hlast] at hle
        omega
      · rw [if_neg hkey] at hlast
        exact ⟨hkey, hlast⟩
    refine ⟨applyRecord d r, hstore, h.before, hlsn.trans hlength.symm, hlength ▸ hroom, ?_, ?_, ?_,
      ?_, ?_, .inr ?_⟩
    · rw [hlength, hrecords]
      intro r' hr'
      rcases List.mem_append.mp hr' with hold | hnew
      · exact (h.bounded r' hold).trans (Nat.le_succ _)
      · rw [List.mem_singleton.mp hnew, hrlsn]
    · rw [hrecords, List.pairwise_append]
      refine ⟨h.increasing, List.pairwise_singleton _ _, fun r' hold last hnew ↦ ?_⟩
      rw [List.mem_singleton.mp hnew, hrlsn]
      exact Nat.lt_succ_of_le (h.bounded r' hold)
    · rw [hrecords]
      exact values_logged h.values hoperation
    · rw [hdisk, hlength]
      exact h.mark.trans (Nat.le_succ _)
    · intro key r' hlast hle
      rw [hdisk] at hle ⊢
      exact h.saved key r' (habove hlast (hdisk ▸ hle)).2 hle
    · obtain ⟨state, ⟨header, hheaders, hpLSN, hstate⟩, hfrom⟩ := hstamped
      refine ⟨header, ?_, hheaders, hpLSN.trans hlength.symm, ?_, ?_⟩
      · rw [hrecords]
        exact List.append_ne_nil_of_right_ne_nil _ (List.cons_ne_nil _ _)
      · rw [hdisk, hstate]
        rcases h.page with ⟨-, hempty, hfile⟩ | ⟨old, hold⟩
        · rw [hempty] at hfrom
          have hdirty := hfrom.resolve_right fun ⟨_, hmem, _⟩ ↦ List.not_mem_nil hmem
          exact .inl ⟨hfile, hdirty⟩
        · rw [hold.headers] at hfrom
          refine hold.file.imp_left fun ⟨hfile, holdDirty⟩ ↦ ⟨hfile, ?_⟩
          rcases hfrom with hdirty | ⟨x, hmem, hsame⟩
          · exact hdirty
          · rw [hsame, List.mem_singleton.mp hmem, holdDirty]
      · intro _ key value r' hkey hlast hle
        have hother := (habove hlast hle).1
        rw [hkeys key (hrkey ▸ Ne.symm hother)] at hkey
        cases hkey

end Logged

section Snapshot

variable {sys : System} {d : Str → Option Str} {s : Storage} {memory : Memory}

theorem diskDumpKeys_frame {s' : Storage}
    (h : diskDumpKeys s = .ok s') : s'.arena = s.arena ∧ s'.metas = s.metas ∧
      s'.disk.vfd = s.disk.vfd ∧ s'.disk.lsn = s.disk.lsn := by
  obtain ⟨dump, -, h⟩ := bind_eq_ok.mp h
  rw [← Except.ok.inj h]
  exact ⟨rfl, rfl, rfl, rfl⟩

/-- A snapshot writes what the store has, or leaves what was saved. -/
theorem Watched.snapshot (h : Watched sys d) (hdumpable : Dumpable sys.db.storage)
    (hsnapshot : snapshot sys.db.storage = .ok s) :
    Watched ⟨{ sys.db with storage := s }, sys.before⟩ d ∧
      (sys.db.records = [] ∨ ∃ header listing, Filed s header listing ∧ header.state ≠ .dirty) := by
  rcases h.page with ⟨hnone, hempty, hfile⟩ | ⟨header, hpage⟩
  · rw [snapshot_no_page hempty] at hsnapshot
    obtain ⟨harena, hmetas, hvfd, hlsn⟩ := diskDumpKeys_frame hsnapshot
    refine ⟨⟨StoreIs.of_arena h.store harena hmetas, h.before, h.counter, h.small, h.bounded,
      h.increasing, h.values, ?_, fun key r hlast ↦ ?_, .inl ⟨hnone, ?_, ?_⟩⟩, .inl hnone⟩
    · rw [hlsn]
      exact h.mark
    · rw [hnone] at hlast
      cases hlast
    · change s.headers = []
      rw [Storage.headers, harena]
      exact hempty
    · change s.disk.vfd.content.length ≤ arenaStart
      rw [hvfd]
      exact hfile
  · by_cases hdirty : header.state = .dirty
    · have hlength : sys.db.storage.disk.vfd.content.length ≤ pagePos 1 := by
        rcases hpage.file with ⟨hfile, -⟩ | hfile
        · exact hfile.trans (Nat.le_add_right _ _)
        · exact hfile.le
      obtain ⟨hstore, header', hsaved⟩ :=
        snapshot_dirty_store h.store hpage.headers hdirty hdumpable hlength hsnapshot
      obtain ⟨listing, hfiled⟩ := hsaved.filed
      have hclean : header'.state ≠ .dirty := by
        rw [hsaved.state]
        decide
      refine ⟨⟨hstore, h.before, h.counter, h.small, h.bounded, h.increasing, h.values, ?_,
        fun key r hlast _ ↦ ?_, .inr ⟨header', hpage.logged, hfiled.headers, ?_, .inr hfiled.length,
          fun _ key value r hkey _ _ ↦ hsaved.payload key value hkey⟩⟩,
        .inr ⟨header', listing, hfiled, hclean⟩⟩
      · change s.disk.lsn ≤ _
        rw [hsaved.lsn, hpage.stamped]
        exact max_le h.mark le_rfl
      · rw [h.effect_eq hlast]
        exact hsaved.files key
      · exact hsaved.pLSN.trans hpage.stamped
    · have hlength := hpage.file.resolve_left fun hfile ↦ hdirty hfile.2
      rw [snapshot_one_page hpage.headers, snapshotHeader_clean hpage.headers hdirty,
        ok_bind] at hsnapshot
      obtain ⟨hstore, hlisted⟩ := diskDumpKeys_store h.store hpage.headers hlength hsnapshot
      obtain ⟨listing, hfiled⟩ := hlisted.filed
      have himage : s.snapImage 0 = sys.db.storage.snapImage 0 := by
        rw [Storage.snapImage, Storage.snapImage, hlisted.vfd]
      refine ⟨⟨hstore, h.before, h.counter, h.small, h.bounded, h.increasing, h.values, ?_,
        fun key r hlast hle ↦ ?_, .inr ⟨header, hpage.logged, hfiled.headers, hpage.stamped,
          .inr hfiled.length, fun _ key value r hkey hlast hle ↦ ?_⟩⟩,
        .inr ⟨header, listing, hfiled, hdirty⟩⟩
      · change s.disk.lsn ≤ _
        rw [hlisted.lsn]
        exact h.mark
      · change r.lsn ≤ s.disk.lsn at hle
        rw [hlisted.lsn] at hle
        change fileValue s.disk key = effect r
        rw [h.effect_eq hlast]
        cases hkey : d key with
        | none => exact hlisted.absent key hkey
        | some value =>
          obtain ⟨entry, hentry, hvalue⟩ := hlisted.present key value hkey
          rw [hvalue, hpage.clean hdirty key value r hkey hlast hle entry hentry, Option.map_some]
      · change r.lsn ≤ s.disk.lsn at hle
        change ∀ entry ∈ header.keys.contents, payloadAt (s.snapImage 0) entry.offset = value.bytes
        rw [hlisted.lsn] at hle
        rw [himage]
        exact hpage.clean hdirty key value r hkey hlast hle

theorem Watched.restart {db : Database (Str → Option ℕ)} (h : Watched sys d)
    (hdumpable : Dumpable sys.db.storage) (hreopen : reopen memory sys.db = .ok db) :
    (∃ d', Watched ⟨db, sys.log⟩ d') ∨ Quiet ⟨db, sys.log⟩ := by
  rcases h.page with ⟨hnone, hempty, hfile⟩ | ⟨header, hpage⟩
  · obtain ⟨s, hdestroy, hstart⟩ := bind_eq_ok.mp hreopen
    have hlast := destroyHeaders_no_page hdestroy fun s hs ↦ by
      rw [snapshot_no_page hempty] at hs
      rw [Storage.headers, (diskDumpKeys_frame hs).1]
      exact hempty
    rw [snapshot_no_page hempty] at hlast
    obtain ⟨-, -, hvfd, hlsn⟩ := diskDumpKeys_frame hlast
    have hzero : s.disk.lsn = 0 := by
      rw [hlsn, ← Nat.le_zero]
      exact h.mark.trans_eq (by rw [hnone, List.length_nil])
    have hdrop : sys.db.storage.disk.vfd.content.drop 8 = [] := List.drop_eq_nil_of_le hfile
    have hhead : (destroyDisk s.disk).1 = leBytes 8 0 ++ [] := by
      rw [destroyDisk_eq, hzero, hvfd, hdrop]
    obtain ⟨vfd, kfd, hfiles⟩ : ∃ vfd kfd, destroyDisk s.disk = (vfd, kfd) := ⟨_, _, rfl⟩
    have hvfd' : vfd = leBytes 8 0 ++ [] := by
      rw [← hhead, hfiles]
    rw [hfiles] at hstart
    have hshort : vfd.length ≤ arenaStart := by
      rw [hvfd', List.append_nil, length_leBytes, arenaStart]
    have hlsn' : (initDisk vfd kfd).lsn = 0 := by
      rw [hvfd']
      exact initDisk_lsn (Nat.two_pow_pos 64) _ _
    rw [dbStart_no_page hshort hstart, h.log, hnone]
    exact .inl ⟨_, watched_emptyStore memory vfd kfd _ hshort hlsn'⟩
  · have hall (s : Storage) (hs : Pages.snapshot sys.db.storage = .ok s) :
        Watched ⟨{ sys.db with storage := s }, sys.before⟩ d ∧
          ∃ header listing, Filed s header listing ∧ header.state ≠ .dirty := by
      obtain ⟨hwatched, hfiled⟩ := h.snapshot hdumpable hs
      exact ⟨hwatched, hfiled.resolve_left hpage.logged⟩
    obtain ⟨s, hsnapshot, hfiles⟩ := reopen_filed (fun s hs ↦ by
      obtain ⟨hwatched, header, listing, hfiled, hclean⟩ := hall s hs
      exact ⟨hwatched.mark.trans_lt hwatched.small, header, hfiled.headers, hclean⟩) hreopen
    obtain ⟨hwatched, header, listing, hfiled, -⟩ := hall s hsnapshot
    have hreopened := hfiles header listing hfiled
    obtain ⟨header', hsettled⟩ := hreopened.settled
    have hlog : System.log ⟨db, sys.log⟩ = sys.log := by
      rw [System.log, hreopened.records, List.append_nil]
    refine .inr ⟨hwatched.holds.congr hlog (fun key ↦ ?_) hreopened.lsn, ?_, ?_,
      ⟨header', listing, hsettled⟩⟩
    · rw [hsettled.filed.value, hreopened.image]
      exact (hfiled.value key).symm
    · rw [hlog, hreopened.walLogger, h.log]
      exact List.length_pos_of_ne_nil hpage.logged
    · rw [hreopened.lsn]
      exact hwatched.mark.trans_lt hwatched.small

theorem Quiet.restart {db : Database (Str → Option ℕ)} (h : Quiet sys)
    (hreopen : reopen memory sys.db = .ok db) : Quiet ⟨db, sys.log⟩ := by
  obtain ⟨header, listing, hold⟩ := h.settled
  obtain ⟨s, hsnapshot, hfiles⟩ := reopen_filed (fun s hs ↦ by
    obtain ⟨⟨header', hsettled⟩, -, hlsn⟩ := hold.snapshot hs
    exact ⟨hlsn.trans_lt h.lsn_lt, header', hsettled.filed.headers, hsettled.clean⟩) hreopen
  have hreopened (header : PageHeader) (listing : PageListing)
      (hsettled : Settled sys.db.storage header listing) : Reopened s db listing := by
    obtain ⟨⟨header', hsettled'⟩, -, -⟩ := hsettled.snapshot hsnapshot
    exact hfiles header' listing hsettled'.filed
  have hlast := hreopened header listing hold
  refine h.next (fun header listing hsettled ↦ ?_) ?_ ?_
  · have hsame := hsettled.snapshot hsnapshot
    have hnew := hreopened header listing hsettled
    exact ⟨hnew.settled, hnew.image.trans hsame.image, hnew.lsn.trans hsame.lsn⟩
  · rw [System.log, hlast.records, List.append_nil]
  · rw [hlast.walLogger]
    exact (Nat.zero_le _).trans_lt h.behind

end Snapshot

/-- Every orderly step keeps what holds before or after such a start. -/
theorem systemStep_holds {sys sys' : System} {event : Event} {output : Unit}
    (h : (∃ d, Watched sys d) ∨ Quiet sys) (horderly : Orderly sys event)
    (hstep : systemStep sys event = .ok (sys', output)) :
    (∃ d, Watched sys' d) ∨ Quiet sys' := by
  cases event with
  | operation call =>
    obtain ⟨⟨db, result⟩, hoperation, hstep⟩ := bind_eq_ok.mp hstep
    rw [← (Prod.mk.inj (Except.ok.inj hstep)).1]
    rcases h with ⟨d, h⟩ | h
    · exact .inl (h.operation horderly hoperation)
    · refine .inr ?_
      cases storeStep_kind hoperation with
      | same hsame =>
        rw [hsame]
        exact h
      | reads pointer keyMeta storage value hget hdb =>
        rw [hdb]
        exact h.next (fun _ _ hsettled ↦ pageValueGet_settled hsettled hget) rfl h.behind
      | changes hchanges =>
        exact absurd (horderly hchanges).1 h.behind.ne
  | snapshot =>
    obtain ⟨s, hsnapshot, hstep⟩ := bind_eq_ok.mp hstep
    rw [← (Prod.mk.inj (Except.ok.inj hstep)).1]
    rcases h with ⟨d, h⟩ | h
    · exact .inl ⟨d, (h.snapshot horderly hsnapshot).1⟩
    · exact .inr (h.next (fun _ _ hsettled ↦ hsettled.snapshot hsnapshot) rfl h.behind)
  | restart memory =>
    obtain ⟨db, hreopen, hstep⟩ := bind_eq_ok.mp hstep
    rw [← (Prod.mk.inj (Except.ok.inj hstep)).1]
    rcases h with ⟨d, h⟩ | h
    · exact h.restart horderly hreopen
    · exact .inr (h.restart hreopen)

/-- The deletion of the key of `oneInsert`. -/
def oneDelete : OperationCall :=
  ⟨⟨some 0, ⟨Command.delete.code, .ofByte 107, Str.empty⟩⟩, ⟨.error, 0, Str.empty⟩⟩

end FGDB.Restart
