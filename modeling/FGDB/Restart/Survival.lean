import FGDB.Operations.Answers
import FGDB.Operations.Replay
import FGDB.Restart.Start

/-!
# The snapshot after a start

A start on a sound snapshot makes a store whose pages are all on disk and that serves the
values of the snapshot. The operations keep serving them as long as no value is put into
a page that has not been heated.
-/

namespace FGDB.Restart

open Foundation Memory Records HashMap Pages Server Wal Operations
open FGDB.Vector (BoundedList Growth)

/-- The pages of the snapshot file hold packed records where the key file says. -/
def SnapshotSound (s : Storage) : Prop :=
  ∀ header ∈ s.headers, PageHolds (s.snapImage header.pageId) header.keys.contents
    header.offsetBytes 0

/-- The value with its size at a place. -/
def valueAt (image : Memory) (place : ℕ) : Str where
  bytes := payloadAt image place
  size_lt := by
    rw [payloadAt, length_load]
    exact sizeAt_lt image place

/-- The value of a key in the snapshot file. -/
def snapshotValue (db : Database (Str → Option ℕ)) (key : Str) : Option Str := do
  let pointer ← db.hashmap key
  let keyMeta ← db.storage.metas[pointer]?
  let header ← db.storage.headers[keyMeta.page]?
  let place ← header.keys.contents[keyMeta.headerKeyId]?
  some (valueAt (db.storage.snapImage header.pageId) place.offset)

section Start

variable {H : Type} {calls : HashmapCalls H} {growth : Growth} {disk : Disk}
  {st st' : Startup H}

structure ColdHeader (header : PageHeader) : Prop where
  location : header.location = .inDisk
  state : header.state = .clean
  whole : header.fragmentatedBytes = 0

/-- The pages so far are clean and on disk, and the arena is not used. -/
structure Cold (disk : Disk) (s : Storage) : Prop where
  headers : ∀ header ∈ s.headers, ColdHeader header
  disk : s.disk = disk
  uploaded : s.arena.uploadedPages = 0
  allocated : s.arena.allocatedPages = arenaPages

theorem openPage_cold {pageId offsetBytes keysCount : ℕ} (h : Cold disk st.storage)
    (hopen : openPage growth pageId st offsetBytes keysCount = .ok st') :
    Cold disk st'.storage ∧ st'.storage.headers.length = st.storage.headers.length + 1 := by
  obtain ⟨headers, hadd, hresult⟩ := bind_eq_ok.mp hopen
  have hcontents := (BoundedList.add_eq_ok.mp hadd).2.1
  obtain ⟨header, hheader⟩ : ∃ header,
    reloadedHeader growth st.storage pageId offsetBytes keysCount = header := ⟨_, rfl⟩
  have hheaders : st'.storage.headers = st.storage.headers ++ [header] := by
    rw [← Except.ok.inj hresult, ← hheader]
    exact hcontents
  refine ⟨⟨fun x hx ↦ ?_, ?_, ?_, ?_⟩, ?_⟩
  · rw [hheaders, List.mem_append, List.mem_singleton] at hx
    rcases hx with hold | hnew
    · exact h.headers x hold
    · rw [hnew, ← hheader]
      exact ⟨rfl, rfl, rfl⟩
  · rw [← Except.ok.inj hresult]
    exact h.disk
  · rw [← Except.ok.inj hresult]
    exact h.uploaded
  · rw [← Except.ok.inj hresult]
    exact h.allocated
  · rw [hheaders, List.length_append, List.length_singleton]

theorem uploadKey_cold {pageId : ℕ} {key : HashmapKey} (h : Cold disk st.storage)
    (hupload : uploadKey calls growth pageId st key = .ok st') :
    Cold disk st'.storage ∧ st'.storage.headers.length = st.storage.headers.length := by
  obtain ⟨header, keys, hhere, -, hstorage, -⟩ := uploadKey_shape hupload
  have hmember := List.mem_of_getElem? hhere
  obtain ⟨header', hheader'⟩ : ∃ header' : PageHeader, { header with keys := keys } = header' :=
    ⟨_, rfl⟩
  have hheaders : st'.storage.headers = st.storage.headers.set pageId header' := by
    rw [hstorage, hheader']
    rfl
  have hcold := h.headers header hmember
  refine ⟨⟨fun x hx ↦ ?_, ?_, ?_, ?_⟩, ?_⟩
  · rw [hheaders] at hx
    rcases List.mem_or_eq_of_mem_set hx with hold | hnew
    · exact h.headers x hold
    · rw [hnew, ← hheader']
      exact ⟨hcold.location, hcold.state, hcold.whole⟩
  · rw [hstorage]
    exact h.disk
  · rw [hstorage]
    exact h.uploaded
  · rw [hstorage]
    exact h.allocated
  · rw [hheaders, List.length_set]

/-- A start that succeeds leaves the pages of the snapshot on disk. -/
theorem dbStart_cold {memory : Memory} {hashmap : H} {vfd kfd log : List UInt8} {db : Database H}
    (h : dbStart calls growth memory hashmap vfd kfd log = .ok db) :
    Cold db.storage.disk db.storage ∧ db.storage.disk.vfd.content = vfd ∧
      db.storage.headers.length ≤ (initDisk vfd kfd).pages := by
  obtain ⟨kfd', st, hreload, -, hstorage, -⟩ := dbStart_reloads h
  obtain ⟨disk, hdisk⟩ : ∃ disk, initDisk vfd kfd = disk := ⟨_, rfl⟩
  rw [hdisk] at hreload ⊢
  obtain ⟨start, hstart⟩ : ∃ start : Storage,
    ⟨newArena growth arenaPages memory disk.pages, newLruQueue, disk, []⟩ = start := ⟨_, rfl⟩
  have hcold : Cold disk start := by
    rw [← hstart]
    exact ⟨nofun, rfl, rfl, rfl⟩
  have hempty : start.headers.length = 0 := by
    rw [← hstart]
    rfl
  rw [hstart] at hreload
  obtain ⟨last, hlast, hreloaded, hlength⟩ :=
    @reloadPages_invariant _ (openPage growth) (uploadKey calls growth)
      (fun pageId st ↦ Cold disk st.storage ∧ st.storage.headers.length = pageId)
      (fun pageId _ st ↦ Cold disk st.storage ∧ st.storage.headers.length = pageId + 1)
      (fun pageId st offsetBytes keysCount st' hinv hopen ↦ by
        obtain ⟨hcold, hlength⟩ := openPage_cold hinv.1 hopen
        exact ⟨hcold, by rw [hlength, hinv.2]⟩)
      (fun pageId visited st key st' _ hpart hupload ↦ by
        obtain ⟨hcold, hlength⟩ := uploadKey_cold hpart.1 hupload
        exact ⟨hcold, by rw [hlength, hpart.2]⟩)
      (fun _ _ _ hpart ↦ hpart) disk.pages 0 disk.kfd kfd' ⟨start, hashmap, 0⟩ st ⟨hcold, hempty⟩
      hreload
  have hvfd : disk.vfd.content = vfd := by
    rw [← hdisk]
    rfl
  rw [hstorage]
  refine ⟨⟨hreloaded.headers, rfl, hreloaded.uploaded, hreloaded.allocated⟩, ?_, ?_⟩
  · change st.storage.disk.vfd.content = vfd
    rw [hreloaded.disk, hvfd]
  · change st.storage.headers.length ≤ disk.pages
    rw [hlength]
    omega

/-- The snapshot file has the pages that it is counted to have. -/
theorem pagePos_le_of_lt {vfd kfd : List UInt8} {page : ℕ} (h : page < (initDisk vfd kfd).pages) :
    pagePos (page + 1) ≤ vfd.length := by
  have hpages : page < (vfd.length - arenaStart) / pageSize := by
    unfold initDisk at h
    simp only [] at h
    split at h
    · exact absurd h (Nat.not_lt_zero _)
    · exact h
  have hle : (page + 1) * pageSize ≤ vfd.length - arenaStart :=
    (Nat.mul_le_mul_right pageSize hpages).trans (Nat.div_mul_le_self _ _)
  have hpos : 0 < (page + 1) * pageSize := Nat.mul_pos (Nat.succ_pos _) (by decide)
  rw [pagePos]
  omega

/-- A file that reaches behind the last of some pages has as many. -/
theorem le_initDisk_pages {vfd : List UInt8} {count : ℕ} (h : pagePos count ≤ vfd.length)
    (kfd : List UInt8) : count ≤ (initDisk vfd kfd).pages := by
  unfold pagePos arenaStart at h
  have hne : vfd ≠ [] := List.ne_nil_of_length_pos (by omega)
  rw [initDisk]
  simp only [if_neg hne]
  rw [Nat.le_div_iff_mul_le (by decide), arenaStart]
  omega

end Start

section Survive

variable {growth : Growth} {start db : Database (Str → Option ℕ)} {memory : Memory}
  {vfd kfd log : List UInt8}

/-- A dictionary stands for itself, and its calls are always safe. -/
theorem correctCalls_lawful : LawfulCalls correctCalls (fun d hashmap ↦ hashmap = d)
    (fun _ _ ↦ True) fun _ _ ↦ True where
  lookup := by
    rintro d _ rfl key
    rfl
  insert := by
    rintro d _ key rfl habsent - pointer
    refine ⟨_, ?_, rfl⟩
    simp [dictionaryCalls, habsent]
  deleteAbsent := by
    rintro d _ key rfl habsent metas
    simp [dictionaryCalls, habsent]
  deletePresent := by
    rintro d _ key pointer rfl hpresent - metas keyMeta hmeta
    refine ⟨_, ?_, rfl⟩
    simp [dictionaryCalls, hpresent, hmeta]

theorem dbStart_valid (h : dbStart correctCalls growth memory (fun _ ↦ none) vfd kfd log = .ok db)
    (hfitting : db.storage.headers.length ≤ arenaPages) (hsound : SnapshotSound db.storage) :
    db.storage.Valid := by
  have hindexes := dbStart_indexes h
  obtain ⟨hcold, hvfd, hlength⟩ := dbStart_cold h
  refine ⟨?_, ?_, fun index header hheader ↦ ?_, fun index other header header' hheader _ _ hmemory ↦ ?_⟩
  · rw [hcold.allocated]
    exact hfitting
  · rw [hcold.uploaded, List.countP_eq_zero]
    intro header hheader hmemory
    rw [PageHeader.isInMemory, (hcold.headers header hheader).location] at hmemory
    cases hmemory
  · have hmember := List.mem_of_getElem? hheader
    have hheaderCold := hcold.headers header hmember
    have hlt : index < (initDisk vfd kfd).pages :=
      (List.getElem?_eq_some_iff.mp hheader).1.trans_le hlength
    have hpageId := (hindexes.numbered index header hheader).1
    refine ⟨hpageId, .inr ⟨hheaderCold.location, ?_⟩, fun hdirty ↦ ?_, ?_, ?_, ?_⟩
    · rw [hvfd, hpageId]
      exact pagePos_le_of_lt hlt
    · rw [hheaderCold.state] at hdirty
      cases hdirty
    · rw [hheaderCold.state]
      decide
    · rw [image_of_inDisk _ hheaderCold.location, hheaderCold.whole]
      exact hsound header hmember
    · have hlinked := hindexes.linked index
      rw [pointersOf_eq hheader] at hlinked
      exact linkedAt_iff.mp hlinked
  · rw [(hcold.headers header (List.mem_of_getElem? hheader)).location] at hmemory
    cases hmemory

/-- The store of a start serves the values of the snapshot. -/
theorem dbStart_serves (h : dbStart correctCalls growth memory (fun _ ↦ none) vfd kfd log = .ok db)
    (hfitting : db.storage.headers.length ≤ arenaPages) (hsound : SnapshotSound db.storage) :
    Serves (fun d hashmap ↦ hashmap = d) db (snapshotValue db) := by
  have hindexes := dbStart_indexes h
  obtain ⟨hcold, -, -⟩ := dbStart_cold h
  refine ⟨dbStart_valid h hfitting hsound, db.hashmap, rfl, fun key hkey ↦ ?_,
    fun key pointer hkey ↦ ?_, fun key key' pointer hkey hkey' ↦ ?_⟩
  · rw [snapshotValue, hkey, Option.bind_eq_bind, Option.bind_none]
  · obtain ⟨keyMeta, hmeta, -, hplace⟩ := hindexes.place hkey
    obtain ⟨header, place, hheader, hkeyAt, hpointer⟩ := getElem?_pointersOf.mp hplace
    have hlocation := (hcold.headers header (List.mem_of_getElem? hheader)).location
    refine ⟨valueAt (db.storage.snapImage header.pageId) place.offset, ?_, keyMeta.page, header,
      hheader, ?_⟩
    · simp only [snapshotValue, hkey, Option.bind_eq_bind, Option.bind_some, hmeta, hheader, hkeyAt]
    · rw [image_of_inDisk _ hlocation, ← hpointer]
      exact List.mem_map_of_mem (List.mem_of_getElem? hkeyAt)
  · have hweak := ((hindexes.bound key pointer).mp hkey).2
    have hweak' := ((hindexes.bound key' pointer).mp hkey').2
    exact Option.some.inj (hweak.symm.trans hweak')

/-- A store returns the values of the map that it serves. -/
theorem serves_value {d : Str → Option Str} (h : Serves (fun d hashmap ↦ hashmap = d) db d)
    {key value : Str} (hvalue : d key = some value) : db.value key = some value := by
  obtain ⟨pointers, hhashmap, hbound⟩ := h.index
  cases hkey : pointers key with
  | none =>
    rw [hbound.absent key hkey] at hvalue
    cases hvalue
  | some pointer =>
    obtain ⟨found, hfound, hstored⟩ := hbound.stored key pointer hkey
    obtain ⟨keyMeta, -, -, hmeta, -⟩ := h.valid.find hstored
    obtain ⟨s, read, header, header', hget, hbytes, -⟩ := pageValueGet_effect h.valid hstored hmeta
    have hread : read = value := by
      rw [hvalue, Option.some.injEq] at hfound
      rw [hfound]
      exact Str.ext hbytes
    rw [Database.value, hhashmap, hkey]
    simp only [Option.bind_eq_bind, Option.bind_some, hmeta, hget, hread]
    rfl

def Deletes (call : OperationCall) (key : Str) : Prop :=
  call.trans.msg.cmd = Command.delete.code ∧ call.trans.msg.key = key

/-- A map keeps the value of a key until it is deleted. -/
theorem mapStep_keeps {d : Str → Option Str} {call : OperationCall} {key value : Str}
    (hvalue : d key = some value) (hnot : ¬ Deletes call key) :
    (mapStep d call).1 key = some value := by
  unfold mapStep
  split
  · split
    · exact hvalue
    · split
      · exact hvalue
      · rename_i habsent
        have hother : key ≠ call.trans.msg.key := by
          rintro rfl
          exact nomatch habsent.symm.trans hvalue
        exact (Function.update_of_ne hother _ _).trans hvalue
  · split
    · exact hvalue
    · split
      · rename_i hdelete
        have hother : key ≠ call.trans.msg.key := fun hsame ↦ hnot ⟨hdelete, hsame.symm⟩
        exact (Function.update_of_ne hother _ _).trans hvalue
      · split
        · exact hvalue
        · exact hvalue

theorem runSpec_keeps {d : Str → Option Str} {calls : List OperationCall} {key value : Str}
    (hvalue : d key = some value) (hnot : ∀ call ∈ calls, ¬ Deletes call key) :
    (runSpec mapStep d calls).1 key = some value := by
  induction calls generalizing d with
  | nil => exact hvalue
  | cons call rest ih =>
    rw [List.forall_mem_cons] at hnot
    exact ih (mapStep_keeps hvalue hnot.1) hnot.2

/-- No operation faults, and the values of the snapshot that are not deleted are returned. -/
def SnapshotSurvives (growth : Growth) (start : Database (Str → Option ℕ))
    (calls : List OperationCall) : Prop :=
  ∃ db results, run (operationStep correctCalls growth) start calls = .ok (db, results) ∧
    ∀ key value, snapshotValue start key = some value → (∀ call ∈ calls, ¬ Deletes call key) →
      db.value key = some value

/-- A new value is put only where there is room for it, and not into a page that is not in memory. -/
def PutsWarm (growth : Growth) (db : Database (Str → Option ℕ)) (call : OperationCall) : Prop :=
  call.trans.msg.cmd = Command.insert.code → call.trans.msg.val.size ≠ 0 →
    db.hashmap call.trans.msg.key = none → Placeable growth db.storage call.trans.msg.val

/-- From a start on a sound snapshot every run of the operations returns the values of the
snapshot, as long as no value is put into a page that has not been heated. -/
theorem snapshotSurvives_of_putsWarm
    (hstart : dbStart correctCalls growth memory (fun _ ↦ none) vfd kfd log = .ok start)
    (hfitting : start.storage.headers.length ≤ arenaPages) (hsound : SnapshotSound start.storage)
    {calls : List OperationCall} (hrequests : ∀ call ∈ calls, IsRequest call)
    (hwarm : EachStep (operationStep correctCalls growth) (PutsWarm growth) start calls) :
    SnapshotSurvives growth start calls := by
  have hstep (db : Database (Str → Option ℕ)) (d : Str → Option Str) (call : OperationCall)
      (h : Serves (fun d hashmap ↦ hashmap = d) db d)
      (hcall : IsRequest call ∧ PutsWarm growth db call) :
      ∃ db' result, operationStep correctCalls growth db call = .ok (db', result) ∧
        True ∧ Serves (fun d hashmap ↦ hashmap = d) db' (mapStep d call).1 := by
    have hregular : Regular correctCalls growth (fun _ _ ↦ True) (fun _ _ ↦ True) db call := by
      refine ⟨fun hcmd hvalue hnot ↦ ⟨hcall.2 hcmd hvalue ?_, trivial⟩, fun _ _ ↦ trivial⟩
      rw [present_iff correctCalls_lawful rfl, not_exists] at hnot
      exact Option.eq_none_iff_forall_ne_some.mpr hnot
    obtain ⟨db', result, hresult, hserves, -⟩ :=
      operationStep_ends correctCalls_lawful h hcall.1 hregular
    exact ⟨db', result, hresult, trivial, hserves⟩
  have hserves := dbStart_serves hstart hfitting hsound
  obtain ⟨db, results, hrun, -, hfinal⟩ : ∃ db results,
      run (operationStep correctCalls growth) start calls = .ok (db, results) ∧
        List.Forall₂ (fun _ _ ↦ True) results (runSpec mapStep (snapshotValue start) calls).2 ∧
          Serves (fun d hashmap ↦ hashmap = d) db (runSpec mapStep (snapshotValue start) calls).1 :=
    run_related hstep hserves ((eachStep_of_forall hrequests).and hwarm)
  exact ⟨db, results, hrun, fun key value hvalue hnot ↦
    serves_value hfinal (runSpec_keeps hvalue hnot)⟩

/-- A snapshot file with one page, and the key file for it. -/
def onePageFile : List UInt8 := leBytes 8 0 ++ (record [118] ++ List.replicate 4093 0)

def oneKeyFile : List UInt8 :=
  leBytes 8 1 ++ PageListing.encode ⟨3, [⟨.ofByte 107, 0, 0⟩]⟩

/-- The start on these files. -/
def oneKeyStart (growth : Growth) : Outcome (Database (Str → Option ℕ)) :=
  dbStart correctCalls growth (fun _ ↦ 0) (fun _ ↦ none) onePageFile oneKeyFile []

theorem snapshotSurvives_one_select : ∃ start, oneKeyStart .source = .ok start ∧
    SnapshotSurvives .source start [letterCall .peek, letterCall .select] := by
  have hheaders : (oneKeyStart .source).toOption.map (fun start ↦ start.storage.headers.map
      fun header ↦ (header.pageId, header.offsetBytes, header.places,
        sizeAt (start.storage.snapImage header.pageId) 0)) = some [(0, 3, [0], 1)] := by
    decide +kernel
  obtain ⟨start, hstart, hseen⟩ := exists_ok_of_map hheaders
  obtain ⟨header, rest, hlist, hheader, hrest⟩ := List.map_eq_cons_iff.mp hseen
  rw [List.map_eq_nil_iff.mp hrest] at hlist
  obtain ⟨-, hfields⟩ := Prod.mk.inj hheader
  obtain ⟨hoffset, hfields⟩ := Prod.mk.inj hfields
  obtain ⟨hplaces, hsize⟩ := Prod.mk.inj hfields
  have hplaces' : header.keys.contents.map PageHeaderKey.offset = [0] := hplaces
  refine ⟨start, hstart, snapshotSurvives_of_putsWarm hstart ?_ ?_ ?_ ?_⟩
  · rw [hlist, List.length_singleton]
    decide
  · intro x hx
    rw [hlist, List.mem_singleton] at hx
    rw [hx, hoffset]
    refine ⟨?_, by decide, ?_, by decide⟩
    · rw [hplaces', packed_cons]
      refine ⟨?_, ?_, packed_nil _ _⟩
      · rw [endAt, hsize]
      · rintro position hposition
        cases hposition
    · rw [hplaces', used, List.map_singleton, List.sum_singleton, hsize]
  · rw [List.forall_mem_cons, List.forall_mem_singleton]
    exact ⟨⟨by decide, .inl rfl⟩, ⟨by decide, .inr (.inl rfl)⟩⟩
  · have hcodes : Command.peek.code ≠ Command.insert.code ∧
        Command.select.code ≠ Command.insert.code := by decide
    exact ⟨fun h ↦ absurd h hcodes.1, fun _ _ _ ↦ ⟨fun h ↦ absurd h hcodes.2,
      fun _ _ _ ↦ trivial⟩⟩

/-- An INSERT of another key. -/
def otherInsert : OperationCall :=
  ⟨⟨some 0, ⟨Command.insert.code, .ofByte 108, .ofByte 119⟩⟩, ⟨.error, 0, Str.empty⟩⟩

theorem not_snapshotSurvives {growth : Growth}
    (hvalue : (oneKeyStart growth).toOption.bind (fun start ↦ snapshotValue start ⟨[107], by decide⟩) =
      some ⟨[118], by decide⟩)
    (hlost : (oneKeyStart growth).toOption.bind (fun start ↦
      (run (operationStep correctCalls growth) start [otherInsert]).toOption.bind
        fun result ↦ result.1.value ⟨[107], by decide⟩) ≠ some ⟨[118], by decide⟩) :
    ∃ start, oneKeyStart growth = .ok start ∧ ¬ SnapshotSurvives growth start [otherInsert] := by
  cases hstart : oneKeyStart growth with
  | error fault =>
    rw [hstart] at hvalue
    cases hvalue
  | ok start =>
    rw [hstart] at hvalue hlost
    refine ⟨start, rfl, fun ⟨db, results, hrun, hsurvives⟩ ↦ hlost ?_⟩
    have hkept := hsurvives _ _ hvalue fun call hcall ↦ by
      rw [List.mem_singleton.mp hcall, Deletes]
      decide
    rw [Except.toOption, Option.bind_some, hrun]
    exact hkept

/-- The vector of the source has no room for the key of the other value. With one that has room,
the page of the snapshot is taken to be in memory afterwards, where its value is not. -/
theorem not_snapshotSurvives_cold_page :
    (∃ start, oneKeyStart .source = .ok start ∧ ¬ SnapshotSurvives .source start [otherInsert]) ∧
      ∃ start, oneKeyStart oneMore = .ok start ∧ ¬ SnapshotSurvives oneMore start [otherInsert] :=
  ⟨not_snapshotSurvives (by decide +kernel) (by decide +kernel),
    not_snapshotSurvives (by decide +kernel) (by decide +kernel)⟩

end Survive

end FGDB.Restart
