import FGDB.Operations.Index
import FGDB.Restart.KeyFile

/-!
# The start of the database

The reload makes a header for every page of the snapshot and a meta for every
key, and fills the hash map. Whatever the files hold, a start that succeeds
leaves the index of the keys in step, and so do the operations after it.
-/

namespace FGDB.Restart

open Foundation HashMap Pages Server Wal Operations
open FGDB.Vector (BoundedList Growth)

/-- What `db_start` has built so far, with its count of keys. -/
structure Startup (H : Type) where
  storage : Storage
  hashmap : H
  keys : ℕ

/-- The pages of the arena in the configuration. -/
def arenaPages : ℕ := 1024

section Start

variable {H : Type} (calls : HashmapCalls H) (growth : Growth)

/-- The header of a page in the snapshot file. -/
def reloadedHeader (s : Storage) (pageId offsetBytes keysCount : ℕ) : PageHeader where
  fragmentatedBytes := 0
  offsetBytes := offsetBytes
  keys := BoundedList.init growth keysCount
  pLSN := s.disk.lsn
  pageId := pageId
  arenaId := 0
  state := .clean
  location := .inDisk

def openPage (pageId : ℕ) (st : Startup H) (offsetBytes keysCount : ℕ) :
    Outcome (Startup H) := do
  let headers ← st.storage.arena.headers.add growth
    (reloadedHeader growth st.storage pageId offsetBytes keysCount)
  return { st with storage := { st.storage with
    arena := { st.storage.arena with headers := headers } } }

/-- A key that the hash map does not take ends the process. -/
def uploadKey (pageId : ℕ) (st : Startup H) (key : HashmapKey) : Outcome (Startup H) := do
  let (s, pointer) := st.storage.newMeta
  let s ← s.modifyMeta pointer fun keyMeta ↦ { keyMeta with page := pageId }
  let header ← s.header pageId
  let (header, metas) ← headersPushKey growth header s.metas pointer key.offset
  let s ← ({ s with metas := metas }.setHeader pageId header).modifyMeta pointer fun keyMeta ↦
    { keyMeta with weakKey := some key.key }
  let (hashmap, result, _) ← calls.insertKey st.hashmap pointer key.key
  if result = -1 then .error .exit
  else return { storage := s, hashmap := hashmap, keys := st.keys + 1 }

/-- `db_start` on the contents of the three files, with an empty hash map. -/
def dbStart (memory : Memory) (hashmap : H) (vfd kfd log : List UInt8) :
    Outcome (Database H) := do
  let disk := initDisk vfd kfd
  let arena := newArena growth arenaPages memory disk.pages
  let (kfd, st) ← reloadPages (openPage growth) (uploadKey calls growth) disk.pages 0 disk.kfd
    ⟨⟨arena, newLruQueue, disk, []⟩, hashmap, 0⟩
  if st.keys < disk.nkeys then .error .assertionFailed
  else return {
    storage := { st.storage with disk := { st.storage.disk with kfd := kfd } }
    hashmap := st.hashmap
    walLogger := newWalLogger log 0 0
    records := [] }

variable {calls growth}

/-- A start that succeeds has read as many keys as the key file counts. -/
theorem dbStart_reloads {memory : Memory} {hashmap : H} {vfd kfd log : List UInt8} {db : Database H}
    (h : dbStart calls growth memory hashmap vfd kfd log = .ok db) : ∃ (kfd' : File) (st : Startup H),
      reloadPages (openPage growth) (uploadKey calls growth) (initDisk vfd kfd).pages 0
        (initDisk vfd kfd).kfd ⟨⟨newArena growth arenaPages memory (initDisk vfd kfd).pages,
          newLruQueue, initDisk vfd kfd, []⟩, hashmap, 0⟩ = .ok (kfd', st) ∧
      (initDisk vfd kfd).nkeys ≤ st.keys ∧
      db.storage = { st.storage with disk := { st.storage.disk with kfd := kfd' } } ∧
      db.hashmap = st.hashmap := by
  obtain ⟨⟨kfd', st⟩, hreload, h⟩ := bind_eq_ok.mp h
  by_cases hshort : st.keys < (initDisk vfd kfd).nkeys
  · simp only [if_pos hshort] at h
    cases h
  · simp only [if_neg hshort] at h
    rw [← Except.ok.inj h]
    exact ⟨kfd', st, hreload, Nat.le_of_not_lt hshort, rfl, rfl⟩

end Start

section Index

variable {growth : Growth} {refuses : (Str → Option ℕ) → Str → Bool}
  {st st' : Startup (Str → Option ℕ)}

/-- The index is in step, and the pages in front of a page are reloaded. -/
def ReloadedPages (pageId : ℕ) (st : Startup (Str → Option ℕ)) : Prop :=
  Indexes st.hashmap st.storage ∧ st.storage.headers.length = pageId

/-- The index is in step within a page, some keys of which are reloaded. -/
def ReloadedKeys (pageId visited : ℕ) (st : Startup (Str → Option ℕ)) : Prop :=
  Indexes st.hashmap st.storage ∧ st.storage.headers.length = pageId + 1 ∧
    (pointersOf st.storage pageId).length = visited

theorem openPage_indexes (pageId : ℕ) (st : Startup (Str → Option ℕ)) (offsetBytes keysCount : ℕ)
    (st' : Startup (Str → Option ℕ)) (h : ReloadedPages pageId st)
    (hopen : openPage growth pageId st offsetBytes keysCount = .ok st') :
    ReloadedKeys pageId 0 st' := by
  obtain ⟨headers, hadd, hresult⟩ := bind_eq_ok.mp hopen
  obtain ⟨hindexes, hlength⟩ := h
  have hcontents := (BoundedList.add_eq_ok.mp hadd).2.1
  rw [pure_eq_ok, Except.ok.injEq] at hresult
  have hheaders : st'.storage.headers = st.storage.headers ++
      [reloadedHeader growth st.storage pageId offsetBytes keysCount] := by
    rw [← hresult]
    exact hcontents
  have hat (i : ℕ) : st'.storage.headers[i]? = if i = pageId then
      some (reloadedHeader growth st.storage pageId offsetBytes keysCount)
      else st.storage.headers[i]? := by
    rw [hheaders, getElem?_concat_ite, hlength]
  have hempty : pointersOf st'.storage pageId = [] := by
    rw [pointersOf, hat, if_pos rfl]
    rfl
  have hmetas : st'.storage.metas = st.storage.metas := by
    rw [← hresult]
  have hhashmap : st'.hashmap = st.hashmap := by
    rw [← hresult]
  refine ⟨?_, ?_, ?_⟩
  · rw [hhashmap]
    refine hindexes.congr (fun i header hi ↦ ?_) (fun i ↦ ?_) fun pointer _ ↦ by rw [hmetas]
    · rw [hat] at hi
      by_cases hpage : i = pageId
      · rw [if_pos hpage, Option.some.injEq] at hi
        rw [← hi, hpage]
        refine ⟨rfl, ?_⟩
        rintro ⟨⟩
      · rw [if_neg hpage] at hi
        exact hindexes.numbered i header hi
    · by_cases hpage : i = pageId
      · rw [hpage, hempty, pointersOf, List.getElem?_eq_none hlength.le]
        rfl
      · rw [pointersOf, hat, if_neg hpage]
        rfl
  · rw [hheaders, List.length_append, hlength, List.length_singleton]
  · rw [hempty, List.length_nil]

theorem set_last (metas : List KeyMeta) (old new : KeyMeta) :
    (metas ++ [old]).set metas.length new = metas ++ [new] := by
  rw [List.set_append_right _ _ le_rfl, Nat.sub_self, List.set_cons_zero]

/-- The key of a record gets a new meta, which the page lists behind the others. -/
theorem uploadKey_shape {H : Type} {calls : HashmapCalls H} {st st' : Startup H} {pageId : ℕ}
    {key : HashmapKey} (hupload : uploadKey calls growth pageId st key = .ok st') :
    ∃ header keys, st.storage.headers[pageId]? = some header ∧
      header.keys.add growth ⟨wrap16 key.offset, st.storage.metas.length⟩ = .ok keys ∧
      st'.storage = ({ st.storage with metas := st.storage.metas ++
        [⟨some key.key, wrap16 (keys.contents.length - 1), pageId⟩] } : Storage).setHeader pageId
          { header with keys := keys } ∧
      ∃ result err, calls.insertKey st.hashmap st.storage.metas.length key.key =
        .ok (st'.hashmap, result, err) ∧ result ≠ -1 := by
  obtain ⟨s1, hpage, h⟩ := bind_eq_ok.mp hupload
  obtain ⟨header, hheader, h⟩ := bind_eq_ok.mp h
  obtain ⟨⟨header', metas⟩, hpush, h⟩ := bind_eq_ok.mp h
  obtain ⟨s2, hname, h⟩ := bind_eq_ok.mp h
  obtain ⟨⟨hashmap, result, err⟩, hinsert, h⟩ := bind_eq_ok.mp h
  obtain ⟨fresh, hfresh, hs1⟩ := modifyMeta_eq_ok hpage
  obtain ⟨linked, hlinked, hs2⟩ := modifyMeta_eq_ok hname
  obtain ⟨keys, hadd, hpush⟩ := bind_eq_ok.mp hpush
  obtain ⟨paged, hpaged, hpush⟩ := bind_eq_ok.mp hpush
  have hpushed := Prod.mk.inj (Except.ok.inj hpush)
  have hmetas1 : s1.metas = st.storage.metas ++ [⟨none, 0, pageId⟩] := by
    have hlast : (st.storage.metas ++ [⟨none, 0, 0⟩])[st.storage.metas.length]? = some fresh :=
      hfresh
    rw [List.getElem?_concat_length, Option.some.injEq] at hlast
    rw [hs1, ← hlast]
    exact set_last ..
  have hmetas : metas = st.storage.metas ++
      [⟨none, wrap16 (keys.contents.length - 1), pageId⟩] := by
    rw [hmetas1] at hpaged
    have hlast : (st.storage.metas ++ [⟨none, 0, pageId⟩])[st.storage.metas.length]?.elim
        (.error .danglingPointer) .ok = (.ok paged : Outcome KeyMeta) := hpaged
    rw [List.getElem?_concat_length, Option.elim_some, Except.ok.injEq] at hlast
    rw [← hpushed.2, hmetas1, ← hlast]
    exact set_last ..
  have hmetas2 : s2.metas = st.storage.metas ++
      [⟨some key.key, wrap16 (keys.contents.length - 1), pageId⟩] := by
    have hlast : (st.storage.metas ++ [⟨none, wrap16 (keys.contents.length - 1),
        pageId⟩])[st.storage.metas.length]? = some linked := hmetas ▸ hlinked
    rw [List.getElem?_concat_length, Option.some.injEq] at hlast
    rw [hs2, ← hlast]
    exact (congrArg (List.set · _ _) hmetas).trans (set_last ..)
  have hs2' : s2 = ({ st.storage with metas := s2.metas } : Storage).setHeader pageId
      { header with keys := keys } := by
    rw [hs2, ← hpushed.1, hs1]
    rfl
  have hhere : st.storage.headers[pageId]? = some header := by
    rw [hs1] at hheader
    exact header_eq_ok.mp hheader
  refine ⟨header, keys, hhere, hadd, ?_⟩
  by_cases hresult : result = -1
  · simp only [if_pos hresult] at h
    cases h
  · simp only [if_neg hresult] at h
    rw [← Except.ok.inj h]
    refine ⟨?_, result, err, hinsert, hresult⟩
    rw [← hmetas2]
    exact hs2'

/-- The key of a record is put behind the others of its page. -/
theorem uploadKey_adds {pageId : ℕ} {key : HashmapKey} (hnumbered : Numbered st.storage)
    (hupload : uploadKey (dictionaryCalls refuses) growth pageId st key = .ok st') :
    Adds st.storage st'.storage pageId key.key ∧
      st'.storage.headers.length = st.storage.headers.length ∧ st.hashmap key.key = none ∧
      st'.hashmap = Function.update st.hashmap key.key (some st.storage.metas.length) := by
  obtain ⟨header, keys, hhere, hadd, hstorage, result, err, hinsert, hresult⟩ :=
    uploadKey_shape hupload
  have hkeys := (BoundedList.add_eq_ok.mp hadd).2.1
  have hlength : keys.contents.length - 1 = (pointersOf st.storage pageId).length := by
    rw [hkeys, pointersOf_eq hhere, List.length_append, List.length_map, List.length_singleton,
      Nat.add_sub_cancel]
  have hheaders : st'.storage.headers = st.storage.headers.set pageId { header with keys := keys } := by
    rw [hstorage]
    rfl
  have hadds : Adds st.storage st'.storage pageId key.key := by
    refine ⟨numbered_set hhere hheaders rfl id hnumbered, fun i ↦ ?_, ?_⟩
    · rw [pointersOf_set hhere hheaders, pointersOf_eq hhere, hkeys, List.map_append]
      rfl
    · rw [hstorage, ← hlength]
      rfl
  refine ⟨hadds, ?_, ?_⟩
  · rw [hheaders, List.length_set]
  · simp only [dictionaryCalls] at hinsert
    split at hinsert
    · exact absurd (Prod.mk.inj (Prod.mk.inj (Except.ok.inj hinsert)).2).1.symm hresult
    · rename_i hfound
      split at hinsert
      · exact absurd (Prod.mk.inj (Prod.mk.inj (Except.ok.inj hinsert)).2).1.symm hresult
      · rw [Option.not_isSome_iff_eq_none] at hfound
        exact ⟨hfound, (Prod.mk.inj (Except.ok.inj hinsert)).1.symm⟩

theorem uploadKey_indexes (pageId visited : ℕ) (st : Startup (Str → Option ℕ)) (key : HashmapKey)
    (st' : Startup (Str → Option ℕ)) (hvisited : visited + 1 < 2 ^ 16)
    (h : ReloadedKeys pageId visited st)
    (hupload : uploadKey (dictionaryCalls refuses) growth pageId st key = .ok st') :
    ReloadedKeys pageId (visited + 1) st' := by
  obtain ⟨hindexes, hlength, hseen⟩ := h
  obtain ⟨hadds, hsame, hnone, hhashmap⟩ := uploadKey_adds hindexes.numbered hupload
  refine ⟨?_, hsame.trans hlength, ?_⟩
  · rw [hhashmap]
    exact hindexes.adds hnone (by omega) hadds
  · rw [hadds.pointers, if_pos rfl, List.length_append, hseen, List.length_singleton]

/-- A start that succeeds leaves the index in step. -/
theorem dbStart_indexes {memory : Memory} {vfd kfd log : List UInt8}
    {db : Database (Str → Option ℕ)}
    (h : dbStart (dictionaryCalls refuses) growth memory (fun _ ↦ none) vfd kfd log = .ok db) :
    Indexes db.hashmap db.storage := by
  obtain ⟨kfd', st, hreload, -, hstorage, hhashmap⟩ := dbStart_reloads h
  have hempty : Indexes (fun _ ↦ none) (⟨newArena growth arenaPages memory (initDisk vfd kfd).pages,
      newLruQueue, initDisk vfd kfd, []⟩ : Storage) := by
    refine ⟨nofun, nofun, ?_, ?_⟩
    · intro pointer ⟨page, hmem⟩
      cases hmem
    · intro key pointer
      refine iff_of_false nofun ?_
      rintro ⟨⟨page, hmem⟩, -⟩
      cases hmem
  have hinit : ReloadedPages 0 (⟨⟨newArena growth arenaPages memory (initDisk vfd kfd).pages,
      newLruQueue, initDisk vfd kfd, []⟩, fun _ ↦ none, 0⟩) := ⟨hempty, rfl⟩
  obtain ⟨last, -, hindexes, -⟩ := reloadPages_invariant (openPage growth)
    (uploadKey (dictionaryCalls refuses) growth) openPage_indexes uploadKey_indexes
    (fun _ _ _ hpart ↦ (⟨hpart.1, hpart.2.1⟩ : ReloadedPages _ _)) hinit hreload
  rw [hhashmap, hstorage]
  exact hindexes.congr hindexes.numbered (fun _ ↦ rfl) fun _ _ ↦ rfl

/-- From a start on any files, operations in any order keep the index of the keys a bijection as
long as the places in the pages have numbers. -/
theorem keyIndex_bijective {memory : Memory} {vfd kfd log : List UInt8}
    {start : Database (Str → Option ℕ)}
    (hstart : dbStart (dictionaryCalls refuses) growth memory (fun _ ↦ none) vfd kfd log = .ok start)
    {calls : List OperationCall}
    (hsmall : EachStep (operationStep (dictionaryCalls refuses) growth) (fun db _ ↦ PagesSmall db)
      start calls) {db : Database (Str → Option ℕ)} {replies : List (Option ProtoReply)}
    (hrun : run (operationStep (dictionaryCalls refuses) growth) start calls = .ok (db, replies)) :
    KeyIndexBijective db.hashmap db.storage := by
  have hindexes : Indexes db.hashmap db.storage :=
    @run_invariant _ _ _ _ _ (fun db ↦ Indexes db.hashmap db.storage)
      (fun _ _ _ _ h hok hstep ↦ operationStep_indexes h hok hstep) start db calls replies
      (dbStart_indexes hstart) hsmall hrun
  exact hindexes.bijective

/-- The insertion of a key of one byte. -/
def oneInsert : OperationCall :=
  ⟨⟨some 0, ⟨Command.insert.code, .ofByte 107, .ofByte 118⟩⟩, ⟨.error, 0, Str.empty⟩⟩

/-- A key is inserted into an empty database. -/
theorem keyIndex_bijective_one_insert : ∃ db : Database (Str → Option ℕ),
    db.storage.headers.length = 1 ∧ KeyIndexBijective db.hashmap db.storage := by
  obtain ⟨start, hstart⟩ : ∃ start, dbStart (dictionaryCalls fun _ _ ↦ false) .source (fun _ ↦ 0)
      (fun _ ↦ none) [] [] [] = .ok start := ⟨_, rfl⟩
  have hpages : ((dbStart (dictionaryCalls fun _ _ ↦ false) .source (fun _ ↦ 0) (fun _ ↦ none)
      [] [] [] >>= fun start ↦ run (operationStep (dictionaryCalls fun _ _ ↦ false) .source) start
        [oneInsert]).toOption.map fun result ↦ result.1.storage.headers.length) = some 1 := by
    decide +kernel
  rw [hstart, ok_bind] at hpages
  have hsmall : EachStep (operationStep (dictionaryCalls fun _ _ ↦ false) .source)
      (fun db _ ↦ PagesSmall db) start [oneInsert] := by
    refine ⟨fun index header hheader ↦ ?_, fun _ _ _ ↦ trivial⟩
    cases hstart
    cases hheader
  obtain ⟨result, hrun, hcount⟩ := exists_ok_of_map hpages
  exact ⟨result.1, hcount, keyIndex_bijective hstart hsmall hrun⟩

end Index

end FGDB.Restart
