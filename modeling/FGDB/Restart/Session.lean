import FGDB.HashMap.Erase
import FGDB.Operations.Refinement
import FGDB.Restart.Shutdown
import FGDB.Restart.Watermark

/-!
# Sessions

A session is a run of operations, snapshots and restarts from an empty database. As long
as values are put only where they fit and into dirty pages only, the pages can be
compacted in place, and no key was dumped before a shutdown, the database serves what was
inserted and not deleted, however often the process is started again.
-/

namespace FGDB.Restart

open Foundation Memory Records HashMap Pages Server Wal Operations
open FGDB.Vector (BoundedList Growth)

section Reload

variable {growth : Growth} {memory : Memory} {s s' : Storage} {vfd front log : List UInt8}
  {db : Database (Str → Option ℕ)} {d : Str → Option Str} {call : OperationCall}

/-- What the operations, the snapshots and the restarts keep. -/
structure Lasts (db : Database (Str → Option ℕ)) (d : Str → Option Str) : Prop where
  serves : Serves (fun d hashmap ↦ hashmap = d) db d
  indexes : Indexes db.hashmap db.storage
  backed : Backed db.storage

theorem regular_of_putsDirty (hputs : call.trans.msg.cmd = Command.insert.code →
      call.trans.msg.val.size ≠ 0 → db.hashmap call.trans.msg.key = none →
        PutsDirty growth db.storage call.trans.msg.val) :
    Regular correctCalls growth (fun _ _ ↦ True) (fun _ _ ↦ True) db call := by
  refine ⟨fun hcmd hvalue hnot ↦ ⟨(hputs hcmd hvalue ?_).1, trivial⟩, fun _ _ ↦ trivial⟩
  rw [present_iff correctCalls_lawful rfl, not_exists] at hnot
  exact Option.eq_none_iff_forall_ne_some.mpr hnot

/-- Operations that put values into dirty pages only last. -/
theorem operationStep_lasts (h : Lasts db d) (hrequest : IsRequest call)
    (hputs : call.trans.msg.cmd = Command.insert.code → call.trans.msg.val.size ≠ 0 →
      db.hashmap call.trans.msg.key = none → PutsDirty growth db.storage call.trans.msg.val) :
    ∃ db' result, operationStep correctCalls growth db call = .ok (db', result) ∧
      Lasts db' (mapStep d call).1 := by
  obtain ⟨db', result, hstep, hserves, -⟩ :=
    operationStep_ends correctCalls_lawful h.serves hrequest (regular_of_putsDirty hputs)
  have hsmall : PagesSmall db := by
    intro index header hheader
    have hlength := (h.serves.valid.headers index header hheader).holds.length_le
    unfold pageSize at hlength
    omega
  exact ⟨db', result, hstep, hserves, operationStep_indexes h.indexes hsmall hstep,
    operationStep_backed h.serves.valid h.backed hputs hstep⟩

theorem SnapshotOf.serves (h : SnapshotOf db.storage s') (hlasts : Lasts db d) :
    Serves (fun d hashmap ↦ hashmap = d) { db with storage := s' } d := by
  obtain ⟨pointers, hhashmap, hbound⟩ := hlasts.serves.index
  exact ⟨h.valid, pointers, hhashmap, hbound.same h.stores⟩

theorem SnapshotOf.lasts (h : SnapshotOf db.storage s') (hlasts : Lasts db d) :
    Lasts { db with storage := s' } d := by
  refine ⟨h.serves hlasts, hlasts.indexes.same h.index, h.clean, ?_, ?_⟩
  · rw [h.count]
    exact h.length.trans (max_le hlasts.backed.length le_rfl)
  · exact h.allocated.trans hlasts.backed.allocated

/-- A snapshot lasts. -/
theorem snapshot_lasts (h : Lasts db d) (happart : db.storage.DirtyApart) :
    ∃ s', snapshot db.storage = .ok s' ∧ Lasts { db with storage := s' } d := by
  have hfitting : db.storage.headers.length ≤ arenaPages :=
    h.backed.allocated ▸ h.serves.valid.fitting
  obtain ⟨s', hsnapshot, hof⟩ :=
    snapshot_of h.serves.valid h.backed.clean happart h.indexes hfitting
  exact ⟨s', hsnapshot, hof.lasts h⟩

theorem SnapshotOf.refills (h : SnapshotOf s s')
    (hkeys : ∀ header ∈ s.headers, Refills growth header.keys.contents.length) :
    ∀ listing ∈ listingsOf s', Refills growth listing.keys.length := by
  intro listing hlisting
  obtain ⟨page, hpage⟩ := List.getElem?_of_mem hlisting
  obtain ⟨header', hheader', rfl⟩ := getElem?_listingsOf.mp hpage
  have hlt := (List.getElem?_eq_some_iff.mp hheader').1
  rw [h.count] at hlt
  have hheader := List.getElem?_eq_getElem hlt
  have hpointers := congrArg List.length (h.index.pointers page)
  rw [pointersOf_eq hheader', pointersOf_eq hheader, List.length_map, List.length_map] at hpointers
  rw [listingOf, List.length_map, hpointers]
  exact hkeys _ (List.mem_of_getElem? hheader)

/-- A snapshot lists the names that were there before. -/
theorem SnapshotOf.names (h : SnapshotOf s s') : listedNames s' = listedNames s := by
  have hpointers : s'.headers.map (fun header ↦ header.keys.contents.map PageHeaderKey.keyMetaPtr) =
      s.headers.map fun header ↦ header.keys.contents.map PageHeaderKey.keyMetaPtr := by
    apply List.ext_getElem
    · rw [List.length_map, List.length_map, h.count]
    · intro page hpage' hpage
      rw [List.length_map] at hpage hpage'
      have hsame := h.index.pointers page
      rw [pointersOf_eq (List.getElem?_eq_getElem hpage'),
        pointersOf_eq (List.getElem?_eq_getElem hpage)] at hsame
      rw [List.getElem_map, List.getElem_map, hsame]
  have hweak : weakKeyOf s' = weakKeyOf s := by
    funext pointer
    rw [weakKeyOf, weakKeyOf, h.index.metas]
  rw [listedNames_eq, listedNames_eq, hweak, List.flatMap_def, List.flatMap_def, hpointers]

/-- The key file lists the pages of a store, behind a count, and the snapshot file has them. -/
structure FilesOf (s : Storage) (vfd front : List UInt8) : Prop where
  settled : ∀ header ∈ s.headers, header.state = .clean
  start : front.length = keysStart
  pages : ∀ kfd, (initDisk vfd kfd).pages = (listingsOf s).length
  length : vfd.length ≤ pagePos s.headers.length
  image : ∀ page, (File.image vfd).window (pagePos page) = s.snapImage page

theorem SavedFiles.filesOf (h : SavedFiles s s' vfd front) : FilesOf s' vfd front :=
  ⟨h.snapshot.all, h.start, h.pages, h.length, h.image⟩

theorem Lasts.fitting (h : Lasts db d) : db.storage.headers.length ≤ arenaPages :=
  h.backed.allocated ▸ h.serves.valid.fitting

theorem Lasts.inRange (h : Lasts db d) : ∀ listing ∈ listingsOf db.storage, listing.InRange :=
  valid_inRange h.serves.valid h.fitting

/-- The files are read again. -/
theorem FilesOf.reads (hfiles : FilesOf db.storage vfd front) (h : Lasts db d)
    (hpages : Refills growth (listingsOf db.storage).length)
    (hkeys : ∀ listing ∈ listingsOf db.storage, Refills growth listing.keys.length)
    (memory : Memory) :
    ∃ st, visitPages (openPage growth) (uploadKey correctCalls growth) 0 (listingsOf db.storage)
      (startupAt growth memory (initDisk vfd (front ++ entriesBytes (listingsOf db.storage)))
        fun _ ↦ none) = .ok st ∧
      st.keys = (entriesOf (listingsOf db.storage)).length ∧
      List.Forall₂ (ListsHeader st.storage.metas) st.storage.headers (listingsOf db.storage) := by
  have hreloadable : Reloadable growth 0 (listingsOf db.storage) :=
    ⟨fun _ _ hlisting ↦ indexes_numbered h.indexes hlisting, h.inRange, hkeys⟩
  exact visitPages_listed (hfiles.pages _) hpages hreloadable (indexes_nodup_names h.indexes)

theorem ListsHeader.places {metas : List KeyMeta} {header : PageHeader} {listing : PageListing}
    (h : ListsHeader metas header listing) :
    header.keys.contents.map PageHeaderKey.offset = listing.keys.map HashmapKey.offset := by
  have hsame : List.Forall₂ (fun key entry ↦ key.offset = entry.offset)
      header.keys.contents listing.keys := h.keys.imp fun _ _ hkey ↦ hkey.offset
  rwa [← List.forall₂_eq_eq_eq, List.forall₂_map_left_iff, List.forall₂_map_right_iff]

/-- Pages without a dirty one are in the snapshot file. -/
theorem Lasts.on_disk (h : Lasts db d) {page : ℕ} {header : PageHeader}
    (hheader : db.storage.headers[page]? = some header) (hstate : header.state = .clean) :
    pagePos (page + 1) ≤ db.storage.disk.vfd.content.length ∧
      AgreeBelow pageSize (db.storage.image header) (db.storage.snapImage page) := by
  have hvalid := h.serves.valid.headers page header hheader
  rcases hvalid.located with ⟨hmemory, -⟩ | ⟨hdisk, hlength⟩
  · rw [image_of_inMemory _ hmemory]
    have honDisk := h.backed.clean page header hheader hmemory hstate
    exact ⟨honDisk.length, honDisk.agree⟩
  · rw [hvalid.pageId] at hlength
    rw [image_of_inDisk _ hdisk, hvalid.pageId]
    exact ⟨hlength, AgreeBelow.refl⟩

/-- What the next start reads from the files lasts. -/
theorem FilesOf.lasts (hfiles : FilesOf db.storage vfd front) (h : Lasts db d)
    (hcount : leValue front ≤ (entriesOf (listingsOf db.storage)).length)
    {st : Startup (Str → Option ℕ)}
    (hvisit : visitPages (openPage growth) (uploadKey correctCalls growth) 0
      (listingsOf db.storage) (startupAt growth memory
        (initDisk vfd (front ++ entriesBytes (listingsOf db.storage))) fun _ ↦ none) = .ok st)
    (hkeys : st.keys = (entriesOf (listingsOf db.storage)).length)
    (hlists : List.Forall₂ (ListsHeader st.storage.metas) st.storage.headers
      (listingsOf db.storage)) :
    Lasts (startedWith st (front ++ entriesBytes (listingsOf db.storage)) log) d := by
  have hstart : dbStart correctCalls growth memory (fun _ ↦ none) vfd
      (front ++ entriesBytes (listingsOf db.storage)) log =
        .ok (startedWith st (front ++ entriesBytes (listingsOf db.storage)) log) :=
    dbStart_of_visits (hfiles.pages _) hfiles.start h.inRange hvisit (hkeys ▸ hcount)
  obtain ⟨db', hdb'⟩ : ∃ db',
    startedWith st (front ++ entriesBytes (listingsOf db.storage)) log = db' := ⟨_, rfl⟩
  have hlists' : List.Forall₂ (ListsHeader db'.storage.metas) db'.storage.headers
      (listingsOf db.storage) := by
    rw [← hdb']
    exact hlists
  rw [hdb'] at hstart
  rw [hdb']
  have hindexes := dbStart_indexes hstart
  obtain ⟨hcold, hvfd, -⟩ := dbStart_cold hstart
  have hcount : db'.storage.headers.length = db.storage.headers.length := by
    rw [hlists'.length_eq, listingsOf, List.length_map]
  have hfitting : db'.storage.headers.length ≤ arenaPages := hcount ▸ h.fitting
  have hsnap (page : ℕ) : db'.storage.snapImage page = db.storage.snapImage page := by
    rw [Storage.snapImage, hvfd, hfiles.image]
  have hpageId {page : ℕ} {header : PageHeader} (hheader : db'.storage.headers[page]? = some header) :
      header.pageId = page := (hindexes.numbered page header hheader).1
  have hon {page : ℕ} {header : PageHeader} (hheader : db.storage.headers[page]? = some header) :
      AgreeBelow pageSize (db.storage.image header) (db.storage.snapImage page) :=
    (h.on_disk hheader (hfiles.settled header (List.mem_of_getElem? hheader))).2
  have hsound : SnapshotSound db'.storage := by
    intro header hmem
    obtain ⟨page, hheader⟩ := List.getElem?_of_mem hmem
    obtain ⟨listing, hlisting, hlist⟩ := getElem?_forall₂ hlists' hheader
    obtain ⟨header', hheader', rfl⟩ := getElem?_listingsOf.mp hlisting
    have hholds := (h.serves.valid.headers page header' hheader').holds
    obtain ⟨hagreed, -⟩ := hholds.agree (hon hheader')
    rw [hpageId hheader, hsnap, hlist.offset]
    apply hagreed.reread
    rw [hlist.places, listingOf, List.map_map]
    rfl
  have hserves := dbStart_serves hstart hfitting hsound
  have hvalues : snapshotValue db' = d := by
    funext key
    apply Option.ext
    intro value
    calc snapshotValue db' key = some value
        ↔ ListedValue db.storage.snapImage (listingsOf db.storage) key value :=
          serves_listed hserves hindexes hlists' fun page header hheader ↦ by
            have hlocation := (hcold.headers header (List.mem_of_getElem? hheader)).location
            rw [image_of_inDisk _ hlocation, hpageId hheader, hsnap]
            exact AgreeBelow.refl
      _ ↔ d key = some value :=
          (serves_listed h.serves h.indexes (indexes_lists h.indexes) fun _ _ hheader ↦
            hon hheader).symm
  refine ⟨hvalues ▸ hserves, hindexes, fun page header hheader hmemory ↦ ?_, ?_, hcold.allocated⟩
  · rw [(hcold.headers header (List.mem_of_getElem? hheader)).location] at hmemory
    cases hmemory
  · rw [hvfd, hcount]
    exact hfiles.length

end Reload

section Insertions

variable {H : Type} {calls : HashmapCalls H} {stands : (Str → Option ℕ) → H → Prop}
  {insertSafe deleteSafe : Str → H → Prop} {growth : Growth} {hashmap : H}
  {st st' : Startup (Str → Option ℕ)} {entry : HashmapKey} {page : ℕ}

/-- The same start with another map. -/
def Startup.onMap {M : Type} (st : Startup M) (map : H) : Startup H := ⟨st.storage, map, st.keys⟩

/-- The insertion of a name with the number of its meta. -/
def insertStep (calls : HashmapCalls H) (hashmap : H) (entry : Str × ℕ) :
    Outcome (H × HashmapError) := do
  let (hashmap, _, err) ← calls.insertKey hashmap entry.2 entry.1
  return (hashmap, err)

/-- The names can be inserted one after another, with metas numbered from the first one. -/
def InsertsSafe (calls : HashmapCalls H) (insertSafe : Str → H → Prop) (hashmap : H) (first : ℕ)
    (names : List Str) : Prop :=
  EachStep (insertStep calls) (fun hashmap entry ↦ insertSafe entry.1 hashmap) hashmap
    (names.zipIdx first)

theorem uploadKey_refines (hlawful : LawfulCalls calls stands insertSafe deleteSafe)
    (hstands : stands st.hashmap hashmap) (hsafe : insertSafe entry.key hashmap)
    (hupload : uploadKey correctCalls growth page st entry = .ok st') :
    ∃ hashmap', uploadKey calls growth page (st.onMap hashmap) entry = .ok (st'.onMap hashmap') ∧
      stands st'.hashmap hashmap' ∧ insertStep calls hashmap (entry.key, st.storage.metas.length) =
        .ok (hashmap', .success) ∧ st'.storage.metas.length = st.storage.metas.length + 1 := by
  obtain ⟨header, keys, -, -, hstorage, result, err, hinsert, hresult⟩ := uploadKey_shape hupload
  have habsent : st.hashmap entry.key = none := by
    cases hkey : st.hashmap entry.key with
    | none => rfl
    | some pointer =>
      simp only [dictionaryCalls, hkey, Option.isSome_some, if_true, Except.ok.injEq,
        Prod.mk.injEq] at hinsert
      exact absurd hinsert.2.1.symm hresult
  obtain ⟨hashmap', hinsert', hstands'⟩ :=
    hlawful.insert hstands habsent hsafe st.storage.metas.length
  have htaken := correctCalls_insert st.hashmap habsent st.storage.metas.length
  have hmap : st'.hashmap = Function.update st.hashmap entry.key (some st.storage.metas.length) :=
    (Prod.mk.inj (Except.ok.inj (hinsert.symm.trans htaken))).1
  refine ⟨hashmap', ?_, hmap ▸ hstands', ?_, ?_⟩
  · obtain ⟨s1, hpage, h⟩ := bind_eq_ok.mp hupload
    obtain ⟨found, hheader, h⟩ := bind_eq_ok.mp h
    obtain ⟨pushed, hpush, h⟩ := bind_eq_ok.mp h
    obtain ⟨s2, hname, h⟩ := bind_eq_ok.mp h
    obtain ⟨inserted, htaken', h⟩ := bind_eq_ok.mp h
    obtain rfl := Except.ok.inj (htaken'.symm.trans htaken)
    rw [← Except.ok.inj h]
    apply bind_eq_ok.mpr
    refine ⟨s1, hpage, bind_eq_ok.mpr ⟨found, hheader, bind_eq_ok.mpr ⟨pushed, hpush, ?_⟩⟩⟩
    exact bind_eq_ok.mpr ⟨s2, hname, bind_eq_ok.mpr ⟨_, hinsert', rfl⟩⟩
  · simp only [insertStep, hinsert', ok_bind, pure_eq_ok]
  · rw [hstorage]
    exact List.length_append

theorem uploadKeys_refines (hlawful : LawfulCalls calls stands insertSafe deleteSafe)
    {todo : List HashmapKey} {more : List Str} (hstands : stands st.hashmap hashmap)
    (hsafe : InsertsSafe calls insertSafe hashmap st.storage.metas.length
      (todo.map HashmapKey.key ++ more))
    (h : todo.foldlM (uploadKey correctCalls growth page) st = .ok st') :
    ∃ hashmap', todo.foldlM (uploadKey calls growth page) (st.onMap hashmap) =
      .ok (st'.onMap hashmap') ∧ stands st'.hashmap hashmap' ∧
        InsertsSafe calls insertSafe hashmap' st'.storage.metas.length more := by
  induction todo generalizing st hashmap with
  | nil =>
    rw [List.foldlM_nil, pure_eq_ok, Except.ok.injEq] at h
    rw [← h]
    exact ⟨hashmap, rfl, hstands, hsafe⟩
  | cons entry rest ih =>
    rw [List.foldlM_cons] at h
    obtain ⟨st1, hupload, hrest⟩ := bind_eq_ok.mp h
    obtain ⟨hashmap1, hupload', hstands1, hstep, hlength⟩ :=
      uploadKey_refines hlawful hstands hsafe.1 hupload
    have hsafe1 := hsafe.2 hashmap1 .success hstep
    rw [← hlength] at hsafe1
    obtain ⟨hashmap', hloop, hlast⟩ := ih hstands1 hsafe1 hrest
    refine ⟨hashmap', ?_, hlast⟩
    rw [List.foldlM_cons, hupload', ok_bind, hloop]

/-- A reload over the hash map does what it does over a dictionary, as long as the insertions are
safe. -/
theorem visitPages_refines (hlawful : LawfulCalls calls stands insertSafe deleteSafe)
    {todo : List PageListing} (hstands : stands st.hashmap hashmap)
    (hsafe : InsertsSafe calls insertSafe hashmap st.storage.metas.length
      ((entriesOf todo).map HashmapKey.key))
    (h : visitPages (openPage growth) (uploadKey correctCalls growth) page todo st = .ok st') :
    ∃ hashmap', visitPages (openPage growth) (uploadKey calls growth) page todo (st.onMap hashmap) =
      .ok (st'.onMap hashmap') ∧ stands st'.hashmap hashmap' := by
  induction todo generalizing st hashmap page with
  | nil =>
    rw [visitPages, Except.ok.injEq] at h
    rw [← h]
    exact ⟨hashmap, rfl, hstands⟩
  | cons listing rest ih =>
    rw [visitPages] at h
    obtain ⟨st1, hopen, h⟩ := bind_eq_ok.mp h
    obtain ⟨st2, hkeys, hrest⟩ := bind_eq_ok.mp h
    obtain ⟨headers, hadd, hopened⟩ := bind_eq_ok.mp hopen
    have hopen' : openPage growth page (st.onMap hashmap) listing.offsetBytes listing.keys.length =
        .ok (st1.onMap hashmap) := by
      rw [← Except.ok.inj hopened]
      rw [openPage]
      simp only [Startup.onMap]
      rw [hadd]
      rfl
    have hmap : st1.hashmap = st.hashmap ∧ st1.storage.metas = st.storage.metas := by
      rw [← Except.ok.inj hopened]
      exact ⟨rfl, rfl⟩
    rw [entriesOf, List.flatMap_cons, List.map_append, ← hmap.2] at hsafe
    obtain ⟨hashmap2, hkeys', hstands2, hsafe2⟩ :=
      uploadKeys_refines hlawful (hmap.1 ▸ hstands) hsafe hkeys
    obtain ⟨hashmap', hvisit, hlast⟩ := ih hstands2 hsafe2 hrest
    refine ⟨hashmap', ?_, hlast⟩
    rw [visitPages, hopen', ok_bind, hkeys', ok_bind, hvisit]

end Insertions

section Session

variable {growth : Growth} {db db' : Database (VoidPtr ℕ)} {d : Str → Option Str}

/-- An operation, the snapshot signal, or a shutdown and the next start. -/
def sessionStep (growth : Growth) (db : Database (VoidPtr ℕ)) :
    Event → Outcome (Database (VoidPtr ℕ) × Unit)
  | .operation call => do
    let (db, _) ← operationStep hashmapCalls growth db call
    return (db, ())
  | .snapshot => do
    let s ← snapshot db.storage
    return ({ db with storage := s }, ())
  | .restart memory => do
    let db ← restart hashmapCalls growth hashmapNew memory db
    return (db, ())

/-- Snapshots and restarts leave the map alone. -/
def sessionSpec (d : Str → Option Str) : Event → (Str → Option Str) × Unit
  | .operation call => ((mapStep d call).1, ())
  | .snapshot | .restart _ => (d, ())

/-- The keys that were inserted and not deleted, with their values. -/
def liveValues (events : List Event) : Str → Option Str :=
  (runSpec sessionSpec (fun _ ↦ none) events).1

/-- The value that page_value_get returns for the meta that the hash map has for the key. -/
def storedValue {H : Type} (calls : HashmapCalls H) (db : Database H) (key : Str) : Option Str := do
  let (pointer, _) ← (calls.lookupKey db.hashmap key).toOption
  let keyMeta ← pointer.bind fun pointer ↦ db.storage.metas[pointer]?
  let (_, found) ← (pageValueGet db.storage keyMeta).toOption
  found.map Prod.snd

/-- Nothing faults. Afterwards the hash map has exactly the live keys, and the pages have their
values. -/
def ServesLive (growth : Growth) (start : Database (VoidPtr ℕ)) (events : List Event) : Prop :=
  ∃ db outputs, run (sessionStep growth) start events = .ok (db, outputs) ∧
    ∀ key, (Present hashmapCalls db key ↔ liveValues events key ≠ none) ∧
      storedValue hashmapCalls db key = liveValues events key

def IsOperation : Event → Prop
  | .operation call => IsRequest call
  | .snapshot | .restart _ => True

/-- A new value goes where there is room for it and not into a clean page, the hash map can take
its key or give it up, dirty pages can be compacted in place, and what a shutdown saves can be read
again. -/
def EventFits (growth : Growth) (db : Database (VoidPtr ℕ)) : Event → Prop
  | .operation call => Regular hashmapCalls growth InsertSafe DeleteSafe db call ∧
    (call.trans.msg.cmd = Command.insert.code → call.trans.msg.val.size ≠ 0 →
      ¬ Present hashmapCalls db call.trans.msg.key → ∀ index header,
        FirstFit db.storage.headers call.trans.msg.val.size index header → header.state = .dirty)
  | .snapshot => db.storage.DirtyApart
  | .restart _ => Savable growth db.storage ∧
    InsertsSafe hashmapCalls InsertSafe hashmapNew 0 (listedNames db.storage)

/-- The hash map stands for a dictionary over which the store lasts. -/
def Carries (db : Database (VoidPtr ℕ)) (d : Str → Option Str) : Prop :=
  ∃ pointers, MapHolds pointers db.hashmap ∧ Lasts (db.onMap pointers) d

theorem emptyDatabase_carries (growth : Growth) (memory : Memory) (headers : ℕ)
    (walLogger : WalLogger) :
    Carries (emptyDatabase growth arenaPages memory headers (initDisk [] []) walLogger)
      fun _ ↦ none := by
  refine ⟨fun _ ↦ none, hashmapNew_holds, ⟨?_, _, rfl, fun _ _ ↦ rfl, nofun, nofun⟩, ?_, ?_⟩
  · exact emptyStorage_valid growth arenaPages memory headers (initDisk [] [])
  · refine ⟨nofun, nofun, ?_, fun key pointer ↦ iff_of_false nofun ?_⟩
    · rintro pointer ⟨page, hmem⟩
      cases hmem
    · rintro ⟨⟨page, hmem⟩, -⟩
      cases hmem
  · exact ⟨nofun, Nat.zero_le _, rfl⟩

theorem present_hashmapCalls {pointers : Str → Option ℕ} (hholds : MapHolds pointers db.hashmap)
    {key : Str} : Present hashmapCalls db key ↔ pointers key ≠ none := by
  rw [present_iff hashmapCalls_lawful hholds, Option.ne_none_iff_exists']

theorem hashmapCalls_routed : LawfulCalls hashmapCalls MapRoutes InsertSafe DeleteSafe where
  lookup h key := hashmapLookupKey_holds h.holds key
  insert h habsent hsafe pointer := h.insertKey habsent hsafe pointer
  deleteAbsent h habsent metas := hashmapDeleteKey_absent h.holds habsent metas
  deletePresent h hpresent hsafe metas _ hmeta := h.deleteKey hpresent hsafe metas hmeta

/-- The operation over the hash map does to the pages what it does over the dictionary. -/
structure OperationFollows (growth : Growth) (db db' : Database (VoidPtr ℕ)) (d : Str → Option Str)
    (call : OperationCall) : Prop where
  step : sessionStep growth db (.operation call) = .ok (db', ())
  carries : Carries db' (mapStep d call).1
  pages : ∃ (pointers : Str → Option ℕ) (next : Database (Str → Option ℕ))
    (result : Option ProtoReply), Lasts (db.onMap pointers) d ∧
      (call.trans.msg.cmd = Command.insert.code → call.trans.msg.val.size ≠ 0 →
        pointers call.trans.msg.key = none → PutsDirty growth db.storage call.trans.msg.val) ∧
      operationStep correctCalls growth (db.onMap pointers) call = .ok (next, result) ∧
      db'.storage = next.storage ∧ db'.walLogger = next.walLogger
  routes : (Routes db.hashmap fun _ ↦ True) → Routes db'.hashmap fun _ ↦ True

theorem operation_follows {call : OperationCall} (h : Carries db d) (hrequest : IsRequest call)
    (hfits : EventFits growth db (.operation call)) :
    ∃ db', OperationFollows growth db db' d call := by
  obtain ⟨pointers, hholds, hlasts⟩ := h
  have habsent (hnone : pointers call.trans.msg.key = none) :
      ¬ Present hashmapCalls db call.trans.msg.key := by
    rw [present_hashmapCalls hholds]
    exact fun hsome ↦ hsome hnone
  have hputs (hcmd : call.trans.msg.cmd = Command.insert.code) (hvalue : call.trans.msg.val.size ≠ 0)
      (hnone : pointers call.trans.msg.key = none) :
      PutsDirty growth db.storage call.trans.msg.val :=
    ⟨(hfits.1.insert hcmd hvalue (habsent hnone)).1, hfits.2 hcmd hvalue (habsent hnone)⟩
  obtain ⟨next, result, hstep, hnext⟩ := operationStep_lasts hlasts hrequest hputs
  have hrefines {stands : (Str → Option ℕ) → VoidPtr ℕ → Prop}
      (hlawful : LawfulCalls hashmapCalls stands InsertSafe DeleteSafe)
      (hstands : stands pointers db.hashmap) : ∃ hashmap, operationStep hashmapCalls growth db call =
        .ok (next.onMap hashmap, result) ∧ stands next.hashmap hashmap :=
    operationStep_refines hlawful hstands
      (fun hcmd hvalue hnone ↦ (hfits.1.insert hcmd hvalue (habsent hnone)).2)
      (fun hcmd pointer hsome ↦ hfits.1.delete hcmd (by
        rw [present_hashmapCalls hholds, hsome]
        exact Option.some_ne_none _)) next result hstep
  obtain ⟨hashmap, hstep', hholds'⟩ := hrefines hashmapCalls_lawful hholds
  refine ⟨next.onMap hashmap, ?_, ⟨next.hashmap, hholds', hnext⟩,
    ⟨pointers, next, result, hlasts, hputs, hstep, rfl, rfl⟩, fun hroutes ↦ ?_⟩
  · rw [sessionStep, hstep']
    rfl
  · obtain ⟨hashmap', hsame, hrouted⟩ := hrefines hashmapCalls_routed ⟨hholds, hroutes⟩
    have heq := Prod.mk.inj (Except.ok.inj (hsame.symm.trans hstep'))
    rw [← heq.1]
    exact hrouted.routes

theorem operation_carries {call : OperationCall} (h : Carries db d) (hrequest : IsRequest call)
    (hfits : EventFits growth db (.operation call)) :
    ∃ db', sessionStep growth db (.operation call) = .ok (db', ()) ∧
      Carries db' (mapStep d call).1 := by
  obtain ⟨db', hfollows⟩ := operation_follows h hrequest hfits
  exact ⟨db', hfollows.step, hfollows.carries⟩

theorem snapshot_carries (h : Carries db d) (hfits : EventFits growth db .snapshot) :
    ∃ db', sessionStep growth db .snapshot = .ok (db', ()) ∧ Carries db' d := by
  obtain ⟨pointers, hholds, hlasts⟩ := h
  obtain ⟨s', hsnapshot, hkept⟩ := snapshot_lasts hlasts hfits
  refine ⟨{ db with storage := s' }, ?_, pointers, hholds, hkept⟩
  have hsame : snapshot db.storage = .ok s' := hsnapshot
  rw [sessionStep, hsame]
  rfl

/-- What a start from the files of a store leaves. -/
structure StartsFrom (db : Database (VoidPtr ℕ)) (d : Str → Option Str) (vfd kfd : List UInt8) :
    Prop where
  carries : Carries db d
  routes : Routes db.hashmap fun _ ↦ True
  vfd : db.storage.disk.vfd.content = vfd
  kfd : db.storage.disk.kfd.content = kfd

/-- A start finds what the files have, when the hash map can take the names. -/
theorem FilesOf.starts {memory : Memory} {log vfd front : List UInt8}
    {saved : Database (Str → Option ℕ)} (hfiles : FilesOf saved.storage vfd front)
    (h : Lasts saved d)
    (hcount : leValue front ≤ (entriesOf (listingsOf saved.storage)).length)
    (hpages : Refills growth (listingsOf saved.storage).length)
    (hkeys : ∀ listing ∈ listingsOf saved.storage, Refills growth listing.keys.length)
    (hsafe : InsertsSafe hashmapCalls InsertSafe hashmapNew 0 (listedNames saved.storage)) :
    ∃ db', dbStart hashmapCalls growth memory hashmapNew vfd
        (front ++ entriesBytes (listingsOf saved.storage)) log = .ok db' ∧
      StartsFrom db' d vfd (front ++ entriesBytes (listingsOf saved.storage)) := by
  obtain ⟨st, hvisit, hcounted, hlists⟩ := hfiles.reads h hpages hkeys memory
  obtain ⟨hashmap, hvisit', hroutes⟩ :=
    visitPages_refines hashmapCalls_routed hashmapNew_routes hsafe hvisit
  have hstart : dbStart hashmapCalls growth memory hashmapNew vfd
      (front ++ entriesBytes (listingsOf saved.storage)) log =
        .ok (startedWith (st.onMap hashmap) (front ++ entriesBytes (listingsOf saved.storage)) log) :=
    dbStart_of_visits (hfiles.pages _) hfiles.start h.inRange hvisit' (hcounted ▸ hcount)
  exact ⟨_, hstart, ⟨st.hashmap, hroutes.holds, hfiles.lasts h hcount hvisit hcounted hlists⟩,
    hroutes.routes, (dbStart_cold hstart).2.1, rfl⟩

/-- A shutdown leaves files from which the next start finds the same. -/
theorem restart_starts {memory : Memory} (h : Carries db d)
    (hfits : EventFits growth db (.restart memory)) :
    ∃ db' saved vfd front, sessionStep growth db (.restart memory) = .ok (db', ()) ∧
      Lasts saved d ∧ FilesOf saved.storage vfd front ∧
      StartsFrom db' d vfd (front ++ entriesBytes (listingsOf saved.storage)) := by
  obtain ⟨pointers, hholds, hlasts⟩ := h
  obtain ⟨hsavable, hsafe⟩ := hfits
  obtain ⟨s', vfd, front, hsaved⟩ : ∃ s' vfd front, SavedFiles db.storage s' vfd front :=
    shutdown_saves hlasts.serves.valid hlasts.indexes hlasts.backed hsavable
  have hof := hsaved.snapshot
  have hkept : Lasts { db.onMap pointers with storage := s' } d := hof.lasts hlasts
  have hlength : (listingsOf s').length = db.storage.headers.length := by
    rw [listingsOf, List.length_map, hof.count]
  rw [← hof.names] at hsafe
  obtain ⟨db', hstart, hfrom⟩ := FilesOf.starts hsaved.filesOf hkept hsaved.count
    (hlength ▸ hsavable.pages) (hof.refills hsavable.keys) hsafe
  refine ⟨db', _, vfd, front, ?_, hkept, hsaved.filesOf, hfrom⟩
  have hrestart : restart hashmapCalls growth hashmapNew memory db = .ok db' := by
    rw [restart, hsaved.destroyed, ok_bind, hsaved.files]
    exact hstart
  rw [sessionStep, hrestart]
  rfl

theorem restart_carries {memory : Memory} (h : Carries db d)
    (hfits : EventFits growth db (.restart memory)) :
    ∃ db', sessionStep growth db (.restart memory) = .ok (db', ()) ∧ Carries db' d := by
  obtain ⟨db', saved, vfd, front, hstep, -, -, hfrom⟩ := restart_starts h hfits
  exact ⟨db', hstep, hfrom.carries⟩

theorem sessionStep_carries {event : Event} (h : Carries db d) (hoperation : IsOperation event)
    (hfits : EventFits growth db event) : ∃ db',
      sessionStep growth db event = .ok (db', (sessionSpec d event).2) ∧
        Carries db' (sessionSpec d event).1 := by
  cases event with
  | operation call => exact operation_carries h hoperation hfits
  | snapshot => exact snapshot_carries h hfits
  | restart memory => exact restart_carries h hfits

/-- The hash map has the keys of the map that is carried, and the pages have its values. -/
theorem Carries.serves (h : Carries db d) (key : Str) :
    (Present hashmapCalls db key ↔ d key ≠ none) ∧ storedValue hashmapCalls db key = d key := by
  obtain ⟨pointers, hholds, hlasts⟩ := h
  have hvalue : storedValue hashmapCalls db key = (db.onMap pointers).value key := by
    simp only [storedValue, Database.value, Database.onMap, hashmapCalls_lawful.lookup hholds]
    cases pointers key <;> rfl
  obtain ⟨pointers', hsame, hbound⟩ := hlasts.serves.index
  obtain rfl : pointers = pointers' := hsame
  rw [present_hashmapCalls hholds, hvalue]
  cases hkey : pointers key with
  | none =>
    have hnone : (db.onMap pointers).value key = none := by
      simp only [Database.value, Database.onMap, hkey]
      rfl
    rw [hnone, hbound.absent key hkey]
    exact ⟨iff_of_false (fun hne ↦ hne rfl) fun hne ↦ hne rfl, rfl⟩
  | some pointer =>
    obtain ⟨value, hlive, -⟩ := hbound.stored key pointer hkey
    rw [serves_value hlasts.serves hlive, hlive]
    exact ⟨iff_of_true (Option.some_ne_none _) (Option.some_ne_none _), rfl⟩

/-- A start without files. -/
theorem dbStart_empty (growth : Growth) (memory : Memory) (log : List UInt8) :
    dbStart hashmapCalls growth memory hashmapNew [] [] log =
      .ok (emptyDatabase growth arenaPages memory 0 (initDisk [] []) (newWalLogger log 0 0)) := rfl

/-- From an empty database every session serves what was inserted and not deleted, over any number
of restarts, as long as each event fits. -/
theorem servesLive_of_eventFits {memory : Memory} {log : List UInt8}
    {start : Database (VoidPtr ℕ)}
    (hstart : dbStart hashmapCalls growth memory hashmapNew [] [] log = .ok start)
    {events : List Event} (hoperations : ∀ event ∈ events, IsOperation event)
    (hfits : EachStep (sessionStep growth) (EventFits growth) start events) :
    ServesLive growth start events := by
  have hempty : Carries start fun _ ↦ none := by
    rw [← Except.ok.inj hstart]
    exact emptyDatabase_carries growth memory 0 _
  have hstep (db : Database (VoidPtr ℕ)) (d : Str → Option Str) (event : Event) (h : Carries db d)
      (hevent : IsOperation event ∧ EventFits growth db event) : ∃ db',
        sessionStep growth db event = .ok (db', (sessionSpec d event).2) ∧
          Carries db' (sessionSpec d event).1 :=
    sessionStep_carries h hevent.1 hevent.2
  obtain ⟨db, hrun, hcarries⟩ :=
    run_simulates hstep hempty ((eachStep_of_forall hoperations).and hfits)
  exact ⟨db, _, hrun, hcarries.serves⟩

/-- A page with one value at its start, whose key is the only one, can be saved. -/
theorem savable_one_value {s : Storage} (hplaces : s.headers.map PageHeader.places = [[0]])
    (hdumped : s.disk.keysDumped = 0) : Savable .source s := by
  obtain ⟨header, rest, hheaders, hplace, hrest⟩ := List.map_eq_cons_iff.mp hplaces
  rw [List.map_eq_nil_iff.mp hrest] at hheaders
  have hcount : header.keys.contents.length = 1 := by
    have hlength := congrArg List.length hplace
    rwa [PageHeader.places, List.length_map] at hlength
  have hroom : Refills .source 1 := by
    intro used hused
    rw [Nat.lt_one_iff.mp hused]
    decide
  refine ⟨fun page x hx _ ↦ ?_, hdumped, ?_, fun x hx ↦ ?_⟩
  · have hmem := List.mem_of_getElem? hx
    rw [hheaders, List.mem_singleton] at hmem
    rw [hmem, hplace]
    exact ⟨.inl rfl, trivial⟩
  · rw [hheaders]
    exact hroom
  · rw [hheaders, List.mem_singleton] at hx
    rw [hx, hcount]
    exact hroom

/-- A key is inserted, and the process is started again. -/
theorem servesLive_one_restart : ∃ start,
    dbStart hashmapCalls .source (fun _ ↦ 0) hashmapNew [] [] [] = .ok start ∧
      ServesLive .source start [.operation (letterCall .insert), .restart fun _ ↦ 0] := by
  have hstored : (dbStart hashmapCalls .source (fun _ ↦ 0) hashmapNew [] [] [] >>= fun start ↦
      sessionStep .source start (.operation (letterCall .insert))).toOption.map (fun result ↦
        (result.1.storage.headers.map PageHeader.places, result.1.storage.disk.keysDumped,
          listedNames result.1.storage)) = some ([[0]], 0, [.ofByte 107]) := by
    decide +kernel
  have hstart := dbStart_empty .source (fun _ ↦ 0) []
  rw [hstart, ok_bind] at hstored
  refine ⟨_, hstart, servesLive_of_eventFits hstart ?_ ⟨⟨⟨fun _ _ _ ↦ ⟨⟨?_, ?_, ?_⟩, ?_⟩, ?_⟩, ?_⟩,
    fun next output hnext ↦ ⟨?_, fun _ _ _ ↦ trivial⟩⟩⟩
  · rw [List.forall_mem_cons, List.forall_mem_singleton]
    exact ⟨⟨by decide, .inr (.inr (.inl rfl))⟩, trivial⟩
  · decide
  · intro index header hfirst
    cases hfirst.here
  · refine .inr ⟨?_, by decide, by decide, by decide⟩
    intro x hx
    cases hx
  · exact fun _ _ _ ↦ ⟨trivial, fun hfull ↦ absurd hfull (by decide)⟩
  · exact fun hdelete ↦ absurd hdelete (by decide)
  · intro _ _ _ index header hfirst
    cases hfirst.here
  · rw [hnext] at hstored
    obtain ⟨hplaces, hrest⟩ := Prod.mk.inj (Option.some.inj hstored)
    obtain ⟨hdumped, hnames⟩ := Prod.mk.inj hrest
    refine ⟨savable_one_value hplaces hdumped, ?_⟩
    rw [hnames]
    exact ⟨fun _ _ _ ↦ ⟨trivial, fun hfull ↦ absurd hfull (by decide)⟩, fun _ _ _ ↦ trivial⟩

/-- A key is inserted, a snapshot is taken, and the process is started again: the count of dumped
keys has the key twice, and the assertion on it fails. -/
theorem not_servesLive_snapshot : ∃ start,
    dbStart hashmapCalls .source (fun _ ↦ 0) hashmapNew [] [] [] = .ok start ∧
      ¬ ServesLive .source start
        [.operation (letterCall .insert), .snapshot, .restart fun _ ↦ 0] := by
  have hfails : (dbStart hashmapCalls .source (fun _ ↦ 0) hashmapNew [] [] [] >>= fun start ↦
      run (sessionStep .source) start
        [.operation (letterCall .insert), .snapshot, .restart fun _ ↦ 0]).toOption.isSome = false := by
    decide +kernel
  refine ⟨_, dbStart_empty .source (fun _ ↦ 0) [], ?_⟩
  rintro ⟨db, outputs, hrun, -⟩
  rw [dbStart_empty, ok_bind, hrun] at hfails
  cases hfails

end Session

end FGDB.Restart
