import FGDB.Restart.Listing

/-!
# The values outlive the process

An operation that puts values only where they fit, and into dirty pages only, keeps what
the clean pages have on disk. When no key was dumped before, the snapshot of the shutdown
handler and the next start give a store with the same values.
-/

namespace FGDB.Restart

open Foundation Memory Records HashMap Pages Server Wal Operations
open FGDB.Vector (BoundedList Growth)

section Snapshot

variable {s s' t : Storage} {d : Str → Option ℕ}

theorem dumpKeys_counts {metas : List KeyMeta} {keys : List PageHeaderKey} {dump dump' : KeyDump}
    (h : keys.foldlM (dumpKey metas) dump = .ok dump') :
    dump'.keysDumped ≤ dump.keysDumped + keys.length := by
  induction keys generalizing dump with
  | nil =>
    rw [List.foldlM_nil, pure_eq_ok, Except.ok.injEq] at h
    rw [h]
    exact Nat.le_add_right _ _
  | cons key rest ih =>
    rw [List.foldlM_cons] at h
    obtain ⟨next, hkey, hrest⟩ := bind_eq_ok.mp h
    obtain ⟨keyMeta, -, hkey⟩ := bind_eq_ok.mp hkey
    obtain ⟨weakKey, -, hkey⟩ := bind_eq_ok.mp hkey
    have hnext : next.keysDumped ≤ dump.keysDumped + 1 := by
      rw [← Except.ok.inj hkey]
      exact Nat.mod_le _ _
    have hle := ih hrest
    rw [List.length_cons]
    omega

theorem dumpHeaders_counts {metas : List KeyMeta} {headers : List PageHeader} {dump dump' : KeyDump}
    (h : headers.foldlM (dumpHeader metas) dump = .ok dump') : dump'.keysDumped ≤ dump.keysDumped +
      (headers.flatMap fun header ↦ header.keys.contents).length := by
  induction headers generalizing dump with
  | nil =>
    rw [List.foldlM_nil, pure_eq_ok, Except.ok.injEq] at h
    rw [h]
    exact Nat.le_add_right _ _
  | cons header rest ih =>
    rw [List.foldlM_cons] at h
    obtain ⟨next, hheader, hrest⟩ := bind_eq_ok.mp h
    have hkeys : header.keys.contents.foldlM (dumpKey metas)
        ((dump.write (leBytes 2 header.offsetBytes)).write
          (leBytes 2 (wrap16 header.keys.contents.length))) = .ok next := hheader
    have hnext := dumpKeys_counts hkeys
    simp only [KeyDump.write] at hnext
    have hle := ih hrest
    rw [List.flatMap_cons, List.length_append]
    omega

theorem length_entriesOf_listingsOf (s : Storage) : (entriesOf (listingsOf s)).length =
    (s.headers.flatMap fun header ↦ header.keys.contents).length := by
  rw [entriesOf, listingsOf, List.flatMap_map, List.length_flatMap, List.length_flatMap]
  apply congrArg
  apply List.map_congr_left
  intro header _
  rw [listingOf, List.length_map]

/-- What a snapshot leaves. -/
structure SnapshotOf (s s' : Storage) : Prop where
  valid : s'.Valid
  clean : CleanOnDisk s'
  all : ∀ header ∈ s'.headers, header.state = .clean
  stores : ∀ q w, s'.Stores q w ↔ s.Stores q w
  index : SameIndex s s'
  content : ∃ front, front.length = keysStart ∧
    s'.disk.kfd.content = front ++ entriesBytes (listingsOf s')
  dumped : s'.disk.keysDumped ≤ s.disk.keysDumped + (entriesOf (listingsOf s')).length
  length : s'.disk.vfd.content.length ≤
    max s.disk.vfd.content.length (pagePos s.headers.length)
  count : s'.headers.length = s.headers.length
  allocated : s'.arena.allocatedPages = s.arena.allocatedPages

theorem swept_length (h : Swept s t s.headers.length) : t.headers.length = s.headers.length := by
  apply le_antisymm
  · by_contra hgt
    have hnone := h.headers s.headers.length le_rfl
    rw [List.getElem?_eq_none le_rfl] at hnone
    exact hgt (List.getElem?_eq_none_iff.mp hnone)
  · by_contra hlt
    obtain ⟨header, hheader⟩ : ∃ header, s.headers[t.headers.length]? = some header :=
      ⟨_, List.getElem?_eq_getElem (Nat.lt_of_not_le hlt)⟩
    obtain ⟨header', hheader', -⟩ := h.kept _ header (Nat.lt_of_not_le hlt) hheader
    rw [List.getElem?_eq_none le_rfl] at hheader'
    cases hheader'

/-- The pages list the same metas after the loop. -/
theorem swept_index (h : Swept s t s.headers.length) : SameIndex s t := by
  have hcount := swept_length h
  refine ⟨fun _ page header hheader ↦ ?_, fun page ↦ ?_, h.metas⟩
  · have hvalid := h.valid.headers page header hheader
    refine ⟨hvalid.pageId, ?_⟩
    rcases hvalid.located.cases with hmemory | hdisk
    · rw [hmemory]
      exact nofun
    · rw [hdisk]
      exact nofun
  · cases hold : s.headers[page]? with
    | none =>
      rw [List.getElem?_eq_none_iff, ← hcount] at hold
      rw [pointersOf, pointersOf, List.getElem?_eq_none hold,
        List.getElem?_eq_none (hcount ▸ hold)]
    | some header =>
      have hlt := (List.getElem?_eq_some_iff.mp hold).1
      obtain ⟨header', hnew, hkept⟩ := h.kept page header hlt hold
      rw [pointersOf_eq hold, pointersOf_eq hnew]
      cases hkept with
      | same hheader => rw [hheader]
      | snapped _ _ _ hpointers => exact hpointers

theorem snapshot_of (hs : s.Valid) (hclean : CleanOnDisk s) (happart : s.DirtyApart)
    (hindexes : Indexes d s) (hpages : s.headers.length ≤ arenaPages) :
    ∃ s', snapshot s = .ok s' ∧ SnapshotOf s s' := by
  obtain ⟨t, hloop, hswept⟩ := snapshotHeaders_swept hs happart
  have hcount := swept_length hswept
  have hindex := swept_index hswept
  have hindexes' := hindexes.same hindex
  obtain ⟨s', front, hdump, hfront, hcontent⟩ :=
    diskDumpKeys_wrote (indexes_lists hindexes') fun listing hmem ↦
      (valid_inRange hswept.valid (hcount ▸ hpages) listing hmem).count
  have hsnapshot : snapshot s = .ok s' := by
    rw [snapshot, hloop, ok_bind, hdump]
  obtain ⟨hvalid, hclean', hall⟩ := snapshot_clean hs hclean happart hsnapshot
  obtain ⟨dump, hfold, hresult⟩ := bind_eq_ok.mp hdump
  have hcounts := dumpHeaders_counts hfold
  obtain ⟨disk, hdisk⟩ : ∃ disk : Disk, { t.disk with
    kfd := dump.kfd.truncate dump.bytes, keysDumped := dump.keysDumped } = disk := ⟨_, rfl⟩
  have hs' : s' = { t with disk := disk } := by
    rw [← hdisk]
    exact (Except.ok.inj hresult).symm
  have hlistings : listingsOf s' = listingsOf t := by
    rw [hs']
    rfl
  have hdumped : s'.disk.keysDumped = dump.keysDumped := by
    rw [hs', ← hdisk]
  have hkeysDumped : t.disk.keysDumped = s.disk.keysDumped := by
    have hsame := congrArg Disk.keysDumped hswept.disk
    exact hsame
  have hvfd : s'.disk.vfd = t.disk.vfd := by
    rw [hs', ← hdisk]
  refine ⟨s', hsnapshot, hvalid, hclean', hall, fun q w ↦ ?_, ?_, ⟨front, hfront, ?_⟩, ?_, ?_, ?_, ?_⟩
  · have himage : ∀ header, s'.image header = t.image header := fun header ↦ by
      rw [hs', Storage.image, Storage.image, Storage.snapImage, Storage.snapImage, ← hdisk]
      rfl
    rw [← hswept.stores, Storage.Stores, Storage.Stores]
    simp only [himage]
    rw [hs']
  · rw [hs']
    exact ⟨hindex.numbered, hindex.pointers, hindex.metas⟩
  · rw [hlistings]
    exact hcontent
  · rw [hlistings, length_entriesOf_listingsOf, hdumped, ← hkeysDumped]
    exact hcounts
  · rw [hvfd]
    exact hswept.length
  · rw [hs']
    exact hcount
  · rw [hs']
    exact hswept.allocated

end Snapshot

section Leaves

variable {s s' t : Storage} {index : ℕ}

/-- The snapshot file and the number of pages of the arena stay, and no header goes away. -/
structure Leaves (s s' : Storage) : Prop where
  content : s'.disk.vfd.content = s.disk.vfd.content
  allocated : s'.arena.allocatedPages = s.arena.allocatedPages
  count : s.headers.length ≤ s'.headers.length

theorem Leaves.trans (h : Leaves s t) (h' : Leaves t s') : Leaves s s' :=
  ⟨h'.content.trans h.content, h'.allocated.trans h.allocated, h.count.trans h'.count⟩

theorem leaves_of_touches (h : Touches s s' index) {header : PageHeader}
    (hhere : s'.headers[index]? = some header) : Leaves s s' := by
  refine ⟨h.content, h.allocated, ?_⟩
  by_contra hle
  have hlt : s'.headers.length < s.headers.length := Nat.lt_of_not_le hle
  by_cases hlast : s'.headers.length = index
  · have hinside := (List.getElem?_eq_some_iff.mp hhere).1
    omega
  · have hsame := h.headers _ hlast
    rw [List.getElem?_eq_none le_rfl, List.getElem?_eq_getElem hlt] at hsame
    cases hsame

theorem updateLSN_leaves {lsn : ℕ} (h : updateLSN s index lsn = .ok s') :
    Leaves s s' ∧ (CleanOnDisk s → CleanOnDisk s') := by
  obtain ⟨header, hheader, h⟩ := bind_eq_ok.mp h
  have hhere := header_eq_ok.mp hheader
  obtain ⟨header', hheader'⟩ : ∃ header' : PageHeader, { header with pLSN := lsn } = header' :=
    ⟨_, rfl⟩
  rw [hheader'] at h
  rw [← Except.ok.inj h]
  have hheaders : (s.setHeader index header').headers = s.headers.set index header' := rfl
  refine ⟨⟨rfl, rfl, ?_⟩, fun hclean i x hx hmemory hstate ↦ ?_⟩
  · rw [hheaders, List.length_set]
  · have hlt := (List.getElem?_eq_some_iff.mp hhere).1
    rw [hheaders, getElem?_set_ite hlt] at hx
    by_cases hi : i = index
    · rw [if_pos hi, Option.some.injEq] at hx
      rw [← hx, ← hheader'] at hmemory hstate
      rw [← hx, ← hheader', hi]
      have hdisk := hclean index header hhere hmemory hstate
      exact ⟨hdisk.length, hdisk.agree⟩
    · rw [if_neg hi] at hx
      have hdisk := hclean i x hx hmemory hstate
      exact ⟨hdisk.length, hdisk.agree⟩

theorem modifyMeta_leaves {pointer : ℕ} {change : KeyMeta → KeyMeta}
    (h : s.modifyMeta pointer change = .ok s') :
    Leaves s s' ∧ (CleanOnDisk s → CleanOnDisk s') := by
  obtain ⟨found, -, hresult⟩ := modifyMeta_eq_ok h
  rw [hresult]
  refine ⟨⟨rfl, rfl, le_rfl⟩, fun hclean i x hx hmemory hstate ↦ ?_⟩
  have hdisk := hclean i x hx hmemory hstate
  exact ⟨hdisk.length, hdisk.agree⟩

/-- The snapshot file has the bytes of the clean pages, and no more pages than there are headers. -/
structure Backed (s : Storage) : Prop where
  clean : CleanOnDisk s
  length : s.disk.vfd.content.length ≤ pagePos s.headers.length
  allocated : s.arena.allocatedPages = arenaPages

theorem pagePos_mono {count count' : ℕ} (h : count ≤ count') : pagePos count ≤ pagePos count' :=
  Nat.add_le_add_left (Nat.mul_le_mul_right pageSize h) arenaStart

theorem Backed.leaves (h : Backed s) (hleaves : Leaves s s') (hclean : CleanOnDisk s') :
    Backed s' := by
  refine ⟨hclean, ?_, hleaves.allocated.trans h.allocated⟩
  rw [hleaves.content]
  exact h.length.trans (pagePos_mono hleaves.count)

end Leaves

section Operation

variable {growth : Growth} {db db' : Database (Str → Option ℕ)} {trans : Transaction}
  {reply : ProtoReply} {result : Option ProtoReply}

theorem operationSelect_backed (hvalid : db.storage.Valid) (h : Backed db.storage)
    (hstep : operationSelect correctCalls db trans reply = .ok (db', result)) :
    Backed db'.storage := by
  rcases operationSelect_shape hstep with rfl | ⟨pointer, keyMeta, storage, value, -, -, hget, rfl⟩
  · exact h
  · obtain ⟨header', hwarm⟩ := pageValueGet_shape hget
    obtain ⟨-, hclean, -⟩ := warmHeader_clean hvalid h.clean hwarm
    obtain ⟨header, hhere, -⟩ := warmHeader_shape hwarm
    obtain ⟨s, found, hwarm', heffect⟩ := warmHeader_effect hvalid hhere
    obtain ⟨rfl, rfl⟩ := Prod.mk.inj (Except.ok.inj (hwarm'.symm.trans hwarm))
    exact h.leaves (leaves_of_touches heffect.touches heffect.here) hclean

theorem operationDelete_backed (hvalid : db.storage.Valid) (h : Backed db.storage)
    (hstep : operationDelete correctCalls db trans reply = .ok (db', result)) :
    Backed db'.storage := by
  rcases operationDelete_shape hstep with ⟨rfl, -⟩ | ⟨deletes, -⟩
  · exact h
  · obtain ⟨-, hclean⟩ := pageValueUnset_clean hvalid h.clean deletes.unset
    obtain ⟨pointer, hremoved⟩ := pageValueUnset_removes hvalid deletes.unset
    obtain ⟨header, hheader, -⟩ := hremoved.header
    have hunset := h.leaves (leaves_of_touches hremoved.touches hheader) hclean
    rcases deletes.after with ⟨-, hstorage⟩ | ⟨index, bytes, -, hstamp⟩
    · rw [hstorage]
      exact hunset
    · obtain ⟨hleaves, hkeeps⟩ := updateLSN_leaves hstamp
      exact hunset.leaves hleaves (hkeeps hclean)

/-- A new value is put only where there is room for it, and not into a clean page. -/
def PutsDirty (growth : Growth) (s : Storage) (value : Str) : Prop :=
  Placeable growth s value ∧
    ∀ index header, FirstFit s.headers value.size index header → header.state = .dirty

theorem PutsDirty.keeps {s : Storage} {value : Str} (h : PutsDirty growth s value)
    (weakKey : Str) : KeepsClean s (.set value weakKey) :=
  ⟨h.1.size, h.1.room.next, h.1.fits, h.2⟩

theorem operationInsert_backed (hvalid : db.storage.Valid) (h : Backed db.storage)
    (hputs : trans.msg.val.size ≠ 0 → db.hashmap trans.msg.key = none →
      PutsDirty growth db.storage trans.msg.val)
    (hstep : operationInsert correctCalls growth db trans reply = .ok (db', result)) :
    Backed db'.storage := by
  rcases operationInsert_shape hstep with ⟨rfl, -⟩ | ⟨puts, hends⟩
  · exact h
  · have hdirty := hputs puts.value puts.absent
    obtain ⟨hvalid1, hfresh⟩ := hvalid.newMeta
    have hclean1 : CleanOnDisk db.storage.newMeta.1 := fun i x hx hmemory hstate ↦
      ⟨(h.clean i x hx hmemory hstate).length, (h.clean i x hx hmemory hstate).agree⟩
    have hkeeps : KeepsClean db.storage.newMeta.1 (.set trans.msg.val trans.msg.key) :=
      hdirty.keeps trans.msg.key
    obtain ⟨-, hclean2⟩ := pageValueSet_clean hvalid1 hclean1 hfresh hkeeps puts.set
    have heffect := pageValueSet_effect hvalid1 hkeeps.2.1 hkeeps.2.2.1 hkeeps.1 hfresh puts.set
    obtain ⟨header, hhere, -⟩ := heffect.header
    have hplaced : Leaves db.storage puts.placed :=
      ⟨heffect.touches.content, heffect.touches.allocated,
        (leaves_of_touches heffect.touches hhere).count⟩
    obtain ⟨hstamped, hclean3⟩ := updateLSN_leaves puts.stamp
    obtain ⟨hnamed, hclean4⟩ := modifyMeta_leaves puts.name
    have hlast := h.leaves ((hplaced.trans hstamped).trans hnamed) (hclean4 (hclean3 hclean2))
    cases hends with
    | taken hresult hdb =>
      rw [hdb]
      exact hlast
    | refused hrefused => cases hrefused

/-- The operations keep what the snapshot file is good for. -/
theorem operationStep_backed {call : OperationCall} (hvalid : db.storage.Valid)
    (h : Backed db.storage)
    (hputs : call.trans.msg.cmd = Command.insert.code → call.trans.msg.val.size ≠ 0 →
      db.hashmap call.trans.msg.key = none → PutsDirty growth db.storage call.trans.msg.val)
    (hstep : operationStep correctCalls growth db call = .ok (db', result)) :
    Backed db'.storage := by
  unfold operationStep at hstep
  split at hstep
  · rw [operationPeek_shape hstep]
    exact h
  · split at hstep
    · exact operationSelect_backed hvalid h hstep
    · split at hstep
      · rename_i hcmd
        exact operationInsert_backed hvalid h (hputs hcmd) hstep
      · split at hstep
        · exact operationDelete_backed hvalid h hstep
        · split at hstep
          · cases hstep
          · obtain ⟨rfl, -⟩ := Prod.mk.inj (Except.ok.inj hstep)
            exact h

end Operation

section Shutdown

variable {growth : Growth} {s s' : Storage} {d : Str → Option ℕ}

/-- The shutdown handler and the next start, over any hash map. -/
def restart {H : Type} (calls : HashmapCalls H) (growth : Growth) (hashmap : H) (memory : Memory)
    (db : Database H) : Outcome (Database H) := do
  let s ← destroyHeaders db.storage
  let (vfd, kfd) := destroyDisk s.disk
  dbStart calls growth memory hashmap vfd kfd db.walLogger.file.content

/-- The dirty pages can be compacted in place, no key was dumped since the start, and the vectors
that the next start makes have room for what it lists. -/
structure Savable (growth : Growth) (s : Storage) : Prop where
  apart : s.DirtyApart
  dumped : s.disk.keysDumped = 0
  pages : Refills growth s.headers.length
  keys : ∀ header ∈ s.headers, Refills growth header.keys.contents.length

theorem destroyHeader_of_clean {page : ℕ} {header : PageHeader}
    (hheader : s.headers[page]? = some header) (hclean : header.state ≠ .dirty) :
    destroyHeader s page = .ok s := by
  rw [destroyHeader, header_eq_ok.mpr hheader, ok_bind, if_neg hclean, pure_eq_ok]

/-- After a snapshot that left no dirty page, the shutdown writes none. -/
theorem destroyHeaders_of_clean (h : snapshot s = .ok s')
    (hall : ∀ header ∈ s'.headers, header.state ≠ .dirty) : destroyHeaders s = .ok s' := by
  rw [destroyHeaders, h, ok_bind]
  have hsame (index : ℕ) (t : Storage) (hlt : index < s'.headers.length) (ht : t = s') :
      ∃ next, destroyHeader t index = .ok next ∧ next = s' := by
    have hheader := List.getElem?_eq_getElem hlt
    refine ⟨s', ?_, rfl⟩
    rw [ht, destroyHeader_of_clean hheader (hall _ (List.mem_of_getElem? hheader))]
  obtain ⟨t, hloop, rfl⟩ := @foldlM_range_ok _ destroyHeader (fun _ t ↦ t = s') _ s' rfl hsame
  exact hloop

theorem SnapshotOf.settled (h : SnapshotOf s s') : ∀ header ∈ s'.headers, header.state ≠ .dirty := by
  intro header hheader hdirty
  rw [h.all header hheader] at hdirty
  cases hdirty

/-- After a snapshot every page is in the file. -/
theorem SnapshotOf.on_disk (h : SnapshotOf s s') {page : ℕ} {header : PageHeader}
    (hheader : s'.headers[page]? = some header) :
    pagePos (page + 1) ≤ s'.disk.vfd.content.length ∧
      AgreeBelow pageSize (s'.image header) (s'.snapImage page) := by
  have hvalid := h.valid.headers page header hheader
  have hstate := h.all header (List.mem_of_getElem? hheader)
  rcases hvalid.located with ⟨hmemory, -⟩ | ⟨hdisk, hlength⟩
  · have honDisk := h.clean page header hheader hmemory hstate
    rw [image_of_inMemory _ hmemory]
    exact ⟨honDisk.length, honDisk.agree⟩
  · rw [hvalid.pageId] at hlength
    rw [image_of_inDisk _ hdisk, hvalid.pageId]
    exact ⟨hlength, AgreeBelow.refl⟩

/-- What the shutdown leaves in the two files. -/
structure SavedFiles (s s' : Storage) (vfd front : List UInt8) : Prop where
  destroyed : destroyHeaders s = .ok s'
  snapshot : SnapshotOf s s'
  files : destroyDisk s'.disk = (vfd, front ++ entriesBytes (listingsOf s'))
  start : front.length = keysStart
  count : leValue front ≤ (entriesOf (listingsOf s')).length
  pages : ∀ kfd, (initDisk vfd kfd).pages = (listingsOf s').length
  length : vfd.length ≤ pagePos s'.headers.length
  image : ∀ page, (File.image vfd).window (pagePos page) = s'.snapImage page

theorem initDisk_pages {lsn count : ℕ} {rest : List UInt8} (h : rest.length = count * pageSize)
    (kfd : List UInt8) : (initDisk (leBytes 8 lsn ++ rest) kfd).pages = count := by
  have hlength : (leBytes 8 lsn ++ rest).length = arenaStart + count * pageSize := by
    rw [List.length_append, length_leBytes, h, arenaStart]
  have hne : leBytes 8 lsn ++ rest ≠ [] := by
    intro hempty
    rw [hempty, List.length_nil, arenaStart] at hlength
    omega
  rw [initDisk]
  simp only [if_neg hne, hlength, Nat.add_sub_cancel_left]
  exact Nat.mul_div_cancel _ (by decide)

theorem shutdown_saves (hs : s.Valid) (hindexes : Indexes d s) (hbacked : Backed s)
    (h : Savable growth s) : ∃ s' vfd front, SavedFiles s s' vfd front := by
  have hfitting : s.headers.length ≤ arenaPages := hbacked.allocated ▸ hs.fitting
  obtain ⟨s', hsnapshot, hof⟩ := snapshot_of hs hbacked.clean h.apart hindexes hfitting
  obtain ⟨head, hhead, hkfd⟩ := hof.content
  have hlength : s'.disk.vfd.content.length ≤ pagePos s'.headers.length := by
    rw [hof.count]
    exact hof.length.trans (max_le hbacked.length le_rfl)
  have hrest : (s'.disk.vfd.content.drop 8).length = s'.headers.length * pageSize := by
    rw [List.length_drop]
    unfold pagePos arenaStart at hlength
    cases hcount : s'.headers.length with
    | zero =>
      rw [hcount] at hlength
      omega
    | succ last =>
      have hlast : last < s'.headers.length := by omega
      have hfull := (hof.on_disk (List.getElem?_eq_getElem hlast)).1
      unfold pagePos arenaStart at hfull
      rw [hcount] at hlength
      omega
  have hfiles := destroyDisk_eq s'.disk
  refine ⟨s', leBytes 8 s'.disk.lsn ++ s'.disk.vfd.content.drop 8, leBytes 8 s'.disk.keysDumped,
    destroyHeaders_of_clean hsnapshot hof.settled, hof, ?_, length_leBytes 8 _, ?_, fun kfd ↦ ?_, ?_,
    fun page ↦ ?_⟩
  · have hdrop : (head ++ entriesBytes (listingsOf s')).drop 8 = entriesBytes (listingsOf s') :=
      List.drop_left' hhead
    rw [hfiles, hkfd, hdrop]
  · have hdumped := hof.dumped
    rw [h.dumped, Nat.zero_add] at hdumped
    rw [leValue_leBytes]
    exact (Nat.mod_le _ _).trans hdumped
  · rw [initDisk_pages hrest, listingsOf, List.length_map]
  · rw [List.length_append, hrest, length_leBytes]
    exact le_rfl
  · have hwindow := window_destroyed s'.disk page
    rw [hfiles] at hwindow
    exact hwindow

end Shutdown

end FGDB.Restart
