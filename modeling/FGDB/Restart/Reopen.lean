import FGDB.Restart.SnapshotFiles

/-!
# The files outlive the process

The shutdown handler takes a snapshot, writes the LSN and the count of dumped keys
to the heads of the two files and ends the process. The next start finds the pages
and the keys that the files list, and the logger counts from zero again.
-/

namespace FGDB.Restart

open Foundation Memory Records HashMap Pages Server Wal Operations
open FGDB.Vector (BoundedList Growth)

/-- The shutdown handler and the next start. -/
def reopen (memory : Memory) (db : Database (Str → Option ℕ)) :
    Outcome (Database (Str → Option ℕ)) := do
  let s ← destroyHeaders db.storage
  let (vfd, kfd) := destroyDisk s.disk
  dbStart correctCalls .source memory (fun _ ↦ none) vfd kfd db.walLogger.file.content

section Shutdown

variable {s s' : Storage} {header : PageHeader}

theorem destroyHeaders_no_page (h : destroyHeaders s = .ok s')
    (hempty : ∀ s', snapshot s = .ok s' → s'.headers = []) : snapshot s = .ok s' := by
  obtain ⟨s1, hsnapshot, h⟩ := bind_eq_ok.mp h
  have hcontents : s1.arena.headers.contents = [] := hempty s1 hsnapshot
  rw [hcontents] at h
  rwa [← Except.ok.inj h]

/-- The pages are clean when the headers are destroyed. -/
theorem destroyHeaders_clean (h : destroyHeaders s = .ok s') (hclean : ∀ s', snapshot s = .ok s' →
    ∃ header, s'.headers = [header] ∧ header.state ≠ .dirty) : snapshot s = .ok s' := by
  obtain ⟨s1, hsnapshot, h⟩ := bind_eq_ok.mp h
  obtain ⟨header, hheaders, hstate⟩ := hclean s1 hsnapshot
  have hcontents : s1.arena.headers.contents = [header] := hheaders
  have hdestroy : destroyHeader s1 0 = .ok s1 := by
    rw [destroyHeader, header_zero hheaders, ok_bind, if_neg hstate, pure_eq_ok]
  rw [hcontents, List.length_singleton, List.range_one, List.foldlM_cons, hdestroy] at h
  rwa [← Except.ok.inj h]

theorem write_start (file : File) (data : List UInt8) :
    ((file.seek 0).write data).content = data ++ file.content.drop data.length := by
  by_cases hdata : data = []
  · rw [hdata, File.write_nil]
    rfl
  · rw [File.write, File.patch, if_neg hdata]
    simp [File.seek]

theorem initDisk_lsn {lsn : ℕ} (hlt : lsn < 2 ^ 64) (rest kfd : List UInt8) :
    (initDisk (leBytes 8 lsn ++ rest) kfd).lsn = lsn := by
  have htake : (leBytes 8 lsn ++ rest).take arenaStart = leBytes 8 lsn :=
    List.take_left' (length_leBytes 8 lsn)
  have hfilled : overwrite (List.replicate 8 0) (leBytes 8 lsn) = leBytes 8 lsn :=
    overwrite_of_length_le (length_leBytes 8 lsn).ge
  have hvalue : leValue (leBytes 8 lsn) = lsn := leValue_leBytes_of_lt (hlt.trans_eq (by norm_num))
  rw [initDisk]
  simp only [htake, hfilled, hvalue]

/-- The head of the snapshot file is in front of the pages. -/
theorem window_destroyed (disk : Disk) (page : ℕ) :
    (File.image (destroyDisk disk).1).window (pagePos page) =
      (File.image disk.vfd.content).window (pagePos page) := by
  have himage : File.image (destroyDisk disk).1 =
      (File.image disk.vfd.content).store 0 (leBytes 8 disk.lsn) := by
    rw [destroyDisk]
    exact File.image_patch disk.vfd.content 0 (leBytes 8 disk.lsn)
  funext place
  rw [Memory.window, Memory.window, himage]
  apply store_of_le
  rw [length_leBytes, pagePos, arenaStart]
  omega

theorem destroyDisk_eq (disk : Disk) : destroyDisk disk =
    (leBytes 8 disk.lsn ++ disk.vfd.content.drop 8,
      leBytes 8 disk.keysDumped ++ disk.kfd.content.drop 8) := by
  rw [destroyDisk, write_start, write_start, length_leBytes, length_leBytes]

end Shutdown

section Reload

variable {st st' : Startup (Str → Option ℕ)}

/-- The only page lists some keys of the file, and the rest is as it was at the start. -/
structure Uploaded (start : Storage) (offsetBytes : ℕ) (st : Startup (Str → Option ℕ))
    (header : PageHeader) (done : List HashmapKey) : Prop where
  headers : st.storage.headers = [header]
  offset : header.offsetBytes = offsetBytes
  state : header.state = .clean
  keys : List.Forall₂ (ListsKey st.storage.metas) header.keys.contents done
  disk : st.storage.disk = start.disk
  uploaded : st.storage.arena.uploadedPages = start.arena.uploadedPages
  allocated : st.storage.arena.allocatedPages = start.arena.allocatedPages

theorem openPage_uploaded {offsetBytes count : ℕ} (hempty : st.storage.headers = [])
    (hopen : openPage .source 0 st offsetBytes count = .ok st') :
    ∃ header, Uploaded st.storage offsetBytes st' header [] := by
  obtain ⟨headers, hadd, h⟩ := bind_eq_ok.mp hopen
  have hcontents := (BoundedList.add_eq_ok.mp hadd).2.1
  have hold : st.storage.arena.headers.contents = [] := hempty
  rw [hold, List.nil_append] at hcontents
  rw [← Except.ok.inj h]
  exact ⟨_, hcontents, rfl, rfl, .nil, rfl, rfl, rfl⟩

theorem ListsKey.append {metas : List KeyMeta} {key : PageHeaderKey} {entry : HashmapKey}
    (h : ListsKey metas key entry) (more : List KeyMeta) : ListsKey (metas ++ more) key entry := by
  obtain ⟨keyMeta, hmeta, hnamed⟩ := h.found
  have hlt := (List.getElem?_eq_some_iff.mp hmeta).1
  exact ⟨⟨keyMeta, (List.getElem?_append_left hlt).trans hmeta, hnamed⟩, h.offset⟩

theorem uploadKey_uploaded {start : Storage} {offsetBytes : ℕ} {header : PageHeader}
    {done : List HashmapKey} {entry : HashmapKey} (hoffset : entry.offset < 2 ^ 16)
    (hpage : entry.pageId = 0) (h : Uploaded start offsetBytes st header done)
    (hupload : uploadKey correctCalls .source 0 st entry = .ok st') :
    ∃ header', Uploaded start offsetBytes st' header' (done ++ [entry]) := by
  obtain ⟨found, keys, hhere, hadd, hstorage, -⟩ := uploadKey_shape hupload
  rw [h.headers, List.getElem?_cons_zero, Option.some.injEq] at hhere
  rw [← hhere] at hadd hstorage
  have hkeys := (BoundedList.add_eq_ok.mp hadd).2.1
  obtain ⟨index, hindex⟩ : ∃ index, wrap16 (keys.contents.length - 1) = index := ⟨_, rfl⟩
  rw [hindex] at hstorage
  have hlast : ListsKey (st.storage.metas ++ [⟨some entry.key, index, 0⟩])
      ⟨wrap16 entry.offset, st.storage.metas.length⟩ entry := by
    refine ⟨⟨_, List.getElem?_concat_length, rfl, hpage.symm⟩, Nat.mod_eq_of_lt hoffset⟩
  refine ⟨{ header with keys := keys }, ?_, h.offset, h.state, ?_, ?_, ?_, ?_⟩
  · rw [hstorage]
    change st.storage.headers.set 0 _ = _
    rw [h.headers, List.set_cons_zero]
  · rw [hstorage]
    change List.Forall₂ (ListsKey (st.storage.metas ++ _)) keys.contents _
    rw [hkeys]
    exact List.rel_append (h.keys.imp fun _ _ hkey ↦ hkey.append _) (.cons hlast .nil)
  · rw [hstorage]
    exact h.disk
  · rw [hstorage]
    exact h.uploaded
  · rw [hstorage]
    exact h.allocated

theorem uploadKeys_uploaded {start : Storage} {offsetBytes : ℕ} {header : PageHeader}
    {done entries : List HashmapKey} (hentries : ∀ entry ∈ entries, entry.offset < 2 ^ 16)
    (hpages : ∀ entry ∈ entries, entry.pageId = 0) (h : Uploaded start offsetBytes st header done)
    (hupload : entries.foldlM (uploadKey correctCalls .source 0) st = .ok st') :
    ∃ header', Uploaded start offsetBytes st' header' (done ++ entries) := by
  induction entries generalizing st header done with
  | nil =>
    rw [List.foldlM_nil, pure_eq_ok, Except.ok.injEq] at hupload
    rw [← hupload, List.append_nil]
    exact ⟨header, h⟩
  | cons entry rest ih =>
    rw [List.forall_mem_cons] at hentries hpages
    rw [List.foldlM_cons] at hupload
    obtain ⟨st1, hfirst, hrest⟩ := bind_eq_ok.mp hupload
    obtain ⟨header1, hfirst⟩ := uploadKey_uploaded hentries.1 hpages.1 h hfirst
    have hlast := ih hentries.2 hpages.2 hfirst hrest
    rwa [List.append_assoc, List.singleton_append] at hlast

end Reload

section Reopen

variable {s : Storage} {db : Database (Str → Option ℕ)} {memory : Memory} {log : List UInt8}

/-- A start that succeeds on files without a page finds an empty store. -/
theorem dbStart_no_page {vfd kfd : List UInt8} (hlength : vfd.length ≤ arenaStart)
    (h : dbStart correctCalls .source memory (fun _ ↦ none) vfd kfd log = .ok db) :
    db = emptyStore memory arenaPages 0 (initDisk vfd kfd) (newWalLogger log 0 0) := by
  have hpages : (initDisk vfd kfd).pages = 0 := by
    unfold initDisk
    simp only []
    split
    · rfl
    · rw [Nat.sub_eq_zero_of_le hlength, Nat.zero_div]
  obtain ⟨⟨kfd', st⟩, hreload, h⟩ := bind_eq_ok.mp h
  rw [hpages, reloadPages, Except.ok.injEq, Prod.mk.injEq] at hreload
  rw [← hreload.1, ← hreload.2] at h
  by_cases hshort : 0 < (initDisk vfd kfd).nkeys
  · simp only [if_pos hshort] at h
    cases h
  · simp only [if_neg hshort] at h
    exact (Except.ok.inj h).symm

/-- The files list the only page, which is not dirty, and it can be brought into the arena. -/
structure Settled (s : Storage) (header : PageHeader) (listing : PageListing) : Prop where
  filed : Filed s header listing
  clean : header.state ≠ .dirty
  room : header.location = .inDisk → s.arena.uploadedPages < s.arena.allocatedPages

/-- The files have what they had. -/
structure Resettled (s s' : Storage) (listing : PageListing) : Prop where
  settled : ∃ header, Settled s' header listing
  image : s'.snapImage 0 = s.snapImage 0
  lsn : s'.disk.lsn = s.disk.lsn

/-- The store that a start makes from the files of another. -/
structure Reopened (s : Storage) (db : Database (Str → Option ℕ)) (listing : PageListing) :
    Prop extends Resettled s db.storage listing where
  walLogger : db.walLogger.lsn = 0
  records : db.records = []

theorem dbStart_filed {header : PageHeader} {listing : PageListing} (hfiled : Filed s header listing)
    (hlsn : s.disk.lsn < 2 ^ 64) (h : dbStart correctCalls .source memory (fun _ ↦ none)
      (destroyDisk s.disk).1 (destroyDisk s.disk).2 log = .ok db) : Reopened s db listing := by
  obtain ⟨front, hfront, hcontent⟩ := hfiled.content
  obtain ⟨vfd, hvfd⟩ : ∃ vfd, (destroyDisk s.disk).1 = vfd := ⟨_, rfl⟩
  obtain ⟨kfd, hkfd⟩ : ∃ kfd, (destroyDisk s.disk).2 = kfd := ⟨_, rfl⟩
  have hdisk := destroyDisk_eq s.disk
  rw [hvfd, hkfd] at h
  have hlength : vfd.length = pagePos 1 := by
    have hold := hfiled.length
    rw [← hvfd, hdisk, List.length_append, length_leBytes, List.length_drop, hold, pagePos,
      arenaStart]
    omega
  have hkeys : kfd = leBytes 8 s.disk.keysDumped ++ listing.encode := by
    have hdrop : (front ++ listing.encode).drop 8 = listing.encode := List.drop_left' hfront
    rw [← hkfd, hdisk, hcontent, hdrop]
  obtain ⟨⟨kfd', st⟩, hreload, h⟩ := bind_eq_ok.mp h
  rw [initDisk_pages_one hlength] at hreload
  have hfile : (initDisk vfd kfd).kfd =
      ⟨leBytes 8 s.disk.keysDumped ++ listing.encode, keysStart⟩ := by
    rw [← hkeys]
    rfl
  rw [hfile, reloadPages_one _ _ (length_leBytes 8 _) hfiled.inRange] at hreload
  obtain ⟨last, hvisit, hend⟩ := bind_eq_ok.mp hreload
  obtain ⟨st1, hopen, hvisit⟩ := bind_eq_ok.mp hvisit
  obtain ⟨st2, hupload, hvisit⟩ := bind_eq_ok.mp hvisit
  obtain ⟨header1, hopened⟩ := openPage_uploaded rfl hopen
  obtain ⟨header2, huploaded⟩ := uploadKeys_uploaded (fun entry hentry ↦
    (hfiled.inRange.keys entry hentry).1) hfiled.pageId hopened hupload
  have hlast : st2 = st := by
    rw [Except.ok.inj hvisit]
    exact (Prod.mk.inj (Except.ok.inj hend)).2
  rw [hlast, List.nil_append] at huploaded
  have hkfd' : kfd'.content = leBytes 8 s.disk.keysDumped ++ listing.encode :=
    congrArg File.content (Prod.mk.inj (Except.ok.inj hend)).1.symm
  by_cases hshort : st.keys < (initDisk vfd kfd).nkeys
  · simp only [if_pos hshort] at h
    cases h
  · simp only [if_neg hshort] at h
    have hdb := Except.ok.inj h
    have hdisk' : st.storage.disk = initDisk vfd kfd := huploaded.disk
    have hstate : header2.state ≠ .dirty := by
      rw [huploaded.state]
      decide
    have hrest : (initDisk vfd kfd).vfd.content = vfd := rfl
    rw [← hdb]
    refine ⟨⟨⟨header2, ⟨huploaded.headers, ⟨huploaded.offset, huploaded.keys⟩, hfiled.inRange,
      hfiled.pageId, ⟨_, length_leBytes 8 _, hkfd'⟩, ?_⟩, hstate, fun _ ↦ ?_⟩, ?_, ?_⟩, rfl, rfl⟩
    · change st.storage.disk.vfd.content.length = _
      rw [hdisk', hrest, hlength]
    · change st.storage.arena.uploadedPages < st.storage.arena.allocatedPages
      rw [huploaded.uploaded, huploaded.allocated]
      exact Nat.succ_pos 1023
    · change (File.image st.storage.disk.vfd.content).window (pagePos 0) = _
      rw [hdisk', hrest, ← hvfd]
      exact window_destroyed s.disk 0
    · change st.storage.disk.lsn = _
      rw [hdisk', ← hvfd, hdisk]
      exact initDisk_lsn hlsn _ _

/-- A shutdown that leaves a clean page in the files, and the next start. -/
theorem reopen_filed {db' : Database (Str → Option ℕ)} (hsnapshot : ∀ s, snapshot db.storage = .ok s →
      s.disk.lsn < 2 ^ 64 ∧ ∃ header, s.headers = [header] ∧ header.state ≠ .dirty)
    (h : reopen memory db = .ok db') : ∃ s, snapshot db.storage = .ok s ∧
      ∀ header listing, Filed s header listing → Reopened s db' listing := by
  obtain ⟨s, hdestroy, h⟩ := bind_eq_ok.mp h
  have hlast := destroyHeaders_clean hdestroy fun s hs ↦ (hsnapshot s hs).2
  exact ⟨s, hlast, fun header listing hfiled ↦ dbStart_filed hfiled (hsnapshot s hlast).1 h⟩

end Reopen

end FGDB.Restart
