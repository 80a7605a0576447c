import FGDB.Pages.Extent
import FGDB.Restart.Session

/-!
# The count of the dumped keys

The key file begins with a count, and a start that has read fewer keys ends the process.
Every dump adds all keys to the count, and only a start sets it to zero: the file of a
shutdown counts the keys that the snapshots before it have dumped once more. Without such
snapshots the count is that of the records.
-/

namespace FGDB.Restart

open Foundation HashMap Pages Server Wal Operations
open FGDB.Vector (BoundedList Growth)

section Snapshot

variable {s s' t t' : Storage}

/-- How many keys each page lists. -/
def keyCounts (s : Storage) : List ℕ := s.headers.map fun header ↦ header.keys.contents.length

theorem length_keyCounts (s : Storage) : (keyCounts s).length = s.headers.length := List.length_map _

/-- The loop of the snapshot has gone through the first pages. -/
structure CleanBelow (s t : Storage) (done : ℕ) : Prop where
  covered : Covered t
  counts : keyCounts t = keyCounts s
  clean : ∀ (index : ℕ) (header : PageHeader), index < done → t.headers[index]? = some header →
    header.state ≠ .dirty

theorem CleanBelow.next {index : ℕ} (h : CleanBelow s t index) (hstep : snapshotHeader t index = .ok t') :
    CleanBelow s t' (index + 1) := by
  obtain ⟨header, hhere, ⟨hclean, rfl⟩ | ⟨header', hsaved⟩⟩ := snapshotHeader_shape hstep
  · refine ⟨h.covered, h.counts, fun i x hi hx ↦ ?_⟩
    by_cases hsame : i = index
    · rw [hsame, hhere, Option.some.injEq] at hx
      rwa [← hx]
    · exact h.clean i x (by omega) hx
  · have hlt := (List.getElem?_eq_some_iff.mp hhere).1
    have hreaches := hsaved.reaches
    rw [h.covered.pageId hhere] at hreaches
    refine ⟨?_, ?_, fun i x hi hx ↦ ?_⟩
    · exact h.covered.set hhere hsaved.headers hsaved.pageId (.inr (.inr hreaches)) hsaved.grows
    · rw [keyCounts, hsaved.headers, map_set_eq hhere hsaved.count]
      exact h.counts
    · rw [hsaved.headers, getElem?_set_ite hlt] at hx
      by_cases hsame : i = index
      · rw [if_pos hsame, Option.some.injEq] at hx
        rw [← hx, hsaved.clean]
        exact (nofun : PageState.clean ≠ .dirty)
      · rw [if_neg hsame] at hx
        exact h.clean i x (by omega) hx

/-- What a dump of the keys that succeeds has written and counted. -/
structure Dumped (s s' : Storage) (listings : List PageListing) : Prop where
  inRange : ∀ listing ∈ listings, listing.InRange
  pages : listings.length = s.headers.length
  content : ∃ front, front.length = keysStart ∧
    s'.disk.kfd.content = front ++ entriesBytes listings
  counted : s'.disk.keysDumped ≤ s.disk.keysDumped + (entriesOf listings).length
  arena : s'.arena = s.arena
  vfd : s'.disk.vfd = s.disk.vfd

theorem length_entriesOf_lists {metas : List KeyMeta} {headers : List PageHeader}
    {listings : List PageListing} (h : List.Forall₂ (ListsHeader metas) headers listings) :
    (headers.flatMap fun header ↦ header.keys.contents).length = (entriesOf listings).length := by
  induction h with
  | nil => rfl
  | cons hheader _ ih =>
    rw [entriesOf] at ih
    rw [entriesOf, List.flatMap_cons, List.flatMap_cons, List.length_append, List.length_append,
      hheader.keys.length_eq, ih]

theorem wrapped_entries (listings : List PageListing) :
    entriesBytes (listings.map PageListing.wrapped) = entriesBytes listings ∧
      (entriesOf (listings.map PageListing.wrapped)).length = (entriesOf listings).length := by
  constructor
  · rw [entriesBytes, entriesBytes, List.flatMap_map]
    apply congrArg (List.flatMap · listings)
    exact funext encode_wrapped
  · rw [entriesOf, entriesOf, List.flatMap_map, List.length_flatMap, List.length_flatMap]
    apply congrArg
    apply List.map_congr_left
    intro listing _
    exact List.length_map _

theorem diskDumpKeys_dumped (hfew : ∀ count ∈ keyCounts s, count < 2 ^ 16)
    (h : diskDumpKeys s = .ok s') : ∃ listings, Dumped s s' listings := by
  obtain ⟨dump, hfold, hresult⟩ := bind_eq_ok.mp h
  obtain ⟨listings, hlists⟩ := dumpHeaders_lists hfold
  have hcounts : ∀ listing ∈ listings, listing.keys.length < 2 ^ 16 := by
    intro listing hlisting
    obtain ⟨index, hindex⟩ := List.getElem?_of_mem hlisting
    obtain ⟨header, hheader, hlisted⟩ := getElem?_forall₂ hlists.flip hindex
    rw [← hlisted.keys.length_eq]
    apply hfew
    exact List.mem_map_of_mem (List.mem_of_getElem? hheader)
  obtain ⟨s1, front, hdump, hfront, hcontent⟩ := diskDumpKeys_wrote hlists hcounts
  obtain rfl : s1 = s' := Except.ok.inj (hdump.symm.trans h)
  obtain ⟨hbytes, hentries⟩ := wrapped_entries listings
  have hadded := dumpHeaders_counts hfold
  refine ⟨listings.map PageListing.wrapped, ?_, ?_, ⟨front, hfront, ?_⟩, ?_, ?_, ?_⟩
  · intro listing hlisting
    obtain ⟨raw, hraw, rfl⟩ := List.mem_map.mp hlisting
    exact wrapped_inRange (hcounts raw hraw)
  · rw [List.length_map, hlists.length_eq]
  · rw [hbytes]
    exact hcontent
  · rw [hentries, ← length_entriesOf_lists hlists, ← Except.ok.inj hresult]
    exact hadded
  · rw [← Except.ok.inj hresult]
  · rw [← Except.ok.inj hresult]

/-- A snapshot goes through all pages and then dumps the keys. -/
theorem snapshot_settles (hs : Covered s) (h : snapshot s = .ok s') :
    ∃ t, CleanBelow s t s.headers.length ∧ diskDumpKeys t = .ok s' := by
  obtain ⟨t, hloop, hdump⟩ := bind_eq_ok.mp h
  refine ⟨t, ?_, hdump⟩
  apply @foldlM_range_invariant _ snapshotHeader (fun done t ↦ CleanBelow s t done) _ s t _ _ hloop
  · exact ⟨hs, rfl, nofun⟩
  · intro index t next _ hsettled hstep
    exact hsettled.next hstep

/-- A snapshot of pages without keys counts none. -/
theorem snapshot_covered (hs : Covered s) (hnone : ∀ header ∈ s.headers, header.keys.contents = [])
    (h : snapshot s = .ok s') : Covered s' := by
  obtain ⟨t, hclean, hdump⟩ := snapshot_settles hs h
  have hzero : ∀ count ∈ keyCounts t, count = 0 := by
    rw [hclean.counts]
    intro count hcount
    obtain ⟨header, hheader, rfl⟩ := List.mem_map.mp hcount
    rw [hnone header hheader, List.length_nil]
  obtain ⟨dump, hfold, hresult⟩ := bind_eq_ok.mp hdump
  have hcounted := dumpHeaders_counts hfold
  have hempty : (t.headers.flatMap fun header ↦ header.keys.contents).length = 0 := by
    rw [List.length_flatMap]
    exact List.sum_eq_zero hzero
  have huncounted : dump.keysDumped = t.disk.keysDumped := by
    have hstart := hclean.covered.uncounted
    change dump.keysDumped ≤ t.disk.keysDumped +
      (t.headers.flatMap fun header ↦ header.keys.contents).length at hcounted
    omega
  rw [← Except.ok.inj hresult]
  exact hclean.covered.same rfl ⟨huncounted, le_rfl⟩

end Snapshot

section Start

variable {H : Type} {calls : HashmapCalls H} {growth : Growth} {st st' : Startup H}

/-- The pages so far have their numbers, and the files are as they were. -/
structure NumberedTo (disk : Disk) (pageId : ℕ) (s : Storage) : Prop where
  numbers : s.headers.map PageHeader.pageId = List.range pageId
  disk : s.disk = disk

theorem openPage_numberedTo {disk : Disk} {pageId offsetBytes keysCount : ℕ}
    (hst : NumberedTo disk pageId st.storage)
    (h : openPage growth pageId st offsetBytes keysCount = .ok st') :
    NumberedTo disk (pageId + 1) st'.storage := by
  obtain ⟨headers, hadd, h⟩ := bind_eq_ok.mp h
  have hcontents := (BoundedList.add_eq_ok.mp hadd).2.1
  rw [← Except.ok.inj h]
  refine ⟨?_, hst.disk⟩
  change headers.contents.map PageHeader.pageId = _
  rw [hcontents, List.map_append, List.map_singleton, List.range_succ]
  exact congrArg (· ++ [pageId]) hst.numbers

theorem uploadKey_numberedTo {disk : Disk} {pageId count : ℕ} {key : HashmapKey}
    (hst : NumberedTo disk count st.storage)
    (h : uploadKey calls growth pageId st key = .ok st') : NumberedTo disk count st'.storage := by
  obtain ⟨header, keys, hhere, -, hstorage, -⟩ := uploadKey_shape h
  rw [hstorage]
  refine ⟨Eq.trans ?_ hst.numbers, hst.disk⟩
  exact map_set_eq hhere rfl

/-- A start leaves the pages of the snapshot file under their numbers, and its count is zero. -/
theorem dbStart_covered {memory : Memory} {hashmap : H} {vfd kfd log : List UInt8} {db : Database H}
    (h : dbStart calls growth memory hashmap vfd kfd log = .ok db) : Covered db.storage := by
  obtain ⟨-, hvfd, hcount⟩ := dbStart_cold h
  obtain ⟨kfd', st, hreload, -, hstorage, -⟩ := dbStart_reloads h
  obtain ⟨last, -, hnumbered⟩ := @reloadPages_invariant _ (openPage growth) (uploadKey calls growth)
    (fun pageId st ↦ NumberedTo (initDisk vfd kfd) pageId st.storage)
    (fun pageId _ st ↦ NumberedTo (initDisk vfd kfd) (pageId + 1) st.storage)
    (fun _ _ _ _ _ hst hopen ↦ openPage_numberedTo hst hopen)
    (fun _ _ _ _ _ _ hst hupload ↦ uploadKey_numberedTo hst hupload)
    (fun _ _ _ hst ↦ hst) _ 0 _ kfd' _ st ⟨rfl, rfl⟩ hreload
  have hheaders : db.storage.headers = st.storage.headers := by
    rw [hstorage]
  have hlength := congrArg List.length hnumbered.numbers
  rw [List.length_map, List.length_range] at hlength
  refine ⟨?_, fun index header hheader ↦ ?_, ?_⟩
  · rw [hheaders, hlength]
    exact hnumbered.numbers
  · have hlt := (List.getElem?_eq_some_iff.mp hheader).1.trans_le hcount
    rw [hvfd]
    exact .inr (pagePos_le_of_lt hlt)
  · rw [hstorage]
    exact congrArg Disk.keysDumped hnumbered.disk

theorem uploadKey_counts {pageId : ℕ} {key : HashmapKey}
    (h : uploadKey calls growth pageId st key = .ok st') : st'.keys = st.keys + 1 := by
  obtain ⟨paged, -, h⟩ := bind_eq_ok.mp h
  obtain ⟨header, -, h⟩ := bind_eq_ok.mp h
  obtain ⟨pushed, -, h⟩ := bind_eq_ok.mp h
  obtain ⟨named, -, h⟩ := bind_eq_ok.mp h
  obtain ⟨⟨hashmap, result, err⟩, -, h⟩ := bind_eq_ok.mp h
  simp only [] at h
  split at h
  · cases h
  · rw [← Except.ok.inj h]

theorem uploadKeys_counts {pageId : ℕ} {keys : List HashmapKey}
    (h : keys.foldlM (uploadKey calls growth pageId) st = .ok st') :
    st'.keys = st.keys + keys.length := by
  induction keys generalizing st with
  | nil =>
    rw [List.foldlM_nil, pure_eq_ok, Except.ok.injEq] at h
    rw [h, List.length_nil, Nat.add_zero]
  | cons key rest ih =>
    rw [List.foldlM_cons] at h
    obtain ⟨next, hkey, hrest⟩ := bind_eq_ok.mp h
    rw [ih hrest, uploadKey_counts hkey, List.length_cons]
    omega

/-- The visit of a listing counts its keys. -/
theorem visitPages_counts {pageId : ℕ} {listings : List PageListing}
    (h : visitPages (openPage growth) (uploadKey calls growth) pageId listings st = .ok st') :
    st'.keys = st.keys + (entriesOf listings).length := by
  induction listings generalizing pageId st with
  | nil =>
    rw [visitPages, Except.ok.injEq] at h
    rw [h]
    rfl
  | cons listing rest ih =>
    obtain ⟨opened, hopen, h⟩ := bind_eq_ok.mp h
    obtain ⟨filled, hkeys, h⟩ := bind_eq_ok.mp h
    obtain ⟨headers, -, hopen⟩ := bind_eq_ok.mp hopen
    have hsame : opened.keys = st.keys := by
      rw [← Except.ok.inj hopen]
    have hrest := ih h
    rw [entriesOf] at hrest
    rw [hrest, uploadKeys_counts hkeys, hsame, entriesOf, List.flatMap_cons, List.length_append,
      Nat.add_assoc]

end Start

section Session

variable {growth : Growth} {db db' : Database (VoidPtr ℕ)}

/-- The count that the next start finds in the key file of a shutdown, and the number of keys that
it reads. -/
def restartCounts (growth : Growth) (memory : Memory) (db : Database (VoidPtr ℕ)) :
    Outcome (ℕ × ℕ) := do
  let s ← destroyHeaders db.storage
  let disk := initDisk (destroyDisk s.disk).1 (destroyDisk s.disk).2
  let (_, st) ← reloadPages (openPage growth) (uploadKey hashmapCalls growth) disk.pages 0 disk.kfd
    (startupAt growth memory disk hashmapNew)
  return (disk.nkeys, st.keys)

/-- These are the numbers that the assertion of the start compares. -/
theorem restart_asserts_iff {memory : Memory} {counted keys : ℕ}
    (h : restartCounts growth memory db = .ok (counted, keys)) :
    restart hashmapCalls growth hashmapNew memory db = .error .assertionFailed ↔ keys < counted := by
  obtain ⟨s, hdestroy, h⟩ := bind_eq_ok.mp h
  obtain ⟨⟨kfd, st⟩, hreload, h⟩ := bind_eq_ok.mp h
  obtain ⟨rfl, rfl⟩ := Prod.mk.inj (Except.ok.inj h)
  rw [startupAt] at hreload
  rw [restart, hdestroy, ok_bind]
  simp only [dbStart, hreload, ok_bind]
  by_cases hshort : st.keys < (initDisk (destroyDisk s.disk).1 (destroyDisk s.disk).2).nkeys
  · rw [if_pos hshort]
    exact iff_of_true rfl hshort
  · rw [if_neg hshort]
    apply iff_of_false _ hshort
    intro hok
    cases hok

/-- The count that a shutdown leaves in front of the key records is not more than there are, and
not more than the keys that the next start reads. -/
structure KeysCounted (growth : Growth) (memory : Memory) (db : Database (VoidPtr ℕ)) : Prop where
  records : ∀ s, destroyHeaders db.storage = .ok s → ∃ front listings, front.length = keysStart ∧
    (∀ listing ∈ listings, listing.InRange) ∧
      (destroyDisk s.disk).2 = front ++ entriesBytes listings ∧
        leValue front ≤ (entriesOf listings).length
  read : ∀ counted keys, restartCounts growth memory db = .ok (counted, keys) → counted ≤ keys

/-- A snapshot is taken while there are no keys, and no page has more keys at a shutdown than its
count in the file can say. -/
def DumpsOnce (db : Database (VoidPtr ℕ)) : Event → Prop
  | .operation _ => True
  | .snapshot => ∀ header ∈ db.storage.headers, header.keys.contents = []
  | .restart _ => ∀ header ∈ db.storage.headers, header.keys.contents.length < 2 ^ 16

instance : DecidablePred (DumpsOnce db)
  | .operation _ => inferInstanceAs (Decidable True)
  | .snapshot => inferInstanceAs (Decidable (∀ header ∈ db.storage.headers, header.keys.contents = []))
  | .restart _ => inferInstanceAs
    (Decidable (∀ header ∈ db.storage.headers, header.keys.contents.length < 2 ^ 16))

theorem covered_keptByPages {growth : Growth} : KeptByPages growth (fun _ _ ↦ True) Covered where
  get _ _ _ _ := pageValueGet_covered
  unset _ _ _ _ := pageValueUnset_covered
  put _ _ _ _ hs _ := pageValueSet_covered (newMeta_covered hs)
  stamp _ _ _ _ := updateLSN_covered
  named _ _ _ _ := modifyMeta_covered

theorem sessionStep_covered {event : Event} {output : Unit} (hdb : Covered db.storage)
    (hdumps : DumpsOnce db event) (h : sessionStep growth db event = .ok (db', output)) :
    Covered db'.storage := by
  cases event with
  | operation call =>
    obtain ⟨⟨next, result⟩, hstep, h⟩ := bind_eq_ok.mp h
    rw [← (Prod.mk.inj (Except.ok.inj h)).1]
    exact operationStep_keeps covered_keptByPages hdb (fun _ _ ↦ trivial) hstep
  | snapshot =>
    obtain ⟨s, hsnapshot, h⟩ := bind_eq_ok.mp h
    rw [← (Prod.mk.inj (Except.ok.inj h)).1]
    exact snapshot_covered hdb hdumps hsnapshot
  | restart memory =>
    obtain ⟨next, hrestart, h⟩ := bind_eq_ok.mp h
    obtain ⟨s, -, hstart⟩ := bind_eq_ok.mp hrestart
    rw [← (Prod.mk.inj (Except.ok.inj h)).1]
    exact dbStart_covered hstart

/-- What a shutdown leaves whose keys were not dumped before. -/
theorem destroyed_lists {s s' : Storage} (hs : Covered s)
    (hfew : ∀ header ∈ s.headers, header.keys.contents.length < 2 ^ 16)
    (h : destroyHeaders s = .ok s') : ∃ listings, (∀ listing ∈ listings, listing.InRange) ∧
      (destroyDisk s'.disk).2 = leBytes 8 s'.disk.keysDumped ++ entriesBytes listings ∧
      s'.disk.keysDumped ≤ (entriesOf listings).length ∧
      pagePos listings.length ≤ (destroyDisk s'.disk).1.length := by
  obtain ⟨saved, hsnapshot, -⟩ := bind_eq_ok.mp h
  obtain ⟨t, hclean, hdump⟩ := snapshot_settles hs hsnapshot
  have hcounts : ∀ count ∈ keyCounts t, count < 2 ^ 16 := by
    rw [hclean.counts]
    intro count hcount
    obtain ⟨header, hheader, rfl⟩ := List.mem_map.mp hcount
    exact hfew header hheader
  obtain ⟨listings, hdumped⟩ := diskDumpKeys_dumped hcounts hdump
  have hcount : t.headers.length = s.headers.length := by
    rw [← length_keyCounts, hclean.counts, length_keyCounts]
  have hsettled : ∀ header ∈ t.headers, header.state ≠ .dirty := by
    intro header hheader
    obtain ⟨index, hindex⟩ := List.getElem?_of_mem hheader
    have hlt := (List.getElem?_eq_some_iff.mp hindex).1
    exact hclean.clean index header (hcount ▸ hlt) hindex
  have hsame : s' = saved := by
    have hdestroyed := destroyHeaders_of_clean hsnapshot (by
      rw [Storage.headers, hdumped.arena]
      exact hsettled)
    exact Except.ok.inj (h.symm.trans hdestroyed)
  obtain ⟨front, hfront, hcontent⟩ := hdumped.content
  rw [hsame, destroyDisk_eq]
  refine ⟨listings, hdumped.inRange, ?_, ?_, ?_⟩
  · have hdrop : (front ++ entriesBytes listings).drop 8 = entriesBytes listings :=
      List.drop_left' hfront
    rw [hcontent, hdrop]
  · have hle := hdumped.counted
    rwa [hclean.covered.uncounted, Nat.zero_add] at hle
  · rw [List.length_append, length_leBytes, List.length_drop, hdumped.vfd, hdumped.pages]
    cases hpages : t.headers.length with
    | zero =>
      rw [pagePos, arenaStart]
      omega
    | succ last =>
      have hlast : last < t.headers.length := by omega
      have hheader := List.getElem?_eq_getElem hlast
      have hreaches := (hclean.covered.reaches last _ hheader).resolve_left
        (hsettled _ (List.mem_of_getElem? hheader))
      omega

theorem keysCounted_of_covered {memory : Memory} (hdb : Covered db.storage)
    (hfew : ∀ header ∈ db.storage.headers, header.keys.contents.length < 2 ^ 16) :
    KeysCounted growth memory db := by
  refine ⟨fun s hdestroy ↦ ?_, fun counted keys hcounts ↦ ?_⟩
  · obtain ⟨listings, hrange, hfile, hcount, -⟩ := destroyed_lists hdb hfew hdestroy
    refine ⟨leBytes 8 s.disk.keysDumped, listings, length_leBytes 8 _, hrange, hfile, ?_⟩
    rw [leValue_leBytes]
    exact (Nat.mod_le _ _).trans hcount
  · obtain ⟨s, hdestroy, hcounts⟩ := bind_eq_ok.mp hcounts
    obtain ⟨⟨kfd, st⟩, hreload, hcounts⟩ := bind_eq_ok.mp hcounts
    obtain ⟨rfl, rfl⟩ := Prod.mk.inj (Except.ok.inj hcounts)
    obtain ⟨listings, hrange, hfile, hcount, hlength⟩ := destroyed_lists hdb hfew hdestroy
    obtain ⟨front, hfrontEq⟩ : ∃ front, leBytes 8 s.disk.keysDumped = front := ⟨_, rfl⟩
    have hfront : front.length = keysStart := by
      rw [← hfrontEq]
      exact length_leBytes 8 _
    obtain ⟨disk, hdisk⟩ : ∃ disk, initDisk (destroyDisk s.disk).1 (destroyDisk s.disk).2 = disk :=
      ⟨_, rfl⟩
    have hpages := le_initDisk_pages hlength (destroyDisk s.disk).2
    rw [hdisk] at hreload hpages ⊢
    rw [hfile, hfrontEq] at hdisk
    have hkfd : disk.kfd = ⟨front ++ (listings.flatMap PageListing.encode ++ []), front.length⟩ := by
      rw [← hdisk, List.append_nil, hfront]
      rfl
    rw [hkfd, ← Nat.add_sub_of_le hpages, reloadPages_append _ _ listings hrange] at hreload
    obtain ⟨visited, hvisit, hend⟩ := bind_eq_ok.mp hreload
    rw [List.append_nil, reloadPages_end] at hend
    calc disk.nkeys = leValue front := by rw [← hdisk, initDisk_nkeys hfront]
      _ = s.disk.keysDumped % 256 ^ 8 := by rw [← hfrontEq, leValue_leBytes]
      _ ≤ s.disk.keysDumped := Nat.mod_le _ _
      _ ≤ (entriesOf listings).length := hcount
      _ = visited.keys := by
        rw [visitPages_counts hvisit]
        exact (Nat.zero_add _).symm
      _ = st.keys := by rw [(Prod.mk.inj (Except.ok.inj hend)).2]

/-- From a start on any files, the count that every shutdown of a run leaves is that of the records
at most, when each snapshot before it was taken without keys. -/
theorem keysCounted_of_dumpsOnce {memory : Memory} {vfd kfd log : List UInt8}
    {start : Database (VoidPtr ℕ)}
    (hstart : dbStart hashmapCalls growth memory hashmapNew vfd kfd log = .ok start)
    {events : List Event} (hdumps : EachStep (sessionStep growth) DumpsOnce start events) :
    EachStep (sessionStep growth)
      (fun db event ↦ ∀ memory, event = .restart memory → KeysCounted growth memory db)
      start events := by
  have hcovered : Covered start.storage := dbStart_covered hstart
  apply @EachStep.of_invariant _ _ _ (sessionStep growth) DumpsOnce (fun db ↦ Covered db.storage)
    _ _ _ start events hcovered hdumps
  · intro db event next output hdb hevent hstep
    exact sessionStep_covered hdb hevent hstep
  · intro db event hdb hevent restartMemory hrestart
    rw [hrestart] at hevent
    exact keysCounted_of_covered hdb hevent

/-- A snapshot without keys, a key, and two restarts. -/
theorem keysCounted_two_restarts : ∃ start,
    dbStart hashmapCalls .source (fun _ ↦ 0) hashmapNew [] [] [] = .ok start ∧
      EachStep (sessionStep .source)
        (fun db event ↦ ∀ memory, event = .restart memory → KeysCounted .source memory db) start
        [.snapshot, .operation (letterCall .insert), .restart fun _ ↦ 0, .restart fun _ ↦ 0] :=
  ⟨_, dbStart_empty .source (fun _ ↦ 0) [],
    keysCounted_of_dumpsOnce (dbStart_empty .source (fun _ ↦ 0) []) (by decide +kernel)⟩

/-- After a snapshot with one key the next shutdown counts the key twice. -/
theorem not_keysCounted_snapshot : ∃ start db outputs,
    dbStart hashmapCalls .source (fun _ ↦ 0) hashmapNew [] [] [] = .ok start ∧
      run (sessionStep .source) start [.operation (letterCall .insert), .snapshot] =
        .ok (db, outputs) ∧ ¬ KeysCounted .source (fun _ ↦ 0) db := by
  have hcounts : (dbStart hashmapCalls .source (fun _ ↦ 0) hashmapNew [] [] [] >>= fun start ↦
      run (sessionStep .source) start [.operation (letterCall .insert), .snapshot] >>= fun result ↦
        restartCounts .source (fun _ ↦ 0) result.1).toOption = some (2, 1) := by
    decide +kernel
  obtain ⟨start, hstart, hcounts⟩ := bind_eq_ok.mp (toOption_eq_some.mp hcounts)
  obtain ⟨⟨db, outputs⟩, hrun, hcounts⟩ := bind_eq_ok.mp hcounts
  refine ⟨start, db, outputs, hstart, hrun, fun h ↦ ?_⟩
  have hle : 2 ≤ 1 := h.read 2 1 hcounts
  exact absurd hle (by decide)

end Session

end FGDB.Restart
