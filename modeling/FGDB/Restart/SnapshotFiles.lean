import FGDB.Operations.Replay
import FGDB.Pages.Snapshot

/-!
# What the snapshot files have

The key file names a page and an offset for every key, and the bytes of the value
are there in the snapshot file. A snapshot of a store with one slot writes the
value of its key to the start of the page, if the value was there already or far
enough behind, and if it fits in the page.
-/

namespace FGDB.Restart

open Foundation Memory Records HashMap Pages Server Wal Operations
open FGDB.Vector (BoundedList Growth)

/-- The keys that the key file lists for the pages of the snapshot file. -/
def fileEntries (disk : Disk) : List HashmapKey :=
  match readListings disk.kfd.content (initDisk disk.vfd.content disk.kfd.content).pages with
  | .ok (_, listings) => listings.flatMap PageListing.keys
  | .error _ => []

/-- The value that the two files have for a key. -/
def fileValue (disk : Disk) (key : Str) : Option (List UInt8) :=
  ((fileEntries disk).find? fun entry ↦ entry.key = key).map fun entry ↦
    payloadAt ((File.image disk.vfd.content).window (pagePos entry.pageId)) entry.offset

section Entries

/-- The key file lists the keys of the only page, which is in the snapshot file. -/
structure Filed (s : Storage) (header : PageHeader) (listing : PageListing) : Prop where
  headers : s.headers = [header]
  lists : ListsHeader s.metas header listing
  inRange : listing.InRange
  pageId : ∀ entry ∈ listing.keys, entry.pageId = 0
  content : ∃ front, front.length = keysStart ∧ s.disk.kfd.content = front ++ listing.encode
  length : s.disk.vfd.content.length = pagePos 1

theorem initDisk_pages_one {vfd kfd : List UInt8} (h : vfd.length = pagePos 1) :
    (initDisk vfd kfd).pages = 1 := by
  have hne : vfd ≠ [] := by
    intro hnil
    rw [hnil] at h
    exact absurd h (by decide)
  rw [initDisk]
  simp only [h]
  rw [if_neg hne]
  decide

/-- The reload of a key file that lists one page visits this page. -/
theorem reloadPages_one {σ : Type} (openPage : ℕ → σ → ℕ → ℕ → Outcome σ)
    (visitKey : ℕ → σ → HashmapKey → Outcome σ) {front : List UInt8} {listing : PageListing}
    (hfront : front.length = keysStart) (hrange : listing.InRange) (state : σ) :
    reloadPages openPage visitKey 1 0 ⟨front ++ listing.encode, keysStart⟩ state =
      (visitPages openPage visitKey 0 [listing] state >>= fun state ↦
        .ok (⟨front ++ listing.encode, (front ++ listing.encode).length⟩, state)) := by
  have hreload := reloadPages_encode openPage visitKey [listing]
    (List.forall_mem_singleton.mpr hrange) 0 front [] state
  simp only [List.flatMap_cons, List.flatMap_nil, List.append_nil, List.length_singleton,
    hfront] at hreload
  exact hreload

theorem Filed.entries {s : Storage} {header : PageHeader} {listing : PageListing}
    (h : Filed s header listing) : fileEntries s.disk = listing.keys := by
  obtain ⟨front, hfront, hcontent⟩ := h.content
  rw [fileEntries, initDisk_pages_one h.length, readListings, hcontent,
    reloadPages_one collectPage collectKey hfront h.inRange, visitPages_collect]
  simp

/-- Dumping the keys of one page makes the key file list them. -/
theorem diskDumpKeys_filed {s s' : Storage} {header : PageHeader} {listing : PageListing}
    (hheaders : s.headers = [header]) (hlists : ListsHeader s.metas header listing)
    (hrange : listing.InRange) (hpages : ∀ entry ∈ listing.keys, entry.pageId = 0)
    (hlength : s.disk.vfd.content.length = pagePos 1) (h : diskDumpKeys s = .ok s') :
    Filed s' header listing ∧ s'.arena = s.arena ∧ s'.metas = s.metas ∧
      s'.disk.vfd = s.disk.vfd ∧ s'.disk.lsn = s.disk.lsn := by
  have hall : List.Forall₂ (ListsHeader s.metas) s.arena.headers.contents [listing] := by
    have hcontents : s.arena.headers.contents = [header] := hheaders
    rw [hcontents]
    exact .cons hlists .nil
  obtain ⟨s1, front, hdump, hfront, hcontent⟩ :=
    diskDumpKeys_wrote hall (List.forall_mem_singleton.mpr hrange.count)
  obtain rfl : s1 = s' := Except.ok.inj (hdump.symm.trans h)
  obtain ⟨d, -, hresult⟩ := bind_eq_ok.mp h
  have hsame := Except.ok.inj hresult
  rw [List.flatMap_cons, List.flatMap_nil, List.append_nil] at hcontent
  refine ⟨⟨?_, ?_, hrange, hpages, ⟨front, hfront, hcontent⟩, ?_⟩, ?_, ?_, ?_, ?_⟩
  · rw [← hsame]
    exact hheaders
  · rw [← hsame]
    exact hlists
  · rw [← hsame]
    exact hlength
  · rw [← hsame]
  · rw [← hsame]
  · rw [← hsame]
  · rw [← hsame]

end Entries

section Compaction

variable {s s' : Storage} {header : PageHeader}

/-- The only page after its defragmentation. -/
structure Compacted (s s' : Storage) (header header' : PageHeader) : Prop where
  headers : s'.headers = [header']
  slots : Slots s'
  disk : s'.disk = s.disk
  metas : s'.metas = s.metas
  pLSN : header'.pLSN = header.pLSN
  arenaId : header'.arenaId = header.arenaId

/-- The condition under which the value of the only key survives its move to the start. -/
def Movable (offset size : ℕ) : Prop := (offset = 0 ∨ 2 + size ≤ offset) ∧ 2 + size ≤ pageSize

instance (offset size : ℕ) : Decidable (Movable offset size) := inferInstanceAs (Decidable (_ ∧ _))

/-- A defragmentation that succeeds has gone through the loop and cleared the rest of the page. -/
theorem arenaDefragmentatePage_compacted (hslots : Slots s) (hheaders : s.headers = [header])
    (hdefrag : arenaDefragmentatePage s header.arenaId 0 = .ok s') :
    ∃ arena keys offset header', defragmentateFrom (pageStart header.arenaId) header.keys.contents
        0 0 (s.arena, header.keys) = .ok ((arena, keys), offset) ∧
      Compacted s s' header header' ∧ header'.keys = keys ∧
      s'.arena.allocatedPages = s.arena.allocatedPages ∧
      s'.arena.pages = arena.pages.store (pageStart header.arenaId + offset)
        (List.replicate (pageSize - wrap16 offset) 0) := by
  have hslot := hslots.headers header (hheaders ▸ List.mem_singleton_self _)
  have hhere : s.header 0 = .ok header := header_eq_ok.mpr (by rw [hheaders]; rfl)
  rw [arenaDefragmentatePage, hhere, ok_bind] at hdefrag
  obtain ⟨⟨⟨arena, keys⟩, offset⟩, hloop, hdefrag⟩ := bind_eq_ok.mp hdefrag
  obtain ⟨harena, -, hcapacity⟩ := defragmentateFrom_shape (List.nil_append _).symm rfl hloop
  simp only [] at hdefrag
  split at hdefrag
  · cases hdefrag
  · obtain ⟨arena', hwrite, hdefrag⟩ := bind_eq_ok.mp hdefrag
    have hpages : arena'.pages = arena.pages.store (pageStart header.arenaId + offset)
        (List.replicate (pageSize - wrap16 offset) 0) := by
      unfold Arena.write at hwrite
      split at hwrite
      · rw [← Except.ok.inj hwrite]
      · cases hwrite
    have hshape : arena' = { s.arena with pages := arena'.pages } := by
      rw [write_shape hwrite, harena]
    rw [hshape] at hdefrag
    have hresult := Except.ok.inj hdefrag
    obtain ⟨header', hheader'⟩ : ∃ header', header' = { header with
        keys := keys, fragmentatedBytes := 0, offsetBytes := wrap16 offset, state := .dirty } :=
      ⟨_, rfl⟩
    have hheaders' : s'.headers = [header'] := by
      rw [← hresult, hheader']
      change s.headers.set 0 _ = _
      rw [hheaders, List.set_cons_zero]
    refine ⟨arena, keys, offset, header', hloop, ⟨hheaders', .of_singleton ?_ hheaders' ?_, ?_, ?_, ?_,
      ?_⟩, ?_, ?_, ?_⟩
    · rw [← hresult]
      exact hslots.capacity
    · rw [hheader']
      exact ⟨hslot.pageId, hslot.location, hcapacity.trans hslot.capacity,
        Nat.mod_lt _ (Nat.two_pow_pos 16)⟩
    · rw [← hresult]
      rfl
    · rw [← hresult]
      rfl
    · rw [hheader']
    · rw [hheader']
    · rw [hheader']
    · rw [← hresult]
      rfl
    · rw [← hpages, ← hresult]
      rfl

theorem defragmentate_none (h : HoldsNone s) (hheaders : s.headers = [header])
    (hdefrag : arenaDefragmentatePage s header.arenaId 0 = .ok s') :
    HoldsNone s' ∧ ∃ header', Compacted s s' header header' := by
  have hempty := h.keys header (hheaders ▸ List.mem_singleton_self _)
  obtain ⟨arena, keys, offset, header', hloop, hcompacted, hkeys, -, -⟩ :=
    arenaDefragmentatePage_compacted h.slots hheaders hdefrag
  rw [hempty] at hloop
  have hsame := (Prod.mk.inj (Prod.mk.inj (Except.ok.inj hloop)).1).2
  refine ⟨⟨hcompacted.slots, ?_⟩, header', hcompacted⟩
  rw [hcompacted.headers, List.forall_mem_singleton, hkeys, ← hsame]
  exact hempty

theorem defragmentate_one {pointer offset : ℕ} {value : Str} {keyMeta : KeyMeta}
    (h : HoldsOne s pointer value header offset keyMeta) (hmovable : Movable offset value.size)
    (hdefrag : arenaDefragmentatePage s header.arenaId 0 = .ok s') :
    ∃ header', HoldsOne s' pointer value header' 0 keyMeta ∧ Compacted s s' header header' := by
  obtain ⟨arena, keys, stop, header', hloop, hcompacted, hkeys, hallocated, hpages⟩ :=
    arenaDefragmentatePage_compacted h.slots h.headers hdefrag
  obtain ⟨howns, hsize, hpayload⟩ := readValue_eq_ok.mp h.read
  obtain ⟨start, hstart⟩ : ∃ start, pageStart header.arenaId = start := ⟨_, rfl⟩
  rw [hstart] at hloop hpages howns hsize hpayload
  obtain ⟨place, hplace⟩ : ∃ place, start + offset = place := ⟨_, rfl⟩
  rw [hplace] at howns hsize hpayload
  have hapart : place = start ∨ start + (2 + sizeAt s.arena.pages place) ≤ place := by
    rw [hsize]
    have hplaces := hmovable.1
    omega
  obtain ⟨pages1, hpages1⟩ : ∃ pages1, move s.arena.pages start place (2 + value.size) = pages1 :=
    ⟨_, rfl⟩
  obtain ⟨hreread, hsize1, hpayload1⟩ := move_record hapart
  simp only [hsize, hpages1] at hreread hsize1 hpayload1
  have hstartOwns : s.arena.Owns start (2 + value.size) := by
    unfold Arena.Owns at howns ⊢
    omega
  have hshort : s.arena.Owns place 2 := by
    unfold Arena.Owns at howns ⊢
    omega
  have hread1 : s.arena.read place 2 = .ok (s.arena.pages.load place 2) := if_pos hshort
  have hread2 : s.arena.read place (2 + value.size) =
      .ok (s.arena.pages.load place (2 + value.size)) := if_pos howns
  have hwrite : s.arena.write start (s.arena.pages.load place (2 + value.size)) =
      .ok { s.arena with pages := pages1 } := by
    rw [Arena.write, length_load, if_pos hstartOwns, ← hpages1]
    rfl
  have hread3 : ({ s.arena with pages := pages1 } : Arena).read place 2 =
      .ok (pages1.load place 2) := if_pos hshort
  have hsize' : leValue (s.arena.pages.load place 2) = value.size := hsize
  have hreread' : leValue (pages1.load place 2) = value.size := hreread
  rw [h.keys] at hloop
  simp only [defragmentateFrom, hplace, Nat.add_zero, hread1, ok_bind, hsize', hread2, hwrite, hread3,
    hreread', Nat.zero_add, Except.ok.injEq, Prod.mk.injEq] at hloop
  obtain ⟨⟨harena, hkeysEq⟩, hstop⟩ := hloop
  have hcontents : header'.keys.contents = [⟨0, pointer⟩] := by
    rw [hkeys, ← hkeysEq]
    change header.keys.contents.set 0 _ = _
    rw [h.keys]
    rfl
  rw [← harena, ← hstop] at hpages
  have hload : load pages1 start (2 + sizeAt pages1 start) =
      load s'.arena.pages start (2 + sizeAt pages1 start) := by
    rw [hpages, hsize1]
    exact (load_store_of_disjoint _ _ _ _ (.inl (le_refl _))).symm
  obtain ⟨hsize2, hpayload2⟩ := record_congr hload
  refine ⟨header', ⟨hcompacted.slots, hcompacted.headers, hcontents, ?_, h.page, h.headerKeyId,
    Nat.two_pow_pos 16, ?_⟩, hcompacted⟩
  · rw [hcompacted.metas]
    exact h.named
  · rw [hcompacted.arenaId, hstart, Nat.add_zero]
    refine readValue_eq_ok.mpr ⟨?_, hsize2.trans hsize1, ?_⟩
    · unfold Arena.Owns at hstartOwns ⊢
      rwa [hallocated]
    · rw [hpayload2, hpayload1, hpayload]

end Compaction

section Snapshot

variable {s s' : Storage} {header header' : PageHeader}

theorem snapshot_no_page (hempty : s.headers = []) : snapshot s = diskDumpKeys s := by
  have hcontents : s.arena.headers.contents = [] := hempty
  rw [snapshot, hcontents]
  rfl

theorem snapshot_one_page (hheaders : s.headers = [header]) :
    snapshot s = (snapshotHeader s 0 >>= diskDumpKeys) := by
  have hcontents : s.arena.headers.contents = [header] := hheaders
  rw [snapshot, hcontents, List.length_singleton, List.range_one, List.foldlM_cons]
  simp only [List.foldlM_nil, bind_pure]

theorem header_zero (hheaders : s.headers = [header]) : s.header 0 = .ok header :=
  header_eq_ok.mpr (by rw [hheaders]; rfl)

theorem snapshotHeader_clean (hheaders : s.headers = [header]) (hclean : header.state ≠ .dirty) :
    snapshotHeader s 0 = .ok s := by
  rw [snapshotHeader, header_zero hheaders, ok_bind, if_neg hclean, pure_eq_ok]

/-- The dirty page is compacted and written, and is clean afterwards. -/
theorem snapshotHeader_dirty (hheaders : s.headers = [header]) (hslots : Slots s)
    (hdirty : header.state = .dirty) (h : snapshotHeader s 0 = .ok s') :
    ∃ s1, arenaDefragmentatePage s header.arenaId 0 = .ok s1 ∧
      ∀ header1, Compacted s s1 header header1 → s' = dumped s1 0 header1 := by
  have hslot := hslots.headers header (hheaders ▸ List.mem_singleton_self _)
  rw [snapshotHeader, header_zero hheaders, ok_bind, if_pos hdirty] at h
  obtain ⟨s1, hdefrag, h⟩ := bind_eq_ok.mp h
  refine ⟨s1, hdefrag, fun header1 hcompacted ↦ ?_⟩
  obtain ⟨s2, hdump, h⟩ := bind_eq_ok.mp h
  obtain ⟨found, hfound, h⟩ := bind_eq_ok.mp h
  rw [hslot.pageId, diskDumpPage, header_zero hcompacted.headers, ok_bind] at hdump
  obtain ⟨page, hread, hdump⟩ := bind_eq_ok.mp hdump
  have hpage : page = s1.arena.pages.load (pageStart header1.arenaId) pageSize := by
    rw [hcompacted.arenaId]
    unfold Arena.read at hread
    split at hread
    · exact (Except.ok.inj hread).symm
    · cases hread
  have hs2 := Except.ok.inj hdump
  have hheaders2 : s2.headers = [header1] := by
    rw [← hs2]
    exact hcompacted.headers
  have hsame : found = header1 := by
    rw [header_zero hheaders2] at hfound
    exact (Except.ok.inj hfound).symm
  rw [← Except.ok.inj h, hsame, ← hs2, hpage]
  rfl

theorem dumped_headers (hheaders : s.headers = [header]) :
    (dumped s 0 header).headers = [{ header with state := .clean }] := by
  change s.headers.set 0 _ = _
  rw [hheaders, List.set_cons_zero]

theorem dumped_slots (hslots : Slots s) (hheaders : s.headers = [header]) :
    Slots (dumped s 0 header) := by
  have hslot := hslots.headers header (hheaders ▸ List.mem_singleton_self _)
  exact .of_singleton hslots.capacity (dumped_headers hheaders)
    ⟨hslot.pageId, hslot.location, hslot.capacity, hslot.offset_lt⟩

theorem HoldsNone.dumped (h : HoldsNone s) (hheaders : s.headers = [header]) :
    HoldsNone (dumped s 0 header) := by
  refine ⟨dumped_slots h.slots hheaders, ?_⟩
  rw [dumped_headers hheaders]
  exact List.forall_mem_singleton.mpr (h.keys header (hheaders ▸ List.mem_singleton_self _))

theorem HoldsOne.dumped {pointer offset : ℕ} {value : Str} {keyMeta : KeyMeta}
    (h : HoldsOne s pointer value header offset keyMeta) :
    HoldsOne (dumped s 0 header) pointer value { header with state := .clean } offset keyMeta :=
  ⟨dumped_slots h.slots h.headers, dumped_headers h.headers, h.keys, h.named, h.page, h.headerKeyId,
    h.offset_lt, (readValue_congr rfl rfl _).trans h.read⟩

/-- The bytes of a value at the start of the page are in the snapshot file. -/
theorem dumped_payload {pointer : ℕ} {value : Str} {keyMeta : KeyMeta}
    (h : HoldsOne s pointer value header 0 keyMeta) (hfits : 2 + value.size ≤ pageSize) :
    payloadAt ((dumped s 0 header).snapImage 0) 0 = value.bytes := by
  obtain ⟨-, hsize, hpayload⟩ := readValue_eq_ok.mp h.read
  obtain ⟨-, hagree, -⟩ := snapImage_dumped s 0 header
  have hinside : endAt (s.arenaImage header.arenaId) 0 ≤ pageSize := by
    rw [endAt, Storage.arenaImage, sizeAt_window, hsize, Nat.zero_add]
    exact hfits
  rw [(AgreeBelow.record hagree hinside).2, Storage.arenaImage, payloadAt_window, hpayload]

end Snapshot

section Store

variable {db : Database (Str → Option ℕ)} {d : Str → Option Str} {s' : Storage}
  {header : PageHeader}

/-- What the files have after the keys of the page were listed. -/
structure KeysListed (s s' : Storage) (d : Str → Option Str) (header : PageHeader) : Prop where
  filed : ∃ listing, Filed s' header listing
  vfd : s'.disk.vfd = s.disk.vfd
  lsn : s'.disk.lsn = s.disk.lsn
  absent : ∀ key, d key = none → fileValue s'.disk key = none
  present : ∀ key value, d key = some value → ∃ entry ∈ header.keys.contents,
    fileValue s'.disk key = some (payloadAt (s.snapImage 0) entry.offset)

/-- What a store has lies in its arena and its metas. -/
theorem StoreIs.of_arena (h : StoreIs db d) (harena : s'.arena = db.storage.arena)
    (hmetas : s'.metas = db.storage.metas) : StoreIs { db with storage := s' } d := by
  obtain ⟨⟨arena, lru, disk, metas⟩, hashmap, walLogger, records⟩ := db
  obtain ⟨arena', lru', disk', metas'⟩ := s'
  obtain rfl : arena' = arena := harena
  obtain rfl : metas' = metas := hmetas
  cases h with
  | empty hnone hhashmap =>
    exact .empty ⟨⟨hnone.slots.capacity, hnone.slots.headers⟩, hnone.keys⟩ hhashmap
  | bound key value pointer header offset keyMeta hone hweak hhashmap =>
    exact .bound key value pointer header offset keyMeta
      ⟨⟨hone.slots.capacity, hone.slots.headers⟩, hone.headers, hone.keys, hone.named, hone.page,
        hone.headerKeyId, hone.offset_lt, hone.read⟩ hweak hhashmap

theorem diskDumpKeys_store (h : StoreIs db d) (hheaders : db.storage.headers = [header])
    (hlength : db.storage.disk.vfd.content.length = pagePos 1)
    (hdump : diskDumpKeys db.storage = .ok s') :
    StoreIs { db with storage := s' } d ∧ KeysListed db.storage s' d header := by
  have hslot := h.slots.headers header (hheaders ▸ List.mem_singleton_self _)
  cases h with
  | empty hnone hhashmap =>
    have hempty := hnone.keys header (hheaders ▸ List.mem_singleton_self _)
    have hlists : ListsHeader db.storage.metas header ⟨header.offsetBytes, []⟩ := by
      refine ⟨rfl, ?_⟩
      rw [hempty]
      exact .nil
    obtain ⟨hfiled, harena, hmetas, hvfd, hlsn⟩ := diskDumpKeys_filed hheaders hlists
      ⟨hslot.offset_lt, Nat.two_pow_pos 16, nofun⟩ nofun hlength hdump
    refine ⟨StoreIs.of_arena (.empty hnone hhashmap) harena hmetas, ⟨_, hfiled⟩, hvfd, hlsn,
      fun key _ ↦ ?_, nofun⟩
    rw [fileValue, hfiled.entries]
    rfl
  | bound key value pointer header' offset keyMeta hone hweak hhashmap =>
    obtain rfl : header = header' := List.singleton_inj.mp (hheaders.symm.trans hone.headers)
    have hlists : ListsHeader db.storage.metas header
        ⟨header.offsetBytes, [⟨key, offset, 0⟩]⟩ := by
      refine ⟨rfl, ?_⟩
      rw [hone.keys]
      exact .cons ⟨⟨keyMeta, hone.named, hweak, hone.page⟩, rfl⟩ .nil
    obtain ⟨hfiled, harena, hmetas, hvfd, hlsn⟩ := diskDumpKeys_filed hheaders hlists
      ⟨hslot.offset_lt, by simp, by simpa using hone.offset_lt⟩ (by simp) hlength hdump
    refine ⟨StoreIs.of_arena (.bound key value pointer header offset keyMeta hone hweak hhashmap)
      harena hmetas, ⟨_, hfiled⟩, hvfd, hlsn, fun key' hkey' ↦ ?_, fun key' value' hkey' ↦ ?_⟩
    · have hne : key ≠ key' := by
        intro heq
        rw [heq, Function.update_self] at hkey'
        cases hkey'
      rw [fileValue, hfiled.entries]
      simp [hne]
    · have heq : key' = key := by
        by_contra hne
        rw [Function.update_of_ne hne] at hkey'
        cases hkey'
      refine ⟨⟨offset, pointer⟩, hone.keys ▸ List.mem_singleton_self _, ?_⟩
      rw [fileValue, hfiled.entries, heq, hvfd]
      simp [Storage.snapImage]

/-- The values of the dirty pages survive their move to the start. -/
def Dumpable (s : Storage) : Prop := ∀ header ∈ s.headers, header.state = .dirty →
  ∀ key ∈ header.keys.contents, Movable key.offset (sizeAt (s.arenaImage header.arenaId) key.offset)

instance (s : Storage) : Decidable (Dumpable s) :=
  inferInstanceAs (Decidable (∀ header ∈ s.headers, header.state = .dirty →
    ∀ key ∈ header.keys.contents, _))

/-- What a snapshot of a dirty page leaves. -/
structure Saved (s s' : Storage) (d : Str → Option Str) (header header' : PageHeader) : Prop where
  filed : ∃ listing, Filed s' header' listing
  state : header'.state = .clean
  pLSN : header'.pLSN = header.pLSN
  lsn : s'.disk.lsn = max s.disk.lsn header.pLSN
  files : ∀ key, fileValue s'.disk key = (d key).map Str.bytes
  payload : ∀ key value, d key = some value → ∀ entry ∈ header'.keys.contents,
    payloadAt (s'.snapImage 0) entry.offset = value.bytes

/-- After the page was written the files have what the store has. -/
theorem KeysListed.saved {s s1 : Storage} {header1 : PageHeader}
    (hcompacted : Compacted s s1 header header1)
    (hlisted : KeysListed (dumped s1 0 header1) s' d { header1 with state := .clean })
    (hpayload : ∀ key value, d key = some value → ∀ entry ∈ header1.keys.contents,
      payloadAt ((dumped s1 0 header1).snapImage 0) entry.offset = value.bytes) :
    Saved s s' d header { header1 with state := .clean } := by
  have himage : s'.snapImage 0 = (dumped s1 0 header1).snapImage 0 := by
    rw [Storage.snapImage, Storage.snapImage, hlisted.vfd]
  refine ⟨hlisted.filed, rfl, hcompacted.pLSN, ?_, fun key ↦ ?_, ?_⟩
  · rw [hlisted.lsn, ← hcompacted.pLSN, ← hcompacted.disk]
    rfl
  · cases hkey : d key with
    | none => rw [hlisted.absent key hkey, Option.map_none]
    | some value =>
      obtain ⟨entry, hentry, hvalue⟩ := hlisted.present key value hkey
      rw [hvalue, hpayload key value hkey entry hentry, Option.map_some]
  · rw [himage]
    exact hpayload

theorem snapshot_dirty_store (h : StoreIs db d) (hheaders : db.storage.headers = [header])
    (hdirty : header.state = .dirty) (hdumpable : Dumpable db.storage)
    (hlength : db.storage.disk.vfd.content.length ≤ pagePos 1)
    (hsnapshot : snapshot db.storage = .ok s') :
    StoreIs { db with storage := s' } d ∧ ∃ header', Saved db.storage s' d header header' := by
  rw [snapshot_one_page hheaders] at hsnapshot
  obtain ⟨s2, hheader, hdump⟩ := bind_eq_ok.mp hsnapshot
  obtain ⟨s1, hdefrag, hs2⟩ := snapshotHeader_dirty hheaders h.slots hdirty hheader
  have hwritten (header1 : PageHeader) (hcompacted : Compacted db.storage s1 header header1) :
      (dumped s1 0 header1).disk.vfd.content.length = pagePos 1 := by
    obtain ⟨-, -, hdumped⟩ := snapImage_dumped s1 0 header1
    rw [hdumped, hcompacted.disk]
    exact max_eq_right hlength
  cases h with
  | empty hnone hhashmap =>
    obtain ⟨hnone1, header1, hcompacted⟩ := defragmentate_none hnone hheaders hdefrag
    rw [hs2 header1 hcompacted] at hdump
    have hstore : StoreIs { db with storage := dumped s1 0 header1 } fun _ ↦ none :=
      .empty (HoldsNone.dumped hnone1 hcompacted.headers) hhashmap
    obtain ⟨hstore', hlisted⟩ := diskDumpKeys_store hstore (dumped_headers hcompacted.headers)
      (hwritten header1 hcompacted) hdump
    refine ⟨hstore', _, hlisted.saved hcompacted ?_⟩
    rintro key value ⟨⟩
  | bound key value pointer header' offset keyMeta hone hweak hhashmap =>
    obtain rfl : header = header' := List.singleton_inj.mp (hheaders.symm.trans hone.headers)
    obtain ⟨-, hsize, -⟩ := readValue_eq_ok.mp hone.read
    have hmovable := hdumpable header (hheaders ▸ List.mem_singleton_self _) hdirty ⟨offset, pointer⟩
      (hone.keys ▸ List.mem_singleton_self _)
    rw [Storage.arenaImage, sizeAt_window, hsize] at hmovable
    obtain ⟨header1, hone1, hcompacted⟩ := defragmentate_one hone hmovable hdefrag
    rw [hs2 header1 hcompacted] at hdump
    have hstore : StoreIs { db with storage := dumped s1 0 header1 }
        (Function.update (fun _ ↦ none) key (some value)) :=
      .bound key value pointer _ 0 keyMeta (HoldsOne.dumped hone1) hweak hhashmap
    obtain ⟨hstore', hlisted⟩ := diskDumpKeys_store hstore (dumped_headers hcompacted.headers)
      (hwritten header1 hcompacted) hdump
    refine ⟨hstore', _, hlisted.saved hcompacted fun key' value' hkey' entry hentry ↦ ?_⟩
    have hvalue : value' = value := by
      by_cases heq : key' = key
      · rw [heq, Function.update_self, Option.some.injEq] at hkey'
        exact hkey'.symm
      · rw [Function.update_of_ne heq] at hkey'
        cases hkey'
    rw [hone1.keys, List.mem_singleton] at hentry
    rw [hentry, hvalue]
    exact dumped_payload hone1 hmovable.2

end Store

end FGDB.Restart
