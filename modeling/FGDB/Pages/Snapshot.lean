import FGDB.Pages.Defragmentation

/-!
# The snapshot of the pages

The loop of the snapshot defragments every dirty page, writes it to its place in
the snapshot file and marks it clean. The bytes of the pages it has gone through
are in the file, and nothing that is stored changes.
-/

namespace FGDB.Pages

open Foundation Memory Records HashMap
open FGDB.Vector (BoundedList Growth)

/-- The bytes that a page has in the arena are in its place of the snapshot file. -/
structure OnDisk (s : Storage) (index : ℕ) (header : PageHeader) : Prop where
  length : pagePos (index + 1) ≤ s.disk.vfd.content.length
  agree : AgreeBelow pageSize (s.arenaImage header.arenaId) (s.snapImage index)

/-- What writing a page to the snapshot file does to the storage apart from the page. -/
structure Dumps (s s' : Storage) (index : ℕ) : Prop extends Elsewhere s s' index where
  headers : ∀ i : ℕ, i ≠ index → s'.headers[i]? = s.headers[i]?
  snaps : ∀ i, i ≠ index → AgreeBelow pageSize (s.snapImage i) (s'.snapImage i)
  length : s'.disk.vfd.content.length = max s.disk.vfd.content.length (pagePos (index + 1))
  disk : { s'.disk with vfd := s.disk.vfd, lsn := s.disk.lsn } = s.disk
  same : s'.metas = s.metas
  allocated : s'.arena.allocatedPages = s.arena.allocatedPages

section Dump

variable {s : Storage} {index : ℕ} {header : PageHeader}

/-- The storage with a page written to the snapshot file and marked clean. -/
def dumped (s : Storage) (index : ℕ) (header : PageHeader) : Storage :=
  { s with
    arena := { s.arena with
      headers := s.arena.headers.set index { header with state := .clean } }
    disk := { s.disk with
      lsn := max s.disk.lsn header.pLSN
      vfd := (s.disk.vfd.seek (pagePos index)).write
        (s.arena.pages.load (pageStart header.arenaId) pageSize) } }

theorem diskDumpPage_eq (hs : s.Valid) (hhere : s.headers[index]? = some header)
    (hmemory : header.location = .inMemory) : diskDumpPage s index header.arenaId = .ok { s with
      disk := { s.disk with
        lsn := max s.disk.lsn header.pLSN
        vfd := (s.disk.vfd.seek (pagePos index)).write
          (s.arena.pages.load (pageStart header.arenaId) pageSize) } } := by
  have hvalid := hs.headers index header hhere
  have howns : s.arena.Owns (pageStart header.arenaId) pageSize :=
    pageStart_add_le ((hvalid.located.arenaId_lt hmemory).trans_le hs.uploaded_le)
  simp only [diskDumpPage, Storage.header, hhere, Option.elim_some, ok_bind, Arena.read,
    if_pos howns, pure_eq_ok]

theorem snapImage_dumped (s : Storage) (index : ℕ) (header : PageHeader) :
    (∀ i, i ≠ index → AgreeBelow pageSize (s.snapImage i)
      ((dumped s index header).snapImage i)) ∧
    AgreeBelow pageSize (s.arenaImage header.arenaId) ((dumped s index header).snapImage index) ∧
    (dumped s index header).disk.vfd.content.length =
      max s.disk.vfd.content.length (pagePos (index + 1)) := by
  obtain ⟨page, hpage⟩ : ∃ page, s.arena.pages.load (pageStart header.arenaId) pageSize = page :=
    ⟨_, rfl⟩
  have hlength : page.length = pageSize := by
    rw [← hpage, length_load]
  have hcontent : (dumped s index header).disk.vfd.content =
      File.patch s.disk.vfd.content (pagePos index) page := by
    simp only [dumped, File.write, File.seek, hpage]
  have himage : File.image (dumped s index header).disk.vfd.content =
      store (File.image s.disk.vfd.content) (pagePos index) page := by
    rw [hcontent, File.image_patch]
  refine ⟨fun i hi ↦ ?_, ?_, ?_⟩
  · rw [Storage.snapImage, Storage.snapImage, himage]
    apply agreeBelow_window (fun _ _ ↦ pagePos_add_le) hi.symm
    intro address haddress
    have houtside := @store_outside (File.image s.disk.vfd.content) (pagePos index) 0 page
      (by omega) address haddress
    rwa [Nat.add_zero] at houtside
  · intro place hplace
    rw [Storage.snapImage, himage, window, store_inside _ _ _ (by omega)]
    simp only [← hpage, getElem_load]
    rfl
  · rw [hcontent, File.length_patch, hlength, pagePos, pagePos, Nat.succ_mul, Nat.add_assoc]
    intro hnil
    rw [hnil] at hlength
    cases hlength

/-- A page in memory that is written out is on disk afterwards. -/
theorem dumped_effect (hs : s.Valid) (hhere : s.headers[index]? = some header)
    (hmemory : header.location = .inMemory) {header' : PageHeader}
    (hheader' : header' = { header with state := .clean }) :
    (dumped s index header).Valid ∧ Dumps s (dumped s index header) index ∧
      (dumped s index header).headers[index]? = some header' ∧
      cellsOf ((dumped s index header).image header') header'.keys.contents =
        cellsOf (s.image header) header.keys.contents ∧
      OnDisk (dumped s index header) index header' := by
  have hvalid := hs.headers index header hhere
  have hlt : index < s.headers.length := (List.getElem?_eq_some_iff.mp hhere).1
  obtain ⟨hsnaps, hagree, hlength⟩ := snapImage_dumped s index header
  have hheaders : (dumped s index header).headers = s.headers.set index header' := by
    rw [hheader']
    rfl
  have hmemory' : header'.location = .inMemory := by
    rw [hheader']
    exact hmemory
  have harenaId : header'.arenaId = header.arenaId := by
    rw [hheader']
  have hkeys : header'.keys = header.keys := by
    rw [hheader']
  have himage : (dumped s index header).image header' = s.image header := by
    rw [image_of_inMemory _ hmemory', image_of_inMemory _ hmemory, harenaId]
    rfl
  have hdumps : Dumps s (dumped s index header) index := by
    refine ⟨⟨fun i x hi hx ↦ ?_, fun _ _ _ _ _ _ ↦ rfl, Nat.le_refl _, ?_⟩, fun i hi ↦ ?_,
      hsnaps, hlength, rfl, rfl, rfl⟩
    · rcases (hs.headers i x hx).located.cases with hxm | hxd
      · rw [image_of_inMemory _ hxm, image_of_inMemory _ hxm]
        exact AgreeBelow.refl
      · rw [image_of_inDisk _ hxd, image_of_inDisk _ hxd, (hs.headers i x hx).pageId]
        exact hsnaps i hi
    · rw [hlength]
      exact Nat.le_max_left _ _
    · rw [hheaders, getElem?_set_ite hlt, if_neg hi]
  have hnew : HeaderValid (dumped s index header) index header' := by
    refine ⟨?_, .inl ⟨hmemory', ?_⟩, fun _ ↦ hmemory', ?_, ?_, ?_⟩
    · rw [hheader']
      exact hvalid.pageId
    · rw [harenaId]
      exact hvalid.located.arenaId_lt hmemory
    · rw [hheader']
      exact (nomatch ·)
    · rw [himage, hheader']
      exact hvalid.holds
    · rw [hkeys]
      exact hvalid.linked
  obtain ⟨hvalid', -⟩ := hs.update (fun i ↦ by rw [hheaders, getElem?_set_ite hlt])
    hdumps.toElsewhere hnew
    (fun i x hi hx hxm _ ↦ harenaId ▸ hs.distinct i index x header hx hhere hi hxm hmemory) (by
      rw [hheaders, List.length_set]
      exact hs.fitting) (by
      rw [hheaders, countP_set_of_eq hhere]
      · exact hs.counted
      · rw [PageHeader.isInMemory, PageHeader.isInMemory, hmemory, hmemory'])
  refine ⟨hvalid', hdumps, ?_, ?_, ?_, ?_⟩
  · rw [hheaders, List.getElem?_set_self hlt]
  · rw [himage, hkeys]
  · rw [hlength]
    exact Nat.le_max_right _ _
  · rw [harenaId]
    exact hagree

end Dump

/-- A page before and after the snapshot has gone through it. -/
inductive Kept (s s' : Storage) (index : ℕ) (header header' : PageHeader) : Prop
  | same (hheader : header' = header) (hstate : header.state ≠ .dirty)
    (himage : AgreeBelow pageSize (s.image header) (s'.image header))
    (hsnap : AgreeBelow pageSize (s.snapImage index) (s'.snapImage index))
  | snapped (hdirty : header.state = .dirty) (hclean : header'.state = .clean)
    (hmemory : header'.location = .inMemory)
    (hpointers : header'.keys.contents.map PageHeaderKey.keyMetaPtr =
      header.keys.contents.map PageHeaderKey.keyMetaPtr)
    (honDisk : OnDisk s' index header')

/-- What snapshotting one page does. -/
structure SnapshotEffect (s s' : Storage) (index : ℕ) (header : PageHeader) : Prop where
  valid : s'.Valid
  stores : ∀ q w, s'.Stores q w ↔ s.Stores q w
  elsewhere : Elsewhere s s' index
  headers : ∀ i : ℕ, i ≠ index → s'.headers[i]? = s.headers[i]?
  snaps : ∀ i, i ≠ index → AgreeBelow pageSize (s.snapImage i) (s'.snapImage i)
  length : s'.disk.vfd.content.length ≤ max s.disk.vfd.content.length (pagePos (index + 1))
  disk : { s'.disk with vfd := s.disk.vfd, lsn := s.disk.lsn } = s.disk
  metas : s'.metas = s.metas
  allocated : s'.arena.allocatedPages = s.arena.allocatedPages
  kept : ∃ header', s'.headers[index]? = some header' ∧ Kept s s' index header header'

theorem snapshotHeader_effect {s : Storage} (hs : s.Valid) {index : ℕ} {header : PageHeader}
    (hhere : s.headers[index]? = some header)
    (happart : header.state = .dirty → Apart (s.image header) header.places 0) :
    ∃ s', snapshotHeader s index = .ok s' ∧ SnapshotEffect s s' index header := by
  by_cases hdirty : header.state = .dirty
  · have hvalid := hs.headers index header hhere
    have hmemory := hvalid.warm hdirty
    obtain ⟨s1, header1, hdefrag, heffect⟩ :=
      arenaDefragmentatePage_effect hs hhere hmemory (happart hdirty)
    have hmemory1 : header1.location = .inMemory := by
      rw [heffect.same]
      exact hmemory
    have harenaId : header1.arenaId = header.arenaId := by
      rw [heffect.same]
    have hpageId : header.pageId = index := hvalid.pageId
    obtain ⟨header', hheader'⟩ : ∃ header', header' = { header1 with state := .clean } := ⟨_, rfl⟩
    obtain ⟨hvalid', hdumps, hhere', hcells, honDisk⟩ :=
      dumped_effect heffect.valid heffect.here hmemory1 hheader'
    have hdump := diskDumpPage_eq heffect.valid heffect.here hmemory1
    rw [harenaId] at hdump
    have htouches := heffect.touches
    have hdumped (q : ℕ) (w : List UInt8) :
        (dumped s1 index header1).Stores q w ↔ s1.Stores q w :=
      stores_of_cells heffect.valid hdumps.toElsewhere hdumps.headers heffect.here hhere' hcells q w
    refine ⟨dumped s1 index header1, ?_, hvalid', fun q w ↦ ?_,
      htouches.toElsewhere.trans htouches.headers hdumps.toElsewhere, fun i hi ↦ ?_, fun i hi ↦ ?_,
      ?_, ?_, ?_, ?_, header', hhere', .snapped hdirty ?_ ?_ ?_ honDisk⟩
    · simp only [snapshotHeader, Storage.header, hhere, Option.elim_some, ok_bind, if_pos hdirty,
        hdefrag, hpageId, hdump, heffect.here, pure_eq_ok, dumped, Storage.setHeader, harenaId]
    · rw [hdumped, stores_of_cells hs htouches.toElsewhere htouches.headers hhere heffect.here
        heffect.cells]
    · rw [hdumps.headers i hi, htouches.headers i hi]
    · have hsame : s1.snapImage i = s.snapImage i := by
        rw [Storage.snapImage, Storage.snapImage, heffect.disk]
      rw [← hsame]
      exact hdumps.snaps i hi
    · rw [hdumps.length, heffect.disk]
    · have hdisk := hdumps.disk
      rw [heffect.disk] at hdisk
      exact hdisk
    · rw [hdumps.same, heffect.metas]
    · rw [hdumps.allocated, htouches.allocated]
    · rw [hheader']
    · rw [hheader']
      exact hmemory1
    · rw [hheader']
      exact heffect.pointers
  · refine ⟨s, ?_, hs, fun _ _ ↦ Iff.rfl, (Touches.refl s index).toElsewhere, fun _ _ ↦ rfl,
      fun _ _ ↦ AgreeBelow.refl, Nat.le_max_left _ _, rfl, rfl, rfl, header, hhere,
      .same rfl hdirty AgreeBelow.refl AgreeBelow.refl⟩
    simp only [snapshotHeader, Storage.header, hhere, Option.elim_some, ok_bind, if_neg hdirty,
      pure_eq_ok]

section Loop

/-- What the loop has done after so many pages. -/
structure Swept (s t : Storage) (count : ℕ) : Prop where
  valid : t.Valid
  stores : ∀ q w, t.Stores q w ↔ s.Stores q w
  metas : t.metas = s.metas
  allocated : t.arena.allocatedPages = s.arena.allocatedPages
  disk : { t.disk with vfd := s.disk.vfd, lsn := s.disk.lsn } = s.disk
  longer : s.disk.vfd.content.length ≤ t.disk.vfd.content.length
  length : t.disk.vfd.content.length ≤ max s.disk.vfd.content.length (pagePos count)
  kept : ∀ (i : ℕ) (header : PageHeader), i < count → s.headers[i]? = some header →
    ∃ header', t.headers[i]? = some header' ∧ Kept s t i header header'
  headers : ∀ i : ℕ, count ≤ i → t.headers[i]? = s.headers[i]?
  image : ∀ (i : ℕ) (header : PageHeader), count ≤ i → s.headers[i]? = some header →
    AgreeBelow pageSize (s.image header) (t.image header)
  snaps : ∀ i, count ≤ i → AgreeBelow pageSize (s.snapImage i) (t.snapImage i)

theorem swept_refl {s : Storage} (hs : s.Valid) : Swept s s 0 where
  valid := hs
  stores _ _ := Iff.rfl
  metas := rfl
  allocated := rfl
  disk := rfl
  longer := Nat.le_refl _
  length := Nat.le_max_left _ _
  kept _ _ hlt := absurd hlt (Nat.not_lt_zero _)
  headers _ _ := rfl
  image _ _ _ _ := AgreeBelow.refl
  snaps _ _ := AgreeBelow.refl

/-- A page that the loop has gone through is left alone. -/
theorem Kept.later {s t t' : Storage} {i index : ℕ} {header header' next : PageHeader}
    (h : Kept s t i header header') (hhere : t.headers[i]? = some header') (hne : i ≠ index)
    (heffect : SnapshotEffect t t' index next) : Kept s t' i header header' := by
  have himage := heffect.elsewhere.image i header' hne hhere
  cases h with
  | same hheader hstate hsame hsnap =>
    rw [hheader] at himage
    exact .same hheader hstate (hsame.trans himage) (hsnap.trans (heffect.snaps i hne))
  | snapped hdirty hclean hmemory hpointers honDisk =>
    rw [image_of_inMemory _ hmemory, image_of_inMemory _ hmemory] at himage
    exact .snapped hdirty hclean hmemory hpointers
      ⟨honDisk.length.trans heffect.elsewhere.file,
        himage.symm.trans (honDisk.agree.trans (heffect.snaps i hne))⟩

theorem Apart.agree {memory memory' : Memory} {keys : List PageHeaderKey}
    {offsetBytes fragmentatedBytes : ℕ} (hholds : PageHolds memory keys offsetBytes fragmentatedBytes)
    (hagree : AgreeBelow pageSize memory memory')
    (h : Apart memory (keys.map PageHeaderKey.offset) 0) :
    Apart memory' (keys.map PageHeaderKey.offset) 0 := by
  apply h.congr
  intro place hplace
  exact (AgreeBelow.record (hagree.mono hholds.offset_le) (hholds.packed.inside place hplace)).1

/-- Every dirty page can be defragmented in place. -/
def Storage.DirtyApart (s : Storage) : Prop :=
  ∀ (i : ℕ) (header : PageHeader), s.headers[i]? = some header → header.state = .dirty →
    Apart (s.image header) header.places 0

theorem Swept.next {s t : Storage} (hs : s.Valid) (happart : s.DirtyApart) {index : ℕ}
    (h : Swept s t index) (hlt : index < s.headers.length) :
    ∃ t', snapshotHeader t index = .ok t' ∧ Swept s t' (index + 1) := by
  obtain ⟨header, hhere⟩ : ∃ header, s.headers[index]? = some header :=
    ⟨_, List.getElem?_eq_getElem hlt⟩
  have hhere' : t.headers[index]? = some header := (h.headers index (Nat.le_refl _)).trans hhere
  have himage := h.image index header (Nat.le_refl _) hhere
  obtain ⟨t', hstep, heffect⟩ := snapshotHeader_effect h.valid hhere' fun hdirty ↦
    Apart.agree (hs.headers index header hhere).holds himage (happart index header hhere hdirty)
  refine ⟨t', hstep, heffect.valid, fun q w ↦ ?_, heffect.metas.trans h.metas,
    heffect.allocated.trans h.allocated, ?_, h.longer.trans heffect.elsewhere.file, ?_,
    fun i x hi hx ↦ ?_, fun i hi ↦ ?_, fun i x hi hx ↦ ?_, fun i hi ↦ ?_⟩
  · rw [heffect.stores, h.stores]
  · have hdisk := congrArg (fun disk : Disk ↦
      { disk with vfd := s.disk.vfd, lsn := s.disk.lsn }) heffect.disk
    exact hdisk.trans h.disk
  · have hlength := heffect.length
    have hbefore := h.length
    have hnext := pagePos_add_le (Nat.lt_add_one index)
    rw [le_max_iff] at hlength hbefore ⊢
    omega
  · rcases Nat.lt_or_eq_of_le (Nat.le_of_lt_succ hi) with hold | rfl
    · obtain ⟨x', hx', hkept⟩ := h.kept i x hold hx
      exact ⟨x', (heffect.headers i hold.ne).trans hx', hkept.later hx' hold.ne heffect⟩
    · obtain rfl : header = x := Option.some.inj (hhere.symm.trans hx)
      obtain ⟨header', hnew, hkept⟩ := heffect.kept
      refine ⟨header', hnew, ?_⟩
      cases hkept with
      | same hheader hstate hsame hsnap =>
        exact .same hheader hstate (himage.trans hsame)
          ((h.snaps i (Nat.le_refl _)).trans hsnap)
      | snapped hdirty hclean hmemory hpointers honDisk =>
        exact .snapped hdirty hclean hmemory hpointers honDisk
  · rw [heffect.headers i (by omega), h.headers i (by omega)]
  · exact (h.image i x (by omega) hx).trans (heffect.elsewhere.image i x (by omega)
      ((h.headers i (by omega)).trans hx))
  · exact (h.snaps i (by omega)).trans (heffect.snaps i (by omega))

/-- The loop of the snapshot goes through all pages. -/
theorem snapshotHeaders_swept {s : Storage} (hs : s.Valid) (happart : s.DirtyApart) :
    ∃ t, (List.range s.headers.length).foldlM snapshotHeader s = .ok t ∧
      Swept s t s.headers.length :=
  @foldlM_range_ok Storage snapshotHeader (fun count t ↦ Swept s t count) _ s (swept_refl hs) fun _ _ hlt h ↦
    Swept.next hs happart h hlt

end Loop

end FGDB.Pages
