import FGDB.Pages.Access
import FGDB.Pages.Layout
import FGDB.Pages.Snapshot

/-!
# Clean pages

A snapshot writes the dirty pages only. What it leaves out is in the file if the bytes
of every clean page are those of the file, which the removal of a value sees to and the
placing of a value does not.
-/

namespace FGDB.Pages

open Foundation Memory Records HashMap
open FGDB.Vector (BoundedList Growth)

inductive StorageCall
  | get (key : KeyMeta)
  | set (value weakKey : Str)
  | unset (key : KeyMeta)
  | snapshot
  deriving DecidableEq, Repr

/-- The meta of a new value gets its key afterwards. -/
def storageStep (growth : Growth) (s : Storage) : StorageCall → Outcome (Storage × Option ℕ)
  | .get key => pageStep growth s (.get key)
  | .set value weakKey => do
    let pointer := s.metas.length
    let (s, index) ← pageStep growth s (.set value)
    let s ← s.modifyMeta pointer fun keyMeta ↦ { keyMeta with weakKey := some weakKey }
    return (s, index)
  | .unset key => pageStep growth s (.unset key)
  | .snapshot => do
    let s ← snapshot s
    return (s, none)

/-- The bytes of a clean page in memory are in its place of the snapshot file. -/
def CleanOnDisk (s : Storage) : Prop :=
  ∀ (index : ℕ) (header : PageHeader), s.headers[index]? = some header →
    header.location = .inMemory → header.state = .clean → OnDisk s index header

/-- After a snapshot, which leaves the clean pages out, all pages in memory are on disk. -/
def SnapshotsAll (s : Storage) : Prop :=
  ∀ s', snapshot s = .ok s' → ∀ (index : ℕ) (header : PageHeader),
    s'.headers[index]? = some header → header.location = .inMemory → OnDisk s' index header

/-- A value fits into an empty page and there is a page of the arena for a new header; the page
that the search takes is in memory, is dirty and has room for the value with its size. At a
snapshot the dirty pages can be defragmented in place. -/
def KeepsClean (s : Storage) : StorageCall → Prop
  | .set value _ => value.size + 2 ≤ pageSize ∧
    ((∀ x ∈ s.headers, x.PassedOver value.size) → s.headers.length < s.arena.allocatedPages) ∧
    SetFits s value.size ∧
    ∀ index header, FirstFit s.headers value.size index header → header.state = .dirty
  | .get _ | .unset _ => True
  | .snapshot => s.DirtyApart

section Steps

variable {growth : Growth} {s s' : Storage} {index : ℕ}

/-- A step on one page leaves the other clean pages on disk. -/
theorem CleanOnDisk.touches (h : CleanOnDisk s) (htouches : Touches s s' index)
    (hhere : ∀ header, s'.headers[index]? = some header → header.location = .inMemory →
      header.state = .clean → OnDisk s' index header) : CleanOnDisk s' := by
  intro i x hx hmemory hclean
  by_cases hi : i = index
  · rw [hi] at hx ⊢
    exact hhere x hx hmemory hclean
  · rw [htouches.headers i hi] at hx
    have hdisk := h i x hx hmemory hclean
    have himage := htouches.image i x hi hx
    rw [image_of_inMemory _ hmemory, image_of_inMemory _ hmemory] at himage
    have hsnap : s'.snapImage i = s.snapImage i := by
      rw [Storage.snapImage, Storage.snapImage, htouches.content]
    refine ⟨hdisk.length.trans htouches.file, ?_⟩
    rw [hsnap]
    exact himage.symm.trans hdisk.agree

theorem warmHeader_clean (hs : s.Valid) (h : CleanOnDisk s) {page : ℕ} {header' : PageHeader}
    (hwarm : warmHeader s page = .ok (s', header')) :
    s'.Valid ∧ CleanOnDisk s' ∧ s'.headers[page]? = some header' := by
  obtain ⟨header, hhere, hcases⟩ := warmHeader_shape hwarm
  obtain ⟨s1, header1, hwarm1, heffect⟩ := warmHeader_effect hs hhere
  obtain ⟨rfl, rfl⟩ := Prod.mk.inj (Except.ok.inj (hwarm1.symm.trans hwarm))
  refine ⟨heffect.valid, ?_, heffect.here⟩
  rcases hcases with ⟨-, hsame, -⟩ | hheated
  · rw [hsame]
    exact h
  · refine h.touches heffect.touches fun x hx hmemory _ ↦ ?_
    obtain rfl : header1 = x := Option.some.inj (heffect.here.symm.trans hx)
    have hvalid := hs.headers page header hhere
    have hlength : pagePos (page + 1) ≤ s.disk.vfd.content.length := by
      rcases hvalid.located with ⟨hother, -⟩ | ⟨-, hlength⟩
      · exact nomatch hother.symm.trans hheated.cold
      · rwa [hvalid.pageId] at hlength
    have himage := heffect.image
    rw [image_of_inMemory _ hmemory, image_of_inDisk _ hheated.cold, hvalid.pageId] at himage
    have hsnap : s1.snapImage page = s.snapImage page := by
      rw [Storage.snapImage, Storage.snapImage, heffect.touches.content]
    refine ⟨hlength.trans heffect.touches.file, ?_⟩
    rw [hsnap]
    exact himage

/-- A place that a page lists has a meta that names it. -/
theorem Storage.Valid.listed (hs : s.Valid) {header : PageHeader}
    (hhere : s.headers[index]? = some header) {position : ℕ} {key : PageHeaderKey}
    (hkey : header.keys.contents[position]? = some key) :
    ∃ keyMeta, s.metas[key.keyMetaPtr]? = some keyMeta ∧ keyMeta.page = index ∧
      keyMeta.headerKeyId = position ∧
        s.Stores key.keyMetaPtr (payloadAt (s.image header) key.offset) := by
  obtain ⟨keyMeta, hmeta, hpage, hid⟩ := (hs.headers index header hhere).linked position key hkey
  exact ⟨keyMeta, hmeta, hpage, hid, index, header, hhere,
    List.mem_map.mpr ⟨key, List.mem_of_getElem? hkey, rfl⟩⟩

/-- A removal that returns took a value away. -/
theorem pageValueUnset_removes (hs : s.Valid) {key : KeyMeta} {result : Option (ℕ × Str)}
    (hunset : pageValueUnset s key = .ok (s', result)) :
    ∃ pointer, UnsetEffect s s' pointer key.page := by
  obtain ⟨⟨s1, header1⟩, hwarm, hrest⟩ := bind_eq_ok.mp hunset
  obtain ⟨header, hhere, -⟩ := warmHeader_shape hwarm
  obtain ⟨s2, header2, hwarm2, heffect⟩ := warmHeader_effect hs hhere
  obtain ⟨rfl, rfl⟩ := Prod.mk.inj (Except.ok.inj (hwarm2.symm.trans hwarm))
  have hmemory : header2.location = .inMemory := by
    rw [heffect.same]
  have hkeys : header2.keys = header.keys := by
    rw [heffect.same]
  simp only [if_pos hmemory] at hrest
  obtain ⟨metas, -, hrest⟩ := bind_eq_ok.mp hrest
  obtain ⟨deleted, hdeleted, -⟩ := bind_eq_ok.mp hrest
  have hkey : header.keys.contents[key.headerKeyId]? = some deleted := by
    rw [hkeys] at hdeleted
    exact elim_eq_ok.mp hdeleted
  obtain ⟨keyMeta, hmeta, hpage, hid, hstores⟩ := hs.listed hhere hkey
  obtain ⟨s3, value, hunset3, -, hremoved⟩ :=
    pageValueUnset_effect hs hstores hmeta hpage.symm hid.symm
  obtain ⟨rfl, -⟩ := Prod.mk.inj (Except.ok.inj (hunset3.symm.trans hunset))
  rw [hpage] at hremoved
  exact ⟨_, hremoved⟩

theorem pageValueUnset_clean (hs : s.Valid) (h : CleanOnDisk s) {key : KeyMeta}
    {result : Option (ℕ × Str)} (hunset : pageValueUnset s key = .ok (s', result)) :
    s'.Valid ∧ CleanOnDisk s' := by
  obtain ⟨pointer, hremoved⟩ := pageValueUnset_removes hs hunset
  refine ⟨hremoved.valid, h.touches hremoved.touches fun x hx _ hclean ↦ ?_⟩
  obtain ⟨header', hheader', hdirty⟩ := hremoved.header
  obtain rfl : header' = x := Option.some.inj (hheader'.symm.trans hx)
  rw [hdirty] at hclean
  cases hclean

theorem pageValueSet_clean (hs : s.Valid) (h : CleanOnDisk s) {value : Str} {pointer : ℕ}
    (hfresh : ∀ w, ¬ s.Stores pointer w) {weakKey : Str}
    (hkeeps : KeepsClean s (.set value weakKey))
    (hset : pageValueSet growth s value pointer = .ok (s', index)) :
    s'.Valid ∧ CleanOnDisk s' := by
  obtain ⟨hsize, hroom, hfits, hdirty⟩ := hkeeps
  have heffect := pageValueSet_effect hs hroom hfits hsize hfresh hset
  have hstate : (s.headers[index]?.map PageHeader.state).getD .dirty = .dirty := by
    rcases (pageValueSet_eq_ok hs hroom).mp hset with ⟨header, hfirst, -⟩ | ⟨-, hindex, -⟩
    · rw [hfirst.here, Option.map_some, Option.getD_some]
      exact hdirty index header hfirst
    · rw [hindex, List.getElem?_eq_none le_rfl]
      rfl
  refine ⟨heffect.valid, h.touches heffect.touches fun x hx _ hclean ↦ ?_⟩
  obtain ⟨header', hheader', hnow⟩ := heffect.header
  obtain rfl : header' = x := Option.some.inj (hheader'.symm.trans hx)
  exact nomatch (hnow.trans hstate).symm.trans hclean

theorem pageStep_set_clean (hs : s.Valid) (h : CleanOnDisk s) {value weakKey : Str}
    (hkeeps : KeepsClean s (.set value weakKey)) {output : Option ℕ}
    (hstep : pageStep growth s (.set value) = .ok (s', output)) : s'.Valid ∧ CleanOnDisk s' := by
  obtain ⟨⟨s1, index⟩, hset, hresult⟩ := bind_eq_ok.mp hstep
  obtain ⟨hvalid, hfresh⟩ := hs.newMeta
  have hclean : CleanOnDisk s.newMeta.1 := fun i x hx hmemory hstate ↦
    ⟨(h i x hx hmemory hstate).length, (h i x hx hmemory hstate).agree⟩
  have hkeeps' : KeepsClean s.newMeta.1 (.set value weakKey) := hkeeps
  rw [← (Prod.mk.inj (Except.ok.inj hresult)).1]
  exact pageValueSet_clean hvalid hclean hfresh hkeeps' hset

/-- Naming a meta leaves the places. -/
theorem modifyMeta_clean (hs : s.Valid) (h : CleanOnDisk s) {pointer : ℕ} {weakKey : Str}
    (hname : s.modifyMeta pointer (fun keyMeta ↦ { keyMeta with weakKey := some weakKey }) =
      .ok s') : s'.Valid ∧ CleanOnDisk s' := by
  refine ⟨(hs.named hname).1, fun i x hx hmemory hstate ↦ ?_⟩
  obtain ⟨found, -, hresult⟩ := modifyMeta_eq_ok hname
  rw [hresult] at hx ⊢
  have hdisk := h i x hx hmemory hstate
  exact ⟨hdisk.length, hdisk.agree⟩

/-- The keys are written to the other file. -/
theorem diskDumpKeys_clean (hs : s.Valid) (h : CleanOnDisk s) (hdump : diskDumpKeys s = .ok s') :
    s'.Valid ∧ CleanOnDisk s' := by
  obtain ⟨dump, -, hdump⟩ := bind_eq_ok.mp hdump
  rw [← Except.ok.inj hdump]
  refine ⟨⟨hs.fitting, hs.counted, fun i x hx ↦ ?_, hs.distinct⟩, fun i x hx hmemory hstate ↦ ?_⟩
  · have hvalid := hs.headers i x hx
    exact ⟨hvalid.pageId, hvalid.located, hvalid.warm, hvalid.settled, hvalid.holds, hvalid.linked⟩
  · have hdisk := h i x hx hmemory hstate
    exact ⟨hdisk.length, hdisk.agree⟩

theorem snapshot_clean (hs : s.Valid) (h : CleanOnDisk s) (happart : s.DirtyApart)
    (hsnapshot : snapshot s = .ok s') : s'.Valid ∧ CleanOnDisk s' ∧
      ∀ header ∈ s'.headers, header.state = .clean := by
  obtain ⟨t, hloop, hswept⟩ := snapshotHeaders_swept hs happart
  obtain ⟨t', hloop', hdump⟩ := bind_eq_ok.mp hsnapshot
  obtain rfl : t = t' := Except.ok.inj (hloop.symm.trans hloop')
  have hkept (i : ℕ) (x : PageHeader) (hx : t.headers[i]? = some x) :
      ∃ old, s.headers[i]? = some old ∧ Kept s t i old x := by
    have hlt : i < s.headers.length := by
      by_contra hle
      rw [hswept.headers i (Nat.le_of_not_lt hle),
        List.getElem?_eq_none (Nat.le_of_not_lt hle)] at hx
      cases hx
    obtain ⟨x', hx', hkept⟩ := hswept.kept i _ hlt (List.getElem?_eq_getElem hlt)
    obtain rfl : x' = x := Option.some.inj (hx'.symm.trans hx)
    exact ⟨_, List.getElem?_eq_getElem hlt, hkept⟩
  have hclean : CleanOnDisk t := by
    intro i x hx hmemory hstate
    obtain ⟨old, hold, hkept⟩ := hkept i x hx
    cases hkept with
    | same hheader _ himage hsnap =>
      rw [hheader] at hmemory hstate ⊢
      have hdisk := h i old hold hmemory hstate
      rw [image_of_inMemory _ hmemory, image_of_inMemory _ hmemory] at himage
      exact ⟨hdisk.length.trans hswept.longer, himage.symm.trans (hdisk.agree.trans hsnap)⟩
    | snapped _ _ _ _ honDisk => exact honDisk
  obtain ⟨hvalid, hdumped⟩ := diskDumpKeys_clean hswept.valid hclean hdump
  refine ⟨hvalid, hdumped, fun header hheader ↦ ?_⟩
  obtain ⟨dump, -, hdump⟩ := bind_eq_ok.mp hdump
  have hheaders : s'.headers = t.headers := by
    rw [← Except.ok.inj hdump]
  rw [hheaders] at hheader
  obtain ⟨i, hi⟩ := List.getElem?_of_mem hheader
  obtain ⟨old, hold, hkept⟩ := hkept i header hi
  have hsettled := (hs.headers i old hold).settled
  cases hkept with
  | same hheader hstate =>
    rw [hheader]
    cases hnow : old.state with
    | dirty => exact absurd hnow hstate
    | clean => rfl
    | processing => exact absurd hnow hsettled
  | snapped _ hnow => exact hnow

/-- When the clean pages are on disk, a snapshot loses nothing. -/
theorem CleanOnDisk.snapshotsAll (h : CleanOnDisk s) (hs : s.Valid) (happart : s.DirtyApart) :
    SnapshotsAll s := by
  intro s' hsnapshot index header hheader hmemory
  obtain ⟨-, hclean, hall⟩ := snapshot_clean hs h happart hsnapshot
  exact hclean index header hheader hmemory (hall header (List.mem_of_getElem? hheader))

theorem storageStep_clean {call : StorageCall} {output : Option ℕ} (hs : s.Valid)
    (h : CleanOnDisk s) (hkeeps : KeepsClean s call)
    (hstep : storageStep growth s call = .ok (s', output)) : s'.Valid ∧ CleanOnDisk s' := by
  cases call with
  | get key =>
    obtain ⟨⟨s1, result⟩, hget, hresult⟩ := bind_eq_ok.mp hstep
    obtain ⟨header, hwarm⟩ := pageValueGet_shape hget
    obtain ⟨hvalid, hclean, -⟩ := warmHeader_clean hs h hwarm
    rw [← (Prod.mk.inj (Except.ok.inj hresult)).1]
    exact ⟨hvalid, hclean⟩
  | set value weakKey =>
    obtain ⟨⟨s1, index⟩, hset, hrest⟩ := bind_eq_ok.mp hstep
    obtain ⟨s2, hname, hresult⟩ := bind_eq_ok.mp hrest
    obtain ⟨hvalid, hclean⟩ := pageStep_set_clean hs h hkeeps hset
    rw [← (Prod.mk.inj (Except.ok.inj hresult)).1]
    exact modifyMeta_clean hvalid hclean hname
  | unset key =>
    obtain ⟨⟨s1, result⟩, hunset, hresult⟩ := bind_eq_ok.mp hstep
    rw [← (Prod.mk.inj (Except.ok.inj hresult)).1]
    exact pageValueUnset_clean hs h hunset
  | snapshot =>
    obtain ⟨s1, hsnapshot, hresult⟩ := bind_eq_ok.mp hstep
    rw [← (Prod.mk.inj (Except.ok.inj hresult)).1]
    obtain ⟨hvalid, hclean, -⟩ := snapshot_clean hs h hkeeps hsnapshot
    exact ⟨hvalid, hclean⟩

end Steps

/-- From a valid storage with no page in memory every run keeps the clean pages on disk, as long as
values are put into dirty pages, in which they fit with their sizes. -/
theorem cleanOnDisk_of_keeps {growth : Growth} {start : Storage} (hvalid : start.Valid)
    (hcold : ∀ header ∈ start.headers, header.location = .inDisk) {calls : List StorageCall}
    (hkeeps : EachStep (storageStep growth) KeepsClean start calls) {s : Storage}
    {outputs : List (Option ℕ)} (hrun : run (storageStep growth) start calls = .ok (s, outputs)) :
    CleanOnDisk s ∧ (s.DirtyApart → SnapshotsAll s) := by
  have hstart : CleanOnDisk start := by
    intro index header hheader hmemory
    have hdisk := hcold header (List.mem_of_getElem? hheader)
    exact nomatch hdisk.symm.trans hmemory
  have hreached : s.Valid ∧ CleanOnDisk s :=
    @run_invariant _ _ _ _ _ (fun s ↦ s.Valid ∧ CleanOnDisk s)
      (fun _ _ _ _ h hkeeps hstep ↦ storageStep_clean h.1 h.2 hkeeps hstep) start s calls outputs
      ⟨hvalid, hstart⟩ hkeeps hrun
  exact ⟨hreached.2, hreached.2.snapshotsAll hreached.1⟩

theorem emptyStorage_valid (growth : Growth) (pages : ℕ) (memory : Memory) (headers : ℕ)
    (disk : Disk) : (emptyStorage growth pages memory headers disk).Valid :=
  ⟨Nat.zero_le _, rfl, nofun, nofun⟩

theorem cleanOnDisk_one_value : ∃ s : Storage, s.headers.map PageHeader.state = [.clean] ∧
    CleanOnDisk s ∧ (s.DirtyApart → SnapshotsAll s) := by
  obtain ⟨start, hstart⟩ : ∃ start, emptyStorage oneMore 2 (fun _ ↦ 0) 0 (initDisk [] []) = start :=
    ⟨_, rfl⟩
  obtain ⟨calls, hcalls⟩ : ∃ calls : List StorageCall, calls = [.set ⟨[118], by decide⟩ ⟨[107], by decide⟩,
    .snapshot] := ⟨_, rfl⟩
  have hstates : (run (storageStep oneMore) start calls).toOption.map
      (fun result ↦ result.1.headers.map PageHeader.state) = some [.clean] := by
    rw [← hstart, hcalls]
    decide +kernel
  have hplaces : (storageStep oneMore start (.set ⟨[118], by decide⟩ ⟨[107], by decide⟩)).toOption.map
      (fun result ↦ result.1.headers.map PageHeader.places) = some [[0]] := by
    rw [← hstart]
    decide +kernel
  have hkeeps : EachStep (storageStep oneMore) KeepsClean start calls := by
    rw [hcalls]
    refine ⟨?_, fun next output hnext ↦ ⟨fun i header hheader _ ↦ ?_, fun _ _ _ ↦ trivial⟩⟩
    · rw [← hstart]
      exact ⟨by decide, fun _ ↦ Nat.two_pos, fun _ _ hfirst ↦ (nomatch hfirst.here),
        fun _ _ hfirst ↦ (nomatch hfirst.here)⟩
    · rw [hnext] at hplaces
      have hlist : next.headers.map PageHeader.places = [[0]] := Option.some.inj hplaces
      have hmem : header.places ∈ next.headers.map PageHeader.places :=
        List.mem_map_of_mem (List.mem_of_getElem? hheader)
      rw [hlist, List.mem_singleton] at hmem
      rw [hmem]
      exact ⟨.inl rfl, trivial⟩
  obtain ⟨result, hrun, hlist⟩ := exists_ok_of_map hstates
  rw [← hstart] at hkeeps hrun
  exact ⟨result.1, hlist, cleanOnDisk_of_keeps (emptyStorage_valid _ _ _ _ _) nofun hkeeps hrun⟩

/-- A value is put into the page that a snapshot has made clean, and the page stays clean. -/
theorem not_cleanOnDisk_second_value : ∃ s outputs,
    run (storageStep oneMore) (emptyStorage oneMore 2 (fun _ ↦ 0) 0 (initDisk [] []))
      [.set ⟨[118], by decide⟩ ⟨[107], by decide⟩, .snapshot, .set ⟨[118], by decide⟩ ⟨[107], by decide⟩] =
        .ok (s, outputs) ∧ ¬ CleanOnDisk s := by
  have hbytes : (run (storageStep oneMore) (emptyStorage oneMore 2 (fun _ ↦ 0) 0 (initDisk [] []))
      [.set ⟨[118], by decide⟩ ⟨[107], by decide⟩, .snapshot, .set ⟨[118], by decide⟩ ⟨[107], by decide⟩]).toOption.map
        (fun result ↦ (result.1.headers[0]?.map fun header ↦
          (header.location, header.state, result.1.arenaImage header.arenaId 3),
            result.1.snapImage 0 3)) = some (some (.inMemory, .clean, 1), 0) := by
    decide +kernel
  obtain ⟨result, hrun, hseen⟩ := exists_ok_of_map hbytes
  refine ⟨result.1, result.2, hrun, fun h ↦ ?_⟩
  have hvalues := Prod.mk.inj hseen
  obtain ⟨header, hheader, hfields⟩ := Option.map_eq_some_iff.mp hvalues.1
  have hfields' := Prod.mk.inj hfields
  have hrest := Prod.mk.inj hfields'.2
  have hagree := (h 0 header hheader hfields'.1 hrest.1).agree 3 (by decide)
  rw [hrest.2, hvalues.2] at hagree
  exact absurd hagree (by decide)

end FGDB.Pages
