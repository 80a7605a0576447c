import FGDB.Pages.Steps

/-!
# How far the snapshot file reaches

A page that is not dirty has its place in the snapshot file. No use of the pages cuts
the file, so a snapshot leaves a place for every page in it. The keys are counted when
they are dumped and at no other time.
-/

namespace FGDB.Pages

open Foundation HashMap
open FGDB.Vector (BoundedList Growth)

variable {growth : Growth} {s s' : Storage}

/-- An update that keeps what a function says about an element keeps what it says about the list. -/
theorem map_set_eq {α β : Type} {f : α → β} {l : List α} {index : ℕ} {a a' : α}
    (hhere : l[index]? = some a) (hsame : f a' = f a) : (l.set index a').map f = l.map f := by
  have hlt := (List.getElem?_eq_some_iff.mp hhere).1
  apply List.ext_getElem?
  intro i
  rw [List.getElem?_map, List.getElem?_map, getElem?_set_ite hlt]
  by_cases hi : i = index
  · rw [if_pos hi, hi, hhere, Option.map_some, Option.map_some, hsame]
  · rw [if_neg hi]

/-- Nothing is cut off the snapshot file, and no key is counted. -/
structure FileGrows (s s' : Storage) : Prop where
  counted : s'.disk.keysDumped = s.disk.keysDumped
  length : s.disk.vfd.content.length ≤ s'.disk.vfd.content.length

theorem FileGrows.trans {t : Storage} (h : FileGrows s t) (h' : FileGrows t s') : FileGrows s s' :=
  ⟨h'.counted.trans h.counted, h.length.trans h'.length⟩

theorem fileGrows_of_disk (h : s'.disk = s.disk) : FileGrows s s' :=
  ⟨congrArg Disk.keysDumped h, (congrArg (fun disk ↦ disk.vfd.content.length) h).ge⟩

/-- The pages have their numbers, those that are not dirty have a place in the snapshot file, and
no key was counted since the start. -/
structure Covered (s : Storage) : Prop where
  numbered : s.headers.map PageHeader.pageId = List.range s.headers.length
  reaches : ∀ (index : ℕ) (header : PageHeader), s.headers[index]? = some header →
    header.state = .dirty ∨ pagePos (index + 1) ≤ s.disk.vfd.content.length
  uncounted : s.disk.keysDumped = 0

namespace Covered

theorem pageId (h : Covered s) {index : ℕ} {header : PageHeader}
    (hhere : s.headers[index]? = some header) : header.pageId = index := by
  have hlt := (List.getElem?_eq_some_iff.mp hhere).1
  have hnumber := congrArg (·[index]?) h.numbered
  simp only [List.getElem?_map, hhere, Option.map_some, List.getElem?_range hlt] at hnumber
  exact Option.some.inj hnumber

theorem same (h : Covered s) (hheaders : s'.headers = s.headers) (hgrows : FileGrows s s') :
    Covered s' := by
  refine ⟨?_, fun index header hhere ↦ ?_, hgrows.counted.trans h.uncounted⟩
  · rw [hheaders]
    exact h.numbered
  · rw [hheaders] at hhere
    exact (h.reaches index header hhere).imp_right fun hreaches ↦ hreaches.trans hgrows.length

theorem set (h : Covered s) {index : ℕ} {header header' : PageHeader}
    (hhere : s.headers[index]? = some header) (hheaders : s'.headers = s.headers.set index header')
    (hpageId : header'.pageId = header.pageId)
    (hstate : header'.state = .dirty ∨ header'.state = header.state ∨
      pagePos (index + 1) ≤ s'.disk.vfd.content.length)
    (hgrows : FileGrows s s') : Covered s' := by
  have hlt := (List.getElem?_eq_some_iff.mp hhere).1
  refine ⟨?_, fun i x hx ↦ ?_, hgrows.counted.trans h.uncounted⟩
  · rw [hheaders, map_set_eq hhere hpageId, List.length_set]
    exact h.numbered
  · rw [hheaders, getElem?_set_ite hlt] at hx
    by_cases hi : i = index
    · rw [if_pos hi, Option.some.injEq] at hx
      rw [hi, ← hx]
      rcases hstate with hdirty | hsame | hreaches
      · exact .inl hdirty
      · rw [hsame]
        exact (h.reaches index header hhere).imp_right fun hreaches ↦ hreaches.trans hgrows.length
      · exact .inr hreaches
    · rw [if_neg hi] at hx
      exact (h.reaches i x hx).imp_right fun hreaches ↦ hreaches.trans hgrows.length

theorem concat (h : Covered s) {header : PageHeader} (hheaders : s'.headers = s.headers ++ [header])
    (hpageId : header.pageId = s.headers.length)
    (hstate : header.state = .dirty ∨ pagePos (s.headers.length + 1) ≤ s'.disk.vfd.content.length)
    (hgrows : FileGrows s s') : Covered s' := by
  refine ⟨?_, fun i x hx ↦ ?_, hgrows.counted.trans h.uncounted⟩
  · rw [hheaders, List.map_append, h.numbered, List.length_append, List.length_singleton,
      List.range_succ, List.map_singleton, hpageId]
  · rw [hheaders, getElem?_concat_ite] at hx
    by_cases hi : i = s.headers.length
    · rw [if_pos hi, Option.some.injEq] at hx
      rw [hi, ← hx]
      exact hstate
    · rw [if_neg hi] at hx
      exact (h.reaches i x hx).imp_right fun hreaches ↦ hreaches.trans hgrows.length

end Covered

section File

theorem diskDumpPage_grows {pageIdx arenaIdx : ℕ} (h : diskDumpPage s pageIdx arenaIdx = .ok s') :
    s'.arena = s.arena ∧ FileGrows s s' ∧
      pagePos (pageIdx + 1) ≤ s'.disk.vfd.content.length := by
  obtain ⟨header, -, h⟩ := bind_eq_ok.mp h
  obtain ⟨page, hread, h⟩ := bind_eq_ok.mp h
  have hpage : page.length = pageSize := by
    unfold Arena.read at hread
    split at hread
    · rw [← Except.ok.inj hread, Memory.length_load]
    · cases hread
  rw [← Except.ok.inj h]
  refine ⟨rfl, ⟨rfl, File.length_le_write (s.disk.vfd.seek (pagePos pageIdx)) page⟩, ?_⟩
  have hne : page ≠ [] := List.ne_nil_of_length_pos (hpage ▸ by decide)
  change pagePos (pageIdx + 1) ≤ (File.patch _ (pagePos pageIdx) page).length
  rw [File.length_patch _ _ hne, hpage, pagePos, pagePos, Nat.succ_mul, Nat.add_assoc]
  exact le_max_right _ _

theorem arenaGetNextPage_grows {arenaId : ℕ} (h : arenaGetNextPage s = .ok (s', arenaId)) :
    FileGrows s s' := by
  unfold arenaGetNextPage at h
  split at h
  · rw [← (Prod.mk.inj (Except.ok.inj h)).1]
    exact fileGrows_of_disk rfl
  · obtain ⟨⟨lru, lr⟩, -, h⟩ := bind_eq_ok.mp h
    obtain ⟨header, -, h⟩ := bind_eq_ok.mp h
    obtain ⟨s1, hdump, h⟩ := bind_eq_ok.mp h
    obtain ⟨-, hgrows, -⟩ := diskDumpPage_grows hdump
    rw [← (Prod.mk.inj (Except.ok.inj h)).1]
    exact ⟨hgrows.counted, hgrows.length⟩

theorem diskUploadPage_grows {diskPageIdx arenaIdx : ℕ}
    (h : diskUploadPage s diskPageIdx arenaIdx = .ok s') : FileGrows s s' := by
  obtain ⟨arena, -, h⟩ := bind_eq_ok.mp h
  split at h
  · cases h
  · rw [← Except.ok.inj h]
    exact ⟨rfl, le_rfl⟩

theorem heatPage_grows {pageId arenaId : ℕ} (h : heatPage s pageId = .ok (s', arenaId)) :
    FileGrows s s' := by
  obtain ⟨⟨s1, arenaPageId⟩, hnext, h⟩ := bind_eq_ok.mp h
  obtain ⟨s2, hupload, h⟩ := bind_eq_ok.mp h
  obtain ⟨_, -, h⟩ := bind_eq_ok.mp h
  have hgrows := (arenaGetNextPage_grows hnext).trans (diskUploadPage_grows hupload)
  rw [← (Prod.mk.inj (Except.ok.inj h)).1]
  exact ⟨hgrows.counted, hgrows.length⟩

theorem warmHeader_grows {page : ℕ} {header : PageHeader}
    (h : warmHeader s page = .ok (s', header)) : FileGrows s s' := by
  obtain ⟨found, -, h⟩ := bind_eq_ok.mp h
  split at h
  · obtain ⟨⟨s1, arenaId⟩, hheat, h⟩ := bind_eq_ok.mp h
    have hgrows := heatPage_grows hheat
    rw [← (Prod.mk.inj (Except.ok.inj h)).1]
    exact ⟨hgrows.counted, hgrows.length⟩
  · rw [← (Prod.mk.inj (Except.ok.inj h)).1]
    exact fileGrows_of_disk rfl

end File

section Uses

theorem warmHeader_covered {page : ℕ} {header : PageHeader} (hs : Covered s)
    (h : warmHeader s page = .ok (s', header)) : Covered s' := by
  have hgrows := warmHeader_grows h
  obtain ⟨found, hhere, ⟨-, hsame, -⟩ | hheated⟩ := warmHeader_shape h
  · rw [hsame]
    exact hs
  · apply hs.set hhere hheated.headers _ _ hgrows
    · rw [hheated.same]
    · rw [hheated.same]
      exact .inr (.inl rfl)

theorem pageValueGet_covered {key : KeyMeta} {result : Option (ℕ × Str)} (hs : Covered s)
    (h : pageValueGet s key = .ok (s', result)) : Covered s' := by
  obtain ⟨header, hwarm⟩ := pageValueGet_shape h
  exact warmHeader_covered hs hwarm

theorem pageValueUnset_covered {key : KeyMeta} {result : Option (ℕ × Str)} (hs : Covered s)
    (h : pageValueUnset s key = .ok (s', result)) : Covered s' := by
  obtain ⟨⟨s1, header⟩, hwarm, h⟩ := bind_eq_ok.mp h
  have hcovered := warmHeader_covered hs hwarm
  simp only [] at h
  split at h
  · obtain ⟨metas, -, h⟩ := bind_eq_ok.mp h
    obtain ⟨deleted, -, h⟩ := bind_eq_ok.mp h
    obtain ⟨value, -, h⟩ := bind_eq_ok.mp h
    rw [← (Prod.mk.inj (Except.ok.inj h)).1]
    exact hcovered.set (warmHeader_here hwarm) rfl rfl (.inl rfl) (fileGrows_of_disk rfl)
  · rw [← (Prod.mk.inj (Except.ok.inj h)).1]
    exact hcovered

/-- A page that is rearranged is dirty afterwards. -/
theorem arenaDefragmentatePage_dirty {pageId index : ℕ}
    (h : arenaDefragmentatePage s pageId index = .ok s') : s'.disk = s.disk ∧
      ∀ header, s'.headers[index]? = some header → header.state = .dirty := by
  obtain ⟨header, -, h⟩ := bind_eq_ok.mp h
  obtain ⟨⟨⟨arena, keys⟩, offset⟩, -, h⟩ := bind_eq_ok.mp h
  simp only [] at h
  split at h
  · cases h
  · obtain ⟨arena', -, h⟩ := bind_eq_ok.mp h
    rw [← Except.ok.inj h]
    refine ⟨rfl, fun header' hhere ↦ ?_⟩
    have hset : (arena'.headers.contents.set index { header with
        keys := keys, fragmentatedBytes := 0, offsetBytes := wrap16 offset,
        state := .dirty })[index]? = some header' := hhere
    have hlt := (List.getElem?_eq_some_iff.mp hset).1
    rw [List.length_set] at hlt
    rw [List.getElem?_set_self hlt, Option.some.injEq] at hset
    rw [← hset]

theorem arenaDefragmentatePage_covered {pageId index : ℕ} (hs : Covered s)
    (h : arenaDefragmentatePage s pageId index = .ok s') : Covered s' := by
  obtain ⟨hdisk, hdirty⟩ := arenaDefragmentatePage_dirty h
  obtain ⟨header, header', hrearranged⟩ := arenaDefragmentatePage_shape h
  have hlt := (List.getElem?_eq_some_iff.mp hrearranged.here).1
  have hhere : s'.headers[index]? = some header' := by
    rw [hrearranged.headers, List.getElem?_set_self hlt]
  exact hs.set hrearranged.here hrearranged.headers hrearranged.pageId
    (.inl (hdirty header' hhere)) (fileGrows_of_disk hdisk)

theorem headersNewPage_covered {index : ℕ} (hs : Covered s)
    (h : headersNewPage growth s = .ok (s', index)) : Covered s' := by
  obtain ⟨⟨s1, arenaId⟩, hnext, h⟩ := bind_eq_ok.mp h
  obtain ⟨headers, hadd, h⟩ := bind_eq_ok.mp h
  obtain ⟨hsame, -⟩ := arenaGetNextPage_shape hnext
  have hgrows := arenaGetNextPage_grows hnext
  have hcontents := (BoundedList.add_eq_ok.mp hadd).2.1
  rw [hsame.headers] at hcontents
  rw [← (Prod.mk.inj (Except.ok.inj h)).1]
  exact hs.concat hcontents rfl (.inl rfl) ⟨hgrows.counted, hgrows.length⟩

theorem headersAllocPage_covered {valueSize index : ℕ} (hs : Covered s)
    (h : headersAllocPage growth s valueSize = .ok (s', index)) : Covered s' := by
  obtain ⟨choice, -, h⟩ := bind_eq_ok.mp h
  cases choice with
  | fits found =>
    rw [← (Prod.mk.inj (Except.ok.inj h)).1]
    exact hs
  | noPage => exact headersNewPage_covered hs h
  | prefered found =>
    obtain ⟨header, -, h⟩ := bind_eq_ok.mp h
    obtain ⟨s1, hdefrag, h⟩ := bind_eq_ok.mp h
    obtain ⟨header1, -, h⟩ := bind_eq_ok.mp h
    split at h
    · rw [← (Prod.mk.inj (Except.ok.inj h)).1]
      exact arenaDefragmentatePage_covered hs hdefrag
    · cases h

theorem pageValueSet_covered {value : Str} {pointer index : ℕ} (hs : Covered s)
    (h : pageValueSet growth s value pointer = .ok (s', index)) : Covered s' := by
  obtain ⟨⟨s1, found⟩, halloc, h⟩ := bind_eq_ok.mp h
  obtain ⟨s2, hplace, h⟩ := bind_eq_ok.mp h
  obtain ⟨header, keys, keyMeta, hhere, -, -, -, hplaced⟩ := placeValue_eq_ok.mp hplace
  rw [← (Prod.mk.inj (Except.ok.inj h)).1, hplaced]
  exact (headersAllocPage_covered hs halloc).set hhere rfl rfl (.inr (.inl rfl))
    (fileGrows_of_disk rfl)

theorem updateLSN_covered {index lsn : ℕ} (hs : Covered s)
    (h : updateLSN s index lsn = .ok s') : Covered s' := by
  obtain ⟨header, hheader, h⟩ := bind_eq_ok.mp h
  rw [← Except.ok.inj h]
  exact hs.set (header_eq_ok.mp hheader) rfl rfl (.inr (.inl rfl)) (fileGrows_of_disk rfl)

theorem newMeta_covered (hs : Covered s) : Covered s.newMeta.1 := hs.same rfl (fileGrows_of_disk rfl)

theorem modifyMeta_covered {pointer : ℕ} {change : KeyMeta → KeyMeta} (hs : Covered s)
    (h : s.modifyMeta pointer change = .ok s') : Covered s' := by
  obtain ⟨keyMeta, -, h⟩ := bind_eq_ok.mp h
  rw [← Except.ok.inj h]
  exact hs.same rfl (fileGrows_of_disk rfl)

end Uses

section Snapshot

variable {index : ℕ}

/-- A dirty page has been rearranged, written to its place and marked clean. -/
structure PageSaved (s s' : Storage) (index : ℕ) (header header' : PageHeader) : Prop where
  headers : s'.headers = s.headers.set index header'
  pageId : header'.pageId = header.pageId
  clean : header'.state = .clean
  count : header'.keys.contents.length = header.keys.contents.length
  grows : FileGrows s s'
  reaches : pagePos (header.pageId + 1) ≤ s'.disk.vfd.content.length

/-- The snapshot leaves a page that is not dirty alone, and saves one that is. -/
theorem snapshotHeader_shape (h : snapshotHeader s index = .ok s') :
    ∃ header, s.headers[index]? = some header ∧
      ((header.state ≠ .dirty ∧ s' = s) ∨ ∃ header', PageSaved s s' index header header') := by
  obtain ⟨header, hheader, h⟩ := bind_eq_ok.mp h
  have hhere := header_eq_ok.mp hheader
  have hlt := (List.getElem?_eq_some_iff.mp hhere).1
  refine ⟨header, hhere, ?_⟩
  by_cases hdirty : header.state = .dirty
  · rw [if_pos hdirty] at h
    obtain ⟨s1, hdefrag, h⟩ := bind_eq_ok.mp h
    obtain ⟨s2, hdump, h⟩ := bind_eq_ok.mp h
    obtain ⟨last, hlast, h⟩ := bind_eq_ok.mp h
    obtain ⟨old, moved, hrearranged⟩ := arenaDefragmentatePage_shape hdefrag
    obtain rfl : header = old := Option.some.inj (hhere.symm.trans hrearranged.here)
    obtain ⟨hdisk, -⟩ := arenaDefragmentatePage_dirty hdefrag
    obtain ⟨harena, hgrows, hreaches⟩ := diskDumpPage_grows hdump
    have hheaders : s2.headers = s.headers.set index moved := by
      rw [Storage.headers, harena]
      exact hrearranged.headers
    obtain rfl : moved = last := by
      have hfound := header_eq_ok.mp hlast
      rw [hheaders, List.getElem?_set_self hlt] at hfound
      exact Option.some.inj hfound
    rw [← Except.ok.inj h]
    refine .inr ⟨{ moved with state := .clean }, ?_, hrearranged.pageId, rfl, ?_, ?_, hreaches⟩
    · change s2.headers.set index _ = _
      rw [hheaders, List.set_set]
    · have hlength := congrArg List.length hrearranged.pointers
      rwa [List.length_map, List.length_map] at hlength
    · have hsaved := (fileGrows_of_disk hdisk).trans hgrows
      exact ⟨hsaved.counted, hsaved.length⟩
  · rw [if_neg hdirty, pure_eq_ok, Except.ok.injEq] at h
    exact .inl ⟨hdirty, h.symm⟩

end Snapshot

end FGDB.Pages
