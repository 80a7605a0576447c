import FGDB.Pages.Contents

/-!
# Defragmentation of a page

The loop over the keys of a page is the compaction of its records, as long as
the size of every value is read again where the value was. A value that slides
over its own start has other bytes there, and unless these spell its size the
next value, or the end of the page, is taken for somewhere else.
-/

namespace FGDB.Pages

open Foundation Memory Records HashMap
open FGDB.Vector (BoundedList Growth)

/-- The offsets of the values of a page. -/
abbrev PageHeader.places (header : PageHeader) : List ℕ :=
  header.keys.contents.map PageHeaderKey.offset

/-- The keys with new offsets. -/
def relocated (keys : List PageHeaderKey) (places : List ℕ) : List PageHeaderKey :=
  List.zipWith (fun key place ↦ { key with offset := place }) keys places

theorem relocated_spec {keys : List PageHeaderKey} {places : List ℕ}
    (h : places.length = keys.length) :
    (relocated keys places).map PageHeaderKey.offset = places ∧
      (relocated keys places).map PageHeaderKey.keyMetaPtr =
        keys.map PageHeaderKey.keyMetaPtr := by
  induction keys generalizing places with
  | nil =>
    rw [List.length_nil, List.length_eq_zero_iff] at h
    rw [h]
    exact ⟨rfl, rfl⟩
  | cons key rest ih =>
    cases places with
    | nil => cases h
    | cons place places =>
      obtain ⟨hoffsets, hpointers⟩ := ih (Nat.succ.inj h)
      exact ⟨congrArg (List.cons place) hoffsets, congrArg (List.cons key.keyMetaPtr) hpointers⟩

theorem cellsOf_eq_zip (image : Memory) (keys : List PageHeaderKey) : cellsOf image keys =
    (keys.map PageHeaderKey.keyMetaPtr).zip
      ((keys.map PageHeaderKey.offset).map (payloadAt image)) := by
  rw [List.map_map, List.zip_map']
  rfl

/-- One step of the loop moves a record and reads its size again. -/
theorem defragmentateFrom_cons {start : ℕ} {arena : Arena} {keys : BoundedList PageHeaderKey}
    {key : PageHeaderKey} {rest : List PageHeaderKey} {blockId target : ℕ}
    (htarget : target ≤ key.offset)
    (howns : start + endAt (arena.pages.window start) key.offset ≤ pageStart arena.allocatedPages) :
    ∃ pages, defragmentateFrom start (key :: rest) blockId target (arena, keys) =
        defragmentateFrom start rest (blockId + 1)
          (target + (2 + reread (arena.pages.window start) key.offset target))
          ({ arena with pages := pages }, keys.set blockId { key with offset := wrap16 target }) ∧
      pages.window start = move (arena.pages.window start) target key.offset
        (2 + sizeAt (arena.pages.window start) key.offset) ∧
      ∀ address, address < start → pages address = arena.pages address := by
  obtain ⟨size, hsize⟩ : ∃ size, sizeAt (arena.pages.window start) key.offset = size := ⟨_, rfl⟩
  obtain ⟨pages, hpages⟩ : ∃ pages, arena.pages.store (start + target)
    (arena.pages.load (start + key.offset) (2 + size)) = pages := ⟨_, rfl⟩
  have hwindow : pages.window start =
      move (arena.pages.window start) target key.offset (2 + size) := by
    rw [← hpages, window_store, move, load_window]
  have hread (m : Memory) : leValue (m.load (start + key.offset) 2) =
      sizeAt (m.window start) key.offset := by
    rw [sizeAt, load_window]
  have hreread : sizeAt (pages.window start) key.offset =
      reread (arena.pages.window start) key.offset target := by
    rw [hwindow, ← hsize]
    exact sizeAt_move htarget
  unfold endAt at howns
  rw [hsize] at howns
  refine ⟨pages, ?_, hsize ▸ hwindow, fun address haddress ↦ ?_⟩
  · have howns1 : arena.Owns (start + key.offset) 2 := by
      unfold Arena.Owns
      omega
    have howns2 : arena.Owns (start + key.offset) (2 + size) := by
      unfold Arena.Owns
      omega
    have howns3 : arena.Owns (start + target) (2 + size) := by
      unfold Arena.Owns
      omega
    simp only [defragmentateFrom, Arena.read, if_pos howns1, ok_bind, hread, hsize,
      if_pos howns2, Arena.write, length_load, if_pos howns3, hpages]
    have howns1' : ({ arena with pages := pages } : Arena).Owns (start + key.offset) 2 := howns1
    simp only [if_pos howns1', ok_bind, hread, hreread]
  · rw [← hpages]
    exact store_of_lt _ _ _ (by omega)

/-- The keys after one step of the loop. -/
theorem contents_set_moved {keys : BoundedList PageHeaderKey} {done rest : List PageHeaderKey}
    {key : PageHeaderKey} {target : ℕ} (hkeys : keys.contents = done ++ key :: rest)
    (htarget : target ≤ pageSize) :
    (keys.set done.length { key with offset := wrap16 target }).contents =
      (done ++ [{ key with offset := target }]) ++ rest := by
  rw [wrap16_of_le htarget]
  change keys.contents.set _ _ = _
  rw [hkeys, List.append_assoc, List.singleton_append, List.set_append_right _ _ (Nat.le_refl _),
    Nat.sub_self, List.set_cons_zero]

/-- The loop is the compaction of the page. -/
theorem defragmentateFrom_eq {start : ℕ} {arena : Arena} {keys : BoundedList PageHeaderKey}
    {done todo : List PageHeaderKey} {target stop : ℕ} (hkeys : keys.contents = done ++ todo)
    (hpacked : Packed (arena.pages.window start) (todo.map PageHeaderKey.offset) stop)
    (hbelow : ∀ place ∈ todo.map PageHeaderKey.offset, target ≤ place)
    (hkept : SizesKept (arena.pages.window start) (todo.map PageHeaderKey.offset) target)
    (hstop : stop ≤ pageSize) (howns : start + stop ≤ pageStart arena.allocatedPages) :
    ∃ pages keys', defragmentateFrom start todo done.length target (arena, keys) =
        .ok (({ arena with pages := pages }, keys'),
          target + used (arena.pages.window start) (todo.map PageHeaderKey.offset)) ∧
      pages.window start =
        (compact (arena.pages.window start) (todo.map PageHeaderKey.offset) target).1 ∧
      (∀ address, address < start → pages address = arena.pages address) ∧
      keys'.contents = done ++ relocated todo
        (packedPlaces (arena.pages.window start) (todo.map PageHeaderKey.offset) target) := by
  induction todo generalizing arena keys done target with
  | nil => exact ⟨arena.pages, keys, rfl, rfl, fun _ _ ↦ rfl, hkeys⟩
  | cons key rest ih =>
    rw [List.map_cons] at hpacked hbelow hkept
    have htarget := hbelow _ List.mem_cons_self
    have hmove := move_effect hpacked htarget
    have hinside := (packed_cons.mp hpacked).1
    obtain ⟨size, hsize⟩ : ∃ size, sizeAt (arena.pages.window start) key.offset = size := ⟨_, rfl⟩
    obtain ⟨pages1, hstep, hwindow, hbefore⟩ :=
      @defragmentateFrom_cons start arena keys key rest done.length target htarget (by omega)
    rw [hsize] at hwindow
    rw [hsize, ← hwindow] at hmove
    have hreread := hkept.1.trans hsize
    have hbelow' := hmove.below
    have hkept' := (hmove.kept _).mpr hkept.2
    rw [hsize] at hbelow' hkept'
    have hcontents : (keys.set done.length { key with offset := wrap16 target }).contents =
        (done ++ [{ key with offset := target }]) ++ rest := by
      apply contents_set_moved hkeys
      unfold endAt at hinside
      omega
    obtain ⟨pages, keys', hloop, hfinal, houtside, hkeys'⟩ := @ih { arena with pages := pages1 }
      (keys.set done.length { key with offset := wrap16 target })
      (done ++ [{ key with offset := target }]) (target + (2 + size)) hcontents hmove.packed
      hbelow' hkept' howns
    have hused : used (pages1.window start) (rest.map PageHeaderKey.offset) =
        used (arena.pages.window start) (rest.map PageHeaderKey.offset) :=
      used_eq_of_payloads hmove.payloads
    have hend : target + (2 + size) + used (pages1.window start) (rest.map PageHeaderKey.offset) =
        target + used (arena.pages.window start) ((key :: rest).map PageHeaderKey.offset) := by
      rw [hused, used, used, List.map_cons, List.map_cons, List.sum_cons, hsize]
      omega
    refine ⟨pages, keys', ?_, ?_, fun address haddress ↦ ?_, ?_⟩
    · rw [hstep, hreread]
      rw [List.length_append, List.length_singleton, hend] at hloop
      exact hloop
    · rw [hfinal]
      simp only [List.map_cons, compact, hsize, ← hwindow, hmove.reread, hreread]
    · rw [houtside address haddress]
      exact hbefore address haddress
    · rw [hkeys', packedPlaces_congr hmove.sizes, List.append_assoc, List.singleton_append,
        List.map_cons, packedPlaces, hsize]
      rfl

/-- A page whose values were packed: the same keys with the same values one behind another from the
start of the page, and zeros behind them. -/
structure PagePacked (s s' : Storage) (pageId : ℕ) (header header' : PageHeader) : Prop where
  pointers : header'.keys.contents.map PageHeaderKey.keyMetaPtr =
    header.keys.contents.map PageHeaderKey.keyMetaPtr
  places : header'.places = packedPlaces (s.arenaImage pageId) header.places 0
  payloads : header'.places.map (payloadAt (s'.arenaImage pageId)) =
    header.places.map (payloadAt (s.arenaImage pageId))
  offsetBytes : header'.offsetBytes = used (s.arenaImage pageId) header.places
  fragmentatedBytes : header'.fragmentatedBytes = 0
  zeros : ∀ place, header'.offsetBytes ≤ place → place < pageSize →
    s'.arenaImage pageId place = 0
  outside : ∀ address, address < pageStart pageId ∨ pageStart pageId + pageSize ≤ address →
    s'.arena.pages address = s.arena.pages address

/-- The storage after the loop and the `memset`. -/
def defragmentated (s : Storage) (index : ℕ) (pages : Memory) (header : PageHeader) : Storage :=
  { s with arena := { s.arena with
    pages := pages
    headers := s.arena.headers.set index header } }

theorem arenaDefragmentatePage_eq {s : Storage} {pageId index : ℕ} {header : PageHeader}
    (hhere : s.headers[index]? = some header) (hpage : pageId < s.arena.allocatedPages)
    (hpacked : Packed (s.arenaImage pageId) header.places pageSize)
    (hkept : SizesKept (s.arenaImage pageId) header.places 0) :
    ∃ pages header', arenaDefragmentatePage s pageId index =
        .ok (defragmentated s index pages header') ∧
      header' = { header with
        keys := header'.keys
        fragmentatedBytes := 0
        offsetBytes := header'.offsetBytes
        state := .dirty } ∧
      Packed (pages.window (pageStart pageId)) header'.places header'.offsetBytes ∧
      PagePacked s (defragmentated s index pages header') pageId header header' := by
  have hend := pageStart_add_le hpage
  obtain ⟨final, hcompact, hpacked', hpayloads, houtside⟩ :=
    compact_spec hpacked (fun _ _ ↦ Nat.zero_le _) hkept
  obtain ⟨pages, keys, hloop, hfinal, hbelow, hkeys⟩ :=
    @defragmentateFrom_eq (pageStart pageId) s.arena header.keys [] header.keys.contents 0 pageSize
      rfl hpacked (fun _ _ ↦ Nat.zero_le _) hkept (Nat.le_refl _) hend
  replace hfinal : pages.window (pageStart pageId) = final :=
    hfinal.trans (congrArg Prod.fst hcompact)
  obtain ⟨size, hsize⟩ : ∃ size, used (s.arenaImage pageId) header.places = size := ⟨_, rfl⟩
  have hused : used (s.arena.pages.window (pageStart pageId))
      (header.keys.contents.map PageHeaderKey.offset) = size := hsize
  rw [Nat.zero_add, hsize] at hpacked'
  rw [Nat.zero_add, hused, List.length_nil] at hloop
  have hle : size ≤ pageSize := by
    rw [← hsize]
    exact hpacked.used_le
  have hlength : (packedPlaces (s.arenaImage pageId) header.places 0).length =
      header.keys.contents.length := by
    have hmap := congrArg List.length hpayloads
    simpa using hmap
  obtain ⟨hplaces, hpointers⟩ := relocated_spec hlength
  have hkeys' : keys.contents = relocated header.keys.contents
      (packedPlaces (s.arenaImage pageId) header.places 0) := hkeys
  rw [← hkeys'] at hplaces hpointers
  obtain ⟨pages', hpages'⟩ : ∃ pages', pages.store (pageStart pageId + size)
    (List.replicate (pageSize - size) 0) = pages' := ⟨_, rfl⟩
  have hzeros : (List.replicate (pageSize - size) (0 : UInt8)).length = pageSize - size :=
    List.length_replicate
  have hwindow : pages'.window (pageStart pageId) =
      store final size (List.replicate (pageSize - size) 0) := by
    rw [← hpages', window_store, hfinal]
  have hagree : AgreeBelow size final (pages'.window (pageStart pageId)) := by
    rw [hwindow]
    exact (agreeBelow_store _ (Nat.le_refl _)).symm
  obtain ⟨hpackedFinal, hpayloadsFinal⟩ := hpacked'.agree hagree
  obtain ⟨header', hheader'⟩ : ∃ header', { header with
    keys := keys
    fragmentatedBytes := 0
    offsetBytes := size
    state := .dirty } = header' := ⟨_, rfl⟩
  have hheaderPlaces : header'.places = packedPlaces (s.arenaImage pageId) header.places 0 := by
    rw [← hheader']
    exact hplaces
  have hheaderOffset : header'.offsetBytes = size := by
    rw [← hheader']
  refine ⟨pages', header', ?_, ?_, ?_, ?_, hheaderPlaces, ?_, ?_, ?_, ?_, ?_⟩
  · have howns : s.arena.Owns (pageStart pageId + size)
        (List.replicate (pageSize - size) (0 : UInt8)).length := by
      rw [hzeros]
      unfold Arena.Owns
      omega
    have hwrite : ({ s.arena with pages := pages } : Arena).write (pageStart pageId + size)
        (List.replicate (pageSize - size) 0) = .ok { s.arena with pages := pages' } := by
      rw [← hpages']
      exact if_pos howns
    simp only [arenaDefragmentatePage, Storage.header, hhere, Option.elim_some, ok_bind, hloop,
      wrap16_of_le hle, if_neg hle.not_gt, hwrite, hheader', pure_eq_ok]
    rfl
  · rw [← hheader']
  · rw [hheaderPlaces, hheaderOffset]
    exact hpackedFinal
  · rw [← hheader']
    exact hpointers
  · rw [hheaderPlaces, ← hpayloads]
    exact hpayloadsFinal
  · rw [hheaderOffset, hsize]
  · rw [← hheader']
  · intro place hfrom hto
    change pages'.window (pageStart pageId) place = 0
    rw [hheaderOffset] at hfrom
    obtain ⟨index, rfl⟩ := Nat.exists_eq_add_of_le hfrom
    rw [hwindow, store_inside _ _ _ (by rw [hzeros]; omega), List.getElem_replicate]
  · intro address haddress
    change pages' address = s.arena.pages address
    rw [← hpages', store_outside pages (by rw [hzeros]; omega) address haddress]
    rcases haddress with haddress | haddress
    · exact hbelow address haddress
    · obtain ⟨place, rfl⟩ : ∃ place, address = pageStart pageId + place :=
        ⟨address - pageStart pageId, by omega⟩
      have hsame := houtside place (.inr (by omega))
      rw [← hfinal] at hsame
      exact hsame

/-- What the defragmentation of a page does. -/
structure DefragEffect (s s' : Storage) (index : ℕ) (header header' : PageHeader) : Prop where
  valid : s'.Valid
  touches : Touches s s' index
  here : s'.headers[index]? = some header'
  same : header' = { header with
    keys := header'.keys
    fragmentatedBytes := 0
    offsetBytes := header'.offsetBytes
    state := .dirty }
  pointers : header'.keys.contents.map PageHeaderKey.keyMetaPtr =
    header.keys.contents.map PageHeaderKey.keyMetaPtr
  metas : s'.metas = s.metas
  disk : s'.disk = s.disk
  cells : cellsOf (s'.image header') header'.keys.contents =
    cellsOf (s.image header) header.keys.contents

section Defragmentation

variable {s : Storage} {index : ℕ} {header : PageHeader}

theorem defragmentated_effect (hs : s.Valid) (hhere : s.headers[index]? = some header)
    (hmemory : header.location = .inMemory) {pages : Memory} {header' : PageHeader}
    (hheader' : header' = { header with
      keys := header'.keys
      fragmentatedBytes := 0
      offsetBytes := header'.offsetBytes
      state := .dirty })
    (hpointers : header'.keys.contents.map PageHeaderKey.keyMetaPtr =
      header.keys.contents.map PageHeaderKey.keyMetaPtr)
    (hpayloads : header'.places.map (payloadAt (pages.window (pageStart header.arenaId))) =
      header.places.map (payloadAt (s.image header)))
    (hholds : PageHolds (pages.window (pageStart header.arenaId)) header'.keys.contents
      header'.offsetBytes 0)
    (hout : ∀ address, address < pageStart header.arenaId ∨
      pageStart header.arenaId + pageSize ≤ address → pages address = s.arena.pages address) :
    DefragEffect s (defragmentated s index pages header') index header header' := by
  have hvalid := hs.headers index header hhere
  have hlt : index < s.headers.length := (List.getElem?_eq_some_iff.mp hhere).1
  have hheaders : (defragmentated s index pages header').headers =
      s.headers.set index header' := rfl
  have hmemory' : header'.location = .inMemory := by
    rw [hheader']
    exact hmemory
  have harenaId : header'.arenaId = header.arenaId := by
    rw [hheader']
  have hfragmentated : header'.fragmentatedBytes = 0 := by
    rw [hheader']
  have himage : (defragmentated s index pages header').image header' =
      pages.window (pageStart header.arenaId) := by
    rw [image_of_inMemory _ hmemory', harenaId]
    rfl
  have hdistinct (i : ℕ) (x : PageHeader) (hi : i ≠ index) (hx : s.headers[i]? = some x)
      (hxm : x.location = .inMemory) : x.arenaId ≠ header.arenaId :=
    hs.distinct i index x header hx hhere hi hxm hmemory
  have htouches : Touches s (defragmentated s index pages header') index := by
    refine ⟨⟨fun i x hi hx ↦ ?_, fun _ _ _ _ _ _ ↦ rfl, Nat.le_refl _, Nat.le_refl _⟩,
      fun i hi ↦ ?_, rfl, rfl, rfl, fun _ ↦ rfl⟩
    · rcases (hs.headers i x hx).located.cases with hxm | hxd
      · rw [image_of_inMemory _ hxm, image_of_inMemory _ hxm]
        exact agreeBelow_window (fun _ _ ↦ pageStart_add_le) (hdistinct i x hi hx hxm).symm hout
      · rw [image_of_inDisk _ hxd, image_of_inDisk _ hxd]
        exact AgreeBelow.refl
    · rw [hheaders, getElem?_set_ite hlt, if_neg hi]
  have hnew : HeaderValid (defragmentated s index pages header') index header' := by
    refine ⟨?_, .inl ⟨hmemory', ?_⟩, fun _ ↦ hmemory', ?_, ?_, hvalid.linked.congr hpointers⟩
    · rw [hheader']
      exact hvalid.pageId
    · rw [harenaId]
      exact hvalid.located.arenaId_lt hmemory
    · rw [hheader']
      exact (nomatch ·)
    · rw [himage, hfragmentated]
      exact hholds
  obtain ⟨hvalid', -⟩ := hs.update (fun i ↦ by rw [hheaders, getElem?_set_ite hlt])
    htouches.toElsewhere hnew
    (fun i x hi hx hxm _ ↦ harenaId ▸ hdistinct i x hi hx hxm) (by
      rw [hheaders, List.length_set]
      exact hs.fitting) (by
      rw [hheaders, countP_set_of_eq hhere]
      · exact hs.counted
      · rw [PageHeader.isInMemory, PageHeader.isInMemory, hmemory, hmemory'])
  refine ⟨hvalid', htouches, ?_, hheader', hpointers, rfl, rfl, ?_⟩
  · rw [hheaders, List.getElem?_set_self hlt]
  · rw [cellsOf_eq_zip, cellsOf_eq_zip, himage, hpointers, hpayloads]

theorem arenaDefragmentatePage_effect (hs : s.Valid) (hhere : s.headers[index]? = some header)
    (hmemory : header.location = .inMemory) (happart : Apart (s.image header) header.places 0) :
    ∃ s' header', arenaDefragmentatePage s header.arenaId index = .ok s' ∧
      DefragEffect s s' index header header' := by
  have hvalid := hs.headers index header hhere
  have himage : s.image header = s.arenaImage header.arenaId := image_of_inMemory _ hmemory
  have hpage := (hvalid.located.arenaId_lt hmemory).trans_le hs.uploaded_le
  have hused := hvalid.holds.used_le
  have hoffset := hvalid.holds.offset_le
  obtain ⟨pages, header', hdefrag, hheader', hpacked, hpage⟩ :=
    arenaDefragmentatePage_eq hhere hpage (himage ▸ hvalid.holds.packed.mono hoffset)
      (himage ▸ happart.sizesKept)
  have hsize : used (s.image header) header.places = header'.offsetBytes := by
    rw [himage, hpage.offsetBytes]
  have hpayloads : header'.places.map (payloadAt (pages.window (pageStart header.arenaId))) =
      header.places.map (payloadAt (s.image header)) := himage ▸ hpage.payloads
  refine ⟨_, header', hdefrag, defragmentated_effect hs hhere hmemory hheader' hpage.pointers
    hpayloads ⟨hpacked, ?_, ?_, by decide⟩ hpage.outside⟩
  · rw [← hsize]
    exact (Nat.le_add_left _ _).trans (hused.trans hoffset)
  · rw [Nat.zero_add, ← hsize, ← used_eq_of_payloads hpayloads]

end Defragmentation

end FGDB.Pages
