import FGDB.Pages.Contents
import Mathlib.Data.List.Nodup

/-!
# Reading and removing values

A page that is asked for is in the arena afterwards, with the bytes it had in
the snapshot file. Reading a value returns what is stored and changes nothing
else; removing one returns it too, and the keys behind it in its page move up.
-/

namespace FGDB.Pages

open Foundation Memory Records HashMap
open FGDB.Vector (BoundedList Growth)

section Warm

variable {s : Storage} {index : ℕ} {header : PageHeader}

/-- The storage with a page brought into the arena. -/
def warmed (s : Storage) (index : ℕ) (header : PageHeader) : Storage :=
  { s with
    arena := { s.arena with
      uploadedPages := s.arena.uploadedPages + 1
      pages := s.arena.pages.store (pageStart s.arena.uploadedPages)
        ((File.image s.disk.vfd.content).load (pagePos header.pageId) pageSize)
      headers := s.arena.headers.set index { header with
        arenaId := s.arena.uploadedPages
        location := .inMemory } }
    disk := { s.disk with
      vfd := { s.disk.vfd with position := pagePos header.pageId + pageSize } }
    lru := lruTouchPage s.lru s.arena.uploadedPages }

/-- What bringing a page into the arena does. -/
structure WarmEffect (s s' : Storage) (index : ℕ) (header header' : PageHeader) : Prop where
  valid : s'.Valid
  touches : Touches s s' index
  here : s'.headers[index]? = some header'
  same : header' = { header with arenaId := header'.arenaId, location := .inMemory }
  metas : s'.metas = s.metas
  cells : cellsOf (s'.image header') header'.keys.contents =
    cellsOf (s.image header) header.keys.contents
  image : AgreeBelow pageSize (s'.image header') (s.image header)

theorem WarmEffect.stores {s' : Storage} {header' : PageHeader}
    (h : WarmEffect s s' index header header') (hs : s.Valid)
    (hhere : s.headers[index]? = some header) (q : ℕ) (w : List UInt8) :
    s'.Stores q w ↔ s.Stores q w :=
  stores_of_cells hs h.touches.toElsewhere h.touches.headers hhere h.here h.cells q w

theorem pagePos_succ (pageId : ℕ) : pagePos (pageId + 1) = pagePos pageId + pageSize := by
  unfold pagePos
  rw [Nat.succ_mul, Nat.add_assoc]

/-- As long as a page is in the snapshot file only, fewer pages of the arena are handed out than
there are headers. -/
theorem Storage.Valid.uploaded_lt (hs : s.Valid) (hhere : s.headers[index]? = some header)
    (hdisk : header.location = .inDisk) : s.arena.uploadedPages < s.headers.length := by
  rw [← hs.counted]
  apply lt_of_le_of_ne List.countP_le_length
  intro hall
  have hmemory := List.countP_eq_length.mp hall header (List.mem_of_getElem? hhere)
  rw [PageHeader.isInMemory, hdisk] at hmemory
  cases hmemory

theorem warmHeader_inDisk (hs : s.Valid) (hhere : s.headers[index]? = some header)
    (hdisk : header.location = .inDisk) : warmHeader s index = .ok (warmed s index header,
      { header with arenaId := s.arena.uploadedPages, location := .inMemory }) := by
  have hlt := hs.uploaded_lt hhere hdisk
  have hspace : s.arena.uploadedPages < s.arena.allocatedPages := hlt.trans_le hs.fitting
  have hlocated : pagePos (header.pageId + 1) ≤ s.disk.vfd.content.length := by
    rcases (hs.headers index header hhere).located with h | h
    · rw [h.1] at hdisk
      cases hdisk
    · exact h.2
  rw [pagePos_succ] at hlocated
  have hread : File.read ⟨s.disk.vfd.content, pagePos header.pageId⟩ pageSize =
      (⟨s.disk.vfd.content, pagePos header.pageId + pageSize⟩,
        (File.image s.disk.vfd.content).load (pagePos header.pageId) pageSize) :=
    File.read_inside _ hlocated
  obtain ⟨s1, hs1⟩ : ∃ s1, { s with
    arena := { s.arena with uploadedPages := s.arena.uploadedPages + 1 } } = s1 := ⟨_, rfl⟩
  have hnext : arenaGetNextPage s = .ok (s1, s.arena.uploadedPages) := by
    rw [arenaGetNextPage, if_pos hspace, hs1]
  have howns : s1.arena.Owns (pageStart s.arena.uploadedPages) pageSize := by
    rw [← hs1]
    exact pageStart_add_le hspace
  have hdisk1 : s1.disk = s.disk := by
    rw [← hs1]
  have hupload : diskUploadPage s1 header.pageId s.arena.uploadedPages = .ok { s1 with
      arena := { s1.arena with
        pages := s1.arena.pages.store (pageStart s.arena.uploadedPages)
          ((File.image s.disk.vfd.content).load (pagePos header.pageId) pageSize) }
      disk := { s.disk with
        vfd := { s.disk.vfd with position := pagePos header.pageId + pageSize } } } := by
    simp only [diskUploadPage, hdisk1, File.seek, hread, Arena.write, length_load, if_pos howns,
      ok_bind, lt_irrefl, if_false, pure_eq_ok]
  have htouched : s1.headers[s.arena.uploadedPages]? = some s.headers[s.arena.uploadedPages] := by
    rw [← hs1]
    exact List.getElem?_eq_getElem hlt
  have hwarm : warmHeader s index = (heatPage s header.pageId >>= fun result ↦
      .ok (result.1.setHeader index { header with arenaId := result.2, location := .inMemory },
        { header with arenaId := result.2, location := .inMemory })) := by
    simp only [warmHeader, hhere, Option.elim_some, ok_bind, hdisk, if_true, pure_eq_ok]
  have hheat : heatPage s header.pageId = .ok ({ s1 with
      arena := { s1.arena with
        pages := s1.arena.pages.store (pageStart s.arena.uploadedPages)
          ((File.image s.disk.vfd.content).load (pagePos header.pageId) pageSize) }
      disk := { s.disk with
        vfd := { s.disk.vfd with position := pagePos header.pageId + pageSize } }
      lru := lruTouchPage s1.lru s.arena.uploadedPages }, s.arena.uploadedPages) := by
    simp only [heatPage, hnext, ok_bind, hupload, Storage.header, htouched, Option.elim_some,
      pure_eq_ok]
  rw [hwarm, hheat, ← hs1]
  rfl

theorem warmHeader_inMemory (hhere : s.headers[index]? = some header)
    (hmemory : header.location = .inMemory) : warmHeader s index = .ok (s, header) := by
  simp [warmHeader, hhere, hmemory]

theorem warmed_effect (hs : s.Valid) (hhere : s.headers[index]? = some header)
    (hdisk : header.location = .inDisk) {header' : PageHeader} (hheader' : header' =
      { header with arenaId := s.arena.uploadedPages, location := .inMemory }) :
    WarmEffect s (warmed s index header) index header header' := by
  have hvalid := hs.headers index header hhere
  have hlt : index < s.headers.length := (List.getElem?_eq_some_iff.mp hhere).1
  have hheaders : (warmed s index header).headers = s.headers.set index header' := by
    rw [hheader']
    rfl
  have hmemory : header'.location = .inMemory := by
    rw [hheader']
  have himage : AgreeBelow pageSize ((warmed s index header).image header') (s.image header) := by
    intro place hplace
    rw [image_of_inMemory _ hmemory, image_of_inDisk _ hdisk, hheader']
    simp only [Storage.arenaImage, Storage.snapImage, warmed, window]
    rw [store_inside _ _ _ (by simpa using hplace), getElem_load]
  obtain ⟨hholds, hcells⟩ := hvalid.holds.agree himage.symm
  have hkeys : header'.keys = header.keys := by
    rw [hheader']
  have hother (i : ℕ) (x : PageHeader) (hx : s.headers[i]? = some x)
      (hxm : x.location = .inMemory) : x.arenaId < s.arena.uploadedPages :=
    (hs.headers i x hx).located.arenaId_lt hxm
  have htouches : Touches s (warmed s index header) index := by
    refine ⟨⟨fun i x hi hx ↦ ?_, fun _ _ _ _ _ _ ↦ rfl, Nat.le_succ _, Nat.le_refl _⟩,
      fun i hi ↦ ?_, rfl, rfl, rfl, fun _ ↦ rfl⟩
    · rcases (hs.headers i x hx).located.cases with hxm | hxd
      · have houtside := @store_outside s.arena.pages (pageStart s.arena.uploadedPages) 0
          ((File.image s.disk.vfd.content).load (pagePos header.pageId) pageSize) (by simp)
        rw [Nat.add_zero] at houtside
        rw [image_of_inMemory _ hxm, image_of_inMemory _ hxm]
        exact agreeBelow_window (fun _ _ ↦ pageStart_add_le) (hother i x hx hxm).ne' houtside
      · rw [image_of_inDisk _ hxd, image_of_inDisk _ hxd]
        exact AgreeBelow.refl
    · rw [hheaders, getElem?_set_ite hlt, if_neg hi]
  have hnew : HeaderValid (warmed s index header) index header' := by
    refine ⟨?_, .inl ⟨hmemory, ?_⟩, fun _ ↦ hmemory, ?_, ?_, ?_⟩
    · rw [hheader']
      exact hvalid.pageId
    · rw [hheader']
      exact Nat.lt_succ_self _
    · rw [hheader']
      exact hvalid.settled
    · rw [hheader']
      rw [hheader'] at hholds
      exact hholds
    · rw [hkeys]
      exact hvalid.linked
  obtain ⟨hvalid', -⟩ := hs.update (fun i ↦ by rw [hheaders, getElem?_set_ite hlt])
    htouches.toElsewhere hnew (fun i x _ hx hxm _ ↦ by
      rw [hheader']
      exact (hother i x hx hxm).ne) (by
      rw [hheaders, List.length_set]
      exact hs.fitting) (by
      rw [hheaders, countP_set hhere]
      · rw [hs.counted]
        rfl
      · rw [PageHeader.isInMemory, hdisk]
        rfl
      · rw [PageHeader.isInMemory, hmemory]
        rfl)
  refine ⟨hvalid', htouches, ?_, ?_, rfl, ?_, himage⟩
  · rw [hheaders, List.getElem?_set_self hlt]
  · rw [hheader']
  · rw [hkeys]
    exact hcells

/-- Asking for a page brings it into the arena. -/
theorem warmHeader_effect (hs : s.Valid) (hhere : s.headers[index]? = some header) :
    ∃ s' header', warmHeader s index = .ok (s', header') ∧
      WarmEffect s s' index header header' := by
  rcases (hs.headers index header hhere).located.cases with hmemory | hdisk
  · refine ⟨s, header, warmHeader_inMemory hhere hmemory, hs, Touches.refl s index, hhere, ?_, rfl,
      rfl, AgreeBelow.refl⟩
    cases header
    simpa using hmemory
  · exact ⟨_, _, warmHeader_inDisk hs hhere hdisk, warmed_effect hs hhere hdisk rfl⟩

end Warm

section Read

variable {s : Storage} {index : ℕ} {header : PageHeader} {key : PageHeaderKey}

/-- The value of a key of a page in memory. -/
theorem readValue_eq (hs : s.Valid) (hhere : s.headers[index]? = some header)
    (hmemory : header.location = .inMemory) (hkey : key ∈ header.keys.contents) :
    ∃ value, s.arena.readValue (pageStart header.arenaId + key.offset) = .ok value ∧
      value.bytes = payloadAt (s.image header) key.offset ∧
      value.size = sizeAt (s.image header) key.offset := by
  have hvalid := hs.headers index header hhere
  have hload (place count : ℕ) : load (s.image header) place count =
      s.arena.pages.load (pageStart header.arenaId + place) count := by
    rw [image_of_inMemory _ hmemory]
    exact load_window _ _ _ _
  have hsize : leValue (s.arena.pages.load (pageStart header.arenaId + key.offset) 2) =
      sizeAt (s.image header) key.offset := by
    rw [sizeAt, hload]
  have howns : s.arena.Owns (pageStart header.arenaId + key.offset)
      (2 + leValue (s.arena.pages.load (pageStart header.arenaId + key.offset) 2)) := by
    have hinside := hvalid.holds.packed.inside key.offset (List.mem_map_of_mem hkey)
    have hoffset := hvalid.holds.offset_le
    have hpage := pageStart_add_le
      ((hvalid.located.arenaId_lt hmemory).trans_le hs.uploaded_le)
    unfold endAt at hinside
    unfold Arena.Owns
    rw [hsize]
    omega
  have hbytes : s.arena.pages.load (pageStart header.arenaId + key.offset + 2)
      (leValue (s.arena.pages.load (pageStart header.arenaId + key.offset) 2)) =
        payloadAt (s.image header) key.offset := by
    rw [payloadAt, hload, hsize, Nat.add_assoc]
  exact ⟨_, if_pos howns, hbytes, (congrArg List.length hbytes).trans (length_payloadAt _ _)⟩

/-- The page of a stored value, brought into the arena, still has it. -/
theorem WarmEffect.readValue {s' : Storage} {header' : PageHeader}
    (h : WarmEffect s s' index header header') (hs : s.Valid)
    (hhere : s.headers[index]? = some header) (hkey : key ∈ header.keys.contents) :
    ∃ value, s'.arena.readValue (pageStart header'.arenaId + key.offset) = .ok value ∧
      value.bytes = payloadAt (s.image header) key.offset ∧
      value.size = sizeAt (s'.image header') key.offset := by
  have hmemory : header'.location = .inMemory := by
    rw [h.same]
  have hkeys : header'.keys = header.keys := by
    rw [h.same]
  obtain ⟨value, hread, hbytes, hsize⟩ := readValue_eq h.valid h.here hmemory (hkeys ▸ hkey)
  refine ⟨value, hread, ?_, hsize⟩
  have hvalid := hs.headers index header hhere
  have hinside := hvalid.holds.packed.inside key.offset (List.mem_map_of_mem hkey)
  rw [hbytes]
  exact (AgreeBelow.record (h.image.symm.mono hvalid.holds.offset_le) hinside).2

/-- Getting a stored value returns it. -/
theorem pageValueGet_effect (hs : s.Valid) {pointer : ℕ} {bytes : List UInt8}
    (hstores : s.Stores pointer bytes) {keyMeta : KeyMeta}
    (hmeta : s.metas[pointer]? = some keyMeta) :
    ∃ s' value header header', pageValueGet s keyMeta = .ok (s', some (keyMeta.page, value)) ∧
      value.bytes = bytes ∧ s.headers[keyMeta.page]? = some header ∧
      WarmEffect s s' keyMeta.page header header' := by
  obtain ⟨keyMeta', header, key, hmeta', hhere, hkey, -, hvalue⟩ := hs.find hstores
  obtain rfl : keyMeta = keyMeta' := Option.some.inj (hmeta.symm.trans hmeta')
  obtain ⟨s', header', hwarm, heffect⟩ := warmHeader_effect hs hhere
  obtain ⟨value, hread, hbytes, -⟩ := heffect.readValue hs hhere (List.mem_of_getElem? hkey)
  refine ⟨s', value, header, header', ?_, hbytes.trans hvalue, hhere, heffect⟩
  have hmemory : header'.location = .inMemory := by
    rw [heffect.same]
  have hkeys : header'.keys = header.keys := by
    rw [heffect.same]
  simp only [pageValueGet, hwarm, ok_bind, if_pos hmemory, hkeys, hkey, hread, pure_eq_ok]

end Read

section Recount

/-- A key moves up by one. -/
def recounted (keyMeta : KeyMeta) : KeyMeta :=
  { keyMeta with headerKeyId := wrap16 (keyMeta.headerKeyId + (2 ^ 16 - 1)) }

theorem recountKeys_eq {metas : List KeyMeta} {keys : List PageHeaderKey}
    (hnodup : (keys.map PageHeaderKey.keyMetaPtr).Nodup)
    (hmetas : ∀ key ∈ keys, key.keyMetaPtr < metas.length) :
    ∃ metas', recountKeys metas keys = .ok metas' ∧ ∀ pointer, metas'[pointer]? =
      if pointer ∈ keys.map PageHeaderKey.keyMetaPtr then metas[pointer]?.map recounted
      else metas[pointer]? := by
  induction keys generalizing metas with
  | nil => exact ⟨metas, rfl, fun _ ↦ rfl⟩
  | cons key rest ih =>
    have hlt := hmetas key List.mem_cons_self
    rw [List.map_cons, List.nodup_cons] at hnodup
    obtain ⟨metas1, hmetas1⟩ : ∃ metas1, metas.set key.keyMetaPtr
      (recounted metas[key.keyMetaPtr]) = metas1 := ⟨_, rfl⟩
    obtain ⟨metas', hrecount, hall⟩ := @ih metas1 hnodup.2 fun other hother ↦ by
      rw [← hmetas1, List.length_set]
      exact hmetas other (List.mem_cons_of_mem _ hother)
    refine ⟨metas', ?_, fun pointer ↦ ?_⟩
    · rw [← hrecount, ← hmetas1]
      simp only [recountKeys, List.foldlM_cons, List.getElem?_eq_getElem hlt, Option.elim_some,
        ok_bind, pure_eq_ok]
      rfl
    · rw [hall, ← hmetas1, getElem?_set_ite hlt]
      by_cases hpointer : pointer = key.keyMetaPtr
      · rw [hpointer, if_neg hnodup.1, if_pos rfl, if_pos (by simp), List.getElem?_eq_getElem hlt,
          Option.map_some]
      · rw [if_neg hpointer]
        simp only [List.map_cons, List.mem_cons, hpointer, false_or]

theorem Linked.inj {metas : List KeyMeta} {index : ℕ} {keys : List PageHeaderKey}
    (h : Linked metas index keys) {i j : ℕ} {key key' : PageHeaderKey} (hi : keys[i]? = some key)
    (hj : keys[j]? = some key') (heq : key.keyMetaPtr = key'.keyMetaPtr) : i = j := by
  obtain ⟨keyMeta, hmeta, -, rfl⟩ := h i key hi
  obtain ⟨keyMeta', hmeta', -, rfl⟩ := h j key' hj
  rw [heq, hmeta', Option.some.injEq] at hmeta
  rw [hmeta]

/-- The metas of a page name it, so no other page lists them. -/
theorem Linked.page_eq {metas : List KeyMeta} {index other : ℕ} {keys keys' : List PageHeaderKey}
    (h : Linked metas index keys) (h' : Linked metas other keys') {key key' : PageHeaderKey}
    (hkey : key ∈ keys) (hkey' : key' ∈ keys') (heq : key.keyMetaPtr = key'.keyMetaPtr) :
    index = other := by
  obtain ⟨i, hi⟩ := List.getElem?_of_mem hkey
  obtain ⟨j, hj⟩ := List.getElem?_of_mem hkey'
  obtain ⟨keyMeta, hmeta, hpage, -⟩ := h i key hi
  obtain ⟨keyMeta', hmeta', hpage', -⟩ := h' j key' hj
  rw [heq, hmeta', Option.some.injEq] at hmeta
  rw [← hpage, ← hpage', hmeta]

theorem Linked.nodup {metas : List KeyMeta} {index : ℕ} {keys : List PageHeaderKey}
    (h : Linked metas index keys) : (keys.map PageHeaderKey.keyMetaPtr).Nodup := by
  rw [List.nodup_iff_getElem?_ne_getElem?]
  intro i j hij hj heq
  rw [List.length_map] at hj
  rw [List.getElem?_map, List.getElem?_map, List.getElem?_eq_getElem (hij.trans hj),
    List.getElem?_eq_getElem hj, Option.map_some, Option.map_some, Option.some.injEq] at heq
  exact hij.ne (h.inj (List.getElem?_eq_getElem (hij.trans hj)) (List.getElem?_eq_getElem hj) heq)

theorem drop_eraseIdx {α : Type} (l : List α) (index : ℕ) :
    (l.eraseIdx index).drop index = l.drop (index + 1) := by
  apply List.ext_getElem?
  intro i
  rw [List.getElem?_drop, List.getElem?_drop, List.getElem?_eraseIdx_of_ge (Nat.le_add_right _ _)]
  congr 1
  omega

theorem mem_eraseIdx_of_nodup {α β : Type} {l : List (α × β)} (hnodup : (l.map Prod.fst).Nodup)
    {index : ℕ} {a x : α × β} (ha : l[index]? = some a) :
    x ∈ l.eraseIdx index ↔ x ∈ l ∧ x.1 ≠ a.1 := by
  obtain ⟨hlt, rfl⟩ := List.getElem?_eq_some_iff.mp ha
  have hperm := List.getElem_cons_eraseIdx_perm hlt
  have hnot : l[index].1 ∉ (l.eraseIdx index).map Prod.fst :=
    (List.nodup_cons.mp ((hperm.map Prod.fst).nodup_iff.mpr hnodup)).1
  rw [← hperm.mem_iff, List.mem_cons]
  constructor
  · intro hx
    exact ⟨.inr hx, fun heq ↦ hnot (heq ▸ List.mem_map_of_mem hx)⟩
  · intro ⟨hx, hne⟩
    rcases hx with rfl | hx
    · exact absurd rfl hne
    · exact hx

/-- After the recount the keys that are left are linked again. -/
theorem Linked.recount {metas metas' : List KeyMeta} {index : ℕ} {keys : List PageHeaderKey}
    (h : Linked metas index keys) {position : ℕ} (hsmall : keys.length ≤ 2 ^ 16)
    (hmetas' : ∀ pointer : ℕ, metas'[pointer]? =
      if pointer ∈ (keys.drop (position + 1)).map PageHeaderKey.keyMetaPtr then
        metas[pointer]?.map recounted
      else metas[pointer]?) : Linked metas' index (keys.eraseIdx position) := by
  intro i key hkey
  rcases lt_or_ge i position with hlt | hge
  · rw [List.getElem?_eraseIdx_of_lt hlt] at hkey
    have hnot : key.keyMetaPtr ∉ (keys.drop (position + 1)).map PageHeaderKey.keyMetaPtr := by
      intro hmem
      obtain ⟨later, hlater, heq⟩ := List.mem_map.mp hmem
      obtain ⟨j, hj⟩ := List.getElem?_of_mem hlater
      rw [List.getElem?_drop] at hj
      have hsame := h.inj hj hkey heq
      omega
    rw [hmetas', if_neg hnot]
    exact h i key hkey
  · rw [List.getElem?_eraseIdx_of_ge hge] at hkey
    obtain ⟨keyMeta, hmeta, hpage, hid⟩ := h (i + 1) key hkey
    have hmem : key.keyMetaPtr ∈ (keys.drop (position + 1)).map PageHeaderKey.keyMetaPtr := by
      apply List.mem_map_of_mem
      apply List.mem_of_getElem? (i := i - position)
      rw [List.getElem?_drop, ← hkey]
      congr 1
      omega
    rw [hmetas', if_pos hmem, hmeta, Option.map_some]
    have hlt := (List.getElem?_eq_some_iff.mp hkey).1
    have hid' : wrap16 (keyMeta.headerKeyId + (2 ^ 16 - 1)) = i := by
      rw [hid]
      unfold wrap16
      omega
    exact ⟨recounted keyMeta, rfl, by rw [recounted, hpage], hid'⟩

end Recount

section Unset

variable {s : Storage} {pointer : ℕ} {bytes : List UInt8} {keyMeta : KeyMeta}

/-- What removing a value does. -/
structure UnsetEffect (s s' : Storage) (pointer index : ℕ) : Prop where
  valid : s'.Valid
  touches : Touches s s' index
  stores : ∀ q w, s'.Stores q w ↔ s.Stores q w ∧ q ≠ pointer
  header : ∃ header', s'.headers[index]? = some header' ∧ header'.state = .dirty

/-- The removal from a page in memory. -/
theorem unset_effect (hs : s.Valid) {index position : ℕ} {header : PageHeader}
    {key : PageHeaderKey} (hhere : s.headers[index]? = some header)
    (hmemory : header.location = .inMemory) (hkey : header.keys.contents[position]? = some key)
    {metas : List KeyMeta} (hmetas : ∀ pointer : ℕ, metas[pointer]? =
      if pointer ∈ (header.keys.contents.drop (position + 1)).map PageHeaderKey.keyMetaPtr then
        s.metas[pointer]?.map recounted
      else s.metas[pointer]?) :
    UnsetEffect s ({ s with metas := metas }.setHeader index { header with
      keys := header.keys.delete position
      state := .dirty
      fragmentatedBytes := wrap16
        (header.fragmentatedBytes + sizeAt (s.image header) key.offset) }) key.keyMetaPtr index := by
  have hvalid := hs.headers index header hhere
  have hlt : index < s.headers.length := (List.getElem?_eq_some_iff.mp hhere).1
  obtain ⟨header', hheader'⟩ : ∃ header', { header with
      keys := header.keys.delete position
      state := .dirty
      fragmentatedBytes := wrap16
        (header.fragmentatedBytes + sizeAt (s.image header) key.offset) } = header' := ⟨_, rfl⟩
  rw [hheader']
  obtain ⟨s', hs'⟩ : ∃ s', { s with metas := metas }.setHeader index header' = s' := ⟨_, rfl⟩
  rw [hs']
  have hheaders : s'.headers = s.headers.set index header' := by
    rw [← hs']
    rfl
  have himages (x : PageHeader) : s'.image x = s.image x := by
    rw [← hs']
    rfl
  have hmetas' : s'.metas = metas := by
    rw [← hs']
    rfl
  have harena : s'.arena.uploadedPages = s.arena.uploadedPages ∧
      s'.arena.allocatedPages = s.arena.allocatedPages ∧ s'.disk = s.disk := by
    rw [← hs']
    exact ⟨rfl, rfl, rfl⟩
  have hmemory' : header'.location = .inMemory := by
    rw [← hheader']
    exact hmemory
  have harenaId : header'.arenaId = header.arenaId := by
    rw [← hheader']
  have hkeys : header'.keys.contents = header.keys.contents.eraseIdx position := by
    rw [← hheader']
    rfl
  have himage : s.image header' = s.image header := by
    rw [image_of_inMemory _ hmemory', image_of_inMemory _ hmemory, harenaId]
  obtain ⟨hholds, hcells⟩ := hvalid.holds.erase hkey
  have hlength := hvalid.holds.length_le
  have hoffset : header'.offsetBytes = header.offsetBytes := by
    rw [← hheader']
  have hbytes : header'.fragmentatedBytes =
      header.fragmentatedBytes + sizeAt (s.image header) key.offset := by
    rw [← hheader']
    exact wrap16_of_le hholds.fragmentated_lt.le
  have htouches : Touches s s' index := by
    refine ⟨⟨fun i x _ _ ↦ ?_, fun i x hi hx other hother ↦ ?_, harena.1.ge, ?_⟩, fun i hi ↦ ?_,
      ?_, ?_, harena.2.1, fun q ↦ ?_⟩
    · rw [himages]
      exact AgreeBelow.refl
    · have hnot : other.keyMetaPtr ∉
          (header.keys.contents.drop (position + 1)).map PageHeaderKey.keyMetaPtr := by
        intro hmem
        obtain ⟨later, hlater, heq⟩ := List.mem_map.mp hmem
        exact hi ((hs.headers i x hx).linked.page_eq hvalid.linked hother
          (List.mem_of_mem_drop hlater) heq.symm)
      rw [hmetas', hmetas, if_neg hnot]
    · rw [harena.2.2]
    · rw [hheaders, getElem?_set_ite hlt, if_neg hi]
    · rw [harena.2.2]
    · rw [harena.2.2]
    · rw [hmetas', hmetas]
      have hkeep : KeyMeta.weakKey ∘ recounted = KeyMeta.weakKey := by
        funext keyMeta
        rw [Function.comp, recounted]
      split
      · rw [Option.map_map, hkeep]
      · rfl
  have hnew : HeaderValid s' index header' := by
    refine ⟨?_, .inl ⟨hmemory', ?_⟩, fun _ ↦ hmemory', ?_, ?_, ?_⟩
    · rw [← hheader']
      exact hvalid.pageId
    · rw [harena.1, harenaId]
      exact hvalid.located.arenaId_lt hmemory
    · rw [← hheader']
      rintro ⟨⟩
    · rw [himages, himage, hkeys, hoffset, hbytes]
      exact hholds
    · rw [hkeys, hmetas']
      refine hvalid.linked.recount ?_ hmetas
      unfold pageSize at hlength
      omega
  obtain ⟨hvalid', hstores⟩ := hs.update (fun i ↦ by rw [hheaders, getElem?_set_ite hlt])
    htouches.toElsewhere hnew
    (fun i x hi hx hxm _ ↦ harenaId ▸ hs.distinct i index x header hx hhere hi hxm hmemory) (by
      rw [hheaders, List.length_set, harena.2.1]
      exact hs.fitting) (by
      rw [hheaders, countP_set_of_eq hhere, hs.counted, harena.1]
      rw [PageHeader.isInMemory, PageHeader.isInMemory, hmemory, hmemory'])
  refine ⟨hvalid', htouches, fun q w ↦ ?_, header', ?_, ?_⟩
  · rw [hstores, stores_iff hhere, himages, himage, hkeys, hcells]
    have hcell : (cellsOf (s.image header) header.keys.contents)[position]? =
        some (key.keyMetaPtr, payloadAt (s.image header) key.offset) := by
      rw [cellsOf, List.getElem?_map, hkey, Option.map_some]
    have hnodup : ((cellsOf (s.image header) header.keys.contents).map Prod.fst).Nodup := by
      rw [cellsOf, List.map_map]
      exact hvalid.linked.nodup
    have helse : s.StoresElse index q w → q ≠ key.keyMetaPtr := by
      rintro ⟨i, x, hi, hx, hmem⟩ heq
      obtain ⟨other, hother, hcells⟩ := List.mem_map.mp hmem
      have hpointer : other.keyMetaPtr = key.keyMetaPtr := (Prod.mk.inj hcells).1.trans heq
      exact hi ((hs.headers i x hx).linked.page_eq hvalid.linked hother
        (List.mem_of_getElem? hkey) hpointer)
    rw [mem_eraseIdx_of_nodup hnodup hcell, or_and_right]
    apply or_congr_left
    exact (and_iff_left_of_imp helse).symm
  · rw [hheaders, List.getElem?_set_self hlt]
  · rw [← hheader']

/-- Removing a stored value returns it, and leaves the others. The key may be a copy of the meta
that does not have all of it. -/
theorem pageValueUnset_effect (hs : s.Valid) (hstores : s.Stores pointer bytes)
    (hmeta : s.metas[pointer]? = some keyMeta) {copy : KeyMeta} (hpage : copy.page = keyMeta.page)
    (hid : copy.headerKeyId = keyMeta.headerKeyId) :
    ∃ s' value, pageValueUnset s copy = .ok (s', some (keyMeta.page, value)) ∧
      value.bytes = bytes ∧ UnsetEffect s s' pointer keyMeta.page := by
  obtain ⟨keyMeta', header, key, hmeta', hhere, hkey, rfl, hvalue⟩ := hs.find hstores
  obtain rfl : keyMeta = keyMeta' := Option.some.inj (hmeta.symm.trans hmeta')
  obtain ⟨s1, header1, hwarm, heffect⟩ := warmHeader_effect hs hhere
  obtain ⟨value, hread, hbytes, hsize⟩ := heffect.readValue hs hhere (List.mem_of_getElem? hkey)
  have hmemory : header1.location = .inMemory := by
    rw [heffect.same]
  have hkeys : header1.keys = header.keys := by
    rw [heffect.same]
  have hvalid1 := heffect.valid.headers _ _ heffect.here
  have hlinked := hvalid1.linked
  rw [hkeys] at hlinked
  obtain ⟨metas, hrecount, hmetas⟩ := @recountKeys_eq s1.metas
    (header.keys.contents.drop (keyMeta.headerKeyId + 1))
    (hlinked.nodup.sublist ((List.drop_sublist _ _).map _)) fun other hother ↦ by
      obtain ⟨j, hj⟩ := List.getElem?_of_mem (List.mem_of_mem_drop hother)
      obtain ⟨other, hother, -⟩ := hlinked j _ hj
      exact (List.getElem?_eq_some_iff.mp hother).1
  have hunset := @unset_effect s1 heffect.valid keyMeta.page keyMeta.headerKeyId header1 key
    heffect.here hmemory (by rw [hkeys, hkey]) metas (by rw [hkeys]; exact hmetas)
  rw [← hsize, hkeys] at hunset
  refine ⟨_, value, ?_, hbytes.trans hvalue, hunset.valid, heffect.touches.trans hunset.touches,
    fun q w ↦ ?_, hunset.header⟩
  · have hdrop : (header.keys.delete keyMeta.headerKeyId).contents.drop keyMeta.headerKeyId =
        header.keys.contents.drop (keyMeta.headerKeyId + 1) := drop_eraseIdx _ _
    simp only [pageValueUnset, hpage, hid, hwarm, ok_bind, if_pos hmemory, hkeys, hdrop, hrecount,
      hkey, Option.elim_some, hread, pure_eq_ok]
  · rw [hunset.stores, heffect.stores hs hhere]

end Unset

section Metas

variable {s s' : Storage}

theorem Storage.Valid.newMeta (hs : s.Valid) :
    s.newMeta.1.Valid ∧ ∀ w, ¬ s.newMeta.1.Stores s.newMeta.2 w := by
  refine ⟨⟨hs.fitting, hs.counted, fun i x hx ↦ ?_, hs.distinct⟩, fun w hstores ↦ ?_⟩
  · have hvalid := hs.headers i x hx
    refine ⟨hvalid.pageId, hvalid.located, hvalid.warm, hvalid.settled, hvalid.holds, ?_⟩
    intro position key hkey
    obtain ⟨keyMeta, hmeta, hnames⟩ := hvalid.linked position key hkey
    have hlt := (List.getElem?_eq_some_iff.mp hmeta).1
    exact ⟨keyMeta, (List.getElem?_append_left hlt).trans hmeta, hnames⟩
  · have hold : s.Stores s.metas.length w := hstores
    obtain ⟨keyMeta, -, -, hmeta, -⟩ := hs.find hold
    exact absurd (List.getElem?_eq_some_iff.mp hmeta).1 (lt_irrefl _)

theorem modifyMeta_eq_ok {pointer : ℕ} {change : KeyMeta → KeyMeta}
    (h : s.modifyMeta pointer change = .ok s') : ∃ keyMeta, s.metas[pointer]? = some keyMeta ∧
      s' = { s with metas := s.metas.set pointer (change keyMeta) } := by
  obtain ⟨keyMeta, hload, h⟩ := bind_eq_ok.mp h
  exact ⟨keyMeta, elim_eq_ok.mp hload, (Except.ok.inj h).symm⟩

/-- Naming a meta leaves the places and the values. -/
theorem Storage.Valid.named (hs : s.Valid) {pointer : ℕ} {weakKey : Str}
    (hname : s.modifyMeta pointer (fun keyMeta ↦ { keyMeta with weakKey := some weakKey }) =
      .ok s') : s'.Valid ∧ ∀ q w, s'.Stores q w ↔ s.Stores q w := by
  obtain ⟨found, hfound, hresult⟩ := modifyMeta_eq_ok hname
  have hlt := (List.getElem?_eq_some_iff.mp hfound).1
  rw [hresult]
  refine ⟨⟨hs.fitting, hs.counted, fun i x hx ↦ ?_, hs.distinct⟩, fun _ _ ↦ Iff.rfl⟩
  have hvalid := hs.headers i x hx
  refine ⟨hvalid.pageId, hvalid.located, hvalid.warm, hvalid.settled, hvalid.holds, ?_⟩
  intro position key hkey
  obtain ⟨keyMeta, hmeta, hpage, hid⟩ := hvalid.linked position key hkey
  have hset := getElem?_set_ite hlt { found with weakKey := some weakKey } key.keyMetaPtr
  by_cases hpointer : key.keyMetaPtr = pointer
  · rw [if_pos hpointer] at hset
    rw [hpointer, hfound, Option.some.injEq] at hmeta
    rw [← hmeta] at hpage hid
    exact ⟨_, hset, hpage, hid⟩
  · rw [if_neg hpointer] at hset
    exact ⟨keyMeta, hset.trans hmeta, hpage, hid⟩

/-- The LSN of a page changes. -/
theorem Storage.Valid.stamped (hs : s.Valid) {index : ℕ} (lsn : ℕ) {header : PageHeader}
    (hhere : s.headers[index]? = some header) : ∃ s', updateLSN s index lsn = .ok s' ∧ s'.Valid ∧
      s'.metas = s.metas ∧ ∀ q w, s'.Stores q w ↔ s.Stores q w := by
  have hlt : index < s.headers.length := (List.getElem?_eq_some_iff.mp hhere).1
  have hvalid := hs.headers index header hhere
  obtain ⟨header', hheader'⟩ : ∃ header', { header with pLSN := lsn } = header' := ⟨_, rfl⟩
  obtain ⟨s', hs'⟩ : ∃ s', s.setHeader index header' = s' := ⟨_, rfl⟩
  have hupdate : updateLSN s index lsn = .ok s' := by
    rw [updateLSN, Storage.header, show s.arena.headers.contents[index]? = some header from hhere,
      Option.elim_some, ok_bind, hheader', hs', pure_eq_ok]
  have hheaders : s'.headers = s.headers.set index header' := by
    rw [← hs']
    rfl
  have himage : s'.image header' = s.image header := by
    rw [← hs', ← hheader']
    rfl
  have hkeys : header'.keys = header.keys := by
    rw [← hheader']
  have htouches : Elsewhere s s' index := by
    rw [← hs']
    exact ⟨fun _ _ _ _ ↦ AgreeBelow.refl, fun _ _ _ _ _ _ ↦ rfl, le_rfl, le_rfl⟩
  have hnew : HeaderValid s' index header' := by
    rw [← hs', ← hheader']
    exact ⟨hvalid.pageId, hvalid.located, hvalid.warm, hvalid.settled, hvalid.holds, hvalid.linked⟩
  have hlocation : header'.location = header.location := by
    rw [← hheader']
  have harenaId : header'.arenaId = header.arenaId := by
    rw [← hheader']
  obtain ⟨hvalid', hstores⟩ := hs.update (fun i ↦ by rw [hheaders, getElem?_set_ite hlt]) htouches
    hnew (fun i x hi hx hxm hm ↦ harenaId ▸ hs.distinct i index x header hx hhere hi hxm
      (hlocation ▸ hm)) (by
      rw [hheaders, List.length_set, ← hs']
      exact hs.fitting) (by
      rw [hheaders, countP_set_of_eq hhere, hs.counted, ← hs']
      · rfl
      · rw [PageHeader.isInMemory, PageHeader.isInMemory, hlocation])
  refine ⟨s', hupdate, hvalid', ?_, fun q w ↦ ?_⟩
  · rw [← hs']
    rfl
  · rw [hstores, stores_iff hhere, himage, hkeys]

end Metas

end FGDB.Pages
