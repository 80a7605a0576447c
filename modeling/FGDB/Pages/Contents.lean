import FGDB.Foundation.Records
import FGDB.Pages.Manager
import Mathlib.Data.List.Count

/-!
# What the pages hold

The bytes of a page lie in the arena or in the snapshot file. A page holds the
values of its keys when they are packed records of these bytes, and the storage
is valid when every page does, every meta names the place of its value, and no
two pages in memory share a page of the arena. What the storage holds is then a
relation between metas and values, which is all that its operations are about.
-/

namespace FGDB.Pages

open Foundation Memory Records HashMap
open FGDB.Vector (BoundedList Growth)

theorem wrap16_of_le {size : ℕ} (h : size ≤ pageSize) : wrap16 size = size := by
  unfold pageSize at h
  exact Nat.mod_eq_of_lt (by omega)

/-- The metas of the keys with their values. -/
def cellsOf (image : Memory) (keys : List PageHeaderKey) : List (ℕ × List UInt8) :=
  keys.map fun key ↦ (key.keyMetaPtr, payloadAt image key.offset)

/-- The values of the keys are packed in the page, and the bytes that removed values left are
counted. -/
structure PageHolds (image : Memory) (keys : List PageHeaderKey)
    (offsetBytes fragmentatedBytes : ℕ) : Prop where
  packed : Packed image (keys.map PageHeaderKey.offset) offsetBytes
  offset_le : offsetBytes ≤ pageSize
  used_le : fragmentatedBytes + used image (keys.map PageHeaderKey.offset) ≤ offsetBytes
  fragmentated_lt : fragmentatedBytes < pageSize

section Page

variable {image image' : Memory} {keys : List PageHeaderKey} {offsetBytes fragmentatedBytes : ℕ}

theorem pageHolds_nil (image : Memory) : PageHolds image [] 0 0 where
  packed := packed_nil _ _
  offset_le := Nat.zero_le _
  used_le := Nat.le_refl 0
  fragmentated_lt := by decide

theorem PageHolds.length_le (h : PageHolds image keys offsetBytes fragmentatedBytes) :
    2 * keys.length ≤ pageSize := by
  have hlength := length_le_used image (keys.map PageHeaderKey.offset)
  rw [List.length_map] at hlength
  have hused := h.used_le
  have hoffset := h.offset_le
  omega

theorem PageHolds.agree (h : PageHolds image keys offsetBytes fragmentatedBytes)
    (hagree : AgreeBelow pageSize image image') :
    PageHolds image' keys offsetBytes fragmentatedBytes ∧
      cellsOf image' keys = cellsOf image keys := by
  obtain ⟨hpacked, hpayloads⟩ := h.packed.agree (hagree.mono h.offset_le)
  refine ⟨⟨hpacked, h.offset_le, ?_, h.fragmentated_lt⟩, ?_⟩
  · rw [used_eq_of_payloads hpayloads]
    exact h.used_le
  · apply List.map_congr_left
    intro key hkey
    have hinside := h.packed.inside key.offset (List.mem_map_of_mem hkey)
    rw [(AgreeBelow.record (hagree.mono h.offset_le) hinside).2]

/-- A header that lists the same places, none of them lost, holds what the page held. -/
theorem PageHolds.reread (h : PageHolds image keys offsetBytes fragmentatedBytes)
    {keys' : List PageHeaderKey}
    (hplaces : keys'.map PageHeaderKey.offset = keys.map PageHeaderKey.offset) :
    PageHolds image keys' offsetBytes 0 := by
  refine ⟨hplaces ▸ h.packed, h.offset_le, ?_, by decide⟩
  have hused := h.used_le
  rw [hplaces]
  omega

/-- A value goes behind the others. -/
theorem PageHolds.push (h : PageHolds image keys offsetBytes fragmentatedBytes) (value : Str)
    (pointer : ℕ) (hfit : offsetBytes + (value.size + 2) ≤ pageSize) :
    PageHolds (store image offsetBytes (record value.bytes)) (keys ++ [⟨offsetBytes, pointer⟩])
        (offsetBytes + (value.size + 2)) fragmentatedBytes ∧
      cellsOf (store image offsetBytes (record value.bytes)) (keys ++ [⟨offsetBytes, pointer⟩]) =
        cellsOf image keys ++ [(pointer, value.bytes)] := by
  obtain ⟨hpacked, hpayloads⟩ := h.packed.push value.size_lt
  have hstop : offsetBytes + 2 + value.bytes.length = offsetBytes + (value.size + 2) := by
    rw [Str.size]
    omega
  rw [hstop] at hpacked
  have hagree : AgreeBelow offsetBytes image (store image offsetBytes (record value.bytes)) :=
    (agreeBelow_store _ (Nat.le_refl _)).symm
  have hvalue := (record_store image offsetBytes value.size_lt).2
  have hused := h.packed.used_push value.size_lt
  refine ⟨⟨by simpa using hpacked, hfit, ?_, h.fragmentated_lt⟩, ?_⟩
  · have hle := h.used_le
    rw [List.map_append, List.map_singleton, hused, Str.size]
    omega
  · simp only [cellsOf, List.map_append, List.map_singleton, hvalue, List.append_cancel_right_eq]
    apply List.map_congr_left
    intro key hkey
    have hinside := h.packed.inside key.offset (List.mem_map_of_mem hkey)
    rw [(AgreeBelow.record hagree hinside).2]

theorem used_eraseIdx {places : List ℕ} {index place : ℕ} (h : places[index]? = some place) :
    used image (places.eraseIdx index) + (2 + sizeAt image place) = used image places := by
  have hperm := List.getElem_cons_eraseIdx_perm (List.getElem?_eq_some_iff.mp h).1
  have hsum := (hperm.map fun place ↦ 2 + sizeAt image place).sum_eq
  rw [(List.getElem?_eq_some_iff.mp h).2, List.map_cons, List.sum_cons] at hsum
  unfold used
  omega

/-- A value is given up; its bytes are counted, those of its size are not. -/
theorem PageHolds.erase (h : PageHolds image keys offsetBytes fragmentatedBytes) {index : ℕ}
    {key : PageHeaderKey} (hkey : keys[index]? = some key) :
    PageHolds image (keys.eraseIdx index) offsetBytes
        (fragmentatedBytes + sizeAt image key.offset) ∧
      cellsOf image (keys.eraseIdx index) = (cellsOf image keys).eraseIdx index := by
  have hplace : (keys.map PageHeaderKey.offset)[index]? = some key.offset := by
    rw [List.getElem?_map, hkey, Option.map_some]
  have hused := @used_eraseIdx image _ _ _ hplace
  have hle := h.used_le
  have hoffset := h.offset_le
  refine ⟨⟨?_, h.offset_le, ?_, ?_⟩, ?_⟩
  · rw [← List.eraseIdx_map]
    exact h.packed.sublist (List.eraseIdx_sublist _ _)
  · rw [← List.eraseIdx_map]
    omega
  · omega
  · exact (List.eraseIdx_map _ _ _).symm

end Page

/-- The bytes of a page in the snapshot file. -/
def Storage.snapImage (s : Storage) (pageId : ℕ) : Memory :=
  (File.image s.disk.vfd.content).window (pagePos pageId)

/-- The bytes of a page of the arena. -/
def Storage.arenaImage (s : Storage) (arenaId : ℕ) : Memory :=
  s.arena.pages.window (pageStart arenaId)

/-- The bytes of a page where they are now. -/
def Storage.image (s : Storage) (header : PageHeader) : Memory :=
  if header.location = .inDisk then s.snapImage header.pageId else s.arenaImage header.arenaId

theorem image_of_inDisk (s : Storage) {header : PageHeader} (h : header.location = .inDisk) :
    s.image header = s.snapImage header.pageId := if_pos h

theorem image_of_inMemory (s : Storage) {header : PageHeader} (h : header.location = .inMemory) :
    s.image header = s.arenaImage header.arenaId := by
  rw [Storage.image, h, if_neg (by decide)]

abbrev Storage.headers (s : Storage) : List PageHeader := s.arena.headers.contents

/-- Every meta of the keys names the page and the position among them. -/
def Linked (metas : List KeyMeta) (index : ℕ) (keys : List PageHeaderKey) : Prop :=
  ∀ (position : ℕ) (key : PageHeaderKey), keys[position]? = some key → ∃ keyMeta,
    metas[key.keyMetaPtr]? = some keyMeta ∧ keyMeta.page = index ∧ keyMeta.headerKeyId = position

/-- The page is in the arena, at a page that has been handed out, or in the snapshot file. -/
def Located (s : Storage) (header : PageHeader) : Prop :=
  header.location = .inMemory ∧ header.arenaId < s.arena.uploadedPages ∨
    header.location = .inDisk ∧ pagePos (header.pageId + 1) ≤ s.disk.vfd.content.length

theorem Located.arenaId_lt {s : Storage} {header : PageHeader} (h : Located s header)
    (hmemory : header.location = .inMemory) : header.arenaId < s.arena.uploadedPages := by
  rcases h with h | h
  · exact h.2
  · rw [h.1] at hmemory
    cases hmemory

theorem Located.cases {s : Storage} {header : PageHeader} (h : Located s header) :
    header.location = .inMemory ∨ header.location = .inDisk := by
  rcases h with h | h
  · exact .inl h.1
  · exact .inr h.1

structure HeaderValid (s : Storage) (index : ℕ) (header : PageHeader) : Prop where
  pageId : header.pageId = index
  located : Located s header
  warm : header.state = .dirty → header.location = .inMemory
  settled : header.state ≠ .processing
  holds : PageHolds (s.image header) header.keys.contents header.offsetBytes
    header.fragmentatedBytes
  linked : Linked s.metas index header.keys.contents

def PageHeader.isInMemory (header : PageHeader) : Bool := header.location = .inMemory

structure Storage.Valid (s : Storage) : Prop where
  fitting : s.headers.length ≤ s.arena.allocatedPages
  counted : s.headers.countP PageHeader.isInMemory = s.arena.uploadedPages
  headers : ∀ (index : ℕ) (header : PageHeader), s.headers[index]? = some header →
    HeaderValid s index header
  distinct : ∀ (index other : ℕ) (header header' : PageHeader), s.headers[index]? = some header →
    s.headers[other]? = some header' → index ≠ other →
    header.location = .inMemory → header'.location = .inMemory → header.arenaId ≠ header'.arenaId

theorem Storage.Valid.uploaded_le {s : Storage} (hs : s.Valid) :
    s.arena.uploadedPages ≤ s.arena.allocatedPages := by
  rw [← hs.counted]
  exact List.countP_le_length.trans hs.fitting

/-- The storage holds a value for a meta. -/
def Storage.Stores (s : Storage) (pointer : ℕ) (value : List UInt8) : Prop :=
  ∃ (index : ℕ) (header : PageHeader), s.headers[index]? = some header ∧
    (pointer, value) ∈ cellsOf (s.image header) header.keys.contents

/-- It does so outside one page. -/
def Storage.StoresElse (s : Storage) (except pointer : ℕ) (value : List UInt8) : Prop :=
  ∃ (index : ℕ) (header : PageHeader), index ≠ except ∧ s.headers[index]? = some header ∧
    (pointer, value) ∈ cellsOf (s.image header) header.keys.contents

theorem stores_iff {s : Storage} {index : ℕ} {header : PageHeader}
    (h : s.headers[index]? = some header) (pointer : ℕ) (value : List UInt8) :
    s.Stores pointer value ↔ s.StoresElse index pointer value ∨
      (pointer, value) ∈ cellsOf (s.image header) header.keys.contents := by
  constructor
  · intro ⟨i, x, hx, hmem⟩
    by_cases hi : i = index
    · obtain rfl : x = header := Option.some.inj (by rw [← hx, ← h, hi])
      exact .inr hmem
    · exact .inl ⟨i, x, hi, hx, hmem⟩
  · intro hor
    rcases hor with ⟨i, x, -, hx, hmem⟩ | hmem
    · exact ⟨i, x, hx, hmem⟩
    · exact ⟨index, header, h, hmem⟩

/-- A cell of a page is that of one of its keys, whose meta names it. -/
theorem Linked.of_mem_cells {metas : List KeyMeta} {index : ℕ} {keys : List PageHeaderKey}
    (h : Linked metas index keys) {image : Memory} {pointer : ℕ} {value : List UInt8}
    (hmem : (pointer, value) ∈ cellsOf image keys) :
    ∃ position key keyMeta, keys[position]? = some key ∧ key.keyMetaPtr = pointer ∧
      payloadAt image key.offset = value ∧ metas[pointer]? = some keyMeta ∧
        keyMeta.page = index ∧ keyMeta.headerKeyId = position := by
  obtain ⟨key, hkey, heq⟩ := List.mem_map.mp hmem
  obtain ⟨hpointer, hvalue⟩ := Prod.mk.inj heq
  obtain ⟨position, hposition⟩ := List.getElem?_of_mem hkey
  obtain ⟨keyMeta, hmeta, hpage, hid⟩ := h position key hposition
  exact ⟨position, key, keyMeta, hposition, hpointer, hvalue, hpointer ▸ hmeta, hpage, hid⟩

/-- The meta of a stored value names its place. -/
theorem Storage.Valid.find {s : Storage} (hs : s.Valid) {pointer : ℕ} {value : List UInt8}
    (h : s.Stores pointer value) : ∃ keyMeta header key, s.metas[pointer]? = some keyMeta ∧
      s.headers[keyMeta.page]? = some header ∧
      header.keys.contents[keyMeta.headerKeyId]? = some key ∧ key.keyMetaPtr = pointer ∧
      payloadAt (s.image header) key.offset = value := by
  obtain ⟨index, header, hat, hmem⟩ := h
  obtain ⟨position, key, keyMeta, hkey, hpointer, hvalue, hmeta, rfl, rfl⟩ :=
    (hs.headers index header hat).linked.of_mem_cells hmem
  exact ⟨keyMeta, header, key, hmeta, hat, hkey, hpointer, hvalue⟩

theorem Storage.Valid.stores_unique {s : Storage} (hs : s.Valid) {pointer : ℕ}
    {value value' : List UInt8} (h : s.Stores pointer value) (h' : s.Stores pointer value') :
    value = value' := by
  obtain ⟨keyMeta, header, key, hmeta, hat, hkey, -, rfl⟩ := hs.find h
  obtain ⟨keyMeta', header', key', hmeta', hat', hkey', -, rfl⟩ := hs.find h'
  obtain rfl : keyMeta = keyMeta' := Option.some.inj (hmeta.symm.trans hmeta')
  obtain rfl : header = header' := Option.some.inj (hat.symm.trans hat')
  obtain rfl : key = key' := Option.some.inj (hkey.symm.trans hkey')
  rfl

/-- A page whose bytes and metas stay is still valid and holds the same. -/
theorem HeaderValid.frame {s s' : Storage} {index : ℕ} {header : PageHeader}
    (h : HeaderValid s index header)
    (himage : AgreeBelow pageSize (s.image header) (s'.image header))
    (hmetas : ∀ key ∈ header.keys.contents, s'.metas[key.keyMetaPtr]? = s.metas[key.keyMetaPtr]?)
    (huploaded : s.arena.uploadedPages ≤ s'.arena.uploadedPages)
    (hfile : s.disk.vfd.content.length ≤ s'.disk.vfd.content.length) :
    HeaderValid s' index header ∧ cellsOf (s'.image header) header.keys.contents =
      cellsOf (s.image header) header.keys.contents := by
  obtain ⟨hholds, hcells⟩ := h.holds.agree himage
  refine ⟨⟨h.pageId, ?_, h.warm, h.settled, hholds, ?_⟩, hcells⟩
  · rcases h.located with hlocated | hlocated
    · exact .inl ⟨hlocated.1, hlocated.2.trans_le huploaded⟩
    · exact .inr ⟨hlocated.1, hlocated.2.trans hfile⟩
  · intro position key hkey
    rw [hmetas key (List.mem_of_getElem? hkey)]
    exact h.linked position key hkey

/-- What a change of one header has to leave alone. -/
structure Elsewhere (s s' : Storage) (index : ℕ) : Prop where
  image : ∀ (i : ℕ) (x : PageHeader), i ≠ index → s.headers[i]? = some x →
    AgreeBelow pageSize (s.image x) (s'.image x)
  metas : ∀ (i : ℕ) (x : PageHeader), i ≠ index → s.headers[i]? = some x →
    ∀ key ∈ x.keys.contents, s'.metas[key.keyMetaPtr]? = s.metas[key.keyMetaPtr]?
  uploaded : s.arena.uploadedPages ≤ s'.arena.uploadedPages
  file : s.disk.vfd.content.length ≤ s'.disk.vfd.content.length

theorem Elsewhere.trans {s s' s'' : Storage} {index : ℕ} (h : Elsewhere s s' index)
    (hheaders : ∀ i : ℕ, i ≠ index → s'.headers[i]? = s.headers[i]?)
    (h' : Elsewhere s' s'' index) : Elsewhere s s'' index where
  image i x hi hx := (h.image i x hi hx).trans (h'.image i x hi ((hheaders i hi).trans hx))
  metas i x hi hx key hkey := (h'.metas i x hi ((hheaders i hi).trans hx) key hkey).trans
    (h.metas i x hi hx key hkey)
  uploaded := h.uploaded.trans h'.uploaded
  file := h.file.trans h'.file

/-- The step of an operation on one page: the other pages, what lies in the files, and the keys
that the metas point to. -/
structure Touches (s s' : Storage) (index : ℕ) : Prop extends Elsewhere s s' index where
  headers : ∀ i : ℕ, i ≠ index → s'.headers[i]? = s.headers[i]?
  content : s'.disk.vfd.content = s.disk.vfd.content
  disk : { s'.disk with vfd := s.disk.vfd } = s.disk
  allocated : s'.arena.allocatedPages = s.arena.allocatedPages
  weakKeys : ∀ pointer : ℕ, s'.metas[pointer]?.map KeyMeta.weakKey =
    s.metas[pointer]?.map KeyMeta.weakKey

theorem Touches.refl (s : Storage) (index : ℕ) : Touches s s index where
  image _ _ _ _ := AgreeBelow.refl
  metas _ _ _ _ _ _ := rfl
  uploaded := Nat.le_refl _
  file := Nat.le_refl _
  headers _ _ := rfl
  content := rfl
  disk := rfl
  allocated := rfl
  weakKeys _ := rfl

theorem Touches.trans {s s' s'' : Storage} {index : ℕ} (h : Touches s s' index)
    (h' : Touches s' s'' index) : Touches s s'' index where
  toElsewhere := h.toElsewhere.trans h.headers h'.toElsewhere
  headers i hi := (h'.headers i hi).trans (h.headers i hi)
  content := h'.content.trans h.content
  disk := by
    have hdisk := congrArg (fun disk : Disk ↦ { disk with vfd := s.disk.vfd }) h'.disk
    exact hdisk.trans h.disk
  allocated := h'.allocated.trans h.allocated
  weakKeys pointer := (h'.weakKeys pointer).trans (h.weakKeys pointer)

theorem Elsewhere.header {s s' : Storage} {index : ℕ} (h : Elsewhere s s' index) (hs : s.Valid)
    {i : ℕ} {x : PageHeader} (hi : i ≠ index) (hx : s.headers[i]? = some x) :
    HeaderValid s' i x ∧ cellsOf (s'.image x) x.keys.contents =
      cellsOf (s.image x) x.keys.contents :=
  (hs.headers i x hx).frame (h.image i x hi hx) (h.metas i x hi hx) h.uploaded h.file

/-- A page that keeps its cells leaves what is stored. -/
theorem stores_of_cells {s s' : Storage} (hs : s.Valid) {index : ℕ} {header header' : PageHeader}
    (helse : Elsewhere s s' index)
    (hheaders : ∀ i : ℕ, i ≠ index → s'.headers[i]? = s.headers[i]?)
    (hhere : s.headers[index]? = some header) (hhere' : s'.headers[index]? = some header')
    (hcells : cellsOf (s'.image header') header'.keys.contents =
      cellsOf (s.image header) header.keys.contents) (q : ℕ) (w : List UInt8) :
    s'.Stores q w ↔ s.Stores q w := by
  rw [stores_iff hhere', stores_iff hhere, hcells]
  apply or_congr_left
  constructor
  · intro ⟨i, x, hi, hx, hmem⟩
    rw [hheaders i hi] at hx
    rw [(helse.header hs hi hx).2] at hmem
    exact ⟨i, x, hi, hx, hmem⟩
  · intro ⟨i, x, hi, hx, hmem⟩
    refine ⟨i, x, hi, (hheaders i hi).trans hx, ?_⟩
    rw [(helse.header hs hi hx).2]
    exact hmem

theorem Linked.congr {metas : List KeyMeta} {index : ℕ} {keys keys' : List PageHeaderKey}
    (h : Linked metas index keys) (heq : keys'.map PageHeaderKey.keyMetaPtr =
      keys.map PageHeaderKey.keyMetaPtr) : Linked metas index keys' := by
  intro position key hkey
  have hpointer : (keys.map PageHeaderKey.keyMetaPtr)[position]? = some key.keyMetaPtr := by
    rw [← heq, List.getElem?_map, hkey, Option.map_some]
  rw [List.getElem?_map, Option.map_eq_some_iff] at hpointer
  obtain ⟨old, hold, hsame⟩ := hpointer
  rw [← hsame]
  exact h position old hold

/-- One header changes. -/
theorem Storage.Valid.update {s s' : Storage} (hs : s.Valid) {index : ℕ} {header : PageHeader}
    (hheaders : ∀ i : ℕ, s'.headers[i]? =
      if i = index then some header else s.headers[i]?)
    (helse : Elsewhere s s' index) (hnew : HeaderValid s' index header)
    (hdistinct : ∀ (i : ℕ) (x : PageHeader), i ≠ index → s.headers[i]? = some x →
      x.location = .inMemory → header.location = .inMemory → x.arenaId ≠ header.arenaId)
    (hfitting : s'.headers.length ≤ s'.arena.allocatedPages)
    (hcounted : s'.headers.countP PageHeader.isInMemory =
      s'.arena.uploadedPages) :
    s'.Valid ∧ ∀ pointer value, s'.Stores pointer value ↔ s.StoresElse index pointer value ∨
      (pointer, value) ∈ cellsOf (s'.image header) header.keys.contents := by
  have hat : s'.headers[index]? = some header := by
    rw [hheaders, if_pos rfl]
  have hother {i : ℕ} (hi : i ≠ index) :
      s'.headers[i]? = s.headers[i]? := by
    rw [hheaders, if_neg hi]
  refine ⟨⟨hfitting, hcounted, ?_, ?_⟩, ?_⟩
  · intro i x hx
    by_cases hi : i = index
    · rw [hi, hat, Option.some.injEq] at hx
      rw [hi, ← hx]
      exact hnew
    · rw [hother hi] at hx
      exact (helse.header hs hi hx).1
  · intro i j x y hx hy hij hxm hym
    by_cases hi : i = index
    · rw [hi, hat, Option.some.injEq] at hx
      have hj : j ≠ index := fun hj ↦ hij (hi.trans hj.symm)
      rw [hother hj] at hy
      rw [← hx] at hxm ⊢
      exact (hdistinct j y hj hy hym hxm).symm
    · rw [hother hi] at hx
      by_cases hj : j = index
      · rw [hj, hat, Option.some.injEq] at hy
        rw [← hy] at hym ⊢
        exact hdistinct i x hi hx hxm hym
      · rw [hother hj] at hy
        exact hs.distinct i j x y hx hy hij hxm hym
  · intro pointer value
    rw [stores_iff hat]
    apply or_congr_left
    constructor
    · intro ⟨i, x, hi, hx, hmem⟩
      rw [hother hi] at hx
      rw [(helse.header hs hi hx).2] at hmem
      exact ⟨i, x, hi, hx, hmem⟩
    · intro ⟨i, x, hi, hx, hmem⟩
      refine ⟨i, x, hi, (hother hi).trans hx, ?_⟩
      rw [(helse.header hs hi hx).2]
      exact hmem

theorem getElem?_concat_ite {α : Type} (l : List α) (a : α) (i : ℕ) :
    (l ++ [a])[i]? = if i = l.length then some a else l[i]? := by
  rcases lt_trichotomy i l.length with hlt | rfl | hgt
  · rw [if_neg hlt.ne, List.getElem?_append_left hlt]
  · rw [if_pos rfl, List.getElem?_concat_length]
  · rw [if_neg hgt.ne', List.getElem?_eq_none hgt.le, List.getElem?_eq_none]
    rw [List.length_append, List.length_singleton]
    exact hgt

theorem getElem?_set_ite {α : Type} {l : List α} {index : ℕ} (h : index < l.length) (a : α)
    (i : ℕ) : (l.set index a)[i]? = if i = index then some a else l[i]? := by
  by_cases hi : i = index
  · rw [hi, if_pos rfl, List.getElem?_set_self h]
  · rw [if_neg hi, List.getElem?_set_ne (Ne.symm hi)]

theorem countP_set {α : Type} {p : α → Bool} {l : List α} {index : ℕ} {a b : α}
    (h : l[index]? = some a) (ha : p a = false) (hb : p b = true) :
    (l.set index b).countP p = l.countP p + 1 := by
  obtain ⟨hlt, rfl⟩ := List.getElem?_eq_some_iff.mp h
  rw [List.countP_set hlt, ha, hb]
  rfl

theorem countP_set_of_eq {α : Type} {p : α → Bool} {l : List α} {index : ℕ} {a b : α}
    (h : l[index]? = some a) (hp : p b = p a) : (l.set index b).countP p = l.countP p := by
  obtain ⟨hlt, rfl⟩ := List.getElem?_eq_some_iff.mp h
  rw [List.countP_set hlt, hp]
  split
  · next htrue =>
    have hpos : 0 < l.countP p := List.countP_pos_iff.mpr ⟨_, List.getElem_mem hlt, htrue⟩
    omega
  · rfl

/-- What changes in one page of a row of pages is not in another. -/
theorem agreeBelow_window {memory memory' : Memory} {base : ℕ → ℕ} {page other : ℕ}
    (hbase : ∀ i j, i < j → base i + pageSize ≤ base j) (hne : page ≠ other)
    (hout : ∀ address, address < base page ∨ base page + pageSize ≤ address →
      memory' address = memory address) :
    AgreeBelow pageSize (window memory (base other)) (window memory' (base other)) := by
  intro index hindex
  simp only [window]
  rcases lt_or_gt_of_ne hne with hlt | hgt
  · exact (hout _ (.inr (by have := hbase page other hlt; omega))).symm
  · exact (hout _ (.inl (by have := hbase other page hgt; omega))).symm

theorem store_outside (memory : Memory) {start place : ℕ} {data : List UInt8}
    (hfit : place + data.length ≤ pageSize) (address : ℕ)
    (hout : address < start ∨ start + pageSize ≤ address) :
    store memory (start + place) data address = memory address := by
  rcases hout with hlt | hge
  · exact store_of_lt _ _ _ (by omega)
  · exact store_of_le _ _ _ (by omega)

theorem pageStart_add_le {i j : ℕ} (h : i < j) : pageStart i + pageSize ≤ pageStart j := by
  unfold pageStart
  calc i * pageSize + pageSize = (i + 1) * pageSize := (Nat.succ_mul _ _).symm
    _ ≤ j * pageSize := Nat.mul_le_mul_right _ h

theorem pagePos_add_le {i j : ℕ} (h : i < j) : pagePos i + pageSize ≤ pagePos j := by
  have hle := pageStart_add_le h
  unfold pageStart at hle
  unfold pagePos
  omega

theorem sizeAt_window (memory : Memory) (base place : ℕ) :
    sizeAt (memory.window base) place = sizeAt memory (base + place) :=
  congrArg leValue (load_window memory place 2 base)

theorem payloadAt_window (memory : Memory) (base place : ℕ) :
    payloadAt (memory.window base) place = payloadAt memory (base + place) := by
  rw [payloadAt, payloadAt, sizeAt_window, load_window, Nat.add_assoc]

theorem readValue_eq_ok {arena : Arena} {address : ℕ} {value : Str} :
    arena.readValue address = .ok value ↔ arena.Owns address (2 + value.size) ∧
      sizeAt arena.pages address = value.size ∧ payloadAt arena.pages address = value.bytes := by
  unfold Arena.readValue
  constructor
  · intro h
    split at h
    · rename_i howns
      have hbytes := congrArg Str.bytes (Except.ok.inj h)
      have hsize : sizeAt arena.pages address = value.size := by
        rw [Str.size, ← hbytes]
        exact (length_load _ _ _).symm
      refine ⟨?_, hsize, ?_⟩
      · rw [← hsize]
        exact howns
      · exact hbytes
    · cases h
  · rintro ⟨howns, hsize, hbytes⟩
    rw [← hsize] at howns
    refine (if_pos howns).trans (congrArg Except.ok (Str.ext ?_))
    exact hbytes

end FGDB.Pages
