import FGDB.Operations.Steps
import FGDB.Pages.Access
import FGDB.Pages.Steps

/-!
# The index of the keys

A key leads through the dictionary to a meta, the meta names a page and a place
among the keys of its header, and that place leads back to the meta. The pages
list pointers, whatever their bytes are; what the operations do to these lists
keeps the way there and the way back in step.
-/

namespace FGDB.Operations

open Foundation HashMap Pages Server Wal
open FGDB.Vector (BoundedList Growth)

variable {growth : Growth} {s s' : Storage}

section Lists

/-- The metas of a page, in the order of its keys. -/
def pointersOf (s : Storage) (page : ℕ) : List ℕ :=
  s.headers[page]?.elim [] fun header ↦ header.keys.contents.map PageHeaderKey.keyMetaPtr

theorem pointersOf_eq {page : ℕ} {header : PageHeader} (h : s.headers[page]? = some header) :
    pointersOf s page = header.keys.contents.map PageHeaderKey.keyMetaPtr := by
  rw [pointersOf, h, Option.elim_some]

/-- The headers have their numbers, and their pages are somewhere. -/
def Numbered (s : Storage) : Prop :=
  ∀ (index : ℕ) (header : PageHeader), s.headers[index]? = some header →
    header.pageId = index ∧ header.location ≠ .free

/-- Every listed meta names its page and its place. -/
def LinkedAt (metas : List KeyMeta) (page : ℕ) (pointers : List ℕ) : Prop :=
  ∀ (position pointer : ℕ), pointers[position]? = some pointer → ∃ keyMeta,
    metas[pointer]? = some keyMeta ∧ keyMeta.page = page ∧ keyMeta.headerKeyId = position

theorem linkedAt_iff {metas : List KeyMeta} {page : ℕ} {keys : List PageHeaderKey} :
    LinkedAt metas page (keys.map PageHeaderKey.keyMetaPtr) ↔ Linked metas page keys := by
  constructor
  · intro h position key hkey
    apply h position key.keyMetaPtr
    rw [List.getElem?_map, hkey, Option.map_some]
  · intro h position pointer hpointer
    rw [List.getElem?_map, Option.map_eq_some_iff] at hpointer
    obtain ⟨key, hkey, rfl⟩ := hpointer
    exact h position key hkey

/-- The pages list the same metas as before. -/
structure SameIndex (s s' : Storage) : Prop where
  numbered : Numbered s → Numbered s'
  pointers : ∀ page, pointersOf s' page = pointersOf s page
  metas : s'.metas = s.metas

theorem SameIndex.refl (s : Storage) : SameIndex s s := ⟨id, fun _ ↦ rfl, rfl⟩

theorem SameIndex.trans {s'' : Storage} (h : SameIndex s s') (h' : SameIndex s' s'') :
    SameIndex s s'' where
  numbered := h'.numbered ∘ h.numbered
  pointers page := (h'.pointers page).trans (h.pointers page)
  metas := h'.metas.trans h.metas

theorem numbered_set {index : ℕ} {header header' : PageHeader}
    (hhere : s.headers[index]? = some header) (hset : s'.headers = s.headers.set index header')
    (hpageId : header'.pageId = header.pageId)
    (hlocation : header.location ≠ .free → header'.location ≠ .free) (h : Numbered s) :
    Numbered s' := by
  have hlt : index < s.headers.length := (List.getElem?_eq_some_iff.mp hhere).1
  intro i x hx
  rw [hset, getElem?_set_ite hlt] at hx
  by_cases hi : i = index
  · rw [if_pos hi, Option.some.injEq] at hx
    rw [← hx, hi, hpageId]
    exact ⟨(h index header hhere).1, hlocation (h index header hhere).2⟩
  · rw [if_neg hi] at hx
    exact h i x hx

theorem pointersOf_set {index : ℕ} {header header' : PageHeader}
    (hhere : s.headers[index]? = some header) (hset : s'.headers = s.headers.set index header')
    (page : ℕ) : pointersOf s' page =
      if page = index then header'.keys.contents.map PageHeaderKey.keyMetaPtr
      else pointersOf s page := by
  have hlt : index < s.headers.length := (List.getElem?_eq_some_iff.mp hhere).1
  unfold pointersOf
  rw [hset, getElem?_set_ite hlt]
  by_cases hpage : page = index
  · rw [if_pos hpage, if_pos hpage, Option.elim_some]
  · rw [if_neg hpage, if_neg hpage]

theorem sameIndex_set {index : ℕ} {header header' : PageHeader}
    (hhere : s.headers[index]? = some header) (hset : s'.headers = s.headers.set index header')
    (hpageId : header'.pageId = header.pageId)
    (hlocation : header.location ≠ .free → header'.location ≠ .free)
    (hpointers : header'.keys.contents.map PageHeaderKey.keyMetaPtr =
      header.keys.contents.map PageHeaderKey.keyMetaPtr) (hmetas : s'.metas = s.metas) :
    SameIndex s s' where
  numbered := numbered_set hhere hset hpageId hlocation
  pointers page := by
    rw [pointersOf_set hhere hset, hpointers]
    by_cases hpage : page = index
    · rw [if_pos hpage, hpage, pointersOf_eq hhere]
    · rw [if_neg hpage]
  metas := hmetas

theorem warmHeader_sameIndex {page : ℕ} {header' : PageHeader}
    (h : warmHeader s page = .ok (s', header')) : SameIndex s s' ∧
      s'.headers[page]? = some header' ∧
      (header'.location = .inMemory ∨ header'.location = .free) := by
  obtain ⟨header, hhere, ⟨hwarm, rfl, rfl⟩ | hheated⟩ := warmHeader_shape h
  · refine ⟨SameIndex.refl s', hhere, ?_⟩
    cases hlocation : header'.location with
    | free => exact .inr rfl
    | inMemory => exact .inl rfl
    | inDisk => exact absurd hlocation hwarm
  · have hlt : page < s.headers.length := (List.getElem?_eq_some_iff.mp hhere).1
    have hmemory : header'.location = .inMemory := by
      rw [hheated.same]
    refine ⟨sameIndex_set hhere hheated.headers ?_ (fun _ ↦ ?_) ?_ hheated.metas, ?_, .inl hmemory⟩
    · rw [hheated.same]
    · rw [hmemory]
      decide
    · rw [hheated.same]
    · rw [hheated.headers, List.getElem?_set_self hlt]

theorem allocatedPage_sameIndex {size index : ℕ} (h : AllocatedPage growth s s' size index) :
    SameIndex s s' := by
  cases h with
  | fits hsearch hsame => exact hsame ▸ SameIndex.refl s
  | prefered hsearch header header' hmoved =>
    exact sameIndex_set hmoved.here hmoved.headers hmoved.pageId
      (fun hplaced ↦ hmoved.location ▸ hplaced) hmoved.pointers hmoved.metas
  | noPage hsearch header hnew =>
    refine ⟨fun h i x hx ↦ ?_, fun page ↦ ?_, hnew.metas⟩
    · rw [hnew.headers, getElem?_concat_ite] at hx
      by_cases hi : i = s.headers.length
      · rw [if_pos hi, Option.some.injEq] at hx
        rw [← hx, hnew.location, hi]
        exact ⟨hnew.pageId, by decide⟩
      · rw [if_neg hi] at hx
        exact h i x hx
    · unfold pointersOf
      rw [hnew.headers, getElem?_concat_ite]
      by_cases hpage : page = s.headers.length
      · rw [if_pos hpage, Option.elim_some, hnew.keys, List.getElem?_eq_none hpage.ge]
        rfl
      · rw [if_neg hpage]

theorem updateLSN_sameIndex {index lsn : ℕ} (h : updateLSN s index lsn = .ok s') :
    SameIndex s s' := by
  obtain ⟨header, hheader, h⟩ := bind_eq_ok.mp h
  rw [pure_eq_ok, Except.ok.injEq] at h
  rw [← h]
  exact sameIndex_set (header_eq_ok.mp hheader) rfl rfl id rfl rfl

end Lists

section Dictionary

variable {d : Str → Option ℕ}

def Listed (s : Storage) (pointer : ℕ) : Prop := ∃ page, pointer ∈ pointersOf s page

def weakKeyOf (s : Storage) (pointer : ℕ) : Option Str := s.metas[pointer]?.bind KeyMeta.weakKey

/-- The dictionary binds the keys of the listed metas to them, and nothing else. -/
structure Indexes (d : Str → Option ℕ) (s : Storage) : Prop where
  numbered : Numbered s
  linked : ∀ page, LinkedAt s.metas page (pointersOf s page)
  named : ∀ pointer, Listed s pointer → ∃ key, weakKeyOf s pointer = some key
  bound : ∀ key pointer, d key = some pointer ↔
    Listed s pointer ∧ weakKeyOf s pointer = some key

theorem Indexes.place (h : Indexes d s) {key : Str} {pointer : ℕ} (hkey : d key = some pointer) :
    ∃ keyMeta, s.metas[pointer]? = some keyMeta ∧ keyMeta.weakKey = some key ∧
      (pointersOf s keyMeta.page)[keyMeta.headerKeyId]? = some pointer := by
  obtain ⟨⟨page, hmem⟩, hweak⟩ := (h.bound key pointer).mp hkey
  obtain ⟨position, hposition⟩ := List.mem_iff_getElem?.mp hmem
  obtain ⟨keyMeta, hmeta, rfl, rfl⟩ := h.linked page position pointer hposition
  refine ⟨keyMeta, hmeta, ?_, hposition⟩
  rwa [weakKeyOf, hmeta, Option.bind_some] at hweak

/-- A listed meta was allocated. -/
theorem Indexes.lt_of_mem (h : Indexes d s) {page pointer : ℕ} (hmem : pointer ∈ pointersOf s page) :
    pointer < s.metas.length := by
  obtain ⟨position, hposition⟩ := List.mem_iff_getElem?.mp hmem
  obtain ⟨keyMeta, hmeta, -, -⟩ := h.linked page position pointer hposition
  exact (List.getElem?_eq_some_iff.mp hmeta).1

/-- What the dictionary says stays right as long as the listed metas stay as they are. -/
theorem Indexes.congr (h : Indexes d s) (hnumbered : Numbered s')
    (hpointers : ∀ page, pointersOf s' page = pointersOf s page)
    (hmetas : ∀ pointer, pointer < s.metas.length → s'.metas[pointer]? = s.metas[pointer]?) :
    Indexes d s' := by
  have hlisted (pointer : ℕ) : Listed s' pointer ↔ Listed s pointer := by
    unfold Listed
    simp only [hpointers]
  have hweak (pointer : ℕ) (hlist : Listed s pointer) :
      weakKeyOf s' pointer = weakKeyOf s pointer := by
    obtain ⟨page, hmem⟩ := hlist
    rw [weakKeyOf, weakKeyOf, hmetas pointer (h.lt_of_mem hmem)]
  refine ⟨hnumbered, fun page position pointer hpointer ↦ ?_, fun pointer hlist ↦ ?_,
    fun key pointer ↦ ?_⟩
  · rw [hpointers] at hpointer
    rw [hmetas pointer (h.lt_of_mem (List.mem_of_getElem? hpointer))]
    exact h.linked page position pointer hpointer
  · rw [hlisted] at hlist
    rw [hweak pointer hlist]
    exact h.named pointer hlist
  · rw [h.bound, hlisted]
    exact and_congr_right fun hlist ↦ by rw [hweak pointer hlist]

theorem Indexes.same (h : Indexes d s) (hsame : SameIndex s s') : Indexes d s' :=
  h.congr (hsame.numbered h.numbered) hsame.pointers fun _ _ ↦ by rw [hsame.metas]

/-- A new key stands behind the others of its page, and its meta is the last one. -/
structure Adds (s s' : Storage) (page : ℕ) (key : Str) : Prop where
  numbered : Numbered s'
  pointers : ∀ i, pointersOf s' i =
    if i = page then pointersOf s page ++ [s.metas.length] else pointersOf s i
  metas : s'.metas = s.metas ++ [⟨some key, wrap16 (pointersOf s page).length, page⟩]

theorem Adds.meta_lt {page : ℕ} {key : Str} (hadds : Adds s s' page key) {pointer : ℕ}
    (hlt : pointer < s.metas.length) : s'.metas[pointer]? = s.metas[pointer]? := by
  rw [hadds.metas, List.getElem?_append_left hlt]

theorem Adds.meta_new {page : ℕ} {key : Str} (hadds : Adds s s' page key) :
    s'.metas[s.metas.length]? = some ⟨some key, wrap16 (pointersOf s page).length, page⟩ := by
  rw [hadds.metas, List.getElem?_concat_length]

theorem Adds.listed {page : ℕ} {key : Str} (hadds : Adds s s' page key) (pointer : ℕ) :
    Listed s' pointer ↔ Listed s pointer ∨ pointer = s.metas.length := by
  unfold Listed
  constructor
  · intro ⟨i, hmem⟩
    rw [hadds.pointers] at hmem
    by_cases hi : i = page
    · rw [if_pos hi, List.mem_append, List.mem_singleton] at hmem
      exact hmem.imp_left fun hold ↦ ⟨page, hold⟩
    · rw [if_neg hi] at hmem
      exact .inl ⟨i, hmem⟩
  · rintro (⟨i, hmem⟩ | rfl)
    · refine ⟨i, ?_⟩
      rw [hadds.pointers]
      by_cases hi : i = page
      · rw [if_pos hi, ← hi]
        exact List.mem_append_left _ hmem
      · rwa [if_neg hi]
    · refine ⟨page, ?_⟩
      rw [hadds.pointers, if_pos rfl]
      exact List.mem_append_right _ List.mem_cons_self

theorem Indexes.adds (h : Indexes d s) {page : ℕ} {key : Str} (hkey : d key = none)
    (hsmall : (pointersOf s page).length < 2 ^ 16) (hadds : Adds s s' page key) :
    Indexes (Function.update d key (some s.metas.length)) s' := by
  have hnot : ¬ Listed s s.metas.length := fun ⟨_, hmem⟩ ↦ lt_irrefl _ (h.lt_of_mem hmem)
  have hold (pointer : ℕ) (hlist : Listed s pointer) : weakKeyOf s' pointer = weakKeyOf s pointer := by
    obtain ⟨i, hmem⟩ := hlist
    rw [weakKeyOf, weakKeyOf, hadds.meta_lt (h.lt_of_mem hmem)]
  have hnew : weakKeyOf s' s.metas.length = some key := by
    rw [weakKeyOf, hadds.meta_new, Option.bind_some]
  refine ⟨hadds.numbered, fun i position pointer hpointer ↦ ?_, fun pointer hlist ↦ ?_,
    fun key' pointer ↦ ?_⟩
  · have hcase : (pointersOf s i)[position]? = some pointer ∨
        i = page ∧ position = (pointersOf s page).length ∧ pointer = s.metas.length := by
      rw [hadds.pointers] at hpointer
      by_cases hi : i = page
      · rw [if_pos hi, List.getElem?_append] at hpointer
        split at hpointer
        · exact .inl (hi ▸ hpointer)
        · rw [List.getElem?_singleton] at hpointer
          split at hpointer
          · exact .inr ⟨hi, by omega, (Option.some.inj hpointer).symm⟩
          · cases hpointer
      · rw [if_neg hi] at hpointer
        exact .inl hpointer
    rcases hcase with hin | ⟨rfl, rfl, rfl⟩
    · rw [hadds.meta_lt (h.lt_of_mem (List.mem_of_getElem? hin))]
      exact h.linked i position pointer hin
    · exact ⟨_, hadds.meta_new, rfl, Nat.mod_eq_of_lt hsmall⟩
  · rcases (hadds.listed pointer).mp hlist with hlist | rfl
    · rw [hold pointer hlist]
      exact h.named pointer hlist
    · exact ⟨key, hnew⟩
  · rw [hadds.listed]
    by_cases hkey' : key' = key
    · rw [hkey', Function.update_self, Option.some.injEq]
      constructor
      · rintro rfl
        exact ⟨.inr rfl, hnew⟩
      · rintro ⟨hlist | rfl, hweak⟩
        · rw [hold pointer hlist] at hweak
          have hbound := (h.bound key pointer).mpr ⟨hlist, hweak⟩
          rw [hkey] at hbound
          cases hbound
        · rfl
    · rw [Function.update_of_ne hkey', h.bound]
      constructor
      · intro ⟨hlist, hweak⟩
        exact ⟨.inl hlist, (hold pointer hlist).trans hweak⟩
      · rintro ⟨hlist | rfl, hweak⟩
        · exact ⟨hlist, (hold pointer hlist).symm.trans hweak⟩
        · exact absurd (Option.some.inj (hweak.symm.trans hnew)) hkey'

end Dictionary

section Pages

variable {d : Str → Option ℕ}

theorem numbered_newMeta (h : Numbered s) : Numbered s.newMeta.1 := h

/-- A fresh meta whose value is put into a page and that is named is the last key of the page. -/
theorem pageValueSet_adds (hnumbered : Numbered s) {value key : Str} {index lsn : ℕ} {s1 s2 : Storage}
    (hset : pageValueSet growth s.newMeta.1 value s.newMeta.2 = .ok (s1, index))
    (hlsn : updateLSN s1 index lsn = .ok s2)
    (hname : s2.modifyMeta s.newMeta.2 (fun keyMeta ↦ { keyMeta with weakKey := some key }) =
      .ok s') : Adds s s' index key := by
  obtain ⟨s0, header, keys, keyMeta, halloc, hheader, hadd, hmeta, hplaced⟩ :=
    pageValueSet_shape hset
  have hsame := allocatedPage_sameIndex halloc
  have hfresh : Numbered s0 := hsame.numbered (numbered_newMeta hnumbered)
  have hkeys := (BoundedList.add_eq_ok.mp hadd).2.1
  have hpointers (i : ℕ) : pointersOf s0 i = pointersOf s i := hsame.pointers i
  have hlength : (pointersOf s index).length + 1 = keys.contents.length := by
    rw [← hpointers, pointersOf_eq hheader, hkeys, List.length_append, List.length_map,
      List.length_singleton]
  have hpage : header.pageId = index := (hfresh index header hheader).1
  have hmetas0 : s0.metas = s.metas ++ [⟨none, 0, 0⟩] := hsame.metas
  have hkeyMeta : keyMeta = ⟨none, 0, 0⟩ := by
    rw [hmetas0] at hmeta
    exact (Option.some.inj (List.getElem?_concat_length.symm.trans hmeta)).symm
  have hlsnSame := updateLSN_sameIndex hlsn
  have hmetas1 : s1.metas =
      s.metas ++ [⟨none, wrap16 (pointersOf s index).length, index⟩] := by
    have hset : s1.metas = s0.metas.set s.metas.length { keyMeta with
        headerKeyId := wrap16 (keys.contents.length - 1), page := header.pageId } := by
      rw [hplaced]
      rfl
    rw [hset, hmetas0, hkeyMeta, hpage, ← hlength, Nat.add_sub_cancel,
      List.set_append_right _ _ le_rfl, Nat.sub_self, List.set_cons_zero]
  have hheaders1 : s1.headers = s0.headers.set index { header with
      location := .inMemory
      keys := keys
      offsetBytes := wrap16 (header.offsetBytes + (value.size + 2)) } := by
    rw [hplaced]
    rfl
  obtain ⟨named, hnamed, hresult⟩ := bind_eq_ok.mp hname
  have hnewest : named = ⟨none, wrap16 (pointersOf s index).length, index⟩ := by
    have hfound : s1.metas[s.metas.length]? =
        some ⟨none, wrap16 (pointersOf s index).length, index⟩ := by
      rw [hmetas1, List.getElem?_concat_length]
    have hload : s2.loadMeta s.metas.length =
        .ok ⟨none, wrap16 (pointersOf s index).length, index⟩ := by
      rw [Storage.loadMeta, hlsnSame.metas, hfound, Option.elim_some]
    exact Except.ok.inj (hnamed.symm.trans hload)
  rw [pure_eq_ok, Except.ok.injEq] at hresult
  rw [← hresult]
  refine ⟨?_, fun i ↦ ?_, ?_⟩
  · refine hlsnSame.numbered (numbered_set hheader hheaders1 rfl ?_ hfresh)
    rintro - ⟨⟩
  · have hindex : pointersOf s1 i = if i = index then
        keys.contents.map PageHeaderKey.keyMetaPtr else pointersOf s0 i :=
      pointersOf_set hheader hheaders1 i
    have hlist : keys.contents.map PageHeaderKey.keyMetaPtr =
        pointersOf s index ++ [s.metas.length] := by
      rw [hkeys, List.map_append, ← hpointers, pointersOf_eq hheader]
      rfl
    rw [hlist, hpointers] at hindex
    exact (hlsnSame.pointers i).trans hindex
  · have hmetas2 : s2.metas.set s.metas.length { named with weakKey := some key } =
        s.metas ++ [⟨some key, wrap16 (pointersOf s index).length, index⟩] := by
      rw [hlsnSame.metas, hmetas1, hnewest, List.set_append_right _ _ le_rfl, Nat.sub_self,
        List.set_cons_zero]
    exact hmetas2

/-- What taking a key out of a page does to the lists. -/
structure Removes (s s' : Storage) (key : KeyMeta) : Prop where
  numbered : Numbered s → Numbered s'
  found : key.headerKeyId < (pointersOf s key.page).length
  pointers : ∀ i, pointersOf s' i =
    if i = key.page then (pointersOf s key.page).eraseIdx key.headerKeyId else pointersOf s i
  metas : ∃ keys : List PageHeaderKey, keys.map PageHeaderKey.keyMetaPtr =
      (pointersOf s key.page).drop (key.headerKeyId + 1) ∧ recountKeys s.metas keys = .ok s'.metas

/-- A page that is somewhere is in memory when its value is removed. -/
theorem pageValueUnset_removes (hnumbered : Numbered s) {key : KeyMeta}
    {result : Option (ℕ × Str)} (h : pageValueUnset s key = .ok (s', result)) :
    Removes s s' key ∧ ∃ value, result = some (key.page, value) := by
  obtain ⟨s1, header, hwarm, hrest⟩ := pageValueUnset_shape h
  obtain ⟨hsame, hhere, hlocation⟩ := warmHeader_sameIndex hwarm
  have hmemory : header.location = .inMemory := by
    apply hlocation.resolve_right
    exact (hsame.numbered hnumbered key.page header hhere).2
  rcases hrest with ⟨hcold, -, -⟩ | ⟨header', value, hunset, hresult⟩
  · exact absurd hmemory hcold
  · have hlist : pointersOf s key.page = header.keys.contents.map PageHeaderKey.keyMetaPtr := by
      rw [← hsame.pointers, pointersOf_eq hhere]
    have hdrop : header'.keys.contents.drop key.headerKeyId =
        header.keys.contents.drop (key.headerKeyId + 1) := by
      rw [hunset.keys, drop_eraseIdx]
    refine ⟨⟨fun hn ↦ ?_, ?_, fun i ↦ ?_, header'.keys.contents.drop key.headerKeyId, ?_, ?_⟩,
      value, hresult⟩
    · exact numbered_set hhere hunset.headers hunset.pageId (fun hplaced ↦ hunset.location ▸ hplaced)
        (hsame.numbered hn)
    · rw [hlist, List.length_map]
      exact hunset.found
    · rw [pointersOf_set hhere hunset.headers, hunset.keys, hlist, ← List.eraseIdx_map,
        hsame.pointers]
    · rw [hlist, hdrop, List.map_drop]
    · rw [← hsame.metas]
      exact hunset.metas

end Pages

section Removal

variable {d : Str → Option ℕ}

theorem exists_keys (s : Storage) (page : ℕ) :
    ∃ keys : List PageHeaderKey, pointersOf s page = keys.map PageHeaderKey.keyMetaPtr := by
  unfold pointersOf
  cases s.headers[page]? with
  | none => exact ⟨[], rfl⟩
  | some header => exact ⟨header.keys.contents, rfl⟩

theorem mem_eraseIdx_iff {l : List ℕ} (hnodup : l.Nodup) {index a x : ℕ}
    (ha : l[index]? = some a) : x ∈ l.eraseIdx index ↔ x ∈ l ∧ x ≠ a := by
  obtain ⟨hlt, rfl⟩ := List.getElem?_eq_some_iff.mp ha
  have hperm := List.getElem_cons_eraseIdx_perm hlt
  have hnot : l[index] ∉ l.eraseIdx index := (List.nodup_cons.mp (hperm.nodup_iff.mpr hnodup)).1
  rw [← hperm.mem_iff, List.mem_cons]
  constructor
  · intro hx
    exact ⟨.inr hx, fun heq ↦ hnot (heq ▸ hx)⟩
  · intro ⟨hx, hne⟩
    exact hx.resolve_left hne

theorem Indexes.nodup (h : Indexes d s) (page : ℕ) : (pointersOf s page).Nodup := by
  obtain ⟨keys, hkeys⟩ := exists_keys s page
  have hlinked := h.linked page
  rw [hkeys] at hlinked ⊢
  exact (linkedAt_iff.mp hlinked).nodup

/-- A meta is listed in the page that it names and in no other. -/
theorem Indexes.page_unique (h : Indexes d s) {page pointer : ℕ} {keyMeta : KeyMeta}
    (hmeta : s.metas[pointer]? = some keyMeta) (hmem : pointer ∈ pointersOf s page) :
    page = keyMeta.page := by
  obtain ⟨position, hposition⟩ := List.mem_iff_getElem?.mp hmem
  obtain ⟨found, hfound, hpage, -⟩ := h.linked page position pointer hposition
  rw [hmeta, Option.some.injEq] at hfound
  rw [hfound, hpage]

/-- The recount changes the metas behind the key that goes, and only their places. -/
theorem Removes.meta_eq (h : Indexes d s) {key : KeyMeta} (hremoves : Removes s s' key)
    (pointer : ℕ) : s'.metas[pointer]? =
      if pointer ∈ (pointersOf s key.page).drop (key.headerKeyId + 1) then
        s.metas[pointer]?.map recounted
      else s.metas[pointer]? := by
  obtain ⟨keys, hkeys, hrecount⟩ := hremoves.metas
  have hnodup : (keys.map PageHeaderKey.keyMetaPtr).Nodup := by
    rw [hkeys]
    exact (h.nodup key.page).sublist (List.drop_sublist ..)
  have hlt (k : PageHeaderKey) (hk : k ∈ keys) : k.keyMetaPtr < s.metas.length := by
    have hmem : k.keyMetaPtr ∈ keys.map PageHeaderKey.keyMetaPtr := List.mem_map_of_mem hk
    rw [hkeys] at hmem
    exact h.lt_of_mem (List.mem_of_mem_drop hmem)
  obtain ⟨metas, hmetas, hall⟩ := recountKeys_eq hnodup hlt
  obtain rfl : metas = s'.metas := Except.ok.inj (hmetas.symm.trans hrecount)
  rw [hall, hkeys]

theorem Removes.weakKey_eq (h : Indexes d s) {key : KeyMeta} (hremoves : Removes s s' key)
    (pointer : ℕ) : weakKeyOf s' pointer = weakKeyOf s pointer := by
  unfold weakKeyOf
  rw [hremoves.meta_eq h]
  split
  · cases s.metas[pointer]? with
    | none => rfl
    | some keyMeta => rw [Option.map_some, Option.bind_some, Option.bind_some, recounted]
  · rfl

theorem Indexes.removes (h : Indexes d s) {key : Str} {pointer : ℕ} (hkey : d key = some pointer)
    {keyMeta deleted : KeyMeta} (hmeta : s.metas[pointer]? = some keyMeta)
    (hpage : deleted.page = keyMeta.page) (hid : deleted.headerKeyId = keyMeta.headerKeyId)
    (hsmall : (pointersOf s deleted.page).length ≤ 2 ^ 16) (hremoves : Removes s s' deleted) :
    Indexes (Function.update d key none) s' := by
  obtain ⟨found, hfound, hweak, hplace⟩ := h.place hkey
  obtain rfl : keyMeta = found := Option.some.inj (hmeta.symm.trans hfound)
  rw [← hpage, ← hid] at hplace
  have hlisted (q : ℕ) : Listed s' q ↔ Listed s q ∧ q ≠ pointer := by
    unfold Listed
    constructor
    · intro ⟨i, hmem⟩
      rw [hremoves.pointers] at hmem
      by_cases hi : i = deleted.page
      · rw [if_pos hi, mem_eraseIdx_iff (h.nodup _) hplace] at hmem
        exact ⟨⟨deleted.page, hmem.1⟩, hmem.2⟩
      · rw [if_neg hi] at hmem
        refine ⟨⟨i, hmem⟩, fun heq ↦ hi ?_⟩
        rw [hpage]
        exact h.page_unique hmeta (heq ▸ hmem)
    · intro ⟨⟨i, hmem⟩, hne⟩
      refine ⟨i, ?_⟩
      rw [hremoves.pointers]
      by_cases hi : i = deleted.page
      · rw [if_pos hi, mem_eraseIdx_iff (h.nodup _) hplace, ← hi]
        exact ⟨hmem, hne⟩
      · rwa [if_neg hi]
  refine ⟨hremoves.numbered h.numbered, fun i ↦ ?_, fun q hlist ↦ ?_, fun key' q ↦ ?_⟩
  · rw [hremoves.pointers]
    by_cases hi : i = deleted.page
    · obtain ⟨keys, hkeys⟩ := exists_keys s deleted.page
      have hlinked := h.linked deleted.page
      rw [hkeys] at hlinked
      rw [if_pos hi, hi, hkeys, List.eraseIdx_map, linkedAt_iff]
      apply (linkedAt_iff.mp hlinked).recount
      · rwa [hkeys, List.length_map] at hsmall
      · intro q
        rw [hremoves.meta_eq h, hkeys, List.map_drop]
    · rw [if_neg hi]
      intro position q hq
      obtain ⟨other, hother, hotherpage, hotherid⟩ := h.linked i position q hq
      rw [hremoves.meta_eq h, if_neg]
      · exact ⟨other, hother, hotherpage, hotherid⟩
      · intro hmem
        have hsame := h.page_unique hother (List.mem_of_mem_drop hmem)
        exact hi (hotherpage.symm.trans hsame.symm)
  · rw [hremoves.weakKey_eq h]
    exact h.named q ((hlisted q).mp hlist).1
  · rw [hlisted, hremoves.weakKey_eq h]
    by_cases hkey' : key' = key
    · rw [hkey', Function.update_self]
      refine iff_of_false nofun fun ⟨⟨hlist, hne⟩, hq⟩ ↦ hne ?_
      exact Option.some.inj (((h.bound key q).mpr ⟨hlist, hq⟩).symm.trans hkey)
    · rw [Function.update_of_ne hkey', h.bound]
      constructor
      · intro ⟨hlist, hq⟩
        refine ⟨⟨hlist, fun heq ↦ hkey' ?_⟩, hq⟩
        have hpointer := ((h.bound key pointer).mp hkey).2
        rw [heq, hpointer, Option.some.injEq] at hq
        exact hq.symm
      · intro ⟨⟨hlist, _⟩, hq⟩
        exact ⟨hlist, hq⟩

end Removal

section Operation

variable {refuses : (Str → Option ℕ) → Str → Bool} {db db' : Database (Str → Option ℕ)}
  {reply : ProtoReply} {trans : Transaction} {result : Option ProtoReply}

/-- No page is so full that the number of another key would not fit in its field. -/
def PagesSmall {H : Type} (db : Database H) : Prop :=
  ∀ (index : ℕ) (header : PageHeader), db.storage.headers[index]? = some header →
    header.keys.contents.length < 2 ^ 16

theorem PagesSmall.pointersOf_lt {H : Type} {db : Database H} (h : PagesSmall db) (page : ℕ) :
    (pointersOf db.storage page).length < 2 ^ 16 := by
  cases hheader : db.storage.headers[page]? with
  | none =>
    rw [pointersOf, hheader]
    exact Nat.two_pow_pos 16
  | some header =>
    rw [pointersOf_eq hheader, List.length_map]
    exact h page header hheader

theorem operationSelect_indexes (h : Indexes db.hashmap db.storage)
    (hstep : operationSelect (dictionaryCalls refuses) db trans reply = .ok (db', result)) :
    Indexes db'.hashmap db'.storage := by
  rcases operationSelect_shape hstep with rfl | ⟨_, _, storage, _, _, _, hget, rfl⟩
  · exact h
  · obtain ⟨header, hwarm⟩ := pageValueGet_shape hget
    exact h.same (warmHeader_sameIndex hwarm).1

theorem operationDelete_indexes (h : Indexes db.hashmap db.storage) (hsmall : PagesSmall db)
    (hstep : operationDelete (dictionaryCalls refuses) db trans reply = .ok (db', result)) :
    Indexes db'.hashmap db'.storage := by
  rcases operationDelete_shape hstep with ⟨rfl, -⟩ | ⟨deletes, -⟩
  · exact h
  · obtain ⟨keyMeta, hmeta, -, -⟩ := h.place deletes.found
    have hload := deletes.load
    rw [Storage.loadMeta, hmeta, Option.elim_some, Except.ok.injEq] at hload
    obtain ⟨hremoves, bytes, hvalue⟩ := pageValueUnset_removes h.numbered deletes.unset
    have hremoved := h.removes deletes.found hmeta (by rw [hload]) (by rw [hload])
      (hsmall.pointersOf_lt _).le hremoves
    rw [deletes.hashmap]
    rcases deletes.after with ⟨hnone, -⟩ | ⟨index, found, -, hlsn⟩
    · rw [hvalue] at hnone
      cases hnone
    · exact hremoved.same (updateLSN_sameIndex hlsn)

/-- A refused key is taken out of its page again. -/
theorem operationInsert_indexes (h : Indexes db.hashmap db.storage) (hsmall : PagesSmall db)
    (hstep : operationInsert (dictionaryCalls refuses) growth db trans reply = .ok (db', result)) :
    Indexes db'.hashmap db'.storage := by
  rcases operationInsert_shape hstep with ⟨rfl, -⟩ | ⟨puts, hends⟩
  · exact h
  · have hadds := pageValueSet_adds h.numbered puts.set puts.stamp puts.name
    have hlength := hsmall.pointersOf_lt puts.index
    have hadded := h.adds puts.absent hlength hadds
    cases hends with
    | taken hresult hdb =>
      rw [hdb]
      exact hadded
    | refused hrefused keyMeta storage value hload hunset hdb =>
      have hnew := hadds.meta_new
      have hkeyMeta : keyMeta =
          ⟨some trans.msg.key, wrap16 (pointersOf db.storage puts.index).length, puts.index⟩ := by
        have hloaded : puts.named.loadMeta db.storage.metas.length = .ok
            ⟨some trans.msg.key, wrap16 (pointersOf db.storage puts.index).length, puts.index⟩ := by
          rw [Storage.loadMeta, hnew, Option.elim_some]
        exact Except.ok.inj (hload.symm.trans hloaded)
      obtain ⟨hremoves, -⟩ := pageValueUnset_removes hadded.numbered hunset
      have hfull : (pointersOf puts.named keyMeta.page).length ≤ 2 ^ 16 := by
        rw [hkeyMeta, hadds.pointers, if_pos rfl, List.length_append, List.length_singleton]
        exact hlength
      have hback := hadded.removes (Function.update_self ..) hnew (by rw [hkeyMeta])
        (by rw [hkeyMeta]) hfull hremoves
      rw [Function.update_idem, ← puts.absent, Function.update_eq_self] at hback
      rw [hdb]
      exact hback

theorem operationStep_indexes {call : OperationCall} (h : Indexes db.hashmap db.storage)
    (hsmall : PagesSmall db)
    (hstep : operationStep (dictionaryCalls refuses) growth db call = .ok (db', result)) :
    Indexes db'.hashmap db'.storage := by
  unfold operationStep at hstep
  split at hstep
  · rw [operationPeek_shape hstep]
    exact h
  split at hstep
  · exact operationSelect_indexes h hstep
  split at hstep
  · exact operationInsert_indexes h hsmall hstep
  split at hstep
  · exact operationDelete_indexes h hsmall hstep
  split at hstep
  · cases hstep
  · rwa [← (Prod.mk.inj (Except.ok.inj hstep)).1]

end Operation

section Bijection

/-- The way from a key to its place and the way back. -/
structure KeyIndexBijective (d : Str → Option ℕ) (s : Storage) : Prop where
  pageId : ∀ (page : ℕ) (header : PageHeader), s.headers[page]? = some header →
    header.pageId = page
  entry : ∀ (page position : ℕ) (header : PageHeader) (key : PageHeaderKey),
    s.headers[page]? = some header → header.keys.contents[position]? = some key →
      ∃ keyMeta weakKey, s.metas[key.keyMetaPtr]? = some keyMeta ∧ keyMeta.page = page ∧
        keyMeta.headerKeyId = position ∧ keyMeta.weakKey = some weakKey ∧
        d weakKey = some key.keyMetaPtr
  once : ∀ weakKey pointer, d weakKey = some pointer → ∃! place : ℕ × ℕ, ∃ header key,
    s.headers[place.1]? = some header ∧ header.keys.contents[place.2]? = some key ∧
      key.keyMetaPtr = pointer

theorem getElem?_pointersOf {page position pointer : ℕ} :
    (pointersOf s page)[position]? = some pointer ↔ ∃ header key, s.headers[page]? = some header ∧
      header.keys.contents[position]? = some key ∧ key.keyMetaPtr = pointer := by
  cases hheader : s.headers[page]? with
  | none => simp [pointersOf, hheader]
  | some header => simp [pointersOf, hheader, Option.map_eq_some_iff]

theorem Indexes.bijective {d : Str → Option ℕ} (h : Indexes d s) : KeyIndexBijective d s := by
  refine ⟨fun page header hheader ↦ (h.numbered page header hheader).1,
    fun page position header key hheader hkey ↦ ?_, fun weakKey pointer hbound ↦ ?_⟩
  · have hposition : (pointersOf s page)[position]? = some key.keyMetaPtr :=
      getElem?_pointersOf.mpr ⟨header, key, hheader, hkey, rfl⟩
    have hlist : Listed s key.keyMetaPtr := ⟨page, List.mem_of_getElem? hposition⟩
    obtain ⟨keyMeta, hmeta, hpage, hid⟩ := h.linked page position key.keyMetaPtr hposition
    obtain ⟨weakKey, hweak⟩ := h.named key.keyMetaPtr hlist
    refine ⟨keyMeta, weakKey, hmeta, hpage, hid, ?_, (h.bound weakKey _).mpr ⟨hlist, hweak⟩⟩
    rwa [weakKeyOf, hmeta, Option.bind_some] at hweak
  · obtain ⟨keyMeta, hmeta, -, hplace⟩ := h.place hbound
    refine ⟨(keyMeta.page, keyMeta.headerKeyId), getElem?_pointersOf.mp hplace,
      fun place hother ↦ ?_⟩
    obtain ⟨found, hfound, hpage, hid⟩ :=
      h.linked place.1 place.2 pointer (getElem?_pointersOf.mpr hother)
    obtain rfl : keyMeta = found := Option.some.inj (hmeta.symm.trans hfound)
    exact Prod.ext hpage.symm hid.symm

end Bijection

end FGDB.Operations
