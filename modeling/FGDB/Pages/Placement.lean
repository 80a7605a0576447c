import FGDB.Pages.Contents

/-!
# Placing a value

The search takes the first page whose free bytes pass the test. When the size of
the value fits there too, the storage holds the new value and all that it held,
and stays valid.
-/

namespace FGDB.Pages

open Foundation Memory Records HashMap
open FGDB.Vector (BoundedList Growth)

/-- The search goes on to the next page: the test for free bytes fails, and the one for
fragmentation divides by the number of keys. -/
def PageHeader.PassedOver (header : PageHeader) (size : ℕ) : Prop :=
  header.freeBytes < size ∧ header.keys.contents ≠ []

/-- The page that the search takes. -/
structure FirstFit (headers : List PageHeader) (size index : ℕ) (header : PageHeader) : Prop where
  here : headers[index]? = some header
  fits : size ≤ header.freeBytes
  before : ∀ x ∈ headers.take index, x.PassedOver size

theorem fragmentated_eq {header : PageHeader} {size : ℕ}
    (hfragmentated : header.fragmentatedBytes < pageSize) :
    header.fragmentated size =
      if header.keys.contents = [] then .error .divisionByZero else .ok false := by
  have hzero : header.fragmentatedBytes / pageSize = 0 := Nat.div_eq_of_lt hfragmentated
  simp only [PageHeader.fragmentated, List.length_eq_zero_iff, hzero, Nat.zero_mul]
  split
  · rfl
  · simp [fragmentationFactor]

/-- As long as no page has lost as many bytes as a page has, none is preferred. -/
theorem searchPage_eq_ok {size : ℕ} {front rest : List PageHeader} {choice : PageChoice}
    (hfragmentated : ∀ x ∈ rest, x.fragmentatedBytes < pageSize)
    (hfront : ∀ x ∈ front, x.PassedOver size) :
    searchPage size rest front.length none = .ok choice ↔
      (∃ index header, FirstFit (front ++ rest) size index header ∧ choice = .fits index) ∨
      ((∀ x ∈ front ++ rest, x.PassedOver size) ∧ choice = .noPage) := by
  induction rest generalizing front with
  | nil =>
    rw [List.append_nil, searchPage]
    constructor
    · intro h
      exact .inr ⟨hfront, (Except.ok.inj h).symm⟩
    · intro h
      rcases h with ⟨index, header, hfirst, -⟩ | ⟨-, rfl⟩
      · exact absurd hfirst.fits (hfront header (List.mem_of_getElem? hfirst.here)).1.not_ge
      · rfl
  | cons x rest ih =>
    rw [searchPage]
    by_cases hfits : size ≤ x.freeBytes
    · rw [if_pos hfits]
      have hfirst : FirstFit (front ++ x :: rest) size front.length x := by
        refine ⟨by simp, hfits, ?_⟩
        rw [List.take_left' rfl]
        exact hfront
      constructor
      · intro h
        exact .inl ⟨front.length, x, hfirst, (Except.ok.inj h).symm⟩
      · intro h
        rcases h with ⟨index, header, hother, rfl⟩ | ⟨hall, -⟩
        · congr 2
          rcases lt_trichotomy index front.length with hlt | heq | hgt
          · have hmem : header ∈ front := by
              have hhere := hother.here
              rw [List.getElem?_append_left hlt] at hhere
              exact List.mem_of_getElem? hhere
            exact absurd hother.fits (hfront header hmem).1.not_ge
          · exact heq.symm
          · have hmem : x ∈ (front ++ x :: rest).take index :=
              List.mem_take_iff_getElem.mpr ⟨front.length, by simp; omega, by simp⟩
            exact absurd hfits (hother.before x hmem).1.not_ge
        · exact absurd hfits (hall x (by simp)).1.not_ge
    · rw [if_neg hfits, fragmentated_eq (hfragmentated x List.mem_cons_self)]
      by_cases hkeys : x.keys.contents = []
      · rw [if_pos hkeys, error_bind]
        constructor
        · intro h
          cases h
        · intro h
          have hpassed : x.PassedOver size := by
            rcases h with ⟨index, header, hother, -⟩ | ⟨hall, -⟩
            · have hlt : front.length < index := by
                by_contra hle
                rcases Nat.lt_or_eq_of_le (Nat.le_of_not_lt hle) with hlt | heq
                · have hhere := hother.here
                  rw [List.getElem?_append_left hlt] at hhere
                  exact absurd hother.fits (hfront header (List.mem_of_getElem? hhere)).1.not_ge
                · have hhere := hother.here
                  rw [heq] at hhere
                  simp only [List.getElem?_append_right (Nat.le_refl _), Nat.sub_self,
                    List.getElem?_cons_zero, Option.some.injEq] at hhere
                  exact hfits (hhere ▸ hother.fits)
              apply hother.before x
              exact List.mem_take_iff_getElem.mpr ⟨front.length, by simp; omega, by simp⟩
            · exact hall x (by simp)
          exact absurd hkeys hpassed.2
      · have hfront' : ∀ y ∈ front ++ [x], y.PassedOver size := by
          intro y hy
          rcases List.mem_append.mp hy with hy | hy
          · exact hfront y hy
          · rw [List.mem_singleton.mp hy]
            exact ⟨Nat.lt_of_not_le hfits, hkeys⟩
        have hnext := ih (fun y hy ↦ hfragmentated y (List.mem_cons_of_mem _ hy)) hfront'
        rw [List.length_append, List.length_singleton, List.append_assoc,
          List.singleton_append] at hnext
        rw [if_neg hkeys, ok_bind]
        exact hnext

section Place

variable {growth : Growth} {s s' : Storage} {value : Str} {pointer index : ℕ}
  {header : PageHeader} {keys : BoundedList PageHeaderKey} {keyMeta : KeyMeta}

/-- The storage with a value behind the others of a page. -/
def placed (s : Storage) (value : Str) (pointer index : ℕ) (header : PageHeader)
    (keys : BoundedList PageHeaderKey) (keyMeta : KeyMeta) : Storage :=
  { s with
    arena := { s.arena with
      pages := s.arena.pages.store (pageStart header.arenaId + header.offsetBytes)
        (record value.bytes)
      headers := s.arena.headers.set index { header with
        location := .inMemory
        keys := keys
        offsetBytes := wrap16 (header.offsetBytes + (value.size + 2)) } }
    metas := s.metas.set pointer { keyMeta with
      headerKeyId := wrap16 (keys.contents.length - 1)
      page := header.pageId } }

theorem placeValue_eq_ok : placeValue growth s value pointer index = .ok s' ↔
    ∃ header keys keyMeta, s.headers[index]? = some header ∧
      header.keys.add growth ⟨wrap16 header.offsetBytes, pointer⟩ = .ok keys ∧
      s.metas[pointer]? = some keyMeta ∧
      s.arena.Owns (pageStart header.arenaId + header.offsetBytes) (record value.bytes).length ∧
      s' = placed s value pointer index header keys keyMeta := by
  unfold placeValue
  cases hheader : s.headers[index]? with
  | none => simp [Storage.header, hheader]
  | some header =>
    cases hadd : header.keys.add growth ⟨wrap16 header.offsetBytes, pointer⟩ with
    | error fault => simp [Storage.header, hheader, headersPushKey, hadd]
    | ok keys =>
      cases hmeta : s.metas[pointer]? with
      | none => simp [Storage.header, hheader, headersPushKey, hadd, hmeta]
      | some keyMeta =>
        have hlt : pointer < s.metas.length := (List.getElem?_eq_some_iff.mp hmeta).1
        have hdata : leBytes 2 value.size ++ value.bytes = record value.bytes := rfl
        by_cases howns : s.arena.Owns (pageStart header.arenaId + header.offsetBytes)
            (record value.bytes).length
        · simp [Storage.header, hheader, headersPushKey, hadd, hmeta, Storage.modifyMeta,
            Storage.loadMeta, List.getElem?_set_self hlt, Arena.write, hdata, howns, placed,
            Storage.setHeader, eq_comm, -length_record]
        · simp [Storage.header, hheader, headersPushKey, hadd, hmeta, Storage.modifyMeta,
            Storage.loadMeta, List.getElem?_set_self hlt, Arena.write, hdata, howns, -length_record]

/-- No page has a key with a meta that nothing is stored for. -/
theorem ne_of_not_stores (hfresh : ∀ w, ¬ s.Stores pointer w) {i : ℕ} {x : PageHeader}
    (hx : s.headers[i]? = some x) {key : PageHeaderKey} (hkey : key ∈ x.keys.contents) :
    key.keyMetaPtr ≠ pointer := by
  intro heq
  exact hfresh (payloadAt (s.image x) key.offset)
    ⟨i, x, hx, List.mem_map.mpr ⟨key, hkey, by rw [heq]⟩⟩

theorem owns_of_fit (hs : s.Valid) (hhere : s.headers[index]? = some header)
    (hmemory : header.location = .inMemory)
    (hfit : header.offsetBytes + (value.size + 2) ≤ pageSize) :
    s.arena.Owns (pageStart header.arenaId + header.offsetBytes) (record value.bytes).length := by
  have harena := (hs.headers index header hhere).located.arenaId_lt hmemory
  have hle := pageStart_add_le (harena.trans_le hs.uploaded_le)
  unfold Arena.Owns
  rw [length_record]
  unfold Str.size at hfit
  omega

/-- The page that got the value. -/
theorem placed_headerValid (hs : s.Valid) (hhere : s.headers[index]? = some header)
    (hmemory : header.location = .inMemory)
    (hadd : header.keys.add growth ⟨wrap16 header.offsetBytes, pointer⟩ = .ok keys)
    (hmeta : s.metas[pointer]? = some keyMeta) (hfresh : ∀ w, ¬ s.Stores pointer w)
    (hfit : header.offsetBytes + (value.size + 2) ≤ pageSize) {header' : PageHeader}
    (hheader' : header' = { header with
      location := .inMemory
      keys := keys
      offsetBytes := wrap16 (header.offsetBytes + (value.size + 2)) }) :
    HeaderValid (placed s value pointer index header keys keyMeta) index header' ∧
      cellsOf ((placed s value pointer index header keys keyMeta).image header')
        header'.keys.contents =
          cellsOf (s.image header) header.keys.contents ++ [(pointer, value.bytes)] := by
  have hvalid := hs.headers index header hhere
  obtain ⟨-, hcontents, -⟩ := BoundedList.add_eq_ok.mp hadd
  rw [wrap16_of_le (by omega : header.offsetBytes ≤ pageSize)] at hcontents
  have hkeys : header'.keys.contents =
      header.keys.contents ++ [⟨header.offsetBytes, pointer⟩] := by
    rw [hheader', ← hcontents]
  have himage : (placed s value pointer index header keys keyMeta).image header' =
      store (s.image header) header.offsetBytes (record value.bytes) := by
    rw [image_of_inMemory s hmemory, hheader', image_of_inMemory _ rfl]
    exact window_store _ _ _ _
  obtain ⟨hholds, hcells⟩ := hvalid.holds.push value pointer hfit
  refine ⟨⟨?_, ?_, ?_, ?_, ?_, ?_⟩, ?_⟩
  · rw [hheader']
    exact hvalid.pageId
  · rw [hheader']
    exact .inl ⟨rfl, hvalid.located.arenaId_lt hmemory⟩
  · rw [hheader']
    exact fun _ ↦ rfl
  · rw [hheader']
    exact hvalid.settled
  · rw [himage, hkeys, hheader']
    simp only [wrap16_of_le hfit]
    exact hholds
  · intro position key hkey
    rw [hkeys] at hkey
    have hlt : pointer < s.metas.length := (List.getElem?_eq_some_iff.mp hmeta).1
    rcases lt_or_ge position header.keys.contents.length with hold | hnew
    · rw [List.getElem?_append_left hold] at hkey
      have hne := ne_of_not_stores hfresh hhere (List.mem_of_getElem? hkey)
      change ∃ m, (s.metas.set pointer _)[key.keyMetaPtr]? = some m ∧ _
      rw [List.getElem?_set_ne hne.symm]
      exact hvalid.linked position key hkey
    · rw [List.getElem?_append_right hnew] at hkey
      have hposition : position = header.keys.contents.length := by
        have hone := (List.getElem?_eq_some_iff.mp hkey).1
        rw [List.length_singleton] at hone
        omega
      rw [hposition, Nat.sub_self, List.getElem?_cons_zero, Option.some.injEq] at hkey
      rw [← hkey]
      refine ⟨_, List.getElem?_set_self hlt, hvalid.pageId, ?_⟩
      have hlength := hvalid.holds.length_le
      have hcount : keys.contents.length - 1 = header.keys.contents.length := by
        rw [hcontents, List.length_append, List.length_singleton, Nat.add_sub_cancel]
      rw [hcount, hposition]
      exact wrap16_of_le (by omega)
  · rw [himage, hkeys]
    exact hcells

/-- A placed value is stored beside all that was. -/
theorem placed_valid (hs : s.Valid) (hhere : s.headers[index]? = some header)
    (hmemory : header.location = .inMemory)
    (hadd : header.keys.add growth ⟨wrap16 header.offsetBytes, pointer⟩ = .ok keys)
    (hmeta : s.metas[pointer]? = some keyMeta) (hfresh : ∀ w, ¬ s.Stores pointer w)
    (hfit : header.offsetBytes + (value.size + 2) ≤ pageSize) :
    (placed s value pointer index header keys keyMeta).Valid ∧
      Touches s (placed s value pointer index header keys keyMeta) index ∧ ∀ q w,
        (placed s value pointer index header keys keyMeta).Stores q w ↔
          s.Stores q w ∨ q = pointer ∧ w = value.bytes := by
  obtain ⟨header', hheader'⟩ : ∃ header', header' = { header with
    location := .inMemory
    keys := keys
    offsetBytes := wrap16 (header.offsetBytes + (value.size + 2)) } := ⟨_, rfl⟩
  obtain ⟨hnew, hcells⟩ :=
    placed_headerValid hs hhere hmemory hadd hmeta hfresh hfit hheader'
  have hlt : index < s.headers.length := (List.getElem?_eq_some_iff.mp hhere).1
  have hheaders : (placed s value pointer index header keys keyMeta).headers =
      s.headers.set index header' := by
    rw [hheader']
    rfl
  have harena : header'.arenaId = header.arenaId := by
    rw [hheader']
  have hdistinct (i : ℕ) (x : PageHeader) (hi : i ≠ index) (hx : s.headers[i]? = some x)
      (hxm : x.location = .inMemory) : x.arenaId ≠ header.arenaId :=
    hs.distinct i index x header hx hhere hi hxm hmemory
  have htouches : Touches s (placed s value pointer index header keys keyMeta) index := by
    refine ⟨⟨fun i x hi hx ↦ ?_, fun i x _ hx key hkey ↦ ?_, Nat.le_refl _, Nat.le_refl _⟩,
      fun i hi ↦ ?_, rfl, rfl, rfl, fun q ↦ ?_⟩
    · rcases (hs.headers i x hx).located.cases with hxm | hdisk
      · rw [image_of_inMemory _ hxm, image_of_inMemory _ hxm]
        apply agreeBelow_window (fun _ _ ↦ pageStart_add_le) (hdistinct i x hi hx hxm).symm
        apply store_outside
        rw [length_record]
        unfold Str.size at hfit
        omega
      · rw [image_of_inDisk _ hdisk, image_of_inDisk _ hdisk]
        exact AgreeBelow.refl
    · exact List.getElem?_set_ne (ne_of_not_stores hfresh hx hkey).symm
    · rw [hheaders, getElem?_set_ite hlt, if_neg hi]
    · change (s.metas.set pointer _)[q]?.map _ = _
      rw [getElem?_set_ite (List.getElem?_eq_some_iff.mp hmeta).1]
      split
      · next heq => rw [heq, hmeta, Option.map_some, Option.map_some]
      · rfl
  obtain ⟨hvalid, hstores⟩ := hs.update
    (fun i ↦ by rw [hheaders, getElem?_set_ite hlt]) htouches.toElsewhere hnew
    (fun i x hi hx hxm _ ↦ harena ▸ hdistinct i x hi hx hxm) (by
      rw [hheaders, List.length_set]
      exact hs.fitting) (by
      rw [hheaders, countP_set_of_eq hhere]
      · exact hs.counted
      · rw [hheader', PageHeader.isInMemory, PageHeader.isInMemory, hmemory])
  refine ⟨hvalid, htouches, fun q w ↦ ?_⟩
  rw [hstores, hcells, List.mem_append, List.mem_singleton, Prod.mk.injEq, ← or_assoc,
    ← stores_iff hhere]

end Place

section New

variable {growth : Growth} {s s' : Storage} {index : ℕ}

/-- The header of a new page. -/
def newHeader (growth : Growth) (s : Storage) : PageHeader where
  fragmentatedBytes := 0
  offsetBytes := 0
  keys := BoundedList.init growth pageHeaderKeysInitCount
  pLSN := 0
  pageId := s.headers.length
  arenaId := s.arena.uploadedPages
  state := .dirty
  location := .inMemory

/-- The storage with a new page. -/
def opened (s : Storage) (headers : BoundedList PageHeader) : Storage :=
  { s with
    arena := { s.arena with headers := headers, uploadedPages := s.arena.uploadedPages + 1 }
    lru := lruTouchPage s.lru s.headers.length }

theorem headersNewPage_eq_ok (hroom : s.arena.uploadedPages < s.arena.allocatedPages) :
    headersNewPage growth s = .ok (s', index) ↔
      ∃ headers, s.arena.headers.add growth (newHeader growth s) = .ok headers ∧
        s' = opened s headers ∧ index = s.headers.length := by
  have hnext : arenaGetNextPage s = .ok ({ s with
      arena := { s.arena with uploadedPages := s.arena.uploadedPages + 1 } },
      s.arena.uploadedPages) := if_pos hroom
  simp only [headersNewPage, hnext, ok_bind]
  change (s.arena.headers.add growth (newHeader growth s) >>= _) = _ ↔ _
  cases hadd : s.arena.headers.add growth (newHeader growth s) with
  | error fault => simp
  | ok headers => simp [opened, eq_comm]

/-- A new page holds nothing. -/
theorem opened_valid (hs : s.Valid) (hroom : s.headers.length < s.arena.allocatedPages)
    {headers : BoundedList PageHeader}
    (hadd : s.arena.headers.add growth (newHeader growth s) = .ok headers) :
    (opened s headers).Valid ∧ Touches s (opened s headers) s.headers.length ∧
      (opened s headers).headers[s.headers.length]? = some (newHeader growth s) ∧ ∀ q w, (opened s headers).Stores q w ↔ s.Stores q w := by
  obtain ⟨-, hcontents, -⟩ := BoundedList.add_eq_ok.mp hadd
  have hheaders : (opened s headers).headers = s.headers ++ [newHeader growth s] := hcontents
  have hat (i : ℕ) : (opened s headers).headers[i]? =
      if i = s.headers.length then some (newHeader growth s) else s.headers[i]? := by
    rw [hheaders]
    by_cases hi : i = s.headers.length
    · rw [hi, if_pos rfl, List.getElem?_concat_length]
    · rw [if_neg hi]
      rcases lt_or_gt_of_ne hi with hlt | hgt
      · rw [List.getElem?_append_left hlt]
      · rw [List.getElem?_eq_none (by simp; omega), List.getElem?_eq_none (by omega)]
  have htouches : Touches s (opened s headers) s.headers.length :=
    ⟨⟨fun _ _ _ _ ↦ by exact AgreeBelow.refl, fun _ _ _ _ _ _ ↦ rfl, Nat.le_succ _, Nat.le_refl _⟩,
      fun i hi ↦ by rw [hat, if_neg hi], rfl, rfl, rfl, fun _ ↦ rfl⟩
  have hnew : HeaderValid (opened s headers) s.headers.length (newHeader growth s) := by
    refine ⟨rfl, .inl ⟨rfl, Nat.lt_succ_self _⟩, fun _ ↦ rfl, ?_, pageHolds_nil _, ?_⟩
    · rintro ⟨⟩
    · intro position key hkey
      cases hkey
  obtain ⟨hvalid, hstores⟩ := hs.update hat htouches.toElsewhere hnew
    (fun i x _ hx hxm _ ↦ ((hs.headers i x hx).located.arenaId_lt hxm).ne) (by
      rw [hheaders, List.length_append]
      exact hroom) (by
      rw [hheaders, List.countP_append, hs.counted]
      rfl)
  refine ⟨hvalid, htouches, by rw [hat, if_pos rfl], fun q w ↦ ?_⟩
  rw [hstores]
  constructor
  · intro h
    rcases h with ⟨i, x, -, hx, hmem⟩ | hmem
    · exact ⟨i, x, hx, hmem⟩
    · exact absurd hmem List.not_mem_nil
  · rintro ⟨i, x, hx, hmem⟩
    exact .inl ⟨i, x, (List.getElem?_eq_some_iff.mp hx).1.ne, hx, hmem⟩

end New

section Set

variable {growth : Growth} {s s' : Storage} {value : Str} {pointer index : ℕ}

/-- As long as no page has lost as many bytes as a page has, a value goes to the first page that
passes the test or to a new one. -/
theorem pageValueSet_choice (hfragmentated : ∀ x ∈ s.headers, x.fragmentatedBytes < pageSize)
    (huploaded : (∀ x ∈ s.headers, x.PassedOver value.size) →
      s.arena.uploadedPages < s.arena.allocatedPages) :
    pageValueSet growth s value pointer = .ok (s', index) ↔
      (∃ header, FirstFit s.headers value.size index header ∧
        placeValue growth s value pointer index = .ok s') ∨
      ((∀ x ∈ s.headers, x.PassedOver value.size) ∧ index = s.headers.length ∧
        ∃ headers, s.arena.headers.add growth (newHeader growth s) = .ok headers ∧
          placeValue growth (opened s headers) value pointer index = .ok s') := by
  have hsearch (choice : PageChoice) :=
    @searchPage_eq_ok value.size [] s.headers choice hfragmentated (by simp)
  simp only [List.nil_append, List.length_nil] at hsearch
  unfold pageValueSet headersAllocPage
  constructor
  · intro h
    obtain ⟨⟨s1, index1⟩, halloc, hrest⟩ := bind_eq_ok.mp h
    obtain ⟨s2, hplace, hresult⟩ := bind_eq_ok.mp hrest
    obtain ⟨rfl, rfl⟩ := Prod.mk.inj (Except.ok.inj hresult)
    obtain ⟨choice, hchoice, halloc⟩ := bind_eq_ok.mp halloc
    rcases (hsearch choice).mp hchoice with ⟨i, header, hfirst, rfl⟩ | ⟨hall, rfl⟩
    · obtain ⟨rfl, rfl⟩ := Prod.mk.inj (Except.ok.inj halloc)
      exact .inl ⟨header, hfirst, hplace⟩
    · obtain ⟨headers, hadd, rfl, rfl⟩ := (headersNewPage_eq_ok (huploaded hall)).mp halloc
      exact .inr ⟨hall, rfl, headers, hadd, hplace⟩
  · intro h
    rcases h with ⟨header, hfirst, hplace⟩ | ⟨hall, rfl, headers, hadd, hplace⟩
    · have hchoice := (hsearch (.fits index)).mpr (.inl ⟨index, header, hfirst, rfl⟩)
      simp only [hchoice, ok_bind, pure_eq_ok, hplace]
    · have hchoice := (hsearch .noPage).mpr (.inr ⟨hall, rfl⟩)
      have hnew := (headersNewPage_eq_ok (huploaded hall)).mpr ⟨headers, hadd, rfl, rfl⟩
      simp only [hchoice, ok_bind, hnew, pure_eq_ok, hplace]

theorem pageValueSet_eq_ok (hs : s.Valid)
    (hroom : (∀ x ∈ s.headers, x.PassedOver value.size) →
      s.headers.length < s.arena.allocatedPages) :
    pageValueSet growth s value pointer = .ok (s', index) ↔
      (∃ header, FirstFit s.headers value.size index header ∧
        placeValue growth s value pointer index = .ok s') ∨
      ((∀ x ∈ s.headers, x.PassedOver value.size) ∧ index = s.headers.length ∧
        ∃ headers, s.arena.headers.add growth (newHeader growth s) = .ok headers ∧
          placeValue growth (opened s headers) value pointer index = .ok s') := by
  apply pageValueSet_choice
  · intro x hx
    obtain ⟨i, hi⟩ := List.getElem?_of_mem hx
    exact (hs.headers i x hi).holds.fragmentated_lt
  · intro hall
    rw [← hs.counted]
    exact List.countP_le_length.trans_lt (hroom hall)

/-- The page that the search takes is in memory and has room for the value with its size. -/
def SetFits (s : Storage) (size : ℕ) : Prop :=
  ∀ index header, FirstFit s.headers size index header →
    header.location = .inMemory ∧ header.offsetBytes + (size + 2) ≤ pageSize

/-- Nothing ends the program: the search finds a page or passes over all and the arena has one
more, and the vectors have room. -/
def SetRoom (growth : Growth) (s : Storage) (size : ℕ) : Prop :=
  (∃ index header, FirstFit s.headers size index header ∧
    growth.Room header.keys.contents.length header.keys.capacity) ∨
  ((∀ x ∈ s.headers, x.PassedOver size) ∧ s.headers.length < s.arena.allocatedPages ∧
    growth.Room s.headers.length s.arena.headers.capacity ∧
    growth.Room 0 (growth.initial pageHeaderKeysInitCount))

/-- What setting a value does. -/
structure SetEffect (s s' : Storage) (value : Str) (pointer index : ℕ) : Prop where
  valid : s'.Valid
  touches : Touches s s' index
  stores : ∀ q w, s'.Stores q w ↔ s.Stores q w ∨ q = pointer ∧ w = value.bytes
  header : ∃ header', s'.headers[index]? = some header' ∧
    header'.state = (s.headers[index]?.map PageHeader.state).getD .dirty

theorem placeValue_effect (hs : s.Valid) {header : PageHeader}
    (hhere : s.headers[index]? = some header) (hmemory : header.location = .inMemory)
    (hfit : header.offsetBytes + (value.size + 2) ≤ pageSize)
    (hfresh : ∀ w, ¬ s.Stores pointer w)
    (hplace : placeValue growth s value pointer index = .ok s') :
    SetEffect s s' value pointer index := by
  obtain ⟨header', keys, keyMeta, hhere', hadd, hmeta, -, rfl⟩ := placeValue_eq_ok.mp hplace
  obtain rfl : header = header' := Option.some.inj (hhere.symm.trans hhere')
  obtain ⟨hvalid, htouches, hstores⟩ := placed_valid hs hhere hmemory hadd hmeta hfresh hfit
  have hlt : index < s.headers.length := (List.getElem?_eq_some_iff.mp hhere).1
  exact ⟨hvalid, htouches, hstores, _, List.getElem?_set_self hlt, by rw [hhere]; rfl⟩

/-- A value that fits is stored beside all that was. -/
theorem pageValueSet_effect (hs : s.Valid)
    (hroom : (∀ x ∈ s.headers, x.PassedOver value.size) →
      s.headers.length < s.arena.allocatedPages)
    (hfits : SetFits s value.size) (hsize : value.size + 2 ≤ pageSize)
    (hfresh : ∀ w, ¬ s.Stores pointer w)
    (hset : pageValueSet growth s value pointer = .ok (s', index)) :
    SetEffect s s' value pointer index := by
  rcases (pageValueSet_eq_ok hs hroom).mp hset with
    ⟨header, hfirst, hplace⟩ | ⟨hall, rfl, headers, hadd, hplace⟩
  · obtain ⟨hmemory, hfit⟩ := hfits index header hfirst
    exact placeValue_effect hs hfirst.here hmemory hfit hfresh hplace
  · obtain ⟨hvalid, htouches, hhere, hstores⟩ := opened_valid hs (hroom hall) hadd
    have hfresh' (w : List UInt8) : ¬ (opened s headers).Stores pointer w := by
      rw [hstores]
      exact hfresh w
    have hempty : (newHeader growth s).offsetBytes + (value.size + 2) ≤ pageSize := by
      simpa [newHeader] using hsize
    have heffect := placeValue_effect hvalid hhere rfl hempty hfresh' hplace
    obtain ⟨header', hheader', hstate⟩ := heffect.header
    refine ⟨heffect.valid, htouches.trans heffect.touches, fun q w ↦ ?_, header', hheader', ?_⟩
    · rw [heffect.stores, hstores]
    · rw [hstate, hhere, List.getElem?_eq_none (Nat.le_refl _)]
      rfl

theorem placeValue_ok (hs : s.Valid) {header : PageHeader} {keyMeta : KeyMeta}
    (hhere : s.headers[index]? = some header) (hmemory : header.location = .inMemory)
    (hfit : header.offsetBytes + (value.size + 2) ≤ pageSize)
    (hroom : growth.Room header.keys.contents.length header.keys.capacity)
    (hmeta : s.metas[pointer]? = some keyMeta) :
    ∃ s', placeValue growth s value pointer index = .ok s' := by
  obtain ⟨keys, hkeys⟩ : ∃ keys, header.keys.add growth ⟨wrap16 header.offsetBytes, pointer⟩ =
    .ok keys := ⟨_, dif_pos hroom⟩
  exact ⟨_, placeValue_eq_ok.mpr ⟨header, keys, keyMeta, hhere, hkeys, hmeta,
    owns_of_fit hs hhere hmemory hfit, rfl⟩⟩

theorem SetRoom.next {size : ℕ} (h : SetRoom growth s size)
    (hall : ∀ x ∈ s.headers, x.PassedOver size) : s.headers.length < s.arena.allocatedPages := by
  rcases h with ⟨index, header, hfirst, -⟩ | h
  · exact absurd hfirst.fits (hall header (List.mem_of_getElem? hfirst.here)).1.not_ge
  · exact h.2.1

theorem pageValueSet_ok (hs : s.Valid) (hroom : SetRoom growth s value.size)
    (hfits : SetFits s value.size) (hsize : value.size + 2 ≤ pageSize)
    (hfresh : ∀ w, ¬ s.Stores pointer w) {keyMeta : KeyMeta}
    (hmeta : s.metas[pointer]? = some keyMeta) :
    ∃ s' index, pageValueSet growth s value pointer = .ok (s', index) ∧
      SetEffect s s' value pointer index := by
  have hnext := hroom.next
  obtain ⟨s', index, hset⟩ : ∃ s' index, pageValueSet growth s value pointer = .ok (s', index) := by
    rcases hroom with ⟨index, header, hfirst, hkeys⟩ | ⟨hall, hspace, hheaders, hkeys⟩
    · obtain ⟨hmemory, hfit⟩ := hfits index header hfirst
      obtain ⟨s', hplace⟩ := placeValue_ok hs hfirst.here hmemory hfit hkeys hmeta
      exact ⟨s', index, (pageValueSet_eq_ok hs hnext).mpr (.inl ⟨header, hfirst, hplace⟩)⟩
    · obtain ⟨headers, hadd⟩ : ∃ headers, s.arena.headers.add growth (newHeader growth s) =
        .ok headers := ⟨_, dif_pos hheaders⟩
      obtain ⟨hvalid, -, hhere, -⟩ := opened_valid hs hspace hadd
      have hempty : (newHeader growth s).offsetBytes + (value.size + 2) ≤ pageSize := by
        simpa [newHeader] using hsize
      obtain ⟨s', hplace⟩ := @placeValue_ok growth (opened s headers) value pointer _ hvalid _ _
        hhere rfl hempty hkeys hmeta
      exact ⟨s', _, (pageValueSet_eq_ok hs hnext).mpr (.inr ⟨hall, rfl, headers, hadd, hplace⟩)⟩
  exact ⟨s', index, hset, pageValueSet_effect hs hnext hfits hsize hfresh hset⟩

end Set

end FGDB.Pages
