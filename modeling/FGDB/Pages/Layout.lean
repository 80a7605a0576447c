import FGDB.Pages.Placement
import FGDB.Pages.Residence

/-!
# The records of a page

While the pages are in memory, the values of a page lie one behind another in front
of its bytes in use, as long as every value fits with its size into the page that the
search takes. The search compares the size of the value alone with the free bytes.
-/

namespace FGDB.Pages

open Foundation Memory Records HashMap
open FGDB.Vector (BoundedList Growth)

/-- The records of the keys of every page are in the order of their offsets, none reaches into the
next, and all end in front of the bytes in use, which are in the page. -/
def RecordsInOrder (s : Storage) : Prop :=
  ∀ header ∈ s.headers,
    header.places.Pairwise (fun place later ↦
      place + (2 + sizeAt (s.arenaImage header.arenaId) place) ≤ later) ∧
    (∀ place ∈ header.places,
      place + (2 + sizeAt (s.arenaImage header.arenaId) place) ≤ header.offsetBytes) ∧
    header.offsetBytes ≤ pageSize

/-- A page in memory with its values. The pages of the arena are handed out in the order of the
headers. -/
structure PageLaid (s : Storage) (index : ℕ) (header : PageHeader) : Prop where
  location : header.location = .inMemory
  arenaId : header.arenaId = index
  holds : PageHolds (s.arenaImage index) header.keys.contents header.offsetBytes
    header.fragmentatedBytes

structure Laid (s : Storage) : Prop where
  uploaded : s.arena.uploadedPages = s.headers.length
  pages : ∀ (index : ℕ) (header : PageHeader), s.headers[index]? = some header →
    PageLaid s index header

/-- The value of a call fits into an empty page, there is a page of the arena for a new header, and
the page that the search takes has room for the value with its size. -/
def SetsInside (s : Storage) : PageCall → Prop
  | .set value => value.size + 2 ≤ pageSize ∧
    ((∀ x ∈ s.headers, x.PassedOver value.size) → s.headers.length < s.arena.allocatedPages) ∧
    ∀ index header, FirstFit s.headers value.size index header →
      header.offsetBytes + (value.size + 2) ≤ pageSize
  | _ => True

section Laid

variable {growth : Growth} {s s' : Storage} {index : ℕ} {header : PageHeader}

theorem Laid.recordsInOrder (h : Laid s) : RecordsInOrder s := by
  intro header hheader
  obtain ⟨index, hindex⟩ := List.getElem?_of_mem hheader
  have hpage := h.pages index header hindex
  have hend (place : ℕ) : endAt (s.arenaImage header.arenaId) place =
      place + (2 + sizeAt (s.arenaImage header.arenaId) place) := Nat.add_assoc _ _ _
  have hpacked := hpage.holds.packed
  rw [← hpage.arenaId] at hpacked
  refine ⟨hpacked.ordered.imp fun {place later} hle ↦ ?_, fun place hplace ↦ ?_,
    hpage.holds.offset_le⟩
  · rw [← hend]
    exact hle
  · rw [← hend]
    exact hpacked.inside place hplace

theorem Laid.congr (h : Laid s) (hheaders : s'.headers = s.headers)
    (hpages : s'.arena.pages = s.arena.pages)
    (huploaded : s'.arena.uploadedPages = s.arena.uploadedPages) : Laid s' := by
  refine ⟨huploaded.trans (by rw [h.uploaded, hheaders]), fun index header hheader ↦ ?_⟩
  have hpage := h.pages index header (hheaders ▸ hheader)
  refine ⟨hpage.location, hpage.arenaId, ?_⟩
  rw [Storage.arenaImage, hpages]
  exact hpage.holds

/-- One header changes, and the bytes of the other pages stay. -/
theorem Laid.update (h : Laid s) {header' : PageHeader} (hhere : s.headers[index]? = some header)
    (hheaders : s'.headers = s.headers.set index header')
    (huploaded : s'.arena.uploadedPages = s.arena.uploadedPages)
    (hother : ∀ i, i ≠ index → AgreeBelow pageSize (s.arenaImage i) (s'.arenaImage i))
    (hnew : PageLaid s' index header') : Laid s' := by
  have hlt : index < s.headers.length := (List.getElem?_eq_some_iff.mp hhere).1
  refine ⟨?_, fun i x hx ↦ ?_⟩
  · rw [huploaded, h.uploaded, hheaders, List.length_set]
  · rw [hheaders, getElem?_set_ite hlt] at hx
    by_cases hi : i = index
    · rw [if_pos hi, Option.some.injEq] at hx
      rw [hi, ← hx]
      exact hnew
    · rw [if_neg hi] at hx
      have hpage := h.pages i x hx
      exact ⟨hpage.location, hpage.arenaId, (hpage.holds.agree (hother i hi)).1⟩

theorem updateLSN_laid (h : Laid s) {index lsn : ℕ} (hstamp : updateLSN s index lsn = .ok s') :
    Laid s' := by
  obtain ⟨header, hheader, hstamp⟩ := bind_eq_ok.mp hstamp
  rw [← Except.ok.inj hstamp]
  have hhere := header_eq_ok.mp hheader
  have hpage := h.pages index header hhere
  exact h.update hhere rfl rfl (fun _ _ ↦ AgreeBelow.refl)
    ⟨hpage.location, hpage.arenaId, hpage.holds⟩

theorem Laid.opened (h : Laid s) {headers : BoundedList PageHeader}
    (hadd : s.arena.headers.add growth (newHeader growth s) = .ok headers) :
    Laid (opened s headers) ∧
      (opened s headers).headers[s.headers.length]? = some (newHeader growth s) := by
  obtain ⟨-, hcontents, -⟩ := BoundedList.add_eq_ok.mp hadd
  have hheaders : (Pages.opened s headers).headers = s.headers ++ [newHeader growth s] := hcontents
  refine ⟨⟨?_, fun i x hx ↦ ?_⟩, ?_⟩
  · rw [hheaders, List.length_append, ← h.uploaded]
    rfl
  · rw [hheaders, getElem?_concat_ite] at hx
    by_cases hi : i = s.headers.length
    · rw [if_pos hi, Option.some.injEq] at hx
      rw [← hx]
      exact ⟨rfl, h.uploaded.trans hi.symm, pageHolds_nil _⟩
    · rw [if_neg hi] at hx
      have hpage := h.pages i x hx
      exact ⟨hpage.location, hpage.arenaId, hpage.holds⟩
  · rw [hheaders, List.getElem?_concat_length]

/-- A value was stored behind the others of a page. -/
structure ValueStored (s s' : Storage) (index : ℕ) (header header' : PageHeader) (value : Str)
    (pointer : ℕ) : Prop where
  headers : s'.headers = s.headers.set index header'
  uploaded : s'.arena.uploadedPages = s.arena.uploadedPages
  allocated : s'.arena.allocatedPages = s.arena.allocatedPages
  others : ∀ i, i ≠ index → AgreeBelow pageSize (s.arenaImage i) (s'.arenaImage i)
  image : s'.arenaImage index =
    store (s.arenaImage index) header.offsetBytes (record value.bytes)
  location : header'.location = .inMemory
  arenaId : header'.arenaId = header.arenaId
  contents : header'.keys.contents = header.keys.contents ++ [⟨header.offsetBytes, pointer⟩]
  offsetBytes : header'.offsetBytes = header.offsetBytes + (value.size + 2)
  fragmentatedBytes : header'.fragmentatedBytes = header.fragmentatedBytes

theorem Laid.valueStored (h : Laid s) {value : Str} {pointer : ℕ}
    (hhere : s.headers[index]? = some header)
    (hfit : header.offsetBytes + (value.size + 2) ≤ pageSize)
    (hplace : placeValue growth s value pointer index = .ok s') :
    ∃ header', ValueStored s s' index header header' value pointer := by
  obtain ⟨found, keys, keyMeta, hfound, hadd, -, -, hs'⟩ := placeValue_eq_ok.mp hplace
  obtain rfl : header = found := Option.some.inj (hhere.symm.trans hfound)
  have hpage := h.pages index header hhere
  obtain ⟨-, hcontents, -⟩ := BoundedList.add_eq_ok.mp hadd
  rw [wrap16_of_le (by omega : header.offsetBytes ≤ pageSize)] at hcontents
  have hstart : pageStart header.arenaId + header.offsetBytes =
      pageStart index + header.offsetBytes := by
    rw [hpage.arenaId]
  have hpages : s'.arena.pages = s.arena.pages.store (pageStart index + header.offsetBytes)
      (record value.bytes) := by
    rw [hs', ← hstart]
    rfl
  refine ⟨{ header with
    location := .inMemory
    keys := keys
    offsetBytes := wrap16 (header.offsetBytes + (value.size + 2)) },
    ?_, ?_, ?_, fun i hi ↦ ?_, ?_, rfl, rfl, hcontents, wrap16_of_le hfit, rfl⟩
  · rw [hs']
    rfl
  · rw [hs']
    rfl
  · rw [hs']
    rfl
  · rw [Storage.arenaImage, Storage.arenaImage, hpages]
    apply agreeBelow_window (fun _ _ ↦ pageStart_add_le) hi.symm
    apply store_outside
    rw [length_record]
    unfold Str.size at hfit
    omega
  · rw [Storage.arenaImage, hpages]
    exact window_store _ _ _ _

theorem Laid.place (h : Laid s) {value : Str} {pointer : ℕ}
    (hhere : s.headers[index]? = some header)
    (hfit : header.offsetBytes + (value.size + 2) ≤ pageSize)
    (hplace : placeValue growth s value pointer index = .ok s') : Laid s' := by
  obtain ⟨header', hstored⟩ := h.valueStored hhere hfit hplace
  have hpage := h.pages index header hhere
  refine h.update hhere hstored.headers hstored.uploaded hstored.others
    ⟨hstored.location, hstored.arenaId.trans hpage.arenaId, ?_⟩
  rw [hstored.image, hstored.contents, hstored.offsetBytes, hstored.fragmentatedBytes]
  exact (hpage.holds.push value pointer hfit).1

theorem warmHeader_laid (h : Laid s) {page : ℕ} (hwarm : warmHeader s page = .ok (s', header)) :
    s' = s ∧ s.headers[page]? = some header := by
  obtain ⟨old, hold, ⟨-, hsame, hheader⟩ | hheated⟩ := warmHeader_shape hwarm
  · rw [hheader]
    exact ⟨hsame, hold⟩
  · have hcold := (h.pages page old hold).location.symm.trans hheated.cold
    cases hcold

theorem pageValueGet_laid (h : Laid s) {key : KeyMeta} {result : Option (ℕ × Str)}
    (hget : pageValueGet s key = .ok (s', result)) : Laid s' := by
  obtain ⟨header, hwarm⟩ := pageValueGet_shape hget
  rw [(warmHeader_laid h hwarm).1]
  exact h

/-- A value was given up: its bytes are counted, those of its size are not. -/
structure ValueRemoved (s s' : Storage) (index : ℕ) (header header' : PageHeader) (position : ℕ)
    (deleted : PageHeaderKey) : Prop where
  here : s.headers[index]? = some header
  listed : header.keys.contents[position]? = some deleted
  headers : s'.headers = s.headers.set index header'
  uploaded : s'.arena.uploadedPages = s.arena.uploadedPages
  image : ∀ i, s'.arenaImage i = s.arenaImage i
  location : header'.location = .inMemory
  arenaId : header'.arenaId = header.arenaId
  contents : header'.keys.contents = header.keys.contents.eraseIdx position
  offsetBytes : header'.offsetBytes = header.offsetBytes
  fragmentatedBytes : header'.fragmentatedBytes =
    header.fragmentatedBytes + sizeAt (s.arenaImage index) deleted.offset

theorem Laid.valueRemoved (h : Laid s) {key : KeyMeta} {result : Option (ℕ × Str)}
    (hunset : pageValueUnset s key = .ok (s', result)) : ∃ header header' deleted,
      ValueRemoved s s' key.page header header' key.headerKeyId deleted := by
  obtain ⟨⟨s1, header⟩, hwarm, hrest⟩ := bind_eq_ok.mp hunset
  obtain ⟨hsame, hhere⟩ := warmHeader_laid h hwarm
  have hpage := h.pages key.page header hhere
  rw [hsame] at hrest
  simp only [if_pos hpage.location] at hrest
  obtain ⟨metas, -, hrest⟩ := bind_eq_ok.mp hrest
  obtain ⟨deleted, hdeleted, hrest⟩ := bind_eq_ok.mp hrest
  obtain ⟨value, hread, hrest⟩ := bind_eq_ok.mp hrest
  have hs' := (Prod.mk.inj (Except.ok.inj hrest)).1
  have hkey : header.keys.contents[key.headerKeyId]? = some deleted := elim_eq_ok.mp hdeleted
  have hsize : sizeAt (s.arenaImage key.page) deleted.offset = value.size := by
    rw [Storage.arenaImage, sizeAt_window, ← hpage.arenaId]
    exact (readValue_eq_ok.mp hread).2.1
  have hlt := (hpage.holds.erase hkey).1.fragmentated_lt
  refine ⟨header, { header with
      keys := header.keys.delete key.headerKeyId
      state := .dirty
      fragmentatedBytes := wrap16 (header.fragmentatedBytes + value.size) }, deleted,
    hhere, hkey, ?_, ?_, fun i ↦ ?_, hpage.location, rfl, rfl, rfl, ?_⟩
  · rw [← hs']
    rfl
  · rw [← hs']
    rfl
  · rw [← hs']
    rfl
  · rw [hsize] at hlt ⊢
    exact wrap16_of_le hlt.le

theorem pageValueUnset_laid (h : Laid s) {key : KeyMeta} {result : Option (ℕ × Str)}
    (hunset : pageValueUnset s key = .ok (s', result)) : Laid s' := by
  obtain ⟨header, header', deleted, hremoved⟩ := h.valueRemoved hunset
  have hpage := h.pages key.page header hremoved.here
  refine h.update hremoved.here hremoved.headers hremoved.uploaded (fun i _ ↦ ?_)
    ⟨hremoved.location, hremoved.arenaId.trans hpage.arenaId, ?_⟩
  · rw [hremoved.image]
    exact AgreeBelow.refl
  · rw [hremoved.image, hremoved.contents, hremoved.offsetBytes, hremoved.fragmentatedBytes]
    exact (hpage.holds.erase hremoved.listed).1

theorem Laid.pageValueSet_choice (h : Laid s) {value : Str} {pointer : ℕ}
    (hroom : (∀ x ∈ s.headers, x.PassedOver value.size) →
      s.headers.length < s.arena.allocatedPages) :
    pageValueSet growth s value pointer = .ok (s', index) ↔
      (∃ header, FirstFit s.headers value.size index header ∧
        placeValue growth s value pointer index = .ok s') ∨
      ((∀ x ∈ s.headers, x.PassedOver value.size) ∧ index = s.headers.length ∧
        ∃ headers, s.arena.headers.add growth (newHeader growth s) = .ok headers ∧
          placeValue growth (Pages.opened s headers) value pointer index = .ok s') := by
  apply Pages.pageValueSet_choice
  · intro x hx
    obtain ⟨i, hi⟩ := List.getElem?_of_mem hx
    exact (h.pages i x hi).holds.fragmentated_lt
  · intro hall
    exact h.uploaded.trans_lt (hroom hall)

theorem pageValueSet_laid (h : Laid s) {value : Str} {pointer : ℕ} (hinside : SetsInside s (.set value))
    (hset : pageValueSet growth s value pointer = .ok (s', index)) : Laid s' := by
  obtain ⟨hsize, hroom, hfits⟩ := hinside
  rcases (h.pageValueSet_choice hroom).mp hset with
    ⟨header, hfirst, hplace⟩ | ⟨-, hindex, headers, hadd, hplace⟩
  · exact h.place hfirst.here (hfits index header hfirst) hplace
  · obtain ⟨hopened, hhere⟩ := h.opened hadd
    rw [hindex] at hplace
    refine hopened.place hhere ?_ hplace
    rw [newHeader, Nat.zero_add]
    exact hsize

theorem pageStep_laid {call : PageCall} {output : Option ℕ} (h : Laid s) (hinside : SetsInside s call)
    (hstep : pageStep growth s call = .ok (s', output)) : Laid s' := by
  cases call with
  | get key =>
    obtain ⟨⟨s1, result⟩, hget, hresult⟩ := bind_eq_ok.mp hstep
    rw [← (Prod.mk.inj (Except.ok.inj hresult)).1]
    exact pageValueGet_laid h hget
  | set value =>
    obtain ⟨⟨s1, index⟩, hset, hresult⟩ := bind_eq_ok.mp hstep
    have hfresh : Laid s.newMeta.1 := ⟨h.uploaded, fun i x hx ↦
      ⟨(h.pages i x hx).location, (h.pages i x hx).arenaId, (h.pages i x hx).holds⟩⟩
    rw [← (Prod.mk.inj (Except.ok.inj hresult)).1]
    exact pageValueSet_laid hfresh hinside hset
  | unset key =>
    obtain ⟨⟨s1, result⟩, hunset, hresult⟩ := bind_eq_ok.mp hstep
    rw [← (Prod.mk.inj (Except.ok.inj hresult)).1]
    exact pageValueUnset_laid h hunset

/-- A storage without pages. -/
def emptyStorage (growth : Growth) (pages : ℕ) (memory : Memory) (headers : ℕ) (disk : Disk) :
    Storage :=
  ⟨newArena growth pages memory headers, newLruQueue, disk, []⟩

theorem emptyStorage_laid (growth : Growth) (pages : ℕ) (memory : Memory) (headers : ℕ)
    (disk : Disk) : Laid (emptyStorage growth pages memory headers disk) := by
  exact ⟨rfl, nofun⟩

end Laid

/-- From a storage without pages every run of sets and unsets, of any metas and with vectors that
grow in any way, keeps the records in order, as long as the values fit with their sizes. -/
theorem recordsInOrder_of_inside {growth : Growth} {pages headers : ℕ} {memory : Memory} {disk : Disk}
    {calls : List PageCall} (hinside : EachStep (pageStep growth) SetsInside
      (emptyStorage growth pages memory headers disk) calls) {s : Storage} {outputs : List (Option ℕ)}
    (hrun : run (pageStep growth) (emptyStorage growth pages memory headers disk) calls =
      .ok (s, outputs)) : RecordsInOrder s := by
  have hlaid : Laid s := run_invariant (fun _ _ _ _ h hinside hstep ↦ pageStep_laid h hinside hstep)
    (emptyStorage_laid growth pages memory headers disk) hinside hrun
  exact hlaid.recordsInOrder

/-- A vector that grows by one slot when it is full. -/
def oneMore : Growth := ⟨id, Nat.succ⟩

theorem recordsInOrder_one_value : ∃ s : Storage, s.headers.map PageHeader.offsetBytes = [3] ∧
    RecordsInOrder s := by
  obtain ⟨start, hstart⟩ : ∃ start, emptyStorage oneMore 2 (fun _ ↦ 0) 0 (initDisk [] []) = start :=
    ⟨_, rfl⟩
  obtain ⟨calls, hcalls⟩ : ∃ calls : List PageCall, calls = [.set ⟨[118], by decide⟩,
    .unset ⟨none, 0, 0⟩] := ⟨_, rfl⟩
  have hoffsets : (run (pageStep oneMore) start calls).toOption.map
      (fun result ↦ result.1.headers.map PageHeader.offsetBytes) = some [3] := by
    rw [← hstart, hcalls]
    decide +kernel
  have hinside : EachStep (pageStep oneMore) SetsInside start calls := by
    rw [← hstart, hcalls]
    refine ⟨⟨by decide, fun _ ↦ Nat.two_pos, ?_⟩, fun _ _ _ ↦ ⟨trivial, fun _ _ _ ↦ trivial⟩⟩
    intro index header hfirst
    cases hfirst.here
  obtain ⟨result, hrun, hlist⟩ := exists_ok_of_map hoffsets
  rw [← hstart] at hinside hrun
  exact ⟨result.1, hlist, recordsInOrder_of_inside hinside hrun⟩

/-- A value of 4093 bytes. -/
def longValue : Str where
  bytes := List.replicate 4093 0
  size_lt := by
    rw [List.length_replicate]
    decide

/-- After a value of 4093 bytes one byte is free, and a value of one byte goes there with the two
bytes of its size. -/
theorem not_recordsInOrder_last_byte : ∃ s outputs,
    run (pageStep oneMore) (emptyStorage oneMore 2 (fun _ ↦ 0) 0 (initDisk [] []))
      [.set longValue, .set ⟨[118], by decide⟩] = .ok (s, outputs) ∧
    ¬ RecordsInOrder s := by
  have hoffsets : (run (pageStep oneMore) (emptyStorage oneMore 2 (fun _ ↦ 0) 0 (initDisk [] []))
      [.set longValue, .set ⟨[118], by decide⟩]).toOption.map
        (fun result ↦ result.1.headers.map PageHeader.offsetBytes) = some [4098] := by
    decide +kernel
  obtain ⟨result, hrun, hlist⟩ := exists_ok_of_map hoffsets
  refine ⟨result.1, result.2, hrun, fun h ↦ ?_⟩
  have hmem : 4098 ∈ result.1.headers.map PageHeader.offsetBytes := by
    rw [hlist]
    exact List.mem_singleton_self _
  obtain ⟨header, hheader, hoffset⟩ := List.mem_map.mp hmem
  have hle := (h header hheader).2.2
  rw [hoffset] at hle
  exact absurd hle (by decide)

end FGDB.Pages
