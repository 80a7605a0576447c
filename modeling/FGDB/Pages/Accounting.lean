import FGDB.Pages.Layout

/-!
# The counters of a page

The bytes in use of a page should be the bytes of its records, each with the two
of its size, and the bytes that removed values left. A value that is stored adds
its size and two, a value that is removed counts as lost without the two.
-/

namespace FGDB.Pages

open Foundation Memory Records HashMap
open FGDB.Vector (BoundedList Growth)

/-- A call of the page manager, or the defragmentation of the page of a header. -/
inductive RecordCall
  | page (call : PageCall)
  | defragmentate (index : ℕ)
  deriving DecidableEq, Repr

/-- Defragmentation is called with the page that the header is in. -/
def recordStep (growth : Growth) (s : Storage) : RecordCall → Outcome (Storage × Option ℕ)
  | .page call => pageStep growth s call
  | .defragmentate index => do
    let header ← s.header index
    let s ← arenaDefragmentatePage s header.arenaId index
    return (s, none)

/-- The bytes in use are the lost ones and those of the records. -/
def Accounted (s : Storage) : Prop :=
  ∀ header ∈ s.headers, header.offsetBytes =
    header.fragmentatedBytes + used (s.arenaImage header.arenaId) header.places

instance (s : Storage) : Decidable (Accounted s) :=
  inferInstanceAs (Decidable (∀ header ∈ s.headers, _ = _))

/-- The values of the calls are small enough. -/
def CallInside (s : Storage) : RecordCall → Prop
  | .page call => SetsInside s call
  | .defragmentate _ => True

/-- The call removes no value. -/
def RemovesNothing (call : RecordCall) : Prop := ∀ key, call ≠ .page (.unset key)

/-- A page in memory that is full of its records. -/
structure PageFull (s : Storage) (index : ℕ) (header : PageHeader) : Prop where
  laid : PageLaid s index header
  lost : header.fragmentatedBytes = 0
  full : header.offsetBytes = used (s.arenaImage index) header.places

structure Full (s : Storage) : Prop where
  uploaded : s.arena.uploadedPages = s.headers.length
  fitting : s.headers.length ≤ s.arena.allocatedPages
  pages : ∀ (index : ℕ) (header : PageHeader), s.headers[index]? = some header →
    PageFull s index header

section Full

variable {growth : Growth} {s s' : Storage} {index : ℕ} {header header' : PageHeader}

theorem Full.laid (h : Full s) : Laid s :=
  ⟨h.uploaded, fun index header hheader ↦ (h.pages index header hheader).laid⟩

theorem Full.accounted (h : Full s) : Accounted s := by
  intro header hheader
  obtain ⟨index, hindex⟩ := List.getElem?_of_mem hheader
  have hpage := h.pages index header hindex
  rw [hpage.lost, Nat.zero_add, hpage.laid.arenaId]
  exact hpage.full

/-- One header changes, and the bytes of the other pages stay. -/
theorem Full.update (h : Full s) (hhere : s.headers[index]? = some header)
    (hheaders : s'.headers = s.headers.set index header')
    (huploaded : s'.arena.uploadedPages = s.arena.uploadedPages)
    (hallocated : s'.arena.allocatedPages = s.arena.allocatedPages)
    (hother : ∀ i, i ≠ index → AgreeBelow pageSize (s.arenaImage i) (s'.arenaImage i))
    (hnew : PageFull s' index header') : Full s' := by
  have hlt : index < s.headers.length := (List.getElem?_eq_some_iff.mp hhere).1
  have hlaid := h.laid.update hhere hheaders huploaded hother hnew.laid
  have hlength : s'.headers.length = s.headers.length := by
    rw [hheaders, List.length_set]
  refine ⟨hlaid.uploaded, hlength.trans_le (h.fitting.trans_eq hallocated.symm), fun i x hx ↦ ?_⟩
  have hx' := hx
  rw [hheaders, getElem?_set_ite hlt] at hx'
  by_cases hi : i = index
  · rw [if_pos hi, Option.some.injEq] at hx'
    rw [hi, ← hx']
    exact hnew
  · rw [if_neg hi] at hx'
    have hpage := h.pages i x hx'
    have hagree := (hother i hi).mono hpage.laid.holds.offset_le
    refine ⟨hlaid.pages i x hx, hpage.lost, hpage.full.trans ?_⟩
    exact (used_eq_of_payloads (hpage.laid.holds.packed.agree hagree).2).symm

theorem Full.opened (h : Full s) (hroom : s.headers.length < s.arena.allocatedPages)
    {headers : BoundedList PageHeader}
    (hadd : s.arena.headers.add growth (newHeader growth s) = .ok headers) :
    Full (opened s headers) := by
  obtain ⟨hlaid, hhere⟩ := h.laid.opened hadd
  have hheaders : (Pages.opened s headers).headers = s.headers ++ [newHeader growth s] :=
    (BoundedList.add_eq_ok.mp hadd).2.1
  have hlength : (Pages.opened s headers).headers.length = s.headers.length + 1 := by
    rw [hheaders, List.length_append, List.length_singleton]
  refine ⟨hlaid.uploaded, hlength.trans_le hroom, fun i x hx ↦ ?_⟩
  have hpage := hlaid.pages i x hx
  by_cases hi : i = s.headers.length
  · rw [hi, hhere, Option.some.injEq] at hx
    refine ⟨hpage, ?_, ?_⟩
    · rw [← hx]
      rfl
    · rw [← hx]
      rfl
  · rw [hheaders, getElem?_concat_ite, if_neg hi] at hx
    exact ⟨hpage, (h.pages i x hx).lost, (h.pages i x hx).full⟩

theorem Full.place (h : Full s) {value : Str} {pointer : ℕ}
    (hhere : s.headers[index]? = some header)
    (hfit : header.offsetBytes + (value.size + 2) ≤ pageSize)
    (hplace : placeValue growth s value pointer index = .ok s') : Full s' := by
  obtain ⟨header', hstored⟩ := h.laid.valueStored hhere hfit hplace
  have hpage := h.pages index header hhere
  have hlaid := h.laid.place hhere hfit hplace
  have hhere' : s'.headers[index]? = some header' := by
    rw [hstored.headers]
    exact List.getElem?_set_self (List.getElem?_eq_some_iff.mp hhere).1
  refine h.update hhere hstored.headers hstored.uploaded hstored.allocated hstored.others
    ⟨hlaid.pages index header' hhere', hstored.fragmentatedBytes.trans hpage.lost, ?_⟩
  have hplaces : header'.places = header.places ++ [header.offsetBytes] := by
    rw [PageHeader.places, hstored.contents, List.map_append, List.map_singleton]
  have hused := hpage.laid.holds.packed.used_push value.size_lt
  rw [hstored.offsetBytes, hstored.image, hplaces, hused, ← hpage.full]
  unfold Str.size
  omega

theorem pageValueSet_full (h : Full s) {value : Str} {pointer : ℕ}
    (hinside : SetsInside s (.set value))
    (hset : pageValueSet growth s value pointer = .ok (s', index)) : Full s' := by
  obtain ⟨hsize, hroom, hfits⟩ := hinside
  rcases (h.laid.pageValueSet_choice hroom).mp hset with
    ⟨header, hfirst, hplace⟩ | ⟨hall, hindex, headers, hadd, hplace⟩
  · exact h.place hfirst.here (hfits index header hfirst) hplace
  · have hhere := (h.laid.opened hadd).2
    rw [hindex] at hplace
    refine (h.opened (hroom hall) hadd).place hhere ?_ hplace
    rw [newHeader, Nat.zero_add]
    exact hsize

/-- The records of a full page stay where they are. -/
theorem arenaDefragmentatePage_full (h : Full s) (hhere : s.headers[index]? = some header)
    (hdefrag : arenaDefragmentatePage s header.arenaId index = .ok s') : Full s' := by
  have hpage := h.pages index header hhere
  have hlt : index < s.headers.length := (List.getElem?_eq_some_iff.mp hhere).1
  have hpacked := hpage.laid.holds.packed
  have hkept : SizesKept (s.arenaImage index) header.places 0 :=
    (hpacked.apart_of_full (fun _ _ ↦ Nat.zero_le _) (by
      rw [Nat.zero_add]
      exact hpage.full.symm)).sizesKept
  obtain ⟨pages, header', hstep, hheader', hpacked', hpagePacked⟩ := arenaDefragmentatePage_eq hhere
    (hlt.trans_le h.fitting) (hpacked.mono hpage.laid.holds.offset_le) hkept
  rw [hpage.laid.arenaId, hstep] at hdefrag
  obtain rfl := Except.ok.inj hdefrag
  have hoffset : header'.offsetBytes = header.offsetBytes :=
    hpagePacked.offsetBytes.trans hpage.full.symm
  have hused : used ((defragmentated s index pages header').arenaImage index) header'.places =
      header'.offsetBytes :=
    (used_eq_of_payloads hpagePacked.payloads).trans hpagePacked.offsetBytes.symm
  have hholds : PageHolds ((defragmentated s index pages header').arenaImage index)
      header'.keys.contents header'.offsetBytes header'.fragmentatedBytes := by
    rw [hpagePacked.fragmentatedBytes]
    refine ⟨hpacked', hoffset.trans_le hpage.laid.holds.offset_le, ?_, by decide⟩
    rw [Nat.zero_add]
    exact hused.le
  refine h.update hhere rfl rfl rfl (fun i hi ↦ ?_)
    ⟨⟨?_, ?_, hholds⟩, hpagePacked.fragmentatedBytes, hused.symm⟩
  · exact agreeBelow_window (fun _ _ ↦ pageStart_add_le) hi.symm hpagePacked.outside
  · rw [hheader']
    exact hpage.laid.location
  · rw [hheader']
    exact hpage.laid.arenaId

/-- A removed value leaves the two bytes of its size in no count. -/
theorem pageValueUnset_not_accounted (h : Full s) {key : KeyMeta} {result : Option (ℕ × Str)}
    (hunset : pageValueUnset s key = .ok (s', result)) : ¬ Accounted s' := by
  obtain ⟨header, header', deleted, hremoved⟩ := h.laid.valueRemoved hunset
  have hpage := h.pages key.page header hremoved.here
  intro haccounted
  have hmem : header' ∈ s'.headers := by
    rw [hremoved.headers]
    exact List.mem_set (List.getElem?_eq_some_iff.mp hremoved.here).1 _
  have hcount := haccounted header' hmem
  have hplaces : header'.places = header.places.eraseIdx key.headerKeyId := by
    rw [PageHeader.places, hremoved.contents, List.eraseIdx_map]
  have hplace : header.places[key.headerKeyId]? = some deleted.offset := by
    rw [List.getElem?_map, hremoved.listed, Option.map_some]
  have hused := @used_eraseIdx (s.arenaImage key.page) _ _ _ hplace
  rw [hremoved.offsetBytes, hremoved.fragmentatedBytes, hpage.lost, hremoved.image,
    hremoved.arenaId, hpage.laid.arenaId, hplaces, hpage.full] at hcount
  omega

theorem recordStep_full {call : RecordCall} {output : Option ℕ} (h : Full s)
    (hinside : CallInside s call) (hcall : RemovesNothing call)
    (hstep : recordStep growth s call = .ok (s', output)) : Full s' := by
  cases call with
  | page call =>
    cases call with
    | get key =>
      obtain ⟨⟨s1, result⟩, hget, hresult⟩ := bind_eq_ok.mp hstep
      obtain ⟨header, hwarm⟩ := pageValueGet_shape hget
      rw [← (Prod.mk.inj (Except.ok.inj hresult)).1, (warmHeader_laid h.laid hwarm).1]
      exact h
    | set value =>
      obtain ⟨⟨s1, index⟩, hset, hresult⟩ := bind_eq_ok.mp hstep
      have hfresh : Full s.newMeta.1 := ⟨h.uploaded, h.fitting, fun i x hx ↦
        have hpage := h.pages i x hx
        ⟨⟨hpage.laid.location, hpage.laid.arenaId, hpage.laid.holds⟩, hpage.lost, hpage.full⟩⟩
      rw [← (Prod.mk.inj (Except.ok.inj hresult)).1]
      exact pageValueSet_full hfresh hinside hset
    | unset key => exact absurd rfl (hcall key)
  | defragmentate index =>
    obtain ⟨header, hheader, hrest⟩ := bind_eq_ok.mp hstep
    obtain ⟨s1, hdefrag, hresult⟩ := bind_eq_ok.mp hrest
    rw [← (Prod.mk.inj (Except.ok.inj hresult)).1]
    exact arenaDefragmentatePage_full h (header_eq_ok.mp hheader) hdefrag

theorem recordStep_unset_not_accounted {key : KeyMeta} {output : Option ℕ} (h : Full s)
    (hstep : recordStep growth s (.page (.unset key)) = .ok (s', output)) : ¬ Accounted s' := by
  obtain ⟨⟨s1, result⟩, hunset, hresult⟩ := bind_eq_ok.mp hstep
  rw [← (Prod.mk.inj (Except.ok.inj hresult)).1]
  exact pageValueUnset_not_accounted h hunset

/-- From a full storage exactly the calls that remove nothing lead to one whose bytes are
accounted for, which is full again. -/
theorem recordStep_accounted_iff {call : RecordCall} {output : Option ℕ} (h : Full s)
    (hinside : CallInside s call) (hstep : recordStep growth s call = .ok (s', output)) :
    (Accounted s' → Full s') ∧ (Accounted s' ↔ RemovesNothing call) := by
  by_cases hcall : RemovesNothing call
  · have hnext := recordStep_full h hinside hcall hstep
    exact ⟨fun _ ↦ hnext, iff_of_true hnext.accounted hcall⟩
  · obtain ⟨key, rfl⟩ : ∃ key, call = .page (.unset key) := by
      simpa only [RemovesNothing, not_forall, not_not] using hcall
    have hnot := recordStep_unset_not_accounted h hstep
    exact ⟨fun haccounted ↦ absurd haccounted hnot, iff_of_false hnot hcall⟩

theorem emptyStorage_full (growth : Growth) (pages : ℕ) (memory : Memory) (headers : ℕ)
    (disk : Disk) : Full (emptyStorage growth pages memory headers disk) :=
  ⟨rfl, Nat.zero_le _, fun _ _ h ↦ by cases h⟩

end Full

/-- From a storage without pages a run with small values that ends well leaves the bytes of every
page accounted for in all its states if and only if it removes no value. -/
theorem accounted_iff_no_unset {growth : Growth} {pages headers : ℕ} {memory : Memory} {disk : Disk}
    {calls : List RecordCall} (hinside : EachStep (recordStep growth) CallInside
      (emptyStorage growth pages memory headers disk) calls) {s : Storage} {outputs : List (Option ℕ)}
    (hrun : run (recordStep growth) (emptyStorage growth pages memory headers disk) calls =
      .ok (s, outputs)) :
    (∀ done, done <+: calls → ∀ reached outputs, run (recordStep growth)
        (emptyStorage growth pages memory headers disk) done = .ok (reached, outputs) →
          Accounted reached) ↔
      ∀ key, .page (.unset key) ∉ calls := by
  have hfull := emptyStorage_full growth pages memory headers disk
  have hsteps := @forall_prefix_iff _ _ _ (recordStep growth)
    (fun s call ↦ CallInside s call ∧ ∃ result, recordStep growth s call = .ok result)
    (fun s ↦ Accounted s → Full s) Accounted (fun _ ↦ RemovesNothing)
    (fun _ _ _ _ hfull haccounted hcall hstep ↦
      recordStep_accounted_iff (hfull haccounted) hcall.1 hstep)
    (fun _ _ _ _ _ hcall hfault ↦ by
      obtain ⟨result, hok⟩ := hcall.2
      cases hfault.symm.trans hok)
    _ calls (fun _ ↦ hfull) (hinside.and (eachStep_of_run hrun))
  rw [hsteps, eachStep_iff_forall hrun, and_iff_right hfull.accounted]
  constructor
  · intro h key hmem
    exact h _ hmem key rfl
  · intro h call hcall key heq
    exact h key (heq ▸ hcall)

theorem accounted_one_value : ∃ s : Storage, s.headers.map PageHeader.offsetBytes = [3] ∧
    Accounted s := by
  obtain ⟨start, hstart⟩ : ∃ start, emptyStorage oneMore 2 (fun _ ↦ 0) 0 (initDisk [] []) = start :=
    ⟨_, rfl⟩
  obtain ⟨calls, hcalls⟩ : ∃ calls : List RecordCall, calls = [.page (.set ⟨[118], by decide⟩),
    .defragmentate 0] := ⟨_, rfl⟩
  have hoffsets : (run (recordStep oneMore) start calls).toOption.map
      (fun result ↦ result.1.headers.map PageHeader.offsetBytes) = some [3] := by
    rw [← hstart, hcalls]
    decide +kernel
  have hinside : EachStep (recordStep oneMore) CallInside start calls := by
    rw [← hstart, hcalls]
    refine ⟨⟨by decide, fun _ ↦ Nat.two_pos, ?_⟩, fun _ _ _ ↦ ⟨trivial, fun _ _ _ ↦ trivial⟩⟩
    intro index header hfirst
    cases hfirst.here
  obtain ⟨result, hrun, hlist⟩ := exists_ok_of_map hoffsets
  rw [← hstart] at hinside hrun
  have hunsets : ∀ key, .page (.unset key) ∉ calls := by
    rw [hcalls]
    simp
  exact ⟨result.1, hlist, (accounted_iff_no_unset hinside hrun).mpr hunsets calls
    (List.prefix_refl _) result.1 result.2 hrun⟩

/-- A value of one byte is stored and removed: three bytes are in use and one counts as lost. -/
theorem not_accounted_removed : EachStep (recordStep oneMore) CallInside
      (emptyStorage oneMore 2 (fun _ ↦ 0) 0 (initDisk [] []))
      [.page (.set ⟨[118], by decide⟩), .page (.unset ⟨none, 0, 0⟩)] ∧
    ∃ s outputs, run (recordStep oneMore) (emptyStorage oneMore 2 (fun _ ↦ 0) 0 (initDisk [] []))
      [.page (.set ⟨[118], by decide⟩), .page (.unset ⟨none, 0, 0⟩)] = .ok (s, outputs) ∧
      ¬ Accounted s := by
  constructor
  · refine ⟨⟨by decide, fun _ ↦ Nat.two_pos, ?_⟩, fun _ _ _ ↦ ⟨trivial, fun _ _ _ ↦ trivial⟩⟩
    intro index header hfirst
    cases hfirst.here
  · apply exists_run_of_any
    decide +kernel

end FGDB.Pages
