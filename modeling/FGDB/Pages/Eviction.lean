import FGDB.Pages.Layout
import Mathlib.Data.List.Dedup
import Mathlib.Data.List.Perm.Subperm

/-!
# A full arena

When every page of the arena is handed out, the page of the least recent header is
dumped and handed out again, but its header stays in memory and keeps the page. After
more pages were used than the arena has, two headers share one.
-/

namespace FGDB.Pages

open Foundation Memory HashMap
open FGDB.Vector (BoundedList Growth)

/-- No two pages in memory have the same page of the arena. -/
def ArenaPagesOwned (s : Storage) : Prop :=
  ∀ (index other : ℕ) (header header' : PageHeader), s.headers[index]? = some header →
    s.headers[other]? = some header' → index ≠ other → header.location = .inMemory →
      header'.location = .inMemory → header.arenaId ≠ header'.arenaId

/-- The pages that the calls have returned. -/
def usedPages (outputs : List (Option ℕ)) : List ℕ := (outputs.filterMap id).dedup

/-- Every header has a page that the arena has. -/
def InArena (s : Storage) : Prop := ∀ header ∈ s.headers, header.arenaId < s.arena.allocatedPages

section Steps

variable {growth : Growth} {s s' : Storage} {index : ℕ} {header : PageHeader}

theorem arenaGetNextPage_inArena (h : InArena s) {arenaId : ℕ}
    (hnext : arenaGetNextPage s = .ok (s', arenaId)) : arenaId < s.arena.allocatedPages := by
  unfold arenaGetNextPage at hnext
  by_cases hroom : s.arena.uploadedPages < s.arena.allocatedPages
  · rw [if_pos hroom, Except.ok.injEq, Prod.mk.injEq] at hnext
    rw [← hnext.2]
    exact hroom
  · rw [if_neg hroom] at hnext
    obtain ⟨⟨lru, lr⟩, -, hnext⟩ := bind_eq_ok.mp hnext
    obtain ⟨evicted, hevicted, hnext⟩ := bind_eq_ok.mp hnext
    obtain ⟨s1, -, hnext⟩ := bind_eq_ok.mp hnext
    rw [← (Prod.mk.inj (Except.ok.inj hnext)).2]
    exact h evicted (List.mem_of_getElem? (header_eq_ok.mp hevicted))

/-- What a step keeps: the headers have pages of the arena, and a page in memory stays there. -/
structure Keeps (s s' : Storage) : Prop where
  allocated : s'.arena.allocatedPages = s.arena.allocatedPages
  inArena : InArena s'
  resident : ∀ page, s.Resident page → s'.Resident page

theorem Keeps.refl (h : InArena s) : Keeps s s := ⟨rfl, h, fun _ ↦ id⟩

theorem Keeps.trans {s'' : Storage} (h : Keeps s s') (h' : Keeps s' s'') : Keeps s s'' :=
  ⟨h'.allocated.trans h.allocated, h'.inArena, fun page hpage ↦
    h'.resident page (h.resident page hpage)⟩

/-- One header changes. -/
theorem keeps_set {header' : PageHeader} (h : InArena s) (hhere : s.headers[index]? = some header)
    (hheaders : s'.headers = s.headers.set index header')
    (hallocated : s'.arena.allocatedPages = s.arena.allocatedPages)
    (harenaId : header'.arenaId < s.arena.allocatedPages)
    (hlocation : header.location = .inMemory → header'.location = .inMemory) : Keeps s s' := by
  have hlt : index < s.headers.length := (List.getElem?_eq_some_iff.mp hhere).1
  refine ⟨hallocated, fun x hx ↦ ?_, fun page ⟨x, hx, hmemory⟩ ↦ ?_⟩
  · rw [hheaders] at hx
    rw [hallocated]
    rcases List.mem_or_eq_of_mem_set hx with hold | hnew
    · exact h x hold
    · rw [hnew]
      exact harenaId
  · by_cases hpage : page = index
    · rw [hpage] at hx ⊢
      obtain rfl : header = x := Option.some.inj (hhere.symm.trans hx)
      refine ⟨header', ?_, hlocation hmemory⟩
      rw [hheaders, List.getElem?_set_self hlt]
    · refine ⟨x, ?_, hmemory⟩
      rw [hheaders, List.getElem?_set_ne (Ne.symm hpage), hx]

theorem warmHeader_keeps (h : InArena s) {page : ℕ} (hwarm : warmHeader s page = .ok (s', header)) :
    Keeps s s' := by
  obtain ⟨old, hold, ⟨-, hsame, -⟩ | hheated⟩ := warmHeader_shape hwarm
  · rw [hsame]
    exact .refl h
  · obtain ⟨s1, hnext⟩ := hheated.arenaId
    have hmemory : header.location = .inMemory := by
      rw [hheated.same]
    exact keeps_set h hold hheated.headers hheated.allocated (arenaGetNextPage_inArena h hnext)
      fun _ ↦ hmemory

theorem headersAllocPage_keeps (h : InArena s) {size : ℕ} (halloc : AllocatedPage growth s s' size index) :
    Keeps s s' := by
  cases halloc with
  | fits hsearch hsame =>
    rw [hsame]
    exact .refl h
  | prefered hsearch old new hmoved =>
    refine keeps_set h hmoved.here hmoved.headers hmoved.allocated ?_ fun hmemory ↦ ?_
    · rw [hmoved.arenaId]
      exact h old (List.mem_of_getElem? hmoved.here)
    · rw [hmoved.location, hmemory]
  | noPage hsearch new hnew =>
    obtain ⟨s1, hnext⟩ := hnew.arenaId
    refine ⟨hnew.allocated, fun x hx ↦ ?_, fun page ⟨x, hx, hmemory⟩ ↦ ⟨x, ?_, hmemory⟩⟩
    · rw [hnew.headers, List.mem_append, List.mem_singleton] at hx
      rw [hnew.allocated]
      rcases hx with hold | rfl
      · exact h x hold
      · exact arenaGetNextPage_inArena h hnext
    · have hlt := (List.getElem?_eq_some_iff.mp hx).1
      rw [hnew.headers, List.getElem?_append_left hlt, hx]

theorem pageValueGet_resident {key : KeyMeta} {result : ℕ × Str}
    (hget : pageValueGet s key = .ok (s', some result)) : s'.Resident result.1 := by
  obtain ⟨⟨s1, header⟩, hwarm, hrest⟩ := bind_eq_ok.mp hget
  simp only [] at hrest
  split at hrest
  · rename_i hmemory
    split at hrest
    · cases hrest
    · obtain ⟨value, -, hrest⟩ := bind_eq_ok.mp hrest
      have hresult := Prod.mk.inj (Except.ok.inj hrest)
      rw [← hresult.1, ← Option.some.inj hresult.2]
      exact ⟨header, warmHeader_here hwarm, hmemory⟩
  · cases hrest

theorem pageStep_keeps (h : InArena s) {call : PageCall} {output : Option ℕ}
    (hstep : pageStep growth s call = .ok (s', output)) :
    Keeps s s' ∧ ∀ page, output = some page → s'.Resident page := by
  cases call with
  | get key =>
    obtain ⟨⟨s1, result⟩, hget, hresult⟩ := bind_eq_ok.mp hstep
    have hsame := Prod.mk.inj (Except.ok.inj hresult)
    obtain ⟨header, hwarm⟩ := pageValueGet_shape hget
    rw [hsame.1] at hwarm hget
    refine ⟨warmHeader_keeps h hwarm, fun page hpage ↦ ?_⟩
    rw [← hsame.2, Option.map_eq_some_iff] at hpage
    obtain ⟨found, hfound, rfl⟩ := hpage
    rw [hfound] at hget
    exact pageValueGet_resident hget
  | set value =>
    obtain ⟨⟨s1, index⟩, hset, hresult⟩ := bind_eq_ok.mp hstep
    have hsame := Prod.mk.inj (Except.ok.inj hresult)
    obtain ⟨s2, header, keys, keyMeta, halloc, hhere, -, -, hplaced⟩ := pageValueSet_shape hset
    have hnew : InArena s.newMeta.1 := h
    have hkeeps := headersAllocPage_keeps hnew halloc
    rw [hsame.1] at hplaced
    have hlt : index < s2.headers.length := (List.getElem?_eq_some_iff.mp hhere).1
    obtain ⟨header', hheader'⟩ : ∃ header', header' = { header with
        location := .inMemory
        keys := keys
        offsetBytes := wrap16 (header.offsetBytes + (value.size + 2)) } := ⟨_, rfl⟩
    have hheaders : s'.headers = s2.headers.set index header' := by
      rw [hplaced, hheader']
      rfl
    have hallocated : s'.arena.allocatedPages = s2.arena.allocatedPages := by
      rw [hplaced]
      rfl
    have hmemory : header'.location = .inMemory := by
      rw [hheader']
    have harenaId : header'.arenaId < s2.arena.allocatedPages := by
      rw [hheader', hkeeps.allocated]
      exact (hkeeps.inArena header (List.mem_of_getElem? hhere)).trans_eq hkeeps.allocated
    have hplace := keeps_set hkeeps.inArena hhere hheaders hallocated harenaId fun _ ↦ hmemory
    refine ⟨⟨(hkeeps.trans hplace).allocated, hplace.inArena,
      fun page hpage ↦ hplace.resident page (hkeeps.resident page hpage)⟩, fun page hpage ↦ ?_⟩
    rw [← hsame.2, Option.some.injEq] at hpage
    rw [← hpage]
    refine ⟨header', ?_, hmemory⟩
    rw [hheaders, List.getElem?_set_self hlt]
  | unset key =>
    obtain ⟨⟨s1, result⟩, hunset, hresult⟩ := bind_eq_ok.mp hstep
    have hsame := Prod.mk.inj (Except.ok.inj hresult)
    obtain ⟨s2, header, hwarm, hrest⟩ := pageValueUnset_shape hunset
    have hkeeps := warmHeader_keeps h hwarm
    have hhere := warmHeader_here hwarm
    rw [hsame.1] at hrest
    rcases hrest with ⟨-, rfl, hnone⟩ | ⟨header', value, hremoved, hsome⟩
    · refine ⟨hkeeps, fun page hpage ↦ ?_⟩
      rw [← hsame.2, hnone] at hpage
      cases hpage
    · have hset := keeps_set hkeeps.inArena hhere hremoved.headers hremoved.allocated
        (hremoved.arenaId ▸ hkeeps.inArena header (List.mem_of_getElem? hhere))
        fun hmemory ↦ hremoved.location.trans hmemory
      refine ⟨hkeeps.trans hset, fun page hpage ↦ ?_⟩
      rw [← hsame.2, hsome, Option.map_some, Option.some.injEq] at hpage
      rw [← hpage]
      exact hset.resident key.page ⟨header, hhere, hremoved.memory⟩

/-- Every page that a call of the run returns is in memory at the end. -/
theorem run_keeps {calls : List PageCall} {outputs : List (Option ℕ)} (h : InArena s)
    (hrun : run (pageStep growth) s calls = .ok (s', outputs)) :
    Keeps s s' ∧ ∀ page, some page ∈ outputs → s'.Resident page := by
  induction calls generalizing s outputs with
  | nil =>
    rw [run_nil, Except.ok.injEq, Prod.mk.injEq] at hrun
    rw [← hrun.1, ← hrun.2]
    exact ⟨.refl h, nofun⟩
  | cons call rest ih =>
    obtain ⟨next, output, tail, hstep, hrest, houtputs⟩ := run_cons_eq_ok.mp hrun
    obtain ⟨hnext, hreturned⟩ := pageStep_keeps h hstep
    obtain ⟨hkeeps, htail⟩ := ih hnext.inArena hrest
    refine ⟨hnext.trans hkeeps, fun page hpage ↦ ?_⟩
    rw [houtputs, List.mem_cons] at hpage
    rcases hpage with hfirst | hlater
    · exact hkeeps.resident page (hreturned page hfirst.symm)
    · exact htail page hlater

/-- Pages in memory that have pages of the arena of their own are not more than these. -/
theorem length_le_of_arenaPagesOwned {used : List ℕ} (h : InArena s) (howned : ArenaPagesOwned s)
    (hnodup : used.Nodup) (hresident : ∀ page ∈ used, s.Resident page) :
    used.length ≤ s.arena.allocatedPages := by
  obtain ⟨slot, hslot⟩ : ∃ slot : ℕ → ℕ, ∀ page, slot page =
      (s.headers[page]?.map PageHeader.arenaId).getD 0 := ⟨_, fun _ ↦ rfl⟩
  have hslots {page : ℕ} {header : PageHeader} (hheader : s.headers[page]? = some header) :
      slot page = header.arenaId := by
    rw [hslot, hheader]
    rfl
  have hinjective (page : ℕ) (hpage : page ∈ used) (other : ℕ) (hother : other ∈ used)
      (hequal : slot page = slot other) : page = other := by
    obtain ⟨header, hheader, hmemory⟩ := hresident page hpage
    obtain ⟨header', hheader', hmemory'⟩ := hresident other hother
    rw [hslots hheader, hslots hheader'] at hequal
    by_contra hne
    exact howned page other header header' hheader hheader' hne hmemory hmemory' hequal
  have hsubset : used.map slot ⊆ List.range s.arena.allocatedPages := by
    intro arenaId harenaId
    obtain ⟨page, hpage, hequal⟩ := List.mem_map.mp harenaId
    obtain ⟨header, hheader, -⟩ := hresident page hpage
    rw [← hequal, hslots hheader, List.mem_range]
    exact h header (List.mem_of_getElem? hheader)
  have hmapped : (used.map slot).Nodup := hnodup.map_on hinjective
  calc used.length = (used.map slot).length := by rw [List.length_map]
    _ ≤ (List.range s.arena.allocatedPages).length :=
      (List.subperm_of_subset hmapped hsubset).length_le
    _ = s.arena.allocatedPages := List.length_range

end Steps

/-- Every run whose calls return more pages than the arena has leaves two pages in memory with one
page of the arena. -/
theorem not_arenaPagesOwned {growth : Growth} {start s : Storage} (hstart : InArena start)
    {calls : List PageCall} {outputs : List (Option ℕ)}
    (hrun : run (pageStep growth) start calls = .ok (s, outputs))
    (hmore : start.arena.allocatedPages < (usedPages outputs).length) : ¬ ArenaPagesOwned s := by
  intro howned
  obtain ⟨hkeeps, hreturned⟩ := run_keeps hstart hrun
  have hresident (page : ℕ) (hpage : page ∈ usedPages outputs) : s.Resident page := by
    rw [usedPages, List.mem_dedup, List.mem_filterMap] at hpage
    obtain ⟨output, houtput, hsome⟩ := hpage
    exact hreturned page (hsome ▸ houtput)
  have hle := length_le_of_arenaPagesOwned hkeeps.inArena howned (List.nodup_dedup _) hresident
  rw [hkeeps.allocated] at hle
  exact absurd hmore (Nat.not_lt.mpr hle)

/-- A value that fills a page with its size. -/
def pageOfBytes : Str where
  bytes := List.replicate 4094 0
  size_lt := by
    rw [List.length_replicate]
    decide

/-- An arena with one page. -/
def onePage : Storage := emptyStorage oneMore 1 (fun _ ↦ 0) 0 (initDisk [] [])

/-- Two values of which no page holds both. -/
def twoValues : List PageCall := [.set pageOfBytes, .set (.ofByte 118)]

theorem not_arenaPagesOwned_second_page : ∃ s outputs,
    run (pageStep oneMore) onePage twoValues = .ok (s, outputs) ∧ ¬ ArenaPagesOwned s := by
  have houtputs : (run (pageStep oneMore) onePage twoValues).toOption.map Prod.snd =
      some [some 0, some 1] := by
    decide +kernel
  obtain ⟨⟨s, outputs⟩, hrun, hlist⟩ := exists_ok_of_map houtputs
  have hoverfull : outputs = [some 0, some 1] := hlist
  refine ⟨s, outputs, hrun, not_arenaPagesOwned (by nofun : InArena onePage) hrun ?_⟩
  rw [hoverfull]
  decide

/-- The value of the second page stands where the first value was, and a read of the first key
returns it. -/
theorem not_arenaPagesOwned_first_value : ∃ s outputs,
    run (pageStep oneMore) onePage twoValues = .ok (s, outputs) ∧ ¬ ArenaPagesOwned s ∧
    ∃ s' value, pageValueGet s ⟨none, 0, 0⟩ = .ok (s', some (0, value)) ∧ value ≠ pageOfBytes := by
  have hheaders : (run (pageStep oneMore) onePage twoValues).toOption.map
      (fun result ↦ result.1.headers.map fun header ↦ (header.location, header.arenaId)) =
        some [(.inMemory, 0), (.inMemory, 0)] := by
    decide +kernel
  have hsizes : ((run (pageStep oneMore) onePage twoValues).toOption.bind
      fun result ↦ (pageValueGet result.1 ⟨none, 0, 0⟩).toOption.map
        fun got ↦ got.2.map fun found ↦ (found.1, found.2.size)) = some (some (0, 1)) := by
    decide +kernel
  obtain ⟨⟨s, outputs⟩, hrun, hplaces⟩ := exists_ok_of_map hheaders
  rw [hrun] at hsizes
  refine ⟨s, outputs, hrun, fun howned ↦ ?_, ?_⟩
  · have hlist : s.headers.map (fun header ↦ (header.location, header.arenaId)) =
        [(.inMemory, 0), (.inMemory, 0)] := hplaces
    obtain ⟨header, rest, hfirst, hequal, htail⟩ := List.map_eq_cons_iff.mp hlist
    obtain ⟨header', rest', hsecond, hequal', -⟩ := List.map_eq_cons_iff.mp htail
    rw [hsecond] at hfirst
    refine howned 0 1 header header' (by rw [hfirst]; rfl) (by rw [hfirst]; rfl) Nat.zero_ne_one
      (Prod.mk.inj hequal).1 (Prod.mk.inj hequal').1 ?_
    rw [(Prod.mk.inj hequal).2, (Prod.mk.inj hequal').2]
  · have hread : (pageValueGet s ⟨none, 0, 0⟩).toOption.map
        (fun got ↦ got.2.map fun found ↦ (found.1, found.2.size)) = some (some (0, 1)) := hsizes
    obtain ⟨⟨s', found⟩, hget, hfound⟩ := exists_ok_of_map hread
    obtain ⟨⟨page, value⟩, hvalue, hequal⟩ := Option.map_eq_some_iff.mp hfound
    have hpage : page = 0 := (Prod.mk.inj hequal).1
    have hsize : value.size = 1 := (Prod.mk.inj hequal).2
    have hreturned : found = some (page, value) := hvalue
    rw [hget, hreturned, hpage]
    refine ⟨s', value, rfl, fun hsame ↦ ?_⟩
    rw [hsame] at hsize
    exact absurd hsize (by decide +kernel)

end FGDB.Pages
