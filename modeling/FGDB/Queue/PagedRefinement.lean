import FGDB.Queue.PagedHeap

/-!
# The pages show the entries

As long as the system grants pages, the heap in its pages answers as the array of its
entries does. It keeps no more than one page empty beyond those of its start, and its
destruction unmaps what it has mapped.
-/

namespace FGDB.Queue

open Foundation

variable {κ υ : Type}

section Sizes

theorem PageSize.entries_pos (size : PageSize) : 0 < size.entries :=
  Nat.div_pos size.holdsEntry (by decide)

/-- The number of pages is the least that has room. -/
theorem usedPages_le_iff {size : PageSize} {entries pages : ℕ} :
    usedPages size entries ≤ pages ↔ entries ≤ pages * size.entries := by
  have hpos := size.entries_pos
  have hdiv := Nat.div_add_mod entries size.entries
  unfold usedPages
  by_cases hrest : 0 < entries % size.entries
  · rw [if_pos hrest, Nat.succ_le_iff, Nat.div_lt_iff_lt_mul hpos]
    refine ⟨Nat.le_of_lt, fun hle ↦ Nat.lt_of_le_of_ne hle fun heq ↦ ?_⟩
    rw [heq, Nat.mul_mod_left] at hrest
    exact Nat.lt_irrefl 0 hrest
  · rw [if_neg hrest, Nat.add_zero]
    have hexact : entries / size.entries * size.entries = entries := by
      rw [Nat.mul_comm]
      omega
    conv_rhs => rw [← hexact]
    exact (Nat.mul_le_mul_right_iff hpos).symm

theorem usedPages_mono {size : PageSize} {entries more : ℕ} (h : entries ≤ more) :
    usedPages size entries ≤ usedPages size more :=
  usedPages_le_iff.mpr (h.trans (usedPages_le_iff.mp (Nat.le_refl _)))

theorem usedPages_succ_le (size : PageSize) (entries : ℕ) :
    usedPages size (entries + 1) ≤ usedPages size entries + 1 := by
  have hroom := usedPages_le_iff.mp (Nat.le_refl (usedPages size entries))
  have hpos := size.entries_pos
  rw [usedPages_le_iff, Nat.succ_mul]
  omega

theorem usedPages_pos {size : PageSize} {entries : ℕ} (h : 0 < entries) :
    0 < usedPages size entries := by
  by_contra hzero
  have hroom := usedPages_le_iff.mp (Nat.le_of_not_lt hzero)
  omega

/-- The table of a new heap has an entry for each of its pages. -/
theorem pointers_fit (size : PageSize) (pages : ℕ) :
    pages ≤ size.pointers (8 * pages / size.bytes + 1) := by
  have hpos : 0 < size.bytes := Nat.lt_of_lt_of_le (by decide) size.holdsEntry
  have hmod := Nat.mod_lt (8 * pages) hpos
  have hdiv := Nat.div_add_mod (8 * pages) size.bytes
  rw [PageSize.pointers, Nat.le_div_iff_mul_le (by decide), Nat.succ_mul, Nat.mul_comm _ size.bytes]
  omega

/-- A longer table has room for one more page. -/
theorem pointers_succ (size : PageSize) (mapPages : ℕ) :
    size.pointers mapPages + 1 ≤ size.pointers (mapPages + 1) := by
  have hbytes := size.holdsEntry
  unfold PageSize.pointers
  rw [Nat.succ_mul]
  omega

end Sizes

section Mapping

/-- The pages of the heap are the mapped pages that are not those of others. -/
structure Owns (others mapped table : Finset ℕ) (pages : ℕ → Option (ℕ → HeapEntry κ υ)) :
    Prop where
  mem : ∀ page, page ∈ mapped ↔ page ∈ others ∨ page ∈ table ∨ pages page ≠ none
  tableApart : ∀ page ∈ table, page ∉ others
  pagesApart : ∀ page, pages page ≠ none → page ∉ others ∧ page ∉ table

variable {system : Mmap} {memory : Mappings} {others table : Finset ℕ}
  {slots slots' : PagedArray (HeapEntry κ υ)} {count : ℕ}

theorem mapInPages_ok (hgrants : ∀ call mapped count, system.place call mapped count ≠ none)
    (memory : Mappings) (hcount : count ≠ 0) : ∃ address,
      mapInPages system memory count = .ok (some address,
        ⟨memory.calls + 1, memory.mapped ∪ Finset.Ico address (address + count)⟩) ∧
      Disjoint memory.mapped (Finset.Ico address (address + count)) := by
  obtain ⟨address, hplace⟩ :=
    Option.ne_none_iff_exists'.mp (hgrants memory.calls memory.mapped count)
  refine ⟨address, ?_, system.free _ _ _ _ hplace⟩
  rw [mapInPages, if_neg hcount]
  simp only [hplace]

theorem mapOutPages_ok {address : ℕ} (hcount : count ≠ 0)
    (hmapped : Finset.Ico address (address + count) ⊆ memory.mapped) :
    mapOutPages memory (some address) count =
      .ok ⟨memory.calls, memory.mapped \ Finset.Ico address (address + count)⟩ := by
  rw [mapOutPages, Option.elim_some, ok_bind, if_neg hcount, if_pos hmapped, pure_eq_ok]

theorem Owns.table_subset (h : Owns others memory.mapped table slots.pages) :
    table ⊆ memory.mapped :=
  fun page hpage ↦ (h.mem page).mpr (.inr (.inl hpage))

theorem Owns.congr (h : Owns others memory.mapped table slots.pages)
    (hsame : ∀ address, slots'.pages address ≠ none ↔ slots.pages address ≠ none) :
    Owns others memory.mapped table slots'.pages where
  mem page := by
    rw [h.mem, hsame]
  tableApart := h.tableApart
  pagesApart page hpage := h.pagesApart page ((hsame page).mp hpage)

theorem Owns.extend (h : Owns others memory.mapped table slots.pages) {address : ℕ}
    (hfree : address ∉ memory.mapped) (contents : ℕ → HeapEntry κ υ) :
    Owns others (memory.mapped ∪ {address}) table (slots.extend count address contents).pages := by
  have hfresh := (h.mem address).not.mp hfree
  refine ⟨fun page ↦ ?_, h.tableApart, fun page hpage ↦ ?_⟩
  · rw [Finset.mem_union, Finset.mem_singleton, h.mem]
    by_cases hsame : page = address
    · rw [hsame, PagedArray.extend_pages_self]
      exact iff_of_true (.inr rfl) (.inr (.inr (Option.some_ne_none _)))
    · rw [PagedArray.extend_pages_of_ne hsame, or_iff_left hsame]
  · by_cases hsame : page = address
    · rw [hsame]
      exact ⟨fun hmem ↦ hfresh (.inl hmem), fun hmem ↦ hfresh (.inr (.inl hmem))⟩
    · rw [PagedArray.extend_pages_of_ne hsame] at hpage
      exact h.pagesApart page hpage

theorem Owns.shrink (h : Owns others memory.mapped table slots.pages) {address : ℕ}
    (hpage : slots.pages address ≠ none) :
    Owns others (memory.mapped \ {address}) table (slots.shrink address).pages := by
  refine ⟨fun page ↦ ?_, h.tableApart, fun page hkept ↦ ?_⟩
  · rw [Finset.mem_sdiff, Finset.mem_singleton, h.mem]
    by_cases hsame : page = address
    · rw [hsame, PagedArray.shrink_pages_self]
      obtain ⟨hothers, htable⟩ := h.pagesApart address hpage
      refine iff_of_false (fun hne ↦ hne.2 rfl) ?_
      rintro (hmem | hmem | hne)
      · exact hothers hmem
      · exact htable hmem
      · exact hne rfl
    · rw [PagedArray.shrink_pages_of_ne hsame, and_iff_left hsame]
  · by_cases hsame : page = address
    · rw [hsame, PagedArray.shrink_pages_self] at hkept
      exact absurd rfl hkept
    · rw [PagedArray.shrink_pages_of_ne hsame] at hkept
      exact h.pagesApart page hkept

/-- The old table goes when the new one has its entries. -/
theorem Owns.retable (h : Owns others memory.mapped table slots.pages) {table' : Finset ℕ}
    (hfree : Disjoint memory.mapped table') :
    Owns others ((memory.mapped ∪ table') \ table) table' slots.pages := by
  have hnew (page : ℕ) (hpage : page ∈ table') : page ∉ memory.mapped :=
    Finset.disjoint_right.mp hfree hpage
  refine ⟨fun page ↦ ?_, fun page hpage hothers ↦ ?_, fun page hpage ↦ ⟨?_, fun hmem ↦ ?_⟩⟩
  · rw [Finset.mem_sdiff, Finset.mem_union, h.mem]
    constructor
    · rintro ⟨(hothers | htable | hpage) | hmem, hold⟩
      · exact .inl hothers
      · exact absurd htable hold
      · exact .inr (.inr hpage)
      · exact .inr (.inl hmem)
    · rintro (hothers | hmem | hpage)
      · exact ⟨.inl (.inl hothers), fun htable ↦ h.tableApart page htable hothers⟩
      · exact ⟨.inr hmem, fun htable ↦ hnew page hmem ((h.mem page).mpr (.inr (.inl htable)))⟩
      · exact ⟨.inl (.inr (.inr hpage)), (h.pagesApart page hpage).2⟩
  · exact hnew page hpage ((h.mem page).mpr (.inl hothers))
  · exact (h.pagesApart page hpage).1
  · exact hnew page hmem ((h.mem page).mpr (.inr (.inr hpage)))

end Mapping

section Sifting

variable {size : PageSize} {compareFunc : κ → κ → ℤ} {count : ℕ}
  {slots : PagedArray (HeapEntry κ υ)} {entries : List (HeapEntry κ υ)}

/-- A read of the pages is a read of the entries. -/
theorem read_getElem? (h : slots.Shows size.entries entries) {index : ℕ}
    (hindex : index < entries.length) : ∃ entry, entries[index]? = some entry ∧
      slots.read size.entries index = .ok entry :=
  ⟨_, List.getElem?_eq_getElem hindex, h _ _ (List.getElem?_eq_getElem hindex)⟩

/-- A write to the pages is a write to the entries. -/
theorem write_shows (hbacked : slots.Backed count) (hroom : entries.length ≤ count * size.entries)
    {index : ℕ} (hindex : index < entries.length)
    (hshows : slots.ShowsBut size.entries entries index) (entry : HeapEntry κ υ) :
    ∃ slots', slots.write size.entries index entry = .ok slots' ∧
      PagedArray.SamePages slots slots' ∧ slots'.Shows size.entries (entries.set index entry) := by
  obtain ⟨slots', hwrite, hwrites⟩ := hbacked.write (Nat.lt_of_lt_of_le hindex hroom) entry
  exact ⟨slots', hwrite, hwrites.toSamePages, hwrites.fills hshows hroom⟩

theorem parentEntry_lt (current : ℕ) : parentEntry (current + 1) < current + 1 := by
  unfold parentEntry
  omega

/-- The loop of the insertion over the pages is that over the entries. -/
theorem siftUpPages_shows (compareFunc : κ → κ → ℤ) (entry : HeapEntry κ υ) (fuel : ℕ)
    {current : ℕ} (hbacked : slots.Backed count) (hroom : entries.length ≤ count * size.entries)
    (hcurrent : current < entries.length)
    (hshows : slots.ShowsBut size.entries entries current) :
    ∃ slots', siftUpPages size compareFunc entry fuel slots current = .ok slots' ∧
      PagedArray.SamePages slots slots' ∧
      slots'.Shows size.entries (siftUp compareFunc entry fuel entries current) := by
  induction fuel generalizing slots entries current with
  | zero =>
    rw [siftUpPages.eq_def, siftUp.eq_def]
    exact write_shows hbacked hroom hcurrent hshows entry
  | succ fuel ih =>
    cases current with
    | zero =>
      rw [siftUpPages.eq_def, siftUp.eq_def]
      exact write_shows hbacked hroom hcurrent hshows entry
    | succ current =>
      have hlt := parentEntry_lt current
      have hparent : entries[parentEntry (current + 1)]? = some _ :=
        List.getElem?_eq_getElem (hlt.trans hcurrent)
      rw [siftUpPages, siftUp, hshows _ _ (Nat.ne_of_lt hlt) hparent, hparent]
      simp only [ok_bind]
      by_cases hless : compareFunc entry.key (entries[parentEntry (current + 1)]).key < 0
      · obtain ⟨next, hwrite, hsame, hnext⟩ := write_shows hbacked hroom hcurrent hshows
          (entries[parentEntry (current + 1)])
        rw [if_pos hless, if_pos hless, hwrite, ok_bind]
        rw [← List.length_set] at hroom hcurrent
        obtain ⟨slots', hloop, hrest, hfinal⟩ := ih (hsame.backed hbacked) hroom
          (hlt.trans hcurrent) (hnext.but _)
        exact ⟨slots', hloop, hsame.trans hrest, hfinal⟩
      · rw [if_neg hless, if_neg hless]
        exact write_shows hbacked hroom hcurrent hshows entry

theorem smallerChildPages_eq (hshows : slots.Shows size.entries entries) (index : ℕ) :
    smallerChildPages size compareFunc entries.length slots index =
      .ok (smallerChild compareFunc entries index) := by
  rw [smallerChildPages, smallerChild]
  by_cases hleft : leftChild index < entries.length
  · obtain ⟨left, hget, hread⟩ := read_getElem? hshows hleft
    rw [if_pos hleft, hget, hread, ok_bind]
    by_cases hright : leftChild index + 1 < entries.length
    · obtain ⟨right, hget', hread'⟩ := read_getElem? hshows hright
      rw [if_pos hright, hget', hread', ok_bind]
      by_cases hle : compareFunc left.key right.key ≤ 0
      · simp only [if_pos hle, pure_eq_ok]
      · simp only [if_neg hle, pure_eq_ok]
    · rw [if_neg hright, List.getElem?_eq_none (Nat.le_of_not_lt hright), pure_eq_ok]
  · rw [if_neg hleft, List.getElem?_eq_none (Nat.le_of_not_lt hleft), pure_eq_ok]

/-- The child is an entry behind the index. -/
theorem smallerChild_mem {index child : ℕ} {entry : HeapEntry κ υ}
    (h : smallerChild compareFunc entries index = some (child, entry)) :
    index < child ∧ child < entries.length := by
  unfold smallerChild at h
  cases hl : entries[leftChild index]? with
  | none => simp [hl] at h
  | some left =>
    have hlt := (List.getElem?_eq_some_iff.mp hl).1
    have hindex : index < leftChild index := by
      unfold leftChild
      omega
    cases hr : entries[leftChild index + 1]? with
    | none =>
      simp only [hl, hr, Option.some.injEq, Prod.mk.injEq] at h
      exact h.1 ▸ ⟨hindex, hlt⟩
    | some right =>
      have hlt' := (List.getElem?_eq_some_iff.mp hr).1
      simp only [hl, hr] at h
      split at h
      · exact (Prod.mk.inj (Option.some.inj h)).1 ▸ ⟨hindex, hlt⟩
      · exact (Prod.mk.inj (Option.some.inj h)).1 ▸ ⟨hindex.trans (Nat.lt_succ_self _), hlt'⟩

theorem length_siftUp (entry : HeapEntry κ υ) (fuel : ℕ) (entries : List (HeapEntry κ υ))
    (current : ℕ) : (siftUp compareFunc entry fuel entries current).length = entries.length := by
  fun_induction siftUp compareFunc entry fuel entries current with
  | case1 => rfl
  | case2 entries fuel current parent hparent hless ih => rw [ih, List.length_set]
  | case3 => rw [List.length_set]
  | case4 => rw [List.length_set]

theorem length_siftDown (fuel : ℕ) (entries : List (HeapEntry κ υ)) (index : ℕ) :
    (siftDown compareFunc fuel entries index).length = entries.length := by
  fun_induction siftDown compareFunc fuel entries index with
  | case1 => rfl
  | case2 entries index fuel current child entry hget hchild hgreater ih =>
    rw [ih, List.length_set, List.length_set]
  | case3 => rfl
  | case4 => rfl

/-- The loop of the removal over the pages is that over the entries. -/
theorem siftDownPages_shows {fuel index : ℕ} (hbacked : slots.Backed count)
    (hroom : entries.length ≤ count * size.entries) (hshows : slots.Shows size.entries entries) :
    ∃ slots', siftDownPages size compareFunc entries.length fuel slots index = .ok slots' ∧
      PagedArray.SamePages slots slots' ∧
      slots'.Shows size.entries (siftDown compareFunc fuel entries index) := by
  induction fuel generalizing slots entries index with
  | zero => exact ⟨slots, rfl, .refl slots, hshows⟩
  | succ fuel ih =>
    rw [siftDownPages, siftDown, smallerChildPages_eq hshows, ok_bind]
    cases hchild : smallerChild compareFunc entries index with
    | none =>
      refine ⟨slots, rfl, .refl slots, ?_⟩
      cases entries[index]? <;> exact hshows
    | some found =>
      obtain ⟨child, entry⟩ := found
      obtain ⟨hlt, hinside⟩ := smallerChild_mem hchild
      have hindex := hlt.trans hinside
      obtain ⟨current, hget, hread⟩ := read_getElem? hshows hindex
      simp only [hget, hread, ok_bind]
      by_cases hgreater : compareFunc current.key entry.key = 1
      · -- the swap is two writes, the second behind the first
        obtain ⟨first, hfirst, hsame, hfilled⟩ :=
          write_shows hbacked hroom hindex (hshows.but index) entry
        rw [← List.length_set] at hroom hinside
        obtain ⟨second, hsecond, hsame', hswapped⟩ :=
          write_shows (hsame.backed hbacked) hroom hinside (hfilled.but child) current
        rw [← List.length_set] at hroom
        obtain ⟨slots', hloop, hrest, hfinal⟩ := @ih second _ child
          (hsame'.backed (hsame.backed hbacked)) hroom hswapped
        rw [List.length_set, List.length_set] at hloop
        rw [if_pos hgreater, if_pos hgreater, hfirst, ok_bind, hsecond, ok_bind]
        exact ⟨slots', hloop, (hsame.trans hsame').trans hrest, hfinal⟩
      · rw [if_neg hgreater, if_neg hgreater]
        exact ⟨slots, rfl, .refl slots, hshows⟩

/-- The entries that are left of a heap without its root. -/
theorem removeRoot_shows (compareFunc : κ → κ → ℤ) {root : HeapEntry κ υ}
    {rest : List (HeapEntry κ υ)} (hbacked : slots.Backed count) (hroom : (root :: rest).length ≤ count * size.entries)
    (hshows : slots.Shows size.entries (root :: rest)) :
    ∃ slots' entries, removeRoot size compareFunc slots rest.length = .ok slots' ∧
      PagedArray.SamePages slots slots' ∧
      heapDelmin compareFunc (root :: rest) = some (root, entries) ∧
      entries.length = rest.length ∧ slots'.Shows size.entries entries := by
  rw [removeRoot, heapDelmin]
  cases hlast : rest.getLast? with
  | none =>
    rw [List.getLast?_eq_none_iff] at hlast
    subst hlast
    refine ⟨slots, [], rfl, .refl slots, rfl, rfl, fun index value hvalue ↦ ?_⟩
    cases hvalue
  | some last =>
    have hne : rest ≠ [] := by
      rintro rfl
      cases hlast
    have hpos := List.length_pos_of_ne_nil hne
    have hget : (root :: rest)[rest.length]? = some last := by
      rw [List.getLast?_eq_getElem?] at hlast
      obtain ⟨length, hlength⟩ := Nat.exists_eq_succ_of_ne_zero (Nat.ne_of_gt hpos)
      rw [hlength] at hlast ⊢
      exact hlast
    obtain ⟨first, hwrite, hsame, hfilled⟩ := write_shows hbacked hroom
      (Nat.succ_pos _) (hshows.but 0) last
    have hless : last :: rest.dropLast <+: (root :: rest).set 0 last :=
      List.cons_prefix_cons.mpr ⟨rfl, List.dropLast_prefix rest⟩
    have hlength : (last :: rest.dropLast).length = rest.length := by
      rw [List.length_cons, List.length_dropLast]
      omega
    have hfits : (last :: rest.dropLast).length ≤ count * size.entries := by
      rw [hlength]
      exact Nat.le_of_succ_le hroom
    obtain ⟨slots', hloop, hrest, hfinal⟩ := siftDownPages_shows (hsame.backed hbacked) hfits
      (hfilled.take hless)
    rw [hlength] at hloop
    refine ⟨slots', _, ?_, hsame.trans hrest, rfl, ?_, hfinal⟩
    · rw [if_pos hpos, hshows _ _ hget, ok_bind, hwrite, ok_bind]
      exact hloop
    · rw [length_siftDown, hlength]

end Sifting

/-- The heap holds the entries in pages of its own. -/
structure PagedHeap.Holds (size : PageSize) (others : Finset ℕ) (minimum : ℕ) (h : PagedHeap κ υ)
    (memory : Mappings) (entries : List (HeapEntry κ υ)) : Prop where
  active : h.activeEntries = entries.length
  room : entries.length ≤ h.allocatedPages * size.entries
  least : h.minimumPages = minimum ∧ minimum ≤ h.allocatedPages
  spare : h.allocatedPages ≤ max minimum (usedPages size entries.length + 1)
  backed : h.slots.Backed h.allocatedPages
  shows : h.slots.Shows size.entries entries
  length : h.slots.table.length = size.pointers h.mapPages
  mapPages : h.mapPages ≠ 0
  table : ∃ address, h.mappingTable = some address ∧
    Owns others memory.mapped (Finset.Ico address (address + h.mapPages)) h.slots.pages

theorem PagedHeap.Holds.mappingTable_ne {size : PageSize} {others : Finset ℕ} {minimum : ℕ}
    {h : PagedHeap κ υ} {memory : Mappings} {entries : List (HeapEntry κ υ)}
    (hholds : h.Holds size others minimum memory entries) : h.mappingTable ≠ none := by
  obtain ⟨table, htable, -⟩ := hholds.table
  rw [htable]
  exact Option.some_ne_none table

section Growth

variable {system : Mmap} {size : PageSize} {others : Finset ℕ}
  {minimum : ℕ} {h : PagedHeap κ υ} {memory : Mappings} {entries : List (HeapEntry κ υ)}

/-- The table has an entry for one more page, and nothing else changes. -/
theorem growTable_holds (hgrants : ∀ call mapped count, system.place call mapped count ≠ none)
    (hholds : h.Holds size others minimum memory entries) :
    ∃ h' memory', growTable system size h memory = .ok (h', memory') ∧
      h'.Holds size others minimum memory' entries ∧ h'.allocatedPages = h.allocatedPages ∧
      h'.allocatedPages < h'.slots.table.length := by
  have hcount := hholds.backed.count_le
  by_cases hfull : size.pointers h.mapPages < h.allocatedPages + 1
  · obtain ⟨old, htable, howns⟩ := hholds.table
    obtain ⟨address, hmap, hfree⟩ := mapInPages_ok hgrants memory (Nat.succ_ne_zero h.mapPages)
    have hunmap : mapOutPages ⟨memory.calls + 1, memory.mapped ∪
        Finset.Ico address (address + (h.mapPages + 1))⟩ (some old) h.mapPages = _ :=
      mapOutPages_ok hholds.mapPages (howns.table_subset.trans Finset.subset_union_left)
    have hmore := pointers_succ size h.mapPages
    have hlength : (h.slots.table ++ List.replicate
        (size.pointers (h.mapPages + 1) - size.pointers h.mapPages) none).length =
        size.pointers (h.mapPages + 1) := by
      rw [List.length_append, List.length_replicate, hholds.length]
      omega
    refine ⟨{ h with
        mapPages := h.mapPages + 1
        mappingTable := some address
        slots := h.slots.regrow
          (List.replicate (size.pointers (h.mapPages + 1) - size.pointers h.mapPages) none) },
      ⟨memory.calls + 1, (memory.mapped ∪ Finset.Ico address (address + (h.mapPages + 1))) \
        Finset.Ico old (old + h.mapPages)⟩, ?_,
      ⟨hholds.active, hholds.room, hholds.least, hholds.spare, hholds.backed.regrow, ?_, hlength,
        Nat.succ_ne_zero _, address, rfl, howns.retable hfree⟩, rfl, ?_⟩
    · simp only [growTable, if_pos hfull, hmap, ok_bind, Option.elim_some, htable, hunmap,
        pure_eq_ok]
    · intro index value hvalue
      have hlt := (List.getElem?_eq_some_iff.mp hvalue).1
      have hentry := PagedArray.div_lt_count (Nat.lt_of_lt_of_le hlt hholds.room)
      exact (PagedArray.read_regrow (hentry.trans_le hcount)).trans
        (hholds.shows index value hvalue)
    · refine Nat.lt_of_lt_of_eq ?_ hlength.symm
      rw [hholds.length] at hcount
      exact Nat.lt_of_lt_of_le (Nat.lt_succ_of_le hcount) hmore
  · refine ⟨h, memory, if_neg hfull, hholds, rfl, ?_⟩
    rw [hholds.length]
    exact Nat.le_of_not_lt hfull

/-- The heap has room for one more entry. -/
theorem growPages_holds (zero : HeapEntry κ υ)
    (hgrants : ∀ call mapped count, system.place call mapped count ≠ none)
    (hholds : h.Holds size others minimum memory entries) :
    ∃ h' memory', growPages system size zero h memory = .ok (h', memory') ∧
      h'.Holds size others minimum memory' entries ∧
      entries.length + 1 ≤ h'.allocatedPages * size.entries := by
  by_cases hfull : h.allocatedPages * size.entries < h.activeEntries + 1
  · obtain ⟨middle, memory', hgrow, hmiddle, hallocated, hroom⟩ := growTable_holds hgrants hholds
    obtain ⟨address, hmap, hfree⟩ := mapInPages_ok hgrants memory' Nat.one_ne_zero
    rw [Nat.Ico_succ_singleton] at hmap hfree
    have hfree := Finset.disjoint_singleton_right.mp hfree
    obtain ⟨table, htable, howns⟩ := hmiddle.table
    have hunmapped : middle.slots.pages address = none :=
      not_ne_iff.mp fun hpage ↦ hfree ((howns.mem address).mpr (.inr (.inr hpage)))
    have hused : middle.allocatedPages ≤ usedPages size entries.length := by
      have hroom := usedPages_le_iff.mp (Nat.le_refl (usedPages size entries.length))
      rw [hallocated]
      rw [hholds.active] at hfull
      exact Nat.le_of_mul_le_mul_right ((Nat.le_of_lt_succ hfull).trans hroom) size.entries_pos
    have hmore : entries.length + 1 ≤ (middle.allocatedPages + 1) * size.entries := by
      have hpos := size.entries_pos
      have hfits := hmiddle.room
      rw [Nat.succ_mul]
      omega
    refine ⟨{ middle with
        allocatedPages := middle.allocatedPages + 1
        slots := middle.slots.extend middle.allocatedPages address fun _ ↦ zero },
      ⟨memory'.calls + 1, memory'.mapped ∪ {address}⟩, ?_,
      ⟨hmiddle.active, Nat.le_of_succ_le hmore,
        ⟨hmiddle.least.1, Nat.le_succ_of_le hmiddle.least.2⟩, ?_,
        hmiddle.backed.extend hroom hunmapped, ?_, ?_, hmiddle.mapPages, table, htable, howns.extend hfree _⟩, hmore⟩
    · simp only [growPages, if_pos hfull, hgrow, ok_bind, hmap, mapEntry,
        if_neg (Nat.not_le_of_lt hroom), pure_eq_ok]
    · exact (Nat.succ_le_succ hused).trans (le_max_right _ _)
    · intro index value hvalue
      have hlt := (List.getElem?_eq_some_iff.mp hvalue).1
      exact (hmiddle.backed.read_extend hunmapped (Nat.lt_of_lt_of_le hlt hmiddle.room)).trans
        (hmiddle.shows index value hvalue)
    · exact List.length_set.trans hmiddle.length
  · refine ⟨h, memory, if_neg hfull, hholds, ?_⟩
    rw [← hholds.active]
    exact Nat.le_of_not_lt hfull

end Growth

section Operations

variable {system : Mmap} {size : PageSize} {others : Finset ℕ} {minimum : ℕ} {h : PagedHeap κ υ}
  {memory : Mappings} {entries : List (HeapEntry κ υ)}

theorem heapInsertPages_holds (zero : HeapEntry κ υ) (compareFunc : κ → κ → ℤ)
    (hgrants : ∀ call mapped count, system.place call mapped count ≠ none)
    (hholds : h.Holds size others minimum memory entries) (key : κ) (value : υ) :
    ∃ h' memory', heapInsertPages system size zero compareFunc h memory key value =
        .ok (h', memory') ∧
      h'.Holds size others minimum memory' (heapInsert compareFunc entries key value) := by
  obtain ⟨middle, memory', hgrow, hmiddle, hroom⟩ := growPages_holds zero hgrants hholds
  obtain ⟨table, htable, howns⟩ := hmiddle.table
  have hbehind : (entries ++ [HeapEntry.mk key value]).length = entries.length + 1 :=
    List.length_append
  rw [← hbehind] at hroom
  obtain ⟨slots, hloop, hsame, hshows⟩ := siftUpPages_shows compareFunc ⟨key, value⟩ entries.length
    hmiddle.backed hroom (hbehind ▸ Nat.lt_succ_self _) (hmiddle.shows.append ⟨key, value⟩)
  have hlength : (heapInsert compareFunc entries key value).length = entries.length + 1 := by
    rw [heapInsert, length_siftUp, hbehind]
  have hspare := hmiddle.spare.trans (max_le_max_left minimum
    (Nat.succ_le_succ (usedPages_mono (Nat.le_succ entries.length))))
  refine ⟨{ middle with activeEntries := middle.activeEntries + 1, slots := slots }, memory', ?_,
    ⟨?_, ?_, hmiddle.least, ?_, hsame.backed hmiddle.backed, hshows, ?_, hmiddle.mapPages, table,
      htable, howns.congr hsame.mapped⟩⟩
  · have hactive := hmiddle.active
    rw [heapInsertPages, if_neg hholds.mappingTable_ne]
    simp only [hgrow, ok_bind, hactive, hloop, pure_eq_ok]
  · rw [hlength]
    exact congrArg Nat.succ hmiddle.active
  · rw [hlength, ← hbehind]
    exact hroom
  · rw [hlength]
    exact hspare
  · exact (congrArg List.length hsame.table).trans hmiddle.length

/-- At most one page is empty, but for those of the start. -/
theorem releasePage_holds {slots : PagedArray (HeapEntry κ υ)} {rest : List (HeapEntry κ υ)}
    (hholds : h.Holds size others minimum memory entries)
    (hlength : rest.length + 1 = entries.length) (hsame : PagedArray.SamePages h.slots slots)
    (hshows : slots.Shows size.entries rest) :
    ∃ h' memory', releasePage size { h with
        activeEntries := h.activeEntries - 1, slots := slots } memory = .ok (h', memory') ∧
      h'.Holds size others minimum memory' rest := by
  obtain ⟨table, htable, howns⟩ := hholds.table
  have howns := howns.congr hsame.mapped
  have hactive : h.activeEntries - 1 = rest.length := by
    rw [hholds.active]
    omega
  have hbacked := hsame.backed hholds.backed
  have hslots := (congrArg List.length hsame.table).trans hholds.length
  have hroom : rest.length ≤ h.allocatedPages * size.entries := by
    have hroom := hholds.room
    omega
  have hused := usedPages_succ_le size rest.length
  rw [hlength] at hused
  rw [hactive]
  by_cases hempty : usedPages size rest.length + 1 < h.allocatedPages ∧
      h.minimumPages < h.allocatedPages
  · obtain ⟨pages, hpages⟩ :=
      Nat.exists_eq_succ_of_ne_zero (Nat.ne_of_gt (Nat.zero_lt_of_lt hempty.1))
    have hless : rest.length ≤ pages * size.entries := by
      apply usedPages_le_iff.mp
      omega
    rw [hpages] at hbacked
    obtain ⟨address, hentry⟩ := hbacked.entry pages (Nat.lt_succ_self pages)
    have hpage := (hbacked.mapped address).mpr ⟨pages, Nat.lt_succ_self pages, hentry⟩
    have hunmap : mapOutPages memory (some address) 1 =
        .ok ⟨memory.calls, memory.mapped \ {address}⟩ := by
      rw [mapOutPages_ok Nat.one_ne_zero] <;> rw [Nat.Ico_succ_singleton]
      rw [Finset.singleton_subset_iff, howns.mem]
      exact .inr (.inr hpage)
    have hlast : h.allocatedPages - 1 = pages := by
      rw [hpages, Nat.succ_sub_one]
    have hleast := hholds.least
    have hspare := hholds.spare
    refine ⟨{ h with
        activeEntries := rest.length, allocatedPages := pages, slots := slots.shrink address },
      ⟨memory.calls, memory.mapped \ {address}⟩, ?_, ⟨rfl, hless, ⟨hleast.1, ?_⟩, ?_,
        hbacked.shrink hentry, ?_, hslots, hholds.mapPages, table, htable, howns.shrink hpage⟩⟩
    · rw [releasePage, if_pos hempty]
      simp only [hlast, hentry, Option.elim_some, ok_bind, hunmap, pure_eq_ok]
    · show minimum ≤ pages
      omega
    · show pages ≤ max minimum (usedPages size rest.length + 1)
      omega
    · intro index value hvalue
      have hlt := (List.getElem?_eq_some_iff.mp hvalue).1
      exact (hbacked.read_shrink hentry (Nat.lt_of_lt_of_le hlt hless)).trans
        (hshows index value hvalue)
  · refine ⟨_, memory, if_neg hempty, ⟨rfl, hroom, hholds.least, ?_, hbacked, hshows, hslots,
      hholds.mapPages, table, htable, howns⟩⟩
    have hleast := hholds.least
    have hspare := hholds.spare
    show h.allocatedPages ≤ max minimum (usedPages size rest.length + 1)
    omega

theorem heapDelminPages_holds (compareFunc : κ → κ → ℤ)
    (hholds : h.Holds size others minimum memory entries) :
    ∃ h' memory', heapDelminPages size compareFunc h memory =
        .ok ((heapDelmin compareFunc entries).map Prod.fst, h', memory') ∧
      h'.Holds size others minimum memory'
        (((heapDelmin compareFunc entries).map Prod.snd).getD []) := by
  cases entries with
  | nil => exact ⟨h, memory, if_pos hholds.active, hholds⟩
  | cons root rest =>
    have hactive : h.activeEntries = rest.length + 1 := hholds.active
    obtain ⟨slots, entries, hremove, hsame, hdelmin, hlength, hshows⟩ :=
      removeRoot_shows compareFunc hholds.backed hholds.room hholds.shows
    obtain ⟨h', memory', hrelease, hholds'⟩ := releasePage_holds hholds
      (congrArg Nat.succ hlength) hsame hshows
    rw [hdelmin]
    refine ⟨h', memory', ?_, hholds'⟩
    rw [heapDelminPages, if_neg (hactive ▸ Nat.succ_ne_zero _), hholds.shows 0 root rfl, ok_bind,
      hactive, Nat.add_sub_cancel, hremove, ok_bind]
    rw [hactive, Nat.add_sub_cancel] at hrelease
    rw [hrelease]
    rfl

theorem heapMinPages_eq (hholds : h.Holds size others minimum memory entries) :
    heapMinPages size h = .ok entries.head? := by
  cases entries with
  | nil => exact if_pos hholds.active
  | cons root rest =>
    rw [heapMinPages, if_neg (hholds.active ▸ Nat.succ_ne_zero _), hholds.shows 0 root rfl]
    rfl

/-- Reads of one place after the other. -/
theorem mapM_read_eq {read : ℕ → Outcome (HeapEntry κ υ)}
    (hread : ∀ index entry, entries[index]? = some entry → read index = .ok entry) :
    (List.range entries.length).mapM read = .ok entries := by
  induction entries using List.reverseRecOn with
  | nil => rfl
  | append_singleton entries last ih =>
    have hinit := ih fun index entry hentry ↦ hread index entry
      ((List.getElem?_append_left (List.getElem?_eq_some_iff.mp hentry).1).trans hentry)
    have hlast := hread entries.length last List.getElem?_concat_length
    rw [List.length_append, List.length_singleton, List.range_succ, List.mapM_append, hinit,
      ok_bind, List.mapM_cons, hlast]
    rfl

theorem pagedStep_holds (zero : HeapEntry κ υ) (compareFunc : κ → κ → ℤ)
    (hgrants : ∀ call mapped count, system.place call mapped count ≠ none)
    (hholds : h.Holds size others minimum memory entries) (call : HeapCall κ υ) :
    ∃ state, pagedStep system size zero compareFunc (h, memory) call =
        .ok (state, (entriesStep compareFunc entries call).2) ∧
      state.1.Holds size others minimum state.2 (entriesStep compareFunc entries call).1 := by
  cases call with
  | insert key value =>
    obtain ⟨h', memory', hinsert, hholds'⟩ :=
      heapInsertPages_holds zero compareFunc hgrants hholds key value
    refine ⟨(h', memory'), ?_, hholds'⟩
    rw [pagedStep, hinsert]
    rfl
  | delmin =>
    obtain ⟨h', memory', hdelmin, hholds'⟩ := heapDelminPages_holds compareFunc hholds
    refine ⟨(h', memory'), ?_, ?_⟩
    · rw [pagedStep, hdelmin, entriesStep]
      cases heapDelmin compareFunc entries <;> rfl
    · rw [entriesStep]
      cases hfound : heapDelmin compareFunc entries with
      | none =>
        rw [hfound] at hholds'
        cases entries with
        | nil => exact hholds'
        | cons root rest => cases hfound
      | some found =>
        rw [hfound] at hholds'
        exact hholds'
  | min =>
    refine ⟨(h, memory), ?_, hholds⟩
    rw [pagedStep, heapMinPages_eq hholds]
    rfl
  | size =>
    refine ⟨(h, memory), ?_, hholds⟩
    rw [pagedStep, hholds.active]
    rfl
  | foreach =>
    refine ⟨(h, memory), ?_, hholds⟩
    rw [pagedStep, heapForeachPages, hholds.active, mapM_read_eq hholds.shows]
    rfl

end Operations

section Lifetime

variable {system : Mmap} {size : PageSize} {others : Finset ℕ} {minimum : ℕ} {h : PagedHeap κ υ}
  {memory : Mappings} {entries : List (HeapEntry κ υ)}

/-- The pages of a new heap, with room for the entries that the caller expects. -/
def minimumPages (size : PageSize) (initialSize : ℤ) : ℕ :=
  usedPages size (if initialSize ≤ 0 then size.entries else initialSize.toNat)

theorem minimumPages_pos (size : PageSize) (initialSize : ℤ) :
    0 < minimumPages size initialSize := by
  apply usedPages_pos
  split
  · exact size.entries_pos
  · omega

/-- What the loop of `heap_create` has put into the table. -/
structure Placed (address length index : ℕ) (slots : PagedArray (HeapEntry κ υ)) : Prop where
  backed : slots.Backed index
  length : slots.table.length = length
  pages : ∀ page, slots.pages page ≠ none ↔ page ∈ Finset.Ico address (address + index)

theorem mapEntries_ok (zero : HeapEntry κ υ) (address : ℕ) {count length : ℕ}
    (hroom : count ≤ length) :
    ∃ slots, (List.range count).foldlM
        (fun slots index ↦ mapEntry zero slots index (some (address + index)))
        ⟨List.replicate length none, fun _ ↦ none⟩ = .ok slots ∧
      Placed address length count slots := by
  refine @foldlM_range_ok _ _ (Placed address length) _ _ ?_ ?_
  · refine ⟨⟨fun i hi ↦ absurd hi (Nat.not_lt_zero i), fun i j _ hi ↦ absurd hi (Nat.not_lt_zero i),
      fun page ↦ iff_of_false (fun hne ↦ hne rfl) ?_⟩, List.length_replicate, fun page ↦ ?_⟩
    · rintro ⟨i, hi, -⟩
      exact Nat.not_lt_zero i hi
    · rw [Nat.add_zero, Finset.Ico_self]
      exact iff_of_false (fun hne ↦ hne rfl) (Finset.notMem_empty page)
  · intro index slots hindex ⟨hbacked, hlength, hpages⟩
    have hinside : index < slots.table.length := hlength ▸ Nat.lt_of_lt_of_le hindex hroom
    have hfree : slots.pages (address + index) = none := by
      apply not_ne_iff.mp
      rw [hpages, Finset.mem_Ico]
      omega
    refine ⟨slots.extend index (address + index) fun _ ↦ zero, if_neg (Nat.not_le_of_lt hinside),
      hbacked.extend hinside hfree, List.length_set.trans hlength, fun page ↦ ?_⟩
    rw [← Nat.add_assoc, Finset.mem_Ico]
    by_cases hsame : page = address + index
    · rw [hsame, PagedArray.extend_pages_self]
      exact iff_of_true (Option.some_ne_none _) (by omega)
    · rw [PagedArray.extend_pages_of_ne hsame, hpages, Finset.mem_Ico]
      omega

theorem heapCreate_holds (zero : HeapEntry κ υ)
    (hgrants : ∀ call mapped count, system.place call mapped count ≠ none) (initialSize : ℤ)
    (memory : Mappings) :
    ∃ h memory', heapCreate system size zero initialSize memory = .ok (h, memory') ∧
      h.Holds size memory.mapped (minimumPages size initialSize) memory' [] := by
  have hpos := minimumPages_pos size initialSize
  obtain ⟨count, hcount⟩ : ∃ count, count = minimumPages size initialSize := ⟨_, rfl⟩
  rw [← hcount] at hpos ⊢
  obtain ⟨table, hmap, hfree⟩ :=
    mapInPages_ok hgrants memory (Nat.succ_ne_zero (8 * count / size.bytes))
  obtain ⟨address, hmap', hfree'⟩ := mapInPages_ok hgrants ⟨memory.calls + 1,
    memory.mapped ∪ Finset.Ico table (table + (8 * count / size.bytes + 1))⟩ (Nat.ne_of_gt hpos)
  obtain ⟨slots, hloop, hbacked, hlength, hpages⟩ :=
    mapEntries_ok zero address (pointers_fit size count)
  refine ⟨⟨0, count, count, 8 * count / size.bytes + 1, some table, slots⟩,
    ⟨memory.calls + 1 + 1, memory.mapped ∪ Finset.Ico table (table + (8 * count / size.bytes + 1)) ∪
      Finset.Ico address (address + count)⟩, ?_,
    ⟨rfl, Nat.zero_le _, ⟨rfl, Nat.le_refl _⟩, le_max_left _ _, hbacked, ?_, hlength,
      Nat.succ_ne_zero _, table, rfl, ?_⟩⟩
  · have hminimum : usedPages size (if initialSize ≤ 0 then size.entries else initialSize.toNat) =
        count := hcount.symm
    simp only [heapCreate, hminimum, hmap, ok_bind, Option.elim_some, hmap', hloop, pure_eq_ok]
  · intro index value hvalue
    cases hvalue
  · refine ⟨fun page ↦ ?_, fun page hpage hothers ↦ ?_, fun page hpage ↦ ?_⟩
    · rw [Finset.mem_union, Finset.mem_union, hpages, or_assoc]
    · exact Finset.disjoint_left.mp hfree hothers hpage
    · have hnew := Finset.disjoint_right.mp hfree' ((hpages page).mp hpage)
      exact ⟨fun hothers ↦ hnew (Finset.mem_union_left _ hothers),
        fun htable ↦ hnew (Finset.mem_union_right _ htable)⟩

/-- What the loop of `heap_destroy` has left. -/
def Remains (h : PagedHeap κ υ) (memory : Mappings) (index : ℕ) (middle : Mappings) : Prop :=
  ∀ page, page ∈ middle.mapped ↔
    page ∈ memory.mapped ∧ ∀ i, i < index → h.slots.table[i]? ≠ some (some page)

/-- The destruction leaves the pages of others. -/
theorem heapDestroy_ok (hholds : h.Holds size others minimum memory entries) :
    ∃ h' memory', heapDestroy h memory = .ok (h', memory') ∧ memory'.mapped = others := by
  obtain ⟨table, htable, howns⟩ := hholds.table
  have hentry (index : ℕ) (hindex : index < h.allocatedPages) := hholds.backed.entry index hindex
  obtain ⟨middle, hloop, hmiddle⟩ : ∃ middle,
      (List.range h.allocatedPages).foldlM (unmapEntry h) memory = .ok middle ∧
      Remains h memory h.allocatedPages middle := by
    refine @foldlM_range_ok _ _ (Remains h memory) _ _ ?_ ?_
    · exact fun page ↦ (and_iff_left fun i hi ↦ absurd hi (Nat.not_lt_zero i)).symm
    · intro index middle hindex hmiddle
      obtain ⟨address, haddress⟩ := hentry index hindex
      have hmapped : Finset.Ico address (address + 1) ⊆ middle.mapped := by
        rw [Nat.Ico_succ_singleton, Finset.singleton_subset_iff, hmiddle, howns.mem]
        refine ⟨.inr (.inr ((hholds.backed.mapped address).mpr ⟨index, hindex, haddress⟩)),
          fun i hi hsame ↦ ?_⟩
        exact Nat.ne_of_lt hi (hholds.backed.apart i index address (hi.trans hindex) hindex hsame
          haddress)
      have hround : unmapEntry h middle index =
          .ok ⟨middle.calls, middle.mapped \ Finset.Ico address (address + 1)⟩ := by
        rw [unmapEntry, haddress, Option.elim_some, ok_bind]
        exact mapOutPages_ok Nat.one_ne_zero hmapped
      refine ⟨_, hround, fun page ↦ ?_⟩
      rw [Nat.Ico_succ_singleton, Finset.mem_sdiff, Finset.mem_singleton, hmiddle, and_assoc,
        Nat.forall_lt_succ_right, haddress]
      refine and_congr_right fun _ ↦ and_congr_right fun _ ↦ ?_
      rw [ne_eq, Option.some.injEq, Option.some.injEq, eq_comm]
  have hkept : Finset.Ico table (table + h.mapPages) ⊆ middle.mapped := by
    intro page hpage
    refine (hmiddle page).mpr ⟨howns.table_subset hpage, fun i hi hsame ↦ ?_⟩
    exact (howns.pagesApart page ((hholds.backed.mapped page).mpr ⟨i, hi, hsame⟩)).2 hpage
  refine ⟨⟨0, h.minimumPages, 0, 0, none, ⟨[], fun _ ↦ none⟩⟩, ⟨middle.calls,
    middle.mapped \ Finset.Ico table (table + h.mapPages)⟩, ?_, ?_⟩
  · rw [heapDestroy, if_neg hholds.mappingTable_ne, hloop, ok_bind, htable,
      mapOutPages_ok hholds.mapPages hkept]
    rfl
  · ext page
    rw [Finset.mem_sdiff, hmiddle, howns.mem]
    constructor
    · rintro ⟨⟨hothers | hpage | hpage, hgone⟩, hnot⟩
      · exact hothers
      · exact absurd hpage hnot
      · obtain ⟨i, hi, hsame⟩ := (hholds.backed.mapped page).mp hpage
        exact absurd hsame (hgone i hi)
    · intro hothers
      refine ⟨⟨.inl hothers, fun i hi hsame ↦ ?_⟩, fun hpage ↦ howns.tableApart page hpage hothers⟩
      exact (howns.pagesApart page ((hholds.backed.mapped page).mpr ⟨i, hi, hsame⟩)).1 hothers

end Lifetime

/-- A run of calls on a new heap. -/
theorem pagedHeap_runs {system : Mmap}
    (hgrants : ∀ call mapped count, system.place call mapped count ≠ none) (size : PageSize)
    (zero : HeapEntry κ υ) (compareFunc : κ → κ → ℤ) (initialSize : ℤ) (memory : Mappings)
    (calls : List (HeapCall κ υ)) :
    ∃ created final, heapCreate system size zero initialSize memory = .ok created ∧
      run (pagedStep system size zero compareFunc) created calls =
        .ok (final, (runSpec (entriesStep compareFunc) [] calls).2) ∧
      final.1.Holds size memory.mapped (minimumPages size initialSize) final.2
        (runSpec (entriesStep compareFunc) [] calls).1 := by
  obtain ⟨h, memory', hcreate, hholds⟩ := heapCreate_holds zero hgrants initialSize memory
  obtain ⟨final, hrun, hfinal⟩ := @run_simulates _ _ _ _ _ (entriesStep compareFunc)
    (fun _ _ ↦ True) (fun state entries ↦
      state.1.Holds size memory.mapped (minimumPages size initialSize) state.2 entries)
    (fun _ _ call hstate _ ↦ pagedStep_holds zero compareFunc hgrants hstate call) (h, memory') []
    calls hholds (eachStep_of_forall fun _ _ ↦ trivial)
  exact ⟨(h, memory'), final, hcreate, hrun, hfinal⟩

/-- From its creation to its destruction the heap answers each call as the array of its entries
does, keeps at most one empty page beyond those of its start, and then leaves the pages that the
process had mapped before. -/
def ServesEntries (system : Mmap) (size : PageSize) (zero : HeapEntry κ υ)
    (compareFunc : κ → κ → ℤ) (initialSize : ℤ) (memory : Mappings) (calls : List (HeapCall κ υ)) :
    Prop :=
  ∃ created final destroyed, heapCreate system size zero initialSize memory = .ok created ∧
    run (pagedStep system size zero compareFunc) created calls =
      .ok (final, (runSpec (entriesStep compareFunc) [] calls).2) ∧
    final.1.allocatedPages ≤ max (minimumPages size initialSize)
      (usedPages size (runSpec (entriesStep compareFunc) [] calls).1.length + 1) ∧
    heapDestroy final.1 final.2 = .ok destroyed ∧ destroyed.2.mapped = memory.mapped

section Draining

variable [LinearOrder κ] {compareFunc : κ → κ → ℤ} {size : PageSize} {others : Finset ℕ}
  {minimum : ℕ} {h : PagedHeap κ υ} {memory : Mappings} {entries : List (HeapEntry κ υ)}

/-- The entries that the calls have inserted. -/
def inserted (calls : List (HeapCall κ υ)) : List (HeapEntry κ υ) :=
  calls.filterMap fun
    | .insert key value => some ⟨key, value⟩
    | _ => none

/-- The entries that the removals have answered with. -/
def removed (answers : List (HeapAnswer κ υ)) : List (HeapEntry κ υ) :=
  answers.filterMap fun
    | .removed found => found
    | _ => none

theorem isHeap_nil : IsHeap ([] : List (HeapEntry κ υ)) :=
  fun _ _ _ _ hparent ↦ nomatch hparent

/-- The loop of `destroy_queue` takes the entries in the order of their keys. -/
theorem drainHeap_sorts (hcompare : Compares compareFunc) {fuel : ℕ} (hfuel : entries.length < fuel)
    (hheap : IsHeap entries) (hholds : h.Holds size others minimum memory entries) :
    ∃ freed h' memory', drainHeap size compareFunc fuel (h, memory) = .ok (freed, h', memory') ∧
      freed.Perm entries ∧ freed.Pairwise (·.key ≤ ·.key) ∧
      h'.Holds size others minimum memory' [] := by
  induction fuel generalizing h memory entries with
  | zero => exact absurd hfuel (Nat.not_lt_zero _)
  | succ fuel ih =>
    obtain ⟨h', memory', hdelmin, hholds'⟩ := heapDelminPages_holds compareFunc hholds
    by_cases hempty : entries = []
    · subst hempty
      refine ⟨[], h', memory', ?_, List.Perm.refl _, List.Pairwise.nil, hholds'⟩
      rw [drainHeap, hdelmin]
      rfl
    · obtain ⟨root, rest, hfound, hrest, hperm, hmin⟩ := heapDelmin_spec hcompare hheap hempty
      rw [hfound] at hdelmin hholds'
      have hlength : rest.length + 1 = entries.length := hperm.length_eq
      obtain ⟨freed, last, memory'', hdrain, hfreed, hsorted, hlast⟩ :=
        ih (by omega) hrest hholds'
      refine ⟨root :: freed, last, memory'', ?_, (hfreed.cons root).trans hperm, ?_, hlast⟩
      · rw [drainHeap, hdelmin]
        simp only [Option.map_some, ok_bind, hdrain, pure_eq_ok]
      · refine List.pairwise_cons.mpr ⟨fun entry hentry ↦ ?_, hsorted⟩
        exact hmin entry (hperm.mem_iff.mp (List.mem_cons_of_mem root (hfreed.mem_iff.mp hentry)))

/-- A call moves entries into the heap and out of it. -/
theorem entriesStep_moves (hcompare : Compares compareFunc) (hheap : IsHeap entries)
    (call : HeapCall κ υ) : IsHeap (entriesStep compareFunc entries call).1 ∧
      (removed [(entriesStep compareFunc entries call).2] ++
        (entriesStep compareFunc entries call).1).Perm (entries ++ inserted [call]) := by
  cases call with
  | insert key value => exact heapInsert_spec hcompare hheap key value
  | delmin =>
    rw [entriesStep]
    by_cases hempty : entries = []
    · subst hempty
      exact ⟨hheap, List.Perm.refl _⟩
    · obtain ⟨root, rest, hfound, hrest, hperm, -⟩ := heapDelmin_spec hcompare hheap hempty
      rw [hfound]
      refine ⟨hrest, ?_⟩
      show (root :: rest).Perm (entries ++ [])
      rwa [List.append_nil]
  | min => exact ⟨hheap, List.Perm.of_eq (List.append_nil entries).symm⟩
  | size => exact ⟨hheap, List.Perm.of_eq (List.append_nil entries).symm⟩
  | foreach => exact ⟨hheap, List.Perm.of_eq (List.append_nil entries).symm⟩

/-- What a run has inserted is what it has removed and what is left. -/
theorem runSpec_moves (hcompare : Compares compareFunc) (hheap : IsHeap entries)
    (calls : List (HeapCall κ υ)) : IsHeap (runSpec (entriesStep compareFunc) entries calls).1 ∧
      (removed (runSpec (entriesStep compareFunc) entries calls).2 ++
        (runSpec (entriesStep compareFunc) entries calls).1).Perm (entries ++ inserted calls) := by
  induction calls generalizing entries with
  | nil => exact ⟨hheap, List.Perm.of_eq (List.append_nil entries).symm⟩
  | cons call rest ih =>
    obtain ⟨hnext, hstep⟩ := entriesStep_moves hcompare hheap call
    obtain ⟨hfinal, hrun⟩ := ih hnext
    have hanswers (answer : HeapAnswer κ υ) (answers : List (HeapAnswer κ υ)) :
        removed (answer :: answers) = removed [answer] ++ removed answers :=
      List.filterMap_append (l := [answer])
    have hcalls : inserted (call :: rest) = inserted [call] ++ inserted rest :=
      List.filterMap_append (l := [call])
    refine ⟨hfinal, ?_⟩
    rw [runSpec, hanswers, hcalls, List.append_assoc, ← List.append_assoc entries]
    refine (hrun.append_left _).trans ?_
    rw [← List.append_assoc]
    exact hstep.append_right _

/-- `destroy_queue` ends, and destroys what the calls have inserted and not removed, each entry
once and in the order of their keys. -/
def FreesQueued (system : Mmap) (size : PageSize) (zero : HeapEntry κ υ) (compareFunc : κ → κ → ℤ)
    (initialSize : ℤ) (memory : Mappings) (calls : List (HeapCall κ υ)) : Prop :=
  ∃ created final answers freed destroyed,
    heapCreate system size zero initialSize memory = .ok created ∧
    run (pagedStep system size zero compareFunc) created calls = .ok (final, answers) ∧
    destroyQueue size compareFunc final = .ok (freed, destroyed) ∧
    (removed answers ++ freed).Perm (inserted calls) ∧ freed.Pairwise (·.key ≤ ·.key) ∧
    destroyed.2.mapped = memory.mapped

end Draining

end FGDB.Queue
