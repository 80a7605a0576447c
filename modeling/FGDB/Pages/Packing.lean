import FGDB.Pages.Defragmentation

/-!
# Which pages are defragmented

The defragmentation of a page packs its values if and only if each of them still
shows its size at its old place once it was moved: it does not move, or it moves
by its whole length or more, or the bytes that slide onto its size spell it.
-/

namespace FGDB.Pages

open Foundation Memory Records HashMap
open FGDB.Vector (BoundedList Growth)

/-- The call packs the values of the page. -/
def Defragments (s : Storage) (pageId index : ℕ) (header : PageHeader) : Prop :=
  ∃ s' header', arenaDefragmentatePage s pageId index = .ok s' ∧
    s'.headers[index]? = some header' ∧ PagePacked s s' pageId header header'

theorem defragments_of_sizesKept {s : Storage} {pageId index : ℕ} {header : PageHeader}
    (hhere : s.headers[index]? = some header) (hpage : pageId < s.arena.allocatedPages)
    (hpacked : Packed (s.arenaImage pageId) header.places pageSize)
    (hkept : SizesKept (s.arenaImage pageId) header.places 0) :
    Defragments s pageId index header := by
  obtain ⟨pages, header', hdefrag, -, -, hpage⟩ :=
    arenaDefragmentatePage_eq hhere hpage hpacked hkept
  refine ⟨_, header', hdefrag, ?_, hpage⟩
  exact List.getElem?_set_self (List.getElem?_eq_some_iff.mp hhere).1

/-- The loop leaves the keys before its position as they are. -/
theorem defragmentateFrom_before {start blockId target stop : ℕ} {todo : List PageHeaderKey}
    {arena arena' : Arena} {keys keys' : BoundedList PageHeaderKey}
    (hloop : defragmentateFrom start todo blockId target (arena, keys) =
      .ok ((arena', keys'), stop)) {position : ℕ} (hlt : position < blockId) :
    keys'.contents[position]? = keys.contents[position]? := by
  induction todo generalizing blockId target arena keys with
  | nil =>
    cases hloop
    rfl
  | cons key rest ih =>
    obtain ⟨sizeBytes, -, hloop⟩ := bind_eq_ok.mp hloop
    obtain ⟨value, -, hloop⟩ := bind_eq_ok.mp hloop
    obtain ⟨moved, -, hloop⟩ := bind_eq_ok.mp hloop
    obtain ⟨again, -, hloop⟩ := bind_eq_ok.mp hloop
    rw [ih hloop (Nat.lt_succ_of_lt hlt)]
    exact List.getElem?_set_ne hlt.ne'

/-- The loop gives the key at its position the place it has reached. -/
theorem defragmentateFrom_here {start blockId target stop : ℕ} {key : PageHeaderKey}
    {rest : List PageHeaderKey} {arena arena' : Arena} {keys keys' : BoundedList PageHeaderKey}
    (hloop : defragmentateFrom start (key :: rest) blockId target (arena, keys) =
      .ok ((arena', keys'), stop)) (hlt : blockId < keys.contents.length) :
    keys'.contents[blockId]? = some { key with offset := wrap16 target } := by
  obtain ⟨sizeBytes, -, hloop⟩ := bind_eq_ok.mp hloop
  obtain ⟨value, -, hloop⟩ := bind_eq_ok.mp hloop
  obtain ⟨moved, -, hloop⟩ := bind_eq_ok.mp hloop
  obtain ⟨again, -, hloop⟩ := bind_eq_ok.mp hloop
  rw [defragmentateFrom_before hloop (Nat.lt_succ_self _)]
  exact List.getElem?_set_self hlt

theorem wrap16_cancel {target size other rest : ℕ} (hsize : size < 2 ^ 16) (hother : other < 2 ^ 16)
    (hle : target + (2 + size) + rest ≤ pageSize)
    (h : wrap16 (target + (2 + other) + rest) = target + (2 + size) + rest) : other = size := by
  unfold wrap16 at h
  unfold pageSize at hle
  omega

/-- If the keys got the places of a packed page and the loop ended behind them, every size was read
as it was. -/
theorem sizesKept_of_loop {start target stop : ℕ} {done todo : List PageHeaderKey}
    {arena arena' : Arena} {keys keys' : BoundedList PageHeaderKey}
    (hkeys : keys.contents = done ++ todo)
    (hpacked : Packed (arena.pages.window start) (todo.map PageHeaderKey.offset) pageSize)
    (hbelow : ∀ place ∈ todo.map PageHeaderKey.offset, target ≤ place)
    (howns : start + pageSize ≤ pageStart arena.allocatedPages)
    (hloop : defragmentateFrom start todo done.length target (arena, keys) =
      .ok ((arena', keys'), stop))
    (hplaces : (keys'.contents.drop done.length).map PageHeaderKey.offset =
      packedPlaces (arena.pages.window start) (todo.map PageHeaderKey.offset) target)
    (hstop : wrap16 stop =
      target + used (arena.pages.window start) (todo.map PageHeaderKey.offset)) :
    SizesKept (arena.pages.window start) (todo.map PageHeaderKey.offset) target := by
  induction todo generalizing arena keys done target with
  | nil => trivial
  | cons key rest ih =>
    rw [List.map_cons] at hpacked hbelow hplaces hstop ⊢
    have htarget := hbelow _ List.mem_cons_self
    have hmove := move_effect hpacked htarget
    have hinside := (packed_cons.mp hpacked).1
    obtain ⟨size, hsize⟩ : ∃ size, sizeAt (arena.pages.window start) key.offset = size := ⟨_, rfl⟩
    obtain ⟨pages1, hstep, hwindow, -⟩ :=
      @defragmentateFrom_cons start arena keys key rest done.length target htarget (by omega)
    rw [hstep] at hloop
    rw [← hwindow] at hmove
    have hsizeLt : size < 2 ^ 16 := hsize ▸ sizeAt_lt _ _
    have hrereadLt := reread_lt (arena.pages.window start) key.offset target
    have hend : target + (2 + size) ≤ pageSize := by
      unfold endAt at hinside
      omega
    have hcontents : (keys.set done.length { key with offset := wrap16 target }).contents =
        (done ++ [{ key with offset := target }]) ++ rest := by
      apply contents_set_moved hkeys
      omega
    have hreread : reread (arena.pages.window start) key.offset target = size := by
      cases rest with
      | nil =>
        cases hloop
        apply @wrap16_cancel target size _ 0 hsizeLt hrereadLt (by omega)
        simpa [used, hsize] using hstop
      | cons next later =>
        -- the place of the next key was set behind the size that was read
        have hlt : done.length + 1 < (keys.set done.length
            { key with offset := wrap16 target }).contents.length := by
          rw [hcontents]
          simp only [List.length_append, List.length_cons]
          omega
        have hnext := congrArg (Option.map PageHeaderKey.offset) (defragmentateFrom_here hloop hlt)
        have hsecond := congrArg (fun places ↦ places[1]?) hplaces
        simp only [List.getElem?_map, List.getElem?_drop, hnext, packedPlaces, List.map_cons, hsize,
          List.getElem?_cons_succ, List.getElem?_cons_zero, Option.map_some,
          Option.some.injEq] at hsecond
        exact @wrap16_cancel target size _ 0 hsizeLt hrereadLt (by omega) hsecond
    have hused : used (pages1.window start) (rest.map PageHeaderKey.offset) =
        used (arena.pages.window start) (rest.map PageHeaderKey.offset) :=
      used_eq_of_payloads hmove.payloads
    apply And.intro (hreread.trans hsize.symm)
    rw [← hmove.kept]
    rw [hreread] at hloop
    have hbelow' := hmove.below
    rw [hsize] at hbelow' ⊢
    apply @ih (target + (2 + size)) (done ++ [{ key with offset := target }])
      { arena with pages := pages1 } (keys.set done.length { key with offset := wrap16 target })
      hcontents hmove.packed hbelow' howns
    · rw [List.length_append, List.length_singleton]
      exact hloop
    · have htail := congrArg List.tail hplaces
      rw [← List.map_tail, List.tail_drop, packedPlaces, hsize] at htail
      rw [List.length_append, List.length_singleton, htail]
      exact (packedPlaces_congr hmove.sizes).symm
    · rw [hstop]
      change _ = target + (2 + size) + used (pages1.window start) _
      rw [hused, used, used, List.map_cons, List.sum_cons, hsize]
      omega

theorem eq_of_getElem?_set_self {α : Type} {l : List α} {index : ℕ} {a b : α}
    (h : (l.set index a)[index]? = some b) : b = a := by
  have hlt := (List.getElem?_eq_some_iff.mp h).1
  rw [List.length_set] at hlt
  rw [List.getElem?_set_self hlt] at h
  exact (Option.some.inj h).symm

theorem sizesKept_of_defragments {s : Storage} {pageId index : ℕ} {header : PageHeader}
    (hhere : s.headers[index]? = some header) (hpage : pageId < s.arena.allocatedPages)
    (hpacked : Packed (s.arenaImage pageId) header.places pageSize)
    (h : Defragments s pageId index header) : SizesKept (s.arenaImage pageId) header.places 0 := by
  obtain ⟨s', header', hdefrag, hhere', hpage'⟩ := h
  simp only [arenaDefragmentatePage, Storage.header, hhere, Option.elim_some, ok_bind] at hdefrag
  obtain ⟨⟨⟨arena, keys⟩, stop⟩, hloop, hdefrag⟩ := bind_eq_ok.mp hdefrag
  split at hdefrag
  · cases hdefrag
  · obtain ⟨arena', -, hdefrag⟩ := bind_eq_ok.mp hdefrag
    cases hdefrag
    have hheader' := eq_of_getElem?_set_self hhere'
    have hplaces := hpage'.places
    have hoffset := hpage'.offsetBytes
    rw [hheader'] at hplaces hoffset
    apply @sizesKept_of_loop (pageStart pageId) 0 stop [] header.keys.contents s.arena arena
      header.keys keys rfl hpacked (fun _ _ ↦ Nat.zero_le _) (pageStart_add_le hpage) hloop
    · exact hplaces
    · rw [Nat.zero_add]
      exact hoffset

/-- The values of a page in the arena, one behind another and inside it, are packed if and only if
each of them still shows its size at its old place once it was moved. -/
theorem defragments_iff {s : Storage} {pageId index : ℕ} {header : PageHeader}
    (hhere : s.headers[index]? = some header) (hpage : pageId < s.arena.allocatedPages)
    (hpacked : Packed (s.arenaImage pageId) header.places pageSize) :
    Defragments s pageId index header ↔ SizesKept (s.arenaImage pageId) header.places 0 :=
  ⟨sizesKept_of_defragments hhere hpage hpacked, defragments_of_sizesKept hhere hpage hpacked⟩

/-- The header of a page with one value behind a gap that a removed value left. -/
def gapHeader (gap : ℕ) (payload : List UInt8) : PageHeader where
  fragmentatedBytes := gap
  offsetBytes := gap + (2 + payload.length)
  keys := ⟨[⟨gap, 0⟩], 1, Nat.le_refl _⟩
  pLSN := 0
  pageId := 0
  arenaId := 0
  state := .dirty
  location := .inMemory

def gapStorage (gap : ℕ) (payload : List UInt8) : Storage where
  arena := ⟨1, 1, ⟨[gapHeader gap payload], 1, Nat.le_refl _⟩,
    store (fun _ ↦ 0) gap (record payload)⟩
  lru := newLruQueue
  disk := initDisk [] []
  metas := [⟨none, 0, 0⟩]

theorem gapStorage_packed {gap : ℕ} {payload : List UInt8}
    (h : endAt ((gapStorage gap payload).arenaImage 0) gap ≤ pageSize) :
    Packed ((gapStorage gap payload).arenaImage 0) (gapHeader gap payload).places pageSize :=
  packed_cons.mpr ⟨h, fun _ hmem ↦ absurd hmem List.not_mem_nil, packed_nil _ _⟩

/-- A value of one byte moves over a gap of its whole length. -/
theorem defragments_gap : Defragments (gapStorage 3 [98]) 0 0 (gapHeader 3 [98]) :=
  (defragments_iff rfl Nat.zero_lt_one (gapStorage_packed (by decide +kernel))).mpr
    (by decide +kernel)

/-- A value of four bytes slides over its own size. -/
theorem not_defragments_gap :
    (gapStorage 3 [98, 98, 98, 98]).headers[0]? = some (gapHeader 3 [98, 98, 98, 98]) ∧
      0 < (gapStorage 3 [98, 98, 98, 98]).arena.allocatedPages ∧
      Packed ((gapStorage 3 [98, 98, 98, 98]).arenaImage 0)
        (gapHeader 3 [98, 98, 98, 98]).places pageSize ∧
      ¬ Defragments (gapStorage 3 [98, 98, 98, 98]) 0 0 (gapHeader 3 [98, 98, 98, 98]) := by
  refine ⟨rfl, Nat.zero_lt_one, gapStorage_packed (by decide +kernel), ?_⟩
  rintro ⟨s', header', hdefrag, -⟩
  have hfails : (arenaDefragmentatePage (gapStorage 3 [98, 98, 98, 98]) 0 0).toOption.isSome =
      false := by decide +kernel
  rw [hdefrag] at hfails
  cases hfails

end FGDB.Pages
