import FGDB.Buddy.Requests
import FGDB.Pages.Meta

/-!
# The memory of the arena

The arena asks for its pages and a little more, which the allocator rounds down to
whole kilobytes, and it moves the start of its pages up to the next page boundary.
What the allocator adds when it rounds up to a power of two has to make up for this
move, so an arena of a power of two of pages reaches beyond its block.
-/

namespace FGDB.Buddy

open Foundation
open FGDB.Pages (pageSize)

/-- `sizeof(arena_t)`. -/
def sizeofArena : ℕ := 32

/-- The bytes that are asked for have 32 bits. -/
def arenaBytes (pages : ℕ) : ℕ := wrap32 (pages * pageSize + sizeofArena)

/-- The mask clears the bits of the address below a page. -/
def alignUp (ptr : ℕ) : ℕ := (ptr + pageSize) / pageSize * pageSize

/-- `new_arena`, with a pool that starts at the address `memory`: the block and the start of the
pages. -/
def newArena (memory : ℕ) (info : BuddyInfo) (pages : ℕ) :
    Outcome (BuddyInfo × (ℕ × ℕ) × ℕ) := do
  match ← buddyAlloc info (arenaBytes pages) with
  | (_, none) => .error .assertionFailed
  | (info, some block) => return (info, block, alignUp (memory + block.2))

/-- All bytes of the pages are in the block. -/
def PagesInside (memory level pages : ℕ) (block : ℕ × ℕ) (start : ℕ) : Prop :=
  ∀ byte, start ≤ byte → byte < start + pages * pageSize →
    memory + block.2 ≤ byte ∧ byte < memory + block.2 + capacity level block.1 * kb

theorem newArena_eq_ok {memory pages start : ℕ} {info info' : BuddyInfo} {block : ℕ × ℕ}
    (h : newArena memory info pages = .ok (info', block, start)) :
    buddyAlloc info (arenaBytes pages) = .ok (info', some block) ∧
      start = alignUp (memory + block.2) := by
  obtain ⟨⟨next, result⟩, halloc, hnext⟩ := bind_eq_ok.mp h
  cases result with
  | none => cases hnext
  | some found =>
    cases hnext
    exact ⟨halloc, rfl⟩

theorem alignUp_bounds (ptr : ℕ) : ptr < alignUp ptr ∧ alignUp ptr ≤ ptr + pageSize := by
  unfold alignUp pageSize
  omega

theorem pagesInside_iff {memory level pages : ℕ} {block : ℕ × ℕ} (hpages : pages ≠ 0) :
    PagesInside memory level pages block (alignUp (memory + block.2)) ↔
      alignUp (memory + block.2) + pages * pageSize ≤
        memory + block.2 + capacity level block.1 * kb := by
  have hbounds := alignUp_bounds (memory + block.2)
  have hbytes : 0 < pages * pageSize := Nat.mul_pos (Nat.pos_of_ne_zero hpages) (by decide)
  constructor
  · intro hinside
    have hlast := hinside (alignUp (memory + block.2) + pages * pageSize - 1) (by omega) (by omega)
    omega
  · intro hle byte hlow hhigh
    omega

/-- Up to `2 ^ 19` pages, the block of the pages has the next power of two of pages. -/
theorem Granted.arena_capacity {level pages : ℕ} {info info' : BuddyInfo} {block : ℕ × ℕ}
    (h : Granted level (arenaBytes pages) info info' block) (hpages : pages ≠ 0)
    (hsmall : pages < 2 ^ 19) : capacity level block.1 = 4 * 2 ^ Nat.clog 2 pages := by
  have hdiv : arenaBytes pages / kb = 2 * (2 * pages) := by
    rw [arenaBytes, wrap32, sizeofArena, pageSize, kb]
    omega
  have hclog : Nat.clog 2 (2 * (2 * pages)) = Nat.clog 2 pages + 2 := by
    have houter : (2 * (2 * pages) + 2 - 1) / 2 = 2 * pages := by omega
    have hinner : (2 * pages + 2 - 1) / 2 = pages := by omega
    rw [Nat.clog_of_two_le Nat.one_lt_two (by omega), houter,
      Nat.clog_of_two_le Nat.one_lt_two (by omega), hinner]
  have hsize : allocSize (arenaBytes pages) = 4 * 2 ^ Nat.clog 2 pages := by
    rw [allocSize_eq_requestSize (by omega), requestSize, hdiv, hclog, pow_add, Nat.mul_comm,
      show 2 ^ 2 = 4 from rfl]
  rcases h.size with heq | ⟨hlevel, hroot, hlarge⟩
  · exact heq.trans hsize
  · have hle : Nat.clog 2 pages ≤ 19 := Nat.clog_le_of_le_pow hsmall.le
    have hge : 18 < Nat.clog 2 pages := by
      rw [← Nat.pow_lt_pow_iff_right Nat.one_lt_two]
      omega
    rw [hroot, capacity_root, hlevel, show Nat.clog 2 pages = 19 by omega]
    decide

/-- All pages of a new arena are in its block exactly when there are none, or fewer than `2 ^ 19`
and not a power of two of them. -/
theorem newArena_inside_iff {size memory pages start : ℕ} {calls : List PoolCall} {pool : Pool}
    {outputs : List (Option ℕ)} {info : BuddyInfo} {block : ℕ × ℕ}
    (hcalls : EachStep poolStep FreesLive (newPool size) calls)
    (hrun : run poolStep (newPool size) calls = .ok (pool, outputs))
    (harena : newArena memory pool.info pages = .ok (info, block, start)) :
    PagesInside memory (buddyNew size).level pages block start ↔
      pages = 0 ∨ (pages < 2 ^ 19 ∧ ¬ pages.isPowerOfTwo) := by
  obtain ⟨halloc, rfl⟩ := newArena_eq_ok harena
  have hgranted := (kept_of_run hcalls hrun).granted (level_pos size) halloc
  by_cases hzero : pages = 0
  · apply iff_of_true _ (.inl hzero)
    intro byte hlow hhigh
    rw [hzero, Nat.zero_mul] at hhigh
    omega
  · rw [pagesInside_iff hzero, or_iff_right hzero]
    have hbounds := alignUp_bounds (memory + block.2)
    by_cases hsmall : pages < 2 ^ 19
    · rw [hgranted.arena_capacity hzero hsmall, and_iff_right hsmall]
      have hle := Nat.le_pow_clog Nat.one_lt_two pages
      rw [kb, pageSize] at *
      constructor
      · intro hinside hpow
        obtain ⟨e, rfl⟩ := hpow
        rw [Nat.clog_pow 2 e Nat.one_lt_two] at hinside
        omega
      · intro hpow
        have hlt : pages < 2 ^ Nat.clog 2 pages := lt_of_le_of_ne hle fun heq ↦ hpow ⟨_, heq⟩
        omega
    · apply iff_of_false
      · have hcapacity : capacity (buddyNew size).level block.1 ≤ 2 ^ 21 := by
          have hlevel := hgranted.level_le
          calc
            capacity (buddyNew size).level block.1 ≤ 2 ^ ((buddyNew size).level - 1) :=
              capacity_le _ _
            _ ≤ 2 ^ 21 := Nat.pow_le_pow_right Nat.two_pos (by omega)
        rw [kb, pageSize] at *
        omega
      · exact fun h ↦ hsmall h.1

/-- Three pages in a pool of sixteen kilobytes. -/
theorem newArena_inside_three_pages : ∃ info, newArena 100 (newPool 16).info 3 =
    .ok (info, (0, 0), 4096) ∧ PagesInside 100 (buddyNew 16).level 3 (0, 0) 4096 := by
  have hblock : (buddyAlloc (newPool 16).info (arenaBytes 3)).toOption.bind Prod.snd =
      some (0, 0) := by decide +kernel
  have hcalls : EachStep poolStep FreesLive (newPool 16) [] := trivial
  obtain ⟨info, halloc⟩ := exists_of_block hblock
  have harena : newArena 100 (newPool 16).info 3 = .ok (info, (0, 0), 4096) := by
    rw [newArena, halloc]
    rfl
  refine ⟨info, harena, (newArena_inside_iff hcalls rfl harena).mpr (.inr ⟨by decide, ?_⟩)⟩
  decide +kernel

/-- The only page of an arena begins where its block ends. -/
theorem not_newArena_inside_one_page : ¬ ∀ size memory pages calls pool outputs info block start,
    EachStep poolStep FreesLive (newPool size) calls →
    run poolStep (newPool size) calls = .ok (pool, outputs) →
    newArena memory pool.info pages = .ok (info, block, start) →
    PagesInside memory (buddyNew size).level pages block start := by
  intro hall
  have hblock : (buddyAlloc (newPool 4).info (arenaBytes 1)).toOption.bind Prod.snd =
      some (0, 0) := by decide +kernel
  obtain ⟨info, halloc⟩ := exists_of_block hblock
  have harena : newArena 0 (newPool 4).info 1 = .ok (info, (0, 0), 4096) := by
    rw [newArena, halloc]
    rfl
  have hinside := hall 4 0 1 [] (newPool 4) [] info (0, 0) 4096 trivial rfl harena 4096 le_rfl
    (by decide)
  exact absurd hinside.2 (by decide +kernel)

end FGDB.Buddy
