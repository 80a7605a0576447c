import FGDB.Buddy.ArenaPages
import FGDB.Buddy.DoubleFree

/-!
# The release of the arena

The arena is released by the start of its pages, which lies inside its block.
The climb halves the position of this leaf, and the half of a right child is the
node beside its parent. From any leaf but the first one of the block it therefore
passes the block on the right, and comes back to it only below the root.
-/

namespace FGDB.Buddy

open Foundation
open FGDB.Pages (pageSize)

/-- `destroy_arena`. -/
def destroyArena (memory : ℕ) (info : BuddyInfo) (start : ℕ) : Outcome BuddyInfo :=
  buddyFree info (start - memory)

/-- The call returns, and of the USED nodes exactly the given one is not USED any more. -/
def ReleasesBlock (memory : ℕ) (info : BuddyInfo) (start pos : ℕ) : Prop :=
  ∃ info', destroyArena memory info start = .ok info' ∧
    ∀ m, info'.tree m = .used ↔ m ≠ pos ∧ info.tree m = .used

/-- The pages start in the first chunk of the block, or they start in the pool and the climb comes
back to the block. -/
def LeadsBack (level memory : ℕ) (tree : ℕ → BlockState) (start : ℕ) (block : ℕ × ℕ) : Prop :=
  start < memory + block.2 + kb ∨ start < memory + 2 ^ (level - 1) * kb ∧
    (block.1 = 0 ∨ block.1 = 1 ∧ tree 2 = .free ∨
      level = 3 ∧ block.1 = 3 ∧ memory + 3 * kb ≤ start ∧ tree 6 = .free)

instance (level memory : ℕ) (tree : ℕ → BlockState) (start : ℕ) (block : ℕ × ℕ) :
    Decidable (LeadsBack level memory tree start block) :=
  inferInstanceAs (Decidable (_ ∨ _))

section Climb

variable {tree : ℕ → BlockState} {level pos leaf : ℕ}

/-- The climb ends at a USED node if and only if it passes only FREE ones before it. -/
theorem climb_eq_iff (hused : tree pos = .used) : climb tree leaf = pos ↔
    ∃ height, leaf / 2 ^ height = pos ∧ ∀ below < height, tree (leaf / 2 ^ below) = .free := by
  obtain ⟨last, hend, hfree, hroot⟩ := climb_spec tree leaf
  constructor
  · intro hpos
    exact ⟨last, hend.symm.trans hpos, hfree⟩
  · rintro ⟨height, hhalf, hbelow⟩
    rw [hend]
    rcases lt_trichotomy last height with hlt | rfl | hgt
    · have hzero := hroot (hbelow last hlt)
      have hle : leaf / 2 ^ height ≤ leaf / 2 ^ last :=
        Nat.div_le_div_left (Nat.pow_le_pow_right Nat.two_pos hlt.le) (Nat.two_pow_pos _)
      omega
    · exact hhalf
    · have hstate := hfree height hgt
      rw [hhalf, hused] at hstate
      cases hstate

variable {offset : ℕ}

/-- Halving a leaf that lies behind the first one of a block leads to the block only at the left
edge of the tree. -/
theorem half_cases (hinside : depth pos < level) (hsize : capacity level pos = 1 ∨
    4 ≤ capacity level pos) (hleaf : leaf + 1 = (pos + 1) * capacity level pos + offset)
    (hpos : 0 < offset) (hoffset : offset ≤ 4) (hlt : leaf + 1 < 2 ^ level) {height : ℕ}
    (hhalf : leaf / 2 ^ height = pos) :
    level - 1 - depth pos < height ∧
      (pos = 0 ∨ pos = 1 ∨ level = 3 ∧ pos = 3 ∧ offset = 3) := by
  have hdeep : level - 1 - depth pos < height := by
    by_contra hle
    have hpow : (pos + 1) * 2 ^ height ≤ (pos + 1) * capacity level pos :=
      Nat.mul_le_mul_left _ (Nat.pow_le_pow_right Nat.two_pos (Nat.le_of_not_lt hle))
    have hhigh : pos + 1 ≤ leaf / 2 ^ height :=
      (Nat.le_div_iff_mul_le (Nat.two_pow_pos _)).mpr (by omega)
    omega
  have htwice : 2 * capacity level pos ≤ 2 ^ height := by
    rw [capacity, ← pow_succ']
    exact Nat.pow_le_pow_right Nat.two_pos hdeep
  refine ⟨hdeep, ?_⟩
  have hmul : pos * (2 * capacity level pos) ≤ leaf :=
    calc pos * (2 * capacity level pos) ≤ pos * 2 ^ height := Nat.mul_le_mul_left _ htwice
      _ = leaf / 2 ^ height * 2 ^ height := by rw [hhalf]
      _ ≤ leaf := Nat.div_mul_le_self _ _
  have hstep : (pos + 1) * capacity level pos = pos * capacity level pos + capacity level pos :=
    Nat.succ_mul _ _
  have hdouble : pos * (2 * capacity level pos) = 2 * (pos * capacity level pos) :=
    Nat.mul_left_comm _ _ _
  rcases hsize with hone | hfour
  · rw [hone, Nat.mul_one] at hmul hstep hleaf
    have hdepth : depth pos = level - 1 := by
      have hexp : level - 1 - depth pos = 0 := by
        by_contra hne
        have htwo := Nat.one_lt_two_pow hne
        rw [← capacity, hone] at htwo
        omega
      omega
    have hlevel : level = depth pos + 1 := by omega
    have hle : pos ≤ 4 := by omega
    have hdepths : depth 2 = 1 ∧ depth 3 = 2 ∧ depth 4 = 2 := by decide +kernel
    have hcases : pos = 0 ∨ pos = 1 ∨ pos = 2 ∨ pos = 3 ∨ pos = 4 := by omega
    rcases hcases with rfl | rfl | rfl | rfl | rfl
    · exact .inl rfl
    · exact .inr (.inl rfl)
    · rw [hlevel, hdepths.1] at hlt
      omega
    · rw [hlevel, hdepths.2.1] at hlt ⊢
      omega
    · rw [hlevel, hdepths.2.2] at hlt
      omega
  · by_cases hle : pos ≤ 1
    · omega
    · have hlarge := Nat.mul_le_mul_right (capacity level pos) (Nat.lt_of_not_le hle)
      omega

/-- A node of the tree is the root or under one of its children. -/
theorem eq_zero_or_under (m : ℕ) : m = 0 ∨ Under 1 m ∨ Under 2 m := (Under.root m).cases_child

theorem climb_eq_root (hfree : ChildrenFree tree) (hused : tree 0 = .used) :
    climb tree leaf = 0 := by
  obtain ⟨last, hend, -, hroot⟩ := climb_spec tree leaf
  rw [hend]
  by_contra hne
  apply hne
  apply hroot
  apply hfree.under _ (Under.root _) hne
  rw [hused]
  exact nofun

/-- The climb from a leaf behind the left half of the pool passes the right half. -/
theorem climb_eq_one_iff (hfree : ChildrenFree tree) (hused : tree 1 = .used) {height : ℕ}
    (hhalf : leaf / 2 ^ height = 2) (hdeep : ∀ last, leaf / 2 ^ last = 1 → height < last) :
    climb tree leaf = 1 ↔ tree 2 = .free := by
  rw [climb_eq_iff hused]
  constructor
  · rintro ⟨last, hlast, hbelow⟩
    rw [← hhalf]
    exact hbelow height (hdeep last hlast)
  · intro htwo
    have hone : leaf / 2 ^ (height + 1) = 1 := by
      rw [pow_succ, ← Nat.div_div_eq_div_mul, hhalf]
    refine ⟨height + 1, hone, fun below hbelow ↦ ?_⟩
    have hle : 2 ≤ leaf / 2 ^ below :=
      calc 2 = leaf / 2 ^ height := hhalf.symm
        _ ≤ leaf / 2 ^ below :=
          Nat.div_le_div_left (Nat.pow_le_pow_right Nat.two_pos (Nat.le_of_lt_succ hbelow))
            (Nat.two_pow_pos _)
    rcases eq_zero_or_under (leaf / 2 ^ below) with hzero | hleft | hright
    · omega
    · exact hfree.under (by rw [hused]; exact nofun) hleft (by omega)
    · by_cases heq : leaf / 2 ^ below = 2
      · rwa [heq]
      · exact hfree.under (by rw [htwo]; exact nofun) hright heq

/-- The climb from a leaf behind the first one of a USED block. -/
theorem climb_beyond_iff (hfree : ChildrenFree tree) (hused : tree pos = .used)
    (hinside : depth pos < level) (hsize : capacity level pos = 1 ∨ 4 ≤ capacity level pos)
    (hleaf : leaf + 1 = (pos + 1) * capacity level pos + offset) (hpos : 0 < offset)
    (hoffset : offset ≤ 4) (hlt : leaf + 1 < 2 ^ level) :
    climb tree leaf = pos ↔ pos = 0 ∨ pos = 1 ∧ tree 2 = .free ∨
      level = 3 ∧ pos = 3 ∧ offset = 3 ∧ tree 6 = .free := by
  have hcases {height : ℕ} (hhalf : leaf / 2 ^ height = pos) :=
    half_cases hinside hsize hleaf hpos hoffset hlt hhalf
  by_cases hzero : pos = 0
  · subst hzero
    exact iff_of_true (climb_eq_root hfree hused) (.inl rfl)
  · by_cases hone : pos = 1
    · subst hone
      have hdepth : depth 1 = 1 := by decide +kernel
      have hfew : offset ≤ capacity level 1 := by
        rcases hsize with hsingle | hfour
        · have hlevel : level - 1 - depth 1 = 0 := by
            by_contra hne
            have htwo := Nat.one_lt_two_pow hne
            rw [← capacity, hsingle] at htwo
            omega
          rw [show level = 2 by omega] at hlt
          omega
        · omega
      have hhalf : leaf / 2 ^ (level - 1 - depth 1) = 2 := by
        rw [← capacity]
        apply Nat.div_eq_of_lt_le <;> omega
      rw [climb_eq_one_iff hfree hused hhalf fun last hlast ↦ (hcases hlast).1]
      constructor
      · exact fun htwo ↦ .inr (.inl ⟨rfl, htwo⟩)
      · rintro (hroot | ⟨-, htwo⟩ | ⟨-, hthree, -⟩)
        · cases hroot
        · exact htwo
        · exact absurd hthree (by decide)
    · constructor
      · intro hclimb
        obtain ⟨height, hhalf, hbelow⟩ := (climb_eq_iff hused).mp hclimb
        obtain ⟨-, hroot | hleft | ⟨rfl, rfl, rfl⟩⟩ := hcases hhalf
        · exact absurd hroot hzero
        · exact absurd hleft hone
        · have hcapacity : capacity 3 3 = 1 := by decide +kernel
          have hsix : leaf = 6 := by
            rw [hcapacity] at hleaf
            omega
          rw [hsix] at hbelow hhalf
          have hpositive : 0 < height := by
            rw [Nat.pos_iff_ne_zero]
            rintro rfl
            cases hhalf
          exact .inr (.inr ⟨rfl, rfl, rfl, hbelow 0 hpositive⟩)
      · rintro (hroot | ⟨hleft, -⟩ | ⟨rfl, rfl, rfl, hsix⟩)
        · exact absurd hroot hzero
        · exact absurd hleft hone
        · have hcapacity : capacity 3 3 = 1 := by decide +kernel
          have hleaf : leaf = 6 := by
            rw [hcapacity] at hleaf
            omega
          subst hleaf
          refine (climb_eq_iff hused).mpr ⟨1, rfl, fun below hbelow ↦ ?_⟩
          rw [Nat.lt_one_iff.mp hbelow]
          exact hsix

end Climb

section Release

variable {level size memory start : ℕ} {pool : Pool} {block : ℕ × ℕ}

/-- The release of a live block by any address. -/
theorem Kept.releases_iff_climb (h : Kept level pool) (hpos : 0 < level) (hblock : block ∈ pool.live)
    {chunk : ℕ} (hchunk : (start - memory) / minChunk = chunk) :
    ReleasesBlock memory pool.info start block.1 ↔ chunk < 2 ^ (level - 1) ∧
      climb pool.info.tree (2 ^ (level - 1) + chunk - 1) = block.1 := by
  have hlive := h.used_of_live hblock
  by_cases hin : chunk < 2 ^ (level - 1)
  · rw [and_iff_right hin, ReleasesBlock, destroyArena, h.buddyFree_eq hpos hchunk hin]
    obtain ⟨pos, hclimb⟩ : ∃ pos, climb pool.info.tree (2 ^ (level - 1) + chunk - 1) = pos :=
      ⟨_, rfl⟩
    rw [hclimb]
    by_cases hused : pool.info.tree pos = .used
    · have hkept := (release_keeps h.childrenFree hused).2
      rw [if_pos hused]
      constructor
      · rintro ⟨info', hfree, hmarked⟩
        cases hfree
        by_contra hne
        exact ((hkept pos).mp ((hmarked pos).mpr ⟨hne, hused⟩)).1 rfl
      · rintro rfl
        exact ⟨_, rfl, hkept⟩
    · rw [if_neg hused]
      apply iff_of_false
      · rintro ⟨info', hfree, -⟩
        cases hfree
      · rintro rfl
        exact hused hlive
  · apply iff_of_false _ fun hboth ↦ hin hboth.1
    have hpow : 2 ^ level = 2 * 2 ^ (level - 1) := by
      rw [← pow_succ', Nat.sub_add_cancel hpos]
    have hleaves : pool.info.leaves ≤ 1 <<< (pool.info.level - 1) + (start - memory) / minChunk - 1 := by
      rw [h.leaves_eq, h.level_eq, hchunk, Nat.one_shiftLeft]
      omega
    rintro ⟨info', hfree, -⟩
    rw [destroyArena, buddyFree] at hfree
    simp only [if_pos hleaves] at hfree
    cases hfree

/-- The pages of a live block start up to four chunks behind it. -/
theorem Kept.leadsBack_iff (h : Kept level pool) (hpos : 0 < level) (hblock : block ∈ pool.live)
    (hsize : capacity level block.1 = 1 ∨ 4 ≤ capacity level block.1)
    (hstart : alignUp (memory + block.2) = start) :
    ReleasesBlock memory pool.info start block.1 ↔
      LeadsBack level memory pool.info.tree start block := by
  have hinside := h.inside block hblock
  have haddress := h.address block hblock
  have hused := h.used_of_live hblock
  have halign := alignUp_bounds (memory + block.2)
  have hbounds := firstLeaf_bounds hinside
  have hcapacity : 0 < capacity level block.1 := Nat.two_pow_pos _
  have hpow : 2 ^ level = 2 * 2 ^ (level - 1) := by
    rw [← pow_succ', Nat.sub_add_cancel hpos]
  obtain ⟨chunk, hchunk⟩ : ∃ chunk, (start - memory) / minChunk = chunk := ⟨_, rfl⟩
  rw [h.releases_iff_climb hpos hblock hchunk, LeadsBack, haddress]
  rw [hstart, haddress] at halign
  unfold minChunk kb at *
  unfold pageSize at halign
  obtain ⟨offset, rfl⟩ : ∃ offset, chunk = firstLeaf level block.1 + offset :=
    Nat.exists_eq_add_of_le (by omega)
  by_cases hoffset : offset = 0
  · apply iff_of_true _ (.inl (by omega))
    refine ⟨by omega, ?_⟩
    have hclimb := climb_eq h.childrenFree hused (level - 1 - depth block.1)
    rw [← capacity, ← hbounds.1] at hclimb
    rwa [hoffset, Nat.add_zero, Nat.add_comm]
  · have hfirst : ¬ start < memory + firstLeaf level block.1 * 2 ^ 10 + 2 ^ 10 := by omega
    have hpool : firstLeaf level block.1 + offset < 2 ^ (level - 1) ↔
        start < memory + 2 ^ (level - 1) * 2 ^ 10 := by omega
    rw [or_iff_right hfirst, hpool]
    apply and_congr_right
    intro hlast
    rw [climb_beyond_iff h.childrenFree hused hinside hsize
      (by omega : 2 ^ (level - 1) + (firstLeaf level block.1 + offset) - 1 + 1 =
        (block.1 + 1) * capacity level block.1 + offset) (by omega) (by omega) (by omega)]
    have hthree (hlevel : level = 3) (hleft : block.1 = 3) :
        offset = 3 ↔ memory + 3 * 2 ^ 10 ≤ start := by
      have hzero : firstLeaf level block.1 = 0 := by
        rw [hlevel, hleft]
        decide +kernel
      have hfour : 2 ^ (level - 1) = 4 := by
        rw [hlevel]
        rfl
      omega
    constructor
    · rintro (hroot | hleft | ⟨hlevel, hleaf, hthird, hsix⟩)
      · exact .inl hroot
      · exact .inr (.inl hleft)
      · exact .inr (.inr ⟨hlevel, hleaf, (hthree hlevel hleaf).mp hthird, hsix⟩)
    · rintro (hroot | hleft | ⟨hlevel, hleaf, hthird, hsix⟩)
      · exact .inl hroot
      · exact .inr (.inl hleft)
      · exact .inr (.inr ⟨hlevel, hleaf, (hthree hlevel hleaf).mpr hthird, hsix⟩)

/-- The block of an arena has one chunk, or at least four. -/
theorem Granted.arena_chunks {pages : ℕ} {info info' : BuddyInfo}
    (h : Granted level (arenaBytes pages) info info' block) :
    capacity level block.1 = 1 ∨ 4 ≤ capacity level block.1 := by
  rcases h.size with hsize | ⟨hlevel, hroot, -⟩
  · rw [hsize, allocSize_eq]
    have hchunks : wrap32 (arenaBytes pages / kb) = 0 ∨ 4 ≤ wrap32 (arenaBytes pages / kb) := by
      rw [arenaBytes, wrap32, wrap32, sizeofArena, pageSize, kb]
      omega
    rcases hchunks with hzero | hfour
    · rw [hzero]
      exact .inl (by decide +kernel)
    · exact .inr (hfour.trans (le_pow_bsqrt _))
  · rw [hlevel, hroot, capacity_root]
    exact .inr (by decide)

/-- Calls that do not release the block leave it live. -/
theorem live_of_run {later : Pool} {between : List PoolCall} {outputs : List (Option ℕ)}
    (hlive : block ∈ pool.live)
    (hbetween : EachStep poolStep (fun pool call ↦ FreesLive pool call ∧ call ≠ .free block.2) pool
      between)
    (hrun : run poolStep pool between = .ok (later, outputs)) : block ∈ later.live := by
  apply @run_invariant _ _ _ _ _ (fun pool ↦ block ∈ pool.live) _ pool later between outputs hlive
    hbetween hrun
  intro before call after output hmem hcall hstep
  cases call with
  | alloc bytes =>
    obtain ⟨⟨info, result⟩, -, hnext⟩ := bind_eq_ok.mp hstep
    cases hnext
    exact List.mem_append_left _ hmem
  | free ptr =>
    obtain ⟨info, -, hnext⟩ := bind_eq_ok.mp hstep
    cases hnext
    apply (List.mem_eraseP_of_neg _).mpr hmem
    rw [decide_eq_true_iff]
    rintro rfl
    exact hcall.2 rfl

end Release

/-- Whatever is asked for and released between the two calls, the release of the arena releases its
block and no other if and only if its pages lead back to the block. -/
theorem releasesBlock_iff {size memory pages start : ℕ} {before between : List PoolCall}
    {pool later : Pool} {outputs outputs' : List (Option ℕ)} {info : BuddyInfo} {block : ℕ × ℕ}
    (hbefore : EachStep poolStep FreesLive (newPool size) before)
    (hrun : run poolStep (newPool size) before = .ok (pool, outputs))
    (harena : newArena memory pool.info pages = .ok (info, block, start))
    (hbetween : EachStep poolStep (fun pool call ↦ FreesLive pool call ∧ call ≠ .free block.2)
      ⟨info, pool.live ++ [block]⟩ between)
    (hlater : run poolStep ⟨info, pool.live ++ [block]⟩ between = .ok (later, outputs')) :
    ReleasesBlock memory later.info start block.1 ↔
      LeadsBack (buddyNew size).level memory later.info.tree start block := by
  obtain ⟨halloc, hstart⟩ := newArena_eq_ok harena
  have hpos := level_pos size
  have hkept := kept_of_run hbefore hrun
  have hgranted := hkept.granted hpos halloc
  have hasked : FreesLive pool (.alloc (arenaBytes pages)) := trivial
  have harenaKept := (hkept.moves hpos hasked (poolStep_alloc halloc)).kept hkept
  have hlaterKept : Kept (buddyNew size).level later :=
    run_invariant (fun _ _ _ _ h hcall hstep ↦ (h.moves hpos hcall.1 hstep).kept h) harenaKept
      hbetween hlater
  have hlive := live_of_run (List.mem_append_right _ List.mem_cons_self) hbetween hlater
  exact hlaterKept.leadsBack_iff hpos hlive hgranted.arena_chunks hstart.symm

/-- An arena in an empty pool and a run after it that are computed. -/
theorem exists_arena {size memory pages : ℕ} {between : List PoolCall}
    {p : ℕ × ℕ → ℕ → Pool → Prop} [∀ block start, DecidablePred (p block start)]
    (h : (newArena memory (newPool size).info pages).toOption.any (fun arena ↦
      decide (EachStep poolStep (fun pool call ↦ FreesLive pool call ∧ call ≠ .free arena.2.1.2)
        ⟨arena.1, [arena.2.1]⟩ between ∧ (run poolStep ⟨arena.1, [arena.2.1]⟩
          between).toOption.any (fun result ↦ decide (p arena.2.1 arena.2.2 result.1)) = true)) =
            true) :
    ∃ info block start later outputs,
      newArena memory (newPool size).info pages = .ok (info, block, start) ∧
        EachStep poolStep (fun pool call ↦ FreesLive pool call ∧ call ≠ .free block.2)
          ⟨info, [block]⟩ between ∧
        run poolStep ⟨info, [block]⟩ between = .ok (later, outputs) ∧ p block start later := by
  cases harena : newArena memory (newPool size).info pages with
  | error fault =>
    rw [harena] at h
    cases h
  | ok arena =>
    rw [harena] at h
    obtain ⟨hbetween, hlater⟩ := of_decide_eq_true h
    obtain ⟨later, outputs, hrun, hp⟩ := exists_run_of_any hlater
    exact ⟨arena.1, arena.2.1, arena.2.2, later, outputs, rfl, hbetween, hrun, hp⟩

/-- The pages of this arena start in the first chunk of its block. -/
theorem releasesBlock_first_chunk : ∃ info block start later outputs,
    newArena 4000 (newPool 16).info 1 = .ok (info, block, start) ∧
      run poolStep ⟨info, [block]⟩ [.alloc 4096, .alloc 1024, .free 4096] = .ok (later, outputs) ∧
        ReleasesBlock 4000 later.info start block.1 := by
  obtain ⟨info, block, start, later, outputs, harena, hbetween, hlater, hback⟩ :
      ∃ info block start later outputs,
        newArena 4000 (newPool 16).info 1 = .ok (info, block, start) ∧
          EachStep poolStep (fun pool call ↦ FreesLive pool call ∧ call ≠ .free block.2)
            ⟨info, [block]⟩ [.alloc 4096, .alloc 1024, .free 4096] ∧
          run poolStep ⟨info, [block]⟩ [.alloc 4096, .alloc 1024, .free 4096] =
            .ok (later, outputs) ∧
          LeadsBack (buddyNew 16).level 4000 later.info.tree start block :=
    exists_arena (by decide +kernel)
  have hempty : EachStep poolStep FreesLive (newPool 16) [] := trivial
  exact ⟨info, block, start, later, outputs, harena, hlater,
    (releasesBlock_iff hempty rfl harena hbetween hlater).mpr hback⟩

/-- The release of an arena in the left half of the pool releases the right half. -/
theorem not_releasesBlock_beside : ∃ info block start later outputs,
    newArena 0 (newPool 8).info 1 = .ok (info, block, start) ∧
      EachStep poolStep (fun pool call ↦ FreesLive pool call ∧ call ≠ .free block.2)
        ⟨info, [block]⟩ [.alloc 4096] ∧
      run poolStep ⟨info, [block]⟩ [.alloc 4096] = .ok (later, outputs) ∧
        ¬ ReleasesBlock 0 later.info start block.1 := by
  obtain ⟨info, block, start, later, outputs, harena, hbetween, hlater, hblock, hright⟩ :
      ∃ info block start later outputs,
        newArena 0 (newPool 8).info 1 = .ok (info, block, start) ∧
          EachStep poolStep (fun pool call ↦ FreesLive pool call ∧ call ≠ .free block.2)
            ⟨info, [block]⟩ [.alloc 4096] ∧
          run poolStep ⟨info, [block]⟩ [.alloc 4096] = .ok (later, outputs) ∧ block.1 = 1 ∧
          ((destroyArena 0 later.info start).toOption.map fun info' ↦ info'.tree 1) =
            some .used := exists_arena (by decide +kernel)
  refine ⟨info, block, start, later, outputs, harena, hbetween, hlater, ?_⟩
  rintro ⟨info', hdestroy, hmarked⟩
  rw [hdestroy] at hright
  exact ((hmarked 1).mp (Option.some.inj hright)).1 hblock.symm

end FGDB.Buddy
