import FGDB.Buddy.Pool

/-!
# Double frees in the buddy allocator

A second release of a pointer climbs from the first leaf of its block to the first node
that is not FREE, by halving the position. As long as the leaf is the first one under
the ancestor this is the ancestor, and from then on the node to the right of it. The
release is noticed when that node is SPLIT, or the root; when it is USED, the block of
another pointer is released.
-/

namespace FGDB.Buddy

open Foundation

variable {level size : ℕ} {pool earlier : Pool} {block : ℕ × ℕ}

/-- The position of the first leaf under a node. -/
def leafPos (level pos : ℕ) : ℕ := firstLeaf level pos + 2 ^ (level - 1) - 1

/-- Where the climb from a node ends. -/
theorem climb_spec (tree : ℕ → BlockState) (pos : ℕ) : ∃ height,
    climb tree pos = pos / 2 ^ height ∧ (∀ below < height, tree (pos / 2 ^ below) = .free) ∧
      (tree (pos / 2 ^ height) = .free → pos / 2 ^ height = 0) := by
  fun_induction climb tree pos with
  | case1 pos hclimb ih =>
    obtain ⟨height, hend, hfree, hroot⟩ := ih
    have hhalf (j : ℕ) : pos / 2 / 2 ^ j = pos / 2 ^ (j + 1) := by
      rw [Nat.div_div_eq_div_mul, pow_succ']
    rw [hhalf] at hend hroot
    refine ⟨height + 1, hend, fun below hbelow ↦ ?_, hroot⟩
    cases below with
    | zero =>
      rw [pow_zero, Nat.div_one]
      exact hclimb.2
    | succ below =>
      rw [← hhalf]
      exact hfree below (Nat.lt_of_succ_lt_succ hbelow)
  | case2 pos hstop =>
    refine ⟨0, (Nat.div_one pos).symm, nofun, fun hfree ↦ ?_⟩
    rw [pow_zero, Nat.div_one] at hfree ⊢
    by_contra hpos
    exact hstop ⟨Nat.pos_of_ne_zero hpos, hfree⟩

/-- On the way up from the leaf no USED node comes before a SPLIT one. -/
def NoUsedFirst (tree : ℕ → BlockState) (leaf : ℕ) : Prop :=
  ∀ height, tree (leaf / 2 ^ height) = .used → ∃ below < height, tree (leaf / 2 ^ below) = .split

/-- When the climb does not end at a USED node, the release is a double free. -/
theorem climb_noUsedFirst {tree : ℕ → BlockState} {leaf : ℕ} :
    tree (climb tree leaf) ≠ .used ↔ NoUsedFirst tree leaf := by
  obtain ⟨height, hend, hfree, hroot⟩ := climb_spec tree leaf
  rw [hend]
  constructor
  · intro hopen above habove
    cases hstate : tree (leaf / 2 ^ height) with
    | used => exact absurd hstate hopen
    | split =>
      refine ⟨height, ?_, hstate⟩
      by_contra hle
      rcases Nat.lt_or_eq_of_le (Nat.le_of_not_lt hle) with hlt | heq
      · rw [hfree above hlt] at habove
        cases habove
      · rw [heq, hstate] at habove
        cases habove
    | free =>
      by_cases hlt : above < height
      · rw [hfree above hlt] at habove
        cases habove
      · have hzero : leaf / 2 ^ above = 0 := by
          apply Nat.eq_zero_of_le_zero
          calc
            leaf / 2 ^ above ≤ leaf / 2 ^ height :=
              Nat.div_le_div_left (Nat.pow_le_pow_right Nat.two_pos (Nat.le_of_not_lt hlt))
                (Nat.two_pow_pos _)
            _ = 0 := hroot hstate
        rw [hzero, ← hroot hstate, hstate] at habove
        cases habove
  · intro hnone hused
    obtain ⟨below, hlt, hsplit⟩ := hnone height hused
    rw [hfree below hlt] at hsplit
    cases hsplit

/-- A release of any place in a pool of a run: it climbs to a USED node, or it exits. -/
theorem Kept.buddyFree_eq (h : Kept level pool) {offset chunk : ℕ} (hpos : 0 < level)
    (hchunk : offset / minChunk = chunk) (hin : chunk < 2 ^ (level - 1)) :
    buddyFree pool.info offset =
      if pool.info.tree (climb pool.info.tree (2 ^ (level - 1) + chunk - 1)) = .used then
        .ok { pool.info with
          used := wrap32 (pool.info.used + (2 ^ 32 - capasityFromPos level
            (climb pool.info.tree (2 ^ (level - 1) + chunk - 1))))
          tree := buddyMerge (Function.update pool.info.tree
            (climb pool.info.tree (2 ^ (level - 1) + chunk - 1)) .free)
              (climb pool.info.tree (2 ^ (level - 1) + chunk - 1)) }
      else .error .exit := by
  obtain ⟨rfl⟩ := h.level_eq
  have hpow : 2 ^ pool.info.level = 2 * 2 ^ (pool.info.level - 1) := by
    rw [← pow_succ', Nat.sub_add_cancel hpos]
  obtain ⟨leaf, hleaf⟩ : ∃ leaf, 2 ^ (pool.info.level - 1) + chunk - 1 = leaf := ⟨_, rfl⟩
  have hinside : ¬ pool.info.leaves ≤ leaf := by
    rw [h.leaves]
    omega
  have hdeep : pool.info.tree leaf ≠ .split := by
    intro hsplit
    have hdepth := h.splitInside _ hsplit
    have hlow : depth leaf = pool.info.level - 1 := by
      rw [depth, Nat.log_eq_iff (by omega), Nat.sub_add_cancel hpos]
      omega
    omega
  rw [buddyFree, Nat.one_shiftLeft, hchunk, hleaf]
  simp only [if_neg hinside]
  cases hstate : pool.info.tree leaf with
  | split => exact absurd hstate hdeep
  | used =>
    have hstop : climb pool.info.tree leaf = leaf := by
      rw [climb, if_neg]
      rw [hstate]
      rintro ⟨-, hfree⟩
      cases hfree
    simp only [hstop, hstate, pure_eq_ok, if_true]
  | free =>
    have hfree : ¬ BlockState.free = .used := by decide
    have hsplit : ¬ BlockState.split = .used := by decide
    cases pool.info.tree (climb pool.info.tree leaf) with
    | used => simp only [pure_eq_ok, if_true]
    | free => simp only [if_neg hfree]
    | split => simp only [if_neg hsplit]

/-- A release of the place of a node in any pool of a run. -/
theorem Kept.free_exits_iff (h : Kept level pool) {pos : ℕ} (hinside : depth pos < level) :
    buddyFree pool.info (firstLeaf level pos * kb) = .error .exit ↔
      NoUsedFirst pool.info.tree (leafPos level pos) := by
  have hbounds := firstLeaf_bounds hinside
  have hcapacity : 0 < capacity level pos := Nat.two_pow_pos _
  have hchunk : firstLeaf level pos * kb / minChunk = firstLeaf level pos := by
    rw [minChunk, Nat.one_mul, Nat.mul_div_cancel _ kb_pos]
  rw [← climb_noUsedFirst, leafPos, Nat.add_comm,
    h.buddyFree_eq (by omega) hchunk (by omega)]
  split_ifs with hused
  · apply iff_of_false _ fun hne ↦ hne hused
    intro hok
    cases hok
  · exact iff_of_true rfl hused

/-- The block was handed out, and no live block has a byte of it now. -/
structure Stale (earlier pool : Pool) (block : ℕ × ℕ) : Prop where
  handedOut : block ∈ earlier.live
  apart : ∀ other ∈ pool.live,
    block.2 + capacity pool.info.level block.1 * kb ≤ other.2 ∨
      other.2 + capacity pool.info.level other.1 * kb ≤ block.2

/-- The release of a pointer whose block is no longer live is a double free if and only if on the
way up from its leaf no USED node comes before a SPLIT one. -/
theorem doubleFree_exits_iff {before after : List PoolCall} {outputs outputs' : List (Option ℕ)}
    (hcalls : EachStep poolStep FreesLive (newPool size) (before ++ after))
    (hbefore : run poolStep (newPool size) before = .ok (earlier, outputs))
    (hafter : run poolStep earlier after = .ok (pool, outputs'))
    (hstale : Stale earlier pool block) : buddyFree pool.info block.2 = .error .exit ↔
      NoUsedFirst pool.info.tree (leafPos (buddyNew size).level block.1) := by
  have hearlier := kept_of_run hcalls.take hbefore
  have hrun : run poolStep (newPool size) (before ++ after) = .ok (pool, outputs ++ outputs') :=
    run_append_eq_ok.mpr ⟨earlier, outputs, outputs', hbefore, hafter, rfl⟩
  rw [hearlier.address block hstale.handedOut]
  exact (kept_of_run hcalls hrun).free_exits_iff (hearlier.inside block hstale.handedOut)

instance (tree : ℕ → BlockState) (leaf : ℕ) : Decidable (NoUsedFirst tree leaf) :=
  decidable_of_iff (tree (climb tree leaf) ≠ .used) climb_noUsedFirst

instance (earlier pool : Pool) (block : ℕ × ℕ) : Decidable (Stale earlier pool block) :=
  decidable_of_iff (_ ∧ _) ⟨fun h ↦ ⟨h.1, h.2⟩, fun h ↦ ⟨h.handedOut, h.apart⟩⟩

/-- A run in two parts that is computed leaves a pointer stale. -/
theorem exists_stale {before after : List PoolCall} {p : Pool → Prop} [DecidablePred p]
    (h : (run poolStep (newPool size) before).toOption.any (fun result ↦
      decide ((run poolStep result.1 after).toOption.any (fun result' ↦
        decide (Stale result.1 result'.1 block ∧ p result'.1)) = true)) = true) :
    ∃ earlier pool outputs outputs', run poolStep (newPool size) before = .ok (earlier, outputs) ∧
      run poolStep earlier after = .ok (pool, outputs') ∧ Stale earlier pool block ∧ p pool := by
  obtain ⟨earlier, outputs, hbefore, hrest⟩ : ∃ earlier outputs,
      run poolStep (newPool size) before = .ok (earlier, outputs) ∧
        (run poolStep earlier after).toOption.any (fun result ↦
          decide (Stale earlier result.1 block ∧ p result.1)) = true := exists_run_of_any h
  obtain ⟨pool, outputs', hafter, hstale, hp⟩ : ∃ pool outputs',
      run poolStep earlier after = .ok (pool, outputs') ∧ Stale earlier pool block ∧ p pool :=
    exists_run_of_any hrest
  exact ⟨earlier, pool, outputs, outputs', hbefore, hafter, hstale, hp⟩

/-- In an empty pool a second release is noticed. -/
theorem doubleFree_exits_empty_pool : ∃ pool outputs,
    run poolStep (newPool 4) [.alloc 1024, .free 0] = .ok (pool, outputs) ∧
      buddyFree pool.info 0 = .error .exit := by
  have hcalls : EachStep poolStep FreesLive (newPool 4) ([.alloc 1024] ++ [.free 0]) := by
    decide +kernel
  obtain ⟨earlier, pool, outputs, outputs', hbefore, hafter, hstale, hnone⟩ :
      ∃ earlier pool outputs outputs', run poolStep (newPool 4) [.alloc 1024] =
        .ok (earlier, outputs) ∧ run poolStep earlier [.free 0] = .ok (pool, outputs') ∧
          Stale earlier pool (3, 0) ∧ NoUsedFirst pool.info.tree 3 :=
    exists_stale (by decide +kernel)
  have hleaf : leafPos (buddyNew 4).level 3 = 3 := by decide +kernel
  have hrun : run poolStep (newPool 4) ([.alloc 1024] ++ [.free 0]) =
      .ok (pool, outputs ++ outputs') :=
    run_append_eq_ok.mpr ⟨earlier, outputs, outputs', hbefore, hafter, rfl⟩
  have hiff := doubleFree_exits_iff hcalls hbefore hafter hstale
  rw [hleaf] at hiff
  exact ⟨pool, _, hrun, hiff.mpr hnone⟩

/-- The second release of the second chunk releases the two chunks to the right of it. -/
theorem not_doubleFree_exits_beside : ¬ ∀ size before after earlier pool outputs outputs' block,
    EachStep poolStep FreesLive (newPool size) (before ++ after) →
    run poolStep (newPool size) before = .ok (earlier, outputs) →
    run poolStep earlier after = .ok (pool, outputs') → Stale earlier pool block →
    buddyFree pool.info block.2 = .error .exit := by
  intro hall
  have hcalls : EachStep poolStep FreesLive (newPool 4)
      ([.alloc 1024, .alloc 1024, .alloc 2048] ++ [.free 1024]) := by decide +kernel
  obtain ⟨earlier, pool, outputs, outputs', hbefore, hafter, hstale, hreleases⟩ :
      ∃ earlier pool outputs outputs',
        run poolStep (newPool 4) [.alloc 1024, .alloc 1024, .alloc 2048] =
          .ok (earlier, outputs) ∧ run poolStep earlier [.free 1024] = .ok (pool, outputs') ∧
            Stale earlier pool (4, 1024) ∧
              ((buddyFree pool.info 1024).toOption.map fun info ↦ info.tree 2) = some .free :=
    exists_stale (by decide +kernel)
  have hexits := hall 4 _ _ earlier pool outputs outputs' (4, 1024) hcalls hbefore hafter hstale
  rw [hexits] at hreleases
  cases hreleases

end FGDB.Buddy
