import FGDB.Buddy.Pool
import Mathlib.Algebra.BigOperators.Group.List.Basic

/-!
# The blocks of the buddy allocator

Requests and releases keep the blocks disjoint, inside the pool and aligned, and
the counter of used kilobytes right. In a pool of more than `2 ^ 20` kilobytes a
request that takes the root gets a block beyond the pool.
-/

namespace FGDB.Buddy

open Foundation

/-- Requests of a sensible size, and releases of live pointers. -/
def Admissible (pool : Pool) : PoolCall → Prop
  | .alloc bytes => 2 ^ 10 ≤ bytes ∧ bytes ≤ 2 ^ 40
  | .free ptr => ∃ pos, (pos, ptr) ∈ pool.live

/-- The calls for which the root of the pool need not be worth more than an `int` holds. -/
def FitsRoot (size : ℕ) : PoolCall → Prop
  | .alloc bytes => size ≤ 2 ^ 20 ∨ bytes / kb ≤ 2 ^ 20
  | .free _ => True

/-- The bytes of a block. -/
def blockBytes (info : BuddyInfo) (block : ℕ × ℕ) : ℕ := capasityFromPos info.level block.1 * kb

/-- What the callers of the allocator rely on. -/
structure Sound (size : ℕ) (pool : Pool) : Prop where
  disjoint : pool.live.Pairwise fun block other ↦
    block.2 + blockBytes pool.info block ≤ other.2 ∨ other.2 + blockBytes pool.info other ≤ block.2
  inside : ∀ block ∈ pool.live, block.2 + blockBytes pool.info block ≤ 1 <<< bsqrt size * kb
  aligned : ∀ block ∈ pool.live, blockBytes pool.info block ∣ block.2
  releases : ∀ block ∈ pool.live, ∃ info, buddyFree pool.info block.2 = .ok info ∧
    ∀ pos, info.tree pos = .used ↔ pos ≠ block.1 ∧ pool.info.tree pos = .used
  below : ∀ pos m, pool.info.tree pos ≠ .split → Under pos m → m ≠ pos → pool.info.tree m = .free
  marked : ∀ pos, pool.info.tree pos = .used ↔ pos ∈ pool.live.map Prod.fst
  used : pool.info.used =
    (pool.live.map fun block ↦ capasityFromPos pool.info.level block.1).sum

/-- The pool in the middle of a run. -/
structure Serves (level : ℕ) (pool : Pool) : Prop where
  level_eq : pool.info.level = level
  leaves_eq : pool.info.leaves = 2 ^ level - 1
  childrenFree : ChildrenFree pool.info.tree
  inside : ∀ block ∈ pool.live, depth block.1 < level
  worth : ∀ block ∈ pool.live, capasityFromPos level block.1 = capacity level block.1
  address : ∀ block ∈ pool.live, block.2 = blockAddress level block.1
  marked : ∀ pos, pool.info.tree pos = .used ↔ pos ∈ pool.live.map Prod.fst
  nodup : (pool.live.map Prod.fst).Nodup
  used : pool.info.used = wrap32 (pool.live.map fun block ↦ capacity level block.1).sum

theorem level_of_size {size : ℕ} (hsize : size ≤ 2 ^ 21) :
    (buddyNew size).level ≤ 22 :=
  Nat.succ_le_succ ((Nat.sub_le _ _).trans (bsqrt_le ((Nat.mod_le _ _).trans hsize)))

theorem newPool_serves (size : ℕ) : Serves (buddyNew size).level (newPool size) where
  level_eq := rfl
  leaves_eq := congrArg (· - 1) (Nat.one_shiftLeft _)
  childrenFree _ _ := ⟨rfl, rfl⟩
  inside := nofun
  worth := nofun
  address := nofun
  marked _ := iff_of_false nofun (List.not_mem_nil)
  nodup := .nil
  used := rfl

theorem FitsRoot.fitsInt {size bytes : ℕ} (h : FitsRoot size (.alloc bytes)) :
    FitsInt (buddyNew size).level (allocSize bytes) := by
  rw [FitsInt, buddyNew_level]
  rcases h with hsmall | hsmall
  · exact .inl (Nat.succ_le_succ (bsqrt_le ((Nat.mod_le _ _).trans hsmall)))
  · right
    rw [allocSize_eq]
    exact Nat.pow_le_pow_right Nat.two_pos (bsqrt_le ((Nat.mod_le _ _).trans hsmall))

theorem wrap32_add (first second : ℕ) : wrap32 (wrap32 first + second) = wrap32 (first + second) :=
  Nat.mod_add_mod ..

section Step

variable {level size : ℕ} {pool : Pool}

/-- A request that takes a node makes a live block of it. -/
theorem Serves.take {info' : BuddyInfo} {pos : ℕ} (h : Serves level pool)
    (htakes : Takes pool.info info' 0 pos) :
    Serves level ⟨info', pool.live ++ [(pos, blockAddress level pos)]⟩ := by
  obtain ⟨rfl⟩ := h.level_eq
  have hnew : pos ∉ pool.live.map Prod.fst := by
    intro hmem
    have hused := (h.marked pos).mpr hmem
    rw [htakes.free] at hused
    cases hused
  refine ⟨htakes.level, htakes.leaves.trans h.leaves_eq, htakes.grants.childrenFree h.childrenFree,
    ?_, ?_, ?_, ?_, ?_, ?_⟩
  · exact List.forall_mem_append.mpr ⟨h.inside, List.forall_mem_singleton.mpr htakes.inside⟩
  · exact List.forall_mem_append.mpr ⟨h.worth, List.forall_mem_singleton.mpr htakes.worth⟩
  · exact List.forall_mem_append.mpr ⟨h.address, List.forall_mem_singleton.mpr rfl⟩
  · intro m
    rw [htakes.grants.used_iff, h.marked, List.map_append, List.mem_append, List.map_singleton,
      List.mem_singleton, or_comm]
  · rw [List.map_append, List.map_singleton, List.nodup_append_comm]
    exact List.nodup_cons.mpr ⟨hnew, h.nodup⟩
  · rw [htakes.used, h.used, List.map_append, List.sum_append, List.map_singleton,
      List.sum_singleton, wrap32_add]

theorem Serves.alloc {bytes : ℕ} (h : Serves level pool) (hpos : 0 < level) (hlevel : level ≤ 22)
    (hbits : BitsEnd (bytes / kb)) (hfits : FitsInt level (allocSize bytes)) :
    ∃ next output, poolStep pool (.alloc bytes) = .ok (next, output) ∧ Serves level next := by
  rcases buddyAlloc_fits hbits (by rwa [h.level_eq]) (h.level_eq.trans_le hlevel)
    (by rw [h.leaves_eq, h.level_eq]) (by rwa [h.level_eq]) h.childrenFree with
    ⟨info', pos, hcall, htakes, -⟩ | ⟨hcall, -⟩
  · rw [h.level_eq] at hcall
    exact ⟨_, _, poolStep_alloc hcall, h.take htakes⟩
  · refine ⟨_, _, poolStep_alloc hcall, ?_⟩
    rwa [Option.toList_none, List.append_nil]

/-- A release has unmarked a node and no other. -/
structure Releases (info info' : BuddyInfo) (pos : ℕ) : Prop where
  level : info'.level = info.level
  leaves : info'.leaves = info.leaves
  childrenFree : ChildrenFree info'.tree
  marked : ∀ m, info'.tree m = .used ↔ m ≠ pos ∧ info.tree m = .used
  used : info'.used = wrap32 (info.used + (2 ^ 32 - capacity info.level pos))

theorem Serves.releases (h : Serves level pool) (hlevel : level ≤ 22) {block : ℕ × ℕ}
    (hblock : block ∈ pool.live) :
    ∃ info', buddyFree pool.info block.2 = .ok info' ∧ Releases pool.info info' block.1 := by
  obtain ⟨rfl⟩ := h.level_eq
  have hused : pool.info.tree block.1 = .used :=
    (h.marked block.1).mpr (List.mem_map_of_mem hblock)
  obtain ⟨hfree, hkept⟩ := release_keeps h.childrenFree hused
  have hcall := buddyFree_used h.childrenFree h.leaves_eq (h.inside block hblock) hused
  rw [← blockAddress_eq hlevel (h.inside block hblock) (h.worth block hblock),
    ← h.address block hblock, h.worth block hblock] at hcall
  exact ⟨_, hcall, rfl, rfl, hfree, hkept, rfl⟩

/-- A release takes its block out of the live ones. -/
theorem Serves.drop {info' : BuddyInfo} {block : ℕ × ℕ} {rest : List (ℕ × ℕ)}
    (h : Serves level pool) (hlevel : level ≤ 22) (hperm : pool.live.Perm (block :: rest))
    (hreleases : Releases pool.info info' block.1) : Serves level ⟨info', rest⟩ := by
  obtain ⟨rfl⟩ := h.level_eq
  have hmem (other : ℕ × ℕ) (hother : other ∈ rest) : other ∈ pool.live :=
    hperm.mem_iff.mpr (List.mem_cons_of_mem _ hother)
  have hpositions := hperm.map Prod.fst
  have hnodup := hpositions.nodup_iff.mp h.nodup
  rw [List.map_cons, List.nodup_cons] at hnodup
  have hcapacity : capacity pool.info.level block.1 ≤ 2 ^ 32 :=
    Nat.pow_le_pow_right Nat.two_pos (by omega)
  refine ⟨hreleases.level, hreleases.leaves.trans h.leaves_eq, hreleases.childrenFree,
    fun other hother ↦ h.inside other (hmem other hother),
    fun other hother ↦ h.worth other (hmem other hother),
    fun other hother ↦ h.address other (hmem other hother), ?_, hnodup.2, ?_⟩
  · intro m
    rw [hreleases.marked, h.marked, hpositions.mem_iff, List.map_cons, List.mem_cons]
    constructor
    · intro hm
      exact hm.2.resolve_left hm.1
    · intro hm
      refine ⟨fun heq ↦ hnodup.1 ?_, .inr hm⟩
      rwa [← heq]
  · rw [hreleases.used, h.used, (hperm.map fun other ↦ capacity pool.info.level other.1).sum_eq,
      List.map_cons, List.sum_cons, wrap32_add, Nat.add_right_comm, Nat.add_sub_cancel' hcapacity,
      Nat.add_comm]
    exact Nat.add_mod_right ..

theorem Serves.free {ptr : ℕ} (h : Serves level pool) (hlevel : level ≤ 22)
    (hlive : ∃ pos, (pos, ptr) ∈ pool.live) :
    ∃ next output, poolStep pool (.free ptr) = .ok (next, output) ∧ Serves level next := by
  obtain ⟨block, hblock, rfl, hperm⟩ := exists_live hlive
  obtain ⟨info', hcall, hreleases⟩ := h.releases hlevel hblock
  refine ⟨_, none, ?_, h.drop hlevel hperm hreleases⟩
  rw [poolStep, hcall, ok_bind]
  rfl

/-- The leaves of the live blocks are apart. -/
theorem Serves.apart (h : Serves level pool) : pool.live.Pairwise fun block other ↦
    firstLeaf level block.1 + capacity level block.1 ≤ firstLeaf level other.1 ∨
      firstLeaf level other.1 + capacity level other.1 ≤ firstLeaf level block.1 := by
  have hused (block : ℕ × ℕ) (hblock : block ∈ pool.live) : pool.info.tree block.1 = .used :=
    (h.marked block.1).mpr (List.mem_map_of_mem hblock)
  apply (List.pairwise_map.mp h.nodup).imp_of_mem
  intro block other hblock hother hne
  exact used_apart h.childrenFree (hused block hblock) (hused other hother) (h.inside block hblock)
    (h.inside other hother) hne

end Step

/-- Intervals that are apart and below a bound are together no longer than the bound. -/
theorem sum_lengths_le {α : Type} {l : List α} {start length : α → ℕ} {bound : ℕ}
    (hinside : ∀ a ∈ l, start a + length a ≤ bound)
    (hapart : l.Pairwise fun a b ↦ start a + length a ≤ start b ∨ start b + length b ≤ start a) :
    (l.map length).sum ≤ bound := by
  have hnodup : (l.flatMap fun a ↦ List.range' (start a) (length a)).Nodup := by
    refine List.nodup_flatMap.mpr ⟨fun a _ ↦ List.nodup_range' .., hapart.imp ?_⟩
    intro a b hab i hi hj
    rw [List.mem_range'_1] at hi hj
    omega
  have hsubset : (l.flatMap fun a ↦ List.range' (start a) (length a)) ⊆ List.range bound := by
    intro i hi
    obtain ⟨a, ha, hmem⟩ := List.mem_flatMap.mp hi
    have hle := hinside a ha
    rw [List.mem_range'_1] at hmem
    rw [List.mem_range]
    omega
  calc
    (l.map length).sum = (l.flatMap fun a ↦ List.range' (start a) (length a)).length := by
      simp only [List.length_flatMap, List.length_range']
    _ ≤ (List.range bound).length := (List.subperm_of_subset hnodup hsubset).length_le
    _ = bound := List.length_range

/-- In the middle of a run the blocks are as the callers rely on. -/
theorem Serves.sound {size : ℕ} {pool : Pool} (hsmall : size ≤ 2 ^ 21)
    (h : Serves (buddyNew size).level pool) : Sound size pool := by
  have hsize := level_of_size hsmall
  obtain ⟨level, hlevel⟩ : ∃ level, (buddyNew size).level = level := ⟨_, rfl⟩
  have hroot : bsqrt size = level - 1 := by
    rw [← hlevel, buddyNew_level, Nat.add_sub_cancel, wrap32, Nat.mod_eq_of_lt (by omega)]
  rw [hlevel] at h hsize
  have hbytes (block : ℕ × ℕ) (hblock : block ∈ pool.live) :
      blockBytes pool.info block = capacity level block.1 * kb := by
    rw [blockBytes, h.level_eq, h.worth block hblock]
  have hstart (block : ℕ × ℕ) (hblock : block ∈ pool.live) :
      block.2 = firstLeaf level block.1 * kb := by
    rw [h.address block hblock]
    exact blockAddress_eq hsize (h.inside block hblock) (h.worth block hblock)
  have hend (block : ℕ × ℕ) (hblock : block ∈ pool.live) : block.2 + blockBytes pool.info block =
      (firstLeaf level block.1 + capacity level block.1) * kb := by
    rw [hbytes block hblock, hstart block hblock, Nat.add_mul]
  refine ⟨?_, ?_, ?_, ?_, ?_, h.marked, ?_⟩
  · refine h.apart.imp_of_mem fun {block other} hblock hother hapart ↦ ?_
    rw [hend block hblock, hend other hother, hstart block hblock, hstart other hother]
    exact hapart.imp (Nat.mul_le_mul_right kb) (Nat.mul_le_mul_right kb)
  · intro block hblock
    rw [hend block hblock, hroot, Nat.one_shiftLeft]
    exact Nat.mul_le_mul_right kb (firstLeaf_bounds (h.inside block hblock)).2
  · intro block hblock
    rw [hbytes block hblock, hstart block hblock]
    apply Nat.mul_dvd_mul_right
    rw [firstLeaf, ← pow_mul_capacity (h.inside block hblock)]
    exact Nat.dvd_sub (Nat.dvd_mul_left ..) (Nat.dvd_mul_left ..)
  · intro block hblock
    obtain ⟨info', hcall, hreleases⟩ := h.releases hsize hblock
    exact ⟨info', hcall, hreleases.marked⟩
  · intro pos m hpos hunder hne
    exact h.childrenFree.under hpos hunder hne
  · have hsum : (pool.live.map fun block ↦ capasityFromPos pool.info.level block.1).sum =
        (pool.live.map fun block ↦ capacity level block.1).sum := by
      refine congrArg List.sum (List.map_congr_left fun block hblock ↦ ?_)
      rw [h.level_eq, h.worth block hblock]
    have hle := sum_lengths_le (fun block hblock ↦ (firstLeaf_bounds (h.inside block hblock)).2)
      h.apart
    have hpow : 2 ^ (level - 1) ≤ 2 ^ 21 := Nat.pow_le_pow_right Nat.two_pos (by omega)
    rw [h.used, hsum]
    apply Nat.mod_eq_of_lt
    omega

/-- The calls on a new pool succeed and end in a sound pool. -/
def KeepsSound (size : ℕ) (calls : List PoolCall) : Prop :=
  ∃ pool outputs, run poolStep (newPool size) calls = .ok (pool, outputs) ∧ Sound size pool

/-- The pool is sound in every state of a run whose requests can do without the root of a pool
of more than `2 ^ 20` kilobytes. -/
theorem keepsSound_of_fitsRoot {size : ℕ} {calls : List PoolCall} (_hpos : 0 < size)
    (hsize : size ≤ 2 ^ 21) (hcalls : EachStep poolStep Admissible (newPool size) calls)
    (hfits : EachStep poolStep (fun _ ↦ FitsRoot size) (newPool size) calls)
    (done : List PoolCall) (hdone : done <+: calls) : KeepsSound size done := by
  obtain ⟨rest, rfl⟩ := hdone
  have hlevel := level_of_size hsize
  have hstep (pool : Pool) (call : PoolCall) (h : Serves (buddyNew size).level pool)
      (hok : Admissible pool call ∧ FitsRoot size call) : ∃ next output,
        poolStep pool call = .ok (next, output) ∧ Serves (buddyNew size).level next := by
    cases call with
    | alloc bytes =>
      have hbits : BitsEnd (bytes / kb) := by
        have hle : bytes / kb ≤ 2 ^ 40 / kb := Nat.div_le_div_right hok.1.2
        have hmod : wrap32 (bytes / kb) ≤ bytes / kb := Nat.mod_le _ _
        have hkb : 2 ^ 40 / kb = 2 ^ 30 := by decide
        rw [BitsEnd]
        omega
      exact h.alloc (level_pos size) hlevel hbits hok.2.fitsInt
    | free ptr => exact h.free hlevel hok.1
  obtain ⟨pool, outputs, hrun, hserves⟩ :=
    run_succeeds hstep (newPool_serves size) (hcalls.take.and hfits.take)
  exact ⟨pool, outputs, hrun, hserves.sound hsize⟩

/-- A chunk comes and goes in a pool of four chunks. -/
theorem keepsSound_one_chunk : KeepsSound 4 [.alloc 1024, .free 0] := by
  refine keepsSound_of_fitsRoot (by decide) (by decide) ?_ ?_ _ (List.prefix_refl _)
  · refine ⟨⟨by decide, by decide⟩, fun next output halloc ↦ ⟨?_, fun _ _ _ ↦ trivial⟩⟩
    have hlive : (poolStep (newPool 4) (.alloc 1024)).toOption.map (fun result ↦ result.1.live) =
        some [(3, 0)] := by decide +kernel
    rw [halloc] at hlive
    have hblocks : next.live = [(3, 0)] := Option.some.inj hlive
    rw [Admissible, hblocks]
    exact ⟨3, List.mem_cons_self⟩
  · exact ⟨.inl (by decide), fun _ _ _ ↦ ⟨trivial, fun _ _ _ ↦ trivial⟩⟩

/-- In the largest pool a request for twice its size is granted. -/
theorem not_keepsSound_largest_pool :
    ¬ ∀ size calls, 0 < size → size ≤ 2 ^ 21 →
      EachStep poolStep Admissible (newPool size) calls → KeepsSound size calls := by
  intro hall
  obtain ⟨pool, outputs, hrun, hsound⟩ := hall (2 ^ 21) [.alloc (2 ^ 32)] (by decide +kernel)
    (le_refl _) ⟨⟨by decide +kernel, by decide +kernel⟩, fun _ _ _ ↦ trivial⟩
  have hlive : (run poolStep (newPool (2 ^ 21)) [.alloc (2 ^ 32)]).toOption.map (fun result ↦
      (result.1.live, result.1.info.level)) = some ([(0, 0)], 22) := by decide +kernel
  rw [hrun] at hlive
  obtain ⟨hblocks, hlevel⟩ := Prod.mk.inj (Option.some.inj hlive)
  have hblock : (0, 0) ∈ pool.live := by
    rw [hblocks]
    exact List.mem_cons_self
  have hinside := hsound.inside (0, 0) hblock
  rw [blockBytes, hlevel, capasity_root, show bsqrt (2 ^ 21) = 21 by decide +kernel] at hinside
  exact absurd hinside (by decide +kernel)

end FGDB.Buddy
