import FGDB.Buddy.Tree
import FGDB.Foundation.Run
import Mathlib.Data.List.Nodup

/-!
# The pool of the buddy allocator

A run asks for blocks and returns live ones. Whatever it asks for, the USED nodes
are those of the live blocks and a pointer is the place of the first leaf under
its node, so the blocks are disjoint and a release finds the node of its block
again. In a pool of more than `2 ^ 20` kilobytes the capacity of the root does not
fit in an `int`: the largest pool gives its root to every large request, and a
larger pool gives nothing.
-/

namespace FGDB.Buddy

open Foundation

/-- The allocator with the live blocks: the node of each and the pointer that was returned. -/
structure Pool where
  info : BuddyInfo
  live : List (ℕ × ℕ)

inductive PoolCall
  | alloc (bytes : ℕ)
  | free (ptr : ℕ)
  deriving DecidableEq, Repr

def poolStep (pool : Pool) : PoolCall → Outcome (Pool × Option ℕ)
  | .alloc bytes => do
    let (info, block) ← buddyAlloc pool.info bytes
    return (⟨info, pool.live ++ block.toList⟩, block.map Prod.snd)
  | .free ptr => do
    let info ← buddyFree pool.info ptr
    return (⟨info, pool.live.eraseP fun block ↦ block.2 = ptr⟩, none)

def newPool (size : ℕ) : Pool := ⟨buddyNew size, []⟩

/-- Releases are of live pointers. -/
def FreesLive (pool : Pool) : PoolCall → Prop
  | .alloc _ => True
  | .free ptr => ∃ pos, (pos, ptr) ∈ pool.live

instance (pool : Pool) (call : PoolCall) : Decidable (FreesLive pool call) :=
  match call with
  | .alloc _ => isTrue trivial
  | .free ptr => decidable_of_iff (∃ block ∈ pool.live, block.2 = ptr)
      ⟨fun ⟨block, hblock, hptr⟩ ↦ ⟨block.1, hptr ▸ hblock⟩, fun ⟨_, hpos⟩ ↦ ⟨_, hpos, rfl⟩⟩

theorem buddyNew_level (size : ℕ) : (buddyNew size).level = bsqrt (wrap32 size) + 1 := by
  rw [buddyNew, show bsqrt (minChunk / kb) = 0 by decide +kernel, Nat.sub_zero]

theorem buddyNew_leaves (size : ℕ) : (buddyNew size).leaves = 2 ^ (buddyNew size).level - 1 :=
  congrArg (· - 1) (Nat.one_shiftLeft _)

theorem level_pos (size : ℕ) : 0 < (buddyNew size).level := by
  rw [buddyNew_level]
  exact Nat.succ_pos _

/-- The bytes of the pool. -/
def poolBytes (size : ℕ) : ℕ := 1 <<< bsqrt (wrap32 size) * kb

theorem level_le_iff (size bound : ℕ) :
    (buddyNew size).level ≤ bound + 1 ↔ wrap32 size ≤ 2 ^ bound := by
  rw [buddyNew_level, Nat.succ_le_succ_iff]
  constructor
  · intro hle
    calc
      wrap32 size ≤ 2 ^ bsqrt (wrap32 size) := le_pow_bsqrt _
      _ ≤ 2 ^ bound := Nat.pow_le_pow_right Nat.two_pos hle
  · exact bsqrt_le

theorem poolBytes_div (size : ℕ) : poolBytes size / kb = 2 ^ ((buddyNew size).level - 1) := by
  rw [poolBytes, Nat.mul_div_cancel _ kb_pos, Nat.one_shiftLeft, buddyNew_level, Nat.add_sub_cancel]

theorem depth_root : depth 0 = 0 := by decide +kernel

section Leaves

variable {level : ℕ}

/-- The first leaf under the node of a block, counted from the start of the level. -/
def firstLeaf (level pos : ℕ) : ℕ := (pos + 1) * capacity level pos - 2 ^ (level - 1)

theorem pow_depth_le (pos : ℕ) : 2 ^ depth pos ≤ pos + 1 :=
  Nat.pow_log_le_self 2 (Nat.succ_ne_zero pos)

theorem lt_pow_depth (pos : ℕ) : pos + 1 < 2 ^ (depth pos + 1) :=
  Nat.lt_pow_succ_log_self Nat.one_lt_two (pos + 1)

theorem pow_mul_capacity {pos : ℕ} (h : depth pos < level) :
    2 ^ depth pos * capacity level pos = 2 ^ (level - 1) := by
  rw [capacity, ← pow_add]
  congr 1
  omega

/-- The leaves under a node are among the leaves of the pool. -/
theorem firstLeaf_bounds {pos : ℕ} (h : depth pos < level) :
    firstLeaf level pos + 2 ^ (level - 1) = (pos + 1) * capacity level pos ∧
      firstLeaf level pos + capacity level pos ≤ 2 ^ (level - 1) := by
  have hlow := Nat.mul_le_mul_right (capacity level pos) (pow_depth_le pos)
  have hhigh : (pos + 1 + 1) * capacity level pos ≤ 2 ^ (depth pos + 1) * capacity level pos :=
    Nat.mul_le_mul_right _ (lt_pow_depth pos)
  rw [pow_mul_capacity h] at hlow
  rw [pow_succ', Nat.mul_assoc, pow_mul_capacity h, Nat.succ_mul] at hhigh
  unfold firstLeaf
  omega

/-- The offset of a node in its level counts the blocks in front of it. -/
theorem offset_mul_capacity {pos : ℕ} (h : depth pos < level) :
    (pos + 1) % 2 ^ depth pos * capacity level pos = firstLeaf level pos := by
  have hle := pow_depth_le pos
  have hmod : (pos + 1) % 2 ^ depth pos = pos + 1 - 2 ^ depth pos := by
    have hlt := lt_pow_depth pos
    rw [pow_succ'] at hlt
    rw [Nat.mod_eq_sub_mod hle, Nat.mod_eq_of_lt]
    omega
  rw [hmod, Nat.sub_mul, pow_mul_capacity h, firstLeaf]

theorem blockAddress_eq {pos : ℕ} (hlevel : level ≤ 22) (h : depth pos < level)
    (hworth : capasityFromPos level pos = capacity level pos) :
    blockAddress level pos = firstLeaf level pos * kb := by
  have hbounds := firstLeaf_bounds h
  have hpow : 2 ^ (level - 1) ≤ 2 ^ 21 := Nat.pow_le_pow_right Nat.two_pos (by omega)
  have hcapacity : 0 < capacity level pos := Nat.two_pow_pos _
  rw [blockAddress, levelFromPos_eq, Nat.add_sub_cancel, Nat.one_shiftLeft, hworth,
    offset_mul_capacity h]
  apply Nat.mod_eq_of_lt
  unfold kb
  omega

theorem add_chunks (pos : ℕ) (h : depth pos < level) :
    1 <<< (level - 1) + firstLeaf level pos * kb / minChunk - 1 =
      (pos + 1) * 2 ^ (level - 1 - depth pos) - 1 := by
  rw [Nat.one_shiftLeft, minChunk, Nat.one_mul, Nat.mul_div_cancel _ (by decide), Nat.add_comm,
    (firstLeaf_bounds h).1, capacity]

theorem under_leaf {pos leaf : ℕ} (h : depth pos < level) (hle : firstLeaf level pos ≤ leaf)
    (hlt : leaf < firstLeaf level pos + capacity level pos) :
    Under pos (leaf + 2 ^ (level - 1) - 1) := by
  have hbounds := firstLeaf_bounds h
  have hsucc : (pos + 1 + 1) * capacity level pos =
      (pos + 1) * capacity level pos + capacity level pos := Nat.succ_mul ..
  have hpow : 0 < 2 ^ (level - 1) := Nat.two_pow_pos _
  refine ⟨level - 1 - depth pos, ?_⟩
  rw [Nat.sub_add_cancel (by omega), ← capacity]
  apply Nat.div_eq_of_lt_le
  · omega
  · omega

/-- Two nodes of which none is under the other have their leaves apart. -/
theorem leaves_apart {pos other : ℕ} (hpos : depth pos < level) (hother : depth other < level)
    (hunder : ¬ Under pos other) (hover : ¬ Under other pos) :
    firstLeaf level pos + capacity level pos ≤ firstLeaf level other ∨
      firstLeaf level other + capacity level other ≤ firstLeaf level pos := by
  by_contra hmeet
  rw [not_or, not_le, not_le] at hmeet
  have hcapacity (m : ℕ) : 0 < capacity level m := Nat.two_pow_pos _
  have hfirst := hcapacity pos
  have hsecond := hcapacity other
  obtain ⟨leaf, hleaf⟩ : ∃ leaf, max (firstLeaf level pos) (firstLeaf level other) = leaf :=
    ⟨_, rfl⟩
  have hcommon : Under pos (leaf + 2 ^ (level - 1) - 1) :=
    under_leaf hpos (by omega) (by omega)
  have hcommon' : Under other (leaf + 2 ^ (level - 1) - 1) :=
    under_leaf hother (by omega) (by omega)
  exact (hcommon.total hcommon').elim hunder hover

end Leaves

section Calls

variable {info : BuddyInfo} {bytes : ℕ}

/-- A release finds the node of its block. -/
theorem buddyFree_used {pos : ℕ} (hfree : ChildrenFree info.tree)
    (hleaves : info.leaves = 2 ^ info.level - 1) (hinside : depth pos < info.level)
    (hused : info.tree pos = .used) :
    buddyFree info (firstLeaf info.level pos * kb) = .ok { info with
      used := wrap32 (info.used + (2 ^ 32 - capasityFromPos info.level pos))
      tree := buddyMerge (Function.update info.tree pos .free) pos } := by
  have hbounds := firstLeaf_bounds hinside
  have hcapacity : 0 < capacity info.level pos := Nat.two_pow_pos _
  have hpow : 2 ^ info.level = 2 * 2 ^ (info.level - 1) := by
    rw [← pow_succ', Nat.sub_add_cancel (by omega)]
  have hleaf : ¬ info.leaves ≤ (pos + 1) * 2 ^ (info.level - 1 - depth pos) - 1 := by
    rw [← capacity, ← hbounds.1]
    omega
  obtain ⟨leaf, hleafeq⟩ : ∃ leaf, (pos + 1) * 2 ^ (info.level - 1 - depth pos) - 1 = leaf :=
    ⟨_, rfl⟩
  have hclimb := climb_eq hfree hused (info.level - 1 - depth pos)
  have hunder : Under pos leaf := by
    refine ⟨info.level - 1 - depth pos, ?_⟩
    rw [← hleafeq, ← capacity, Nat.sub_add_cancel (by rw [← hbounds.1]; omega),
      Nat.mul_div_cancel _ hcapacity]
  rw [hleafeq] at hclimb hleaf
  rw [buddyFree, add_chunks pos hinside, hleafeq]
  simp only [if_neg hleaf]
  by_cases hself : leaf = pos
  · simp only [hself, hused, pure_eq_ok]
  · have hbelow : info.tree leaf = .free := by
      apply hfree.under _ hunder hself
      rw [hused]
      decide
    simp only [hbelow, hclimb, hused, pure_eq_ok]

theorem allocSize_eq (bytes : ℕ) : allocSize bytes = 2 ^ bsqrt (wrap32 (bytes / kb)) :=
  Nat.one_shiftLeft _

theorem allocSize_pos (bytes : ℕ) : 0 < allocSize bytes := by
  rw [allocSize_eq]
  exact Nat.two_pow_pos _

theorem allocSize_le (hbits : BitsEnd (bytes / kb)) : allocSize bytes ≤ 2 ^ 31 := by
  rw [allocSize_eq]
  exact Nat.pow_le_pow_right Nat.two_pos (bsqrt_le (Nat.le_of_lt hbits))

theorem pow_eq_of_half {e d : ℕ} (hle : 2 ^ e ≤ 2 ^ d) (hhalf : 2 ^ d / 2 < 2 ^ e) :
    2 ^ d = 2 ^ e := by
  have hed : e ≤ d := (Nat.pow_le_pow_iff_right Nat.one_lt_two).mp hle
  have hde : d ≤ e := by
    by_contra hlt
    have hpow : 2 ^ (e + 1) ≤ 2 ^ d := Nat.pow_le_pow_right Nat.two_pos (Nat.lt_of_not_le hlt)
    rw [pow_succ] at hpow
    omega
  rw [le_antisymm hed hde]

/-- A request that need not know what the root is worth. -/
theorem buddyAlloc_fits (hbits : BitsEnd (bytes / kb)) (hpos : 0 < info.level)
    (hlevel : info.level ≤ 22) (hleaves : info.leaves = 2 ^ info.level - 1)
    (hfits : FitsInt info.level (allocSize bytes)) (hfree : ChildrenFree info.tree) :
    (∃ info' pos, buddyAlloc info bytes = .ok (info', some (pos, blockAddress info.level pos)) ∧
        Takes info info' 0 pos ∧ capacity info.level pos = allocSize bytes) ∨
      (buddyAlloc info bytes = .ok (info, none) ∧ ∀ m, Exposed info.tree 0 m →
        depth m < info.level → capacity info.level m < allocSize bytes) := by
  have hinside : depth 0 < info.level := by
    rwa [depth_root]
  have hfuel : info.level ≤ depth 0 + (info.level + 1) := by omega
  rw [buddyAlloc, if_pos hbits]
  rcases buddyAckMemory_spec (allocSize_pos bytes) hlevel hleaves hfits hfree hinside hfuel with
    ⟨info', pos, hack, htakes, hle, hhalf⟩ | hnone
  · refine .inl ⟨info', pos, hack, htakes, ?_⟩
    rw [allocSize_eq] at hle hhalf ⊢
    exact pow_eq_of_half hle hhalf
  · exact .inr hnone

theorem buddyAckMemory_small {kbytes pos : ℕ} (h : capasityFromPos info.level pos < kbytes)
    (fuel : ℕ) : buddyAckMemory kbytes (fuel + 1) pos info = .ok (info, none) := by
  rw [buddyAckMemory]
  by_cases hinside : info.leaves < pos
  · rw [if_pos hinside]
  · rw [if_neg hinside, if_pos h]

/-- A large request gets the root of the largest pool when the root is FREE. -/
theorem buddyAlloc_root (hbits : BitsEnd (bytes / kb)) (hlevel : info.level = 22)
    (hleaves : info.leaves = 2 ^ info.level - 1) (hlarge : 2 ^ 20 < allocSize bytes) :
    buddyAlloc info bytes =
      .ok (if info.tree 0 = .free then takeWhole info 0 else (info, none)) := by
  have hsize := allocSize_le hbits
  have hchild (child : ℕ) (hchild : child = 1 ∨ child = 2) :
      buddyAckMemory (allocSize bytes) 22 child info = .ok (info, none) := by
    apply buddyAckMemory_small
    rw [hlevel]
    rcases hchild with rfl | rfl
    · rwa [show capasityFromPos 22 1 = 2 ^ 20 by decide +kernel]
    · rwa [show capasityFromPos 22 2 = 2 ^ 20 by decide +kernel]
  have hroot : ¬ capasityFromPos info.level 0 < allocSize bytes := by
    rw [hlevel, capasity_root]
    omega
  have hindex : ¬ info.leaves ≤ 0 := by
    rw [hleaves, hlevel]
    decide
  rw [buddyAlloc, if_pos hbits, hlevel, buddyAckMemory, if_neg (Nat.not_lt_zero _), if_neg hroot,
    if_neg hindex]
  cases hstate : info.tree 0 with
  | used => rfl
  | free =>
    by_cases hhalf : allocSize bytes ≤ capasityFromPos info.level 0 / 2
    · simp only [if_pos hhalf, hchild 1 (.inl rfl), hchild 2 (.inr rfl), ok_bind, pure_eq_ok,
        if_pos]
    · simp only [if_neg hhalf, if_pos]
  | split =>
    by_cases hhalf : capasityFromPos info.level 0 / 2 < allocSize bytes
    · simp only [if_pos hhalf]
      rfl
    · simp only [if_neg hhalf, hchild 1 (.inl rfl), hchild 2 (.inr rfl), ok_bind]
      rfl

/-- A larger pool gives nothing. -/
theorem buddyAlloc_over (hbits : BitsEnd (bytes / kb)) (hlevel : 22 < info.level) :
    buddyAlloc info bytes = .ok (info, none) := by
  have hworth : capasityFromPos info.level 0 = 0 := by
    obtain ⟨above, habove⟩ := Nat.exists_eq_add_of_le hlevel
    have hproduct : ((1 <<< (info.level - levelFromPos 0) : ℕ) * minChunk : ℤ) =
        2 ^ 32 * 2 ^ above := by
      rw [levelFromPos_eq, depth_root, habove, Nat.one_shiftLeft, minChunk, kb,
        show Nat.succ 22 + above - (0 + 1) = 22 + above by omega, pow_add]
      push_cast
      ring
    rw [capasityFromPos, intMul, hproduct]
    norm_num [Int.bmod]
  rw [buddyAlloc, if_pos hbits]
  apply buddyAckMemory_small
  rw [hworth]
  exact allocSize_pos bytes

end Calls

/-- Merging only turns SPLIT nodes to FREE. -/
theorem buddyMerge_or (tree : ℕ → BlockState) (pos m : ℕ) :
    buddyMerge tree pos m = tree m ∨ tree m = .split ∧ buddyMerge tree pos m = .free := by
  have hfrom (tree : ℕ → BlockState) (parent : ℕ) : buddyMergeFrom tree parent m = tree m ∨
      tree m = .split ∧ buddyMergeFrom tree parent m = .free := by
    have hone (tree : ℕ → BlockState) (node : ℕ) (hsplit : tree node = .split) :
        Function.update tree node .free m = tree m ∨
          tree m = .split ∧ Function.update tree node .free m = .free := by
      by_cases heq : m = node
      · rw [heq, Function.update_self]
        exact .inr ⟨hsplit, rfl⟩
      · exact .inl (Function.update_of_ne heq ..)
    fun_induction buddyMergeFrom tree parent with
    | case1 tree hmerge => exact hone tree 0 hmerge.1
    | case2 tree parent hmerge hne ih =>
      rcases ih with hsame | ⟨hsplit, hfree⟩
      · rw [hsame]
        exact hone tree parent hmerge.1
      · rcases hone tree parent hmerge.1 with hsame | ⟨-, hfree'⟩
        · exact .inr ⟨hsame ▸ hsplit, hfree⟩
        · rw [hfree'] at hsplit
          cases hsplit
    | case3 tree parent hstop => exact .inl rfl
  exact hfrom tree (pos / 2)

/-- A SPLIT node has children in the pool. -/
def SplitInside (level : ℕ) (tree : ℕ → BlockState) : Prop :=
  ∀ pos, tree pos = .split → depth pos + 1 < level

/-- The pool in the middle of any run. -/
structure Kept (level : ℕ) (pool : Pool) : Prop where
  level_eq : pool.info.level = level
  leaves_eq : pool.info.leaves = 2 ^ level - 1
  childrenFree : ChildrenFree pool.info.tree
  splitInside : SplitInside level pool.info.tree
  inside : ∀ block ∈ pool.live, depth block.1 < level
  address : ∀ block ∈ pool.live, block.2 = firstLeaf level block.1 * kb
  marked : ∀ pos, pool.info.tree pos = .used ↔ pos ∈ pool.live.map Prod.fst
  nodup : (pool.live.map Prod.fst).Nodup

/-- What a request gets: a node of its size, or the root of the largest pool. -/
structure Granted (level bytes : ℕ) (info info' : BuddyInfo) (block : ℕ × ℕ) : Prop where
  level_le : level ≤ 22
  level_eq : info'.level = level
  leaves_eq : info'.leaves = info.leaves
  grants : Grants info.tree info'.tree block.1
  inside : depth block.1 < level
  address : block.2 = firstLeaf level block.1 * kb
  size : capacity level block.1 = allocSize bytes ∨
    level = 22 ∧ block.1 = 0 ∧ 2 ^ 20 < allocSize bytes

/-- Why a request gets nothing. -/
inductive Refused (level bytes : ℕ) (tree : ℕ → BlockState) : Prop
  | small (hlevel : level ≤ 22) (hfits : FitsInt level (allocSize bytes))
      (hsmall : ∀ m, Exposed tree 0 m → depth m < level → capacity level m < allocSize bytes)
  | root (hlevel : level = 22) (hlarge : 2 ^ 20 < allocSize bytes) (hroot : tree 0 ≠ .free)
  | beyond (hlevel : 22 < level)

/-- What a call that succeeds does to the pool. -/
inductive Moves (level : ℕ) (pool : Pool) : PoolCall → Pool → Prop
  | stays (bytes : ℕ) : Moves level pool (.alloc bytes) pool
  | grants (bytes : ℕ) {info : BuddyInfo} {pos : ℕ} (hlevel : info.level = level)
      (hleaves : info.leaves = pool.info.leaves) (hgrants : Grants pool.info.tree info.tree pos)
      (hinside : depth pos < level) :
      Moves level pool (.alloc bytes) ⟨info, pool.live ++ [(pos, firstLeaf level pos * kb)]⟩
  | releases {block : ℕ × ℕ} {rest : List (ℕ × ℕ)} {info : BuddyInfo}
      (hperm : pool.live.Perm (block :: rest)) (hlevel : info.level = level)
      (hleaves : info.leaves = pool.info.leaves)
      (hmerges : info.tree = buddyMerge (Function.update pool.info.tree block.1 .free) block.1) :
      Moves level pool (.free block.2) ⟨info, rest⟩

section Kept

variable {level : ℕ} {pool next : Pool} {call : PoolCall} {output : Option ℕ}

theorem newPool_kept (size : ℕ) : Kept (buddyNew size).level (newPool size) where
  level_eq := rfl
  leaves_eq := buddyNew_leaves size
  childrenFree _ _ := ⟨rfl, rfl⟩
  splitInside := nofun
  inside := nofun
  address := nofun
  marked _ := iff_of_false nofun List.not_mem_nil
  nodup := .nil

theorem Kept.leaves (h : Kept level pool) : pool.info.leaves = 2 ^ pool.info.level - 1 := by
  rw [h.leaves_eq, h.level_eq]

theorem Kept.used_of_live (h : Kept level pool) {block : ℕ × ℕ} (hblock : block ∈ pool.live) :
    pool.info.tree block.1 = .used :=
  (h.marked block.1).mpr (List.mem_map_of_mem hblock)

/-- A live pointer is the pointer of one block, and a release takes this block out. -/
theorem exists_live {live : List (ℕ × ℕ)} {ptr : ℕ} (hlive : ∃ pos, (pos, ptr) ∈ live) :
    ∃ block, block ∈ live ∧ block.2 = ptr ∧
      live.Perm (block :: live.eraseP fun block ↦ block.2 = ptr) := by
  obtain ⟨pos, hmem⟩ := hlive
  obtain ⟨block, front, back, -, hptr, hsplit, hrest⟩ :=
    List.exists_of_eraseP (p := fun block ↦ block.2 = ptr) hmem (by simp)
  have hperm : live.Perm (block :: live.eraseP fun block ↦ block.2 = ptr) := by
    rw [hrest, hsplit]
    exact List.perm_middle
  exact ⟨block, hperm.mem_iff.mpr List.mem_cons_self, of_decide_eq_true hptr, hperm⟩

theorem takeWhole_root_grants {info : BuddyInfo} (hfree : info.tree 0 = .free) :
    Grants info.tree (takeWhole info 0).1.tree 0 := by
  have htree : (takeWhole info 0).1.tree = Function.update info.tree 0 .used := rfl
  rw [htree]
  refine ⟨hfree, Function.update_self .., fun m hm hunder ↦ ?_, fun m hnot ↦ ?_⟩
  · exact absurd (Nat.le_zero.mp hunder.le) hm
  · apply Function.update_of_ne
    intro heq
    exact hnot (heq ▸ Under.refl m)

theorem poolStep_alloc {bytes : ℕ} {info : BuddyInfo} {block : Option (ℕ × ℕ)}
    (h : buddyAlloc pool.info bytes = .ok (info, block)) :
    poolStep pool (.alloc bytes) = .ok (⟨info, pool.live ++ block.toList⟩, block.map Prod.snd) := by
  rw [poolStep, h, ok_bind]
  rfl

/-- A request for any number of bytes that comes to an end. -/
theorem Kept.alloc_cases (h : Kept level pool) (hpos : 0 < level) {bytes : ℕ}
    (hbits : BitsEnd (bytes / kb)) :
    (∃ info block, buddyAlloc pool.info bytes = .ok (info, some block) ∧
        Granted level bytes pool.info info block) ∨
      (buddyAlloc pool.info bytes = .ok (pool.info, none) ∧
        Refused level bytes pool.info.tree) := by
  obtain ⟨rfl⟩ := h.level_eq
  by_cases hlevel : pool.info.level ≤ 22
  · by_cases hfits : FitsInt pool.info.level (allocSize bytes)
    · rcases buddyAlloc_fits hbits hpos hlevel h.leaves hfits h.childrenFree with
        ⟨info', pos, hcall, htakes, hsize⟩ | ⟨hnone, hsmall⟩
      · exact .inl ⟨info', _, hcall, hlevel, htakes.level, htakes.leaves, htakes.grants,
          htakes.inside, blockAddress_eq hlevel htakes.inside htakes.worth, .inl hsize⟩
      · exact .inr ⟨hnone, .small hlevel hfits hsmall⟩
    · rw [FitsInt, not_or, not_le, not_le] at hfits
      have heq : pool.info.level = 22 := by omega
      have hcall := buddyAlloc_root hbits heq h.leaves hfits.2
      by_cases hroot : pool.info.tree 0 = .free
      · rw [if_pos hroot, takeWhole] at hcall
        left
        refine ⟨_, _, hcall, hlevel, rfl, rfl, takeWhole_root_grants hroot, ?_, ?_, ?_⟩
        · rwa [depth_root]
        · rw [heq]
          decide +kernel
        · exact .inr ⟨heq, rfl, hfits.2⟩
      · rw [if_neg hroot] at hcall
        exact .inr ⟨hcall, .root heq hfits.2 hroot⟩
  · exact .inr ⟨buddyAlloc_over hbits (not_le.mp hlevel), .beyond (not_le.mp hlevel)⟩

theorem Kept.alloc_moves (h : Kept level pool) (hpos : 0 < level) {bytes : ℕ}
    (hbits : BitsEnd (bytes / kb)) : ∃ next output,
      poolStep pool (.alloc bytes) = .ok (next, output) ∧ Moves level pool (.alloc bytes) next := by
  rcases h.alloc_cases hpos hbits with ⟨info, block, hcall, hgranted⟩ | ⟨hcall, -⟩
  · have hmoves := Moves.grants bytes hgranted.level_eq hgranted.leaves_eq hgranted.grants
      hgranted.inside
    rw [← hgranted.address] at hmoves
    exact ⟨_, _, poolStep_alloc hcall, hmoves⟩
  · refine ⟨pool, none, ?_, .stays bytes⟩
    rw [poolStep_alloc hcall, Option.toList_none, List.append_nil]
    rfl

theorem Kept.free_moves (h : Kept level pool) {ptr : ℕ} (hlive : ∃ pos, (pos, ptr) ∈ pool.live) :
    ∃ next output, poolStep pool (.free ptr) = .ok (next, output) ∧
      Moves level pool (.free ptr) next := by
  obtain ⟨rfl⟩ := h.level_eq
  obtain ⟨block, hblock, rfl, hperm⟩ := exists_live hlive
  obtain ⟨info, hcall, hlevel, hleaves, htree⟩ : ∃ info, buddyFree pool.info block.2 = .ok info ∧
      info.level = pool.info.level ∧ info.leaves = pool.info.leaves ∧
      info.tree = buddyMerge (Function.update pool.info.tree block.1 .free) block.1 := by
    rw [h.address block hblock]
    exact ⟨_, buddyFree_used h.childrenFree h.leaves (h.inside block hblock)
      (h.used_of_live hblock), rfl, rfl, rfl⟩
  refine ⟨_, none, ?_, .releases hperm hlevel hleaves htree⟩
  rw [poolStep, hcall, ok_bind]
  rfl

theorem bitsEnd_of_alloc {bytes : ℕ} {result : BuddyInfo × Option (ℕ × ℕ)}
    (h : buddyAlloc pool.info bytes = .ok result) : BitsEnd (bytes / kb) := by
  by_contra hends
  rw [buddyAlloc, if_neg hends] at h
  cases h

/-- A block that was returned was granted. -/
theorem Kept.granted (h : Kept level pool) (hpos : 0 < level) {bytes : ℕ} {info : BuddyInfo}
    {block : ℕ × ℕ} (halloc : buddyAlloc pool.info bytes = .ok (info, some block)) :
    Granted level bytes pool.info info block := by
  rcases h.alloc_cases hpos (bitsEnd_of_alloc halloc) with ⟨_, _, hcall, hgranted⟩ | ⟨hcall, -⟩
  · rw [halloc] at hcall
    cases hcall
    exact hgranted
  · rw [halloc] at hcall
    cases hcall

/-- A call of a run that is not stuck in the bit count. -/
theorem Kept.moves (h : Kept level pool) (hpos : 0 < level) (hcall : FreesLive pool call)
    (hstep : poolStep pool call = .ok (next, output)) : Moves level pool call next := by
  have hsame {other : Pool} {output' : Option ℕ} (hother : poolStep pool call = .ok (other, output'))
      (hmoves : Moves level pool call other) : Moves level pool call next := by
    rw [hstep] at hother
    rwa [(Prod.mk.inj (Except.ok.inj hother)).1]
  cases call with
  | alloc bytes =>
    obtain ⟨result, halloc, -⟩ := bind_eq_ok.mp hstep
    obtain ⟨other, output', hother, hmoves⟩ := h.alloc_moves hpos (bitsEnd_of_alloc halloc)
    exact hsame hother hmoves
  | free ptr =>
    obtain ⟨other, output', hother, hmoves⟩ := h.free_moves hcall
    exact hsame hother hmoves

theorem Moves.kept (hmoves : Moves level pool call next) (h : Kept level pool) :
    Kept level next := by
  cases hmoves with
  | stays => exact h
  | @grants bytes info pos hlevel hleaves hgrants hinside =>
    have hnew : pos ∉ pool.live.map Prod.fst := by
      intro hmem
      have hused := (h.marked pos).mpr hmem
      rw [hgrants.free] at hused
      cases hused
    refine ⟨hlevel, hleaves.trans h.leaves_eq, hgrants.childrenFree h.childrenFree, ?_, ?_, ?_, ?_,
      ?_⟩
    · intro m hm
      by_cases hover : m ≠ pos ∧ Under m pos
      · have hle := hover.2.log_le
        have hne : depth m ≠ depth pos := fun heq ↦ hover.1 (hover.2.eq_of_log heq)
        have hlt : depth m < depth pos := lt_of_le_of_ne hle hne
        omega
      · apply h.splitInside m
        by_cases heq : m = pos
        · rw [heq, hgrants.taken] at hm
          cases hm
        · rwa [hgrants.other m fun hunder ↦ hover ⟨heq, hunder⟩] at hm
    · exact List.forall_mem_append.mpr ⟨h.inside, List.forall_mem_singleton.mpr hinside⟩
    · exact List.forall_mem_append.mpr ⟨h.address, List.forall_mem_singleton.mpr rfl⟩
    · intro m
      rw [hgrants.used_iff, h.marked, List.map_append, List.mem_append, List.map_singleton,
        List.mem_singleton, or_comm]
    · rw [List.map_append, List.map_singleton, List.nodup_append_comm]
      exact List.nodup_cons.mpr ⟨hnew, h.nodup⟩
  | @releases block rest info hperm hlevel hleaves hmerges =>
    have hmem (other : ℕ × ℕ) (hother : other ∈ rest) : other ∈ pool.live :=
      hperm.mem_iff.mpr (List.mem_cons_of_mem _ hother)
    have hpositions := hperm.map Prod.fst
    have hnodup := hpositions.nodup_iff.mp h.nodup
    rw [List.map_cons, List.nodup_cons] at hnodup
    obtain ⟨hfree, hkept⟩ := release_keeps h.childrenFree
      (h.used_of_live (hperm.mem_iff.mpr List.mem_cons_self))
    refine ⟨hlevel, hleaves.trans h.leaves_eq, hmerges ▸ hfree, ?_,
      fun other hother ↦ h.inside other (hmem other hother),
      fun other hother ↦ h.address other (hmem other hother), ?_, hnodup.2⟩
    · intro m hm
      rw [hmerges] at hm
      apply h.splitInside m
      rcases buddyMerge_or (Function.update pool.info.tree block.1 .free) block.1 m with
        hsame | ⟨-, hfree⟩
      · rw [hsame] at hm
        by_cases heq : m = block.1
        · rw [heq, Function.update_self] at hm
          cases hm
        · rwa [Function.update_of_ne heq] at hm
      · rw [hfree] at hm
        cases hm
    · intro m
      rw [hmerges, hkept, h.marked, hpositions.mem_iff, List.map_cons, List.mem_cons]
      constructor
      · intro hm
        exact hm.2.resolve_left hm.1
      · intro hm
        refine ⟨fun heq ↦ hnodup.1 ?_, .inr hm⟩
        rwa [← heq]

theorem kept_of_run {size : ℕ} {calls : List PoolCall} {outputs : List (Option ℕ)}
    (hcalls : EachStep poolStep FreesLive (newPool size) calls)
    (hrun : run poolStep (newPool size) calls = .ok (pool, outputs)) :
    Kept (buddyNew size).level pool := by
  refine run_invariant (fun before call after output h hcall hstep ↦ ?_) (newPool_kept size) hcalls
    hrun
  exact (h.moves (level_pos size) hcall hstep).kept h

/-- USED nodes are not under each other, so their leaves are apart. -/
theorem used_apart {tree : ℕ → BlockState} (hfree : ChildrenFree tree) {pos other : ℕ}
    (hpos : tree pos = .used) (hother : tree other = .used) (hinside : depth pos < level)
    (hinside' : depth other < level) (hne : pos ≠ other) :
    firstLeaf level pos + capacity level pos ≤ firstLeaf level other ∨
      firstLeaf level other + capacity level other ≤ firstLeaf level pos := by
  have hnever (m n : ℕ) (hm : tree m = .used) (hn : tree n = .used) (hmn : n ≠ m) : ¬ Under m n := by
    intro hunder
    have hbelow := hfree.under (by rw [hm]; exact nofun) hunder hmn
    rw [hn] at hbelow
    cases hbelow
  exact leaves_apart hinside hinside' (hnever pos other hpos hother hne.symm)
    (hnever other pos hother hpos hne)

end Kept

end FGDB.Buddy
