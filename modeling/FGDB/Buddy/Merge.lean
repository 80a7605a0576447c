import FGDB.Buddy.Pool

/-!
# Merging in the buddy allocator

A release climbs by halving the position. From a left child this is the way to the
parent, from a right child it is the way to the node beside the parent, at which the
climb stops. So two FREE children stay under a SPLIT node when the last of them to
become FREE is the right one.
-/

namespace FGDB.Buddy

open Foundation

/-- A SPLIT node over two FREE children. -/
def Mergeable (tree : ℕ → BlockState) (pos : ℕ) : Prop :=
  tree pos = .split ∧ tree (2 * pos + 1) = .free ∧ tree (2 * pos + 2) = .free

/-- The other child of the parent. -/
def buddyOf (pos : ℕ) : ℕ := if pos % 2 = 1 then pos + 1 else pos - 1

/-- Wherever merging has to go on, it is at a left child: the buddy of the node or of a node over it
is not FREE, or the node is a left child and so are those up to there. -/
def LeftClimb (tree : ℕ → BlockState) (pos : ℕ) : Prop :=
  if pos = 0 then True
  else tree (buddyOf pos) = .free → pos % 2 = 1 ∧ LeftClimb tree (pos / 2)
termination_by pos

instance decidableLeftClimb (tree : ℕ → BlockState) (pos : ℕ) : Decidable (LeftClimb tree pos) :=
  if h : pos = 0 then isTrue (by rw [LeftClimb, if_pos h]; trivial)
  else
    have := decidableLeftClimb tree (pos / 2)
    decidable_of_iff (tree (buddyOf pos) = .free → pos % 2 = 1 ∧ LeftClimb tree (pos / 2))
      (by rw [LeftClimb.eq_def tree pos, if_neg h])
termination_by pos

theorem leftClimb_root (tree : ℕ → BlockState) : LeftClimb tree 0 := by
  rw [LeftClimb, if_pos rfl]
  trivial

theorem leftClimb_left (tree : ℕ → BlockState) (n : ℕ) : LeftClimb tree (2 * n + 1) ↔
    (tree (2 * n + 2) = .free → LeftClimb tree n) := by
  have hodd : (2 * n + 1) % 2 = 1 := by omega
  have hhalf : (2 * n + 1) / 2 = n := by omega
  rw [LeftClimb, if_neg (Nat.succ_ne_zero _), buddyOf, if_pos hodd, hhalf, and_iff_right hodd]

theorem leftClimb_right (tree : ℕ → BlockState) (n : ℕ) : LeftClimb tree (2 * n + 2) ↔
    tree (2 * n + 1) ≠ .free := by
  have heven : ¬ (2 * n + 2) % 2 = 1 := by omega
  rw [LeftClimb, if_neg (Nat.succ_ne_zero _), buddyOf, if_neg heven, Nat.add_sub_assoc (by decide)]
  exact imp_congr_right fun _ ↦ iff_of_false (fun h ↦ heven h.1) id

theorem cases_pos (pos : ℕ) : pos = 0 ∨ (∃ n, pos = 2 * n + 1) ∨ ∃ n, pos = 2 * n + 2 := by
  rcases Nat.even_or_odd' pos with ⟨n, rfl | rfl⟩
  · cases n with
    | zero => exact .inl rfl
    | succ n => exact .inr (.inr ⟨n, by ring⟩)
  · exact .inr (.inl ⟨n, rfl⟩)

/-- The climb looks at the nodes beside its way only. -/
theorem leftClimb_update (tree : ℕ → BlockState) (state : BlockState) {pos below : ℕ}
    (hunder : Under pos below) :
    LeftClimb (Function.update tree below state) pos ↔ LeftClimb tree pos := by
  induction pos using Nat.strong_induction_on with
  | _ pos ih =>
    rcases cases_pos pos with rfl | ⟨n, rfl⟩ | ⟨n, rfl⟩
    · exact iff_of_true (leftClimb_root _) (leftClimb_root _)
    · have hne : 2 * n + 2 ≠ below := fun heq ↦ not_under_right hunder (heq ▸ .refl _)
      rw [leftClimb_left, leftClimb_left, Function.update_of_ne hne,
        ih n (by omega) ((Under.left n).trans hunder)]
    · have hne : 2 * n + 1 ≠ below := fun heq ↦ not_under_right (heq ▸ .refl (2 * n + 1)) hunder
      rw [leftClimb_right, leftClimb_right, Function.update_of_ne hne]

/-- A node that is not FREE has a SPLIT parent. -/
theorem ChildrenFree.parent {tree : ℕ → BlockState} (h : ChildrenFree tree) {parent child : ℕ}
    (hchild : child = 2 * parent + 1 ∨ child = 2 * parent + 2) (hstate : tree child ≠ .free) :
    tree parent = .split := by
  by_contra hopen
  rcases hchild with rfl | rfl
  · exact hstate (h parent hopen).1
  · exact hstate (h parent hopen).2

/-- After a node has become FREE nothing but its parent may be mergeable. Merging leaves nothing
mergeable if and only if it only climbs from left children. -/
theorem buddyMerge_iff {tree : ℕ → BlockState} (pos : ℕ) (hfree : tree pos = .free)
    (hchildren : ChildrenFree tree)
    (hparent : ∀ parent, (pos = 2 * parent + 1 ∨ pos = 2 * parent + 2) → tree parent = .split)
    (honly : ∀ m, Mergeable tree m → pos = 2 * m + 1 ∨ pos = 2 * m + 2) :
    (∀ m, ¬ Mergeable (buddyMerge tree pos) m) ↔ LeftClimb tree pos := by
  induction pos using Nat.strong_induction_on generalizing tree with
  | _ pos ih =>
    have hstop (hstop : ¬ Mergeable tree (pos / 2)) : buddyMerge tree pos = tree := by
      rw [buddyMerge, buddyMergeFrom]
      exact if_neg hstop
    rcases cases_pos pos with rfl | ⟨n, rfl⟩ | ⟨n, rfl⟩
    · have hnone (m : ℕ) : ¬ Mergeable tree m := fun hm ↦ by
        have hchild := honly m hm
        omega
      rw [hstop (hnone 0)]
      exact iff_of_true hnone (leftClimb_root tree)
    · have hhalf : (2 * n + 1) / 2 = n := by omega
      rw [hhalf] at hstop
      rw [leftClimb_left]
      by_cases hbuddy : tree (2 * n + 2) = .free
      · have hmerge : tree n = .split ∧ tree (2 * n + 1) = .free ∧ tree (2 * n + 2) = .free :=
          ⟨hparent n (.inl rfl), hfree, hbuddy⟩
        have hnext : buddyMerge tree (2 * n + 1) = buddyMerge (Function.update tree n .free) n := by
          rw [buddyMerge, hhalf, buddyMergeFrom, if_pos hmerge]
          cases n with
          | zero =>
            rw [if_pos rfl, buddyMerge, buddyMergeFrom, if_neg]
            intro hroot
            rw [Function.update_self] at hroot
            cases hroot.1
          | succ n => rw [if_neg (Nat.succ_ne_zero n), buddyMerge]
        have hkeep (m : ℕ) (hm : m ≠ n) : Function.update tree n .free m = tree m :=
          Function.update_of_ne hm ..
        rw [hnext, ih n (by omega) (Function.update_self ..) (hchildren.release hmerge.2),
          leftClimb_update tree .free (.refl n)]
        · exact ⟨fun hclimb _ ↦ hclimb, fun hclimb ↦ hclimb hbuddy⟩
        · intro parent hn
          rw [hkeep parent (by omega)]
          apply hchildren.parent hn
          rw [hmerge.1]
          exact nofun
        · intro m hm
          by_contra hnot
          rw [not_or] at hnot
          have hmn : m ≠ n := by
            intro heq
            rw [heq, Mergeable, Function.update_self] at hm
            cases hm.1
          rw [Mergeable, hkeep m hmn, hkeep _ (Ne.symm hnot.1), hkeep _ (Ne.symm hnot.2)] at hm
          have hchild := honly m hm
          omega
      · rw [hstop fun hm ↦ hbuddy hm.2.2]
        apply iff_of_true
        · intro m hm
          obtain rfl : m = n := by
            have hchild := honly m hm
            omega
          exact hbuddy hm.2.2
        · exact fun hfree ↦ absurd hfree hbuddy
    · have hnone : ¬ Mergeable tree ((2 * n + 2) / 2) := fun hm ↦ by
        have hchild := honly _ hm
        omega
      rw [hstop hnone, leftClimb_right]
      constructor
      · intro h hbuddy
        exact h n ⟨hparent n (.inr rfl), hbuddy, hfree⟩
      · intro hbuddy m hm
        obtain rfl : m = n := by
          have hchild := honly m hm
          omega
        exact hbuddy hm.2.1

/-- Nothing is left to merge, and when no block is live a request for the whole pool succeeds. -/
structure Merged (size : ℕ) (pool : Pool) : Prop where
  none : ∀ pos, ¬ Mergeable pool.info.tree pos
  root : pool.live = [] → pool.info.tree 0 = .free
  whole : pool.live = [] → ∃ info block,
    buddyAlloc pool.info (poolBytes size) = .ok (info, some block)

/-- The merging after a release climbs from left children only. -/
def ReleasesLeft (pool : Pool) : PoolCall → Prop
  | .alloc _ => True
  | .free ptr => ∀ block ∈ pool.live, block.2 = ptr → LeftClimb pool.info.tree block.1

section Step

variable {level size : ℕ} {pool next : Pool} {call : PoolCall}

theorem Grants.none {tree tree' : ℕ → BlockState} {pos : ℕ} (h : Grants tree tree' pos)
    (hnone : ∀ m, ¬ Mergeable tree m) (m : ℕ) : ¬ Mergeable tree' m := by
  intro hm
  have hside (child : ℕ) (hstate : tree' child = .free) : ¬ Under child pos := by
    intro hunder
    by_cases heq : child = pos
    · rw [heq, h.taken] at hstate
      cases hstate
    · rw [(h.above child heq hunder).2] at hstate
      cases hstate
  have hover : ¬ Under m pos := by
    intro hunder
    rcases hunder.cases_child with heq | hleft | hright
    · rw [← heq, Mergeable, h.taken] at hm
      cases hm.1
    · exact hside _ hm.2.1 hleft
    · exact hside _ hm.2.2 hright
  apply hnone m
  rw [Mergeable, ← h.other m hover, ← h.other _ (hside _ hm.2.1), ← h.other _ (hside _ hm.2.2)]
  exact hm

theorem live_eq_of_ptr (h : Kept level pool) {block other : ℕ × ℕ} (hblock : block ∈ pool.live)
    (hother : other ∈ pool.live) (hptr : other.2 = block.2) : other.1 = block.1 := by
  by_contra hne
  have hapart := used_apart h.childrenFree (h.used_of_live hother) (h.used_of_live hblock)
    (h.inside other hother) (h.inside block hblock) hne
  have hcapacity (m : ℕ) : 0 < capacity level m := Nat.two_pow_pos _
  have hfirst := hcapacity block.1
  have hsecond := hcapacity other.1
  rw [h.address other hother, h.address block hblock] at hptr
  have hleaf := Nat.eq_of_mul_eq_mul_right kb_pos hptr
  omega

/-- One call leaves nothing to merge if and only if it does not release from the right. -/
theorem Moves.none_iff (hmoves : Moves level pool call next) (h : Kept level pool)
    (hnone : ∀ m, ¬ Mergeable pool.info.tree m) :
    (∀ m, ¬ Mergeable next.info.tree m) ↔ ReleasesLeft pool call := by
  cases hmoves with
  | stays => exact iff_of_true hnone trivial
  | grants bytes hlevel hleaves hgrants hinside => exact iff_of_true (hgrants.none hnone) trivial
  | @releases block rest info hperm hlevel hleaves hmerges =>
    have hblock : block ∈ pool.live := hperm.mem_iff.mpr List.mem_cons_self
    have hused := h.used_of_live hblock
    have hopen : pool.info.tree block.1 ≠ .split := by
      rw [hused]
      exact nofun
    have hbusy : pool.info.tree block.1 ≠ .free := by
      rw [hused]
      exact nofun
    have hkeep (m : ℕ) (hm : m ≠ block.1) :
        Function.update pool.info.tree block.1 .free m = pool.info.tree m :=
      Function.update_of_ne hm ..
    have hleft : ReleasesLeft pool (.free block.2) ↔ LeftClimb pool.info.tree block.1 := by
      constructor
      · intro hall
        exact hall block hblock rfl
      · intro hclimb other hother hptr
        rwa [live_eq_of_ptr h hblock hother hptr]
    rw [hleft, hmerges, ← leftClimb_update pool.info.tree .free (.refl block.1)]
    apply buddyMerge_iff
    · exact Function.update_self ..
    · exact h.childrenFree.release (h.childrenFree _ hopen)
    · intro parent hchild
      rw [hkeep parent (by omega)]
      exact h.childrenFree.parent hchild hbusy
    · intro m hm
      by_contra hnot
      rw [not_or] at hnot
      have hmb : m ≠ block.1 := by
        intro heq
        rw [heq, Mergeable, Function.update_self] at hm
        cases hm.1
      rw [Mergeable, hkeep m hmb, hkeep _ (Ne.symm hnot.1), hkeep _ (Ne.symm hnot.2)] at hm
      exact hnone m hm

/-- With nothing to merge, a USED node is under each SPLIT one. -/
theorem exists_used {tree : ℕ → BlockState} (hinside : SplitInside level tree)
    (hnone : ∀ m, ¬ Mergeable tree m) {pos : ℕ} (hsplit : tree pos = .split) :
    ∃ m, tree m = .used := by
  obtain ⟨height, hheight⟩ : ∃ height, level - depth pos = height := ⟨_, rfl⟩
  induction height generalizing pos with
  | zero =>
    have hdepth := hinside pos hsplit
    omega
  | succ height ih =>
    have hchild : ∃ child, depth child = depth pos + 1 ∧ tree child ≠ .free := by
      by_contra hall
      have hall' (child : ℕ) (hchild : depth child = depth pos + 1) : tree child = .free := by
        by_contra hfree
        exact hall ⟨child, hchild, hfree⟩
      exact hnone pos ⟨hsplit, hall' _ (depth_left pos), hall' _ (depth_right pos)⟩
    obtain ⟨child, hdepth, hfree⟩ := hchild
    cases hstate : tree child with
    | free => exact absurd hstate hfree
    | used => exact ⟨child, hstate⟩
    | split => exact ih hstate (by omega)

theorem bsqrt_pow (e : ℕ) : bsqrt (2 ^ e) = e := by
  rw [bsqrt, Nat.size_pow, Nat.add_sub_cancel, Nat.one_shiftLeft, if_pos rfl]

/-- In a pool of at most `2 ^ 21` kilobytes the root is what the whole pool needs. -/
theorem Kept.merged_iff (h : Kept (buddyNew size).level pool) (hsize : wrap32 size ≤ 2 ^ 21) :
    Merged size pool ↔ ∀ pos, ¬ Mergeable pool.info.tree pos := by
  refine ⟨Merged.none, fun hnone ↦ ?_⟩
  have hlevel := (level_le_iff size 21).mpr hsize
  have hpositive := level_pos size
  have hdiv := poolBytes_div size
  obtain ⟨level, hlevelEq⟩ : ∃ level, (buddyNew size).level = level := ⟨_, rfl⟩
  rw [hlevelEq] at h hlevel hpositive hdiv
  obtain ⟨rfl⟩ := h.level_eq
  have hroot (hlive : pool.live = []) : pool.info.tree 0 = .free := by
    have hunused (m : ℕ) : pool.info.tree m ≠ .used := by
      rw [Ne, h.marked, hlive]
      exact List.not_mem_nil
    cases hstate : pool.info.tree 0 with
    | free => rfl
    | used => exact absurd hstate (hunused 0)
    | split =>
      obtain ⟨m, hm⟩ := exists_used h.splitInside hnone hstate
      exact absurd hm (hunused m)
  refine ⟨hnone, hroot, fun hlive ↦ ?_⟩
  have hpow : 2 ^ (pool.info.level - 1) ≤ 2 ^ 21 := Nat.pow_le_pow_right Nat.two_pos (by omega)
  have hwrap : wrap32 (poolBytes size / kb) = 2 ^ (pool.info.level - 1) := by
    rw [hdiv, wrap32, Nat.mod_eq_of_lt (by omega)]
  have hbits : BitsEnd (poolBytes size / kb) := by
    rw [BitsEnd, hwrap]
    omega
  have hkbytes : allocSize (poolBytes size) = 2 ^ (pool.info.level - 1) := by
    rw [allocSize_eq, hwrap, bsqrt_pow]
  rcases h.alloc_cases hpositive hbits with ⟨info, block, hcall, -⟩ | ⟨-, hrefused⟩
  · exact ⟨info, block, hcall⟩
  · cases hrefused with
    | small _ _ hsmall =>
      have hexposed : Exposed pool.info.tree 0 0 :=
        ⟨.refl 0, hroot hlive, fun m hm _ hunder ↦ absurd (Nat.le_zero.mp hunder.le) hm⟩
      have hlt := hsmall 0 hexposed (by rwa [depth_root])
      rw [hkbytes, capacity, depth_root, Nat.sub_zero] at hlt
      exact absurd hlt (lt_irrefl _)
    | root _ _ hbusy => exact absurd (hroot hlive) hbusy
    | beyond hlevel => omega

end Step

/-- A pool of more than `2 ^ 21` kilobytes does not serve a request for the whole of it. -/
theorem not_merged_newPool {size : ℕ} (hsize : 2 ^ 21 < wrap32 size) :
    ¬ Merged size (newPool size) := by
  intro h
  obtain ⟨info, block, hcall⟩ := h.whole rfl
  by_cases hbits : BitsEnd (poolBytes size / kb)
  · have hlevel : 22 < (buddyNew size).level := by
      by_contra hle
      have hsmall := (level_le_iff size 21).mp (Nat.le_of_not_lt hle)
      omega
    have hnone : buddyAlloc (newPool size).info (poolBytes size) = .ok ((newPool size).info, none) :=
      buddyAlloc_over hbits hlevel
    rw [hcall] at hnone
    cases hnone
  · rw [buddyAlloc, if_neg hbits] at hcall
    cases hcall

/-- The pool is merged in every state of a run. -/
def StaysMerged (size : ℕ) (calls : List PoolCall) : Prop :=
  ∀ done, done <+: calls → ∀ pool outputs,
    run poolStep (newPool size) done = .ok (pool, outputs) → Merged size pool

/-- Nothing is ever left to merge, and the empty pool can be had as a whole, exactly in a run in
which merging climbs from left children only, in a pool of at most `2 ^ 21` kilobytes. -/
theorem staysMerged_iff {size : ℕ} {calls : List PoolCall}
    (hcalls : EachStep poolStep FreesLive (newPool size) calls) : StaysMerged size calls ↔
      wrap32 size ≤ 2 ^ 21 ∧ EachStep poolStep ReleasesLeft (newPool size) calls := by
  rw [StaysMerged]
  by_cases hsize : wrap32 size ≤ 2 ^ 21
  · have hstart : Merged size (newPool size) :=
      ((newPool_kept size).merged_iff hsize).mpr fun _ hm ↦ nomatch hm.1
    have hstep (pool : Pool) (call : PoolCall) (next : Pool) (output : Option ℕ)
        (h : Kept (buddyNew size).level pool) (hmerged : Merged size pool)
        (hcall : FreesLive pool call) (hstep : poolStep pool call = .ok (next, output)) :
        Kept (buddyNew size).level next ∧ (Merged size next ↔ ReleasesLeft pool call) := by
      have hmoves := h.moves (level_pos size) hcall hstep
      have hnext := hmoves.kept h
      refine ⟨hnext, ?_⟩
      rw [hnext.merged_iff hsize]
      exact hmoves.none_iff h hmerged.none
    have hfault (pool : Pool) (call : PoolCall) (fault : Fault)
        (h : Kept (buddyNew size).level pool) (_ : Merged size pool) (hcall : FreesLive pool call)
        (hstep : poolStep pool call = .error fault) : ReleasesLeft pool call := by
      cases call with
      | alloc bytes => trivial
      | free ptr =>
        obtain ⟨next, output, hok, -⟩ := h.free_moves hcall
        rw [hok] at hstep
        cases hstep
    rw [forall_prefix_iff hstep hfault (newPool_kept size) hcalls, and_iff_right hstart,
      and_iff_right hsize]
  · refine iff_of_false (fun h ↦ ?_) fun h ↦ hsize h.1
    exact not_merged_newPool (not_le.mp hsize) (h [] List.nil_prefix _ [] rfl)

instance (pool : Pool) (call : PoolCall) : Decidable (ReleasesLeft pool call) :=
  match call with
  | .alloc _ => isTrue trivial
  | .free _ => inferInstanceAs (Decidable (∀ block ∈ pool.live, _ → _))

/-- Two chunks come back, the left one last. -/
theorem staysMerged_left_last :
    StaysMerged 2 [.alloc 1024, .alloc 1024, .free 1024, .free 0] :=
  (staysMerged_iff (by decide +kernel)).mpr ⟨by decide, by decide +kernel⟩

/-- When the right one is the last, both stay under a SPLIT root. -/
theorem not_staysMerged_right_last : ¬ ∀ size calls,
    EachStep poolStep FreesLive (newPool size) calls → StaysMerged size calls := by
  intro hall
  have hcalls : EachStep poolStep FreesLive (newPool 2)
      [.alloc 1024, .alloc 1024, .free 0, .free 1024] := by decide +kernel
  have hstates : (run poolStep (newPool 2) [.alloc 1024, .alloc 1024, .free 0, .free 1024]).toOption.map
      (fun result ↦ (result.1.info.tree 0, result.1.info.tree 1, result.1.info.tree 2)) =
        some (.split, .free, .free) := by decide +kernel
  obtain ⟨result, hrun, htree⟩ := exists_ok_of_map hstates
  have hmerged := hall 2 _ hcalls _ (List.prefix_refl _) result.1 result.2 hrun
  rw [Prod.mk.injEq, Prod.mk.injEq] at htree
  exact hmerged.none 0 htree

end FGDB.Buddy
