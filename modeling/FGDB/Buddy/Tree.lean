import FGDB.Buddy.Memory
import FGDB.Foundation.BinaryTree
import Mathlib.Tactic.NormNum

/-!
# The tree of the buddy allocator

A node is worth a power of two of kilobytes, half of it for each child. What is
under a FREE or USED node is FREE; a request keeps this and marks one node, a
release unmarks one, and merging changes no USED node at all.
-/

namespace FGDB.Buddy

open Foundation

/-- The depth of a position. -/
def depth (pos : ℕ) : ℕ := Nat.log 2 (pos + 1)

/-- What a node is worth in kilobytes. -/
def capacity (level pos : ℕ) : ℕ := 2 ^ (level - 1 - depth pos)

theorem bsqrt_succ {num : ℕ} (h : 0 < num) : bsqrt (num + 1) = Nat.log 2 num + 1 := by
  have hle := Nat.pow_log_le_self 2 h.ne'
  have hlt := Nat.lt_pow_succ_log_self Nat.one_lt_two num
  have hsucc : 2 ^ (Nat.log 2 num).succ = 2 * 2 ^ Nat.log 2 num := pow_succ' ..
  unfold bsqrt
  by_cases hpow : num + 1 = 2 ^ (Nat.log 2 num + 1)
  · have hsize : (num + 1).size = Nat.log 2 num + 1 + 1 := by
      rw [hpow, Nat.size_pow]
    rw [hsize, Nat.one_shiftLeft, Nat.add_sub_cancel, if_pos hpow.symm]
  · have hsize : (num + 1).size = Nat.log 2 num + 1 := by
      apply le_antisymm
      · rw [Nat.size_le]
        omega
      · rw [Nat.succ_le_iff, Nat.lt_size]
        omega
    rw [hsize, Nat.one_shiftLeft, Nat.add_sub_cancel, if_neg]
    omega

theorem bsqrt_le {num bound : ℕ} (hle : num ≤ 2 ^ bound) : bsqrt num ≤ bound := by
  cases num with
  | zero => exact Nat.zero_le _
  | succ prev =>
    rcases Nat.eq_zero_or_pos prev with rfl | hpos
    · exact Nat.zero_le _
    · rw [bsqrt_succ hpos, Nat.succ_le_iff]
      exact Nat.log_lt_of_lt_pow hpos.ne' hle

/-- The power of two is not below the number. -/
theorem le_pow_bsqrt (num : ℕ) : num ≤ 2 ^ bsqrt num := by
  cases num with
  | zero => exact Nat.zero_le _
  | succ prev =>
    rcases Nat.eq_zero_or_pos prev with rfl | hpos
    · exact Nat.one_le_two_pow
    · rw [bsqrt_succ hpos]
      exact Nat.lt_pow_succ_log_self Nat.one_lt_two prev

theorem levelFromPos_eq (pos : ℕ) : levelFromPos pos = depth pos + 1 := bsqrt_succ (Nat.succ_pos pos)

theorem depth_left (pos : ℕ) : depth (2 * pos + 1) = depth pos + 1 := log_left pos

theorem depth_right (pos : ℕ) : depth (2 * pos + 2) = depth pos + 1 := log_right pos

theorem succ_lt_of_depth {level pos : ℕ} (h : depth pos < level) : pos + 1 < 2 ^ level :=
  (Nat.lt_pow_succ_log_self Nat.one_lt_two (pos + 1)).trans_le
    (Nat.pow_le_pow_right (Nat.succ_pos 1) h)

theorem capasity_of_le : ∀ e < 21,
    ((intMul (1 <<< e : ℕ) minChunk).tdiv kb % 2 ^ 32).toNat = 2 ^ e := by
  decide +kernel

/-- For the root of the largest pool the product does not fit. -/
theorem capasity_root : capasityFromPos 22 0 = 2 ^ 32 - 2 ^ 21 := by
  decide +kernel

theorem capasityFromPos_eq {level pos : ℕ} (h : level - 1 - depth pos < 21) :
    capasityFromPos level pos = capacity level pos := by
  rw [capasityFromPos, levelFromPos_eq, Nat.add_comm, ← Nat.sub_sub]
  exact capasity_of_le _ h

/-- The sizes for which the wrong capacity of the root is not noticed. -/
def FitsInt (level kbytes : ℕ) : Prop := level ≤ 21 ∨ kbytes ≤ 2 ^ 20

theorem capasity_cases {level kbytes pos : ℕ} (hlevel : level ≤ 22) (hfits : FitsInt level kbytes) :
    capasityFromPos level pos = capacity level pos ∨
      (kbytes ≤ capasityFromPos level pos / 2 ∧ kbytes ≤ capacity level pos / 2) := by
  by_cases h : level - 1 - depth pos < 21
  · exact .inl (capasityFromPos_eq h)
  · have hdepth : level = 22 ∧ depth pos = 0 := by omega
    have hpos : pos = 0 := by
      have hlt : pos + 1 < 2 ^ 1 := succ_lt_of_depth (Nat.lt_succ_of_le hdepth.2.le)
      omega
    have hsmall : kbytes ≤ 2 ^ 20 := by
      rcases hfits with hle | hle
      · omega
      · exact hle
    rw [hdepth.1, hpos, capasity_root]
    refine .inr ⟨hsmall.trans (by decide), ?_⟩
    rw [capacity, ← hpos, hdepth.2]
    exact hsmall

theorem capacity_le_of_under {level above pos : ℕ} (h : Under above pos) :
    capacity level pos ≤ capacity level above :=
  Nat.pow_le_pow_right Nat.two_pos (Nat.sub_le_sub_left h.log_le _)

theorem capacity_child {level pos child : ℕ} (hchild : depth child = depth pos + 1)
    (h : depth child < level) : capacity level child = capacity level pos / 2 := by
  rw [capacity, capacity, hchild, ← Nat.sub_sub, Nat.pow_sub_one Nat.two_pos.ne']
  omega

/-- The children of a node that is not SPLIT are FREE. -/
def ChildrenFree (tree : ℕ → BlockState) : Prop :=
  ∀ pos, tree pos ≠ .split → tree (2 * pos + 1) = .free ∧ tree (2 * pos + 2) = .free

/-- What is under a node that is not SPLIT is FREE. -/
theorem ChildrenFree.under {tree : ℕ → BlockState} (h : ChildrenFree tree) {pos below : ℕ}
    (hpos : tree pos ≠ .split) (hunder : Under pos below) (hne : below ≠ pos) :
    tree below = .free := by
  have hall (child : ℕ) (hchild : tree child = .free) (hbelow : Under child below) :
      tree below = .free := by
    refine hbelow.induction (p := fun i ↦ tree i = .free) hchild (fun i hi ↦ (h i ?_).1) fun i hi ↦ (h i ?_).2
    · rw [hi]
      exact nofun
    · rw [hi]
      exact nofun
  rcases hunder.cases_child with heq | hleft | hright
  · exact absurd heq hne
  · exact hall _ (h pos hpos).1 hleft
  · exact hall _ (h pos hpos).2 hright

section Take

variable {info info' : BuddyInfo} {level n pos : ℕ}

/-- A FREE node of a subtree has become USED, and the nodes above it in the subtree SPLIT. -/
structure Takes (info info' : BuddyInfo) (n pos : ℕ) : Prop where
  level : info'.level = info.level
  leaves : info'.leaves = info.leaves
  under : Under n pos
  inside : depth pos < info.level
  worth : capasityFromPos info.level pos = capacity info.level pos
  free : info.tree pos = .free
  taken : info'.tree pos = .used
  split : ∀ m, m ≠ pos → Under n m → Under m pos → info'.tree m = .split ∧ info.tree m ≠ .used
  other : ∀ m, ¬ (Under n m ∧ Under m pos) → info'.tree m = info.tree m
  used : info'.used = wrap32 (info.used + capacity info.level pos)

theorem takeWhole_takes (hinside : depth pos < info.level) (hfree : info.tree pos = .free)
    (hworth : capasityFromPos info.level pos = capacity info.level pos) :
    Takes info (takeWhole info pos).1 pos pos := by
  obtain ⟨used, hused⟩ : ∃ used, wrap32 (info.used + capacity info.level pos) = used := ⟨_, rfl⟩
  have hwhole : (takeWhole info pos).1 =
      { info with tree := Function.update info.tree pos .used, used := used } := by
    rw [takeWhole, hworth, hused]
  rw [hwhole]
  refine ⟨rfl, rfl, .refl pos, hinside, hworth, hfree, Function.update_self .., ?_, ?_, hused.symm⟩
  · intro m hne hunder hback
    exact absurd (le_antisymm hback.le hunder.le) hne
  · intro m hnot
    refine Function.update_of_ne (fun heq ↦ hnot ?_) ..
    rw [heq]
    exact ⟨.refl pos, .refl pos⟩

/-- The node over a subtree in which a node was taken becomes SPLIT. -/
theorem Takes.mark {child other : ℕ} (h : Takes info info' child pos)
    (hchild : (child = 2 * n + 1 ∧ other = 2 * n + 2) ∨ (child = 2 * n + 2 ∧ other = 2 * n + 1))
    (hused : info.tree n ≠ .used) : Takes info (markSplit info' n) n pos := by
  have hlt : n < pos := by
    have hle := h.under.le
    omega
  have hnchild : Under n child := by
    rcases hchild with ⟨rfl, -⟩ | ⟨rfl, -⟩
    · exact .left n
    · exact .right n
  have hnot (m : ℕ) (hm : Under other m) : ¬ Under m pos := by
    intro hpos
    have hother := hm.trans hpos
    rcases hchild with ⟨rfl, rfl⟩ | ⟨rfl, rfl⟩
    · exact not_under_right h.under hother
    · exact not_under_right hother h.under
  refine ⟨h.level, h.leaves, hnchild.trans h.under, h.inside, h.worth, h.free, ?_, ?_, ?_, h.used⟩
  · exact (Function.update_of_ne hlt.ne' ..).trans h.taken
  · intro m hne hunder hback
    by_cases hm : m = n
    · rw [hm]
      exact ⟨Function.update_self .., hused⟩
    · have hin : Under child m := by
        have hcases := hunder.cases_child
        rcases hchild with ⟨rfl, rfl⟩ | ⟨rfl, rfl⟩
        · rcases hcases with heq | hleft | hright
          · exact absurd heq hm
          · exact hleft
          · exact absurd hback (hnot m hright)
        · rcases hcases with heq | hleft | hright
          · exact absurd heq hm
          · exact absurd hback (hnot m hleft)
          · exact hright
      obtain ⟨hsplit, hopen⟩ := h.split m hne hin hback
      exact ⟨(Function.update_of_ne hm ..).trans hsplit, hopen⟩
  · intro m hout
    have hm : m ≠ n := by
      intro heq
      rw [heq] at hout
      exact hout ⟨.refl n, hnchild.trans h.under⟩
    refine (Function.update_of_ne hm ..).trans (h.other m fun hin ↦ hout ?_)
    exact ⟨hnchild.trans hin.1, hin.2⟩

/-- A SPLIT node over a subtree in which a node was taken stays as it is. -/
theorem Takes.stay {child other : ℕ} (h : Takes info info' child pos)
    (hchild : (child = 2 * n + 1 ∧ other = 2 * n + 2) ∨ (child = 2 * n + 2 ∧ other = 2 * n + 1))
    (hsplit : info.tree n = .split) : Takes info info' n pos := by
  have hnchild : Under n child := by
    rcases hchild with ⟨rfl, -⟩ | ⟨rfl, -⟩
    · exact .left n
    · exact .right n
  have hsame : info'.tree n = .split := by
    rw [← hsplit]
    refine h.other n fun hin ↦ ?_
    have hle := hin.1.le
    omega
  have hmark : markSplit info' n = info' := by
    rw [markSplit, ← hsame, Function.update_eq_self]
  rw [← hmark]
  exact h.mark hchild (by rw [hsplit]; exact nofun)

end Take

/-- A FREE node of a subtree over which all nodes of the subtree are SPLIT. -/
structure Exposed (tree : ℕ → BlockState) (n pos : ℕ) : Prop where
  under : Under n pos
  free : tree pos = .free
  split : ∀ m, m ≠ pos → Under n m → Under m pos → tree m = .split

theorem Exposed.cases {tree : ℕ → BlockState} {n pos : ℕ} (h : Exposed tree n pos) :
    pos = n ∧ tree n = .free ∨
      tree n = .split ∧ (Exposed tree (2 * n + 1) pos ∨ Exposed tree (2 * n + 2) pos) := by
  by_cases heq : pos = n
  · exact .inl ⟨heq, heq ▸ h.free⟩
  · right
    constructor
    · exact h.split n (Ne.symm heq) (.refl n) h.under
    · rcases h.under.cases_child with hroot | hleft | hright
      · exact absurd hroot heq
      · exact .inl ⟨hleft, h.free, fun m hm hunder ↦ h.split m hm ((Under.left n).trans hunder)⟩
      · exact .inr ⟨hright, h.free, fun m hm hunder ↦ h.split m hm ((Under.right n).trans hunder)⟩

/-- A request is compared with the capacity that is meant. -/
theorem capasity_compares {level kbytes pos : ℕ} (hlevel : level ≤ 22) (hfits : FitsInt level kbytes) :
    (kbytes ≤ capasityFromPos level pos ↔ kbytes ≤ capacity level pos) ∧
      (kbytes ≤ capasityFromPos level pos / 2 ↔ kbytes ≤ capacity level pos / 2) := by
  have hcases : capasityFromPos level pos = capacity level pos ∨
      (kbytes ≤ capasityFromPos level pos / 2 ∧ kbytes ≤ capacity level pos / 2) :=
    capasity_cases hlevel hfits
  rcases hcases with heq | ⟨hfirst, hsecond⟩
  · rw [heq]
    exact ⟨Iff.rfl, Iff.rfl⟩
  · exact ⟨iff_of_true (by omega) (by omega), iff_of_true hfirst hsecond⟩

/-- A block that is halved is not one of the smallest. -/
theorem depth_succ_lt_of_half {level kbytes pos : ℕ} (hkbytes : 0 < kbytes) (hpos : depth pos < level)
    (hle : kbytes ≤ capacity level pos / 2) : depth pos + 1 < level := by
  by_contra hlast
  have hone : capacity level pos = 1 := by
    rw [capacity, show level - 1 - depth pos = 0 by omega, pow_zero]
  omega

theorem not_exposed_of_used {tree : ℕ → BlockState} {n pos : ℕ} (hused : tree n = .used) :
    ¬ Exposed tree n pos := by
  intro h
  rcases h.cases with ⟨-, hfree⟩ | ⟨hsplit, -⟩
  · rw [hused] at hfree
    cases hfree
  · rw [hused] at hsplit
    cases hsplit

/-- Under a block that is split every one has half of its capacity at most. -/
theorem Exposed.capacity_le_half {tree : ℕ → BlockState} {level n pos : ℕ} (h : Exposed tree n pos)
    (hsplit : tree n = .split) (hdepth : depth pos < level) :
    capacity level pos ≤ capacity level n / 2 := by
  have hbelow : ∃ child, depth child = depth n + 1 ∧ Under child pos := by
    rcases h.cases with ⟨-, hfree⟩ | ⟨-, hchild | hchild⟩
    · rw [hsplit] at hfree
      cases hfree
    · exact ⟨_, depth_left n, hchild.under⟩
    · exact ⟨_, depth_right n, hchild.under⟩
  obtain ⟨child, hchild, hunder⟩ := hbelow
  calc
    capacity level pos ≤ capacity level child := capacity_le_of_under hunder
    _ = capacity level n / 2 := capacity_child hchild (lt_of_le_of_lt hunder.log_le hdepth)

/-- What a request does in a subtree: it takes a node of its size, or it leaves the tree as it is,
but only when every FREE node that it can get at is too small. -/
theorem buddyAckMemory_spec {kbytes : ℕ} (hkbytes : 0 < kbytes) {info : BuddyInfo}
    (hlevel : info.level ≤ 22) (hleaves : info.leaves = 2 ^ info.level - 1)
    (hfits : FitsInt info.level kbytes) (hfree : ChildrenFree info.tree) {fuel pos : ℕ}
    (hpos : depth pos < info.level) (hfuel : info.level ≤ depth pos + fuel) :
    (∃ info' taken, buddyAckMemory kbytes fuel pos info =
        .ok (info', some (taken, blockAddress info.level taken)) ∧ Takes info info' pos taken ∧
          kbytes ≤ capacity info.level taken ∧ capacity info.level taken / 2 < kbytes) ∨
      (buddyAckMemory kbytes fuel pos info = .ok (info, none) ∧
        ∀ m, Exposed info.tree pos m → depth m < info.level → capacity info.level m < kbytes) := by
  induction fuel generalizing pos with
  | zero => omega
  | succ fuel ih =>
    have hlt := succ_lt_of_depth hpos
    have hinside : ¬ info.leaves < pos := by omega
    have hindex : ¬ info.leaves ≤ pos := by omega
    obtain ⟨hwhole, hhalf⟩ : (kbytes ≤ capasityFromPos info.level pos ↔
        kbytes ≤ capacity info.level pos) ∧ (kbytes ≤ capasityFromPos info.level pos / 2 ↔
          kbytes ≤ capacity info.level pos / 2) := capasity_compares hlevel hfits
    by_cases hlarge : kbytes ≤ capacity info.level pos
    · have hguard : ¬ capasityFromPos info.level pos < kbytes := not_lt.mpr (hwhole.mpr hlarge)
      cases hstate : info.tree pos with
      | used =>
        right
        constructor
        · rw [buddyAckMemory, if_neg hinside, if_neg hguard, if_neg hindex, hstate]
        · intro m hexposed
          exact absurd hexposed (not_exposed_of_used hstate)
      | free =>
        left
        by_cases hle : kbytes ≤ capacity info.level pos / 2
        · have hdepth := depth_succ_lt_of_half hkbytes hpos hle
          have hleft : capacity info.level (2 * pos + 1) = capacity info.level pos / 2 :=
            capacity_child (depth_left pos) (by rw [depth_left]; exact hdepth)
          have hstep := @ih (2 * pos + 1) (by rw [depth_left]; exact hdepth)
            (by rw [depth_left]; omega)
          rcases hstep with ⟨info', taken, hack, htakes, hsize⟩ | ⟨-, hsmall⟩
          · refine ⟨markSplit info' pos, taken, ?_, htakes.mark (.inl ⟨rfl, rfl⟩) ?_, hsize⟩
            · rw [buddyAckMemory, if_neg hinside, if_neg hguard, if_neg hindex, hstate]
              simp only [if_pos (hhalf.mpr hle), hack, ok_bind, pure_eq_ok]
            · rw [hstate]
              exact nofun
          · have hchild : info.tree (2 * pos + 1) = .free :=
              (hfree pos (by rw [hstate]; exact nofun)).1
            have hexposed : Exposed info.tree (2 * pos + 1) (2 * pos + 1) :=
              ⟨.refl _, hchild, fun m hm hunder hback ↦ absurd (le_antisymm hback.le hunder.le) hm⟩
            have hlt := hsmall _ hexposed (by rw [depth_left]; exact hdepth)
            omega
        · have hworth : capasityFromPos info.level pos = capacity info.level pos := by
            have hcases := @capasity_cases info.level kbytes pos hlevel hfits
            exact hcases.resolve_right fun hboth ↦ hle hboth.2
          refine ⟨(takeWhole info pos).1, pos, ?_, takeWhole_takes hpos hstate hworth, hlarge,
            not_le.mp hle⟩
          rw [buddyAckMemory, if_neg hinside, if_neg hguard, if_neg hindex, hstate]
          simp only [if_neg (fun hc ↦ hle (hhalf.mp hc)), takeWhole]
      | split =>
        by_cases hle : kbytes ≤ capacity info.level pos / 2
        · have hdepth := depth_succ_lt_of_half hkbytes hpos hle
          have hguard' : ¬ capasityFromPos info.level pos / 2 < kbytes :=
            not_lt.mpr (hhalf.mpr hle)
          have hleft := @ih (2 * pos + 1) (by rw [depth_left]; exact hdepth)
            (by rw [depth_left]; omega)
          have hright := @ih (2 * pos + 2) (by rw [depth_right]; exact hdepth)
            (by rw [depth_right]; omega)
          rcases hleft with ⟨info', taken, hack, htakes, hsize⟩ | ⟨hack, hsmall⟩
          · refine .inl ⟨info', taken, ?_, htakes.stay (.inl ⟨rfl, rfl⟩) hstate, hsize⟩
            rw [buddyAckMemory, if_neg hinside, if_neg hguard, if_neg hindex, hstate]
            simp only [if_neg hguard', hack, ok_bind, pure_eq_ok]
          · have hcall : buddyAckMemory kbytes (fuel + 1) pos info =
                buddyAckMemory kbytes fuel (2 * pos + 2) info := by
              rw [buddyAckMemory, if_neg hinside, if_neg hguard, if_neg hindex, hstate]
              simp only [if_neg hguard', hack, ok_bind]
            rw [hcall]
            rcases hright with ⟨info', taken, hack', htakes, hsize⟩ | ⟨hack', hsmall'⟩
            · exact .inl ⟨info', taken, hack', htakes.stay (.inr ⟨rfl, rfl⟩) hstate, hsize⟩
            · refine .inr ⟨hack', fun m hexposed hm ↦ ?_⟩
              rcases hexposed.cases with ⟨-, hroot⟩ | ⟨-, hchild | hchild⟩
              · rw [hstate] at hroot
                cases hroot
              · exact hsmall m hchild hm
              · exact hsmall' m hchild hm
        · have hguard' : capasityFromPos info.level pos / 2 < kbytes :=
            not_le.mp fun hc ↦ hle (hhalf.mp hc)
          right
          constructor
          · rw [buddyAckMemory, if_neg hinside, if_neg hguard, if_neg hindex, hstate]
            simp only [if_pos hguard']
          · intro m hexposed hm
            exact (hexposed.capacity_le_half hstate hm).trans_lt (not_le.mp hle)
    · have hguard : capasityFromPos info.level pos < kbytes :=
        not_le.mp fun hc ↦ hlarge (hwhole.mp hc)
      right
      constructor
      · rw [buddyAckMemory, if_neg hinside, if_pos hguard]
      · intro m hexposed _
        calc
          capacity info.level m ≤ capacity info.level pos := capacity_le_of_under hexposed.under
          _ < kbytes := not_le.mp hlarge

/-- A FREE node that is under no USED one has become USED, and the nodes over it SPLIT. -/
structure Grants (tree tree' : ℕ → BlockState) (pos : ℕ) : Prop where
  free : tree pos = .free
  taken : tree' pos = .used
  above : ∀ m, m ≠ pos → Under m pos → tree m ≠ .used ∧ tree' m = .split
  other : ∀ m, ¬ Under m pos → tree' m = tree m

section Whole

variable {info info' : BuddyInfo} {tree tree' : ℕ → BlockState} {pos : ℕ}

theorem Takes.grants (h : Takes info info' 0 pos) : Grants info.tree info'.tree pos where
  free := h.free
  taken := h.taken
  above m hm hunder := (h.split m hm (.root m) hunder).symm
  other m hnot := h.other m fun hin ↦ hnot hin.2

/-- A request takes its node out of the FREE ones and no other. -/
theorem Grants.used_iff (h : Grants tree tree' pos) (m : ℕ) :
    tree' m = .used ↔ m = pos ∨ tree m = .used := by
  by_cases hm : m = pos
  · rw [hm]
    exact iff_of_true h.taken (.inl rfl)
  · by_cases hover : Under m pos
    · obtain ⟨hopen, hsplit⟩ := h.above m hm hover
      rw [hsplit]
      exact iff_of_false nofun (not_or_intro hm hopen)
    · rw [h.other m hover, or_iff_right hm]

theorem Grants.childrenFree (h : Grants tree tree' pos) (hfree : ChildrenFree tree) :
    ChildrenFree tree' := by
  intro m hm
  have hover : ¬ (m ≠ pos ∧ Under m pos) := fun hin ↦ hm (h.above m hin.1 hin.2).2
  have hsame (child : ℕ) (hchild : Under m child) (hlt : m < child) :
      tree' child = tree child := by
    apply h.other child
    intro hin
    refine hover ⟨?_, hchild.trans hin⟩
    have hle := hin.le
    omega
  have hopen : tree m ≠ .split := by
    by_cases heq : m = pos
    · rw [heq, h.free]
      exact nofun
    · rwa [h.other m fun hin ↦ hover ⟨heq, hin⟩] at hm
  rw [hsame _ (.left m) (by omega), hsame _ (.right m) (by omega)]
  exact hfree m hopen

end Whole

/-- A node over FREE children may become FREE. -/
theorem ChildrenFree.release {tree : ℕ → BlockState} (h : ChildrenFree tree) {pos : ℕ}
    (hpos : tree (2 * pos + 1) = .free ∧ tree (2 * pos + 2) = .free) :
    ChildrenFree (Function.update tree pos .free) := by
  have hfree (m : ℕ) (hm : tree m = .free) : Function.update tree pos .free m = .free := by
    by_cases heq : m = pos
    · rw [heq, Function.update_self]
    · rw [Function.update_of_ne heq, hm]
  intro m hm
  by_cases heq : m = pos
  · rw [heq]
    exact ⟨hfree _ hpos.1, hfree _ hpos.2⟩
  · rw [Function.update_of_ne heq] at hm
    exact ⟨hfree _ (h m hm).1, hfree _ (h m hm).2⟩

/-- Merging follows the wrong parents now and then, but it only turns SPLIT nodes over FREE
children to FREE. -/
theorem buddyMergeFrom_keeps (tree : ℕ → BlockState) (parent : ℕ) (h : ChildrenFree tree) :
    ChildrenFree (buddyMergeFrom tree parent) ∧
      ∀ m, buddyMergeFrom tree parent m = .used ↔ tree m = .used := by
  have hused (tree : ℕ → BlockState) (pos : ℕ) (hsplit : tree pos = .split) (m : ℕ) :
      Function.update tree pos .free m = .used ↔ tree m = .used := by
    by_cases heq : m = pos
    · rw [heq, hsplit, Function.update_self]
      exact iff_of_false nofun nofun
    · rw [Function.update_of_ne heq]
  fun_induction buddyMergeFrom tree parent with
  | case1 tree hmerge => exact ⟨h.release hmerge.2, hused tree 0 hmerge.1⟩
  | case2 tree parent hmerge hne ih =>
    obtain ⟨hfree, hsame⟩ := ih (h.release hmerge.2)
    exact ⟨hfree, fun m ↦ (hsame m).trans (hused tree parent hmerge.1 m)⟩
  | case3 tree parent hstop => exact ⟨h, fun m ↦ Iff.rfl⟩

/-- A release takes exactly its node out of the USED ones. -/
theorem release_keeps {tree : ℕ → BlockState} (h : ChildrenFree tree) {pos : ℕ}
    (hused : tree pos = .used) :
    ChildrenFree (buddyMerge (Function.update tree pos .free) pos) ∧ ∀ m,
      buddyMerge (Function.update tree pos .free) pos m = .used ↔ m ≠ pos ∧ tree m = .used := by
  have hopen : tree pos ≠ .split := by
    rw [hused]
    exact nofun
  obtain ⟨hfree, hkept⟩ := buddyMergeFrom_keeps _ (pos / 2) (h.release (h pos hopen))
  refine ⟨hfree, fun m ↦ (hkept m).trans ?_⟩
  by_cases heq : m = pos
  · rw [heq, Function.update_self]
    exact iff_of_false nofun fun hne ↦ hne.1 rfl
  · rw [Function.update_of_ne heq, and_iff_right heq]

/-- The climb from the first leaf under a USED node ends at the node. -/
theorem climb_eq {tree : ℕ → BlockState} (h : ChildrenFree tree) {pos : ℕ}
    (hused : tree pos = .used) (height : ℕ) : climb tree ((pos + 1) * 2 ^ height - 1) = pos := by
  induction height with
  | zero =>
    rw [pow_zero, Nat.mul_one, Nat.add_sub_cancel, climb, if_neg]
    rw [hused]
    exact fun hfree ↦ nomatch hfree.2
  | succ height ih =>
    have hpow : 0 < 2 ^ height := Nat.two_pow_pos height
    have hle : pos + 1 ≤ (pos + 1) * 2 ^ height := Nat.le_mul_of_pos_right _ hpow
    have hstep : (pos + 1) * 2 ^ (height + 1) = 2 * ((pos + 1) * 2 ^ height) := by
      rw [pow_succ']
      ring
    have hunder : Under pos ((pos + 1) * 2 ^ (height + 1) - 1) := by
      refine ⟨height + 1, ?_⟩
      rw [Nat.sub_add_cancel (by omega), Nat.mul_div_cancel _ (Nat.two_pow_pos _)]
    have hfree : tree ((pos + 1) * 2 ^ (height + 1) - 1) = .free := by
      refine h.under ?_ hunder ?_
      · rw [hused]
        exact nofun
      · omega
    have hhalf : ((pos + 1) * 2 ^ (height + 1) - 1) / 2 = (pos + 1) * 2 ^ height - 1 := by
      omega
    rw [climb, if_pos ⟨by omega, hfree⟩, hhalf, ih]

end FGDB.Buddy
