import Mathlib.Data.Nat.Log
import Mathlib.Tactic.Ring
import Mathlib.Tactic.Common

/-!
# Positions of a binary tree in an array

The root of the tree is at position 0 and the children of the node at `n` are at
`2 * n + 1` and `2 * n + 2`. A position is under another when halving the number
behind it some times gives the number behind the other. Two positions with a
common one under them are one under the other, so a tree whose marked nodes are
never under each other marks disjoint parts.
-/

namespace FGDB.Foundation

/-- The node at `m` is in the subtree of the node at `n`. -/
def Under (n m : ℕ) : Prop := ∃ j, (m + 1) / 2 ^ j = n + 1

namespace Under

variable {n m k : ℕ}

theorem refl (n : ℕ) : Under n n := ⟨0, Nat.div_one _⟩

theorem trans (h : Under n m) (h' : Under m k) : Under n k := by
  obtain ⟨i, hi⟩ := h
  obtain ⟨j, hj⟩ := h'
  refine ⟨j + i, ?_⟩
  rw [pow_add, ← Nat.div_div_eq_div_mul, hj, hi]

theorem le (h : Under n m) : n ≤ m := by
  obtain ⟨j, hj⟩ := h
  have hle := Nat.div_le_self (m + 1) (2 ^ j)
  omega

theorem left (n : ℕ) : Under n (2 * n + 1) := ⟨1, by omega⟩

theorem right (n : ℕ) : Under n (2 * n + 2) := ⟨1, by omega⟩

/-- Every node is in the tree. -/
theorem root (m : ℕ) : Under 0 m := by
  refine ⟨Nat.log 2 (m + 1), ?_⟩
  have hle := Nat.pow_log_le_self 2 (Nat.succ_ne_zero m)
  have hlt := Nat.lt_pow_succ_log_self Nat.one_lt_two (m + 1)
  apply Nat.div_eq_of_lt_le
  · rwa [Nat.one_mul]
  · rwa [pow_succ', ← Nat.succ_eq_add_one] at hlt

/-- A node of a subtree is its root or in the subtree of one of the root's children. -/
theorem cases_child (h : Under n m) : m = n ∨ Under (2 * n + 1) m ∨ Under (2 * n + 2) m := by
  obtain ⟨j, hj⟩ := h
  cases j with
  | zero =>
    rw [pow_zero, Nat.div_one] at hj
    exact .inl (Nat.succ.inj hj)
  | succ j =>
    rw [pow_succ, ← Nat.div_div_eq_div_mul] at hj
    have hchild : (m + 1) / 2 ^ j = 2 * n + 1 + 1 ∨ (m + 1) / 2 ^ j = 2 * n + 2 + 1 := by
      omega
    exact .inr (hchild.imp (fun h ↦ ⟨j, h⟩) fun h ↦ ⟨j, h⟩)

/-- Two subtrees with a common node are one inside the other. -/
theorem total (h : Under n k) (h' : Under m k) : Under n m ∨ Under m n := by
  obtain ⟨i, hi⟩ := h
  obtain ⟨j, hj⟩ := h'
  rcases le_total i j with hle | hle
  · obtain ⟨d, rfl⟩ := Nat.exists_eq_add_of_le hle
    rw [pow_add, ← Nat.div_div_eq_div_mul, hi] at hj
    exact .inr ⟨d, hj⟩
  · obtain ⟨d, rfl⟩ := Nat.exists_eq_add_of_le hle
    rw [pow_add, ← Nat.div_div_eq_div_mul, hj] at hi
    exact .inl ⟨d, hi⟩

theorem log_le (h : Under n m) : Nat.log 2 (n + 1) ≤ Nat.log 2 (m + 1) :=
  Nat.log_mono_right (Nat.succ_le_succ h.le)

/-- On one level no node is under another. -/
theorem eq_of_log (h : Under n m) (hlog : Nat.log 2 (n + 1) = Nat.log 2 (m + 1)) : n = m := by
  obtain ⟨j, hj⟩ := h
  have hsub : Nat.log 2 (n + 1) = Nat.log 2 (m + 1) - j := by
    rw [← hj, Nat.log_div_base_pow]
  cases j with
  | zero =>
    rw [pow_zero, Nat.div_one] at hj
    exact (Nat.succ.inj hj).symm
  | succ j =>
    have hzero : Nat.log 2 (m + 1) = 0 := by omega
    have hone : m + 1 < 2 := by
      by_contra hge
      have hpos := Nat.log_pos Nat.one_lt_two (Nat.le_of_not_lt hge)
      omega
    have hdiv : (m + 1) / 2 ^ (j + 1) ≤ m + 1 := Nat.div_le_self _ _
    omega

end Under

theorem log_left (n : ℕ) : Nat.log 2 (2 * n + 1 + 1) = Nat.log 2 (n + 1) + 1 := by
  rw [show 2 * n + 1 + 1 = (n + 1) * 2 by ring, Nat.log_mul_base Nat.one_lt_two (Nat.succ_ne_zero n)]

theorem log_right (n : ℕ) : Nat.log 2 (2 * n + 2 + 1) = Nat.log 2 (n + 1) + 1 := by
  rw [Nat.log_of_one_lt_of_le Nat.one_lt_two (by omega)]
  congr 2
  omega

/-- The subtrees of the two children have no common node. -/
theorem not_under_right {n m : ℕ} (h : Under (2 * n + 1) m) : ¬ Under (2 * n + 2) m := by
  intro h'
  have hlog : Nat.log 2 (2 * n + 1 + 1) = Nat.log 2 (2 * n + 2 + 1) := by
    rw [log_left, log_right]
  rcases h.total h' with hunder | hunder
  · have heq := hunder.eq_of_log hlog
    omega
  · have heq := hunder.eq_of_log hlog.symm
    omega

/-- A property that nodes hand down to their children holds in the whole subtree. -/
theorem Under.induction {p : ℕ → Prop} {n m : ℕ} (h : Under n m) (hroot : p n)
    (hleft : ∀ i, p i → p (2 * i + 1)) (hright : ∀ i, p i → p (2 * i + 2)) : p m := by
  obtain ⟨j, hj⟩ := h
  induction j generalizing m with
  | zero =>
    rw [pow_zero, Nat.div_one] at hj
    rwa [Nat.succ.inj hj]
  | succ j ih =>
    rw [pow_succ', ← Nat.div_div_eq_div_mul] at hj
    have hpos : 0 < m := by
      by_contra hzero
      have hm : m = 0 := by omega
      rw [hm] at hj
      simp at hj
    have hparent := ih (m := (m + 1) / 2 - 1) (by rwa [Nat.sub_add_cancel (by omega)])
    rcases Nat.even_or_odd' m with ⟨i, rfl | rfl⟩
    · have hchild := hright _ hparent
      rwa [show 2 * ((2 * i + 1) / 2 - 1) + 2 = 2 * i by omega] at hchild
    · have hchild := hleft _ hparent
      rwa [show 2 * ((2 * i + 1 + 1) / 2 - 1) + 1 = 2 * i + 1 by omega] at hchild

/-- A node and its two children in the array. -/
def Child (n m : ℕ) : Prop := m = 2 * n + 1 ∨ m = 2 * n + 2

/-- The nodes of a subtree are those that steps to children reach from its root. -/
theorem under_iff_reachable {n m : ℕ} : Under n m ↔ Relation.ReflTransGen Child n m := by
  constructor
  · intro h
    exact h.induction .refl (fun i hi ↦ hi.tail (.inl rfl)) fun i hi ↦ hi.tail (.inr rfl)
  · intro h
    induction h with
    | refl => exact .refl n
    | tail _ hchild ih =>
      rcases hchild with rfl | rfl
      · exact ih.trans (.left _)
      · exact ih.trans (.right _)

end FGDB.Foundation
