import FGDB.HashMap.Counters
import FGDB.HashMap.Insertions

/-!
# The balance of a bucket

Insertions and removals keep the heights of the two subtrees of every node
within one of each other as long as each rebalancing mends its node. It does not
when the higher subtree leans to neither side, and a node that is too high on
the right is turned by what its left child leans to. A removal has to leave all
nodes below the root in balance, for what is turned there is lost.
-/

namespace FGDB.HashMap

open Foundation AvlTree NodeHeap
open SearchTree hiding insert find Sorted erase

variable {μ : Type}

namespace AvlTree

/-- The heights of the two subtrees of every node differ by at most one. -/
def Balanced : AvlTree μ → Prop
  | .nil => True
  | .node e l r => (-1 ≤ balance (.node e l r) ∧ balance (.node e l r) ≤ 1) ∧ Balanced l ∧ Balanced r

instance decidableBalanced : (t : AvlTree μ) → Decidable (Balanced t)
  | .nil => isTrue trivial
  | .node e l r =>
    have := decidableBalanced l
    have := decidableBalanced r
    inferInstanceAs (Decidable ((-1 ≤ balance (.node e l r) ∧ balance (.node e l r) ≤ 1) ∧
      Balanced l ∧ Balanced r))

/-- The rebalancing of this node turns it into balance: a left child that is too high leans to a
side, and a right child leans right, or, beside a left child that leans left, it leans left or has a
left child that does not. -/
def Mends : AvlTree μ → Prop
  | .nil => True
  | .node e l r => (balance (.node e l r) = -2 → balance l ≠ 0) ∧
    (balance (.node e l r) = 2 → balance r = 1 ∨
      balance l = -1 ∧ (balance r = -1 ∨ balance r = 0 ∧ 0 ≤ balance r.left))

instance (t : AvlTree μ) : Decidable (Mends t) :=
  match t with
  | .nil => isTrue trivial
  | .node e l r => inferInstanceAs (Decidable ((balance (.node e l r) = -2 → balance l ≠ 0) ∧
      (balance (.node e l r) = 2 → balance r = 1 ∨
        balance l = -1 ∧ (balance r = -1 ∨ balance r = 0 ∧ 0 ≤ balance r.left))))

/-- On the path of the insertion every rebalancing mends its node. -/
def InsertMends (e : Entry μ) : AvlTree μ → Prop
  | .nil => True
  | .node x l r =>
    if x.key < e.key then InsertMends e r ∧ Mends (.node x l (insert e r))
    else if e.key < x.key then InsertMends e l ∧ Mends (.node x (insert e l) r)
    else True

instance decidableInsertMends (e : Entry μ) : (t : AvlTree μ) → Decidable (InsertMends e t)
  | .nil => isTrue trivial
  | .node x l r =>
    have := decidableInsertMends e l
    have := decidableInsertMends e r
    inferInstanceAs (Decidable (if x.key < e.key then
      InsertMends e r ∧ Mends (.node x l (insert e r))
      else if e.key < x.key then InsertMends e l ∧ Mends (.node x (insert e l) r) else True))

def BalancedBelow : AvlTree μ → Prop
  | .nil => True
  | .node _ l r => Balanced l ∧ Balanced r

/-- Without the key the tree is in balance below its root, and the rebalancing of the root mends
it. -/
def EraseMends (key : Str) (t : AvlTree μ) : Prop :=
  BalancedBelow (erase key t) ∧ Mends (erase key t)

instance (t : AvlTree μ) : Decidable (BalancedBelow t) :=
  match t with
  | .nil => isTrue trivial
  | .node _ l r => inferInstanceAs (Decidable (Balanced l ∧ Balanced r))

instance (key : Str) (t : AvlTree μ) : Decidable (EraseMends key t) :=
  inferInstanceAs (Decidable (_ ∧ _))

/-- The rebalanced node is in balance, found its pivot, and is as high as before or lower by one. -/
structure Mended (t : AvlTree μ) : Prop where
  balanced : Balanced (rebalance t)
  pivot : HasPivot t
  height_le : (rebalance t).height ≤ t.height
  le_height : t.height ≤ (rebalance t).height + 1

@[simp] theorem balance_nil : balance (.nil : AvlTree μ) = 0 := rfl

theorem Balanced.bounds {t : AvlTree μ} (h : Balanced t) : -1 ≤ balance t ∧ balance t ≤ 1 := by
  cases t with
  | nil =>
    rw [balance_nil]
    omega
  | node e l r => exact h.1

section Rebalance

variable {e x m : Entry μ} {a b l r : AvlTree μ}

theorem Still.of_balance (h : -1 ≤ balance (.node e l r)) (h' : balance (.node e l r) ≤ 1) :
    Still (.node e l r) := by
  constructor
  · intro hturn
    omega
  · intro hturn
    omega

theorem Balanced.still {t : AvlTree μ} (h : Balanced t) : Still t := by
  cases t with
  | nil => trivial
  | node e l r => exact Still.of_balance h.1.1 h.1.2

theorem Balanced.mended {t : AvlTree μ} (h : Balanced t) : Mended t := by
  have hsame := rebalance_of_still h.still
  constructor
  · rwa [hsame]
  · exact h.still.hasPivot
  · rw [hsame]
  · rw [hsame]
    exact Nat.le_succ _

/-- What the rebalancing turns a node into. -/
theorem mended_of_eq {t t' : AvlTree μ} (h : rebalance t = t') (hbalanced : Balanced t')
    (hpivot : HasPivot t) (hle : t'.height ≤ t.height) (hge : t.height ≤ t'.height + 1) :
    Mended t := by
  subst h
  exact ⟨hbalanced, hpivot, hle, hge⟩

section Left

variable (hroot : balance (.node e l r) = -2)

include hroot

theorem hasPivot_of_low : HasPivot (.node e l r) := by
  intro hhigh
  omega

/-- The left child comes up. -/
theorem mended_right_move (hl : Balanced l) (hr : Balanced r) (hchild : balance l = -1) :
    Mended (.node e l r) := by
  have hpivot := hasPivot_of_low hroot
  cases l with
  | nil =>
    rw [balance_nil] at hchild
    omega
  | node x a b =>
    have hrebalance : rebalance (.node e (.node x a b) r) = .node x a (.node e b r) := by
      rw [rebalance, if_pos hroot, if_pos hchild]
      rfl
    simp only [balance, BinaryTree.height] at hroot hchild
    apply mended_of_eq hrebalance _ hpivot <;> simp only [Balanced, balance, BinaryTree.height]
    · omega
    · omega
    · exact ⟨by omega, hl.2.1, by omega, hl.2.2, hr⟩

/-- The right child of the left child comes up. -/
theorem mended_LR_move (hl : Balanced l) (hr : Balanced r) (hchild : balance l = 1) :
    Mended (.node e l r) := by
  have hpivot := hasPivot_of_low hroot
  cases l with
  | nil =>
    rw [balance_nil] at hchild
    omega
  | node x a inner =>
    cases inner with
    | nil =>
      simp only [balance, BinaryTree.height] at hchild
      omega
    | node m b c =>
      have hrebalance : rebalance (.node e (.node x a (.node m b c)) r) =
          .node m (.node x a b) (.node e c r) := by
        rw [rebalance, if_pos hroot, if_neg (by omega), if_pos hchild]
        rfl
      obtain ⟨-, ha, hinner, hb, hc⟩ := hl
      simp only [balance, BinaryTree.height] at hroot hchild hinner
      apply mended_of_eq hrebalance _ hpivot <;> simp only [Balanced, balance, BinaryTree.height]
      · omega
      · omega
      · exact ⟨by omega, ⟨by omega, ha, hb⟩, by omega, hc, hr⟩

end Left

section Right

variable (hroot : balance (.node e l r) = 2)

include hroot

/-- The right child comes up. -/
theorem mended_left_move (hl : Balanced l) (hr : Balanced r) (hchild : balance r = 1) :
    Mended (.node e l r) := by
  cases r with
  | nil =>
    rw [balance_nil] at hchild
    omega
  | node x a b =>
    have hrebalance : rebalance (.node e l (.node x a b)) = .node x (.node e l a) b := by
      rw [rebalance, if_neg (by omega), if_pos hroot, if_pos hchild]
      rfl
    have hpivot : HasPivot (.node e l (.node x a b)) := fun _ hnot ↦ absurd hchild hnot
    simp only [balance, BinaryTree.height] at hroot hchild
    apply mended_of_eq hrebalance _ hpivot <;> simp only [Balanced, balance, BinaryTree.height]
    · omega
    · omega
    · exact ⟨by omega, ⟨by omega, hl, hr.2.1⟩, hr.2.2⟩

/-- The left child of the right child comes up, as the left child leans left. -/
theorem mended_RL_move (hl : Balanced l) (hr : Balanced r) (hleft : balance l = -1)
    (hchild : balance r = -1 ∨ balance r = 0 ∧ 0 ≤ balance r.left) : Mended (.node e l r) := by
  cases r with
  | nil =>
    simp only [balance, BinaryTree.height] at hroot
    omega
  | node x inner d =>
    cases inner with
    | nil =>
      simp only [balance, BinaryTree.height] at hroot hchild
      omega
    | node m b c =>
      have hrebalance : rebalance (.node e l (.node x (.node m b c) d)) =
          .node m (.node e l b) (.node x c d) := by
        rw [rebalance, if_neg (by omega), if_pos hroot, if_neg (by omega), if_pos hleft]
        rfl
      have hpivot : HasPivot (.node e l (.node x (.node m b c) d)) := by
        intro _ _ _ hnil
        cases hnil
      obtain ⟨hright, ⟨hinner, hb, hc⟩, hd⟩ := hr
      simp only [balance, BinaryTree.height, BinaryTree.left] at hroot hchild hinner
      apply mended_of_eq hrebalance _ hpivot <;> simp only [Balanced, balance, BinaryTree.height]
      · omega
      · omega
      · exact ⟨by omega, ⟨by omega, hl, hb⟩, by omega, hc, hd⟩

end Right

/-- A node between balanced subtrees whose heights differ by at most two. -/
theorem mended_of_mends (hl : Balanced l) (hr : Balanced r) (hlow : -2 ≤ balance (.node e l r))
    (hhigh : balance (.node e l r) ≤ 2) (hmends : Mends (.node e l r)) : Mended (.node e l r) := by
  by_cases hleft : balance (.node e l r) = -2
  · have hlean := hmends.1 hleft
    have hbound := hl.bounds
    by_cases hchild : balance l = -1
    · exact mended_right_move hleft hl hr hchild
    · exact mended_LR_move hleft hl hr (by omega)
  · by_cases hright : balance (.node e l r) = 2
    · rcases hmends.2 hright with hchild | ⟨hlean, hchild⟩
      · exact mended_left_move hright hl hr hchild
      · exact mended_RL_move hright hl hr hlean hchild
    · exact Balanced.mended ⟨⟨by omega, by omega⟩, hl, hr⟩

/-- A subtree of a balanced node grew by at most one level. -/
theorem balanced_grow {l' r' : AvlTree μ} (h : Balanced (.node e l r)) (hl' : Balanced l')
    (hr' : Balanced r') (hgrow : l.height ≤ l'.height ∧ r.height ≤ r'.height ∧
      l'.height + r'.height ≤ l.height + r.height + 1) (hmends : Mends (.node e l' r')) :
    Balanced (rebalance (.node e l' r')) ∧ HasPivot (.node e l' r') ∧
      (BinaryTree.node e l r).height ≤ (rebalance (.node e l' r')).height ∧
      (rebalance (.node e l' r')).height ≤ (BinaryTree.node e l r).height + 1 := by
  obtain ⟨⟨hlow, hhigh⟩, -, -⟩ := h
  have hbalance : balance (.node e l' r') = r'.height - l'.height := rfl
  simp only [balance] at hlow hhigh
  have hmended := mended_of_mends hl' hr' (by omega) (by omega) hmends
  have hle := hmended.height_le
  have hge := hmended.le_height
  simp only [BinaryTree.height] at hle hge ⊢
  refine ⟨hmended.balanced, hmended.pivot, ?_, by omega⟩
  by_cases hstill : -1 ≤ balance (.node e l' r') ∧ balance (.node e l' r') ≤ 1
  · rw [rebalance_of_still (Still.of_balance hstill.1 hstill.2)]
    simp only [BinaryTree.height]
    omega
  · omega

end Rebalance

/-- An insertion that mends its path keeps the balance, finds its pivots, and adds one level or
none. -/
theorem balanced_insert {t : AvlTree μ} {e : Entry μ} (h : Balanced t) (hmends : InsertMends e t) :
    Balanced (AvlTree.insert e t) ∧ InsertPivots e t ∧
      t.height ≤ (AvlTree.insert e t).height ∧ (AvlTree.insert e t).height ≤ t.height + 1 := by
  induction t with
  | nil =>
    have hleaf : balance (.node e .nil .nil) = 0 := rfl
    exact ⟨⟨⟨by omega, by omega⟩, trivial, trivial⟩, trivial, Nat.zero_le _, le_rfl⟩
  | node x l r ihl ihr =>
    unfold InsertMends at hmends
    unfold InsertPivots
    rcases lt_trichotomy x.key e.key with hlt | heq | hgt
    · rw [if_pos hlt] at hmends ⊢
      obtain ⟨hbalanced, hpivots, hle, hge⟩ := ihr h.2.2 hmends.1
      rw [insert_of_lt hlt]
      obtain ⟨hnode, hpivot, hheight⟩ :=
        balanced_grow h h.2.1 hbalanced ⟨le_rfl, hle, by omega⟩ hmends.2
      exact ⟨hnode, ⟨hpivots, hpivot⟩, hheight⟩
    · rw [if_neg heq.not_lt, if_neg heq.not_gt, insert_of_eq heq]
      exact ⟨h, trivial, le_rfl, Nat.le_succ _⟩
    · rw [if_neg hgt.not_gt, if_pos hgt] at hmends ⊢
      obtain ⟨hbalanced, hpivots, hle, hge⟩ := ihl h.2.1 hmends.1
      rw [insert_of_gt hgt]
      obtain ⟨hnode, hpivot, hheight⟩ :=
        balanced_grow h hbalanced h.2.2 ⟨hle, le_rfl, by omega⟩ hmends.2
      exact ⟨hnode, ⟨hpivots, hpivot⟩, hheight⟩

theorem Balanced.below {t : AvlTree μ} (h : Balanced t) : BalancedBelow t := by
  cases t with
  | nil => trivial
  | node e l r => exact h.2

theorem height_dropLast (t : AvlTree μ) :
    (dropLast t).height ≤ t.height ∧ t.height ≤ (dropLast t).height + 1 := by
  induction t with
  | nil => exact ⟨le_rfl, Nat.zero_le _⟩
  | node x l r _ ihr =>
    cases r with
    | nil =>
      simp only [dropLast, BinaryTree.height]
      omega
    | node y a b =>
      simp only [dropLast, BinaryTree.height] at ihr ⊢
      omega

theorem height_erase (key : Str) (t : AvlTree μ) :
    (AvlTree.erase key t).height ≤ t.height ∧ t.height ≤ (AvlTree.erase key t).height + 1 := by
  induction t with
  | nil => exact ⟨le_rfl, Nat.zero_le _⟩
  | node x l r ihl ihr =>
    rcases lt_trichotomy x.key key with hlt | heq | hgt
    · rw [erase_of_lt hlt, height_join]
      simp only [BinaryTree.height]
      omega
    · rw [erase_of_eq heq]
      cases l with
      | nil =>
        cases r with
        | nil => exact ⟨Nat.zero_le _, le_rfl⟩
        | node n c d =>
          simp only [eraseRoot, BinaryTree.height]
          omega
      | node y a b =>
        cases r with
        | nil =>
          simp only [eraseRoot, BinaryTree.height]
          omega
        | node n c d =>
          have hlast := height_dropLast (.node y a b)
          simp only [eraseRoot, BinaryTree.height] at hlast ⊢
          omega
    · rw [erase_of_gt hgt, height_join]
      simp only [BinaryTree.height]
      omega

theorem popStill_of_balanced {t : AvlTree μ} (h : Balanced (dropLast t)) : PopStill t := by
  induction t with
  | nil => trivial
  | node e l r _ ihr =>
    cases r with
    | nil => trivial
    | node y a b => exact ⟨ihr h.2.2, h.still⟩

/-- A removal that leaves balance below the root has rotated nothing there. -/
theorem eraseStill_of_below {key : Str} {t : AvlTree μ} (h : BalancedBelow (AvlTree.erase key t)) :
    EraseStill key t := by
  induction t with
  | nil => trivial
  | node x l r ihl ihr =>
    unfold EraseStill
    rcases lt_trichotomy x.key key with hlt | heq | hgt
    · rw [erase_of_lt hlt] at h
      rw [if_pos hlt]
      exact ⟨ihr h.2.below, h.2.still⟩
    · rw [erase_of_eq heq] at h
      rw [if_neg heq.not_lt, if_neg heq.not_gt]
      intro hne
      cases l with
      | nil => trivial
      | node y a b =>
        cases r with
        | nil => exact absurd rfl hne
        | node n c d => exact popStill_of_balanced h.1
    · rw [erase_of_gt hgt] at h
      rw [if_neg hgt.not_gt, if_pos hgt]
      exact ⟨ihl h.1.below, h.1.still⟩

/-- A subtree of a balanced node lost at most one level. -/
theorem mended_of_shrunk {e e' : Entry μ} {l r l' r' : AvlTree μ} (h : Balanced (.node e l r))
    (hshrunk : l'.height ≤ l.height ∧ r'.height ≤ r.height ∧
      l.height + r.height ≤ l'.height + r'.height + 1)
    (hbelow : BalancedBelow (.node e' l' r')) (hmends : Mends (.node e' l' r')) :
    Mended (.node e' l' r') := by
  obtain ⟨⟨hlow, hhigh⟩, -, -⟩ := h
  have hbalance : balance (.node e' l' r') = r'.height - l'.height := rfl
  simp only [balance] at hlow hhigh
  exact mended_of_mends hbelow.1 hbelow.2 (by omega) (by omega) hmends

/-- A removal that mends the root keeps the balance. -/
theorem mended_erase {key : Str} {t : AvlTree μ} (h : Balanced t) (hmends : EraseMends key t) :
    Mended (AvlTree.erase key t) := by
  obtain ⟨hbelow, hroot⟩ := hmends
  cases t with
  | nil => exact Balanced.mended trivial
  | node x l r =>
    have hl := height_erase key l
    have hr := height_erase key r
    rcases lt_trichotomy x.key key with hlt | heq | hgt
    · rw [erase_of_lt hlt] at hbelow hroot ⊢
      exact mended_of_shrunk h ⟨le_rfl, hr.1, by omega⟩ hbelow hroot
    · rw [erase_of_eq heq] at hbelow hroot ⊢
      cases l with
      | nil =>
        cases r with
        | nil => exact Balanced.mended trivial
        | node n c d => exact Balanced.mended ⟨h.2.2.1, h.2.2.2⟩
      | node y a b =>
        cases r with
        | nil => exact Balanced.mended ⟨h.2.1.1, h.2.1.2⟩
        | node n c d =>
          have hlast := height_dropLast (.node y a b)
          exact mended_of_shrunk h ⟨hlast.1, le_rfl, by omega⟩ hbelow hroot
    · rw [erase_of_gt hgt] at hbelow hroot ⊢
      exact mended_of_shrunk h ⟨hl.1, le_rfl, by omega⟩ hbelow hroot

end AvlTree

/-- What `hash_insert` and `hash_delete` do to the tree of a bucket. -/
def bucketStep (state : NodeHeap μ × Option ℕ) : HashCall μ →
    Outcome ((NodeHeap μ × Option ℕ) × ℤ)
  | .insert key keyMeta =>
    match state.2 with
    | none => .ok (avlNewNode state.1 key keyMeta, 1)
    | some _ => insertStep state (key, keyMeta)
  | .delete key => do
    let (heap, root, stat) ← avlRemoveNode state.1.fuel state.1 state.2 key
    return ((heap, root), stat)

/-- The bucket without a node. -/
def emptyBucket : NodeHeap μ × Option ℕ := (NodeHeap.empty, none)

/-- Only absent keys are inserted, and only present ones are removed. -/
def Distinct (state : NodeHeap μ × Option ℕ) : HashCall μ → Prop
  | .insert key _ => AvlTree.find key (treeAt state) = none
  | .delete key => AvlTree.find key (treeAt state) ≠ none

instance (state : NodeHeap μ × Option ℕ) : DecidablePred (Distinct state)
  | .insert key _ => inferInstanceAs (Decidable (AvlTree.find key (treeAt state) = none))
  | .delete key => inferInstanceAs (Decidable (¬ AvlTree.find key (treeAt state) = none))

/-- Every rebalancing of the call mends its node. -/
def CallMends (state : NodeHeap μ × Option ℕ) : HashCall μ → Prop
  | .insert key keyMeta => InsertMends ⟨state.1.next, key, keyMeta⟩ (treeAt state)
  | .delete key => EraseMends key (treeAt state)

instance (state : NodeHeap μ × Option ℕ) : DecidablePred (CallMends state)
  | .insert _ _ => inferInstanceAs (Decidable (InsertMends _ _))
  | .delete _ => inferInstanceAs (Decidable (EraseMends _ _))

/-- The heap has the tree behind its child pointers, and the cached heights are the true ones. -/
def Cached (heap : NodeHeap μ) : AvlTree μ → Prop
  | .nil => True
  | .node e l r => (∃ parent, heap.cells e.addr = some (cellOf .left e parent l r)) ∧
    Cached heap l ∧ Cached heap r

/-- The pointer leads to a tree whose cached heights are the true ones, and in which the heights of
the two subtrees of every node differ by at most one. -/
def HightsRight (state : NodeHeap μ × Option ℕ) : Prop :=
  ∃ t, state.2 = root t ∧ Cached state.1 t ∧ Balanced t

theorem Rep.cached {heap : NodeHeap μ} {parent : Option ℕ} {t : AvlTree μ}
    (h : Rep heap parent t) : Cached heap t := by
  induction t generalizing parent with
  | nil => trivial
  | node e l r ihl ihr => exact ⟨⟨parent, h.1⟩, ihl h.2.1, ihr h.2.2⟩

/-- There is only one tree behind a pointer. -/
theorem Cached.unique {heap : NodeHeap μ} {t t' : AvlTree μ} (h : Cached heap t)
    (h' : Cached heap t') (hroot : root t = root t') : t = t' := by
  induction t generalizing t' with
  | nil =>
    cases t' with
    | nil => rfl
    | node e' l' r' => cases hroot
  | node e l r ihl ihr =>
    cases t' with
    | nil => cases hroot
    | node e' l' r' =>
      obtain ⟨⟨parent, hcell⟩, hl, hr⟩ := h
      obtain ⟨⟨parent', hcell'⟩, hl', hr'⟩ := h'
      have haddr : e.addr = e'.addr := Option.some.inj hroot
      rw [haddr, hcell'] at hcell
      have hsame := Option.some.inj hcell
      have hkey : e'.key = e.key := congrArg AvlNode.key hsame
      have hmeta : e'.keyMeta = e.keyMeta := congrArg AvlNode.keyMeta hsame
      have hleft : root l' = root l := congrArg AvlNode.left hsame
      have hright : root r' = root r := congrArg AvlNode.right hsame
      have hentry : e = e' := by
        cases e
        cases e'
        simp_all
      rw [hentry, ihl hl hl' hleft.symm, ihr hr hr' hright.symm]

/-- The state is a balanced tree with all its links and heights right. -/
def Tended (state : NodeHeap μ × Option ℕ) : Prop :=
  ∃ t, state.2 = root t ∧ Represents state.1 t ∧ Balanced t

theorem Tended.hightsRight {state : NodeHeap μ × Option ℕ} (h : Tended state) :
    HightsRight state := by
  obtain ⟨t, hroot, hrep, hbalanced⟩ := h
  exact ⟨t, hroot, hrep.rep.cached, hbalanced⟩

/-- A call that mends keeps the balance. -/
theorem bucketStep_tended {state : NodeHeap μ × Option ℕ} {call : HashCall μ} (h : Tended state)
    (hdistinct : Distinct state call) (hmends : CallMends state call) :
    ∃ next result, bucketStep state call = .ok (next, result) ∧ Tended next := by
  obtain ⟨heap, pointer⟩ := state
  obtain ⟨t, hroot, hrep, hbalanced⟩ := h
  change Represents heap t at hrep
  obtain rfl : pointer = root t := hroot
  have htree := treeAt_root hrep
  cases call with
  | insert key keyMeta =>
    rw [CallMends, htree] at hmends
    obtain ⟨hinserted, hpivots, -, -⟩ := balanced_insert hbalanced hmends
    cases t with
    | nil =>
      have hnew := (avlNewNode_rep hrep key keyMeta).2.1
      refine ⟨_, 1, rfl, .node ⟨heap.next, key, keyMeta⟩ .nil .nil, rfl,
        ⟨hnew, List.nodup_singleton _, fun address hmem ↦ ?_, List.pairwise_singleton _ _⟩,
        hinserted⟩
      rw [List.mem_singleton.mp hmem]
      exact Nat.lt_succ_self _
    | node x l r =>
      have hnode : BinaryTree.node x l r ≠ .nil := by
        intro hnil
        cases hnil
      obtain ⟨heap', status, hinsert, hrep'⟩ :=
        @insertStep_represents μ heap (.node x l r) (key, keyMeta) hrep hnode hpivots
      exact ⟨_, status, hinsert, _, rfl, hrep', hinserted⟩
  | delete key =>
    rw [CallMends, htree] at hmends
    rw [Distinct, htree] at hdistinct
    obtain ⟨x, hfind⟩ := Option.ne_none_iff_exists'.mp hdistinct
    have hmended := mended_erase hbalanced hmends
    obtain ⟨heap', hremove, hrep'⟩ :=
      avlRemoveNode_represents hrep hfind (eraseStill_of_below hmends.1) hmended.pivot
    refine ⟨(heap', root (rebalance (AvlTree.erase key t))), 1, ?_, _, rfl, hrep',
      hmended.balanced⟩
    simp only [bucketStep, hremove, ok_bind, pure_eq_ok]

/-- Insertions and a removal, the last of which turns the root. -/
def turningCalls : List (HashCall ℕ) :=
  [.insert (pairKey 4) 4, .insert (pairKey 2) 2, .insert (pairKey 5) 5, .insert (pairKey 1) 1,
    .delete (pairKey 5)]

/-- The third key of one bucket comes between the other two, on the right. -/
def zigZagCalls : List (HashCall ℕ) :=
  [.insert (pairKey 1) 1, .insert (pairKey 3) 3, .insert (pairKey 2) 2]

end FGDB.HashMap
