import Mathlib.Data.List.Basic
import Mathlib.Data.Tree.Basic
import Mathlib.Order.Lattice

/-!
# Binary search trees

Insertion takes the repair that is run on every node of the path, so one lemma
serves any balancing scheme whose repair keeps the in-order list. Removal does
no repair: it fills the content of a neighbour into the node of the removed
element. Everything is said about the in-order list.
-/

namespace FGDB.Foundation.SearchTree

variable {α κ ν : Type}

def inorder : BinaryTree α → List α
  | .nil => []
  | .node x l r => inorder l ++ x :: inorder r

@[simp] theorem inorder_nil : inorder (.nil : BinaryTree α) = [] := rfl

@[simp] theorem inorder_node (x : α) (l r : BinaryTree α) :
    inorder (.node x l r) = inorder l ++ x :: inorder r := rfl

theorem length_inorder (t : BinaryTree α) : (inorder t).length = t.numNodes := by
  induction t with
  | nil => rfl
  | node x l r ihl ihr =>
    simp only [inorder_node, List.length_append, List.length_cons, ihl, ihr, BinaryTree.numNodes]
    omega

theorem height_le_numNodes (t : BinaryTree α) : t.height ≤ t.numNodes := by
  induction t with
  | nil => exact Nat.le_refl 0
  | node x l r ihl ihr =>
    simp only [BinaryTree.height, BinaryTree.numNodes]
    omega

def rotateRight : BinaryTree α → BinaryTree α
  | .node x (.node y l m) r => .node y l (.node x m r)
  | t => t

def rotateLeft : BinaryTree α → BinaryTree α
  | .node x l (.node y m r) => .node y (.node x l m) r
  | t => t

@[simp] theorem inorder_rotateRight (t : BinaryTree α) :
    inorder (rotateRight t) = inorder t := by
  unfold rotateRight
  split <;> simp

@[simp] theorem inorder_rotateLeft (t : BinaryTree α) : inorder (rotateLeft t) = inorder t := by
  unfold rotateLeft
  split <;> simp

/-- The largest element. -/
def last : BinaryTree α → Option α
  | .nil => none
  | .node x _ .nil => some x
  | .node _ _ (.node y l r) => last (.node y l r)

def dropLast : BinaryTree α → BinaryTree α
  | .nil => .nil
  | .node _ l .nil => l
  | .node x l (.node y m r) => .node x l (dropLast (.node y m r))

theorem inorder_eq_dropLast_append {t : BinaryTree α} {m : α} (h : last t = some m) :
    inorder t = inorder (dropLast t) ++ [m] := by
  induction t with
  | nil => cases h
  | node x l r _ ihr =>
    cases r with
    | nil =>
      simp only [last, Option.some.injEq] at h
      simp [dropLast, h]
    | node y a b =>
      have hr := ihr h
      rw [inorder_node, hr]
      simp [dropLast]

theorem exists_last (x : α) (l r : BinaryTree α) : ∃ m, last (.node x l r) = some m := by
  induction r generalizing x l with
  | nil => exact ⟨x, rfl⟩
  | node y a b _ ih => exact ih y a

section Ordered

variable [LinearOrder κ] (key : α → κ)

def Sorted (t : BinaryTree α) : Prop := (inorder t).Pairwise fun x y ↦ key x < key y

theorem sorted_nil : Sorted key (.nil : BinaryTree α) := List.Pairwise.nil

theorem sorted_node {x : α} {l r : BinaryTree α} : Sorted key (.node x l r) ↔
    Sorted key l ∧ Sorted key r ∧ (∀ y ∈ inorder l, key y < key x) ∧
      ∀ y ∈ inorder r, key x < key y := by
  simp only [Sorted, inorder_node, List.pairwise_append, List.pairwise_cons, List.mem_cons,
    forall_eq_or_imp]
  constructor
  · intro h
    exact ⟨h.1, h.2.1.2, fun y hy ↦ (h.2.2 y hy).1, h.2.1.1⟩
  · intro h
    exact ⟨h.1, ⟨h.2.2.2, h.2.1⟩, fun y hy ↦
      ⟨h.2.2.1 y hy, fun z hz ↦ (h.2.2.1 y hy).trans (h.2.2.2 z hz)⟩⟩

theorem sorted_iff_map (t : BinaryTree α) :
    Sorted key t ↔ ((inorder t).map key).Pairwise (· < ·) := by
  rw [List.pairwise_map]
  rfl

def find (k : κ) : BinaryTree α → Option α
  | .nil => none
  | .node x l r => if key x < k then find k r else if k < key x then find k l else some x

theorem find_eq_some_iff {t : BinaryTree α} (hsorted : Sorted key t) {k : κ} {x : α} :
    find key k t = some x ↔ x ∈ inorder t ∧ key x = k := by
  induction t with
  | nil => simp [find]
  | node y l r ihl ihr =>
    have hnode := (sorted_node key).mp hsorted
    simp only [find, inorder_node, List.mem_append, List.mem_cons]
    split
    · next hlt =>
      rw [ihr hnode.2.1]
      constructor
      · intro h
        exact ⟨.inr (.inr h.1), h.2⟩
      · rintro ⟨hl | rfl | hr, hk⟩
        · exact absurd (hnode.2.2.1 x hl) (by rw [hk]; exact not_lt_of_gt hlt)
        · exact absurd hk hlt.ne
        · exact ⟨hr, hk⟩
    · split
      · next hgt =>
        rw [ihl hnode.1]
        constructor
        · intro h
          exact ⟨.inl h.1, h.2⟩
        · rintro ⟨hl | rfl | hr, hk⟩
          · exact ⟨hl, hk⟩
          · exact absurd hk hgt.ne'
          · exact absurd (hnode.2.2.2 x hr) (by rw [hk]; exact not_lt_of_gt hgt)
      · next hle hge =>
        have hk : key y = k := le_antisymm (not_lt.mp hge) (not_lt.mp hle)
        simp only [Option.some.injEq]
        constructor
        · rintro rfl
          exact ⟨.inr (.inl rfl), hk⟩
        · rintro ⟨hl | rfl | hr, hx⟩
          · exact absurd (hnode.2.2.1 x hl) (by rw [hx, hk]; exact lt_irrefl k)
          · rfl
          · exact absurd (hnode.2.2.2 x hr) (by rw [hx, hk]; exact lt_irrefl k)

/-- Two trees with the same elements find the same. -/
theorem find_congr {t t' : BinaryTree α} (hsorted : Sorted key t) (hsorted' : Sorted key t') {k : κ}
    (h : ∀ x, key x = k → (x ∈ inorder t ↔ x ∈ inorder t')) : find key k t = find key k t' := by
  apply Option.ext
  intro x
  rw [find_eq_some_iff key hsorted, find_eq_some_iff key hsorted']
  constructor
  · intro hx
    exact ⟨(h x hx.2).mp hx.1, hx.2⟩
  · intro hx
    exact ⟨(h x hx.2).mpr hx.1, hx.2⟩

theorem find_eq_none_iff {t : BinaryTree α} (hsorted : Sorted key t) {k : κ} :
    find key k t = none ↔ ∀ x ∈ inorder t, key x ≠ k := by
  rw [Option.eq_none_iff_forall_ne_some]
  constructor
  · intro h x hx hk
    exact h x ((find_eq_some_iff key hsorted).mpr ⟨hx, hk⟩)
  · intro h x hx
    have hmem := (find_eq_some_iff key hsorted).mp hx
    exact h x hmem.1 hmem.2

section Insert

variable (fix : BinaryTree α → BinaryTree α)

def insert (e : α) : BinaryTree α → BinaryTree α
  | .nil => .node e .nil .nil
  | .node x l r =>
    if key x < key e then fix (.node x l (insert e r))
    else if key e < key x then fix (.node x (insert e l) r)
    else .node x l r

variable {fix} (hfix : ∀ t, inorder (fix t) = inorder t)

include hfix

/-- Whatever the order of the tree, insertion adds the element or changes nothing but the shape. -/
theorem inorder_insert_perm_or_eq (e : α) (t : BinaryTree α) :
    (inorder (insert key fix e t)).Perm (e :: inorder t) ∨
      inorder (insert key fix e t) = inorder t := by
  induction t with
  | nil => exact .inl (List.Perm.refl _)
  | node y l r ihl ihr =>
    unfold insert
    split
    · rw [hfix, inorder_node, inorder_node]
      rcases ihr with h | h
      · left
        have hswap : (y :: inorder (insert key fix e r)).Perm (e :: y :: inorder r) :=
          (h.cons y).trans (List.Perm.swap e y _)
        exact (hswap.append_left _).trans List.perm_middle
      · exact .inr (by rw [h])
    · split
      · rw [hfix, inorder_node, inorder_node]
        rcases ihl with h | h
        · exact .inl (h.append_right _)
        · exact .inr (by rw [h])
      · exact .inr rfl

/-- The new element goes between the smaller and the larger ones. -/
theorem inorder_insert {t : BinaryTree α} {e : α} (hsorted : Sorted key t)
    (habsent : ∀ x ∈ inorder t, key x ≠ key e) :
    ∃ front back, inorder t = front ++ back ∧ inorder (insert key fix e t) = front ++ e :: back ∧
      (∀ x ∈ front, key x < key e) ∧ ∀ x ∈ back, key e < key x := by
  induction t with
  | nil => exact ⟨[], [], rfl, rfl, by simp, by simp⟩
  | node y l r ihl ihr =>
    have hnode := (sorted_node key).mp hsorted
    simp only [inorder_node, List.mem_append, List.mem_cons] at habsent
    unfold insert
    split
    · next hlt =>
      obtain ⟨front, back, hr, hinsert, hfront, hback⟩ :=
        ihr hnode.2.1 fun x hx ↦ habsent x (.inr (.inr hx))
      refine ⟨inorder l ++ y :: front, back, by simp [hr], by simp [hfix, hinsert], ?_, hback⟩
      intro x hx
      rcases List.mem_append.mp hx with hl | hx
      · exact (hnode.2.2.1 x hl).trans hlt
      · rcases List.mem_cons.mp hx with rfl | hx
        · exact hlt
        · exact hfront x hx
    · split
      · next hgt =>
        obtain ⟨front, back, hl, hinsert, hfront, hback⟩ :=
          ihl hnode.1 fun x hx ↦ habsent x (.inl hx)
        refine ⟨front, back ++ y :: inorder r, by simp [hl], by simp [hfix, hinsert], hfront, ?_⟩
        intro x hx
        rcases List.mem_append.mp hx with hx | hx
        · exact hback x hx
        · rcases List.mem_cons.mp hx with rfl | hr
          · exact hgt
          · exact hgt.trans (hnode.2.2.2 x hr)
      · next hle hge =>
        exact absurd (le_antisymm (not_lt.mp hge) (not_lt.mp hle)) (habsent y (.inr (.inl rfl)))

/-- A present key is not inserted again. -/
theorem inorder_insert_of_mem {t : BinaryTree α} {e x : α} (hsorted : Sorted key t)
    (hx : x ∈ inorder t) (hkey : key x = key e) :
    inorder (insert key fix e t) = inorder t := by
  induction t with
  | nil => exact absurd hx List.not_mem_nil
  | node y l r ihl ihr =>
    have hnode := (sorted_node key).mp hsorted
    have hside : x ∈ inorder l ∨ x = y ∨ x ∈ inorder r := by simpa using hx
    unfold insert
    split
    · next hlt =>
      rw [hfix, inorder_node, inorder_node]
      rcases hside with hl | rfl | hr
      · exact absurd (hnode.2.2.1 x hl) (by rw [hkey]; exact not_lt_of_gt hlt)
      · exact absurd hkey hlt.ne
      · rw [ihr hnode.2.1 hr]
    · split
      · next hgt =>
        rw [hfix, inorder_node, inorder_node]
        rcases hside with hl | rfl | hr
        · rw [ihl hnode.1 hl]
        · exact absurd hkey hgt.ne'
        · exact absurd (hnode.2.2.2 x hr) (by rw [hkey]; exact not_lt_of_gt hgt)
      · rfl

theorem sorted_insert {t : BinaryTree α} {e : α} (hsorted : Sorted key t)
    (habsent : ∀ x ∈ inorder t, key x ≠ key e) : Sorted key (insert key fix e t) := by
  obtain ⟨front, back, ht, hinsert, hfront, hback⟩ := inorder_insert key hfix hsorted habsent
  unfold Sorted at hsorted ⊢
  rw [ht, List.pairwise_append] at hsorted
  rw [hinsert, List.pairwise_append, List.pairwise_cons]
  refine ⟨hsorted.1, ⟨hback, hsorted.2.1⟩, ?_⟩
  intro x hx y hy
  rcases List.mem_cons.mp hy with rfl | hy
  · exact hfront x hx
  · exact hsorted.2.2 x hx y hy

theorem perm_inorder_insert {t : BinaryTree α} {e : α} (hsorted : Sorted key t)
    (habsent : ∀ x ∈ inorder t, key x ≠ key e) :
    (inorder (insert key fix e t)).Perm (e :: inorder t) := by
  obtain ⟨front, back, ht, hinsert, -, -⟩ := inorder_insert key hfix hsorted habsent
  rw [ht, hinsert]
  exact List.perm_middle

theorem find_insert {t : BinaryTree α} {e : α} (hsorted : Sorted key t)
    (habsent : ∀ x ∈ inorder t, key x ≠ key e) (k : κ) :
    find key k (insert key fix e t) = if k = key e then some e else find key k t := by
  have hperm := perm_inorder_insert key hfix hsorted habsent
  have hsorted' := sorted_insert key hfix hsorted habsent
  split
  · next hk =>
    rw [find_eq_some_iff key hsorted', hperm.mem_iff]
    exact ⟨List.mem_cons_self, hk.symm⟩
  · next hk =>
    apply find_congr key hsorted' hsorted
    intro x hx
    rw [hperm.mem_iff, List.mem_cons]
    constructor
    · rintro (rfl | h)
      · exact absurd hx.symm hk
      · exact h
    · exact .inr

end Insert

section Erase

variable (fill : α → α → α)

/-- The tree without its root: the content of the predecessor or of the only child goes into the
node of the root. -/
def eraseRoot (x : α) : BinaryTree α → BinaryTree α → BinaryTree α
  | .nil, .nil => .nil
  | .node m a b, .nil => .node (fill x m) a b
  | .nil, .node m a b => .node (fill x m) a b
  | .node m a b, .node n c d =>
    .node (((last (.node m a b)).map (fill x)).getD x) (dropLast (.node m a b)) (.node n c d)

def erase (k : κ) : BinaryTree α → BinaryTree α
  | .nil => .nil
  | .node x l r =>
    if key x < k then .node x l (erase k r)
    else if k < key x then .node x (erase k l) r
    else eraseRoot fill x l r

variable {fill} {view : α → ν} (hfill : ∀ x m, view (fill x m) = view m)

include hfill

theorem inorder_eraseRoot (x : α) (l r : BinaryTree α) :
    (inorder (eraseRoot fill x l r)).map view = (inorder l ++ inorder r).map view := by
  cases l with
  | nil => cases r with
    | nil => rfl
    | node m a b => simp [eraseRoot, hfill]
  | node m a b => cases r with
    | nil => simp [eraseRoot, hfill]
    | node n c d =>
      obtain ⟨p, hp⟩ := exists_last m a b
      rw [inorder_eq_dropLast_append hp]
      simp [eraseRoot, hp, hfill]

theorem inorder_erase {t : BinaryTree α} (hsorted : Sorted key t) (k : κ) :
    (inorder (erase key fill k t)).map view =
      ((inorder t).filter fun x ↦ key x ≠ k).map view := by
  induction t with
  | nil => rfl
  | node y l r ihl ihr =>
    have hnode := (sorted_node key).mp hsorted
    have hkeep (xs : List α) (h : ∀ x ∈ xs, key x ≠ k) :
        xs.filter (fun x ↦ key x ≠ k) = xs := by
      rw [List.filter_eq_self]
      simpa using h
    unfold erase
    split
    · next hlt =>
      have hl := hkeep (inorder l) fun x hx ↦ ((hnode.2.2.1 x hx).trans hlt).ne
      simp only [inorder_node, List.filter_append, hl, List.filter_cons, List.map_append,
        List.map_cons, ihr hnode.2.1]
      simp [hlt.ne]
    · split
      · next hgt =>
        have hr := hkeep (inorder r) fun x hx ↦ (hgt.trans (hnode.2.2.2 x hx)).ne'
        simp only [inorder_node, List.filter_append, hr, List.filter_cons, List.map_append,
          List.map_cons, ihl hnode.1]
        simp [hgt.ne']
      · next hle hge =>
        have hk : key y = k := le_antisymm (not_lt.mp hge) (not_lt.mp hle)
        have hl := hkeep (inorder l) fun x hx ↦ hk ▸ (hnode.2.2.1 x hx).ne
        have hr := hkeep (inorder r) fun x hx ↦ hk ▸ (hnode.2.2.2 x hx).ne'
        rw [inorder_eraseRoot hfill]
        simp only [inorder_node, List.filter_append, hl, List.filter_cons, hr]
        simp [hk]

omit hfill in
theorem sorted_erase (hkey : ∀ x m, key (fill x m) = key m) {t : BinaryTree α}
    (hsorted : Sorted key t) (k : κ) : Sorted key (erase key fill k t) := by
  rw [sorted_iff_map, inorder_erase key hkey hsorted, List.pairwise_map]
  exact List.Pairwise.filter _ hsorted

omit hfill in
/-- Removing a present key takes one element away. -/
theorem numNodes_erase (hkey : ∀ x m, key (fill x m) = key m) {t : BinaryTree α}
    (hsorted : Sorted key t) {k : κ} {x : α} (hfind : find key k t = some x) :
    (erase key fill k t).numNodes + 1 = t.numNodes := by
  have hnodup : ((inorder t).map key).Nodup :=
    ((sorted_iff_map key t).mp hsorted).imp fun h ↦ h.ne
  have hmem : k ∈ (inorder t).map key := by
    obtain ⟨hx, hxk⟩ := (find_eq_some_iff key hsorted).mp hfind
    exact List.mem_map.mpr ⟨x, hx, hxk⟩
  have herase : (inorder (erase key fill k t)).map key = ((inorder t).map key).erase k := by
    rw [inorder_erase key hkey hsorted, hnodup.erase_eq_filter, List.filter_map]
    congr 2
    funext y
    simp only [Function.comp, bne, beq_eq_decide, decide_not]
  have hlength := congrArg List.length herase
  rw [List.length_erase_of_mem hmem, List.length_map, List.length_map, length_inorder,
    length_inorder] at hlength
  have hpos := List.length_pos_of_mem hmem
  rw [List.length_map, length_inorder] at hpos
  omega

/-- Without the key nothing is found for it, and for the others what was found before. -/
theorem find_erase (hkey : ∀ x m, key (fill x m) = key m) {t : BinaryTree α}
    (hsorted : Sorted key t) (k k' : κ) :
    (find key k (erase key fill k' t)).map view =
      if k = k' then none else (find key k t).map view := by
  have hsorted' := sorted_erase key hkey hsorted k'
  have hpairs := @inorder_erase _ _ _ _ key fill (fun x ↦ (key x, view x))
    (fun x m ↦ Prod.ext (hkey x m) (hfill x m)) t hsorted k'
  have hfound (x : α) (hx : find key k (erase key fill k' t) = some x) :
      k ≠ k' ∧ ∃ y, find key k t = some y ∧ view y = view x := by
    obtain ⟨hmem, hxk⟩ := (find_eq_some_iff key hsorted').mp hx
    have hpair := List.mem_map_of_mem (f := fun x ↦ (key x, view x)) hmem
    rw [hpairs] at hpair
    obtain ⟨y, hy, hyx⟩ := List.mem_map.mp hpair
    obtain ⟨hyt, hne⟩ := List.mem_filter.mp hy
    obtain ⟨hyk, hyv⟩ := Prod.mk.inj hyx
    rw [hyk, hxk] at hne
    exact ⟨by simpa using hne, y,
      (find_eq_some_iff key hsorted).mpr ⟨hyt, hyk.trans hxk⟩, hyv⟩
  split
  · next hk =>
    cases hx : find key k (erase key fill k' t) with
    | none => rfl
    | some x => exact absurd hk (hfound x hx).1
  · next hk =>
    cases hx : find key k (erase key fill k' t) with
    | some x =>
      obtain ⟨-, y, hy, hview⟩ := hfound x hx
      rw [hy, Option.map_some, Option.map_some, hview]
    | none =>
      cases hy : find key k t with
      | none => rfl
      | some y =>
        obtain ⟨hmem, hyk⟩ := (find_eq_some_iff key hsorted).mp hy
        have hkept : y ∈ (inorder t).filter fun x ↦ key x ≠ k' :=
          List.mem_filter.mpr ⟨hmem, by simpa [hyk] using hk⟩
        have hpair := List.mem_map_of_mem (f := fun x ↦ (key x, view x)) hkept
        rw [← hpairs] at hpair
        obtain ⟨x, hxmem, hxy⟩ := List.mem_map.mp hpair
        have hnone := (find_eq_none_iff key hsorted').mp hx x hxmem
        exact absurd ((Prod.mk.inj hxy).1.trans hyk) hnone

end Erase

end Ordered

end FGDB.Foundation.SearchTree
