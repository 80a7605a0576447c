import Mathlib.Algebra.Order.Ring.Int
import Mathlib.Data.List.Perm.Basic
import Mathlib.Order.Basic
import Mathlib.Tactic.Common

/-!
# The binary heap

The entries of the heap lie in one array, the children of an index behind it. An
insertion moves entries down the path to the root until the new one fits, and
the removal of the root moves the last entry to the top and swaps it down. Both
permute the entries and keep every parent before its children, for a comparison
that follows an order of the keys.
-/

namespace FGDB.Queue

/-- `heap_entry`; the key is what the comparison reads through its pointer. -/
structure HeapEntry (κ υ : Type) where
  key : κ
  value : υ
  deriving DecidableEq, Repr

variable {κ υ : Type}

/-- `LEFT_CHILD`. -/
def leftChild (index : ℕ) : ℕ := 2 * index + 1

/-- `PARENT_ENTRY`. -/
def parentEntry (index : ℕ) : ℕ := (index - 1) / 2

section Operations

variable (compareFunc : κ → κ → ℤ)

/-- The loop of `heap_insert`, and the store of the entry behind it. -/
def siftUp (entry : HeapEntry κ υ) : ℕ → List (HeapEntry κ υ) → ℕ → List (HeapEntry κ υ)
  | fuel + 1, slots, current + 1 =>
    match slots[parentEntry (current + 1)]? with
    | none => slots
    | some parent =>
      if compareFunc entry.key parent.key < 0 then
        siftUp entry fuel (slots.set (current + 1) parent) (parentEntry (current + 1))
      else slots.set (current + 1) entry
  | _, slots, current => slots.set current entry

def heapInsert (h : List (HeapEntry κ υ)) (key : κ) (value : υ) : List (HeapEntry κ υ) :=
  siftUp compareFunc ⟨key, value⟩ h.length (h ++ [⟨key, value⟩]) h.length

/-- The smaller child of an index, the left one on a tie. -/
def smallerChild (slots : List (HeapEntry κ υ)) (index : ℕ) : Option (ℕ × HeapEntry κ υ) :=
  match slots[leftChild index]?, slots[leftChild index + 1]? with
  | none, _ => none
  | some left, none => some (leftChild index, left)
  | some left, some right =>
    if compareFunc left.key right.key ≤ 0 then some (leftChild index, left)
    else some (leftChild index + 1, right)

/-- The loop of `heap_delmin`. -/
def siftDown : ℕ → List (HeapEntry κ υ) → ℕ → List (HeapEntry κ υ)
  | 0, slots, _ => slots
  | fuel + 1, slots, index =>
    match slots[index]?, smallerChild compareFunc slots index with
    | some current, some (child, entry) =>
      if compareFunc current.key entry.key = 1 then
        siftDown fuel ((slots.set index entry).set child current) child
      else slots
    | _, _ => slots

/-- The smallest entry and the heap without it. -/
def heapDelmin (h : List (HeapEntry κ υ)) : Option (HeapEntry κ υ × List (HeapEntry κ υ)) :=
  match h with
  | [] => none
  | root :: rest => some (root, match rest.getLast? with
    | none => []
    | some last => siftDown compareFunc rest.length (last :: rest.dropLast) 0)

end Operations

/-- `compare_int_keys`. -/
def compareIntKeys (key1 key2 : ℤ) : ℤ :=
  if key1 < key2 then -1 else if key1 = key2 then 0 else 1

/-- The comparison follows the order of the keys. -/
structure Compares [LinearOrder κ] (compareFunc : κ → κ → ℤ) : Prop where
  neg_iff : ∀ a b, compareFunc a b < 0 ↔ a < b
  le_iff : ∀ a b, compareFunc a b ≤ 0 ↔ a ≤ b
  eq_one_iff : ∀ a b, compareFunc a b = 1 ↔ b < a

theorem compareIntKeys_compares : Compares compareIntKeys := by
  constructor <;> intro a b <;> unfold compareIntKeys <;> split <;> try split
  all_goals omega

section Swap

variable {slots : List (HeapEntry κ υ)} {i j k : ℕ} {x y : HeapEntry κ υ}

theorem getElem?_swap (hi : slots[i]? = some x) (hj : slots[j]? = some y) :
    ((slots.set i y).set j x)[k]? =
      if k = j then some x else if k = i then some y else slots[k]? := by
  have hlti := (List.getElem?_eq_some_iff.mp hi).1
  have hltj := (List.getElem?_eq_some_iff.mp hj).1
  by_cases hkj : k = j
  · rw [hkj, if_pos rfl, List.getElem?_set_self (by simpa using hltj)]
  · rw [if_neg hkj, List.getElem?_set_ne (Ne.symm hkj)]
    by_cases hki : k = i
    · rw [hki, if_pos rfl, List.getElem?_set_self hlti]
    · rw [if_neg hki, List.getElem?_set_ne (Ne.symm hki)]

theorem perm_swap (hi : slots[i]? = some x) (hj : slots[j]? = some y) :
    ((slots.set i y).set j x).Perm slots := by
  obtain ⟨hlti, rfl⟩ := List.getElem?_eq_some_iff.mp hi
  obtain ⟨hltj, rfl⟩ := List.getElem?_eq_some_iff.mp hj
  exact List.set_set_perm hlti hltj

end Swap

section Order

variable [LinearOrder κ] {compareFunc : κ → κ → ℤ}

/-- The parent is not behind the child. -/
def EdgeOrdered (slots : List (HeapEntry κ υ)) (parent child : ℕ) : Prop :=
  ∀ x y : HeapEntry κ υ, slots[parent]? = some x → slots[child]? = some y → x.key ≤ y.key

def IsHeap (slots : List (HeapEntry κ υ)) : Prop :=
  ∀ child, 0 < child → EdgeOrdered slots (parentEntry child) child

/-- The edges are ordered but for the one above the index. -/
structure UpOrdered (slots : List (HeapEntry κ υ)) (index : ℕ) : Prop where
  edges : ∀ child, 0 < child → child ≠ index → EdgeOrdered slots (parentEntry child) child
  grand : 0 < index → ∀ child, 0 < child → parentEntry child = index →
    EdgeOrdered slots (parentEntry index) child

/-- The edges are ordered but for those below the index. -/
structure DownOrdered (slots : List (HeapEntry κ υ)) (index : ℕ) : Prop where
  edges : ∀ child, 0 < child → parentEntry child ≠ index →
    EdgeOrdered slots (parentEntry child) child
  grand : 0 < index → ∀ child, 0 < child → parentEntry child = index →
    EdgeOrdered slots (parentEntry index) child

theorem IsHeap.root_le {slots : List (HeapEntry κ υ)} (h : IsHeap slots) {root : HeapEntry κ υ}
    (hroot : slots[0]? = some root) {index : ℕ} {x : HeapEntry κ υ}
    (hx : slots[index]? = some x) : root.key ≤ x.key := by
  induction index using Nat.strong_induction_on generalizing x with
  | h index ih =>
    cases index with
    | zero =>
      obtain rfl : root = x := Option.some.inj (hroot.symm.trans hx)
      exact le_refl _
    | succ index =>
      have hlt : parentEntry (index + 1) < index + 1 := by
        unfold parentEntry
        omega
      have hinside := (List.getElem?_eq_some_iff.mp hx).1
      have hparent := List.getElem?_eq_getElem (hlt.trans hinside)
      exact (ih _ hlt hparent).trans (h _ (Nat.succ_pos _) _ _ hparent hx)

/-- Moving the parent down leaves an open edge one level higher. -/
theorem UpOrdered.swap {slots : List (HeapEntry κ υ)} {index : ℕ} {x y : HeapEntry κ υ}
    (h : UpOrdered slots index) (hpos : 0 < index) (hx : slots[index]? = some x)
    (hy : slots[parentEntry index]? = some y) (hlt : x.key < y.key) :
    UpOrdered ((slots.set index y).set (parentEntry index) x) (parentEntry index) := by
  have hparent : parentEntry index < index := by
    unfold parentEntry
    omega
  constructor
  · intro child hchild hne a b ha hb
    rw [getElem?_swap hx hy] at ha hb
    rw [if_neg hne] at hb
    by_cases hindex : child = index
    · rw [if_pos hindex, Option.some.injEq] at hb
      rw [hindex, if_pos rfl, Option.some.injEq] at ha
      rw [← ha, ← hb]
      exact hlt.le
    · rw [if_neg hindex] at hb
      by_cases hsame : parentEntry child = parentEntry index
      · rw [if_pos hsame, Option.some.injEq] at ha
        rw [← ha]
        exact hlt.le.trans (h.edges child hchild hindex y b (hsame ▸ hy) hb)
      · rw [if_neg hsame] at ha
        by_cases hbelow : parentEntry child = index
        · rw [if_pos hbelow, Option.some.injEq] at ha
          rw [← ha]
          exact h.grand hpos child hchild hbelow y b hy hb
        · rw [if_neg hbelow] at ha
          exact h.edges child hchild hindex a b ha hb
  · intro hup child hchild hbelow a b ha hb
    have hgrand : parentEntry (parentEntry index) < parentEntry index := by
      unfold parentEntry at hup ⊢
      omega
    rw [getElem?_swap hx hy, if_neg hgrand.ne, if_neg (hgrand.trans hparent).ne] at ha
    have habove := h.edges (parentEntry index) hup hparent.ne a y ha hy
    have hne : child ≠ parentEntry index := by
      rw [← hbelow]
      unfold parentEntry
      omega
    rw [getElem?_swap hx hy, if_neg hne] at hb
    by_cases hindex : child = index
    · rw [if_pos hindex, Option.some.injEq] at hb
      rw [← hb]
      exact habove
    · rw [if_neg hindex] at hb
      exact habove.trans (h.edges child hchild hindex y b (hbelow ▸ hy) hb)

theorem UpOrdered.isHeap {slots : List (HeapEntry κ υ)} {index : ℕ} (h : UpOrdered slots index)
    (hedge : 0 < index → EdgeOrdered slots (parentEntry index) index) : IsHeap slots := by
  intro child hchild
  by_cases hindex : child = index
  · rw [hindex]
    exact hedge (hindex ▸ hchild)
  · exact h.edges child hchild hindex

/-- The loop of the insertion ends in a heap of the same entries. -/
theorem siftUp_spec (hcompare : Compares compareFunc) {entry : HeapEntry κ υ} {fuel : ℕ}
    {slots : List (HeapEntry κ υ)} {current : ℕ} (hfuel : current ≤ fuel)
    (hcurrent : current < slots.length) (h : UpOrdered (slots.set current entry) current) :
    IsHeap (siftUp compareFunc entry fuel slots current) ∧
      (siftUp compareFunc entry fuel slots current).Perm (slots.set current entry) := by
  induction fuel generalizing slots current with
  | zero =>
    obtain rfl : current = 0 := Nat.le_zero.mp hfuel
    exact ⟨h.isHeap fun hpos ↦ absurd hpos (lt_irrefl 0), List.Perm.refl _⟩
  | succ fuel ih =>
    cases current with
    | zero => exact ⟨h.isHeap fun hpos ↦ absurd hpos (lt_irrefl 0), List.Perm.refl _⟩
    | succ current =>
      have hparent : parentEntry (current + 1) < current + 1 := by
        unfold parentEntry
        omega
      obtain ⟨parent, hget⟩ : ∃ parent, slots[parentEntry (current + 1)]? = some parent :=
        ⟨_, List.getElem?_eq_getElem (hparent.trans hcurrent)⟩
      have hx : (slots.set (current + 1) entry)[current + 1]? = some entry :=
        List.getElem?_set_self hcurrent
      have hy : (slots.set (current + 1) entry)[parentEntry (current + 1)]? = some parent := by
        rw [List.getElem?_set_ne hparent.ne', hget]
      rw [siftUp, hget]
      by_cases hless : compareFunc entry.key parent.key < 0
      · have hlt := (hcompare.neg_iff _ _).mp hless
        have hset : ((slots.set (current + 1) entry).set (current + 1) parent).set
            (parentEntry (current + 1)) entry =
            (slots.set (current + 1) parent).set (parentEntry (current + 1)) entry := by
          rw [List.set_set]
        have hswap := h.swap (Nat.succ_pos _) hx hy hlt
        have hperm := perm_swap hx hy
        rw [hset] at hswap hperm
        simp only [if_pos hless]
        obtain ⟨hheap, hsame⟩ := ih (by omega) (by rw [List.length_set]; omega) hswap
        exact ⟨hheap, hsame.trans hperm⟩
      · simp only [if_neg hless]
        refine ⟨h.isHeap fun _ a b ha hb ↦ ?_, List.Perm.refl _⟩
        rw [hy, Option.some.injEq] at ha
        rw [hx, Option.some.injEq] at hb
        rw [← ha, ← hb]
        exact le_of_not_gt fun hlt ↦ hless ((hcompare.neg_iff _ _).mpr hlt)

theorem heapInsert_spec (hcompare : Compares compareFunc) {h : List (HeapEntry κ υ)}
    (hheap : IsHeap h) (key : κ) (value : υ) :
    IsHeap (heapInsert compareFunc h key value) ∧
      (heapInsert compareFunc h key value).Perm (h ++ [⟨key, value⟩]) := by
  obtain ⟨entry, hentry⟩ : ∃ entry, entry = HeapEntry.mk key value := ⟨_, rfl⟩
  rw [heapInsert, ← hentry]
  have hset : (h ++ [entry]).set h.length entry = h ++ [entry] := by
    rw [List.set_append_right _ _ (Nat.le_refl _), Nat.sub_self, List.set_cons_zero]
  have hup : UpOrdered ((h ++ [entry]).set h.length entry) h.length := by
    rw [hset]
    constructor
    · intro child hchild hne a b ha hb
      have hlt : child < h.length := by
        have hinside := (List.getElem?_eq_some_iff.mp hb).1
        rw [List.length_append, List.length_singleton] at hinside
        omega
      have hparent : parentEntry child < h.length := by
        unfold parentEntry
        omega
      rw [List.getElem?_append_left hlt] at hb
      rw [List.getElem?_append_left hparent] at ha
      exact hheap child hchild a b ha hb
    · intro _ child hchild hbelow a b _ hb
      have hinside := (List.getElem?_eq_some_iff.mp hb).1
      rw [List.length_append, List.length_singleton] at hinside
      unfold parentEntry at hbelow
      omega
  have hspec := siftUp_spec hcompare (Nat.le_refl _) (by simp) hup
  rwa [hset] at hspec

theorem smallerChild_spec (hcompare : Compares compareFunc) {slots : List (HeapEntry κ υ)}
    {index child : ℕ} {entry : HeapEntry κ υ}
    (h : smallerChild compareFunc slots index = some (child, entry)) :
    slots[child]? = some entry ∧ 0 < child ∧ parentEntry child = index ∧ index < child ∧
      ∀ other x, 0 < other → parentEntry other = index → slots[other]? = some x →
        entry.key ≤ x.key := by
  have hcases (other : ℕ) (hpos : 0 < other) (hother : parentEntry other = index) :
      other = leftChild index ∨ other = leftChild index + 1 := by
    unfold parentEntry at hother
    unfold leftChild
    omega
  have hleft : 0 < leftChild index ∧ parentEntry (leftChild index) = index ∧
      index < leftChild index := by
    unfold parentEntry leftChild
    omega
  have hright : 0 < leftChild index + 1 ∧ parentEntry (leftChild index + 1) = index ∧
      index < leftChild index + 1 := by
    unfold parentEntry leftChild
    omega
  unfold smallerChild at h
  cases hl : slots[leftChild index]? with
  | none => simp [hl] at h
  | some left =>
    cases hr : slots[leftChild index + 1]? with
    | none =>
      simp only [hl, hr, Option.some.injEq, Prod.mk.injEq] at h
      obtain ⟨rfl, rfl⟩ := h
      refine ⟨hl, hleft.1, hleft.2.1, hleft.2.2, fun other x hpos hother hx ↦ ?_⟩
      rcases hcases other hpos hother with rfl | rfl
      · rw [hl, Option.some.injEq] at hx
        exact le_of_eq (congrArg HeapEntry.key hx)
      · rw [hr] at hx
        cases hx
    | some right =>
      simp only [hl, hr] at h
      by_cases hle : compareFunc left.key right.key ≤ 0
      · rw [if_pos hle, Option.some.injEq, Prod.mk.injEq] at h
        obtain ⟨rfl, rfl⟩ := h
        refine ⟨hl, hleft.1, hleft.2.1, hleft.2.2, fun other x hpos hother hx ↦ ?_⟩
        rcases hcases other hpos hother with rfl | rfl
        · rw [hl, Option.some.injEq] at hx
          exact le_of_eq (congrArg HeapEntry.key hx)
        · rw [hr, Option.some.injEq] at hx
          rw [← hx]
          exact (hcompare.le_iff _ _).mp hle
      · rw [if_neg hle, Option.some.injEq, Prod.mk.injEq] at h
        obtain ⟨rfl, rfl⟩ := h
        refine ⟨hr, hright.1, hright.2.1, hright.2.2, fun other x hpos hother hx ↦ ?_⟩
        rcases hcases other hpos hother with rfl | rfl
        · rw [hl, Option.some.injEq] at hx
          rw [← hx]
          exact (lt_of_not_ge fun hge ↦ hle ((hcompare.le_iff _ _).mpr hge)).le
        · rw [hr, Option.some.injEq] at hx
          exact le_of_eq (congrArg HeapEntry.key hx)

/-- Swapping with the smaller child moves the open edges one level lower. -/
theorem DownOrdered.swap {slots : List (HeapEntry κ υ)} {index child : ℕ} {x y : HeapEntry κ υ}
    (h : DownOrdered slots index) (hpos : 0 < child) (hchild : parentEntry child = index)
    (hlt : index < child) (hx : slots[index]? = some x) (hy : slots[child]? = some y)
    (hsmall : ∀ other z, 0 < other → parentEntry other = index → slots[other]? = some z →
      y.key ≤ z.key) (hless : y.key < x.key) :
    DownOrdered ((slots.set index y).set child x) child := by
  constructor
  · intro other hother hne a b ha hb
    rw [getElem?_swap hx hy] at ha hb
    rw [if_neg hne] at ha
    by_cases hsame : other = child
    · rw [if_pos hsame, Option.some.injEq] at hb
      rw [hsame, if_pos hchild, Option.some.injEq] at ha
      rw [← ha, ← hb]
      exact hless.le
    · rw [if_neg hsame] at hb
      by_cases hindex : other = index
      · rw [if_pos hindex, Option.some.injEq] at hb
        have hup : parentEntry other ≠ index := by
          unfold parentEntry
          omega
        rw [if_neg hup] at ha
        rw [← hb]
        exact h.grand (hindex ▸ hother) child hpos hchild a y (hindex ▸ ha) hy
      · rw [if_neg hindex] at hb
        by_cases hbelow : parentEntry other = index
        · rw [if_pos hbelow, Option.some.injEq] at ha
          rw [← ha]
          exact hsmall other b hother hbelow hb
        · rw [if_neg hbelow] at ha
          exact h.edges other hother hbelow a b ha hb
  · intro _ other hother hbelow a b ha hb
    have hne : other ≠ child := by
      rw [← hbelow]
      unfold parentEntry
      omega
    have hne' : other ≠ index := by
      intro heq
      rw [heq] at hbelow
      unfold parentEntry at hbelow
      omega
    rw [getElem?_swap hx hy, hchild, if_neg hlt.ne, if_pos rfl, Option.some.injEq] at ha
    rw [getElem?_swap hx hy, if_neg hne, if_neg hne'] at hb
    rw [← ha]
    exact h.edges other hother (by omega) y b (hbelow ▸ hy) hb

theorem siftDown_spec (hcompare : Compares compareFunc) {fuel : ℕ} {slots : List (HeapEntry κ υ)}
    {index : ℕ} (hfuel : slots.length ≤ fuel + index) (h : DownOrdered slots index) :
    IsHeap (siftDown compareFunc fuel slots index) ∧
      (siftDown compareFunc fuel slots index).Perm slots := by
  have hstop (hedges : ∀ child, 0 < child → parentEntry child = index →
      EdgeOrdered slots index child) : IsHeap slots := by
    intro child hchild
    by_cases hbelow : parentEntry child = index
    · rw [hbelow]
      exact hedges child hchild hbelow
    · exact h.edges child hchild hbelow
  induction fuel generalizing slots index with
  | zero =>
    refine ⟨hstop fun child _ hbelow a b ha _ ↦ ?_, List.Perm.refl _⟩
    have hinside := (List.getElem?_eq_some_iff.mp ha).1
    omega
  | succ fuel ih =>
    rw [siftDown]
    cases hx : slots[index]? with
    | none =>
      refine ⟨hstop fun child _ _ a b ha _ ↦ ?_, List.Perm.refl _⟩
      rw [hx] at ha
      cases ha
    | some current =>
      cases hchild : smallerChild compareFunc slots index with
      | none =>
        refine ⟨hstop fun child hpos hbelow a b _ hb ↦ ?_, List.Perm.refl _⟩
        have hnone : slots[leftChild index]? = none := by
          unfold smallerChild at hchild
          cases hl : slots[leftChild index]? with
          | none => rfl
          | some left =>
            cases hr : slots[leftChild index + 1]? with
            | none => simp [hl, hr] at hchild
            | some right =>
              simp only [hl, hr] at hchild
              split at hchild <;> cases hchild
        have hout := List.getElem?_eq_none_iff.mp hnone
        have hinside := (List.getElem?_eq_some_iff.mp hb).1
        unfold leftChild at hout
        unfold parentEntry at hbelow
        omega
      | some found =>
        obtain ⟨child, entry⟩ := found
        obtain ⟨hy, hpos, hparent, hlt, hsmall⟩ := smallerChild_spec hcompare hchild
        by_cases hgreater : compareFunc current.key entry.key = 1
        · simp only [if_pos hgreater]
          have hless := (hcompare.eq_one_iff _ _).mp hgreater
          have hswap := h.swap hpos hparent hlt hx hy hsmall hless
          obtain ⟨hheap, hperm⟩ := @ih ((slots.set index entry).set child current) child (by
            rw [List.length_set, List.length_set]
            omega) hswap (fun hedges other hother ↦ by
              by_cases hbelow : parentEntry other = child
              · rw [hbelow]
                exact hedges other hother hbelow
              · exact hswap.edges other hother hbelow)
          exact ⟨hheap, hperm.trans (perm_swap hx hy)⟩
        · simp only [if_neg hgreater]
          refine ⟨hstop fun other hother hbelow a b ha hb ↦ ?_, List.Perm.refl _⟩
          rw [hx, Option.some.injEq] at ha
          rw [← ha]
          have hle : current.key ≤ entry.key :=
            le_of_not_gt fun hgt ↦ hgreater ((hcompare.eq_one_iff _ _).mpr hgt)
          exact hle.trans (hsmall other b hother hbelow hb)

/-- The removal takes an entry with a smallest key out of the heap. -/
theorem heapDelmin_spec (hcompare : Compares compareFunc) {h : List (HeapEntry κ υ)}
    (hheap : IsHeap h) (hne : h ≠ []) :
    ∃ root rest, heapDelmin compareFunc h = some (root, rest) ∧ IsHeap rest ∧
      (root :: rest).Perm h ∧ ∀ x ∈ h, root.key ≤ x.key := by
  cases h with
  | nil => exact absurd rfl hne
  | cons root rest =>
    have hmin (x : HeapEntry κ υ) (hx : x ∈ root :: rest) : root.key ≤ x.key := by
      obtain ⟨index, hindex⟩ := List.getElem?_of_mem hx
      exact hheap.root_le rfl hindex
    cases hlast : rest.getLast? with
    | none =>
      rw [List.getLast?_eq_none_iff] at hlast
      rw [hlast] at hmin ⊢
      refine ⟨root, [], rfl, fun child hchild a b ha _ ↦ (nomatch ha), List.Perm.refl _, hmin⟩
    | some last =>
      have hrest : rest = rest.dropLast ++ [last] := by
        have hcons := List.dropLast_append_getLast? last (Option.mem_def.mpr hlast)
        exact hcons.symm
      have hdown : DownOrdered (last :: rest.dropLast) 0 := by
        constructor
        · intro child hchild hne a b ha hb
          obtain ⟨child, rfl⟩ := Nat.exists_eq_succ_of_ne_zero hchild.ne'
          obtain ⟨parent, hparent⟩ := Nat.exists_eq_succ_of_ne_zero hne
          rw [hparent] at ha
          rw [List.getElem?_cons_succ] at ha hb
          have hedge := hheap (child + 1) hchild a b
          rw [hparent, List.getElem?_cons_succ, List.getElem?_cons_succ, hrest] at hedge
          rw [List.getElem?_append_left (List.getElem?_eq_some_iff.mp ha).1,
            List.getElem?_append_left (List.getElem?_eq_some_iff.mp hb).1] at hedge
          exact hedge ha hb
        · intro hzero
          exact absurd hzero (lt_irrefl 0)
      have hlength : (last :: rest.dropLast).length ≤ rest.length + 0 := by
        have hsame := congrArg List.length hrest
        simp only [List.length_append, List.length_singleton] at hsame
        simp only [List.length_cons]
        omega
      obtain ⟨hfinal, hperm⟩ := siftDown_spec hcompare hlength hdown
      refine ⟨root, _, by rw [heapDelmin, hlast], hfinal, ?_, hmin⟩
      apply List.Perm.cons
      apply hperm.trans
      nth_rewrite 2 [hrest]
      exact (List.perm_append_singleton last _).symm

end Order

end FGDB.Queue
