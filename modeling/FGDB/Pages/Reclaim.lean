import FGDB.Pages.Layout
import Mathlib.Algebra.Order.Field.Rat
import Mathlib.Tactic.Push

/-!
# Which pages are defragmented for a value

A page with lost bytes should be defragmented for a value if its records leave
room for it on average and the lost bytes would hold several values. The test
divides the lost bytes by the size of a page first, which leaves nothing as long
as they are fewer.
-/

namespace FGDB.Pages

open Foundation
open FGDB.Vector (Growth)

/-- What the test asks in exact arithmetic. -/
def PageHeader.Qualifies (header : PageHeader) (size : ℕ) : Prop :=
  (size : ℚ) ≤ ((pageSize : ℚ) - header.fragmentatedBytes) / header.keys.contents.length ∧
    (fragmentationFactor : ℚ) ≤
      (header.fragmentatedBytes : ℚ) * header.keys.contents.length / pageSize

/-- The search ends with a new page. -/
def OpensPage (headers : List PageHeader) (size : ℕ) : Prop :=
  searchPage size headers 0 none = .ok .noPage

instance (headers : List PageHeader) (size : ℕ) : Decidable (OpensPage headers size) :=
  inferInstanceAs (Decidable (_ = _))

/-- A new page is opened only if no page has a free tail for the value or is worth defragmenting. -/
def ReclaimsSpace (headers : List PageHeader) (size : ℕ) : Prop :=
  OpensPage headers size → ∀ header ∈ headers,
    pageSize < header.offsetBytes + size ∧ ¬ header.Qualifies size

section Search

variable {headers : List PageHeader} {header : PageHeader} {size : ℕ}

theorem qualifies_iff (htotal : header.keys.contents ≠ []) : header.Qualifies size ↔
    size * header.keys.contents.length + header.fragmentatedBytes ≤ pageSize ∧
      fragmentationFactor * pageSize ≤ header.fragmentatedBytes * header.keys.contents.length := by
  have hlength : (0 : ℚ) < header.keys.contents.length := by
    exact_mod_cast List.length_pos_iff.mpr htotal
  have hpage : (0 : ℚ) < pageSize := by
    norm_num [pageSize]
  rw [PageHeader.Qualifies, le_div_iff₀ hlength, le_div_iff₀ hpage, le_sub_iff_add_le]
  exact_mod_cast Iff.rfl

theorem pageSize_le_freeBytes (header : PageHeader) :
    pageSize ≤ header.offsetBytes + header.freeBytes := by
  unfold PageHeader.freeBytes wrap16 pageSize
  omega

/-- The search opens a page if and only if it passes over all of them and prefers none. -/
theorem searchPage_eq_noPage {index : ℕ} {prefered : Option ℕ} :
    searchPage size headers index prefered = .ok .noPage ↔ prefered = none ∧
      ∀ header ∈ headers, header.freeBytes < size ∧ header.fragmentated size = .ok false := by
  induction headers generalizing index prefered with
  | nil => cases prefered <;> simp [searchPage]
  | cons header rest ih =>
    rw [searchPage, List.forall_mem_cons]
    split
    · next hfits => simp [hfits.not_gt]
    · next hfits =>
      cases hfragmentated : header.fragmentated size with
      | error fault => simp
      | ok worth =>
        rw [ok_bind, ih]
        cases worth <;> simp [Nat.lt_of_not_le hfits]

theorem opensPage_iff : OpensPage headers size ↔
    ∀ header ∈ headers, header.freeBytes < size ∧ header.fragmentated size = .ok false := by
  rw [OpensPage, searchPage_eq_noPage, and_iff_right rfl]

/-- Exactly then a call that returns has one header more. -/
theorem opensPage_iff_length {growth : Growth} {s s' : Storage} {index : ℕ}
    (h : headersAllocPage growth s size = .ok (s', index)) :
    OpensPage s.headers size ↔ s'.headers.length = s.headers.length + 1 := by
  unfold OpensPage
  cases headersAllocPage_shape h with
  | fits hsearch hsame =>
    rw [hsearch, hsame]
    simp
  | prefered hsearch header header' hrearranged =>
    rw [hsearch, hrearranged.headers, List.length_set]
    simp
  | noPage hsearch header hnew =>
    rw [hsearch, hnew.headers, List.length_append, List.length_singleton]
    simp

theorem fragmentated_eq_ok_false (hkeys : header.keys.contents ≠ [])
    (hworth : header.fragmentated size ≠ .ok true) : header.fragmentated size = .ok false := by
  rw [PageHeader.fragmentated, if_neg (mt List.length_eq_zero_iff.mp hkeys)] at hworth ⊢
  simpa using hworth

/-- As long as the values fit, no page loses as many bytes as it has, and none is ever preferred. -/
theorem Laid.not_fragmentated {s : Storage} (h : Laid s) (hheader : header ∈ s.headers) :
    header.fragmentated size ≠ .ok true := by
  obtain ⟨index, hindex⟩ := List.getElem?_of_mem hheader
  rw [fragmentated_eq (h.pages index header hindex).holds.fragmentated_lt]
  split
  · intro hfault
    cases hfault
  · intro hworth
    cases hworth

end Search

/-- A value of as many zeros. -/
def zeroValue (count : ℕ) (h : count < 2 ^ 16) : Str where
  bytes := List.replicate count 0
  size_lt := by
    rw [List.length_replicate]
    exact h

/-- Half a page is stored, then eight values behind it, and the first one is removed. -/
def halfLost : List PageCall :=
  .set (zeroValue 2048 (by decide)) :: List.replicate 8 (.set (zeroValue 253 (by decide))) ++
    [.unset ⟨none, 0, 0⟩]

end FGDB.Pages
