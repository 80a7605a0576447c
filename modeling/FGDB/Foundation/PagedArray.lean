import FGDB.Foundation.Run
import Mathlib.Logic.Function.Basic

/-!
# Arrays in pages

An array may lie in pages of one size that need not lie next to each other. A table has
the address of each page, and a place of the array is the place in a page of the table. As
long as the table has different mapped pages in front, they hold an array that is read and
written as a list, and that grows and shrinks by a page at its end.
-/

namespace FGDB.Foundation

/-- The table, and what the mapped pages hold. An entry of the table may be NULL. -/
structure PagedArray (α : Type) where
  table : List (Option ℕ)
  pages : ℕ → Option (ℕ → α)

namespace PagedArray

variable {α : Type}

/-- What a mapped page holds. -/
def put (a : PagedArray α) (address : ℕ) (contents : ℕ → α) : PagedArray α :=
  ⟨a.table, Function.update a.pages address (some contents)⟩

section Access

variable (perPage : ℕ)

/-- The page of a place, with its address. -/
def page (a : PagedArray α) (index : ℕ) : Outcome (ℕ × (ℕ → α)) := do
  let entry ← a.table[index / perPage]?.elim (.error .outOfBounds) .ok
  let address ← entry.elim (.error .nullPointer) .ok
  let page ← (a.pages address).elim (.error .danglingPointer) .ok
  return (address, page)

def read (a : PagedArray α) (index : ℕ) : Outcome α := do
  let found ← a.page perPage index
  return found.2 (index % perPage)

def write (a : PagedArray α) (index : ℕ) (value : α) : Outcome (PagedArray α) := do
  let found ← a.page perPage index
  return a.put found.1 (Function.update found.2 (index % perPage) value)

end Access

/-- The table goes on behind its entries. -/
def regrow (a : PagedArray α) (more : List (Option ℕ)) : PagedArray α :=
  ⟨a.table ++ more, a.pages⟩

/-- A mapped page is put at an entry of the table. -/
def extend (a : PagedArray α) (count address : ℕ) (contents : ℕ → α) : PagedArray α :=
  ⟨a.table.set count (some address), Function.update a.pages address (some contents)⟩

/-- A page is unmapped; its entry stays. -/
def shrink (a : PagedArray α) (address : ℕ) : PagedArray α :=
  ⟨a.table, Function.update a.pages address none⟩

/-- The first entries of the table are different addresses, and these are the mapped pages. -/
structure Backed (a : PagedArray α) (count : ℕ) : Prop where
  entry : ∀ i, i < count → ∃ address, a.table[i]? = some (some address)
  apart : ∀ i j address, i < count → j < count → a.table[i]? = some (some address) →
    a.table[j]? = some (some address) → i = j
  mapped : ∀ address, a.pages address ≠ none ↔ ∃ i, i < count ∧ a.table[i]? = some (some address)

/-- The array has the values of the list, but maybe for one place. -/
def ShowsBut (perPage : ℕ) (a : PagedArray α) (values : List α) (hole : ℕ) : Prop :=
  ∀ index value, index ≠ hole → values[index]? = some value → a.read perPage index = .ok value

def Shows (perPage : ℕ) (a : PagedArray α) (values : List α) : Prop :=
  ∀ index value, values[index]? = some value → a.read perPage index = .ok value

section Places

variable {perPage count index : ℕ} {a a' : PagedArray α} {values : List α} {value : α}

theorem div_lt_count (hindex : index < count * perPage) : index / perPage < count :=
  Nat.div_lt_of_lt_mul (Nat.mul_comm count perPage ▸ hindex)

theorem put_pages_self {address : ℕ} {contents : ℕ → α} :
    (a.put address contents).pages address = some contents :=
  Function.update_self ..

theorem put_pages_of_ne {address other : ℕ} {contents : ℕ → α} (hne : other ≠ address) :
    (a.put address contents).pages other = a.pages other :=
  Function.update_of_ne hne ..

section Entry

variable {address : ℕ} {contents : ℕ → α}

theorem page_of_entry (hentry : a.table[index / perPage]? = some (some address))
    (hpage : a.pages address = some contents) : a.page perPage index = .ok (address, contents) := by
  simp only [page, hentry, Option.elim_some, ok_bind, hpage, pure_eq_ok]

theorem read_of_entry (hentry : a.table[index / perPage]? = some (some address))
    (hpage : a.pages address = some contents) :
    a.read perPage index = .ok (contents (index % perPage)) := by
  rw [read, page_of_entry hentry hpage, ok_bind, pure_eq_ok]

theorem write_of_entry (hentry : a.table[index / perPage]? = some (some address))
    (hpage : a.pages address = some contents) : a.write perPage index value =
      .ok (a.put address (Function.update contents (index % perPage) value)) := by
  rw [write, page_of_entry hentry hpage, ok_bind, pure_eq_ok]

theorem read_put (hentry : a.table[index / perPage]? = some (some address)) :
    (a.put address contents).read perPage index = .ok (contents (index % perPage)) :=
  read_of_entry hentry put_pages_self

end Entry

/-- A place in the mapped pages. -/
theorem Backed.page (h : a.Backed count) (hindex : index < count * perPage) :
    ∃ address contents, a.table[index / perPage]? = some (some address) ∧
      a.pages address = some contents := by
  obtain ⟨address, hentry⟩ := h.entry _ (div_lt_count hindex)
  have hmapped := (h.mapped address).mpr ⟨_, div_lt_count hindex, hentry⟩
  obtain ⟨contents, hpage⟩ := Option.ne_none_iff_exists'.mp hmapped
  exact ⟨address, contents, hentry, hpage⟩

/-- The table is the same, and the same pages are mapped. -/
structure SamePages (a a' : PagedArray α) : Prop where
  table : a'.table = a.table
  mapped : ∀ address, a'.pages address ≠ none ↔ a.pages address ≠ none

theorem SamePages.refl (a : PagedArray α) : SamePages a a :=
  ⟨rfl, fun _ ↦ Iff.rfl⟩

theorem SamePages.trans {a'' : PagedArray α} (h : SamePages a a') (h' : SamePages a' a'') :
    SamePages a a'' :=
  ⟨h'.table.trans h.table, fun address ↦ (h'.mapped address).trans (h.mapped address)⟩

theorem SamePages.backed (hsame : SamePages a a') (h : a.Backed count) : a'.Backed count := by
  refine ⟨fun i hi ↦ ?_, fun i j address hi hj hfirst hsecond ↦ ?_, fun address ↦ ?_⟩
  · rw [hsame.table]
    exact h.entry i hi
  · rw [hsame.table] at hfirst hsecond
    exact h.apart i j address hi hj hfirst hsecond
  · rw [hsame.mapped, hsame.table]
    exact h.mapped address

/-- What a write leaves: the other places read as before. -/
structure Writes (perPage count : ℕ) (a a' : PagedArray α) (index : ℕ) (value : α) : Prop
    extends SamePages a a' where
  self : a'.read perPage index = .ok value
  other : ∀ other, other < count * perPage → other ≠ index →
    a'.read perPage other = a.read perPage other

theorem Backed.write (h : a.Backed count) (hindex : index < count * perPage) (value : α) :
    ∃ a', a.write perPage index value = .ok a' ∧ Writes perPage count a a' index value := by
  obtain ⟨address, contents, hentry, hpage⟩ := h.page hindex
  refine ⟨_, write_of_entry hentry hpage, ⟨rfl, fun other ↦ ?_⟩, ?_, fun other hother hne ↦ ?_⟩
  · by_cases hsame : other = address
    · rw [hsame, put_pages_self, hpage]
      exact iff_of_true (Option.some_ne_none _) (Option.some_ne_none _)
    · rw [put_pages_of_ne hsame]
  · exact (read_put hentry).trans (congrArg _ (Function.update_self ..))
  · obtain ⟨address', contents', hentry', hpage'⟩ := h.page hother
    rw [read_of_entry hentry' hpage']
    by_cases hsame : address' = address
    · -- two places of one page are apart in it
      subst hsame
      cases hpage.symm.trans hpage'
      have hdiv : other / perPage = index / perPage :=
        h.apart _ _ _ (div_lt_count hother) (div_lt_count hindex) hentry' hentry
      have hmod : other % perPage ≠ index % perPage := by
        intro hmod
        apply hne
        rw [← Nat.div_add_mod other perPage, hdiv, hmod, Nat.div_add_mod]
      exact (read_put hentry').trans
        (congrArg _ (Function.update_of_ne hmod ..))
    · exact read_of_entry hentry' ((put_pages_of_ne hsame).trans hpage')

theorem Shows.but (h : Shows perPage a values) (hole : ℕ) : ShowsBut perPage a values hole :=
  fun index value _ ↦ h index value

/-- A write fills the hole with what the list is to have there. -/
theorem Writes.fills (hwrites : Writes perPage count a a' index value)
    (h : ShowsBut perPage a values index) (hroom : values.length ≤ count * perPage) :
    Shows perPage a' (values.set index value) := by
  intro other result hresult
  by_cases hother : other = index
  · have hlt := (List.getElem?_eq_some_iff.mp hresult).1
    rw [List.length_set] at hlt
    rw [hother] at hresult hlt
    rw [List.getElem?_set_self hlt] at hresult
    rw [hother, hwrites.self, Option.some.inj hresult]
  · rw [List.getElem?_set_ne (Ne.symm hother)] at hresult
    have hlt := (List.getElem?_eq_some_iff.mp hresult).1
    rw [hwrites.other other (Nat.lt_of_lt_of_le hlt hroom) hother]
    exact h other result hother hresult

/-- Behind the list there is room for one value. -/
theorem Shows.append (h : Shows perPage a values) (value : α) :
    ShowsBut perPage a (values ++ [value]) values.length := by
  intro index result hne hresult
  have hlt := (List.getElem?_eq_some_iff.mp hresult).1
  rw [List.length_append, List.length_singleton] at hlt
  rw [List.getElem?_append_left (Nat.lt_of_le_of_ne (Nat.le_of_lt_succ hlt) hne)] at hresult
  exact h index result hresult

/-- Less of the list is shown as well. -/
theorem Shows.take (h : Shows perPage a values) {less : List α} (hless : less <+: values) :
    Shows perPage a less := by
  intro index value hvalue
  apply h index value
  obtain ⟨rest, rfl⟩ := hless
  rwa [List.getElem?_append_left (List.getElem?_eq_some_iff.mp hvalue).1]

theorem Backed.count_le (h : a.Backed count) : count ≤ a.table.length := by
  cases count with
  | zero => exact Nat.zero_le _
  | succ count =>
    obtain ⟨address, hentry⟩ := h.entry count (Nat.lt_succ_self _)
    exact (List.getElem?_eq_some_iff.mp hentry).1

section Growth

variable {address : ℕ} {contents : ℕ → α} {more : List (Option ℕ)}

theorem read_regrow (hindex : index / perPage < a.table.length) :
    (a.regrow more).read perPage index = a.read perPage index := by
  rw [read, page, regrow, List.getElem?_append_left hindex, read, page]

theorem Backed.regrow (h : a.Backed count) : (a.regrow more).Backed count := by
  have hsame {i : ℕ} (hi : i < count) : (a.table ++ more)[i]? = a.table[i]? :=
    List.getElem?_append_left (Nat.lt_of_lt_of_le hi h.count_le)
  refine ⟨fun i hi ↦ ?_, fun i j address hi hj hfirst hsecond ↦ ?_, fun address ↦ ?_⟩
  · exact (hsame hi).symm ▸ h.entry i hi
  · exact h.apart i j address hi hj (hsame hi ▸ hfirst) (hsame hj ▸ hsecond)
  · refine (h.mapped address).trans ⟨?_, ?_⟩
    · rintro ⟨i, hi, hentry⟩
      exact ⟨i, hi, (hsame hi).trans hentry⟩
    · rintro ⟨i, hi, hentry⟩
      exact ⟨i, hi, (hsame hi).symm.trans hentry⟩

theorem extend_self (hroom : count < a.table.length) :
    (a.extend count address contents).table[count]? = some (some address) :=
  List.getElem?_set_self hroom

theorem extend_of_lt {i : ℕ} (hi : i < count) :
    (a.extend count address contents).table[i]? = a.table[i]? :=
  List.getElem?_set_ne (Nat.ne_of_gt hi)

theorem extend_pages_self : (a.extend count address contents).pages address = some contents :=
  Function.update_self ..

theorem extend_pages_of_ne {other : ℕ} (hne : other ≠ address) :
    (a.extend count address contents).pages other = a.pages other :=
  Function.update_of_ne hne ..

theorem Backed.ne_of_free (h : a.Backed count) (hfree : a.pages address = none) {i : ℕ}
    (hi : i < count) : a.table[i]? ≠ some (some address) :=
  fun hentry ↦ (h.mapped address).mpr ⟨i, hi, hentry⟩ hfree

/-- One more page is mapped and put behind the others. -/
theorem Backed.extend (h : a.Backed count) (hroom : count < a.table.length)
    (hfree : a.pages address = none) : (a.extend count address contents).Backed (count + 1) := by
  have hcases {i : ℕ} (hi : i < count + 1) : i < count ∨ i = count := Nat.lt_succ_iff_lt_or_eq.mp hi
  refine ⟨fun i hi ↦ ?_, fun i j other hi hj hfirst hsecond ↦ ?_, fun other ↦ ?_⟩
  · rcases hcases hi with hi | rfl
    · rw [extend_of_lt hi]
      exact h.entry i hi
    · exact ⟨address, extend_self hroom⟩
  · rcases hcases hi with hi | rfl
    · rw [extend_of_lt hi] at hfirst
      rcases hcases hj with hj | rfl
      · exact h.apart i j other hi hj hfirst (extend_of_lt hj ▸ hsecond)
      · cases Option.some.inj ((extend_self hroom).symm.trans hsecond)
        exact absurd hfirst (h.ne_of_free hfree hi)
    · cases Option.some.inj ((extend_self hroom).symm.trans hfirst)
      rcases hcases hj with hj | rfl
      · exact absurd ((extend_of_lt hj).symm.trans hsecond) (h.ne_of_free hfree hj)
      · rfl
  · by_cases hother : other = address
    · rw [hother, extend_pages_self]
      exact iff_of_true (Option.some_ne_none _) ⟨count, Nat.lt_succ_self _, extend_self hroom⟩
    · rw [extend_pages_of_ne hother, h.mapped]
      constructor
      · rintro ⟨i, hi, hentry⟩
        exact ⟨i, Nat.lt_succ_of_lt hi, (extend_of_lt hi).trans hentry⟩
      · rintro ⟨i, hi, hentry⟩
        rcases hcases hi with hi | rfl
        · exact ⟨i, hi, (extend_of_lt hi).symm.trans hentry⟩
        · cases Option.some.inj ((extend_self hroom).symm.trans hentry)
          exact absurd rfl hother

/-- Places in other pages do not read the new one. -/
theorem Backed.read_extend (h : a.Backed count) (hfree : a.pages address = none)
    (hindex : index < count * perPage) :
    (a.extend count address contents).read perPage index = a.read perPage index := by
  obtain ⟨other, kept, hentry, hkept⟩ := h.page hindex
  have hne : other ≠ address := by
    intro hsame
    rw [hsame, hfree] at hkept
    cases hkept
  rw [read_of_entry hentry hkept]
  exact read_of_entry ((extend_of_lt (div_lt_count hindex)).trans hentry)
    ((extend_pages_of_ne hne).trans hkept)

theorem shrink_pages_self : (a.shrink address).pages address = none :=
  Function.update_self ..

theorem shrink_pages_of_ne {other : ℕ} (hne : other ≠ address) :
    (a.shrink address).pages other = a.pages other :=
  Function.update_of_ne hne ..

/-- The last page goes. -/
theorem Backed.shrink (h : a.Backed (count + 1)) (hentry : a.table[count]? = some (some address)) :
    (a.shrink address).Backed count := by
  have hlast := Nat.lt_succ_self count
  refine ⟨fun i hi ↦ h.entry i (Nat.lt_succ_of_lt hi), fun i j other hi hj ↦
    h.apart i j other (Nat.lt_succ_of_lt hi) (Nat.lt_succ_of_lt hj), fun other ↦ ?_⟩
  by_cases hother : other = address
  · rw [hother, shrink_pages_self]
    refine iff_of_false (fun hne ↦ hne rfl) ?_
    rintro ⟨i, hi, hsame⟩
    exact Nat.ne_of_lt hi (h.apart i count address (Nat.lt_succ_of_lt hi) hlast hsame hentry)
  · rw [shrink_pages_of_ne hother, h.mapped]
    constructor
    · rintro ⟨i, hi, hsame⟩
      rcases Nat.lt_succ_iff_lt_or_eq.mp hi with hi | rfl
      · exact ⟨i, hi, hsame⟩
      · exact absurd (Option.some.inj (Option.some.inj (hsame.symm.trans hentry))) hother
    · rintro ⟨i, hi, hsame⟩
      exact ⟨i, Nat.lt_succ_of_lt hi, hsame⟩

theorem Backed.read_shrink (h : a.Backed (count + 1))
    (hentry : a.table[count]? = some (some address)) (hindex : index < count * perPage) :
    (a.shrink address).read perPage index = a.read perPage index := by
  have hlt := div_lt_count hindex
  have hmore : index < (count + 1) * perPage :=
    Nat.lt_of_lt_of_le hindex (Nat.mul_le_mul_right perPage (Nat.le_succ count))
  obtain ⟨other, kept, hother, hkept⟩ := h.page hmore
  have hne : other ≠ address := by
    intro hsame
    rw [hsame] at hother
    exact Nat.ne_of_lt hlt
      (h.apart _ _ _ (Nat.lt_succ_of_lt hlt) (Nat.lt_succ_self _) hother hentry)
  rw [read_of_entry hother hkept]
  exact read_of_entry hother ((shrink_pages_of_ne hne).trans hkept)

end Growth

end Places

end PagedArray

end FGDB.Foundation
