import FGDB.Vector.Block

/-!
# Runs of vector calls

The reference machine is a list. With the capacities of the code a vector has one
slot for ever: growing it by half rounds down to the same single slot. A run is
therefore a run of the list exactly when every append finds the vector empty.
The bounded list keeps the items and the capacity only; the page store is built
on it, and it takes the same steps and the same faults as the block.
-/

namespace FGDB.Vector

open Foundation

inductive VectorCall (α : Type)
  | add (item : α)
  | set (index : ℕ) (item : α)
  | get (index : ℕ)
  | delete (index : ℕ)
  deriving DecidableEq, Repr

variable {α : Type}

def vectorStep (growth : Growth) (v : Block α) : VectorCall α → Outcome (Block α × Option α)
  | .add item => do return (← vectorAdd growth v item, none)
  | .set index item => do return (← vectorSet v index item, none)
  | .get index => do return (v, ← vectorGet v index)
  | .delete index => do return (← vectorDelete v index, none)

def listStep (contents : List α) : VectorCall α → List α × Option α
  | .add item => (contents ++ [item], none)
  | .set index item => (contents.set index item, none)
  | .get index => (contents, contents[index]?)
  | .delete index => (contents.eraseIdx index, none)

/-- An append is made to an empty vector only. -/
def AddsToEmpty (v : Block α) (call : VectorCall α) : Prop :=
  ∀ item, call = .add item → v.total = 0

/-- What every reached state has to show: no slot in use past the block, and the list's items. -/
def MatchesList (growth : Growth) (capacity : ℕ) (calls : List (VectorCall α)) : Prop :=
  ∃ v, run (vectorStep growth) (vectorInit growth capacity) calls =
      .ok (v, (runSpec listStep [] calls).2) ∧
    v.total ≤ v.capacity ∧ v.items.length = v.capacity ∧
    v.items.take v.total = (runSpec listStep [] calls).1.map some

/-- One call on a block with a single slot, as the code's capacities leave it. -/
theorem vectorStep_source {v : Block α} {contents : List α} (h : v.Holds contents)
    (hcapacity : v.capacity = 1) {call : VectorCall α} (hok : AddsToEmpty v call) :
    ∃ v', vectorStep .source v call = .ok (v', (listStep contents call).2) ∧
      v'.Holds (listStep contents call).1 ∧ v'.capacity = 1 := by
  cases call with
  | add item =>
    have hempty : contents.length = 0 := h.total_eq ▸ hok item rfl
    obtain ⟨v', hadd, hholds, hnext⟩ := vectorAdd_of_room .source h
      (.inl (by omega)) item
    refine ⟨v', by simp [vectorStep, hadd, listStep], hholds, ?_⟩
    rw [hnext, Growth.next, if_neg (by omega), hcapacity]
  | set index item =>
    obtain ⟨v', hset, hholds, hsame⟩ := vectorSet_holds h index item
    exact ⟨v', by simp [vectorStep, hset, listStep], hholds, hsame.trans hcapacity⟩
  | get index =>
    exact ⟨v, by simp [vectorStep, vectorGet_eq h, listStep], h, hcapacity⟩
  | delete index =>
    obtain ⟨v', hdelete, hholds, hshrink⟩ := vectorDelete_holds h index
    refine ⟨v', by simp [vectorStep, hdelete, listStep], hholds, ?_⟩
    rw [hshrink, hcapacity, if_neg (by omega)]

/-- A second item in the single slot is written past the block. -/
theorem vectorStep_source_fault {v : Block α} {contents : List α} (h : v.Holds contents)
    (hcapacity : v.capacity = 1) {call : VectorCall α} (hbad : ¬ AddsToEmpty v call) :
    vectorStep .source v call = .error .outOfBounds := by
  simp only [AddsToEmpty, not_forall] at hbad
  obtain ⟨item, rfl, hused⟩ := hbad
  have htotal := h.total_eq
  have hroom : ¬ Growth.source.Room contents.length v.capacity := by
    simp only [Growth.Room, hcapacity, source_grow_one]
    omega
  simp only [vectorStep, vectorAdd_of_not_room h hroom, error_bind]

theorem run_source_iff {v : Block α} {contents : List α} (h : v.Holds contents)
    (hcapacity : v.capacity = 1) (calls : List (VectorCall α)) :
    (∃ v', run (vectorStep .source) v calls = .ok (v', (runSpec listStep contents calls).2) ∧
      v'.Holds (runSpec listStep contents calls).1) ↔
    EachStep (vectorStep .source) AddsToEmpty v calls := by
  induction calls generalizing v contents with
  | nil => exact ⟨fun _ ↦ trivial, fun _ ↦ ⟨v, rfl, h⟩⟩
  | cons call rest ih =>
    by_cases hok : AddsToEmpty v call
    · obtain ⟨next, hstep, hholds, hnext⟩ := vectorStep_source h hcapacity hok
      have hrest := ih hholds hnext
      constructor
      · rintro ⟨v', hrun, hfinal⟩
        refine ⟨hok, fun other output hother ↦ ?_⟩
        obtain ⟨rfl, rfl⟩ : next = other ∧ (listStep contents call).2 = output := by
          simpa [hstep] using hother
        refine hrest.mp ⟨v', ?_, hfinal⟩
        obtain ⟨next', output, tail, hstep', htail, hcons⟩ := run_cons_eq_ok.mp hrun
        obtain ⟨rfl, rfl⟩ : next = next' ∧ (listStep contents call).2 = output := by
          simpa [hstep] using hstep'
        simp only [runSpec, List.cons.injEq, true_and] at hcons
        rw [htail, hcons]
      · rintro ⟨-, hlater⟩
        obtain ⟨v', hrun, hfinal⟩ := hrest.mpr (hlater next _ hstep)
        refine ⟨v', ?_, hfinal⟩
        rw [run_cons_of_step hstep, hrun]
        rfl
    · refine iff_of_false ?_ fun hall ↦ hok hall.1
      rintro ⟨v', hrun, -⟩
      rw [run_cons_of_fault (vectorStep_source_fault h hcapacity hok)] at hrun
      cases hrun

theorem matchesList_of_holds {growth : Growth} {capacity : ℕ} {calls : List (VectorCall α)}
    {v : Block α} (hrun : run (vectorStep growth) (vectorInit growth capacity) calls =
      .ok (v, (runSpec listStep [] calls).2)) (h : v.Holds (runSpec listStep [] calls).1) :
    MatchesList growth capacity calls :=
  ⟨v, hrun, h.total_le, h.length_items, h.slots⟩

theorem MatchesList.holds {growth : Growth} {capacity : ℕ} {calls : List (VectorCall α)}
    (h : MatchesList growth capacity calls) :
    ∃ v, run (vectorStep growth) (vectorInit growth capacity) calls =
      .ok (v, (runSpec listStep [] calls).2) ∧ v.Holds (runSpec listStep [] calls).1 := by
  obtain ⟨v, hrun, hle, hlength, hslots⟩ := h
  refine ⟨v, hrun, hlength, ?_, hle, hslots⟩
  have := congrArg List.length hslots
  simp only [List.length_take, List.length_map] at this
  omega

/-- Every state a run of calls reaches matches the list exactly when the run appends to an
empty vector only. -/
theorem vector_matches_list_iff (capacity : ℕ) (calls : List (VectorCall α)) :
    (∀ done, done <+: calls → MatchesList .source capacity done) ↔
      EachStep (vectorStep .source) AddsToEmpty (vectorInit .source capacity) calls := by
  have hinit := vectorInit_holds (α := α) .source capacity
  have hone : (vectorInit .source capacity : Block α).capacity = 1 := source_initial capacity
  constructor
  · intro hall
    exact (run_source_iff hinit hone calls).mp (hall calls (List.prefix_refl calls)).holds
  · rintro hsteps done ⟨rest, rfl⟩
    obtain ⟨v, hrun, hholds⟩ := (run_source_iff hinit hone done).mpr hsteps.take
    exact matchesList_of_holds hrun hholds

/-- Two appends to a new vector write past its block, whatever capacity was asked for. -/
theorem vector_two_adds_overflow :
    ¬ ∀ done, done <+: [VectorCall.add 1, .add 2] → MatchesList (α := ℕ) .source 1024 done := by
  intro hall
  obtain ⟨v, hrun, -⟩ := hall _ (List.prefix_refl _)
  have hfault : run (vectorStep .source) (vectorInit .source 1024 : Block ℕ)
      [VectorCall.add 1, .add 2] = .error .outOfBounds := by decide
  rw [hfault] at hrun
  cases hrun

/-- The items of a vector and the capacity of its block. -/
structure BoundedList (α : Type) where
  contents : List α
  capacity : ℕ
  fits : contents.length ≤ capacity

namespace BoundedList

def init (growth : Growth) (capacity : ℕ) : BoundedList α where
  contents := []
  capacity := growth.initial capacity
  fits := Nat.zero_le _

theorem next_fits {growth : Growth} {used capacity : ℕ} (hfits : used ≤ capacity)
    (hroom : growth.Room used capacity) : used + 1 ≤ growth.next used capacity := by
  simp only [Growth.Room] at hroom
  simp only [Growth.next]
  split <;> omega

def add (growth : Growth) (v : BoundedList α) (item : α) : Outcome (BoundedList α) :=
  if hroom : growth.Room v.contents.length v.capacity then
    .ok ⟨v.contents ++ [item], growth.next v.contents.length v.capacity, by
      simpa using next_fits v.fits hroom⟩
  else .error .outOfBounds

def set (v : BoundedList α) (index : ℕ) (item : α) : BoundedList α where
  contents := v.contents.set index item
  capacity := v.capacity
  fits := by simpa using v.fits

def delete (v : BoundedList α) (index : ℕ) : BoundedList α where
  contents := v.contents.eraseIdx index
  capacity := if index < v.contents.length ∧ 0 < (v.contents.eraseIdx index).length ∧
    (v.contents.eraseIdx index).length = v.capacity / 4 then v.capacity / 2 else v.capacity
  fits := by
    have := v.fits
    have := List.length_eraseIdx_le v.contents index
    split <;> omega

/-- The block holds the items and has the capacity. -/
def Abstracts (v : BoundedList α) (block : Block α) : Prop :=
  block.Holds v.contents ∧ block.capacity = v.capacity

theorem init_abstracts (growth : Growth) (capacity : ℕ) :
    (init growth capacity : BoundedList α).Abstracts (vectorInit growth capacity) :=
  ⟨vectorInit_holds growth capacity, rfl⟩

/-- An append to the bounded list succeeds exactly when the append to its block does. -/
theorem add_abstracts {growth : Growth} {v : BoundedList α} {block : Block α}
    (h : v.Abstracts block) (item : α) :
    (∃ v' block', v.add growth item = .ok v' ∧ vectorAdd growth block item = .ok block' ∧
      v'.Abstracts block') ∨
    (v.add growth item = .error .outOfBounds ∧
      vectorAdd growth block item = .error .outOfBounds) := by
  unfold add
  by_cases hroom : growth.Room v.contents.length v.capacity
  · obtain ⟨block', hadd, hholds, hcapacity⟩ := vectorAdd_of_room growth h.1 (h.2 ▸ hroom) item
    refine .inl ⟨_, block', dif_pos hroom, hadd, hholds, ?_⟩
    rw [hcapacity, h.2]
  · exact .inr ⟨dif_neg hroom, vectorAdd_of_not_room h.1 (h.2 ▸ hroom) item⟩

theorem set_abstracts {v : BoundedList α} {block : Block α} (h : v.Abstracts block) (index : ℕ)
    (item : α) : ∃ block', vectorSet block index item = .ok block' ∧
      (v.set index item).Abstracts block' := by
  obtain ⟨block', hset, hholds, hcapacity⟩ := vectorSet_holds h.1 index item
  exact ⟨block', hset, hholds, hcapacity.trans h.2⟩

theorem delete_abstracts {v : BoundedList α} {block : Block α} (h : v.Abstracts block)
    (index : ℕ) : ∃ block', vectorDelete block index = .ok block' ∧
      (v.delete index).Abstracts block' := by
  obtain ⟨block', hdelete, hholds, hcapacity⟩ := vectorDelete_holds h.1 index
  refine ⟨block', hdelete, hholds, ?_⟩
  rw [hcapacity, h.2]
  rfl

theorem get_abstracts {v : BoundedList α} {block : Block α} (h : v.Abstracts block) (index : ℕ) :
    vectorGet block index = .ok v.contents[index]? :=
  vectorGet_eq h.1 index

theorem add_eq_ok {growth : Growth} {v v' : BoundedList α} {item : α} :
    v.add growth item = .ok v' ↔ growth.Room v.contents.length v.capacity ∧
      v'.contents = v.contents ++ [item] ∧
      v'.capacity = growth.next v.contents.length v.capacity := by
  unfold add
  split
  · rename_i hroom
    constructor
    · intro h
      obtain rfl := Except.ok.inj h
      exact ⟨hroom, rfl, rfl⟩
    · rintro ⟨-, hcontents, hcapacity⟩
      cases v'
      simp_all
  · rename_i hroom
    exact ⟨fun h ↦ (nomatch h), fun h ↦ absurd h.1 hroom⟩

end BoundedList

end FGDB.Vector
