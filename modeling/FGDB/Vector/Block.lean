import FGDB.Foundation.Run
import Mathlib.Tactic.Ring

/-!
# The pointer vector

A vector owns a block of slots and counts the ones in use. The block keeps every
slot the allocator handed out, so a write past it is a fault and not a silent
extension. The sizes the code computes for a block are a parameter: `source`
gives the expressions of the code, and results that hold for any way of growing
say so. On a vector whose appends find room the operations are those of a list.
-/

namespace FGDB.Vector

open Foundation

/-- The capacities the code asks for: of a new block, and of one that is full. -/
structure Growth where
  initial : ℕ → ℕ
  grow : ℕ → ℕ

def vectorInitCapacity : ℕ := 4

/-- A logical expression of the source has the value 0 or 1. -/
def logicalValue (condition : Prop) [Decidable condition] : ℕ := if condition then 1 else 0

/-- `capacity > 0 || VECTOR_INIT_CAPACITY`, and `capacity * 1.5` cut to an integer. -/
def Growth.source : Growth where
  initial capacity := logicalValue (0 < capacity ∨ vectorInitCapacity ≠ 0)
  grow capacity := capacity * 3 / 2

@[simp] theorem source_initial (capacity : ℕ) : Growth.source.initial capacity = 1 := by
  simp [Growth.source, logicalValue, vectorInitCapacity]

@[simp] theorem source_grow_one : Growth.source.grow 1 = 1 := by decide

/-- A slot is `none` while it holds NULL or has never been written. -/
structure Block (α : Type) where
  items : List (Option α)
  capacity : ℕ
  total : ℕ
  deriving DecidableEq, Repr

variable {α : Type}

def loadSlot (items : List (Option α)) (index : ℕ) : Outcome (Option α) :=
  match items[index]? with
  | some slot => .ok slot
  | none => .error .outOfBounds

def storeSlot (items : List (Option α)) (index : ℕ) (slot : Option α) :
    Outcome (List (Option α)) :=
  if index < items.length then .ok (items.set index slot) else .error .outOfBounds

def vectorInit (growth : Growth) (capacity : ℕ) : Block α where
  items := List.replicate (growth.initial capacity) none
  capacity := growth.initial capacity
  total := 0

def vectorResize (v : Block α) (capacity : ℕ) : Block α :=
  { v with
    items := v.items.take capacity ++ List.replicate (capacity - v.items.length) none
    capacity := capacity }

def vectorAdd (growth : Growth) (v : Block α) (item : α) : Outcome (Block α) := do
  let v := if v.capacity = v.total then vectorResize v (growth.grow v.capacity) else v
  let items ← storeSlot v.items v.total (some item)
  return { v with items := items, total := v.total + 1 }

def vectorSet (v : Block α) (index : ℕ) (item : α) : Outcome (Block α) :=
  if index < v.total then do
    let items ← storeSlot v.items index (some item)
    return { v with items := items }
  else .ok v

def vectorGet (v : Block α) (index : ℕ) : Outcome (Option α) :=
  if index < v.total then loadSlot v.items index else .ok none

/-- `items[i] = items[i + 1]`, for `count` consecutive slots from `index` on. -/
def shiftDown (items : List (Option α)) (index : ℕ) : ℕ → Outcome (List (Option α))
  | 0 => .ok items
  | count + 1 => do
    let next ← loadSlot items (index + 1)
    let items ← storeSlot items index next
    shiftDown items (index + 1) count

def vectorDelete (v : Block α) (index : ℕ) : Outcome (Block α) :=
  if v.total ≤ index then .ok v
  else do
    let items ← storeSlot v.items index none
    let items ← shiftDown items index (v.total - 1 - index)
    let items ← storeSlot items (v.total - 1) none
    let v := { v with items := items, total := v.total - 1 }
    return if 0 < v.total ∧ v.total = v.capacity / 4 then vectorResize v (v.capacity / 2) else v

/-- The block holds the list: its first slots are the items, and no more are in use than the
block has. -/
structure Block.Holds (v : Block α) (contents : List α) : Prop where
  length_items : v.items.length = v.capacity
  total_eq : v.total = contents.length
  total_le : v.total ≤ v.capacity
  slots : v.items.take v.total = contents.map some

theorem Block.Holds.items_eq {v : Block α} {contents : List α} (h : v.Holds contents) :
    v.items = contents.map some ++ v.items.drop v.total := by
  rw [← h.slots, List.take_append_drop]

theorem Block.holds_of_items {v : Block α} {contents : List α} (rest : List (Option α))
    (hitems : v.items = contents.map some ++ rest) (hlength : v.items.length = v.capacity)
    (htotal : v.total = contents.length) : v.Holds contents where
  length_items := hlength
  total_eq := htotal
  total_le := by
    rw [← hlength, hitems, htotal]
    simp
  slots := by
    rw [hitems, htotal]
    exact List.take_left' (by simp)

theorem vectorInit_holds (growth : Growth) (capacity : ℕ) :
    (vectorInit growth capacity : Block α).Holds [] :=
  Block.holds_of_items (List.replicate (growth.initial capacity) none)
    rfl (by simp [vectorInit]) rfl

theorem vectorResize_holds {v : Block α} {contents : List α} (h : v.Holds contents)
    {capacity : ℕ} (hle : contents.length ≤ capacity) : (vectorResize v capacity).Holds contents := by
  refine Block.holds_of_items ((v.items.drop v.total).take (capacity - contents.length) ++
      List.replicate (capacity - v.items.length) none) ?_ ?_ h.total_eq
  · have htake : v.items.take capacity = contents.map some ++
        (v.items.drop v.total).take (capacity - contents.length) := by
      conv_lhs => rw [h.items_eq]
      rw [List.take_append, List.take_of_length_le (by simpa using hle)]
      simp
    simp only [vectorResize, htake, List.append_assoc]
  · simp only [vectorResize, List.length_append, List.length_take, List.length_replicate]
    omega

/-- An append finds a slot when the block is not full, or grows past the items it holds. -/
def Growth.Room (growth : Growth) (used capacity : ℕ) : Prop :=
  used < capacity ∨ used < growth.grow capacity

instance (growth : Growth) (used capacity : ℕ) : Decidable (growth.Room used capacity) :=
  inferInstanceAs (Decidable (_ ∨ _))

/-- The capacity after an append. -/
def Growth.next (growth : Growth) (used capacity : ℕ) : ℕ :=
  if capacity = used then growth.grow capacity else capacity

theorem storeSlot_append (front back : List (Option α)) (old slot : Option α) :
    storeSlot (front ++ old :: back) front.length slot = .ok (front ++ slot :: back) := by
  simp [storeSlot]

theorem vectorAdd_of_room (growth : Growth) {v : Block α} {contents : List α}
    (h : v.Holds contents) (hroom : growth.Room contents.length v.capacity) (item : α) :
    ∃ v', vectorAdd growth v item = .ok v' ∧ v'.Holds (contents ++ [item]) ∧
      v'.capacity = growth.next contents.length v.capacity := by
  have hgrown : ∃ w : Block α, w = (if v.capacity = v.total then
        vectorResize v (growth.grow v.capacity) else v) ∧ w.Holds contents ∧
        contents.length < w.capacity ∧ w.capacity = growth.next contents.length v.capacity := by
    have htotal := h.total_eq
    have hle := h.total_le
    by_cases hfull : v.capacity = v.total
    · have hlt : contents.length < growth.grow v.capacity := by
        rcases hroom with hlt | hlt <;> omega
      refine ⟨_, rfl, ?_⟩
      rw [if_pos hfull]
      exact ⟨vectorResize_holds h hlt.le, hlt, by
        rw [Growth.next, if_pos (hfull.trans htotal)]; rfl⟩
    · refine ⟨_, rfl, ?_⟩
      rw [if_neg hfull]
      exact ⟨h, by omega, by rw [Growth.next, if_neg (by omega)]⟩
  obtain ⟨w, hw, hholds, hlt, hcapacity⟩ := hgrown
  obtain ⟨old, back, hback⟩ : ∃ old back, w.items.drop w.total = old :: back := by
    refine List.exists_cons_of_ne_nil fun hnil ↦ ?_
    have := List.drop_eq_nil_iff.mp hnil
    have := hholds.length_items
    have := hholds.total_eq
    omega
  have hitems := hholds.items_eq
  rw [hback] at hitems
  have hstore : storeSlot w.items w.total (some item) =
      .ok (contents.map some ++ some item :: back) := by
    rw [hitems, hholds.total_eq, ← List.length_map (f := some)]
    exact storeSlot_append _ _ _ _
  refine ⟨{ w with items := contents.map some ++ some item :: back, total := w.total + 1 },
    ?_, ?_, hcapacity⟩
  · simp only [vectorAdd, ← hw, hstore, ok_bind, pure_eq_ok]
  · refine Block.holds_of_items (back) (by simp) ?_ (by simp [hholds.total_eq])
    have hlength := hholds.length_items
    rw [hitems] at hlength
    simpa using hlength

theorem vectorAdd_of_not_room {growth : Growth} {v : Block α} {contents : List α}
    (h : v.Holds contents) (hroom : ¬ growth.Room contents.length v.capacity) (item : α) :
    vectorAdd growth v item = .error .outOfBounds := by
  simp only [Growth.Room, not_or, not_lt] at hroom
  have hfull : v.capacity = v.total := by
    have := h.total_eq
    have := h.total_le
    omega
  have hstore : storeSlot (vectorResize v (growth.grow v.capacity)).items v.total (some item) =
      .error .outOfBounds := by
    have hlength : (vectorResize v (growth.grow v.capacity)).items.length =
        growth.grow v.capacity := by
      simp only [vectorResize, List.length_append, List.length_take, List.length_replicate]
      omega
    rw [storeSlot, if_neg (by rw [hlength, h.total_eq]; omega)]
  have htotal : (vectorResize v (growth.grow v.capacity)).total = v.total := rfl
  simp only [vectorAdd, if_pos hfull, htotal, hstore, error_bind]

theorem vectorGet_eq {v : Block α} {contents : List α} (h : v.Holds contents) (index : ℕ) :
    vectorGet v index = .ok contents[index]? := by
  unfold vectorGet
  by_cases hindex : index < v.total
  · have hlt : index < contents.length := by
      have := h.total_eq
      omega
    have hslot : v.items[index]? = some (some contents[index]) := by
      rw [h.items_eq, List.getElem?_append_left (by simpa using hlt)]
      simp [hlt]
    simp [hindex, loadSlot, hslot, hlt]
  · have hge : contents.length ≤ index := by
      have := h.total_eq
      omega
    simp [hindex, hge]

theorem vectorSet_holds {v : Block α} {contents : List α} (h : v.Holds contents) (index : ℕ)
    (item : α) : ∃ v', vectorSet v index item = .ok v' ∧ v'.Holds (contents.set index item) ∧
      v'.capacity = v.capacity := by
  have htotal := h.total_eq
  unfold vectorSet
  by_cases hindex : index < v.total
  · have hbound : index < v.items.length := by
      have := h.length_items
      have := h.total_le
      omega
    refine ⟨{ v with items := v.items.set index (some item) }, ?_, ?_, rfl⟩
    · simp [hindex, storeSlot, hbound]
    · refine Block.holds_of_items (v.items.drop v.total) ?_ ?_ (by simp [htotal])
      · simp only
        conv_lhs => rw [h.items_eq]
        rw [List.set_append_left _ _ (by simpa using htotal ▸ hindex), List.map_set]
      · simpa using h.length_items
  · refine ⟨v, by simp [hindex], ?_, rfl⟩
    rwa [List.set_eq_of_length_le (by omega)]

/-- The hole at the front of the shifted slots ends up behind them. -/
theorem shiftDown_eq (front middle back : List (Option α)) (hole : Option α) :
    ∃ last, shiftDown (front ++ hole :: (middle ++ back)) front.length middle.length =
      .ok (front ++ middle ++ last :: back) := by
  induction middle generalizing front hole with
  | nil => exact ⟨hole, by simp [shiftDown]⟩
  | cons next middle ih =>
    obtain ⟨last, hlast⟩ := ih (front ++ [next]) next
    refine ⟨last, ?_⟩
    have hload : loadSlot (front ++ hole :: (next :: middle ++ back)) (front.length + 1) =
        .ok next := by
      simp [loadSlot]
    simp only [List.length_cons, shiftDown, hload, ok_bind, storeSlot_append]
    simpa using hlast

/-- The three loops of a deletion leave the remaining items in order and NULL behind them. -/
theorem deleteSlots_eq (front back : List α) (item : α) (rest : List (Option α)) :
    (do
      let items ← storeSlot (front.map some ++ some item :: (back.map some ++ rest)) front.length none
      let items ← shiftDown items front.length back.length
      storeSlot items (front.length + back.length) none) =
      .ok (front.map some ++ back.map some ++ none :: rest) := by
  have hfirst : storeSlot (front.map some ++ some item :: (back.map some ++ rest)) front.length
      none = .ok (front.map some ++ none :: (back.map some ++ rest)) := by
    simpa using storeSlot_append (front.map some) (back.map some ++ rest) (some item) none
  obtain ⟨last, hlast⟩ := shiftDown_eq (front.map some) (back.map some) rest (none : Option α)
  simp only [List.length_map] at hlast
  have hnull : storeSlot (front.map some ++ back.map some ++ last :: rest)
      (front.length + back.length) none = .ok (front.map some ++ back.map some ++ none :: rest) := by
    simpa using storeSlot_append (front.map some ++ back.map some) rest last none
  simp only [hfirst, ok_bind, hlast, hnull]

theorem vectorDelete_of_ge {v : Block α} {contents : List α} (h : v.Holds contents) {index : ℕ}
    (hindex : contents.length ≤ index) : vectorDelete v index = .ok v := by
  rw [vectorDelete, if_pos (h.total_eq ▸ hindex)]

theorem vectorDelete_append {v : Block α} {front back : List α} {item : α}
    (h : v.Holds (front ++ item :: back)) :
    ∃ v', vectorDelete v front.length = .ok v' ∧ v'.Holds (front ++ back) ∧
      v'.capacity = if 0 < (front ++ back).length ∧ (front ++ back).length = v.capacity / 4 then
        v.capacity / 2 else v.capacity := by
  have htotal : v.total = front.length + (back.length + 1) := by
    simpa using h.total_eq
  have hitems := h.items_eq
  generalize v.items.drop v.total = rest at hitems
  simp only [List.map_append, List.map_cons, List.append_assoc, List.cons_append] at hitems
  have hslots := deleteSlots_eq front back item rest
  rw [← hitems] at hslots
  let shorter : Block α :=
    { v with items := front.map some ++ back.map some ++ none :: rest, total := v.total - 1 }
  have hshorter : shorter.Holds (front ++ back) := by
    refine Block.holds_of_items (none :: rest) (by simp [shorter]) ?_
      (by simp [shorter, htotal])
    have hold := h.length_items
    rw [hitems] at hold
    simpa [shorter, add_assoc] using hold
  refine ⟨if 0 < shorter.total ∧ shorter.total = v.capacity / 4 then
    vectorResize shorter (v.capacity / 2) else shorter, ?_, ?_, ?_⟩
  · have hcount : v.total - 1 - front.length = back.length := by omega
    have hlast : v.total - 1 = front.length + back.length := by omega
    have hbound : ¬ v.total ≤ front.length := by omega
    rw [vectorDelete, if_neg hbound, hcount, hlast]
    obtain ⟨first, hfirst, second, hsecond, hthird⟩ :=
      (by simpa only [bind_eq_ok] using hslots : ∃ first, _ ∧ ∃ second, _ ∧ _)
    simp only [hfirst, ok_bind, hsecond, hthird, pure_eq_ok, shorter, hlast]
  · split
    · rename_i hshrink
      refine vectorResize_holds hshorter ?_
      have := hshorter.total_eq
      omega
    · exact hshorter
  · rw [← hshorter.total_eq]
    split <;> rfl

theorem vectorDelete_holds {v : Block α} {contents : List α} (h : v.Holds contents) (index : ℕ) :
    ∃ v', vectorDelete v index = .ok v' ∧ v'.Holds (contents.eraseIdx index) ∧
      v'.capacity = if index < contents.length ∧ 0 < (contents.eraseIdx index).length ∧
        (contents.eraseIdx index).length = v.capacity / 4 then v.capacity / 2 else v.capacity := by
  by_cases hindex : contents.length ≤ index
  · refine ⟨v, vectorDelete_of_ge h hindex, ?_, by rw [if_neg (by omega)]⟩
    rwa [List.eraseIdx_of_length_le hindex]
  have hlt : index < contents.length := by omega
  have hsplit : contents = contents.take index ++ contents[index] :: contents.drop (index + 1) := by
    simp
  have hlength : (contents.take index).length = index := by simpa using hlt.le
  obtain ⟨v', hdelete, hholds, hcapacity⟩ := vectorDelete_append (hsplit ▸ h)
  rw [hlength] at hdelete
  rw [← List.eraseIdx_eq_take_drop_succ] at hholds hcapacity
  refine ⟨v', hdelete, hholds, ?_⟩
  rw [hcapacity]
  simp only [hlt, true_and]

end FGDB.Vector
