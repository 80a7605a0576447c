import FGDB.Foundation.Bytes

/-!
# Byte memory

A memory gives every address a byte. A load is the list of the bytes of a range,
and a store changes exactly the range that its bytes cover. Which addresses a
program may touch is the business of its own model.
-/

namespace FGDB.Foundation

abbrev Memory := ℕ → UInt8

namespace Memory

def load (memory : Memory) (address count : ℕ) : List UInt8 :=
  (List.range count).map fun index ↦ memory (address + index)

/-- `memcpy` of the given bytes. -/
def store (memory : Memory) (address : ℕ) (data : List UInt8) : Memory := fun place ↦
  if address ≤ place then data[place - address]?.getD (memory place) else memory place

variable (memory : Memory) (address count : ℕ) (data : List UInt8)

@[simp] theorem length_load : (load memory address count).length = count := by
  simp [load]

@[simp] theorem load_zero : load memory address 0 = [] := rfl

@[simp] theorem store_nil : store memory address [] = memory := by
  funext place
  simp [store]

@[simp] theorem getElem_load {index : ℕ} (h : index < (load memory address count).length) :
    (load memory address count)[index] = memory (address + index) := by
  simp [load]

theorem load_add (more : ℕ) : load memory address (count + more) =
    load memory address count ++ load memory (address + count) more := by
  simp [load, List.range_add, add_assoc]

theorem take_load {more : ℕ} (h : more ≤ count) :
    (load memory address count).take more = load memory address more := by
  obtain ⟨rest, rfl⟩ := Nat.exists_eq_add_of_le h
  rw [load_add, List.take_left' (length_load ..)]

theorem drop_load {less : ℕ} (h : less ≤ count) :
    (load memory address count).drop less = load memory (address + less) (count - less) := by
  obtain ⟨rest, rfl⟩ := Nat.exists_eq_add_of_le h
  rw [load_add, List.drop_left' (length_load ..), Nat.add_sub_cancel_left]

theorem load_congr {memory memory' : Memory} {address address' count : ℕ}
    (h : ∀ index, index < count → memory (address + index) = memory' (address' + index)) :
    load memory address count = load memory' address' count := by
  apply List.map_congr_left
  intro index hindex
  exact h index (List.mem_range.mp hindex)

theorem store_of_lt {place : ℕ} (h : place < address) :
    store memory address data place = memory place := by
  rw [store, if_neg (by omega)]

theorem store_of_le {place : ℕ} (h : address + data.length ≤ place) :
    store memory address data place = memory place := by
  rw [store, if_pos (by omega), List.getElem?_eq_none (by omega), Option.getD_none]

theorem store_inside {index : ℕ} (h : index < data.length) :
    store memory address data (address + index) = data[index] := by
  rw [store, if_pos (by omega), Nat.add_sub_cancel_left, List.getElem?_eq_getElem h,
    Option.getD_some]

@[simp] theorem load_store : load (store memory address data) address data.length = data := by
  apply List.ext_getElem (by simp)
  intro index hload hdata
  rw [getElem_load, store_inside _ _ _ hdata]

theorem load_store_of_length {count : ℕ} (h : data.length = count) :
    load (store memory address data) address count = data := by
  rw [← h, load_store]

/-- A store leaves every range that it does not meet as it was. -/
theorem load_store_of_disjoint {place : ℕ}
    (h : place + count ≤ address ∨ address + data.length ≤ place) :
    load (store memory address data) place count = load memory place count := by
  apply load_congr
  intro index hindex
  rcases h with h | h
  · exact store_of_lt _ _ _ (by omega)
  · exact store_of_le _ _ _ (by omega)

/-- `memmove`. -/
def move (memory : Memory) (target source count : ℕ) : Memory :=
  store memory target (load memory source count)

/-- `memset`. -/
def fill (memory : Memory) (address count : ℕ) (byte : UInt8) : Memory :=
  store memory address (List.replicate count byte)

/-- The memory seen from a base address on. -/
def window (memory : Memory) (base : ℕ) : Memory := fun place ↦ memory (base + place)

theorem load_window (base : ℕ) :
    load (window memory base) address count = load memory (base + address) count := by
  simp [load, window, add_assoc]

theorem window_store (base : ℕ) :
    window (store memory (base + address) data) base = store (window memory base) address data := by
  funext place
  have hsub : base + place - (base + address) = place - address := by omega
  simp only [window, store, Nat.add_le_add_iff_left, hsub]

/-- Two memories have the same bytes below a bound. -/
def AgreeBelow (limit : ℕ) (memory memory' : Memory) : Prop :=
  ∀ place, place < limit → memory place = memory' place

variable {memory} {limit : ℕ}

theorem AgreeBelow.refl : AgreeBelow limit memory memory := fun _ _ ↦ rfl

theorem AgreeBelow.symm {memory' : Memory} (h : AgreeBelow limit memory memory') :
    AgreeBelow limit memory' memory := fun place hplace ↦ (h place hplace).symm

theorem AgreeBelow.trans {memory' memory'' : Memory} (h : AgreeBelow limit memory memory')
    (h' : AgreeBelow limit memory' memory'') : AgreeBelow limit memory memory'' :=
  fun place hplace ↦ (h place hplace).trans (h' place hplace)

theorem AgreeBelow.mono {memory' : Memory} (h : AgreeBelow limit memory memory') {less : ℕ}
    (hle : less ≤ limit) : AgreeBelow less memory memory' :=
  fun place hplace ↦ h place (lt_of_lt_of_le hplace hle)

theorem AgreeBelow.load_eq {memory' : Memory} (h : AgreeBelow limit memory memory')
    {address count : ℕ} (hle : address + count ≤ limit) :
    load memory address count = load memory' address count :=
  load_congr fun index hindex ↦ h _ (by omega)

theorem agreeBelow_store {address : ℕ} (data : List UInt8) (h : limit ≤ address) :
    AgreeBelow limit (store memory address data) memory :=
  fun _ hplace ↦ store_of_lt _ _ _ (lt_of_lt_of_le hplace h)

end Memory

end FGDB.Foundation
