import FGDB.Foundation.PagedArray
import FGDB.Queue.Heap
import Mathlib.Order.Interval.Finset.Nat
import Mathlib.Order.Lattice.Nat

/-!
# The heap in its pages

The entries of the heap lie in pages that are mapped one by one, and a mapping table has
their addresses. An insertion into a full heap maps a page, and a longer table when the
table is full; a removal unmaps the last page when two are empty. The queue is
destroyed by removals, and then the heap unmaps its pages.
-/

namespace FGDB.Queue

open Foundation

/-- Where the system puts the pages of each call, if it maps them. -/
structure Mmap where
  place : ℕ → Finset ℕ → ℕ → Option ℕ
  free : ∀ call mapped count address, place call mapped count = some address →
    Disjoint mapped (Finset.Ico address (address + count))

/-- Pages behind all that are mapped. -/
def mmapBehind : Mmap where
  place _ mapped _ := some (mapped.sup id + 1)
  free call mapped count address hplace := by
    rw [Finset.disjoint_left]
    intro page hpage hnew
    have hle : page ≤ mapped.sup id := Finset.le_sup (f := id) hpage
    rw [Finset.mem_Ico, ← Option.some.inj hplace] at hnew
    omega

/-- The mapped pages of the process, by their numbers. -/
structure Mappings where
  calls : ℕ
  mapped : Finset ℕ
  deriving DecidableEq

/-- `PAGE_SIZE`, with room for a `heap_entry` of two pointers. -/
structure PageSize where
  bytes : ℕ
  holdsEntry : 16 ≤ bytes

/-- `ENTRIES_PER_PAGE`. -/
def PageSize.entries (size : PageSize) : ℕ := size.bytes / 16

/-- The pointers that fit the pages of a table. -/
def PageSize.pointers (size : PageSize) (mapPages : ℕ) : ℕ := mapPages * size.bytes / 8

/-- `heap` without its comparison, and what its table and its pages hold. -/
structure PagedHeap (κ υ : Type) where
  activeEntries : ℕ
  minimumPages : ℕ
  allocatedPages : ℕ
  mapPages : ℕ
  mappingTable : Option ℕ
  slots : PagedArray (HeapEntry κ υ)

variable {κ υ : Type}

section Pages

def mapInPages (system : Mmap) (memory : Mappings) (pageCount : ℕ) :
    Outcome (Option ℕ × Mappings) :=
  if pageCount = 0 then .error .assertionFailed
  else match system.place memory.calls memory.mapped pageCount with
    | none => .ok (none, ⟨memory.calls + 1, memory.mapped⟩)
    | some address => .ok (some address,
        ⟨memory.calls + 1, memory.mapped ∪ Finset.Ico address (address + pageCount)⟩)

/-- Only mapped pages are unmapped. -/
def mapOutPages (memory : Mappings) (address : Option ℕ) (pageCount : ℕ) : Outcome Mappings := do
  let address ← address.elim (.error .assertionFailed) .ok
  if pageCount = 0 then .error .assertionFailed
  else if Finset.Ico address (address + pageCount) ⊆ memory.mapped then
    return ⟨memory.calls, memory.mapped \ Finset.Ico address (address + pageCount)⟩
  else .error .danglingPointer

/-- Put a page of zeros, or NULL, into the table. -/
def mapEntry (zero : HeapEntry κ υ) (slots : PagedArray (HeapEntry κ υ)) (index : ℕ)
    (address : Option ℕ) : Outcome (PagedArray (HeapEntry κ υ)) :=
  if slots.table.length ≤ index then .error .outOfBounds
  else match address with
    | none => .ok ⟨slots.table.set index none, slots.pages⟩
    | some address => .ok (slots.extend index address fun _ ↦ zero)

/-- Pages for a number of entries. -/
def usedPages (size : PageSize) (entries : ℕ) : ℕ :=
  entries / size.entries + if 0 < entries % size.entries then 1 else 0

end Pages

section Operations

variable (system : Mmap) (size : PageSize) (zero : HeapEntry κ υ)

/-- `heap_create`. -/
def heapCreate (initialSize : ℤ) (memory : Mappings) : Outcome (PagedHeap κ υ × Mappings) := do
  let initialSize := if initialSize ≤ 0 then size.entries else initialSize.toNat
  let minimumPages := usedPages size initialSize
  let mapPages := 8 * minimumPages / size.bytes + 1
  let (table, memory) ← mapInPages system memory mapPages
  let table ← table.elim (.error .assertionFailed) .ok
  let (address, memory) ← mapInPages system memory minimumPages
  let address ← address.elim (.error .assertionFailed) .ok
  let slots ← (List.range minimumPages).foldlM
    (fun slots index ↦ mapEntry zero slots index (some (address + index)))
    ⟨List.replicate (size.pointers mapPages) none, fun _ ↦ none⟩
  return (⟨0, minimumPages, minimumPages, mapPages, some table, slots⟩, memory)

/-- `heap_insert` grows a full mapping table. The new table is not checked before the copy. -/
def growTable (h : PagedHeap κ υ) (memory : Mappings) : Outcome (PagedHeap κ υ × Mappings) :=
  if size.pointers h.mapPages < h.allocatedPages + 1 then do
    let (newTable, memory) ← mapInPages system memory (h.mapPages + 1)
    let newTable ← newTable.elim (.error .nullPointer) .ok
    let memory ← mapOutPages memory h.mappingTable h.mapPages
    let more := List.replicate (size.pointers (h.mapPages + 1) - size.pointers h.mapPages) none
    return ({ h with
      mapPages := h.mapPages + 1
      mappingTable := some newTable
      slots := h.slots.regrow more }, memory)
  else .ok (h, memory)

/-- `heap_insert` maps a page for a heap without room. The new page is not checked either. -/
def growPages (h : PagedHeap κ υ) (memory : Mappings) : Outcome (PagedHeap κ υ × Mappings) :=
  if h.allocatedPages * size.entries < h.activeEntries + 1 then do
    let (h, memory) ← growTable system size h memory
    let (address, memory) ← mapInPages system memory 1
    let slots ← mapEntry zero h.slots h.allocatedPages address
    return ({ h with allocatedPages := h.allocatedPages + 1, slots := slots }, memory)
  else .ok (h, memory)

variable (compareFunc : κ → κ → ℤ)

/-- The loop of `heap_insert` over the pages. -/
def siftUpPages (entry : HeapEntry κ υ) :
    ℕ → PagedArray (HeapEntry κ υ) → ℕ → Outcome (PagedArray (HeapEntry κ υ))
  | fuel + 1, slots, current + 1 => do
    let parent ← slots.read size.entries (parentEntry (current + 1))
    if compareFunc entry.key parent.key < 0 then do
      let slots ← slots.write size.entries (current + 1) parent
      siftUpPages entry fuel slots (parentEntry (current + 1))
    else slots.write size.entries (current + 1) entry
  | _, slots, current => slots.write size.entries current entry

/-- `heap_insert`. -/
def heapInsertPages (h : PagedHeap κ υ) (memory : Mappings) (key : κ) (value : υ) :
    Outcome (PagedHeap κ υ × Mappings) :=
  if h.mappingTable = none then .error .assertionFailed
  else do
    let (h, memory) ← growPages system size zero h memory
    let slots ← siftUpPages size compareFunc ⟨key, value⟩ h.activeEntries h.slots h.activeEntries
    return ({ h with activeEntries := h.activeEntries + 1, slots := slots }, memory)

/-- The child that the loop of `heap_delmin` compares with. -/
def smallerChildPages (entries : ℕ) (slots : PagedArray (HeapEntry κ υ)) (index : ℕ) :
    Outcome (Option (ℕ × HeapEntry κ υ)) :=
  if leftChild index < entries then do
    let left ← slots.read size.entries (leftChild index)
    if leftChild index + 1 < entries then do
      let right ← slots.read size.entries (leftChild index + 1)
      if compareFunc left.key right.key ≤ 0 then return some (leftChild index, left)
      else return some (leftChild index + 1, right)
    else return some (leftChild index, left)
  else return none

/-- The loop of `heap_delmin` over the pages. -/
def siftDownPages (entries : ℕ) :
    ℕ → PagedArray (HeapEntry κ υ) → ℕ → Outcome (PagedArray (HeapEntry κ υ))
  | 0, slots, _ => .ok slots
  | fuel + 1, slots, index => do
    let found ← smallerChildPages size compareFunc entries slots index
    match found with
    | none => return slots
    | some (child, entry) =>
      let current ← slots.read size.entries index
      if compareFunc current.key entry.key = 1 then do
        let slots ← slots.write size.entries index entry
        let slots ← slots.write size.entries child current
        siftDownPages entries fuel slots child
      else return slots

/-- The last entry goes to the root of a heap that loses its root. -/
def removeRoot (slots : PagedArray (HeapEntry κ υ)) (entries : ℕ) :
    Outcome (PagedArray (HeapEntry κ υ)) :=
  if 0 < entries then do
    let last ← slots.read size.entries entries
    let slots ← slots.write size.entries 0 last
    siftDownPages size compareFunc entries entries slots 0
  else return slots

/-- One empty page is kept, but not two. -/
def releasePage (h : PagedHeap κ υ) (memory : Mappings) : Outcome (PagedHeap κ υ × Mappings) :=
  if usedPages size h.activeEntries + 1 < h.allocatedPages ∧
      h.minimumPages < h.allocatedPages then do
    let entry ← h.slots.table[h.allocatedPages - 1]?.elim (.error .outOfBounds) .ok
    let memory ← mapOutPages memory entry 1
    return ({ h with
      allocatedPages := h.allocatedPages - 1
      slots := entry.elim h.slots h.slots.shrink }, memory)
  else return (h, memory)

/-- `heap_delmin`. -/
def heapDelminPages (h : PagedHeap κ υ) (memory : Mappings) :
    Outcome (Option (HeapEntry κ υ) × PagedHeap κ υ × Mappings) :=
  if h.activeEntries = 0 then .ok (none, h, memory)
  else do
    let root ← h.slots.read size.entries 0
    let slots ← removeRoot size compareFunc h.slots (h.activeEntries - 1)
    let released ← releasePage size { h with activeEntries := h.activeEntries - 1, slots := slots }
      memory
    return (some root, released)

/-- `heap_min`. -/
def heapMinPages (h : PagedHeap κ υ) : Outcome (Option (HeapEntry κ υ)) :=
  if h.activeEntries = 0 then .ok none
  else do
    let root ← h.slots.read size.entries 0
    return some root

/-- What `heap_foreach` passes to the function of the caller. -/
def heapForeachPages (h : PagedHeap κ υ) : Outcome (List (HeapEntry κ υ)) :=
  (List.range h.activeEntries).mapM (h.slots.read size.entries)

/-- One round of the loop of `heap_destroy`. -/
def unmapEntry (h : PagedHeap κ υ) (memory : Mappings) (index : ℕ) : Outcome Mappings := do
  let entry ← h.slots.table[index]?.elim (.error .outOfBounds) .ok
  mapOutPages memory entry 1

/-- `heap_destroy`. -/
def heapDestroy (h : PagedHeap κ υ) (memory : Mappings) : Outcome (PagedHeap κ υ × Mappings) :=
  if h.mappingTable = none then .error .assertionFailed
  else do
    let memory ← (List.range h.allocatedPages).foldlM (unmapEntry h) memory
    let memory ← mapOutPages memory h.mappingTable h.mapPages
    return (⟨0, h.minimumPages, 0, 0, none, ⟨[], fun _ ↦ none⟩⟩, memory)

/-- The loop of `destroy_queue`. -/
def drainHeap : ℕ → PagedHeap κ υ × Mappings →
    Outcome (List (HeapEntry κ υ) × PagedHeap κ υ × Mappings)
  | 0, _ => .error .nontermination
  | fuel + 1, state => do
    let (found, state) ← heapDelminPages size compareFunc state.1 state.2
    match found with
    | none => return ([], state)
    | some entry =>
      let (rest, state) ← drainHeap fuel state
      return (entry :: rest, state)

/-- `destroy_queue`: the entries whose transactions it destroys, in this order, and the heap. -/
def destroyQueue (state : PagedHeap κ υ × Mappings) :
    Outcome (List (HeapEntry κ υ) × PagedHeap κ υ × Mappings) := do
  let (freed, state) ← drainHeap size compareFunc (state.1.activeEntries + 1) state
  let state ← heapDestroy state.1 state.2
  return (freed, state)

end Operations

/-- The functions of a heap, but for its creation and its destruction. -/
inductive HeapCall (κ υ : Type)
  | insert (key : κ) (value : υ)
  | delmin
  | min
  | size
  | foreach
  deriving DecidableEq, Repr

inductive HeapAnswer (κ υ : Type)
  | inserted
  | removed (found : Option (HeapEntry κ υ))
  | least (found : Option (HeapEntry κ υ))
  | size (entries : ℕ)
  | entries (all : List (HeapEntry κ υ))
  deriving DecidableEq, Repr

section Calls

variable (system : Mmap) (size : PageSize) (zero : HeapEntry κ υ) (compareFunc : κ → κ → ℤ)

def pagedStep (state : PagedHeap κ υ × Mappings) :
    HeapCall κ υ → Outcome ((PagedHeap κ υ × Mappings) × HeapAnswer κ υ)
  | .insert key value => do
    let state ← heapInsertPages system size zero compareFunc state.1 state.2 key value
    return (state, .inserted)
  | .delmin => do
    let (found, state) ← heapDelminPages size compareFunc state.1 state.2
    return (state, .removed found)
  | .min => do
    let found ← heapMinPages size state.1
    return (state, .least found)
  | .size => return (state, .size state.1.activeEntries)
  | .foreach => do
    let all ← heapForeachPages size state.1
    return (state, .entries all)

/-- The heap as the array of its entries. -/
def entriesStep (entries : List (HeapEntry κ υ)) :
    HeapCall κ υ → List (HeapEntry κ υ) × HeapAnswer κ υ
  | .insert key value => (heapInsert compareFunc entries key value, .inserted)
  | .delmin =>
    match heapDelmin compareFunc entries with
    | none => (entries, .removed none)
    | some (root, rest) => (rest, .removed (some root))
  | .min => (entries, .least entries.head?)
  | .size => (entries, .size entries.length)
  | .foreach => (entries, .entries entries)

end Calls

end FGDB.Queue
