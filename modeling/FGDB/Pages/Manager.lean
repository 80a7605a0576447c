import FGDB.Pages.Arena

/-!
# Values in pages

A value goes into the first page that has as many free bytes as the value, or
into a new page. The free bytes are compared as an unsigned 16-bit number, and
the two bytes of the size that is stored with the value are not counted. A page
that is in the snapshot file only is brought into the arena when one of its
values is asked for or removed.
-/

namespace FGDB.Pages

open Foundation HashMap
open FGDB.Vector (BoundedList Growth)

/-- `(uint16_t) (PAGE_SIZE - header->offset_bytes)`. -/
def PageHeader.freeBytes (header : PageHeader) : ℕ :=
  wrap16 (2 ^ 16 + pageSize - header.offsetBytes)

/-- The test for a page worth defragmenting. The difference becomes unsigned when it is divided by
the number of keys, which may be zero. -/
def PageHeader.fragmentated (header : PageHeader) (valueSize : ℕ) : Outcome Bool :=
  let total := header.keys.contents.length
  if total = 0 then .error .divisionByZero
  else .ok (valueSize ≤ wrap64 (2 ^ 64 + pageSize - header.fragmentatedBytes) / total ∧
    fragmentationFactor ≤ header.fragmentatedBytes / pageSize * total)

/-- What the search for a page finds. -/
inductive PageChoice
  | fits (index : ℕ)
  | prefered (index : ℕ)
  | noPage
  deriving DecidableEq, Repr

/-- The loop of `headers_alloc_page`. -/
def searchPage (valueSize : ℕ) : List PageHeader → ℕ → Option ℕ → Outcome PageChoice
  | [], _, prefered => .ok (prefered.elim .noPage .prefered)
  | header :: rest, index, prefered =>
    if valueSize ≤ header.freeBytes then .ok (.fits index)
    else do
      let fragmentated ← header.fragmentated valueSize
      searchPage valueSize rest (index + 1) (if fragmentated then some index else prefered)

variable (growth : Growth)

def headersNewPage (s : Storage) : Outcome (Storage × ℕ) := do
  let index := s.arena.headers.contents.length
  let (s, arenaId) ← arenaGetNextPage s
  let headers ← s.arena.headers.add growth {
    fragmentatedBytes := 0
    offsetBytes := 0
    keys := BoundedList.init growth pageHeaderKeysInitCount
    pLSN := 0
    pageId := index
    arenaId := arenaId
    state := .dirty
    location := .inMemory }
  return ({ s with
    arena := { s.arena with headers := headers }
    lru := lruTouchPage s.lru index }, index)

def headersAllocPage (s : Storage) (valueSize : ℕ) : Outcome (Storage × ℕ) := do
  match ← searchPage valueSize s.arena.headers.contents 0 none with
  | .fits index => return (s, index)
  | .noPage => headersNewPage growth s
  | .prefered index => do
    let header ← s.header index
    let s ← arenaDefragmentatePage s header.arenaId index
    let header ← s.header index
    if valueSize ≤ header.offsetBytes then return (s, index) else .error .assertionFailed

/-- `headers_push_key`, for a header that may not be in the vector of headers yet. -/
def headersPushKey (header : PageHeader) (metas : List KeyMeta) (pointer pageOffset : ℕ) :
    Outcome (PageHeader × List KeyMeta) := do
  let keys ← header.keys.add growth ⟨wrap16 pageOffset, pointer⟩
  let keyMeta ← metas[pointer]?.elim (.error .danglingPointer) .ok
  return ({ header with keys := keys },
    metas.set pointer { keyMeta with headerKeyId := wrap16 (keys.contents.length - 1) })

/-- The part of `page_value_set` that follows the choice of a page. -/
def placeValue (s : Storage) (value : Str) (pointer index : ℕ) : Outcome Storage := do
  let header ← s.header index
  let startFrom := header.offsetBytes
  let (header, metas) ←
    headersPushKey growth { header with location := .inMemory } s.metas pointer startFrom
  let s ← { s with metas := metas }.modifyMeta pointer fun keyMeta ↦
    { keyMeta with page := header.pageId }
  let arena ← s.arena.write (pageStart header.arenaId + startFrom)
    (leBytes 2 value.size ++ value.bytes)
  return { s with arena := arena }.setHeader index { header with
    offsetBytes := wrap16 (header.offsetBytes + (value.size + 2)) }

def pageValueSet (s : Storage) (value : Str) (pointer : ℕ) : Outcome (Storage × ℕ) := do
  let (s, index) ← headersAllocPage growth s value.size
  let s ← placeValue growth s value pointer index
  return (s, index)

/-- The page that is touched is the one whose header has the number of the arena page. -/
def heatPage (s : Storage) (pageId : ℕ) : Outcome (Storage × ℕ) := do
  let (s, arenaPageId) ← arenaGetNextPage s
  let s ← diskUploadPage s pageId arenaPageId
  let _ ← s.header arenaPageId
  return ({ s with lru := lruTouchPage s.lru arenaPageId }, arenaPageId)

/-- `arena->headers->items[key->page]`, brought into the arena if it is not there. -/
def warmHeader (s : Storage) (page : ℕ) : Outcome (Storage × PageHeader) := do
  let header ← s.arena.headers.contents[page]?.elim (.error .outOfBounds) .ok
  if header.location = .inDisk then do
    let (s, arenaId) ← heatPage s header.pageId
    let header := { header with arenaId := arenaId, location := .inMemory }
    return (s.setHeader page header, header)
  else return (s, header)

theorem leValue_load_lt (memory : Memory) (address : ℕ) :
    leValue (memory.load address 2) < 2 ^ 16 := by
  have hlt := leValue_lt (memory.load address 2)
  rwa [Memory.length_load] at hlt

/-- The value that starts at an address. -/
def Arena.readValue (arena : Arena) (address : ℕ) : Outcome Str :=
  if arena.Owns address (2 + leValue (arena.pages.load address 2)) then
    .ok ⟨arena.pages.load (address + 2) (leValue (arena.pages.load address 2)), by
      rw [Memory.length_load]
      exact leValue_load_lt _ _⟩
  else .error .outOfBounds

/-- The header of the page and the value; `none` is NULL. -/
def pageValueGet (s : Storage) (key : KeyMeta) : Outcome (Storage × Option (ℕ × Str)) := do
  let (s, header) ← warmHeader s key.page
  if header.location = .inMemory then
    match header.keys.contents[key.headerKeyId]? with
    | none => return (s, none)
    | some headerKey => do
      let value ← s.arena.readValue (pageStart header.arenaId + headerKey.offset)
      return (s, some (key.page, value))
  else return (s, none)

/-- The keys behind a removed one move up. -/
def recountKeys (metas : List KeyMeta) (keys : List PageHeaderKey) : Outcome (List KeyMeta) :=
  keys.foldlM (fun metas key ↦ do
    let keyMeta ← metas[key.keyMetaPtr]?.elim (.error .danglingPointer) .ok
    return metas.set key.keyMetaPtr
      { keyMeta with headerKeyId := wrap16 (keyMeta.headerKeyId + (2 ^ 16 - 1)) }) metas

def pageValueUnset (s : Storage) (key : KeyMeta) : Outcome (Storage × Option (ℕ × Str)) := do
  let (s, header) ← warmHeader s key.page
  if header.location = .inMemory then do
    let keys := header.keys.delete key.headerKeyId
    let metas ← recountKeys s.metas (keys.contents.drop key.headerKeyId)
    let deleted ← header.keys.contents[key.headerKeyId]?.elim (.error .nullPointer) .ok
    let value ← s.arena.readValue (pageStart header.arenaId + deleted.offset)
    return ({ s with metas := metas }.setHeader key.page { header with
      keys := keys
      state := .dirty
      fragmentatedBytes := wrap16 (header.fragmentatedBytes + value.size) },
        some (key.page, value))
  else return (s, none)

/-- The dirty page of one header goes to the snapshot file. -/
def snapshotHeader (s : Storage) (pageId : ℕ) : Outcome Storage := do
  let header ← s.header pageId
  if header.state = .dirty then do
    let s ← arenaDefragmentatePage s header.arenaId pageId
    let s ← diskDumpPage s header.pageId header.arenaId
    let header ← s.header pageId
    return s.setHeader pageId { header with state := .clean }
  else return s

def snapshot (s : Storage) : Outcome Storage := do
  let s ← (List.range s.arena.headers.contents.length).foldlM snapshotHeader s
  diskDumpKeys s

/-- `destroy_header`, which leaves the state as it is. -/
def destroyHeader (s : Storage) (pageId : ℕ) : Outcome Storage := do
  let header ← s.header pageId
  if header.state = .dirty then do
    let s ← arenaDefragmentatePage s header.arenaId pageId
    diskDumpPage s header.pageId header.arenaId
  else return s

def destroyHeaders (s : Storage) : Outcome Storage := do
  let s ← snapshot s
  (List.range s.arena.headers.contents.length).foldlM destroyHeader s

def updateLSN (s : Storage) (index lsn : ℕ) : Outcome Storage := do
  let header ← s.header index
  return s.setHeader index { header with pLSN := lsn }

end FGDB.Pages
