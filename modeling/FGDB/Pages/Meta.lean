import FGDB.Foundation.File
import FGDB.Foundation.Memory
import FGDB.HashMap.Table
import FGDB.Vector.Runs

/-!
# Pages, their headers and the structures around them

The arena is a row of pages in memory. A header describes a page of the
database, which lies in a page of the arena or in the snapshot file, and lists
the keys whose values it holds. Pointers to headers are their indices in the
vector of headers, and pointers to metas are indices in the list of the metas
ever allocated: neither is freed while the database runs. The links of the queue
are kept with the queue.
-/

namespace FGDB.Pages

open Foundation HashMap
open FGDB.Vector (BoundedList Growth)

/-- `PAGE_SIZE`. -/
def pageSize : ℕ := 4096

/-- `page_header_key_t`. -/
structure PageHeaderKey where
  offset : ℕ
  keyMetaPtr : ℕ
  deriving DecidableEq, Repr

def pageHeaderKeysInitCount : ℕ := 4

/-- `FGDB_FRAGMENTATION_FACTOR`. -/
def fragmentationFactor : ℕ := 4

inductive PageState
  | dirty
  | clean
  | processing
  deriving DecidableEq, Repr

inductive PageLocation
  | free
  | inMemory
  | inDisk
  deriving DecidableEq, Repr

/-- `page_header_t`. -/
structure PageHeader where
  fragmentatedBytes : ℕ
  offsetBytes : ℕ
  keys : BoundedList PageHeaderKey
  pLSN : ℕ
  pageId : ℕ
  arenaId : ℕ
  state : PageState
  location : PageLocation

/-- `arena_t`. -/
structure Arena where
  allocatedPages : ℕ
  uploadedPages : ℕ
  headers : BoundedList PageHeader
  pages : Memory

/-- `lru_queue_t`, with the links that the headers have in it. -/
structure LruQueue where
  top : Option ℕ
  bottom : Option ℕ
  next : ℕ → Option ℕ
  prev : ℕ → Option ℕ

/-- `disk_t`; the two descriptors are the files behind them. -/
structure Disk where
  pages : ℕ
  nkeys : ℕ
  keysDumped : ℕ
  lsn : ℕ
  vfd : File
  kfd : File

/-- `sizeof(disk->lsn)`. -/
def arenaStart : ℕ := 8

/-- `sizeof(disk->nkeys)`. -/
def keysStart : ℕ := 8

/-- The global structures of the storage, and the metas. -/
structure Storage where
  arena : Arena
  lru : LruQueue
  disk : Disk
  metas : List KeyMeta

/-- The arena as bytes: where its page begins. -/
def pageStart (arenaId : ℕ) : ℕ := arenaId * pageSize

namespace Arena

/-- A range of the memory that the arena has. -/
def Owns (arena : Arena) (address count : ℕ) : Prop :=
  address + count ≤ pageStart arena.allocatedPages

instance (arena : Arena) (address count : ℕ) : Decidable (arena.Owns address count) :=
  inferInstanceAs (Decidable (_ ≤ _))

def read (arena : Arena) (address count : ℕ) : Outcome (List UInt8) :=
  if arena.Owns address count then .ok (arena.pages.load address count) else .error .outOfBounds

def write (arena : Arena) (address : ℕ) (data : List UInt8) : Outcome Arena :=
  if arena.Owns address data.length then .ok { arena with pages := arena.pages.store address data }
  else .error .outOfBounds

end Arena

namespace Storage

/-- A header through `VECTOR_GET`, which is NULL behind the last one. -/
def header (s : Storage) (index : ℕ) : Outcome PageHeader :=
  s.arena.headers.contents[index]?.elim (.error .nullPointer) .ok

def setHeader (s : Storage) (index : ℕ) (header : PageHeader) : Storage :=
  { s with arena := { s.arena with headers := s.arena.headers.set index header } }

def loadMeta (s : Storage) (pointer : ℕ) : Outcome KeyMeta :=
  s.metas[pointer]?.elim (.error .danglingPointer) .ok

def modifyMeta (s : Storage) (pointer : ℕ) (change : KeyMeta → KeyMeta) : Outcome Storage := do
  let keyMeta ← s.loadMeta pointer
  return { s with metas := s.metas.set pointer (change keyMeta) }

/-- `calloc` of a meta. -/
def newMeta (s : Storage) : Storage × ℕ :=
  ({ s with metas := s.metas ++ [⟨none, 0, 0⟩] }, s.metas.length)

end Storage

end FGDB.Pages
