import FGDB.Pages.Disk
import FGDB.Pages.Lru

/-!
# The pages of the arena

A page of the arena is handed out once; when all are, the page of the least
recent header is dumped and handed out again. Defragmentation moves the values
of a page down over the bytes that removed values left.
-/

namespace FGDB.Pages

open Foundation HashMap
open FGDB.Vector (BoundedList Growth)

/-- The memory is what the allocator had there. -/
def newArena (growth : Growth) (pages : ℕ) (memory : Memory) (headers : ℕ) : Arena where
  allocatedPages := pages
  uploadedPages := 0
  headers := BoundedList.init growth headers
  pages := memory

def Storage.states (s : Storage) (index : ℕ) : Option PageState :=
  s.arena.headers.contents[index]?.map PageHeader.state

def arenaGetNextPage (s : Storage) : Outcome (Storage × ℕ) :=
  if s.arena.uploadedPages < s.arena.allocatedPages then
    .ok ({ s with arena := { s.arena with uploadedPages := s.arena.uploadedPages + 1 } },
      s.arena.uploadedPages)
  else do
    let (lru, lr) ← leastRecentPage s.states s.lru s.arena.headers.contents.length
    let header ← s.header lr
    let s ← diskDumpPage { s with lru := lru } header.pageId header.arenaId
    return (s, header.arenaId)

/-- The loop of `arena_defragmentate_page`: the size of a value is read where the value was, once
before it is moved and once after. -/
def defragmentateFrom (start : ℕ) : List PageHeaderKey → ℕ → ℕ → Arena × BoundedList PageHeaderKey →
    Outcome ((Arena × BoundedList PageHeaderKey) × ℕ)
  | [], _, offset, page => .ok (page, offset)
  | key :: rest, blockId, offset, (arena, keys) => do
    let size := leValue (← arena.read (start + key.offset) 2)
    let value ← arena.read (start + key.offset) (2 + size)
    let arena ← arena.write (start + offset) value
    let size := leValue (← arena.read (start + key.offset) 2)
    defragmentateFrom start rest (blockId + 1) (offset + (2 + size))
      (arena, keys.set blockId { key with offset := wrap16 offset })

/-- The count of the last `memset` is unsigned: behind the end of a page it is not small. -/
def arenaDefragmentatePage (s : Storage) (pageId index : ℕ) : Outcome Storage := do
  let header ← s.header index
  let start := pageStart pageId
  let ((arena, keys), offset) ←
    defragmentateFrom start header.keys.contents 0 0 (s.arena, header.keys)
  if pageSize < wrap16 offset then .error .outOfBounds
  else
    let arena ← arena.write (start + offset) (List.replicate (pageSize - wrap16 offset) 0)
    return { s with arena := arena }.setHeader index { header with
      keys := keys
      fragmentatedBytes := 0
      offsetBytes := wrap16 offset
      state := .dirty }

end FGDB.Pages
