import FGDB.Pages.Meta

/-!
# The snapshot files

The pages of the snapshot lie one after another behind an LSN. The key file
starts with a count and lists, header after header, the bytes in use of the page
and its keys with their offsets. Reads and writes transfer all that they can.
-/

namespace FGDB.Pages

open Foundation HashMap
open FGDB.Vector (BoundedList Growth)

def initDisk (vfd kfd : List UInt8) : Disk where
  pages := if vfd = [] then 0 else (vfd.length - arenaStart) / pageSize
  nkeys := leValue (overwrite (List.replicate 8 0) (kfd.take keysStart))
  keysDumped := 0
  lsn := leValue (overwrite (List.replicate 8 0) (vfd.take arenaStart))
  vfd := ⟨vfd, arenaStart⟩
  kfd := ⟨kfd, keysStart⟩

/-- The contents that the two files are left with. -/
def destroyDisk (disk : Disk) : List UInt8 × List UInt8 :=
  (((disk.vfd.seek 0).write (leBytes 8 disk.lsn)).content,
    ((disk.kfd.seek 0).write (leBytes 8 disk.keysDumped)).content)

/-- The place of a page in the snapshot file. -/
def pagePos (pageIdx : ℕ) : ℕ := arenaStart + pageIdx * pageSize

/-- A read at the end of the file delivers nothing, however often it is tried. -/
def diskUploadPage (s : Storage) (diskPageIdx arenaIdx : ℕ) : Outcome Storage := do
  let (vfd, data) := (s.disk.vfd.seek (pagePos diskPageIdx)).read pageSize
  let arena ← s.arena.write (pageStart arenaIdx) data
  if data.length < pageSize then .error .nontermination
  else return { s with arena := arena, disk := { s.disk with vfd := vfd } }

def diskDumpPage (s : Storage) (pageIdx arenaIdx : ℕ) : Outcome Storage := do
  let header ← s.header pageIdx
  let page ← s.arena.read (pageStart arenaIdx) pageSize
  return { s with disk := { s.disk with
    lsn := max s.disk.lsn header.pLSN
    vfd := (s.disk.vfd.seek (pagePos pageIdx)).write page } }

/-- What is written for one key: the length of the rest, the page, the offset and the key. -/
def keyRecord (page offset : ℕ) (key : Str) : List UInt8 :=
  leBytes 8 (8 + 2 + 2 + key.size) ++
    (leBytes 8 page ++ (leBytes 2 offset ++ (leBytes 2 key.size ++ key.bytes)))

/-- The key file while it is written, the bytes written so far and the count of dumped keys. -/
structure KeyDump where
  kfd : File
  bytes : ℕ
  keysDumped : ℕ

def KeyDump.write (d : KeyDump) (data : List UInt8) : KeyDump :=
  { d with kfd := d.kfd.write data, bytes := d.bytes + data.length }

def dumpKey (metas : List KeyMeta) (d : KeyDump) (key : PageHeaderKey) : Outcome KeyDump := do
  let keyMeta ← metas[key.keyMetaPtr]?.elim (.error .danglingPointer) .ok
  let weakKey ← keyMeta.weakKey.elim (.error .nullPointer) .ok
  let d := d.write (keyRecord keyMeta.page key.offset weakKey)
  return { d with keysDumped := wrap64 (d.keysDumped + 1) }

def dumpHeader (metas : List KeyMeta) (d : KeyDump) (header : PageHeader) : Outcome KeyDump :=
  header.keys.contents.foldlM (dumpKey metas)
    ((d.write (leBytes 2 header.offsetBytes)).write
      (leBytes 2 (wrap16 header.keys.contents.length)))

def diskDumpKeys (s : Storage) : Outcome Storage := do
  let d ← s.arena.headers.contents.foldlM (dumpHeader s.metas)
    ⟨s.disk.kfd.seek keysStart, keysStart, s.disk.keysDumped⟩
  return { s with disk := { s.disk with kfd := d.kfd.truncate d.bytes, keysDumped := d.keysDumped } }

/-- The bytes in use and the number of keys of the next page; `none` is the end of the file. The
count is read into a variable without a value. -/
def diskUploadHeader (kfd : File) : Outcome (File × Option (ℕ × ℕ)) :=
  let (kfd, offset) := kfd.read 2
  if offset = [] then .ok (kfd, none)
  else
    let (kfd, total) := kfd.read 2
    if total.length < 2 then .error .indeterminate
    else .ok (kfd, some (leValue (overwrite [0, 0] offset), leValue total))

/-- `hashmap_key_t`. -/
structure HashmapKey where
  key : Str
  offset : ℕ
  pageId : ℕ
  deriving DecidableEq, Repr

def diskUploadKey (kfd : File) : Outcome (File × Option HashmapKey) := do
  let (kfd, length) := kfd.read 8
  if length = [] then return (kfd, none)
  else if length.length < 8 then .error .indeterminate
  else
    let (kfd, buffer) := kfd.read (leValue length)
    if buffer.length < leValue length then .error .indeterminate
    else do
      let (pageId, p) ← takeBytes 8 buffer
      let (offset, p) ← takeBytes 2 p
      let (key, _) ← takeStr p
      return (kfd, some ⟨key, leValue offset, leValue pageId⟩)

end FGDB.Pages
