import FGDB.Foundation.File
import FGDB.Server.Message

/-!
# The write-ahead log

Every modification is appended to the log file as one binary record, after the
LSN in the heading of the file has been brought up to date. The record is the
concatenation of its own length, a prefix of the record's C structure, and the
two strings with their sizes. Recovery reads the heading once and then one
record after another.
-/

namespace FGDB.Wal

open Foundation Server

/-- `wal_log_record_t`. -/
structure LogRecord where
  lsn : ℕ
  key : Str
  val : Str
  operation : UInt8
  deriving DecidableEq, Repr

/-- `wal_logger_t`. -/
structure WalLogger where
  flushedLSN : ℕ
  lsn : ℕ
  file : File
  deriving DecidableEq, Repr

/-- `new_wal_logger`, with the content the log file has when it is opened. -/
def newWalLogger (content : List UInt8) (lsn flushedLSN : ℕ) : WalLogger where
  flushedLSN := flushedLSN
  lsn := lsn
  file := ⟨content, 0⟩

def giveNewLSN (w : WalLogger) : WalLogger := { w with lsn := wrap64 (w.lsn + 1) }

/-- A transaction that changes nothing has no record and takes no LSN. -/
def toWalRecord (w : WalLogger) (t : Transaction) : WalLogger × Option LogRecord :=
  if t.msg.cmd ≤ Command.select.code then (w, none)
  else
    let w := giveNewLSN w
    (w, some ⟨w.lsn, t.msg.key, t.msg.val, t.msg.cmd⟩)

def sizeofLSN : ℕ := 8
def sizeofOperation : ℕ := 1
def sizeofSize : ℕ := 2

/-- The first fields of the structure as they lie in memory: the LSN and, right behind it, the
size of the key. The operation is the last field. -/
def structPrefix (r : LogRecord) : List UInt8 := leBytes 8 r.lsn ++ leBytes 2 r.key.size

def binarySize (r : LogRecord) : ℕ :=
  8 + sizeofLSN + sizeofOperation + (sizeofSize + r.key.size) + (sizeofSize + r.val.size)

def toBinary (r : LogRecord) : List UInt8 :=
  leBytes 8 (binarySize r) ++
    ((structPrefix r).take (sizeofLSN + sizeofOperation) ++
      (leBytes 2 r.key.size ++ (r.key.bytes ++ (leBytes 2 r.val.size ++ r.val.bytes))))

def updateHeadingLSN (w : WalLogger) (lsn : ℕ) : WalLogger :=
  { w with file := ((w.file.seek 0).write (leBytes 8 lsn)).seekEnd }

/-- The loop around write: the counter is unsigned and -1 is added to it on a retry. Once the
given outcomes are used up every call transfers all it is asked to. -/
def writeLoop (bytes : List UInt8) (file : File) (written : ℕ) :
    List WriteOutcome → Outcome File
  | [] => .ok (if written < bytes.length then file.write (bytes.drop written) else file)
  | outcome :: rest =>
    if written < bytes.length then
      match outcome with
      | .wrote count =>
        let data := (bytes.drop written).take count
        writeLoop bytes (file.write data) (written + data.length) rest
      | .again => writeLoop bytes file (wrap64 (written + (2 ^ 64 - 1))) rest
      | .failed => .error .exit
    else .ok file

theorem writeLoop_complete (bytes : List UInt8) (file : File) :
    writeLoop bytes file 0 [] = .ok (file.write bytes) := by
  by_cases hbytes : bytes = []
  · simp [writeLoop, hbytes]
  · simp [writeLoop, List.length_pos_iff.mpr hbytes]

def writeLog (w : WalLogger) (t : Transaction) (outcomes : List WriteOutcome) :
    Outcome (WalLogger × ℕ) :=
  match toWalRecord w t with
  | (w, none) => .ok (w, 0)
  | (w, some r) => do
    let w := updateHeadingLSN w r.lsn
    let file ← writeLoop (toBinary r) w.file 0 outcomes
    return ({ w with file := file }, r.lsn)

/-- `get_latest_log_LSN`. The variable starts with whatever the stack holds, and the last seek is
relative to the position the read left. -/
def getLatestLogLSN (stack : List UInt8) (u : File) : File × ℕ :=
  let current := u.position
  let (u, data) := u.read sizeofLSN
  (u.seek (u.position + current), leValue ((overwrite stack data).take sizeofLSN))

/-- The part of `recover_transaction` that takes the block of a record apart. -/
def parseRecord (block : List UInt8) : Outcome Transaction := do
  let (_, p) ← takeBytes sizeofLSN block
  let (operation, p) ← takeBytes sizeofOperation p
  let (key, p) ← takeStr p
  let (val, p) ← takeStr p
  if p = [] then .ok ⟨none, UInt8.ofNat (leValue operation), key, val⟩
  else .error .assertionFailed

/-- `recover_transaction`, with the bytes that the size variable and the new block hold before
they are read into. -/
def recoverTransaction (stack : List UInt8) (heap : ℕ → UInt8) (u : File) :
    Outcome (File × Transaction) := do
  let (u, data) := u.read 8
  let size := wrap64 (leValue ((overwrite stack data).take 8) + (2 ^ 64 - 8))
  let (u, data) := u.read size
  let t ← parseRecord (overwrite ((List.range size).map heap) data)
  return (u, t)

end FGDB.Wal
