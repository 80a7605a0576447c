import FGDB.Pages.Manager
import FGDB.Wal.Log

/-!
# The operations of the database

An operation looks its key up in the hash map, logs a modification, changes the
pages and answers. The hash map is reached through its three calls, so that the
operations can also be run on a dictionary. The records that were built for the
log are kept beside it.
-/

namespace FGDB.Operations

open Foundation HashMap Pages Server Wal
open FGDB.Vector (Growth)

inductive ReplyCode
  | ok
  | error
  | fatal
  deriving DecidableEq, Repr

/-- `enum fgdb_code_t`. -/
inductive FgdbCode
  | codeOk
  | keyExists
  | keyNotFound
  | operationUnknown
  deriving DecidableEq, Repr

def FgdbCode.value : FgdbCode → ℕ
  | codeOk => 0x0
  | keyExists => 0x1
  | keyNotFound => 0x2
  | operationUnknown => 0x3

/-- `enum proto_reply_error_t`. -/
inductive ProtoReplyError
  | unknown
  | command
  | valueRequired
  deriving DecidableEq, Repr

def ProtoReplyError.value : ProtoReplyError → ℕ
  | unknown => 0x0
  | command => 0x1
  | valueRequired => 0x2

/-- `proto_reply_t`; the union is one word of four bytes, of which `cmd` is the lowest. -/
structure ProtoReply where
  code : ReplyCode
  word : ℕ
  val : Str
  deriving DecidableEq, Repr

namespace ProtoReply

def setErr (reply : ProtoReply) (err : FgdbCode) : ProtoReply := { reply with word := err.value }

def setFatal (reply : ProtoReply) (fatal : ProtoReplyError) : ProtoReply :=
  { reply with word := fatal.value }

def setCmd (reply : ProtoReply) (cmd : UInt8) : ProtoReply :=
  { reply with word := reply.word / 256 * 256 + cmd.toNat }

end ProtoReply

/-- The calls of the hash map, from keys to pointers to metas. -/
structure HashmapCalls (H : Type) where
  insertKey : H → ℕ → Str → Outcome (H × ℤ × HashmapError)
  lookupKey : H → Str → Outcome (Option ℕ × HashmapError)
  deleteKey : (ℕ → Outcome KeyMeta) → H → Str → Outcome (H × Option KeyMeta × HashmapError)

/-- The hash map of the source. -/
def hashmapCalls : HashmapCalls (VoidPtr ℕ) := ⟨hashmapInsertKey, hashmapLookupKey, hashmapDeleteKey⟩

/-- A dictionary that may refuse to take a new key. -/
def dictionaryCalls (refuses : (Str → Option ℕ) → Str → Bool) : HashmapCalls (Str → Option ℕ) where
  insertKey d pointer key :=
    if (d key).isSome then .ok (d, -1, .keyFound)
    else if refuses d key then .ok (d, -1, .internalError)
    else .ok (Function.update d key (some pointer), 0, .success)
  lookupKey d key := .ok (d key, .success)
  deleteKey metas d key :=
    match d key with
    | none => .ok (d, none, .success)
    | some pointer => do
      let keyMeta ← metas pointer
      return (Function.update d key none, some { keyMeta with weakKey := none }, .success)

/-- The global state that the operations work on. -/
structure Database (H : Type) where
  storage : Storage
  hashmap : H
  walLogger : WalLogger
  records : List LogRecord

/-- The request of a transaction has the message of the transaction. -/
def requestMsg (trans : Transaction) : Outcome Msg :=
  trans.ancestor.elim (.error .nullPointer) fun _ ↦ .ok trans.msg

section Operation

variable {H : Type} (calls : HashmapCalls H) (growth : Growth)

/-- `write_log`, every write of which transfers all that it is asked to. -/
def Database.writeLog (db : Database H) (trans : Transaction) : Outcome (Database H × ℕ) := do
  let (walLogger, lsn) ← Wal.writeLog db.walLogger trans []
  return ({ db with
    walLogger := walLogger
    records := db.records ++ (toWalRecord db.walLogger trans).2.toList }, lsn)

def operationPeek (db : Database H) (trans : Transaction) (reply : ProtoReply) :
    Outcome (Database H × Option ProtoReply) := do
  let msg ← requestMsg trans
  match ← calls.lookupKey db.hashmap msg.key with
  | (none, _) => return (db, some ({ reply with code := .error }.setErr .keyNotFound))
  | (some _, _) => return (db, some ({ reply with code := .ok }.setCmd msg.cmd))

/-- The reply for a key that is found is not returned: what the caller gets is indeterminate. -/
def operationSelect (db : Database H) (trans : Transaction) (reply : ProtoReply) :
    Outcome (Database H × Option ProtoReply) := do
  let msg ← requestMsg trans
  match ← calls.lookupKey db.hashmap msg.key with
  | (none, _) =>
    return (db, some (({ reply with code := .error }.setErr .keyNotFound).setCmd msg.cmd))
  | (some pointer, _) => do
    let keyMeta ← db.storage.loadMeta pointer
    match ← pageValueGet db.storage keyMeta with
    | (_, none) => .error .indeterminate
    | (storage, some _) => return ({ db with storage := storage }, none)

def operationDelete (db : Database H) (trans : Transaction) (reply : ProtoReply) :
    Outcome (Database H × Option ProtoReply) := do
  let msg ← requestMsg trans
  match ← calls.deleteKey db.storage.loadMeta db.hashmap msg.key with
  | (hashmap, none, _) =>
    return ({ db with hashmap := hashmap },
      some ({ reply with code := .error }.setErr .keyNotFound))
  | (hashmap, some deleted, _) => do
    let (db, lsn) ← { db with hashmap := hashmap }.writeLog trans
    match ← pageValueUnset db.storage deleted with
    | (storage, none) =>
      return ({ db with storage := storage },
        some (({ reply with code := .fatal }.setCmd msg.cmd).setFatal .unknown))
    | (storage, some (index, value)) => do
      let storage ← updateLSN storage index lsn
      return ({ db with storage := storage },
        some ({ reply with code := .ok, val := value }.setCmd msg.cmd))

def operationInsert (db : Database H) (trans : Transaction) (reply : ProtoReply) :
    Outcome (Database H × Option ProtoReply) := do
  let msg ← requestMsg trans
  if msg.val.size = 0 then
    return (db, some ({ reply with code := .fatal }.setFatal .valueRequired))
  else
    match ← calls.lookupKey db.hashmap msg.key with
    | (some _, _) => return (db, some ({ reply with code := .error }.setErr .keyExists))
    | (none, _) => do
      let (db, lsn) ← db.writeLog trans
      let (storage, pointer) := db.storage.newMeta
      let (storage, index) ← pageValueSet growth storage msg.val pointer
      let storage ← updateLSN storage index lsn
      let storage ← storage.modifyMeta pointer fun keyMeta ↦ { keyMeta with weakKey := some msg.key }
      let (hashmap, result, _) ← calls.insertKey db.hashmap pointer msg.key
      if result = -1 then do
        let keyMeta ← storage.loadMeta pointer
        let (storage, _) ← pageValueUnset storage keyMeta
        return ({ db with storage := storage, hashmap := hashmap },
          some (({ reply with code := .fatal }.setFatal .unknown).setCmd msg.cmd))
      else
        return ({ db with storage := storage, hashmap := hashmap },
          some ({ reply with code := .ok }.setCmd msg.cmd))

/-- A transaction, and the block that the allocator gives for its reply. -/
structure OperationCall where
  trans : Transaction
  reply : ProtoReply
  deriving DecidableEq, Repr

/-- The switch of the queue worker. An update destroys its request, which the worker answers
afterwards. -/
def operationStep (db : Database H) (call : OperationCall) :
    Outcome (Database H × Option ProtoReply) :=
  if call.trans.msg.cmd = Command.peek.code then operationPeek calls db call.trans call.reply
  else if call.trans.msg.cmd = Command.select.code then
    operationSelect calls db call.trans call.reply
  else if call.trans.msg.cmd = Command.insert.code then
    operationInsert calls growth db call.trans call.reply
  else if call.trans.msg.cmd = Command.delete.code then
    operationDelete calls db call.trans call.reply
  else if call.trans.msg.cmd = Command.update.code then .error .danglingPointer
  else .ok (db, some ({ call.reply with code := .error }.setErr .operationUnknown))

end Operation

end FGDB.Operations
