import FGDB.Operations.Answers
import FGDB.Operations.Replay

/-!
# The hash map under the operations

An operation over a hash map that stands for a dictionary does what it does over the
dictionary: the pages, the log and the reply are the same, and the hash maps afterwards
stand for the dictionaries afterwards.
-/

namespace FGDB.Operations

open Foundation HashMap Pages Server Wal
open FGDB.Vector (Growth)

/-- The same store with another map. -/
def Database.onMap {H M : Type} (db : Database H) (map : M) : Database M where
  storage := db.storage
  hashmap := map
  walLogger := db.walLogger
  records := db.records

section Refines

variable {H : Type} {calls : HashmapCalls H} {growth : Growth}
  {stands : (Str → Option ℕ) → H → Prop} {insertSafe deleteSafe : Str → H → Prop}
  {db : Database H} {d : Str → Option ℕ} {trans : Transaction} {reply : ProtoReply}

/-- What the operation does over the dictionary it does over the hash map. -/
def Refines (stands : (Str → Option ℕ) → H → Prop)
    (outcome : Outcome (Database H × Option ProtoReply))
    (expected : Outcome (Database (Str → Option ℕ) × Option ProtoReply)) : Prop :=
  ∀ db' result, expected = .ok (db', result) → ∃ hashmap,
    outcome = .ok (db'.onMap hashmap, result) ∧ stands db'.hashmap hashmap

/-- The stores differ in their maps only. -/
theorem refines_of_stands {hashmap : H} (hstands : stands d hashmap) {storage : Storage}
    {walLogger : WalLogger} {records : List LogRecord} {result : Option ProtoReply} :
    Refines stands (.ok (⟨storage, hashmap, walLogger, records⟩, result))
      (.ok (⟨storage, d, walLogger, records⟩, result)) := by
  intro db' result' h
  obtain ⟨rfl, rfl⟩ := Prod.mk.inj (Except.ok.inj h)
  exact ⟨hashmap, rfl, hstands⟩

theorem refines_error {outcome : Outcome (Database H × Option ProtoReply)} {fault : Fault} :
    Refines stands outcome (.error fault) := by
  intro db' result h
  cases h

theorem operationPeek_refines (hlawful : LawfulCalls calls stands insertSafe deleteSafe)
    (hstands : stands d db.hashmap) : Refines stands (operationPeek calls db trans reply)
      (operationPeek correctCalls (db.onMap d) trans reply) := by
  unfold operationPeek
  cases requestMsg trans with
  | error fault => exact refines_error
  | ok msg =>
    have hlookup : correctCalls.lookupKey (db.onMap d).hashmap msg.key = .ok (d msg.key, .success) := rfl
    simp only [ok_bind, hlawful.lookup hstands, hlookup]
    cases d msg.key with
    | none => exact refines_of_stands hstands
    | some pointer => exact refines_of_stands hstands

theorem operationSelect_refines (hlawful : LawfulCalls calls stands insertSafe deleteSafe)
    (hstands : stands d db.hashmap) : Refines stands (operationSelect calls db trans reply)
      (operationSelect correctCalls (db.onMap d) trans reply) := by
  unfold operationSelect
  cases requestMsg trans with
  | error fault => exact refines_error
  | ok msg =>
    have hlookup : correctCalls.lookupKey (db.onMap d).hashmap msg.key = .ok (d msg.key, .success) := rfl
    simp only [ok_bind, hlawful.lookup hstands, hlookup]
    cases d msg.key with
    | none => exact refines_of_stands hstands
    | some pointer =>
      simp only [show (db.onMap d).storage = db.storage from rfl]
      cases db.storage.loadMeta pointer with
      | error fault => exact refines_error
      | ok keyMeta =>
        simp only [ok_bind]
        cases pageValueGet db.storage keyMeta with
        | error fault => exact refines_error
        | ok found =>
          obtain ⟨storage, value⟩ := found
          cases value with
          | none => exact refines_error
          | some value => exact refines_of_stands hstands

theorem operationDelete_refines (hlawful : LawfulCalls calls stands insertSafe deleteSafe)
    (hstands : stands d db.hashmap)
    (hsafe : ∀ pointer, d trans.msg.key = some pointer → deleteSafe trans.msg.key db.hashmap) :
    Refines stands (operationDelete calls db trans reply)
      (operationDelete correctCalls (db.onMap d) trans reply) := by
  unfold operationDelete
  cases hmsg : requestMsg trans with
  | error fault => exact refines_error
  | ok msg =>
    obtain rfl := requestMsg_eq_ok hmsg
    simp only [ok_bind]
    cases hkey : d trans.msg.key with
    | none =>
      have hdelete : correctCalls.deleteKey (db.onMap d).storage.loadMeta (db.onMap d).hashmap
          trans.msg.key = .ok (d, none, .success) := by
        simp only [dictionaryCalls, Database.onMap, hkey]
      simp only [hlawful.deleteAbsent hstands hkey, hdelete, ok_bind]
      exact refines_of_stands hstands
    | some pointer =>
      cases hload : db.storage.loadMeta pointer with
      | error fault =>
        have hdelete : correctCalls.deleteKey (db.onMap d).storage.loadMeta (db.onMap d).hashmap
            trans.msg.key = .error fault := by
          simp only [dictionaryCalls, Database.onMap, hkey, hload, error_bind]
        simp only [hdelete, error_bind]
        exact refines_error
      | ok keyMeta =>
        have hdelete : correctCalls.deleteKey (db.onMap d).storage.loadMeta (db.onMap d).hashmap
            trans.msg.key = .ok (Function.update d trans.msg.key none,
              some { keyMeta with weakKey := none }, .success) := by
          simp only [dictionaryCalls, Database.onMap, hkey, hload, ok_bind, pure_eq_ok]
        obtain ⟨hashmap, hdelete', hstands'⟩ :=
          hlawful.deletePresent hstands hkey (hsafe pointer hkey) db.storage.loadMeta keyMeta hload
        simp only [hdelete, hdelete', ok_bind]
        simp only [Database.writeLog, Database.onMap]
        cases Wal.writeLog db.walLogger trans [] with
        | error fault => exact refines_error
        | ok logged =>
          simp only [ok_bind, pure_eq_ok]
          cases pageValueUnset db.storage { keyMeta with weakKey := none } with
          | error fault => exact refines_error
          | ok found =>
            obtain ⟨storage, value⟩ := found
            cases value with
            | none => exact refines_of_stands hstands'
            | some value =>
              simp only [ok_bind]
              cases updateLSN storage value.1 logged.2 with
              | error fault => exact refines_error
              | ok storage => exact refines_of_stands hstands'

/-- A dictionary takes a new key. -/
theorem correctCalls_insert (d : Str → Option ℕ) {key : Str} (hkey : d key = none) (pointer : ℕ) :
    correctCalls.insertKey d pointer key =
      .ok (Function.update d key (some pointer), 0, .success) := by
  simp [dictionaryCalls, hkey]

theorem operationInsert_refines (hlawful : LawfulCalls calls stands insertSafe deleteSafe)
    (hstands : stands d db.hashmap) (hsafe : trans.msg.val.size ≠ 0 → d trans.msg.key = none →
      insertSafe trans.msg.key db.hashmap) :
    Refines stands (operationInsert calls growth db trans reply)
      (operationInsert correctCalls growth (db.onMap d) trans reply) := by
  unfold operationInsert
  cases hmsg : requestMsg trans with
  | error fault => exact refines_error
  | ok msg =>
    obtain rfl := requestMsg_eq_ok hmsg
    simp only [ok_bind]
    by_cases hvalue : trans.msg.val.size = 0
    · simp only [if_pos hvalue]
      exact refines_of_stands hstands
    · have hlookup : correctCalls.lookupKey (db.onMap d).hashmap trans.msg.key =
          .ok (d trans.msg.key, .success) := rfl
      simp only [if_neg hvalue, hlawful.lookup hstands, hlookup, ok_bind]
      cases hkey : d trans.msg.key with
      | some pointer => exact refines_of_stands hstands
      | none =>
        obtain ⟨hashmap, hinsert, hstands'⟩ :=
          hlawful.insert hstands hkey (hsafe hvalue hkey) db.storage.newMeta.2
        have hinsert' := correctCalls_insert d hkey db.storage.newMeta.2
        simp only [Database.writeLog, Database.onMap]
        cases Wal.writeLog db.walLogger trans [] with
        | error fault => exact refines_error
        | ok logged =>
          simp only [ok_bind, pure_eq_ok]
          cases pageValueSet growth db.storage.newMeta.1 trans.msg.val db.storage.newMeta.2 with
          | error fault => exact refines_error
          | ok placed =>
            simp only [ok_bind]
            cases updateLSN placed.1 placed.2 logged.2 with
            | error fault => exact refines_error
            | ok stamped =>
              simp only [ok_bind]
              cases stamped.modifyMeta db.storage.newMeta.2
                  fun keyMeta ↦ { keyMeta with weakKey := some trans.msg.key } with
              | error fault => exact refines_error
              | ok named =>
                simp only [ok_bind, hinsert, hinsert']
                exact refines_of_stands hstands'

/-- The operations over the hash map refine those over a dictionary. -/
theorem operationStep_refines (hlawful : LawfulCalls calls stands insertSafe deleteSafe)
    (hstands : stands d db.hashmap) {call : OperationCall}
    (hinsert : call.trans.msg.cmd = Command.insert.code → call.trans.msg.val.size ≠ 0 →
      d call.trans.msg.key = none → insertSafe call.trans.msg.key db.hashmap)
    (hdelete : call.trans.msg.cmd = Command.delete.code →
      ∀ pointer, d call.trans.msg.key = some pointer → deleteSafe call.trans.msg.key db.hashmap) :
    Refines stands (operationStep calls growth db call)
      (operationStep correctCalls growth (db.onMap d) call) := by
  unfold operationStep
  split
  · exact operationPeek_refines hlawful hstands
  · split
    · exact operationSelect_refines hlawful hstands
    · split
      · rename_i hcmd
        exact operationInsert_refines hlawful hstands (hinsert hcmd)
      · split
        · rename_i hcmd
          exact operationDelete_refines hlawful hstands (hdelete hcmd)
        · split
          · exact refines_error
          · exact refines_of_stands hstands

end Refines

end FGDB.Operations
