import FGDB.HashMap.Sequence
import FGDB.Operations.Steps
import FGDB.Pages.Access
import FGDB.Pages.Clean
import FGDB.Pages.Placement

/-!
# The answers of the store

A store serves a finite map when its hash map stands for a dictionary of metas and the
pages hold the values of these metas. As long as every value that is put fits into the
page that the search takes, the operations keep the store serving the map, and their
replies are those of the map, apart from a SELECT of a key that is there.
-/

namespace FGDB.Operations

open Foundation HashMap Pages Server Wal
open FGDB.Vector (Growth)

/-- What a reply says. -/
inductive Answer
  | ok (cmd : UInt8) (val : Option Str)
  | error (err : FgdbCode)
  | fatal (fatal : ProtoReplyError)
  deriving DecidableEq, Repr

/-- The four operations on a finite map. -/
def mapStep (d : Str → Option Str) (call : OperationCall) : (Str → Option Str) × Answer :=
  if call.trans.msg.cmd = Command.insert.code then
    if call.trans.msg.val.size = 0 then (d, .fatal .valueRequired)
    else
      match d call.trans.msg.key with
      | some _ => (d, .error .keyExists)
      | none => (Function.update d call.trans.msg.key (some call.trans.msg.val),
        .ok call.trans.msg.cmd none)
  else
    match d call.trans.msg.key with
    | none => (d, .error .keyNotFound)
    | some val =>
      if call.trans.msg.cmd = Command.delete.code then
        (Function.update d call.trans.msg.key none, .ok call.trans.msg.cmd (some val))
      else if call.trans.msg.cmd = Command.select.code then (d, .ok call.trans.msg.cmd (some val))
      else (d, .ok call.trans.msg.cmd none)

/-- The members of the union are read as the code tells. -/
def Says (reply : ProtoReply) : Answer → Prop
  | .ok cmd val => reply.code = .ok ∧ reply.word % 256 = cmd.toNat ∧ ∀ v, val = some v → reply.val = v
  | .error err => reply.code = .error ∧ reply.word = err.value
  | .fatal fatal => reply.code = .fatal ∧ reply.word = fatal.value

def Answers (result : Option ProtoReply) (answer : Answer) : Prop :=
  ∃ reply, result = some reply ∧ Says reply answer

/-- A transaction of a request with one of the four commands. -/
structure IsRequest (call : OperationCall) : Prop where
  ancestor : call.trans.ancestor ≠ none
  cmd : call.trans.msg.cmd = Command.peek.code ∨ call.trans.msg.cmd = Command.select.code ∨
    call.trans.msg.cmd = Command.insert.code ∨ call.trans.msg.cmd = Command.delete.code

/-- The calls of a hash map that stands for a dictionary, as long as they are safe. -/
structure LawfulCalls {H : Type} (calls : HashmapCalls H) (stands : (Str → Option ℕ) → H → Prop)
    (insertSafe deleteSafe : Str → H → Prop) : Prop where
  lookup : ∀ {d h}, stands d h → ∀ key, calls.lookupKey h key = .ok (d key, .success)
  insert : ∀ {d h key}, stands d h → d key = none → insertSafe key h → ∀ pointer, ∃ h',
    calls.insertKey h pointer key = .ok (h', 0, .success) ∧
      stands (Function.update d key (some pointer)) h'
  deleteAbsent : ∀ {d h key}, stands d h → d key = none → ∀ metas,
    calls.deleteKey metas h key = .ok (h, none, .success)
  deletePresent : ∀ {d h key pointer}, stands d h → d key = some pointer → deleteSafe key h →
    ∀ metas keyMeta, metas pointer = .ok keyMeta → ∃ h', calls.deleteKey metas h key =
      .ok (h', some { keyMeta with weakKey := none }, .success) ∧
        stands (Function.update d key none) h'

theorem hashmapCalls_lawful : LawfulCalls hashmapCalls MapHolds InsertSafe DeleteSafe where
  lookup h key := hashmapLookupKey_holds h key
  insert h habsent hsafe pointer := hashmapInsertKey_absent h habsent hsafe pointer
  deleteAbsent h habsent metas := hashmapDeleteKey_absent h habsent metas
  deletePresent h hpresent hsafe metas _ hmeta :=
    hashmapDeleteKey_present h hpresent hsafe metas hmeta

/-- The metas of the keys have the values of the map. -/
structure Bound (s : Storage) (pointers : Str → Option ℕ) (d : Str → Option Str) : Prop where
  absent : ∀ key, pointers key = none → d key = none
  stored : ∀ key pointer, pointers key = some pointer →
    ∃ value, d key = some value ∧ s.Stores pointer value.bytes
  distinct : ∀ key key' pointer, pointers key = some pointer → pointers key' = some pointer →
    key = key'

structure Serves {H : Type} (stands : (Str → Option ℕ) → H → Prop) (db : Database H)
    (d : Str → Option Str) : Prop where
  valid : db.storage.Valid
  index : ∃ pointers, stands pointers db.hashmap ∧ Bound db.storage pointers d

section Bound

variable {s s' : Storage} {pointers : Str → Option ℕ} {d : Str → Option Str} {key : Str}

theorem Bound.same (h : Bound s pointers d) (hstores : ∀ q w, s'.Stores q w ↔ s.Stores q w) :
    Bound s' pointers d where
  absent := h.absent
  stored key pointer hpointer := by
    obtain ⟨value, hvalue, hold⟩ := h.stored key pointer hpointer
    exact ⟨value, hvalue, (hstores _ _).mpr hold⟩
  distinct := h.distinct

theorem Bound.put (h : Bound s pointers d) (hs : s.Valid) {value : Str}
    (hstores : ∀ q w, s'.Stores q w ↔ s.Stores q w ∨ q = s.metas.length ∧ w = value.bytes) :
    Bound s' (Function.update pointers key (some s.metas.length))
      (Function.update d key (some value)) := by
  have hold (other : Str) : pointers other ≠ some s.metas.length := by
    intro hother
    obtain ⟨old, -, hstored⟩ := h.stored other _ hother
    obtain ⟨keyMeta, -, -, hmeta, -⟩ := hs.find hstored
    exact absurd (List.getElem?_eq_some_iff.mp hmeta).1 (lt_irrefl _)
  refine ⟨fun other hother ↦ ?_, fun other pointer hother ↦ ?_, fun first second pointer hfirst hsecond ↦ ?_⟩
  · by_cases hkey : other = key
    · rw [hkey, Function.update_self] at hother
      cases hother
    · rw [Function.update_of_ne hkey] at hother ⊢
      exact h.absent other hother
  · by_cases hkey : other = key
    · rw [hkey, Function.update_self, Option.some.injEq] at hother
      rw [hkey, Function.update_self]
      exact ⟨value, rfl, (hstores _ _).mpr (.inr ⟨hother.symm, rfl⟩)⟩
    · rw [Function.update_of_ne hkey] at hother ⊢
      obtain ⟨old, hvalue, hstored⟩ := h.stored other pointer hother
      exact ⟨old, hvalue, (hstores _ _).mpr (.inl hstored)⟩
  · by_cases hkey : first = key
    · by_cases hkey' : second = key
      · rw [hkey, hkey']
      · rw [hkey, Function.update_self] at hfirst
        rw [Function.update_of_ne hkey', ← hfirst] at hsecond
        exact absurd hsecond (hold second)
    · rw [Function.update_of_ne hkey] at hfirst
      by_cases hkey' : second = key
      · rw [hkey', Function.update_self] at hsecond
        rw [← hsecond] at hfirst
        exact absurd hfirst (hold first)
      · rw [Function.update_of_ne hkey'] at hsecond
        exact h.distinct first second pointer hfirst hsecond

theorem Bound.drop (h : Bound s pointers d) {pointer : ℕ} (hkey : pointers key = some pointer)
    (hstores : ∀ q w, s'.Stores q w ↔ s.Stores q w ∧ q ≠ pointer) :
    Bound s' (Function.update pointers key none) (Function.update d key none) := by
  refine ⟨fun other hother ↦ ?_, fun other found hother ↦ ?_, fun first second found hfirst hsecond ↦ ?_⟩
  · by_cases hother' : other = key
    · rw [hother', Function.update_self]
    · rw [Function.update_of_ne hother'] at hother ⊢
      exact h.absent other hother
  · by_cases hother' : other = key
    · rw [hother', Function.update_self] at hother
      cases hother
    · rw [Function.update_of_ne hother'] at hother ⊢
      obtain ⟨old, hvalue, hstored⟩ := h.stored other found hother
      refine ⟨old, hvalue, (hstores _ _).mpr ⟨hstored, fun hsame ↦ hother' ?_⟩⟩
      rw [hsame] at hother
      exact h.distinct other key pointer hother hkey
  · by_cases hfirst' : first = key
    · rw [hfirst', Function.update_self] at hfirst
      cases hfirst
    · by_cases hsecond' : second = key
      · rw [hsecond', Function.update_self] at hsecond
        cases hsecond
      · rw [Function.update_of_ne hfirst'] at hfirst
        rw [Function.update_of_ne hsecond'] at hsecond
        exact h.distinct first second found hfirst hsecond

end Bound

section Operation

variable {H : Type} {calls : HashmapCalls H} {growth : Growth}
  {stands : (Str → Option ℕ) → H → Prop} {insertSafe deleteSafe : Str → H → Prop}
  {db : Database H} {d : Str → Option Str} {call : OperationCall}

/-- The hash map finds the key. -/
def Present (calls : HashmapCalls H) (db : Database H) (key : Str) : Prop :=
  ∃ pointer, calls.lookupKey db.hashmap key = .ok (some pointer, .success)

/-- There is room for the value: the page that the search takes is in memory and has room for it
with its size, or there is a page of the arena for a new header. -/
structure Placeable (growth : Growth) (s : Storage) (value : Str) : Prop where
  size : value.size + 2 ≤ pageSize
  fits : SetFits s value.size
  room : SetRoom growth s value.size

/-- A new value can be put, and the hash map can take its key or give it up. -/
structure Regular (calls : HashmapCalls H) (growth : Growth) (insertSafe deleteSafe : Str → H → Prop)
    (db : Database H) (call : OperationCall) : Prop where
  insert : call.trans.msg.cmd = Command.insert.code → call.trans.msg.val.size ≠ 0 →
    ¬ Present calls db call.trans.msg.key →
      Placeable growth db.storage call.trans.msg.val ∧ insertSafe call.trans.msg.key db.hashmap
  delete : call.trans.msg.cmd = Command.delete.code → Present calls db call.trans.msg.key →
    deleteSafe call.trans.msg.key db.hashmap

theorem present_iff (hlawful : LawfulCalls calls stands insertSafe deleteSafe)
    {pointers : Str → Option ℕ} (hstands : stands pointers db.hashmap) {key : Str} :
    Present calls db key ↔ ∃ pointer, pointers key = some pointer := by
  unfold Present
  simp only [hlawful.lookup hstands, Except.ok.injEq, Prod.mk.injEq, and_true]

theorem requestMsg_ok {trans : Transaction} (h : trans.ancestor ≠ none) :
    requestMsg trans = .ok trans.msg := by
  obtain ⟨request, hrequest⟩ := Option.ne_none_iff_exists'.mp h
  rw [requestMsg, hrequest, Option.elim_some]

theorem writeLog_ok (db : Database H) (trans : Transaction) :
    ∃ db' lsn, db.writeLog trans = .ok (db', lsn) ∧ db'.storage = db.storage ∧
      db'.hashmap = db.hashmap := by
  obtain ⟨⟨walLogger, lsn⟩, hlog⟩ : ∃ result, Wal.writeLog db.walLogger trans [] = .ok result := by
    unfold Wal.writeLog
    split
    · exact ⟨_, rfl⟩
    · simp only [writeLoop_complete, ok_bind, pure_eq_ok, Except.ok.injEq, exists_eq']
  have hwritten : db.writeLog trans = .ok ({ db with
      walLogger := walLogger
      records := db.records ++ (toWalRecord db.walLogger trans).2.toList }, lsn) := by
    rw [Database.writeLog, hlog]
    rfl
  exact ⟨_, lsn, hwritten, rfl, rfl⟩

theorem loadMeta_ok {s : Storage} {pointer : ℕ} {keyMeta : KeyMeta}
    (h : s.metas[pointer]? = some keyMeta) : s.loadMeta pointer = .ok keyMeta := by
  rw [Storage.loadMeta, h, Option.elim_some]

theorem modifyMeta_ok {s : Storage} {pointer : ℕ} {keyMeta : KeyMeta} (change : KeyMeta → KeyMeta)
    (h : s.metas[pointer]? = some keyMeta) : ∃ s', s.modifyMeta pointer change = .ok s' := by
  rw [Storage.modifyMeta, loadMeta_ok h, ok_bind, pure_eq_ok]
  exact ⟨_, rfl⟩

/-- The end of an operation that a map has an answer for. -/
def Ends (calls : HashmapCalls H) (stands : (Str → Option ℕ) → H → Prop) (db : Database H)
    (call : OperationCall) (next : (Str → Option Str) × Answer)
    (outcome : Outcome (Database H × Option ProtoReply)) : Prop :=
  ∃ db' result, outcome = .ok (db', result) ∧ Serves stands db' next.1 ∧
    ((call.trans.msg.cmd = Command.select.code → ¬ Present calls db call.trans.msg.key) →
      Answers result next.2)

theorem setCmd_word (reply : ProtoReply) (cmd : UInt8) :
    (reply.setCmd cmd).word % 256 = cmd.toNat := by
  have hlt : cmd.toNat < 256 := cmd.toNat_lt
  change (reply.word / 256 * 256 + cmd.toNat) % 256 = cmd.toNat
  omega

theorem operationPeek_ends (hlawful : LawfulCalls calls stands insertSafe deleteSafe)
    (h : Serves stands db d) (hrequest : IsRequest call)
    (hcmd : call.trans.msg.cmd = Command.peek.code) :
    Ends calls stands db call (mapStep d call) (operationPeek calls db call.trans call.reply) := by
  obtain ⟨pointers, hstands, hbound⟩ := h.index
  have hlookup := hlawful.lookup hstands call.trans.msg.key
  have hpeek : call.trans.msg.cmd ≠ Command.insert.code ∧ call.trans.msg.cmd ≠ Command.delete.code ∧
      call.trans.msg.cmd ≠ Command.select.code := by
    rw [hcmd]
    decide
  rw [operationPeek, requestMsg_ok hrequest.ancestor, ok_bind, hlookup, ok_bind, mapStep,
    if_neg hpeek.1]
  cases hkey : pointers call.trans.msg.key with
  | none =>
    rw [hbound.absent _ hkey]
    exact ⟨_, _, rfl, h, fun _ ↦ ⟨_, rfl, rfl, rfl⟩⟩
  | some pointer =>
    obtain ⟨value, hvalue, -⟩ := hbound.stored _ _ hkey
    rw [hvalue]
    simp only [if_neg hpeek.2.1, if_neg hpeek.2.2]
    exact ⟨_, _, rfl, h, fun _ ↦ ⟨_, rfl, rfl, setCmd_word _ _, nofun⟩⟩

/-- The number of SELECT is that of FGDB_CODE_KEY_NOT_FOUND. A value that is found is not replied
with. -/
theorem operationSelect_ends (hlawful : LawfulCalls calls stands insertSafe deleteSafe)
    (h : Serves stands db d) (hrequest : IsRequest call)
    (hcmd : call.trans.msg.cmd = Command.select.code) :
    Ends calls stands db call (mapStep d call) (operationSelect calls db call.trans call.reply) := by
  obtain ⟨pointers, hstands, hbound⟩ := h.index
  have hlookup := hlawful.lookup hstands call.trans.msg.key
  have hinsert : call.trans.msg.cmd ≠ Command.insert.code ∧
      call.trans.msg.cmd ≠ Command.delete.code := by
    rw [hcmd]
    decide
  rw [operationSelect, requestMsg_ok hrequest.ancestor, ok_bind, hlookup, ok_bind, mapStep,
    if_neg hinsert.1]
  cases hkey : pointers call.trans.msg.key with
  | none =>
    rw [hbound.absent _ hkey]
    refine ⟨_, _, rfl, h, fun _ ↦ ⟨_, rfl, rfl, ?_⟩⟩
    rw [hcmd]
    change FgdbCode.keyNotFound.value / 256 * 256 + Command.select.code.toNat = _
    decide
  | some pointer =>
    obtain ⟨value, hvalue, hstored⟩ := hbound.stored _ _ hkey
    obtain ⟨keyMeta, -, -, hmeta, -⟩ := h.valid.find hstored
    obtain ⟨s, found, header, header', hget, -, hhere, hwarm⟩ :=
      pageValueGet_effect h.valid hstored hmeta
    rw [hvalue]
    simp only [if_neg hinsert.2, if_pos hcmd, loadMeta_ok hmeta, ok_bind, hget]
    refine ⟨_, _, rfl, ⟨hwarm.valid, pointers, hstands, hbound.same ?_⟩, fun hnot ↦ ?_⟩
    · exact hwarm.stores h.valid hhere
    · exact absurd ((present_iff hlawful hstands).mpr ⟨pointer, hkey⟩) (hnot hcmd)

theorem operationInsert_ends_map (hlawful : LawfulCalls calls stands insertSafe deleteSafe)
    (h : Serves stands db d) (hrequest : IsRequest call)
    (hregular : Regular calls growth insertSafe deleteSafe db call)
    (hcmd : call.trans.msg.cmd = Command.insert.code) :
    Ends calls stands db call (mapStep d call)
      (operationInsert calls growth db call.trans call.reply) := by
  obtain ⟨pointers, hstands, hbound⟩ := h.index
  have hlookup := hlawful.lookup hstands call.trans.msg.key
  rw [operationInsert, requestMsg_ok hrequest.ancestor, ok_bind, mapStep, if_pos hcmd]
  by_cases hempty : call.trans.msg.val.size = 0
  · rw [if_pos hempty, if_pos hempty]
    exact ⟨_, _, rfl, h, fun _ ↦ ⟨_, rfl, rfl, rfl⟩⟩
  · rw [if_neg hempty, if_neg hempty, hlookup, ok_bind]
    cases hkey : pointers call.trans.msg.key with
    | some pointer =>
      obtain ⟨value, hvalue, -⟩ := hbound.stored _ _ hkey
      rw [hvalue]
      exact ⟨_, _, rfl, h, fun _ ↦ ⟨_, rfl, rfl, rfl⟩⟩
    | none =>
      rw [hbound.absent _ hkey]
      have hnot : ¬ Present calls db call.trans.msg.key := by
        rw [present_iff hlawful hstands, hkey]
        exact fun ⟨_, hsome⟩ ↦ nomatch hsome
      obtain ⟨hplaceable, hsafe⟩ := hregular.insert hcmd hempty hnot
      obtain ⟨db1, lsn, hlog, hstorage, hhashmap⟩ := writeLog_ok db call.trans
      obtain ⟨hfreshValid, hfresh⟩ := h.valid.newMeta
      have hnewMeta : db.storage.newMeta.1.metas[db.storage.newMeta.2]? = some ⟨none, 0, 0⟩ :=
        List.getElem?_concat_length
      obtain ⟨s1, index, hset, heffect⟩ := pageValueSet_ok hfreshValid hplaceable.room
        hplaceable.fits hplaceable.size hfresh hnewMeta
      obtain ⟨header, hhere, -⟩ := heffect.header
      obtain ⟨s2, hstamp, hvalid2, hmetas2, hstores2⟩ := heffect.valid.stamped lsn hhere
      obtain ⟨keyMeta, -, -, hmeta, -⟩ :=
        hvalid2.find ((hstores2 _ _).mpr ((heffect.stores _ _).mpr (.inr ⟨rfl, rfl⟩)))
      obtain ⟨s3, hname⟩ := modifyMeta_ok (fun keyMeta ↦
        { keyMeta with weakKey := some call.trans.msg.key }) hmeta
      obtain ⟨hvalid3, hstores3⟩ := hvalid2.named hname
      obtain ⟨hashmap, hinsert, hstands'⟩ :=
        hlawful.insert hstands hkey hsafe db.storage.newMeta.2
      simp only [hlog, ok_bind, hstorage, hset, hstamp, hname, hhashmap, hinsert]
      refine ⟨_, _, rfl, ⟨hvalid3, _, hstands', hbound.put h.valid fun q w ↦ ?_⟩,
        fun _ ↦ ⟨_, rfl, rfl, setCmd_word _ _, nofun⟩⟩
      rw [hstores3, hstores2, heffect.stores]
      rfl

theorem operationDelete_ends_map (hlawful : LawfulCalls calls stands insertSafe deleteSafe)
    (h : Serves stands db d) (hrequest : IsRequest call)
    (hregular : Regular calls growth insertSafe deleteSafe db call)
    (hcmd : call.trans.msg.cmd = Command.delete.code) :
    Ends calls stands db call (mapStep d call)
      (operationDelete calls db call.trans call.reply) := by
  obtain ⟨pointers, hstands, hbound⟩ := h.index
  have hinsert : call.trans.msg.cmd ≠ Command.insert.code := by
    rw [hcmd]
    decide
  have hselect : call.trans.msg.cmd ≠ Command.select.code := by
    rw [hcmd]
    decide
  rw [operationDelete, requestMsg_ok hrequest.ancestor, ok_bind, mapStep, if_neg hinsert]
  cases hkey : pointers call.trans.msg.key with
  | none =>
    rw [hbound.absent _ hkey, hlawful.deleteAbsent hstands hkey, ok_bind]
    exact ⟨_, _, rfl, h, fun _ ↦ ⟨_, rfl, rfl, rfl⟩⟩
  | some pointer =>
    obtain ⟨value, hvalue, hstored⟩ := hbound.stored _ _ hkey
    obtain ⟨keyMeta, -, -, hmeta, -⟩ := h.valid.find hstored
    have hsafe := hregular.delete hcmd ((present_iff hlawful hstands).mpr ⟨pointer, hkey⟩)
    obtain ⟨hashmap, hdelete, hstands'⟩ :=
      hlawful.deletePresent hstands hkey hsafe db.storage.loadMeta keyMeta (loadMeta_ok hmeta)
    obtain ⟨db1, lsn, hlog, hstorage, hhashmap⟩ := writeLog_ok { db with hashmap := hashmap } call.trans
    obtain ⟨s1, found, hunset, hbytes, heffect⟩ := pageValueUnset_effect h.valid hstored hmeta
      (show ({ keyMeta with weakKey := none } : KeyMeta).page = _ from rfl) rfl
    obtain ⟨header, hhere, -⟩ := heffect.header
    obtain ⟨s2, hstamp, hvalid2, -, hstores2⟩ := heffect.valid.stamped lsn hhere
    rw [hvalue]
    simp only [hdelete, ok_bind, hlog, hstorage, hunset, hstamp, if_pos hcmd]
    refine ⟨_, _, rfl, ⟨hvalid2, _, hhashmap ▸ hstands', hbound.drop hkey fun q w ↦ ?_⟩, fun _ ↦
      ⟨_, rfl, rfl, setCmd_word _ _, fun v hv ↦ ?_⟩⟩
    · rw [hstores2, heffect.stores]
    · rw [← Option.some.inj hv]
      exact Str.ext hbytes

/-- An operation keeps the store serving the map, and it answers as the map. -/
theorem operationStep_ends (hlawful : LawfulCalls calls stands insertSafe deleteSafe)
    (h : Serves stands db d) (hrequest : IsRequest call)
    (hregular : Regular calls growth insertSafe deleteSafe db call) :
    Ends calls stands db call (mapStep d call) (operationStep calls growth db call) := by
  unfold operationStep
  rcases hrequest.cmd with hpeek | hselect | hinsert | hdelete
  · rw [if_pos hpeek]
    exact operationPeek_ends hlawful h hrequest hpeek
  · rw [if_neg (by rw [hselect]; decide), if_pos hselect]
    exact operationSelect_ends hlawful h hrequest hselect
  · rw [if_neg (by rw [hinsert]; decide), if_neg (by rw [hinsert]; decide), if_pos hinsert]
    exact operationInsert_ends_map hlawful h hrequest hregular hinsert
  · rw [if_neg (by rw [hdelete]; decide), if_neg (by rw [hdelete]; decide),
      if_neg (by rw [hdelete]; decide), if_pos hdelete]
    exact operationDelete_ends_map hlawful h hrequest hregular hdelete

end Operation

/-- An empty database. -/
def emptyDatabase (growth : Growth) (pages : ℕ) (memory : Memory) (headers : ℕ) (disk : Disk)
    (walLogger : WalLogger) : Database (VoidPtr ℕ) where
  storage := emptyStorage growth pages memory headers disk
  hashmap := hashmapNew
  walLogger := walLogger
  records := []

/-- The call is regular, and it is no SELECT of a key that is there. -/
def Replied (growth : Growth) (db : Database (VoidPtr ℕ)) (call : OperationCall) : Prop :=
  Regular hashmapCalls growth InsertSafe DeleteSafe db call ∧
    (call.trans.msg.cmd = Command.select.code → ¬ Present hashmapCalls db call.trans.msg.key)

/-- No call faults, and the replies are those of a finite map. -/
def AnswersAsMap (growth : Growth) (start : Database (VoidPtr ℕ)) (calls : List OperationCall) : Prop :=
  ∃ db results, run (operationStep hashmapCalls growth) start calls = .ok (db, results) ∧
    List.Forall₂ Answers results (runSpec mapStep (fun _ ↦ none) calls).2

theorem emptyDatabase_serves (growth : Growth) (pages : ℕ) (memory : Memory) (headers : ℕ)
    (disk : Disk) (walLogger : WalLogger) :
    Serves MapHolds (emptyDatabase growth pages memory headers disk walLogger) fun _ ↦ none := by
  refine ⟨emptyStorage_valid growth pages memory headers disk, fun _ ↦ none, hashmapNew_holds, ?_⟩
  exact ⟨fun _ _ ↦ rfl, nofun, nofun⟩

/-- A key and a value of one byte each. -/
def letterCall (cmd : Command) : OperationCall :=
  ⟨⟨some 0, ⟨cmd.code, .ofByte 107, .ofByte 118⟩⟩, ⟨.error, 0, Str.empty⟩⟩

end FGDB.Operations
