import FGDB.Operations.Database

/-!
# What the operations do over a dictionary

With a dictionary for the hash map an operation that returns went one of a few
ways. Each is said here with the calls that it made. Over any hash map the operations
keep what their calls to the pages keep.
-/

namespace FGDB.Operations

open Foundation HashMap Pages Server Wal
open FGDB.Vector (Growth)

variable {growth : Growth} {refuses : (Str → Option ℕ) → Str → Bool}
  {db db' : Database (Str → Option ℕ)} {reply : ProtoReply} {trans : Transaction}
  {result : Option ProtoReply}

theorem requestMsg_eq_ok {msg : Msg} (h : requestMsg trans = .ok msg) : msg = trans.msg := by
  unfold requestMsg at h
  cases hancestor : trans.ancestor with
  | none =>
    rw [hancestor] at h
    cases h
  | some request =>
    rw [hancestor, Option.elim_some] at h
    exact (Except.ok.inj h).symm

theorem writeLog_keeps {H : Type} {db db' : Database H} {lsn : ℕ}
    (h : db.writeLog trans = .ok (db', lsn)) :
    db'.storage = db.storage ∧ db'.hashmap = db.hashmap ∧
      db'.records = db.records ++ (toWalRecord db.walLogger trans).2.toList := by
  obtain ⟨⟨walLogger, lsn'⟩, -, h⟩ := bind_eq_ok.mp h
  rw [← (Prod.mk.inj (Except.ok.inj h)).1]
  exact ⟨rfl, rfl, rfl⟩

/-- The reply is REPLY_OK. -/
def repliedOk (result : Option ProtoReply) : Bool := result.any fun reply ↦ reply.code = .ok

theorem operationPeek_shape
    (h : operationPeek (dictionaryCalls refuses) db trans reply = .ok (db', result)) : db' = db := by
  obtain ⟨msg, -, h⟩ := bind_eq_ok.mp h
  obtain ⟨⟨found, err⟩, -, h⟩ := bind_eq_ok.mp h
  cases found with
  | none => exact (Prod.mk.inj (Except.ok.inj h)).1.symm
  | some pointer => exact (Prod.mk.inj (Except.ok.inj h)).1.symm

/-- A SELECT reads the page of a meta, or it changes nothing. -/
theorem operationSelect_shape
    (h : operationSelect (dictionaryCalls refuses) db trans reply = .ok (db', result)) :
    db' = db ∨ ∃ pointer keyMeta storage value, db.hashmap trans.msg.key = some pointer ∧
      db.storage.loadMeta pointer = .ok keyMeta ∧
      pageValueGet db.storage keyMeta = .ok (storage, some value) ∧
      db' = { db with storage := storage } := by
  obtain ⟨msg, hmsg, h⟩ := bind_eq_ok.mp h
  obtain rfl := requestMsg_eq_ok hmsg
  obtain ⟨⟨found, err⟩, hfound, h⟩ := bind_eq_ok.mp h
  cases found with
  | none => exact .inl (Prod.mk.inj (Except.ok.inj h)).1.symm
  | some pointer =>
    obtain ⟨keyMeta, hload, h⟩ := bind_eq_ok.mp h
    obtain ⟨⟨storage, value⟩, hget, h⟩ := bind_eq_ok.mp h
    cases value with
    | none => cases h
    | some value =>
      refine .inr ⟨pointer, keyMeta, storage, value, ?_, hload, hget, ?_⟩
      · exact (Prod.mk.inj (Except.ok.inj hfound)).1
      · exact (Prod.mk.inj (Except.ok.inj h)).1.symm

/-- A DELETE of a key that is there: the dictionary first, then the log, then the page. -/
structure DeletesKey (db db' : Database (Str → Option ℕ)) (trans : Transaction) : Type where
  pointer : ℕ
  keyMeta : KeyMeta
  logged : Database (Str → Option ℕ)
  lsn : ℕ
  storage : Storage
  value : Option (ℕ × Str)
  found : db.hashmap trans.msg.key = some pointer
  load : db.storage.loadMeta pointer = .ok keyMeta
  log : ({ db with hashmap := Function.update db.hashmap trans.msg.key none }).writeLog trans =
    .ok (logged, lsn)
  unset : pageValueUnset db.storage { keyMeta with weakKey := none } = .ok (storage, value)
  hashmap : db'.hashmap = Function.update db.hashmap trans.msg.key none
  walLogger : db'.walLogger = logged.walLogger
  records : db'.records = logged.records
  after : (value = none ∧ db'.storage = storage) ∨
    ∃ index bytes, value = some (index, bytes) ∧ updateLSN storage index lsn = .ok db'.storage

theorem operationDelete_shape
    (h : operationDelete (dictionaryCalls refuses) db trans reply = .ok (db', result)) :
    (db' = db ∧ repliedOk result = false) ∨ ∃ deletes : DeletesKey db db' trans,
      (deletes.value = none ∧ repliedOk result = false) ∨
        (deletes.value ≠ none ∧ repliedOk result = true) := by
  obtain ⟨msg, hmsg, h⟩ := bind_eq_ok.mp h
  obtain rfl := requestMsg_eq_ok hmsg
  obtain ⟨⟨hashmap, deleted, err⟩, hdelete, h⟩ := bind_eq_ok.mp h
  simp only [dictionaryCalls] at hdelete
  cases hfound : db.hashmap trans.msg.key with
  | none =>
    rw [hfound] at hdelete
    have hresult := Prod.mk.inj (Except.ok.inj hdelete)
    rw [← (Prod.mk.inj hresult.2).1, ← hresult.1] at h
    have hlast := Prod.mk.inj (Except.ok.inj h)
    exact .inl ⟨hlast.1.symm, hlast.2 ▸ rfl⟩
  | some pointer =>
    rw [hfound] at hdelete
    obtain ⟨keyMeta, hload, hdelete⟩ := bind_eq_ok.mp hdelete
    have hresult := Prod.mk.inj (Except.ok.inj hdelete)
    rw [← (Prod.mk.inj hresult.2).1, ← hresult.1] at h
    obtain ⟨⟨logged, lsn⟩, hlog, h⟩ := bind_eq_ok.mp h
    obtain ⟨hstorage, hhashmap, -⟩ := writeLog_keeps hlog
    obtain ⟨⟨storage, value⟩, hunset, h⟩ := bind_eq_ok.mp h
    rw [hstorage] at hunset
    cases value with
    | none =>
      have hlast := Prod.mk.inj (Except.ok.inj h)
      refine .inr ⟨⟨pointer, keyMeta, logged, lsn, storage, none, hfound, hload, hlog, hunset,
        ?_, ?_, ?_, .inl ⟨rfl, ?_⟩⟩, .inl ⟨rfl, hlast.2 ▸ rfl⟩⟩
      · rw [← hlast.1, hhashmap]
      · rw [← hlast.1]
      · rw [← hlast.1]
      · rw [← hlast.1]
    | some found =>
      obtain ⟨storage', hlsn, h⟩ := bind_eq_ok.mp h
      have hlast := Prod.mk.inj (Except.ok.inj h)
      refine .inr ⟨⟨pointer, keyMeta, logged, lsn, storage, some found, hfound, hload, hlog, hunset,
        ?_, ?_, ?_, .inr ⟨found.1, found.2, rfl, ?_⟩⟩, .inr ⟨nofun, hlast.2 ▸ rfl⟩⟩
      · rw [← hlast.1, hhashmap]
      · rw [← hlast.1]
      · rw [← hlast.1]
      · rw [← hlast.1]
        exact hlsn

/-- An INSERT of a new key: the log first, then the page, then the name of the meta. -/
structure PutsKey (growth : Growth) (db : Database (Str → Option ℕ)) (trans : Transaction) :
    Type where
  logged : Database (Str → Option ℕ)
  lsn : ℕ
  placed : Storage
  index : ℕ
  stamped : Storage
  named : Storage
  value : trans.msg.val.size ≠ 0
  absent : db.hashmap trans.msg.key = none
  log : db.writeLog trans = .ok (logged, lsn)
  set : pageValueSet growth db.storage.newMeta.1 trans.msg.val db.storage.newMeta.2 =
    .ok (placed, index)
  stamp : updateLSN placed index lsn = .ok stamped
  name : stamped.modifyMeta db.storage.newMeta.2
    (fun keyMeta ↦ { keyMeta with weakKey := some trans.msg.key }) = .ok named

/-- The dictionary takes the new key, or the value is removed again. -/
inductive InsertEnds (refuses : (Str → Option ℕ) → Str → Bool) (db' : Database (Str → Option ℕ))
    (result : Option ProtoReply) {db : Database (Str → Option ℕ)} {trans : Transaction}
    (puts : PutsKey growth db trans) : Prop
  | taken (hresult : repliedOk result = true) (hdb : db' = { puts.logged with
      storage := puts.named
      hashmap := Function.update db.hashmap trans.msg.key (some db.storage.newMeta.2) })
  | refused (hrefused : refuses db.hashmap trans.msg.key = true) (keyMeta : KeyMeta)
      (storage : Storage) (value : Option (ℕ × Str))
      (hload : puts.named.loadMeta db.storage.newMeta.2 = .ok keyMeta)
      (hunset : pageValueUnset puts.named keyMeta = .ok (storage, value))
      (hdb : db' = { puts.logged with storage := storage, hashmap := db.hashmap })

theorem operationInsert_shape
    (h : operationInsert (dictionaryCalls refuses) growth db trans reply = .ok (db', result)) :
    (db' = db ∧ repliedOk result = false) ∨ ∃ puts : PutsKey growth db trans,
      InsertEnds refuses db' result puts := by
  obtain ⟨msg, hmsg, h⟩ := bind_eq_ok.mp h
  obtain rfl := requestMsg_eq_ok hmsg
  by_cases hvalue : trans.msg.val.size = 0
  · rw [if_pos hvalue] at h
    have hlast := Prod.mk.inj (Except.ok.inj h)
    exact .inl ⟨hlast.1.symm, hlast.2 ▸ rfl⟩
  · rw [if_neg hvalue] at h
    simp only [dictionaryCalls, ok_bind] at h
    cases hfound : db.hashmap trans.msg.key with
    | some pointer =>
      rw [hfound] at h
      have hlast := Prod.mk.inj (Except.ok.inj h)
      exact .inl ⟨hlast.1.symm, hlast.2 ▸ rfl⟩
    | none =>
      rw [hfound] at h
      obtain ⟨⟨logged, lsn⟩, hlog, h⟩ := bind_eq_ok.mp h
      obtain ⟨hstorage, hhashmap, -⟩ := writeLog_keeps hlog
      obtain ⟨⟨placed, index⟩, hset, h⟩ := bind_eq_ok.mp h
      obtain ⟨stamped, hstamp, h⟩ := bind_eq_ok.mp h
      obtain ⟨named, hname, h⟩ := bind_eq_ok.mp h
      rw [hstorage] at hset hname
      simp only [hstorage, hhashmap, hfound, Option.isSome_none, Bool.false_eq_true, if_false] at h
      refine .inr ⟨⟨logged, lsn, placed, index, stamped, named, hvalue, hfound, hlog, hset, hstamp,
        hname⟩, ?_⟩
      cases hrefuses : refuses db.hashmap trans.msg.key with
      | true =>
        rw [hrefuses, if_pos rfl, ok_bind] at h
        obtain ⟨keyMeta, hload, h⟩ := bind_eq_ok.mp h
        obtain ⟨⟨storage, value⟩, hunset, h⟩ := bind_eq_ok.mp h
        have hlast := Prod.mk.inj (Except.ok.inj h)
        exact .refused hrefuses keyMeta storage value hload hunset hlast.1.symm
      | false =>
        rw [hrefuses, if_neg Bool.false_ne_true, ok_bind] at h
        have hlast := Prod.mk.inj (Except.ok.inj h)
        exact .taken (hlast.2 ▸ rfl) hlast.1.symm

section Kept

variable {H : Type} {calls : HashmapCalls H} {takes : Storage → Str → Prop} {kept : Storage → Prop}
  {db db' : Database H}

/-- The calls of the operations to the pages keep a property, when a new value is put only where it
is taken. -/
structure KeptByPages (growth : Growth) (takes : Storage → Str → Prop) (kept : Storage → Prop) :
    Prop where
  get : ∀ (s s' : Storage) (key : KeyMeta) (found : Option (ℕ × Str)), kept s →
    pageValueGet s key = .ok (s', found) → kept s'
  unset : ∀ (s s' : Storage) (key : KeyMeta) (found : Option (ℕ × Str)), kept s →
    pageValueUnset s key = .ok (s', found) → kept s'
  put : ∀ (s s' : Storage) (value : Str) (index : ℕ), kept s → takes s value →
    pageValueSet growth s.newMeta.1 value s.newMeta.2 = .ok (s', index) → kept s'
  stamp : ∀ (s s' : Storage) (index lsn : ℕ), kept s → updateLSN s index lsn = .ok s' → kept s'
  named : ∀ (s s' : Storage) (pointer : ℕ) (change : KeyMeta → KeyMeta), kept s →
    s.modifyMeta pointer change = .ok s' → kept s'

theorem operationPeek_storage
    (h : operationPeek calls db trans reply = .ok (db', result)) : db'.storage = db.storage := by
  obtain ⟨msg, -, h⟩ := bind_eq_ok.mp h
  obtain ⟨⟨found, err⟩, -, h⟩ := bind_eq_ok.mp h
  cases found with
  | none => rw [← (Prod.mk.inj (Except.ok.inj h)).1]
  | some pointer => rw [← (Prod.mk.inj (Except.ok.inj h)).1]

theorem operationSelect_keeps (hkept : KeptByPages growth takes kept) (hstorage : kept db.storage)
    (h : operationSelect calls db trans reply = .ok (db', result)) : kept db'.storage := by
  obtain ⟨msg, -, h⟩ := bind_eq_ok.mp h
  obtain ⟨⟨found, err⟩, -, h⟩ := bind_eq_ok.mp h
  cases found with
  | none =>
    rw [← (Prod.mk.inj (Except.ok.inj h)).1]
    exact hstorage
  | some pointer =>
    obtain ⟨keyMeta, -, h⟩ := bind_eq_ok.mp h
    obtain ⟨⟨s, value⟩, hget, h⟩ := bind_eq_ok.mp h
    cases value with
    | none => cases h
    | some value =>
      rw [← (Prod.mk.inj (Except.ok.inj h)).1]
      exact hkept.get db.storage s keyMeta (some value) hstorage hget

theorem operationDelete_keeps (hkept : KeptByPages growth takes kept) (hstorage : kept db.storage)
    (h : operationDelete calls db trans reply = .ok (db', result)) : kept db'.storage := by
  obtain ⟨msg, -, h⟩ := bind_eq_ok.mp h
  obtain ⟨⟨hashmap, deleted, err⟩, -, h⟩ := bind_eq_ok.mp h
  cases deleted with
  | none =>
    rw [← (Prod.mk.inj (Except.ok.inj h)).1]
    exact hstorage
  | some keyMeta =>
    obtain ⟨⟨logged, lsn⟩, hlog, h⟩ := bind_eq_ok.mp h
    obtain ⟨⟨s, value⟩, hunset, h⟩ := bind_eq_ok.mp h
    rw [(writeLog_keeps hlog).1] at hunset
    have hs := hkept.unset db.storage s keyMeta value hstorage hunset
    cases value with
    | none =>
      rw [← (Prod.mk.inj (Except.ok.inj h)).1]
      exact hs
    | some value =>
      obtain ⟨stamped, hstamp, h⟩ := bind_eq_ok.mp h
      rw [← (Prod.mk.inj (Except.ok.inj h)).1]
      exact hkept.stamp s stamped value.1 lsn hs hstamp

theorem operationInsert_keeps (hkept : KeptByPages growth takes kept) (hstorage : kept db.storage)
    (htakes : trans.msg.val.size ≠ 0 → takes db.storage trans.msg.val)
    (h : operationInsert calls growth db trans reply = .ok (db', result)) : kept db'.storage := by
  obtain ⟨msg, hmsg, h⟩ := bind_eq_ok.mp h
  obtain rfl := requestMsg_eq_ok hmsg
  split at h
  · rw [← (Prod.mk.inj (Except.ok.inj h)).1]
    exact hstorage
  · rename_i hvalue
    obtain ⟨⟨found, err⟩, -, h⟩ := bind_eq_ok.mp h
    cases found with
    | some pointer =>
      rw [← (Prod.mk.inj (Except.ok.inj h)).1]
      exact hstorage
    | none =>
      obtain ⟨⟨logged, lsn⟩, hlog, h⟩ := bind_eq_ok.mp h
      have hlogged := (writeLog_keeps hlog).1
      obtain ⟨⟨placed, index⟩, hset, h⟩ := bind_eq_ok.mp h
      obtain ⟨stamped, hstamp, h⟩ := bind_eq_ok.mp h
      obtain ⟨named, hname, h⟩ := bind_eq_ok.mp h
      obtain ⟨⟨hashmap, code, err⟩, -, h⟩ := bind_eq_ok.mp h
      have hnamed : kept named := by
        apply hkept.named stamped named _ _ _ hname
        apply hkept.stamp placed stamped index lsn _ hstamp
        simp only [hlogged] at hset
        exact hkept.put db.storage placed trans.msg.val index hstorage (htakes hvalue) hset
      simp only [] at h
      split at h
      · obtain ⟨keyMeta, -, h⟩ := bind_eq_ok.mp h
        obtain ⟨⟨s, value⟩, hunset, h⟩ := bind_eq_ok.mp h
        rw [← (Prod.mk.inj (Except.ok.inj h)).1]
        exact hkept.unset named s keyMeta value hnamed hunset
      · rw [← (Prod.mk.inj (Except.ok.inj h)).1]
        exact hnamed

/-- What the calls to the pages keep, the operations keep, over any hash map. -/
theorem operationStep_keeps {call : OperationCall} (hkept : KeptByPages growth takes kept)
    (hstorage : kept db.storage)
    (htakes : call.trans.msg.cmd = Command.insert.code → call.trans.msg.val.size ≠ 0 →
      takes db.storage call.trans.msg.val)
    (h : operationStep calls growth db call = .ok (db', result)) : kept db'.storage := by
  unfold operationStep at h
  split at h
  · rw [operationPeek_storage h]
    exact hstorage
  · split at h
    · exact operationSelect_keeps hkept hstorage h
    · split at h
      · rename_i hcmd
        exact operationInsert_keeps hkept hstorage (htakes hcmd) h
      · split at h
        · exact operationDelete_keeps hkept hstorage h
        · split at h
          · cases h
          · rw [← (Prod.mk.inj (Except.ok.inj h)).1]
            exact hstorage

end Kept

end FGDB.Operations
