import FGDB.Operations.Answers
import FGDB.Operations.Index
import FGDB.Operations.Replay

/-!
# Pages that lose all their keys

The search for a page divides by the number of keys of every page that it passes over.
A page gets a key at once when it is made, so all pages have keys until a DELETE takes
the last key of one. The page stays, and from then on a value that is too large for it
ends the program.
-/

namespace FGDB.Operations

open Foundation HashMap Pages Server Wal
open FGDB.Vector (BoundedList Growth)

/-- For no size the call for a page ends in the division or in the assertion. -/
def AllocatesSafely (growth : Growth) (s : Storage) : Prop :=
  ∀ size, 0 < size → headersAllocPage growth s size ≠ .error .divisionByZero ∧
    headersAllocPage growth s size ≠ .error .assertionFailed

/-- The page has lost more bytes than a page has, and enough of them for the test for
fragmentation. -/
def Worn (header : PageHeader) : Prop :=
  pageSize < header.fragmentatedBytes ∧ fragmentationFactor ≤
    header.fragmentatedBytes / pageSize * header.keys.contents.length

instance (header : PageHeader) : Decidable (Worn header) := inferInstanceAs (Decidable (_ ∧ _))

def Unworn (s : Storage) : Prop := ∀ header ∈ s.headers, ¬ Worn header

instance (s : Storage) : Decidable (Unworn s) := inferInstanceAs (Decidable (∀ header ∈ _, _))

/-- Every page has a key. -/
def Filled (s : Storage) : Prop := ∀ page, page < s.headers.length → pointersOf s page ≠ []

section Search

variable {growth : Growth} {s s' : Storage} {size : ℕ} {header : PageHeader}

theorem freeBytes_lt (header : PageHeader) : header.freeBytes < 2 ^ 16 :=
  Nat.mod_lt _ (Nat.two_pow_pos 16)

/-- A page that has lost exactly the bytes of a page has no room on average for a value. -/
theorem fragmentated_of_not_worn (hsize : 0 < size) (hkeys : header.keys.contents ≠ [])
    (hworn : ¬ Worn header) : header.fragmentated size = .ok false := by
  have hcount : header.keys.contents.length ≠ 0 := by
    rwa [Ne, List.length_eq_zero_iff]
  rw [PageHeader.fragmentated, if_neg hcount]
  congr 1
  rw [decide_eq_false_iff_not]
  rintro ⟨hroom, hfactor⟩
  rcases lt_trichotomy header.fragmentatedBytes pageSize with hlt | heq | hgt
  · rw [Nat.div_eq_of_lt hlt, Nat.zero_mul] at hfactor
    exact absurd hfactor (by decide)
  · rw [heq, Nat.add_sub_cancel] at hroom
    have hzero : wrap64 (2 ^ 64) / header.keys.contents.length = 0 := by
      rw [wrap64, Nat.mod_self, Nat.zero_div]
    omega
  · exact hworn ⟨hgt, hfactor⟩

/-- Among pages with keys the search takes one that has the bytes free, or none. -/
theorem searchPage_of_not_worn {rest : List PageHeader} {index : ℕ} (hsize : 0 < size)
    (hrest : ∀ x ∈ rest, x.keys.contents ≠ [] ∧ ¬ Worn x) :
    searchPage size rest index none = .ok .noPage ∨
      ∃ i, searchPage size rest index none = .ok (.fits i) := by
  induction rest generalizing index with
  | nil => exact .inl rfl
  | cons x rest ih =>
    rw [List.forall_mem_cons] at hrest
    rw [searchPage]
    by_cases hfits : size ≤ x.freeBytes
    · rw [if_pos hfits]
      exact .inr ⟨index, rfl⟩
    · rw [if_neg hfits, fragmentated_of_not_worn hsize hrest.1.1 hrest.1.2, ok_bind]
      exact ih hrest.2

/-- A value that fits nowhere reaches the page without keys. -/
theorem searchPage_emptied {rest : List PageHeader} {index : ℕ} {prefered : Option ℕ}
    (hfree : ∀ x ∈ rest, x.freeBytes < size) (hmem : header ∈ rest)
    (hempty : header.keys.contents = []) :
    searchPage size rest index prefered = .error .divisionByZero := by
  induction rest generalizing index prefered with
  | nil => exact absurd hmem List.not_mem_nil
  | cons x rest ih =>
    rw [List.forall_mem_cons] at hfree
    rw [searchPage, if_neg hfree.1.not_ge]
    by_cases hkeys : x.keys.contents = []
    · rw [PageHeader.fragmentated, hkeys]
      rfl
    · have hcount : x.keys.contents.length ≠ 0 := by
        rwa [Ne, List.length_eq_zero_iff]
      rw [PageHeader.fragmentated, if_neg hcount, ok_bind]
      apply ih hfree.2
      apply (List.mem_cons.mp hmem).resolve_left
      intro hsame
      exact hkeys (hsame ▸ hempty)

/-- Neither the division nor the assertion. -/
def Spared (fault : Fault) : Prop := fault ≠ .divisionByZero ∧ fault ≠ .assertionFailed

theorem failsOnly_elim {α β : Type} {allowed : Fault → Prop} {fault : Fault} (h : allowed fault)
    (found : Option α) (next : α → β) :
    FailsOnly allowed (found.elim (.error fault) fun value ↦ .ok (next value) : Outcome β) := by
  cases found with
  | none => exact failsOnly_error h
  | some value => exact failsOnly_ok allowed (next value)

theorem leastRecentFrom_failsOnly {states : ℕ → Option PageState} {q : LruQueue} {fuel : ℕ}
    {lr : Option ℕ} : FailsOnly Spared (leastRecentFrom states q fuel lr) := by
  induction fuel generalizing lr with
  | zero => exact failsOnly_error ⟨nofun, nofun⟩
  | succ fuel ih =>
    cases lr with
    | none => exact failsOnly_error ⟨nofun, nofun⟩
    | some lr =>
      rw [leastRecentFrom]
      split
      · exact ih
      · exact failsOnly_ok _ _

theorem arenaGetNextPage_failsOnly (s : Storage) : FailsOnly Spared (arenaGetNextPage s) := by
  have hheader (s : Storage) (index : ℕ) : FailsOnly Spared (s.header index) :=
    failsOnly_elim ⟨nofun, nofun⟩ _ id
  unfold arenaGetNextPage
  split
  · exact failsOnly_ok _ _
  · apply FailsOnly.bind
    · exact leastRecentFrom_failsOnly.bind fun _ _ ↦ failsOnly_ok _ _
    intro result _
    apply (hheader s result.2).bind
    intro header _
    apply FailsOnly.bind
    · apply (hheader _ _).bind
      intro _ _
      apply FailsOnly.bind
      · unfold Arena.read
        split
        · exact failsOnly_ok _ _
        · exact failsOnly_error ⟨nofun, nofun⟩
      · exact fun _ _ ↦ failsOnly_ok _ _
    · exact fun _ _ ↦ failsOnly_ok _ _

/-- Making a page fails for other reasons. -/
theorem headersNewPage_failsOnly (growth : Growth) (s : Storage) :
    FailsOnly Spared (headersNewPage growth s) := by
  apply (arenaGetNextPage_failsOnly s).bind
  intro result _
  apply FailsOnly.bind
  · unfold BoundedList.add
    split
    · exact failsOnly_ok _ _
    · apply failsOnly_error
      constructor <;> rintro ⟨⟩
  · exact fun _ _ ↦ failsOnly_ok _ _

theorem filled_iff {s : Storage} :
    Filled s ↔ ∀ header ∈ s.headers, header.keys.contents ≠ [] := by
  constructor
  · intro h header hmem
    obtain ⟨page, hpage⟩ := List.mem_iff_getElem?.mp hmem
    have hkeys := h page (List.getElem?_eq_some_iff.mp hpage).1
    rw [pointersOf_eq hpage] at hkeys
    exact fun hempty ↦ hkeys (by rw [hempty, List.map_nil])
  · intro h page hlt
    have hpage : s.headers[page]? = some s.headers[page] := List.getElem?_eq_getElem hlt
    rw [pointersOf_eq hpage, Ne, List.map_eq_nil_iff]
    exact h _ (List.getElem_mem hlt)

/-- As long as no page is worn, the calls for a page are safe exactly when all pages have keys. -/
theorem allocatesSafely_iff {s : Storage} (hunworn : Unworn s) :
    AllocatesSafely growth s ↔ Filled s := by
  rw [filled_iff]
  constructor
  · intro h header hmem hempty
    apply (h (2 ^ 16) (Nat.two_pow_pos 16)).1
    have hsearch : searchPage (2 ^ 16) s.arena.headers.contents 0 none = .error .divisionByZero :=
      searchPage_emptied (fun x _ ↦ freeBytes_lt x) hmem hempty
    rw [headersAllocPage, hsearch, error_bind]
  · intro h size hsize
    have hspared : FailsOnly Spared (headersAllocPage growth s size) := by
      unfold headersAllocPage
      rcases @searchPage_of_not_worn size s.headers 0 hsize (fun x hx ↦ ⟨h x hx, hunworn x hx⟩) with
        hsearch | ⟨index, hsearch⟩
      · rw [Storage.headers] at hsearch
        rw [hsearch, ok_bind]
        exact headersNewPage_failsOnly growth s
      · rw [Storage.headers] at hsearch
        rw [hsearch, ok_bind]
        exact failsOnly_ok _ _
    exact ⟨fun hfault ↦ (hspared _ hfault).1 rfl, fun hfault ↦ (hspared _ hfault).2 rfl⟩

end Search

section Pages

variable {growth : Growth} {s s' : Storage}

theorem pointersOf_of_le {page : ℕ} (h : s.headers.length ≤ page) : pointersOf s page = [] := by
  rw [pointersOf, List.getElem?_eq_none h]
  rfl

theorem length_headers_set {index : ℕ} {header : PageHeader}
    (h : s'.headers = s.headers.set index header) : s'.headers.length = s.headers.length := by
  rw [h, List.length_set]

theorem updateLSN_length {index lsn : ℕ} (h : updateLSN s index lsn = .ok s') :
    s'.headers.length = s.headers.length := by
  obtain ⟨header, -, h⟩ := bind_eq_ok.mp h
  rw [← Except.ok.inj h]
  exact length_headers_set rfl

theorem pageValueUnset_length {key : KeyMeta} {result : Option (ℕ × Str)}
    (h : pageValueUnset s key = .ok (s', result)) : s'.headers.length = s.headers.length := by
  obtain ⟨s1, header, hwarm, hrest⟩ := pageValueUnset_shape h
  have hlength : s1.headers.length = s.headers.length := by
    obtain ⟨old, -, ⟨-, hsame, -⟩ | hheated⟩ := warmHeader_shape hwarm
    · rw [hsame]
    · exact length_headers_set hheated.headers
  rcases hrest with ⟨-, hsame, -⟩ | ⟨header', value, hunset, -⟩
  · rw [hsame, hlength]
  · exact (length_headers_set hunset.headers).trans hlength

/-- A value goes to a page that was there, or to a new one behind the others. -/
theorem pageValueSet_length {value : Str} {pointer index : ℕ}
    (h : pageValueSet growth s value pointer = .ok (s', index)) :
    (searchPage value.size s.headers 0 none ≠ .ok .noPage ∧ index < s.headers.length ∧
      s'.headers.length = s.headers.length) ∨
    (searchPage value.size s.headers 0 none = .ok .noPage ∧ index = s.headers.length ∧
      s'.headers.length = s.headers.length + 1) := by
  obtain ⟨s1, header, keys, keyMeta, halloc, hhere, -, -, hplaced⟩ := pageValueSet_shape h
  have hlength : s'.headers.length = s1.headers.length := by
    rw [hplaced]
    exact length_headers_set rfl
  have hlt : index < s1.headers.length := (List.getElem?_eq_some_iff.mp hhere).1
  cases halloc with
  | fits hsearch hsame =>
    refine .inl ⟨fun hno ↦ ?_, hsame ▸ hlt, hlength.trans (by rw [hsame])⟩
    rw [hsearch] at hno
    cases hno
  | prefered hsearch old new hmoved =>
    have hmovedLength := length_headers_set hmoved.headers
    refine .inl ⟨fun hno ↦ ?_, hmovedLength ▸ hlt, hlength.trans hmovedLength⟩
    rw [hsearch] at hno
    cases hno
  | noPage hsearch new hnew =>
    refine .inr ⟨hsearch, hnew.index, ?_⟩
    rw [hlength, hnew.headers, List.length_append, List.length_singleton]

theorem Filled.same (h : Filled s) (hsame : SameIndex s s')
    (hlength : s'.headers.length = s.headers.length) : Filled s' := by
  intro page hpage
  rw [hsame.pointers]
  exact h page (hlength ▸ hpage)

theorem filled_same_iff (hsame : SameIndex s s') (hlength : s'.headers.length = s.headers.length) :
    Filled s' ↔ Filled s := by
  unfold Filled
  simp only [hsame.pointers, hlength]

/-- A key more leaves no page without keys. -/
theorem Filled.adds (h : Filled s) {page : ℕ} {key : Str} (hadds : Adds s s' page key)
    (hlength : s'.headers.length = s.headers.length ∨
      page = s.headers.length ∧ s'.headers.length = s.headers.length + 1) : Filled s' := by
  intro i hi
  rw [hadds.pointers]
  by_cases hpage : i = page
  · rw [if_pos hpage]
    exact List.append_ne_nil_of_right_ne_nil _ (List.cons_ne_nil _ _)
  · rw [if_neg hpage]
    apply h
    omega

/-- A key less leaves a page without keys when it was the only one. -/
theorem Filled.removes_iff (h : Filled s) {key : KeyMeta} (hremoves : Removes s s' key)
    (hlength : s'.headers.length = s.headers.length) :
    Filled s' ↔ (pointersOf s key.page).length ≠ 1 := by
  have hpage : key.page < s.headers.length := by
    by_contra hout
    have hfound := hremoves.found
    rw [pointersOf_of_le (Nat.le_of_not_lt hout)] at hfound
    exact absurd hfound (Nat.not_lt_zero _)
  have hcount : (pointersOf s' key.page).length = (pointersOf s key.page).length - 1 := by
    rw [hremoves.pointers, if_pos rfl, List.length_eraseIdx, if_pos hremoves.found]
  have hfound := hremoves.found
  constructor
  · intro h' hone
    apply h' key.page (hlength ▸ hpage)
    rw [← List.length_eq_zero_iff, hcount, hone]
  · intro hone page hlt
    by_cases hsame : page = key.page
    · rw [hsame, ← List.length_pos_iff, hcount]
      omega
    · rw [hremoves.pointers, if_neg hsame]
      exact h page (hlength ▸ hlt)

end Pages

section Steps

variable {H : Type} {calls : HashmapCalls H} {growth : Growth} {db db' : Database H}
  {trans : Transaction} {reply : ProtoReply} {result : Option ProtoReply}

/-- The meta of the key that the hash map gives up. -/
def deletedMeta (calls : HashmapCalls H) (db : Database H) (trans : Transaction) : Option KeyMeta :=
  (calls.deleteKey db.storage.loadMeta db.hashmap trans.msg.key).toOption.bind fun result ↦ result.2.1

/-- The key is the only one of its page. -/
def TakesLast (calls : HashmapCalls H) (db : Database H) (trans : Transaction) : Prop :=
  ∃ deleted ∈ deletedMeta calls db trans, (pointersOf db.storage deleted.page).length = 1

/-- The hash map does not find the key and does not take it either, and its value went to a page of
its own. -/
def TakesBack (calls : HashmapCalls H) (db : Database H) (trans : Transaction) : Prop :=
  trans.msg.val.size ≠ 0 ∧
    (calls.lookupKey db.hashmap trans.msg.key).toOption.map Prod.fst = some none ∧
    (calls.insertKey db.hashmap db.storage.newMeta.2 trans.msg.key).toOption.map
      (fun result ↦ result.2.1) = some (-1) ∧
    searchPage trans.msg.val.size db.storage.headers 0 none = .ok .noPage

instance : Decidable (TakesLast calls db trans) := by
  unfold TakesLast
  infer_instance

instance : Decidable (TakesBack calls db trans) := inferInstanceAs (Decidable (_ ∧ _))

theorem operationDelete_filled (hnumbered : Numbered db.storage) (hfilled : Filled db.storage)
    (h : operationDelete calls db trans reply = .ok (db', result)) :
    Numbered db'.storage ∧ (Filled db'.storage ↔ ¬ TakesLast calls db trans) := by
  obtain ⟨msg, hmsg, h⟩ := bind_eq_ok.mp h
  obtain rfl := requestMsg_eq_ok hmsg
  obtain ⟨⟨hashmap, deleted, err⟩, hdelete, h⟩ := bind_eq_ok.mp h
  have hmeta : deletedMeta calls db trans = deleted := by
    rw [deletedMeta, hdelete]
    rfl
  rw [TakesLast, hmeta]
  cases deleted with
  | none =>
    rw [← (Prod.mk.inj (Except.ok.inj h)).1]
    exact ⟨hnumbered, iff_of_true hfilled fun ⟨_, hmem, _⟩ ↦ nomatch hmem⟩
  | some deleted =>
    obtain ⟨⟨logged, lsn⟩, hlog, h⟩ := bind_eq_ok.mp h
    obtain ⟨⟨storage, value⟩, hunset, h⟩ := bind_eq_ok.mp h
    rw [(writeLog_keeps hlog).1] at hunset
    obtain ⟨hremoves, bytes, hvalue⟩ := pageValueUnset_removes hnumbered hunset
    rw [hvalue] at h
    obtain ⟨stamped, hstamp, h⟩ := bind_eq_ok.mp h
    have hsame := updateLSN_sameIndex hstamp
    rw [← (Prod.mk.inj (Except.ok.inj h)).1]
    refine ⟨hsame.numbered (hremoves.numbered hnumbered), ?_⟩
    rw [filled_same_iff hsame (updateLSN_length hstamp),
      hfilled.removes_iff hremoves (pageValueUnset_length hunset)]
    simp

theorem operationInsert_filled (hnumbered : Numbered db.storage) (hfilled : Filled db.storage)
    (h : operationInsert calls growth db trans reply = .ok (db', result)) :
    Numbered db'.storage ∧ (Filled db'.storage ↔ ¬ TakesBack calls db trans) := by
  obtain ⟨msg, hmsg, h⟩ := bind_eq_ok.mp h
  obtain rfl := requestMsg_eq_ok hmsg
  by_cases hvalue : trans.msg.val.size = 0
  · rw [if_pos hvalue] at h
    rw [← (Prod.mk.inj (Except.ok.inj h)).1]
    exact ⟨hnumbered, iff_of_true hfilled fun hback ↦ hback.1 hvalue⟩
  rw [if_neg hvalue] at h
  obtain ⟨⟨found, err⟩, hlookup, h⟩ := bind_eq_ok.mp h
  cases found with
  | some pointer =>
    rw [← (Prod.mk.inj (Except.ok.inj h)).1]
    refine ⟨hnumbered, iff_of_true hfilled fun hback ↦ ?_⟩
    have habsent := hback.2.1
    rw [hlookup] at habsent
    cases habsent
  | none =>
    obtain ⟨⟨logged, lsn⟩, hlog, h⟩ := bind_eq_ok.mp h
    obtain ⟨hstorage, hhashmap, -⟩ := writeLog_keeps hlog
    simp only [hstorage, hhashmap] at h
    obtain ⟨⟨placed, index⟩, hset, h⟩ := bind_eq_ok.mp h
    obtain ⟨stamped, hstamp, h⟩ := bind_eq_ok.mp h
    obtain ⟨named, hname, h⟩ := bind_eq_ok.mp h
    obtain ⟨⟨hashmap, taken, err'⟩, hinsert, h⟩ := bind_eq_ok.mp h
    have hadds := pageValueSet_adds hnumbered hset hstamp hname
    have hnamed : named.headers.length = placed.headers.length := by
      obtain ⟨keyMeta, -, hname⟩ := bind_eq_ok.mp hname
      rw [← Except.ok.inj hname]
      exact (updateLSN_length hstamp : stamped.headers.length = placed.headers.length)
    have hplaced := pageValueSet_length hset
    have hfilled' : Filled named := by
      apply hfilled.adds hadds
      rcases hplaced with ⟨-, -, hlength⟩ | ⟨-, hindex, hlength⟩
      · exact .inl (hnamed.trans hlength)
      · exact .inr ⟨hindex, hnamed.trans hlength⟩
    by_cases htaken : taken = -1
    · rw [if_pos htaken] at h
      obtain ⟨keyMeta, hload, h⟩ := bind_eq_ok.mp h
      obtain ⟨⟨storage, value⟩, hunset, h⟩ := bind_eq_ok.mp h
      have hkeyMeta : keyMeta.page = index := by
        have hnew : named.loadMeta db.storage.newMeta.2 = _ := loadMeta_ok hadds.meta_new
        rw [Except.ok.inj (hload.symm.trans hnew)]
      obtain ⟨hremoves, -⟩ := pageValueUnset_removes hadds.numbered hunset
      rw [← (Prod.mk.inj (Except.ok.inj h)).1]
      refine ⟨hremoves.numbered hadds.numbered, ?_⟩
      rw [hfilled'.removes_iff hremoves (pageValueUnset_length hunset), hkeyMeta, hadds.pointers,
        if_pos rfl, List.length_append, List.length_singleton, Ne, Nat.add_eq_right,
        List.length_eq_zero_iff]
      -- the page had keys before unless the value went to a new one
      rcases hplaced with ⟨hsearch, hindex, -⟩ | ⟨hsearch, hindex, -⟩
      · exact iff_of_true (hfilled index hindex) fun hback ↦ hsearch hback.2.2.2
      · apply iff_of_false
        · rw [not_not]
          exact pointersOf_of_le hindex.ge
        · rw [not_not]
          refine ⟨hvalue, ?_, ?_, hsearch⟩
          · rw [hlookup]
            rfl
          · rw [hinsert, htaken]
            rfl
    · rw [if_neg htaken] at h
      rw [← (Prod.mk.inj (Except.ok.inj h)).1]
      refine ⟨hadds.numbered, iff_of_true hfilled' fun hback ↦ ?_⟩
      have hrefused := hback.2.2.1
      rw [hinsert] at hrefused
      exact htaken (Option.some.inj hrefused)

/-- No key is the last one of its page that goes. -/
def KeepsKeys (calls : HashmapCalls H) (db : Database H) (call : OperationCall) : Prop :=
  (call.trans.msg.cmd = Command.delete.code → ¬ TakesLast calls db call.trans) ∧
    (call.trans.msg.cmd = Command.insert.code → ¬ TakesBack calls db call.trans)

instance (db : Database H) (call : OperationCall) : Decidable (KeepsKeys calls db call) :=
  inferInstanceAs (Decidable (_ ∧ _))

theorem operationStep_filled {call : OperationCall} (hmodifies : Modifies call)
    (hnumbered : Numbered db.storage) (hfilled : Filled db.storage)
    (h : operationStep calls growth db call = .ok (db', result)) :
    Numbered db'.storage ∧ (Filled db'.storage ↔ KeepsKeys calls db call) := by
  have hcodes : Command.insert.code ≠ Command.peek.code ∧ Command.insert.code ≠ Command.select.code ∧
      Command.delete.code ≠ Command.peek.code ∧ Command.delete.code ≠ Command.select.code ∧
      Command.delete.code ≠ Command.insert.code := by decide
  unfold operationStep at h
  unfold KeepsKeys
  rcases hmodifies with hcmd | hcmd
  · rw [if_neg (hcmd ▸ hcodes.1), if_neg (hcmd ▸ hcodes.2.1), if_pos hcmd] at h
    obtain ⟨hnumbered', hiff⟩ := operationInsert_filled hnumbered hfilled h
    refine ⟨hnumbered', hiff.trans ⟨fun hback ↦ ⟨fun hdelete ↦ ?_, fun _ ↦ hback⟩, fun hkeeps ↦ hkeeps.2 hcmd⟩⟩
    exact absurd (hdelete.symm.trans hcmd) hcodes.2.2.2.2
  · rw [if_neg (hcmd ▸ hcodes.2.2.1), if_neg (hcmd ▸ hcodes.2.2.2.1),
      if_neg (hcmd ▸ hcodes.2.2.2.2), if_pos hcmd] at h
    obtain ⟨hnumbered', hiff⟩ := operationDelete_filled hnumbered hfilled h
    refine ⟨hnumbered', hiff.trans ⟨fun hlast ↦ ⟨fun _ ↦ hlast, fun hinsert ↦ ?_⟩, fun hkeeps ↦ hkeeps.1 hcmd⟩⟩
    exact absurd (hcmd.symm.trans hinsert) hcodes.2.2.2.2

end Steps

section Runs

variable {H : Type}

/-- A database without pages, with any hash map and any log. -/
def startDatabase (growth : Growth) (pages : ℕ) (memory : Memory) (headers : ℕ) (disk : Disk)
    (hashmap : H) (walLogger : WalLogger) : Database H where
  storage := emptyStorage growth pages memory headers disk
  hashmap := hashmap
  walLogger := walLogger
  records := []

theorem emptyStorage_numbered (growth : Growth) (pages : ℕ) (memory : Memory) (headers : ℕ)
    (disk : Disk) : Numbered (emptyStorage growth pages memory headers disk) := by
  intro index header hhere
  have hnone : (emptyStorage growth pages memory headers disk).headers[index]? = none :=
    List.getElem?_nil
  rw [hnone] at hhere
  cases hhere

/-- In every state of a run the calls for a page are safe. -/
def SafeThroughout (calls : HashmapCalls H) (growth : Growth) (start : Database H)
    (inputs : List OperationCall) : Prop :=
  ∀ done, done <+: inputs → ∀ db results,
    run (operationStep calls growth) start done = .ok (db, results) →
      AllocatesSafely growth db.storage

/-- In no state of a run a page is worn. -/
def UnwornThroughout (calls : HashmapCalls H) (growth : Growth) (start : Database H)
    (inputs : List OperationCall) : Prop :=
  ∀ done, done <+: inputs → ∀ db results,
    run (operationStep calls growth) start done = .ok (db, results) →
      Unworn db.storage

/-- Over any hash map, as long as no page is worn, the calls for a page are safe in every state of a
run of INSERT and DELETE operations if and only if no operation takes the last key of a page. -/
theorem safeThroughout_iff {calls : HashmapCalls H} {growth : Growth} {pages headers : ℕ}
    {memory : Memory} {disk : Disk} {hashmap : H} {walLogger : WalLogger}
    {inputs : List OperationCall} {db : Database H} {results : List (Option ProtoReply)}
    (hmodifies : ∀ call ∈ inputs, Modifies call)
    (hunworn : UnwornThroughout calls growth
      (startDatabase growth pages memory headers disk hashmap walLogger) inputs)
    (hrun : run (operationStep calls growth)
      (startDatabase growth pages memory headers disk hashmap walLogger) inputs = .ok (db, results)) :
    SafeThroughout calls growth (startDatabase growth pages memory headers disk hashmap walLogger)
        inputs ↔
      EachStep (operationStep calls growth) (KeepsKeys calls)
        (startDatabase growth pages memory headers disk hashmap walLogger) inputs := by
  have hfilled : SafeThroughout calls growth
      (startDatabase growth pages memory headers disk hashmap walLogger) inputs ↔
        ∀ done, done <+: inputs → ∀ db results, run (operationStep calls growth)
          (startDatabase growth pages memory headers disk hashmap walLogger) done =
            .ok (db, results) → Filled db.storage := by
    apply forall₂_congr
    intro done hdone
    apply forall₂_congr
    intro db results
    apply imp_congr_right
    intro hreached
    exact allocatesSafely_iff (hunworn done hdone db results hreached)
  have hsteps := (@eachStep_of_forall _ _ _ (operationStep calls growth) Modifies
    (startDatabase growth pages memory headers disk hashmap walLogger) inputs hmodifies).and
      (eachStep_of_run hrun)
  have hprefix := @forall_prefix_iff _ _ _ (operationStep calls growth)
    (fun db call ↦ Modifies call ∧ ∃ result, operationStep calls growth db call = .ok result)
    (fun db ↦ Numbered db.storage) (fun db ↦ Filled db.storage) (KeepsKeys calls)
    (fun _ _ _ _ hnumbered hfilled hcall hstep ↦
      operationStep_filled hcall.1 hnumbered hfilled hstep)
    (fun _ _ _ _ _ hcall hfault ↦ by
      obtain ⟨-, result, hok⟩ := hcall
      rw [hfault] at hok
      exact nomatch hok) _ inputs (emptyStorage_numbered growth pages memory headers disk) hsteps
  rw [hfilled, hprefix, and_iff_right]
  exact fun page hpage ↦ absurd hpage (Nat.not_lt_zero _)

/-- Another key and another value of one byte each. -/
def otherCall : OperationCall :=
  ⟨⟨some 0, ⟨Command.insert.code, .ofByte 108, .ofByte 119⟩⟩, ⟨.error, 0, Str.empty⟩⟩

/-- One of two keys of a page goes. -/
theorem safeThroughout_two_keys : SafeThroughout hashmapCalls oneMore
    (startDatabase oneMore 2 (fun _ ↦ 0) 0 (initDisk [] []) hashmapNew ⟨0, 0, ⟨[], 0⟩⟩)
    [letterCall .insert, otherCall, letterCall .delete] := by
  obtain ⟨db, results, hrun, hfinal⟩ := @exists_run_of_any _ _ _
    (operationStep hashmapCalls oneMore) (fun db ↦ Unworn db.storage) _
    (startDatabase oneMore 2 (fun _ ↦ 0) 0 (initDisk [] []) hashmapNew ⟨0, 0, ⟨[], 0⟩⟩)
    [letterCall .insert, otherCall, letterCall .delete] (by decide +kernel)
  have hbefore : EachStep (operationStep hashmapCalls oneMore) (fun db _ ↦ Unworn db.storage)
      (startDatabase oneMore 2 (fun _ ↦ 0) 0 (initDisk [] []) hashmapNew ⟨0, 0, ⟨[], 0⟩⟩)
      [letterCall .insert, otherCall, letterCall .delete] := by decide +kernel
  have hunworn := forall_prefix_of_eachStep hbefore hrun hfinal
  apply (safeThroughout_iff _ hunworn hrun).mpr
  · decide +kernel
  · decide

/-- The only key of the only page goes; a value of 4094 bytes, which a page could hold, does not fit
behind the three bytes that are in use. -/
theorem not_safeThroughout_last_key : ¬ SafeThroughout hashmapCalls .source
    (startDatabase .source 2 (fun _ ↦ 0) 0 (initDisk [] []) hashmapNew ⟨0, 0, ⟨[], 0⟩⟩)
    [letterCall .insert, letterCall .delete] := by
  intro hsafe
  obtain ⟨db, results, hrun, hsearch⟩ := @exists_run_of_any _ _ _
    (operationStep hashmapCalls .source)
    (fun db ↦ searchPage 4094 db.storage.headers 0 none = .error .divisionByZero) _
    (startDatabase .source 2 (fun _ ↦ 0) 0 (initDisk [] []) hashmapNew ⟨0, 0, ⟨[], 0⟩⟩)
    [letterCall .insert, letterCall .delete] (by decide +kernel)
  apply (hsafe _ (List.prefix_refl _) db results hrun 4094 (by decide)).1
  rw [Storage.headers] at hsearch
  rw [headersAllocPage, hsearch, error_bind]

end Runs

section Inside

variable {H : Type} {calls : HashmapCalls H} {growth : Growth}

/-- The value of an INSERT fits with its size into the page that it goes to. -/
def InsertsInside (db : Database H) (call : OperationCall) : Prop :=
  call.trans.msg.cmd = Command.insert.code → call.trans.msg.val.size ≠ 0 →
    SetsInside db.storage (.set call.trans.msg.val)

theorem laid_keptByPages : KeptByPages growth (fun s value ↦ SetsInside s (.set value)) Laid where
  get _ _ _ _ hlaid := pageValueGet_laid hlaid
  unset _ _ _ _ hlaid := pageValueUnset_laid hlaid
  put s s' value index hlaid hinside hset := by
    have hfresh : Laid s.newMeta.1 := hlaid.congr rfl rfl rfl
    exact pageValueSet_laid hfresh hinside hset
  stamp _ _ _ _ hlaid := updateLSN_laid hlaid
  named s s' pointer change hlaid hname := by
    obtain ⟨keyMeta, -, hname⟩ := bind_eq_ok.mp hname
    rw [← Except.ok.inj hname]
    exact hlaid.congr rfl rfl rfl

/-- While every value fits into its page no page is worn: what it has lost was in it. -/
theorem unwornThroughout_of_inside {pages headers : ℕ} {memory : Memory} {disk : Disk} {hashmap : H}
    {walLogger : WalLogger} {inputs : List OperationCall}
    (hinside : EachStep (operationStep calls growth) InsertsInside
      (startDatabase growth pages memory headers disk hashmap walLogger) inputs) :
    UnwornThroughout calls growth
      (startDatabase growth pages memory headers disk hashmap walLogger) inputs := by
  rintro done ⟨rest, rfl⟩ reached outputs hreached header hheader hworn
  have hstep (db : Database H) (call : OperationCall) (db' : Database H) (output : Option ProtoReply)
      (hlaid : Laid db.storage) (hinside : InsertsInside db call)
      (hnext : operationStep calls growth db call = .ok (db', output)) : Laid db'.storage :=
    operationStep_keeps laid_keptByPages hlaid hinside hnext
  have hlaid : Laid reached.storage := run_invariant hstep
    (emptyStorage_laid growth pages memory headers disk) hinside.take hreached
  obtain ⟨index, hindex⟩ := List.mem_iff_getElem?.mp hheader
  exact absurd (hlaid.pages index header hindex).holds.fragmentated_lt hworn.1.le.not_gt

end Inside

end FGDB.Operations
