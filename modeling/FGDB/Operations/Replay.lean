import FGDB.Operations.Steps
import FGDB.Pages.Steps
import FGDB.Restart.Start
import FGDB.Wal.Recovery
import Mathlib.Data.List.Range

/-!
# The log and the store

Replaying the records of a run gives the values that the store has. The vectors of
the source have room for one page and one key, so that a run that does not fault
keeps one value at most: the store is empty, or the bytes of its value lie in the
arena as they were written.
-/

namespace FGDB.Operations

open Foundation Memory Records HashMap Pages Server Wal
open FGDB.Vector (BoundedList Growth)

/-- The hash map is a correct dictionary. -/
abbrev correctCalls : HashmapCalls (Str → Option ℕ) := dictionaryCalls fun _ _ ↦ false

/-- The step of the operations over a correct dictionary. -/
abbrev storeStep := operationStep correctCalls .source

/-- The value that the store has for a key. -/
def Database.value (db : Database (Str → Option ℕ)) (key : Str) : Option Str := do
  let pointer ← db.hashmap key
  let keyMeta ← db.storage.metas[pointer]?
  let (_, found) ← (pageValueGet db.storage keyMeta).toOption
  found.map Prod.snd

/-- A store without pages and keys. -/
def emptyStore (memory : Memory) (pages headers : ℕ) (disk : Disk) (walLogger : WalLogger) :
    Database (Str → Option ℕ) where
  storage := ⟨newArena .source pages memory headers, newLruQueue, disk, []⟩
  hashmap _ := none
  walLogger := walLogger
  records := []

/-- INSERT binds the key to the value, DELETE unbinds the key. -/
def applyRecord (d : Str → Option Str) (r : LogRecord) : Str → Option Str :=
  if r.operation = Command.insert.code then Function.update d r.key (some r.val)
  else if r.operation = Command.delete.code then Function.update d r.key none
  else d

def replay (records : List LogRecord) : Str → Option Str :=
  records.foldl applyRecord fun _ ↦ none

/-- A transaction that changes the store when it succeeds. -/
def Modifies (call : OperationCall) : Prop :=
  call.trans.msg.cmd = Command.insert.code ∨ call.trans.msg.cmd = Command.delete.code

instance (call : OperationCall) : Decidable (Modifies call) := inferInstanceAs (Decidable (_ ∨ _))

/-- The INSERT and DELETE transactions that were answered REPLY_OK. -/
def modifications : List OperationCall → List (Option ProtoReply) → List Transaction
  | call :: calls, result :: results =>
    if Modifies call ∧ repliedOk result = true then call.trans :: modifications calls results
    else modifications calls results
  | _, _ => []

/-- The records have one LSN after another, one for each modification, and replaying them gives
the store. -/
structure LogMatches (old : ℕ) (done : List Transaction) (db : Database (Str → Option ℕ)) :
    Prop where
  records : db.records = recordsOf old done
  lsns : db.records.map LogRecord.lsn = (List.range done.length).map fun i ↦ wrap64 (old + (i + 1))
  distinct : done.length ≤ 2 ^ 64 → (db.records.map LogRecord.lsn).Nodup
  replays : replay db.records = db.value

section Log

theorem Modifies.logged {call : OperationCall} (h : Modifies call) : Logged call.trans :=
  h.elim .inl fun hdelete ↦ .inr (.inr hdelete)

theorem writeLog_logs {H : Type} {db db' : Database H} {trans : Transaction} {lsn : ℕ}
    (hlogged : Logged trans) (h : db.writeLog trans = .ok (db', lsn)) :
    db'.records = db.records ++ [recordOf db.walLogger.lsn trans] ∧
      db'.walLogger.lsn = wrap64 (db.walLogger.lsn + 1) ∧ lsn = wrap64 (db.walLogger.lsn + 1) := by
  obtain ⟨⟨walLogger, lsn'⟩, hwrite, h⟩ := bind_eq_ok.mp h
  have hrecord := toWalRecord_of_logged db.walLogger hlogged
  rw [Wal.writeLog, hrecord] at hwrite
  obtain ⟨file, -, hwrite⟩ := bind_eq_ok.mp hwrite
  have hresult := Prod.mk.inj (Except.ok.inj h)
  have hwritten := Prod.mk.inj (Except.ok.inj hwrite)
  rw [← hresult.1, ← hwritten.1, hrecord, ← hresult.2, ← hwritten.2]
  exact ⟨rfl, rfl, rfl⟩

theorem recordsOf_lsns (old : ℕ) (done : List Transaction) :
    (recordsOf old done).map LogRecord.lsn =
      (List.range done.length).map fun i ↦ wrap64 (old + (i + 1)) := by
  induction done generalizing old with
  | nil => rfl
  | cons trans rest ih =>
    have hnext (i : ℕ) : wrap64 (wrap64 (old + 1) + (i + 1)) = wrap64 (old + (i + 1 + 1)) := by
      unfold wrap64
      omega
    rw [recordsOf, List.map_cons, ih, List.length_cons, List.range_succ_eq_map, List.map_cons,
      List.map_map]
    simp only [hnext]
    rfl

theorem nodup_lsns (old count : ℕ) (h : count ≤ 2 ^ 64) :
    ((List.range count).map fun i ↦ wrap64 (old + (i + 1))).Nodup := by
  refine List.Nodup.map_on ?_ List.nodup_range
  intro i hi j hj heq
  rw [List.mem_range] at hi hj
  unfold wrap64 at heq
  omega

end Log

section Slots

variable {s s' : Storage}

theorem eq_singleton {α : Type} {v : BoundedList α} (hcapacity : v.capacity = 1) {index : ℕ} {a : α}
    (h : v.contents[index]? = some a) : index = 0 ∧ v.contents = [a] := by
  have hfits := v.fits
  obtain ⟨hlt, ha⟩ := List.getElem?_eq_some_iff.mp h
  obtain ⟨b, hb⟩ := List.length_eq_one_iff.mp (show v.contents.length = 1 by omega)
  have hindex : index = 0 := by omega
  rw [hb, hindex, List.getElem?_cons_zero, Option.some.injEq] at h
  rw [hb, h]
  exact ⟨hindex, rfl⟩

/-- A vector of the source has one slot, and it stays the only one. -/
theorem add_source {α : Type} {v v' : BoundedList α} {a : α} (hcapacity : v.capacity = 1)
    (h : v.add .source a = .ok v') : v.contents = [] ∧ v'.contents = [a] ∧ v'.capacity = 1 := by
  obtain ⟨hroom, hcontents, hnext⟩ := BoundedList.add_eq_ok.mp h
  rw [hcapacity] at hroom hnext
  have hempty : v.contents = [] := by
    rw [← List.length_eq_zero_iff]
    have hgrow : Growth.source.grow 1 = 1 := Vector.source_grow_one
    rw [Growth.Room, hgrow] at hroom
    omega
  rw [hempty, List.length_nil] at hnext
  rw [hempty, List.nil_append] at hcontents
  exact ⟨hempty, hcontents, hnext⟩

structure SlotHeader (header : PageHeader) : Prop where
  pageId : header.pageId = 0
  location : header.location = .inMemory
  capacity : header.keys.capacity = 1
  offset_lt : header.offsetBytes < 2 ^ 16

/-- There is room for one page, which is in memory, and for one key in it. -/
structure Slots (s : Storage) : Prop where
  capacity : s.arena.headers.capacity = 1
  headers : ∀ header ∈ s.headers, SlotHeader header

theorem Slots.of_singleton {header : PageHeader} (hcapacity : s.arena.headers.capacity = 1)
    (hheaders : s.headers = [header]) (h : SlotHeader header) : Slots s := by
  refine ⟨hcapacity, ?_⟩
  rw [hheaders]
  exact List.forall_mem_singleton.mpr h

/-- Without a page there is none to evict. -/
theorem arenaGetNextPage_disk {arenaId : ℕ} (hempty : s.headers = [])
    (h : arenaGetNextPage s = .ok (s', arenaId)) : s'.disk = s.disk := by
  unfold arenaGetNextPage at h
  by_cases hroom : s.arena.uploadedPages < s.arena.allocatedPages
  · rw [if_pos hroom, Except.ok.injEq, Prod.mk.injEq] at h
    rw [← h.1]
  · rw [if_neg hroom] at h
    obtain ⟨⟨lru, lr⟩, -, h⟩ := bind_eq_ok.mp h
    obtain ⟨header, hheader, -⟩ := bind_eq_ok.mp h
    have hhere := header_eq_ok.mp hheader
    rw [hempty] at hhere
    cases hhere

/-- A new page is the first one. -/
theorem headersNewPage_slots {index : ℕ} (hslots : Slots s)
    (h : headersNewPage .source s = .ok (s', index)) :
    s.headers = [] ∧ index = 0 ∧ Slots s' ∧ s'.metas = s.metas ∧ s'.disk = s.disk ∧
      ∀ header ∈ s'.headers, header.state = .dirty := by
  unfold headersNewPage at h
  obtain ⟨⟨s1, arenaId⟩, hnext, h⟩ := bind_eq_ok.mp h
  obtain ⟨headers, hadd, h⟩ := bind_eq_ok.mp h
  have hsame := (arenaGetNextPage_shape hnext).1
  rw [hsame.headers] at hadd
  obtain ⟨hempty, hcontents, hcapacity⟩ := add_source hslots.capacity hadd
  have hzero : s.arena.headers.contents.length = 0 := List.length_eq_zero_iff.mpr hempty
  have hresult := Prod.mk.inj (Except.ok.inj h)
  have hdisk := arenaGetNextPage_disk hempty hnext
  rw [← hresult.1, ← hresult.2]
  refine ⟨hempty, hzero, .of_singleton hcapacity hcontents ?_, hsame.metas, hdisk, ?_⟩
  · exact ⟨hzero, rfl, Vector.source_initial pageHeaderKeysInitCount, Nat.two_pow_pos 16⟩
  · intro header hheader
    have hheader' : header ∈ headers.contents := hheader
    rw [hcontents, List.mem_singleton] at hheader'
    rw [hheader']

theorem searchPage_prefered {size index : ℕ} {header : PageHeader}
    (h : searchPage size [header] 0 none = .ok (.prefered index)) : header.keys.contents ≠ [] := by
  intro hempty
  rw [searchPage] at h
  by_cases hfits : size ≤ header.freeBytes
  · rw [if_pos hfits] at h
    cases h
  · rw [if_neg hfits, PageHeader.fragmentated, hempty] at h
    cases h

/-- A value for which there is a slot goes into the only page, which had no key. -/
theorem headersAllocPage_slots {size index : ℕ} {header : PageHeader} {key : PageHeaderKey}
    {keys : BoundedList PageHeaderKey} (hslots : Slots s)
    (h : headersAllocPage .source s size = .ok (s', index)) (hhere : s'.headers[index]? = some header)
    (hadd : header.keys.add .source key = .ok keys) :
    (∀ x ∈ s.headers, x.keys.contents = []) ∧ index = 0 ∧ Slots s' ∧ s'.metas = s.metas ∧
      s'.disk = s.disk ∧ (header.state = .dirty ∨ header ∈ s.headers) := by
  have hshape := headersAllocPage_shape h
  cases hshape with
  | fits hsearch hsame =>
    rw [hsame] at hhere ⊢
    obtain ⟨hindex, hheaders⟩ := eq_singleton hslots.capacity hhere
    have hheader := hslots.headers header (List.mem_of_getElem? hhere)
    refine ⟨?_, hindex, hslots, rfl, rfl, .inr (List.mem_of_getElem? hhere)⟩
    rw [Storage.headers, hheaders]
    exact List.forall_mem_singleton.mpr (add_source hheader.capacity hadd).1
  | prefered hsearch old new hmoved =>
    exfalso
    obtain ⟨hindex, hheaders⟩ := eq_singleton hslots.capacity hmoved.here
    have hold := hslots.headers old (List.mem_of_getElem? hmoved.here)
    rw [Storage.headers, hheaders] at hsearch
    rw [hmoved.headers, Storage.headers, hheaders, hindex, List.set_cons_zero,
      List.getElem?_cons_zero, Option.some.injEq] at hhere
    rw [← hhere] at hadd
    have hempty := (add_source (hmoved.capacity.trans hold.capacity) hadd).1
    have hpointers := hmoved.pointers
    rw [hempty, List.map_nil, eq_comm, List.map_eq_nil_iff] at hpointers
    exact searchPage_prefered hsearch hpointers
  | noPage hsearch new hnew =>
    rw [headersAllocPage, hsearch] at h
    obtain ⟨hempty, hindex, hslots', hmetas, hdisk, hdirty⟩ := headersNewPage_slots hslots h
    refine ⟨?_, hindex, hslots', hmetas, hdisk, .inl (hdirty header (List.mem_of_getElem? hhere))⟩
    rw [hempty]
    exact fun x hx ↦ absurd hx List.not_mem_nil

theorem readValue_congr {arena arena' : Arena} (hpages : arena'.pages = arena.pages)
    (hallocated : arena'.allocatedPages = arena.allocatedPages) (address : ℕ) :
    arena'.readValue address = arena.readValue address := by
  obtain ⟨allocated, uploaded, headers, pages⟩ := arena
  obtain ⟨allocated', uploaded', headers', pages'⟩ := arena'
  obtain rfl : pages' = pages := hpages
  obtain rfl : allocated' = allocated := hallocated
  rfl

/-- What was written is read. -/
theorem readValue_store {arena : Arena} {address : ℕ} {value : Str}
    (howns : arena.Owns address (record value.bytes).length) :
    ({ arena with pages := arena.pages.store address (record value.bytes) } : Arena).readValue
      address = .ok value := by
  obtain ⟨hsize, hbytes⟩ := record_store arena.pages address value.size_lt
  have hread : leValue ((arena.pages.store address (record value.bytes)).load address 2) =
      value.bytes.length := hsize
  have howns' : arena.Owns address
      (2 + leValue ((arena.pages.store address (record value.bytes)).load address 2)) := by
    rwa [hread, ← length_record]
  unfold Arena.readValue
  refine (if_pos howns').trans (congrArg Except.ok (Str.ext ?_))
  exact hbytes

/-- The only key of the only page has a value. -/
structure HoldsOne (s : Storage) (pointer : ℕ) (value : Str) (header : PageHeader)
    (offset : ℕ) (keyMeta : KeyMeta) : Prop where
  slots : Slots s
  headers : s.headers = [header]
  keys : header.keys.contents = [⟨offset, pointer⟩]
  named : s.metas[pointer]? = some keyMeta
  page : keyMeta.page = 0
  headerKeyId : keyMeta.headerKeyId = 0
  offset_lt : offset < 2 ^ 16
  read : s.arena.readValue (pageStart header.arenaId + offset) = .ok value

/-- No page has a key. -/
structure HoldsNone (s : Storage) : Prop where
  slots : Slots s
  keys : ∀ header ∈ s.headers, header.keys.contents = []

/-- The only page has an LSN and a state. -/
def Stamped (s : Storage) (lsn : ℕ) (state : PageState) : Prop :=
  ∃ header, s.headers = [header] ∧ header.pLSN = lsn ∧ header.state = state

theorem pageValueSet_slots {value : Str} {pointer index : ℕ} (hslots : Slots s)
    (h : pageValueSet .source s value pointer = .ok (s', index)) :
    HoldsNone s ∧ s'.disk = s.disk ∧ ∃ header offset keyMeta,
      HoldsOne s' pointer value header offset keyMeta ∧
        (header.state = .dirty ∨ ∃ x ∈ s.headers, header.state = x.state) := by
  unfold pageValueSet at h
  obtain ⟨⟨s1, index'⟩, halloc, h⟩ := bind_eq_ok.mp h
  obtain ⟨s2, hplace, h⟩ := bind_eq_ok.mp h
  have hresult := Prod.mk.inj (Except.ok.inj h)
  obtain ⟨header, keys, keyMeta, hhere, hadd, hmeta, howns, hplaced⟩ := placeValue_eq_ok.mp hplace
  obtain ⟨hnone, hindex, hslots', hmetas, hdisk, hstate⟩ :=
    headersAllocPage_slots hslots halloc hhere hadd
  have hheaders := (eq_singleton hslots'.capacity hhere).2
  have hheader := hslots'.headers header (List.mem_of_getElem? hhere)
  obtain ⟨-, hkeys, hcapacity⟩ := add_source hheader.capacity hadd
  have hoffset : wrap16 header.offsetBytes = header.offsetBytes := Nat.mod_eq_of_lt hheader.offset_lt
  have hlt : pointer < s1.metas.length := (List.getElem?_eq_some_iff.mp hmeta).1
  obtain ⟨header', hheader'⟩ : ∃ header', header' = { header with
      location := .inMemory
      keys := keys
      offsetBytes := wrap16 (header.offsetBytes + (value.size + 2)) } := ⟨_, rfl⟩
  have hheaders' : s2.headers = [header'] := by
    rw [hplaced, hheader']
    change s1.arena.headers.contents.set index' _ = _
    rw [hheaders, hindex, List.set_cons_zero]
  rw [← hresult.1]
  refine ⟨⟨hslots, hnone⟩, ?_, header', header.offsetBytes, { keyMeta with
    headerKeyId := wrap16 (keys.contents.length - 1), page := header.pageId },
    ⟨.of_singleton ?_ hheaders' ?_, hheaders', ?_, ?_, hheader.pageId, ?_, hheader.offset_lt, ?_⟩,
    ?_⟩
  · rw [hplaced]
    exact hdisk
  · rw [hplaced]
    exact hslots'.capacity
  · rw [hheader']
    exact ⟨hheader.pageId, rfl, hcapacity, Nat.mod_lt _ (Nat.two_pow_pos 16)⟩
  · rw [hheader', ← hoffset]
    exact hkeys
  · rw [hplaced]
    exact List.getElem?_set_self hlt
  · rw [hkeys]
    rfl
  · rw [hheader', hplaced, ← readValue_store howns]
    exact readValue_congr rfl rfl _
  · rw [hheader']
    exact hstate.imp_right fun hmem ↦ ⟨header, hmem, rfl⟩

theorem updateLSN_disk {index lsn : ℕ} (h : updateLSN s index lsn = .ok s') : s'.disk = s.disk := by
  obtain ⟨header, -, h⟩ := bind_eq_ok.mp h
  rw [← Except.ok.inj h]
  rfl

theorem HoldsOne.updateLSN {pointer offset index lsn : ℕ} {value : Str} {header : PageHeader}
    {keyMeta : KeyMeta} (h : HoldsOne s pointer value header offset keyMeta)
    (hlsn : updateLSN s index lsn = .ok s') :
    HoldsOne s' pointer value { header with pLSN := lsn } offset keyMeta := by
  obtain ⟨found, hfound, hlsn⟩ := bind_eq_ok.mp hlsn
  obtain ⟨hindex, hheaders⟩ := eq_singleton h.slots.capacity (header_eq_ok.mp hfound)
  have hsame : header = found := List.singleton_inj.mp (h.headers.symm.trans hheaders)
  have hheader := h.slots.headers header (h.headers ▸ List.mem_singleton_self _)
  have hheaders' : s'.headers = [{ header with pLSN := lsn }] := by
    rw [← Except.ok.inj hlsn, hsame]
    change s.arena.headers.contents.set index _ = _
    rw [hheaders, hindex, List.set_cons_zero]
  have hresult := Except.ok.inj hlsn
  refine ⟨.of_singleton ?_ hheaders' ⟨hheader.pageId, hheader.location, hheader.capacity,
    hheader.offset_lt⟩, hheaders', h.keys, ?_, h.page, h.headerKeyId, h.offset_lt, ?_⟩
  · rw [← hresult]
    exact h.slots.capacity
  · rw [← hresult]
    exact h.named
  · rw [← hresult, ← h.read]
    exact readValue_congr rfl rfl _

theorem HoldsNone.updateLSN {index lsn : ℕ} (h : HoldsNone s)
    (hlsn : updateLSN s index lsn = .ok s') :
    HoldsNone s' ∧ ∃ header ∈ s.headers, Stamped s' lsn header.state := by
  obtain ⟨header, hheader, hlsn⟩ := bind_eq_ok.mp hlsn
  obtain ⟨hindex, hheaders⟩ := eq_singleton h.slots.capacity (header_eq_ok.mp hheader)
  have hmem : header ∈ s.headers := List.mem_of_getElem? (header_eq_ok.mp hheader)
  have hslot := h.slots.headers header hmem
  have hheaders' : s'.headers = [{ header with pLSN := lsn }] := by
    rw [← Except.ok.inj hlsn]
    change s.arena.headers.contents.set index _ = _
    rw [hheaders, hindex, List.set_cons_zero]
  refine ⟨⟨.of_singleton ?_ hheaders' ⟨hslot.pageId, hslot.location, hslot.capacity,
    hslot.offset_lt⟩, ?_⟩, header, hmem, _, hheaders', rfl, rfl⟩
  · rw [← Except.ok.inj hlsn]
    exact h.slots.capacity
  · rw [hheaders']
    exact List.forall_mem_singleton.mpr (h.keys header hmem)

/-- A new name for the meta of the key. -/
theorem HoldsOne.named_again {pointer offset : ℕ} {value key : Str} {header : PageHeader}
    {keyMeta : KeyMeta} (h : HoldsOne s pointer value header offset keyMeta)
    (hname : s.modifyMeta pointer (fun keyMeta ↦ { keyMeta with weakKey := some key }) = .ok s') :
    HoldsOne s' pointer value header offset { keyMeta with weakKey := some key } := by
  obtain ⟨found, hfound, rfl⟩ := modifyMeta_eq_ok hname
  obtain rfl : keyMeta = found := Option.some.inj (h.named.symm.trans hfound)
  have hlt : pointer < s.metas.length := (List.getElem?_eq_some_iff.mp h.named).1
  exact ⟨⟨h.slots.capacity, h.slots.headers⟩, h.headers, h.keys, List.getElem?_set_self hlt, h.page,
    h.headerKeyId, h.offset_lt, h.read⟩

theorem HoldsOne.warm {pointer offset : ℕ} {value : Str} {header : PageHeader} {keyMeta : KeyMeta}
    (h : HoldsOne s pointer value header offset keyMeta) : header.location = .inMemory ∧
      warmHeader s 0 = .ok (s, header) := by
  have hheader := h.slots.headers header (h.headers ▸ List.mem_singleton_self _)
  refine ⟨hheader.location, warmHeader_inMemory ?_ hheader.location⟩
  rw [h.headers, List.getElem?_cons_zero]

theorem HoldsOne.pageValueGet {pointer offset : ℕ} {value : Str} {header : PageHeader}
    {keyMeta : KeyMeta} (h : HoldsOne s pointer value header offset keyMeta) :
    pageValueGet s keyMeta = .ok (s, some (0, value)) := by
  obtain ⟨hmemory, hwarm⟩ := h.warm
  simp only [Pages.pageValueGet, h.page, h.headerKeyId, hwarm, ok_bind, if_pos hmemory, h.keys,
    List.getElem?_cons_zero, h.read, pure_eq_ok]

theorem delete_source {α : Type} {v : BoundedList α} {a : α} (hcapacity : v.capacity = 1)
    (h : v.contents = [a]) : (v.delete 0).contents = [] ∧ (v.delete 0).capacity = 1 := by
  unfold BoundedList.delete
  simp [h, hcapacity]

/-- The removal of the only key. -/
theorem HoldsOne.pageValueUnset {pointer offset : ℕ} {value : Str} {header : PageHeader}
    {keyMeta key : KeyMeta} {result : Option (ℕ × Str)}
    (h : HoldsOne s pointer value header offset keyMeta) (hpage : key.page = 0)
    (hkey : key.headerKeyId = 0) (hunset : pageValueUnset s key = .ok (s', result)) :
    HoldsNone s' ∧ result = some (0, value) ∧ s'.disk = s.disk ∧
      ∀ header ∈ s'.headers, header.state = .dirty := by
  obtain ⟨hmemory, hwarm⟩ := h.warm
  have hheader := h.slots.headers header (h.headers ▸ List.mem_singleton_self _)
  obtain ⟨hkeys, hcapacity⟩ := delete_source hheader.capacity h.keys
  simp only [Pages.pageValueUnset, hpage, hkey, hwarm, ok_bind, if_pos hmemory, h.keys,
    List.getElem?_cons_zero, Option.elim_some, h.read] at hunset
  obtain ⟨metas, -, hunset⟩ := bind_eq_ok.mp hunset
  have hresult := Prod.mk.inj (Except.ok.inj hunset)
  obtain ⟨header', hheader'⟩ : ∃ header', header' = { header with
      keys := header.keys.delete 0
      state := .dirty
      fragmentatedBytes := wrap16 (header.fragmentatedBytes + value.size) } := ⟨_, rfl⟩
  have hheaders' : s'.headers = [header'] := by
    rw [← hresult.1, hheader']
    change s.headers.set 0 _ = _
    rw [h.headers, List.set_cons_zero]
  refine ⟨⟨.of_singleton ?_ hheaders' ?_, ?_⟩, hresult.2.symm, ?_, ?_⟩
  · rw [← hresult.1]
    exact h.slots.capacity
  · rw [hheader']
    exact ⟨hheader.pageId, hheader.location, hcapacity, hheader.offset_lt⟩
  · rw [hheaders', hheader']
    exact List.forall_mem_singleton.mpr hkeys
  · rw [← hresult.1]
    rfl
  · rw [hheaders', hheader']
    exact List.forall_mem_singleton.mpr rfl

end Slots

section Store

variable {db db' : Database (Str → Option ℕ)} {d : Str → Option Str} {call : OperationCall}
  {result : Option ProtoReply}

/-- The store is empty, or it has the value of one key. -/
inductive StoreIs (db : Database (Str → Option ℕ)) : (Str → Option Str) → Prop
  | empty (hnone : HoldsNone db.storage) (hhashmap : db.hashmap = fun _ ↦ none) :
    StoreIs db fun _ ↦ none
  | bound (key value : Str) (pointer : ℕ) (header : PageHeader) (offset : ℕ) (keyMeta : KeyMeta)
    (hone : HoldsOne db.storage pointer value header offset keyMeta)
    (hweak : keyMeta.weakKey = some key)
    (hhashmap : db.hashmap = Function.update (fun _ ↦ none) key (some pointer)) :
    StoreIs db (Function.update (fun _ ↦ none) key (some value))

theorem StoreIs.slots (h : StoreIs db d) : Slots db.storage := by
  cases h with
  | empty hnone => exact hnone.slots
  | bound _ _ _ _ _ _ hone => exact hone.slots

theorem StoreIs.value (h : StoreIs db d) : db.value = d := by
  funext key
  cases h with
  | empty hnone hhashmap => rw [Database.value, hhashmap, Option.bind_eq_bind, Option.bind_none]
  | bound key' value pointer header offset keyMeta hone hweak hhashmap =>
    rw [Database.value, hhashmap]
    by_cases hkey : key = key'
    · rw [hkey, Function.update_self, Function.update_self]
      simp only [Option.bind_eq_bind, Option.bind_some, hone.named, hone.pageValueGet]
      rfl
    · rw [Function.update_of_ne hkey, Function.update_of_ne hkey]
      rfl

/-- The end of a step: it is a modification that the log has a record of, or it has left the
store and the log as they are. -/
inductive StepEnds (db db' : Database (Str → Option ℕ)) (d : Str → Option Str)
    (call : OperationCall) (result : Option ProtoReply) : Prop
  | keeps (hnot : ¬ (Modifies call ∧ repliedOk result = true)) (hsame : db' = db)
  | logs (hmodifies : Modifies call ∧ repliedOk result = true)
    (hstore : StoreIs db' (applyRecord d (recordOf db.walLogger.lsn call.trans)))
    (hrecords : db'.records = db.records ++ [recordOf db.walLogger.lsn call.trans])
    (hlsn : db'.walLogger.lsn = wrap64 (db.walLogger.lsn + 1))
    (hkeys : ∀ key, key ≠ call.trans.msg.key → applyRecord d (recordOf db.walLogger.lsn call.trans)
      key = none)
    (hdisk : db'.storage.disk = db.storage.disk)
    (hstamped : ∃ state, Stamped db'.storage (wrap64 (db.walLogger.lsn + 1)) state ∧
      (state = .dirty ∨ ∃ header ∈ db.storage.headers, state = header.state))

/-- A key that is found is the only one. -/
theorem StoreIs.found (h : StoreIs db d) {key : Str} {pointer : ℕ}
    (hfound : db.hashmap key = some pointer) : ∃ value header offset keyMeta,
      HoldsOne db.storage pointer value header offset keyMeta ∧
        db.hashmap = Function.update (fun _ ↦ none) key (some pointer) ∧
          d = Function.update (fun _ ↦ none) key (some value) := by
  cases h with
  | empty hnone hhashmap =>
    rw [hhashmap] at hfound
    cases hfound
  | bound key' value pointer' header offset keyMeta hone hweak hhashmap =>
    rw [hhashmap] at hfound
    by_cases hkey : key = key'
    · rw [hkey, Function.update_self, Option.some.injEq] at hfound
      rw [hkey, ← hfound]
      exact ⟨value, header, offset, keyMeta, hone, hhashmap, rfl⟩
    · rw [Function.update_of_ne hkey] at hfound
      cases hfound

theorem loadMeta_eq {s : Storage} {pointer : ℕ} {keyMeta found : KeyMeta}
    (h : s.metas[pointer]? = some keyMeta) (hload : s.loadMeta pointer = .ok found) :
    found = keyMeta := by
  have hfound : s.metas[pointer]? = some found := elim_eq_ok.mp hload
  exact Option.some.inj (hfound.symm.trans h)

theorem operationSelect_same (h : StoreIs db d)
    (hstep : operationSelect correctCalls db call.trans call.reply = .ok (db', result)) :
    db' = db := by
  rcases operationSelect_shape hstep with hsame | ⟨pointer, found, s, value, hfound, hload, hget, hdb⟩
  · exact hsame
  · obtain ⟨value', header, offset, keyMeta, hone, -, -⟩ := h.found hfound
    rw [loadMeta_eq hone.named hload, hone.pageValueGet] at hget
    rw [hdb, ← (Prod.mk.inj (Except.ok.inj hget)).1]

theorem StepEnds.of_not_ok (hreply : repliedOk result = false) (hsame : db' = db) :
    StepEnds db db' d call result := by
  refine .keeps (fun hok ↦ ?_) hsame
  rw [hreply] at hok
  cases hok.2

theorem operationDelete_ends (h : StoreIs db d) (hcmd : call.trans.msg.cmd = Command.delete.code)
    (hstep : operationDelete correctCalls db call.trans call.reply = .ok (db', result)) :
    StepEnds db db' d call result := by
  rcases operationDelete_shape hstep with ⟨hsame, hreply⟩ | ⟨deletes, hreply⟩
  · exact .of_not_ok hreply hsame
  · obtain ⟨value, header, offset, keyMeta, hone, hhashmap, hd⟩ := h.found deletes.found
    have hload := loadMeta_eq hone.named deletes.load
    obtain ⟨hnone, hvalue, hdisk, hdirty⟩ := hone.pageValueUnset (by rw [hload]; exact hone.page)
      (by rw [hload]; exact hone.headerKeyId) deletes.unset
    have hmodifies : Modifies call := .inr hcmd
    obtain ⟨hrecords, hlsn, hstampLSN⟩ := writeLog_logs hmodifies.logged deletes.log
    have hok : repliedOk result = true := by
      rcases hreply with ⟨hmissing, -⟩ | ⟨-, hok⟩
      · rw [hvalue] at hmissing
        cases hmissing
      · exact hok
    have hnothing : applyRecord d (recordOf db.walLogger.lsn call.trans) = fun _ ↦ none := by
      have hdelete : ¬ Command.delete.code = Command.insert.code := by decide
      rw [applyRecord, recordOf, hcmd, if_neg hdelete, if_pos rfl, hd, Function.update_idem]
      exact Function.update_eq_self _ _
    rcases deletes.after with ⟨hmissing, -⟩ | ⟨index, bytes, -, hstamp⟩
    · rw [hvalue] at hmissing
      cases hmissing
    · obtain ⟨hnone', header', hheader', hstamped⟩ := hnone.updateLSN hstamp
      rw [hstampLSN] at hstamped
      refine .logs ⟨hmodifies, hok⟩ ?_ ?_ ?_ ?_ ?_
        ⟨header'.state, hstamped, .inl (hdirty header' hheader')⟩
      · rw [hnothing]
        refine .empty hnone' ?_
        rw [deletes.hashmap, hhashmap, Function.update_idem]
        exact Function.update_eq_self _ _
      · rw [deletes.records, hrecords]
      · rw [deletes.walLogger, hlsn]
      · intro key hkey
        rw [hnothing]
      · exact (updateLSN_disk hstamp).trans hdisk

theorem operationInsert_ends (h : StoreIs db d) (hcmd : call.trans.msg.cmd = Command.insert.code)
    (hstep : operationInsert correctCalls .source db call.trans call.reply = .ok (db', result)) :
    StepEnds db db' d call result := by
  rcases operationInsert_shape hstep with ⟨hsame, hreply⟩ | ⟨puts, hends⟩
  · exact .of_not_ok hreply hsame
  · have hslots : Slots db.storage.newMeta.1 := ⟨h.slots.capacity, h.slots.headers⟩
    obtain ⟨hnone, hdisk, header, offset, keyMeta, hone, hstate⟩ := pageValueSet_slots hslots puts.set
    have hnamed := (hone.updateLSN puts.stamp).named_again puts.name
    have hmodifies : Modifies call := .inl hcmd
    obtain ⟨hrecords, hlsn, hstampLSN⟩ := writeLog_logs hmodifies.logged puts.log
    have hdisk' : puts.named.disk = db.storage.disk := by
      obtain ⟨found, -, hnameEq⟩ := modifyMeta_eq_ok puts.name
      rw [hnameEq]
      exact (updateLSN_disk puts.stamp).trans hdisk
    cases hends with
    | refused hrefused => cases hrefused
    | taken hok hdb =>
      cases h with
      | bound key value pointer header' offset' keyMeta' hother =>
        have hkeys := hnone.keys header' (hother.headers ▸ List.mem_singleton_self _)
        rw [hother.keys] at hkeys
        cases hkeys
      | empty hempty hhashmap =>
        refine .logs ⟨hmodifies, hok⟩ ?_ ?_ ?_ ?_ ?_ ⟨header.state, ?_, hstate⟩
        · rw [applyRecord, recordOf, hcmd, if_pos rfl, hdb, hhashmap]
          exact .bound call.trans.msg.key call.trans.msg.val _ _ _ _ hnamed rfl rfl
        · rw [hdb]
          exact hrecords
        · rw [hdb]
          exact hlsn
        · intro key hkey
          rw [applyRecord, recordOf, hcmd, if_pos rfl, Function.update_of_ne hkey]
        · rw [hdb]
          exact hdisk'
        · rw [hdb, ← hstampLSN]
          exact ⟨_, hnamed.headers, rfl, rfl⟩

theorem not_modifies {code : UInt8} (hcmd : call.trans.msg.cmd = code)
    (hinsert : code ≠ Command.insert.code) (hdelete : code ≠ Command.delete.code) :
    ¬ (Modifies call ∧ repliedOk result = true) := by
  rw [Modifies, hcmd]
  exact fun hok ↦ hok.1.elim hinsert hdelete

theorem storeStep_ends (h : StoreIs db d) (hstep : storeStep db call = .ok (db', result)) :
    StepEnds db db' d call result := by
  unfold storeStep operationStep at hstep
  split at hstep
  · rename_i hpeek
    exact .keeps (not_modifies hpeek (by decide) (by decide)) (operationPeek_shape hstep)
  split at hstep
  · rename_i hselect
    exact .keeps (not_modifies hselect (by decide) (by decide)) (operationSelect_same h hstep)
  split at hstep
  · rename_i hinsert
    exact operationInsert_ends h hinsert hstep
  split at hstep
  · rename_i hdelete
    exact operationDelete_ends h hdelete hstep
  split at hstep
  · cases hstep
  · rename_i hinsert hdelete hupdate
    have hresult := Prod.mk.inj (Except.ok.inj hstep)
    exact .keeps (not_modifies rfl hinsert hdelete) hresult.1.symm

/-- A run appends the records of its modifications, and applying them to the values before gives
the values after. -/
theorem run_storeStep {calls : List OperationCall} {results : List (Option ProtoReply)}
    (h : StoreIs db d)
    (hrun : run storeStep db calls = .ok (db', results)) :
    db'.records = db.records ++ recordsOf db.walLogger.lsn (modifications calls results) ∧
      StoreIs db' ((recordsOf db.walLogger.lsn (modifications calls results)).foldl applyRecord d) := by
  induction calls generalizing db d results with
  | nil =>
    rw [run_nil, Except.ok.injEq, Prod.mk.injEq] at hrun
    rw [← hrun.1, ← hrun.2]
    exact ⟨(List.append_nil _).symm, h⟩
  | cons call rest ih =>
    obtain ⟨next, result, tail, hnext, hrest, rfl⟩ := run_cons_eq_ok.mp hrun
    cases storeStep_ends h hnext with
    | keeps hnot hsame =>
      rw [hsame] at hrest
      rw [modifications, if_neg hnot]
      exact ih h hrest
    | logs hmodifies hstore hrecords hlsn =>
      obtain ⟨htail, hfinal⟩ := ih hstore hrest
      rw [hrecords, hlsn, List.append_assoc, List.singleton_append] at htail
      rw [hlsn] at hfinal
      rw [modifications, if_pos hmodifies, recordsOf, List.foldl_cons]
      exact ⟨htail, hfinal⟩

theorem emptyStore_is (memory : Memory) (pages headers : ℕ) (disk : Disk) (walLogger : WalLogger) :
    StoreIs (emptyStore memory pages headers disk walLogger) fun _ ↦ none := by
  have hcapacity : Growth.source.initial headers = 1 := Vector.source_initial headers
  exact .empty ⟨⟨hcapacity, nofun⟩, nofun⟩ rfl

end Store

end FGDB.Operations
