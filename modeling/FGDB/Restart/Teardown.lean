import FGDB.Buddy.DestroyArena
import FGDB.Restart.Checkpoint

/-!
# The shutdown handler

The handler takes down what `db_start` has set up. The page headers go first, with the
metas of their keys; then the arena, which hands its block back to the pool; then the
hash map with its keys. Wherever it comes in a run, it frees the metas and the keys that
are live, each once, and leaves nothing in use in the pool.
-/

namespace FGDB.Restart

open Foundation Memory Records HashMap Pages Server Wal Operations
open FGDB.Vector (BoundedList Growth)
open FGDB.Buddy (BuddyInfo buddyNew destroyArena Kept Pool newPool)

/-- `free` of a block that was not freed before. -/
def freeOnce {α : Type} [DecidableEq α] (freed : List α) (block : α) : Outcome (List α) :=
  if block ∈ freed then .error .danglingPointer else .ok (freed ++ [block])

theorem foldlM_freeOnce {α : Type} [DecidableEq α] {blocks freed : List α}
    (h : (freed ++ blocks).Nodup) : blocks.foldlM freeOnce freed = .ok (freed ++ blocks) := by
  induction blocks generalizing freed with
  | nil => rw [List.foldlM_nil, List.append_nil, pure_eq_ok]
  | cons block rest ih =>
    have hnew : block ∉ freed := fun hmem ↦
      List.disjoint_of_nodup_append h hmem List.mem_cons_self
    rw [List.append_cons] at h
    rw [List.foldlM_cons, freeOnce, if_neg hnew, ok_bind, ih h, ← List.append_cons]

section Headers

variable {s s' : Storage} {d : Str → Option ℕ}

/-- The metas that the keys of the pages point to. -/
def metasOf (headers : List PageHeader) : List ℕ :=
  headers.flatMap fun header ↦ header.keys.contents.map PageHeaderKey.keyMetaPtr

/-- `destroy_header`, which frees the metas of the keys. -/
def releaseHeader (st : Storage × List ℕ) (pageId : ℕ) : Outcome (Storage × List ℕ) := do
  let s ← destroyHeader st.1 pageId
  let header ← s.header pageId
  let freed ← (header.keys.contents.map PageHeaderKey.keyMetaPtr).foldlM freeOnce st.2
  return (s, freed)

/-- `destroy_headers`. -/
def releaseHeaders (s : Storage) : Outcome (Storage × List ℕ) := do
  let s ← snapshot s
  (List.range s.arena.headers.contents.length).foldlM releaseHeader (s, [])

theorem metasOf_take_succ {headers : List PageHeader} {index : ℕ} (hlt : index < headers.length) :
    metasOf (headers.take (index + 1)) = metasOf (headers.take index) ++
      headers[index].keys.contents.map PageHeaderKey.keyMetaPtr := by
  rw [metasOf, ← List.take_append_getElem hlt, List.flatMap_append, List.flatMap_singleton,
    metasOf]

theorem nodup_metasOf_take {headers : List PageHeader} (h : (metasOf headers).Nodup) (count : ℕ) :
    (metasOf (headers.take count)).Nodup := by
  rw [← List.take_append_drop count headers, metasOf, List.flatMap_append] at h
  exact h.of_append_left

/-- After the snapshot the headers only free the metas, and no meta is listed twice. -/
theorem releaseHeaders_of_clean (h : snapshot s = .ok s')
    (hall : ∀ header ∈ s'.headers, header.state ≠ .dirty) (hnodup : (metasOf s'.headers).Nodup) :
    releaseHeaders s = .ok (s', metasOf s'.headers) := by
  have hstep (index : ℕ) (st : Storage × List ℕ) (hlt : index < s'.headers.length)
      (hst : st = (s', metasOf (s'.headers.take index))) : ∃ next,
        releaseHeader st index = .ok next ∧
          next = (s', metasOf (s'.headers.take (index + 1))) := by
    have hheader := List.getElem?_eq_getElem hlt
    have hclean := hall _ (List.mem_of_getElem? hheader)
    have hfresh := nodup_metasOf_take hnodup (index + 1)
    rw [metasOf_take_succ hlt] at hfresh ⊢
    refine ⟨_, ?_, rfl⟩
    rw [hst, releaseHeader, destroyHeader_of_clean hheader hclean, ok_bind,
      header_eq_ok.mpr hheader, ok_bind, foldlM_freeOnce hfresh]
    rfl
  obtain ⟨st, hloop, hst⟩ := @foldlM_range_ok _ releaseHeader
    (fun index st ↦ st = (s', metasOf (s'.headers.take index))) _ (s', []) rfl hstep
  rw [hst, List.take_length] at hloop
  rw [releaseHeaders, h, ok_bind]
  exact hloop

theorem mem_metasOf {pointer : ℕ} : pointer ∈ metasOf s.headers ↔ Listed s pointer := by
  rw [metasOf, List.mem_flatMap]
  constructor
  · rintro ⟨header, hheader, hmem⟩
    obtain ⟨page, hpage⟩ := List.getElem?_of_mem hheader
    exact ⟨page, pointersOf_eq hpage ▸ hmem⟩
  · rintro ⟨page, hmem⟩
    cases hpage : s.headers[page]? with
    | none =>
      rw [pointersOf, hpage] at hmem
      cases hmem
    | some header => exact ⟨header, List.mem_of_getElem? hpage, pointersOf_eq hpage ▸ hmem⟩

/-- The metas of the pages are the ones that the dictionary has. -/
theorem indexes_mem_metasOf (h : Indexes d s) {pointer : ℕ} :
    pointer ∈ metasOf s.headers ↔ ∃ key, d key = some pointer := by
  rw [mem_metasOf]
  constructor
  · intro hlisted
    obtain ⟨key, hkey⟩ := h.named pointer hlisted
    exact ⟨key, (h.bound key pointer).mpr ⟨hlisted, hkey⟩⟩
  · rintro ⟨key, hkey⟩
    exact ((h.bound key pointer).mp hkey).1

end Headers

section Arena

variable {memory pages : ℕ} {info : BuddyInfo} {block : ℕ × ℕ}

/-- The size of the pool in kilobytes. -/
def poolKb : ℕ := 8192

/-- The arena takes the left half of the pool. -/
theorem arena_granted (memory : ℕ) : ∃ info,
    Buddy.newArena memory (buddyNew poolKb) arenaPages =
      .ok (info, (1, 0), Buddy.alignUp memory) ∧ info.tree 2 = .free := by
  have hgranted : (Buddy.buddyAlloc (buddyNew poolKb) (Buddy.arenaBytes arenaPages)).toOption.map
      (fun result ↦ (result.2, result.1.tree 2)) = some (some (1, 0), .free) := by
    decide +kernel
  obtain ⟨⟨info, result⟩, halloc, hresult⟩ := exists_ok_of_map hgranted
  obtain ⟨rfl, htree⟩ := Prod.mk.inj hresult
  refine ⟨info, ?_, htree⟩
  rw [Buddy.newArena, halloc]
  rfl

/-- Wherever the pool lies, the arena is handed back as a whole, and nothing is left in use. -/
theorem arena_released (h : Buddy.newArena memory (buddyNew poolKb) arenaPages =
      .ok (info, block, pages)) :
    ∃ info', destroyArena memory info pages = .ok info' ∧ ∀ pos, info'.tree pos ≠ .used := by
  obtain ⟨halloc, hstart⟩ := Buddy.newArena_eq_ok h
  obtain ⟨info', hgranted, hbeside⟩ := arena_granted memory
  rw [h] at hgranted
  cases hgranted
  have hpos := Buddy.level_pos poolKb
  have hempty := Buddy.newPool_kept poolKb
  have hasked : Buddy.FreesLive (newPool poolKb) (.alloc (Buddy.arenaBytes arenaPages)) := trivial
  have hkept : Kept (buddyNew poolKb).level ⟨info, [(1, 0)]⟩ :=
    (hempty.moves hpos hasked (Buddy.poolStep_alloc halloc)).kept hempty
  have hbounds := Buddy.alignUp_bounds memory
  have hinside : Buddy.alignUp memory < memory + 2 ^ ((buddyNew poolKb).level - 1) * Buddy.kb := by
    have hlevel : (buddyNew poolKb).level = 14 := by decide +kernel
    rw [hlevel]
    unfold pageSize at hbounds
    unfold Buddy.kb
    omega
  obtain ⟨info', hdestroy, hmarked⟩ := (hkept.leadsBack_iff hpos List.mem_cons_self
    (hempty.granted hpos halloc).arena_chunks rfl).mpr
      (.inr ⟨hinside, .inr (.inl ⟨rfl, hbeside⟩)⟩)
  refine ⟨info', hdestroy, fun pos hused ↦ ?_⟩
  obtain ⟨hne, hbefore⟩ := (hmarked pos).mp hused
  obtain ⟨live, hlive, rfl⟩ := List.mem_map.mp ((hkept.marked pos).mp hbefore)
  exact hne (congrArg Prod.fst (List.mem_singleton.mp hlive))

end Arena

section Run

variable {growth : Growth}

/-- The globals of the process: `memory` and `buddy_info` of the pool, the pages of the arena, and
the database. -/
structure Globals where
  memory : ℕ
  buddyInfo : BuddyInfo
  pages : ℕ
  db : Database (VoidPtr ℕ)

/-- What the handler frees, the pool before it goes away, and the two files. -/
structure Released where
  metas : List ℕ
  keys : List Str
  buddyInfo : BuddyInfo
  vfd : List UInt8
  kfd : List UInt8

/-- `db_start` from its first line on, with a pool that starts at the address `pool`. -/
def setUp (growth : Growth) (memory : Memory) (pool : ℕ) (vfd kfd log : List UInt8) :
    Outcome Globals := do
  let (info, _, pages) ← Buddy.newArena pool (buddyNew poolKb) arenaPages
  let db ← dbStart hashmapCalls growth memory hashmapNew vfd kfd log
  return ⟨pool, info, pages, db⟩

/-- `buddy_destroy` and `destroy_lru_queue` free a block each, which no one else does. -/
def shutdownHandler (globals : Globals) : Outcome Released := do
  let (s, metas) ← releaseHeaders globals.db.storage
  let info ← destroyArena globals.memory globals.buddyInfo globals.pages
  let keys ← hashmapDelete globals.db.hashmap
  let (vfd, kfd) := destroyDisk s.disk
  return ⟨metas, keys, info, vfd, kfd⟩

/-- The events of a process, with the address of the next pool where there is a new start. -/
inductive GlobalsEvent
  | operation (call : OperationCall)
  | snapshot
  | restart (memory : Memory) (pool : ℕ)
  | kill (memory : Memory) (pool : ℕ)

def GlobalsEvent.toKill : GlobalsEvent → KillEvent
  | .operation call => .event (.operation call)
  | .snapshot => .event .snapshot
  | .restart memory _ => .event (.restart memory)
  | .kill memory _ => .kill memory

def globalsStep (growth : Growth) (globals : Globals) :
    GlobalsEvent → Outcome (Globals × Option Released)
  | .operation call => do
    let (db, _) ← operationStep hashmapCalls growth globals.db call
    return ({ globals with db := db }, none)
  | .snapshot => do
    let s ← snapshot globals.db.storage
    return ({ globals with db := { globals.db with storage := s } }, none)
  | .restart memory pool => do
    let released ← shutdownHandler globals
    let next ← setUp growth memory pool released.vfd released.kfd globals.db.walLogger.file.content
    return (next, some released)
  | .kill memory pool => do
    let next ← setUp growth memory pool globals.db.storage.disk.vfd.content
      globals.db.storage.disk.kfd.content globals.db.walLogger.file.content
    return (next, none)

/-- The handler frees the metas that the map has and the keys, each once, leaves nothing in use in
the pool, and writes the files of the next start. -/
structure Releases (globals : Globals) (d : Str → Option Str) (released : Released) : Prop where
  handled : shutdownHandler globals = .ok released
  files : ∃ s, destroyHeaders globals.db.storage = .ok s ∧
    destroyDisk s.disk = (released.vfd, released.kfd)
  metas_nodup : released.metas.Nodup
  metas : ∀ pointer, pointer ∈ released.metas ↔
    ∃ key, hashmapLookupKey globals.db.hashmap key = .ok (some pointer, .success)
  keys_nodup : released.keys.Nodup
  keys : ∀ key, key ∈ released.keys ↔ d key ≠ none
  pool : ∀ pos, released.buddyInfo.tree pos ≠ .used

/-- The arena is the only one who uses the pool. -/
structure Stands (globals : Globals) (d : Durable) : Prop where
  endures : Endures globals.db d
  arena : ∃ block, Buddy.newArena globals.memory (buddyNew poolKb) arenaPages =
    .ok (globals.buddyInfo, block, globals.pages)

variable {globals : Globals} {d : Durable}

theorem Stands.releases (h : Stands globals d) (happart : globals.db.storage.DirtyApart) :
    ∃ released, Releases globals d.live released := by
  obtain ⟨pointers, hholds, hlasts⟩ := h.endures.carries
  obtain ⟨s', hsnapshot, hof⟩ := snapshot_of hlasts.serves.valid hlasts.backed.clean happart
    hlasts.indexes (Lasts.fitting hlasts)
  have hindexes : Indexes pointers s' := hlasts.indexes.same hof.index
  have hnodup : (metasOf s'.headers).Nodup := indexes_nodup_pointers hindexes
  have hheaders : releaseHeaders globals.db.storage = .ok (s', metasOf s'.headers) :=
    releaseHeaders_of_clean hsnapshot hof.settled hnodup
  obtain ⟨block, harena⟩ := h.arena
  obtain ⟨info, hdestroy, hpool⟩ := arena_released harena
  have hroutes : MapRoutes pointers globals.db.hashmap := ⟨hholds, h.endures.routes⟩
  obtain ⟨keys, hdelete, hkeysNodup, hkeys⟩ := hroutes.hashmapDelete
  refine ⟨⟨metasOf s'.headers, keys, info, (destroyDisk s'.disk).1, (destroyDisk s'.disk).2⟩, ?_,
    ⟨s', destroyHeaders_of_clean hsnapshot hof.settled, rfl⟩, hnodup, fun pointer ↦ ?_, hkeysNodup,
    fun key ↦ ?_, hpool⟩
  · rw [shutdownHandler, hheaders, ok_bind]
    simp only [hdestroy, ok_bind, hdelete]
    rfl
  · rw [indexes_mem_metasOf hindexes]
    apply exists_congr
    intro key
    rw [hashmapLookupKey_holds hholds, Except.ok.injEq, Prod.mk.injEq, and_iff_left rfl]
  · rw [hkeys, ← present_hashmapCalls hholds]
    exact (h.endures.carries.serves key).1

theorem setUp_stands {memory : Memory} {vfd kfd log : List UInt8} {db : Database (VoidPtr ℕ)}
    (pool : ℕ)
    (hstart : dbStart hashmapCalls growth memory hashmapNew vfd kfd log = .ok db)
    (hendures : Endures db d) :
    ∃ next, setUp growth memory pool vfd kfd log = .ok next ∧ next.db = db ∧ Stands next d := by
  obtain ⟨info, hgranted, -⟩ := arena_granted pool
  refine ⟨⟨pool, info, Buddy.alignUp pool, db⟩, ?_, rfl, hendures, (1, 0), hgranted⟩
  rw [setUp, hgranted]
  simp only [ok_bind, hstart]
  rfl

/-- A new start from what the handler has written finds what the modelled restart finds. -/
theorem restart_stands {memory : Memory} (pool : ℕ) (h : Stands globals d)
    (hfits : EventFits growth globals.db (.restart memory)) : ∃ next released,
      globalsStep growth globals (.restart memory pool) = .ok (next, some released) ∧
        Stands next ⟨d.live, d.live⟩ := by
  obtain ⟨released, hreleases⟩ := h.releases hfits.1.apart
  obtain ⟨s, hdestroyed, hfiles⟩ := hreleases.files
  obtain ⟨db, hstep, hendures⟩ := restart_endures h.endures.carries hfits
  obtain ⟨db', hrestart, hdb⟩ := bind_eq_ok.mp hstep
  obtain rfl := (Prod.mk.inj (Except.ok.inj hdb)).1
  rw [restart, hdestroyed, ok_bind, hfiles] at hrestart
  obtain ⟨next, hnext, -, hstands⟩ := setUp_stands pool hrestart hendures
  refine ⟨next, released, ?_, hstands⟩
  rw [globalsStep, hreleases.handled, ok_bind, hnext]
  rfl

theorem globalsStep_stands {event : GlobalsEvent} (h : Stands globals d)
    (hevent : IsKillEvent event.toKill) (hfits : KillFits growth globals.db event.toKill) :
    ∃ next released, globalsStep growth globals event = .ok (next, released) ∧
      Stands next (killSpec d event.toKill).1 := by
  cases event with
  | operation call =>
    obtain ⟨db, hstep, hendures⟩ := operation_endures h.endures hevent hfits
    obtain ⟨⟨db', reply⟩, hoperation, hdb⟩ := bind_eq_ok.mp hstep
    obtain rfl := (Prod.mk.inj (Except.ok.inj hdb)).1
    refine ⟨{ globals with db := db' }, none, ?_, hendures, h.arena⟩
    rw [globalsStep, hoperation]
    rfl
  | snapshot =>
    obtain ⟨db, hstep, hendures⟩ :=
      snapshot_endures growth h.endures.carries h.endures.routes hfits
    obtain ⟨s, hsnapshot, hdb⟩ := bind_eq_ok.mp hstep
    obtain rfl := (Prod.mk.inj (Except.ok.inj hdb)).1
    refine ⟨{ globals with db := { globals.db with storage := s } }, none, ?_, hendures, h.arena⟩
    rw [globalsStep, hsnapshot]
    rfl
  | restart memory pool =>
    obtain ⟨next, released, hstep, hstands⟩ := restart_stands pool h hfits
    exact ⟨next, some released, hstep, hstands⟩
  | kill memory pool =>
    obtain ⟨db, hstep, hendures⟩ := kill_endures h.endures.checkpoint hfits
    obtain ⟨db', hstart, hdb⟩ := bind_eq_ok.mp hstep
    obtain rfl := (Prod.mk.inj (Except.ok.inj hdb)).1
    obtain ⟨next, hnext, -, hstands⟩ := setUp_stands pool hstart hendures
    refine ⟨next, none, ?_, hstands⟩
    rw [globalsStep, hnext]
    rfl

/-- Nothing faults, the database has exactly what is live or was recovered, and when the dirty
pages can be compacted in place the handler takes down all of it. -/
def TearsDown (growth : Growth) (start : Globals) (events : List GlobalsEvent) : Prop :=
  ∃ globals outputs, run (globalsStep growth) start events = .ok (globals, outputs) ∧
    (∀ key, storedValue hashmapCalls globals.db key =
      recoveredValues (events.map GlobalsEvent.toKill) key) ∧
    (globals.db.storage.DirtyApart → ∃ released,
      Releases globals (recoveredValues (events.map GlobalsEvent.toKill)) released)

/-- From a start without files, after every run of events that fit, wherever the pools lie, the
handler frees what is live, and everything once. -/
theorem tearsDown_of_killFits {memory : Memory} {pool : ℕ} {log : List UInt8} {start : Globals}
    (hstart : setUp growth memory pool [] [] log = .ok start) {events : List GlobalsEvent}
    (hevents : ∀ event ∈ events, IsKillEvent event.toKill)
    (hfits : EachStep (globalsStep growth)
      (fun globals event ↦ KillFits growth globals.db event.toKill) start events) :
    TearsDown growth start events := by
  have hstands : Stands start ⟨fun _ ↦ none, fun _ ↦ none⟩ := by
    have hempty := dbStart_empty growth memory log
    obtain ⟨next, hnext, -, hstands⟩ := setUp_stands pool hempty (start_endures hempty)
    rw [hstart] at hnext
    obtain rfl := Except.ok.inj hnext
    exact hstands
  have hstep (globals : Globals) (d : Durable) (event : GlobalsEvent) (h : Stands globals d)
      (hevent : IsKillEvent event.toKill ∧ KillFits growth globals.db event.toKill) :
      ∃ next released, globalsStep growth globals event = .ok (next, released) ∧
        True ∧ Stands next (killSpec d event.toKill).1 := by
    obtain ⟨next, released, hnext, hstands⟩ := globalsStep_stands h hevent.1 hevent.2
    exact ⟨next, released, hnext, trivial, hstands⟩
  obtain ⟨globals, outputs, hrun, -, hlast⟩ :=
    @run_related _ _ _ _ _ _ _ (fun d event ↦ killSpec d event.toKill) Stands (fun _ _ ↦ True) hstep
      _ _ _ hstands ((eachStep_of_forall hevents).and hfits)
  rw [runSpec_map] at hlast
  exact ⟨globals, outputs, hrun, fun key ↦ (hlast.endures.carries.serves key).2,
    fun happart ↦ hlast.releases happart⟩

/-- A key is inserted, the process is shut down and started again, and the handler comes once
more. -/
theorem tearsDown_one_key : ∃ start, setUp .source (fun _ ↦ 0) 4000 [] [] [] = .ok start ∧
    TearsDown .source start [.operation (letterCall .insert), .restart (fun _ ↦ 0) 5000] := by
  have hstored : (setUp .source (fun _ ↦ 0) 4000 [] [] [] >>= fun start ↦
      globalsStep .source start (.operation (letterCall .insert))).toOption.map (fun result ↦
        (result.1.db.storage.headers.map PageHeader.places, result.1.db.storage.disk.keysDumped,
          listedNames result.1.db.storage)) = some ([[0]], 0, [.ofByte 107]) := by
    decide +kernel
  have hempty := dbStart_empty .source (fun _ ↦ 0) []
  obtain ⟨start, hstart, hdb, -⟩ := setUp_stands 4000 hempty (start_endures hempty)
  rw [hstart, ok_bind] at hstored
  refine ⟨start, hstart, tearsDown_of_killFits hstart ?_ ⟨?_,
    fun next output hnext ↦ ⟨?_, fun _ _ _ ↦ trivial⟩⟩⟩
  · rw [List.forall_mem_cons, List.forall_mem_singleton]
    exact ⟨⟨by decide, .inr (.inr (.inl rfl))⟩, trivial⟩
  · have hfits : KillFits .source start.db (.event (.operation (letterCall .insert))) := by
      rw [hdb]
      exact letterInsert_fits
    exact hfits
  · rw [hnext] at hstored
    obtain ⟨hplaces, hrest⟩ := Prod.mk.inj (Option.some.inj hstored)
    obtain ⟨hdumped, hnames⟩ := Prod.mk.inj hrest
    refine ⟨savable_one_value hplaces hdumped, ?_⟩
    rw [hnames]
    exact ⟨fun _ _ _ ↦ ⟨trivial, fun hfull ↦ absurd hfull (by decide)⟩, fun _ _ _ ↦ trivial⟩

end Run

end FGDB.Restart
