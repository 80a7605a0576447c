import FGDB.Restart.Session

/-!
# The process is killed

A process that is killed leaves its files as they are, and the start does not read the
log. Operations do not write the files of the pages, so the next start finds the map of
the last snapshot or shutdown, and everything that was acknowledged since then is lost.
The start aborts when the count at the head of the key file, which only a shutdown
writes, is larger than the number of keys that the last snapshot has listed.
-/

namespace FGDB.Restart

open Foundation Memory Records HashMap Pages Server Wal Operations
open FGDB.Vector (BoundedList Growth)

section Files

variable {growth : Growth} {s s' t : Storage} {index : ℕ}

/-- The files of the pages are as they were. -/
structure SameFiles (s s' : Storage) : Prop where
  vfd : s'.disk.vfd.content = s.disk.vfd.content
  kfd : s'.disk.kfd.content = s.disk.kfd.content

theorem SameFiles.refl (s : Storage) : SameFiles s s := ⟨rfl, rfl⟩

theorem SameFiles.trans (h : SameFiles s t) (h' : SameFiles t s') : SameFiles s s' :=
  ⟨h'.vfd.trans h.vfd, h'.kfd.trans h.kfd⟩

theorem sameFiles_of_touches (h : Touches s s' index) : SameFiles s s' := by
  have hkfd := congrArg Disk.kfd h.disk
  exact ⟨h.content, congrArg File.content hkfd⟩

theorem updateLSN_sameFiles {lsn : ℕ} (h : updateLSN s index lsn = .ok s') : SameFiles s s' := by
  obtain ⟨header, -, h⟩ := bind_eq_ok.mp h
  rw [← Except.ok.inj h]
  exact ⟨rfl, rfl⟩

theorem modifyMeta_sameFiles {pointer : ℕ} {change : KeyMeta → KeyMeta}
    (h : s.modifyMeta pointer change = .ok s') : SameFiles s s' := by
  obtain ⟨keyMeta, -, rfl⟩ := modifyMeta_eq_ok h
  exact ⟨rfl, rfl⟩

variable {db db' : Database (Str → Option ℕ)} {call : OperationCall} {result : Option ProtoReply}

/-- As long as there is room for the values in the arena, no page is written by an operation. -/
theorem operationStep_sameFiles (hvalid : db.storage.Valid)
    (hputs : call.trans.msg.cmd = Command.insert.code → call.trans.msg.val.size ≠ 0 →
      db.hashmap call.trans.msg.key = none → PutsDirty growth db.storage call.trans.msg.val)
    (hstep : operationStep correctCalls growth db call = .ok (db', result)) :
    SameFiles db.storage db'.storage := by
  unfold operationStep at hstep
  split at hstep
  · rw [operationPeek_shape hstep]
    exact .refl _
  split at hstep
  · rcases operationSelect_shape hstep with rfl | ⟨pointer, keyMeta, storage, value, -, -, hget, rfl⟩
    · exact .refl _
    · obtain ⟨header', hwarm⟩ := pageValueGet_shape hget
      obtain ⟨header, hhere, -⟩ := warmHeader_shape hwarm
      obtain ⟨s, found, hwarm', heffect⟩ := warmHeader_effect hvalid hhere
      obtain ⟨rfl, rfl⟩ := Prod.mk.inj (Except.ok.inj (hwarm'.symm.trans hwarm))
      exact sameFiles_of_touches heffect.touches
  split at hstep
  · rename_i hcmd
    rcases operationInsert_shape hstep with ⟨rfl, -⟩ | ⟨puts, hends⟩
    · exact .refl _
    · have hdirty := hputs hcmd puts.value puts.absent
      obtain ⟨hvalid1, hfresh⟩ := hvalid.newMeta
      have hkeeps : KeepsClean db.storage.newMeta.1 (.set call.trans.msg.val call.trans.msg.key) :=
        hdirty.keeps call.trans.msg.key
      have heffect :=
        pageValueSet_effect hvalid1 hkeeps.2.1 hkeeps.2.2.1 hkeeps.1 hfresh puts.set
      have hnew : SameFiles db.storage db.storage.newMeta.1 := ⟨rfl, rfl⟩
      have hplaced := hnew.trans (sameFiles_of_touches heffect.touches)
      have hnamed := (hplaced.trans (updateLSN_sameFiles puts.stamp)).trans
        (modifyMeta_sameFiles puts.name)
      cases hends with
      | taken hresult hdb =>
        rw [hdb]
        exact hnamed
      | refused hrefused => cases hrefused
  split at hstep
  · rcases operationDelete_shape hstep with ⟨rfl, -⟩ | ⟨deletes, -⟩
    · exact .refl _
    · obtain ⟨pointer, hremoved⟩ := pageValueUnset_removes hvalid deletes.unset
      have hunset := sameFiles_of_touches hremoved.touches
      rcases deletes.after with ⟨-, hstorage⟩ | ⟨index, bytes, -, hstamp⟩
      · rw [hstorage]
        exact hunset
      · exact hunset.trans (updateLSN_sameFiles hstamp)
  split at hstep
  · cases hstep
  · obtain ⟨rfl, -⟩ := Prod.mk.inj (Except.ok.inj hstep)
    exact .refl _

end Files

section Listings

variable {vfd front : List UInt8} {listings : List PageListing}

/-- The pages that the start reads from the key file. -/
def fileListings (disk : Disk) : List PageListing :=
  match readListings disk.kfd.content (initDisk disk.vfd.content disk.kfd.content).pages with
  | .ok (_, listings) => listings
  | .error _ => []

theorem readListings_entries (hfront : front.length = keysStart)
    (hrange : ∀ listing ∈ listings, listing.InRange) :
    readListings (front ++ entriesBytes listings) listings.length =
      .ok (⟨front ++ entriesBytes listings, (front ++ entriesBytes listings).length⟩, listings) := by
  have hreload := reloadPages_encode collectPage collectKey listings hrange 0 front [] []
  rw [visitPages_collect, ok_bind, List.append_nil, List.append_nil, hfront] at hreload
  have hbytes : entriesBytes listings = listings.flatMap PageListing.encode := rfl
  rw [readListings, hbytes, hreload, ok_bind]
  simp only [List.reverse_reverse, pure_eq_ok]

/-- The clean pages of a store are the ones of its snapshot file. -/
theorem Lasts.filesOf {db : Database (Str → Option ℕ)} {d : Str → Option Str} (h : Lasts db d)
    (hclean : ∀ header ∈ db.storage.headers, header.state = .clean)
    (hfront : front.length = keysStart) :
    FilesOf db.storage db.storage.disk.vfd.content front := by
  obtain ⟨content, hcontent⟩ : ∃ content, db.storage.disk.vfd.content = content := ⟨_, rfl⟩
  refine ⟨hclean, hfront, fun kfd ↦ ?_, h.backed.length, fun _ ↦ rfl⟩
  have hlength := h.backed.length
  rw [hcontent] at hlength ⊢
  rw [listingsOf, List.length_map, initDisk]
  unfold pagePos arenaStart at hlength
  cases hcount : db.storage.headers.length with
  | zero =>
    rw [hcount] at hlength
    split
    · rfl
    · unfold arenaStart
      rw [Nat.div_eq_of_lt]
      unfold pageSize
      omega
  | succ last =>
    have hlast : last < db.storage.headers.length := by omega
    have hheader := List.getElem?_eq_getElem hlast
    have hfull := (h.on_disk hheader (hclean _ (List.mem_of_getElem? hheader))).1
    rw [hcontent] at hfull
    unfold pagePos arenaStart at hfull
    rw [hcount] at hlength
    have hexact : content.length = arenaStart + (last + 1) * pageSize :=
      Nat.le_antisymm hlength hfull
    have hne : content ≠ [] := by
      rintro rfl
      unfold arenaStart at hexact
      rw [List.length_nil] at hexact
      omega
    rw [if_neg hne, hexact, Nat.add_sub_cancel_left]
    exact Nat.mul_div_cancel _ (by decide)

end Listings

/-- What the next start finds in the files. -/
inductive Checkpoint (disk : Disk) (saved : Str → Option Str) : Prop
  | none (hvfd : disk.vfd.content = []) (hkfd : disk.kfd.content = [])
    (hsaved : saved = fun _ ↦ none)
  | files (db : Database (Str → Option ℕ)) (front : List UInt8) (hlasts : Lasts db saved)
    (hfiles : FilesOf db.storage disk.vfd.content front)
    (hkeys : disk.kfd.content = front ++ entriesBytes (listingsOf db.storage))

section Kill

variable {growth : Growth} {db db' : Database (VoidPtr ℕ)} {d saved : Str → Option Str}

/-- An event of the session, or the end of the process before its next event and a new start. -/
inductive KillEvent
  | event (event : Event)
  | kill (memory : Memory)

def killStep (growth : Growth) (db : Database (VoidPtr ℕ)) :
    KillEvent → Outcome (Database (VoidPtr ℕ) × Unit)
  | .event event => sessionStep growth db event
  | .kill memory => do
    let db ← dbStart hashmapCalls growth memory hashmapNew db.storage.disk.vfd.content
      db.storage.disk.kfd.content db.walLogger.file.content
    return (db, ())

/-- The map, and what is left of it when the process is killed. -/
structure Durable where
  live : Str → Option Str
  saved : Str → Option Str

/-- Snapshots and shutdowns save the map, and a new start after a kill goes back to it. -/
def killSpec (d : Durable) : KillEvent → Durable × Unit
  | .event (.operation call) => (⟨(mapStep d.live call).1, d.saved⟩, ())
  | .event .snapshot | .event (.restart _) => (⟨d.live, d.live⟩, ())
  | .kill _ => (⟨d.saved, d.saved⟩, ())

/-- The key file has as many keys as the last shutdown has counted, the vectors of the next start
have room for what it lists, and the hash map can take its keys. -/
structure Restartable (growth : Growth) (disk : Disk) : Prop where
  count : (initDisk disk.vfd.content disk.kfd.content).nkeys ≤ (entriesOf (fileListings disk)).length
  pages : Refills growth (fileListings disk).length
  keys : ∀ listing ∈ fileListings disk, Refills growth listing.keys.length
  names : InsertsSafe hashmapCalls InsertSafe hashmapNew 0
    ((entriesOf (fileListings disk)).map HashmapKey.key)

/-- An event fits as in a session. At a kill the files can be read again. -/
def KillFits (growth : Growth) (db : Database (VoidPtr ℕ)) : KillEvent → Prop
  | .event event => EventFits growth db event
  | .kill _ => Restartable growth db.storage.disk

def IsKillEvent : KillEvent → Prop
  | .event event => IsOperation event
  | .kill _ => True

/-- The database has the live map, and its files have the saved one. -/
structure Endures (db : Database (VoidPtr ℕ)) (d : Durable) : Prop where
  carries : Carries db d.live
  routes : Routes db.hashmap fun _ ↦ True
  checkpoint : Checkpoint db.storage.disk d.saved

theorem Checkpoint.sameFiles {s s' : Storage} (h : Checkpoint s.disk saved) (hsame : SameFiles s s') :
    Checkpoint s'.disk saved := by
  cases h with
  | none hvfd hkfd hsaved => exact .none (hsame.vfd.trans hvfd) (hsame.kfd.trans hkfd) hsaved
  | files db front hlasts hfiles hkeys =>
    exact .files db front hlasts (hsame.vfd.symm ▸ hfiles) (hsame.kfd.trans hkeys)

theorem StartsFrom.checkpoint {vfd front : List UInt8} {stored : Database (Str → Option ℕ)}
    (h : StartsFrom db d vfd (front ++ entriesBytes (listingsOf stored.storage)))
    (hlasts : Lasts stored saved) (hfiles : FilesOf stored.storage vfd front) :
    Checkpoint db.storage.disk saved :=
  .files stored front hlasts (h.vfd.symm ▸ hfiles) h.kfd

/-- Operations change what is live only. -/
theorem operation_endures {call : OperationCall} {e : Durable} (h : Endures db e)
    (hrequest : IsRequest call) (hfits : EventFits growth db (.operation call)) :
    ∃ db', sessionStep growth db (.operation call) = .ok (db', ()) ∧
      Endures db' ⟨(mapStep e.live call).1, e.saved⟩ := by
  obtain ⟨db', hfollows⟩ := operation_follows h.carries hrequest hfits
  obtain ⟨pointers, next, result, hlasts, hputs, hstep, hstorage, -⟩ := hfollows.pages
  have hsame := operationStep_sameFiles hlasts.serves.valid hputs hstep
  rw [← hstorage] at hsame
  exact ⟨db', hfollows.step, hfollows.carries, hfollows.routes h.routes,
    h.checkpoint.sameFiles hsame⟩

/-- A snapshot saves what is live. -/
theorem snapshot_endures (growth : Growth) (h : Carries db d)
    (hroutes : Routes db.hashmap fun _ ↦ True) (hfits : EventFits growth db .snapshot) :
    ∃ db', sessionStep growth db .snapshot = .ok (db', ()) ∧ Endures db' ⟨d, d⟩ := by
  obtain ⟨pointers, hholds, hlasts⟩ := h
  obtain ⟨s', hsnapshot, hof⟩ := snapshot_of hlasts.serves.valid hlasts.backed.clean hfits
    hlasts.indexes (Lasts.fitting hlasts)
  have hkept : Lasts { db.onMap pointers with storage := s' } d := hof.lasts hlasts
  obtain ⟨front, hfront, hcontent⟩ := hof.content
  have hsame : snapshot db.storage = .ok s' := hsnapshot
  refine ⟨{ db with storage := s' }, ?_, ⟨pointers, hholds, hkept⟩, hroutes, ?_⟩
  · rw [sessionStep, hsame]
    rfl
  · exact .files _ front hkept (hkept.filesOf hof.all hfront) hcontent

theorem restart_endures {memory : Memory} (h : Carries db d)
    (hfits : EventFits growth db (.restart memory)) :
    ∃ db', sessionStep growth db (.restart memory) = .ok (db', ()) ∧ Endures db' ⟨d, d⟩ := by
  obtain ⟨db', saved, vfd, front, hstep, hlasts, hfiles, hfrom⟩ := restart_starts h hfits
  exact ⟨db', hstep, hfrom.carries, hfrom.routes, hfrom.checkpoint hlasts hfiles⟩

/-- After a kill the saved map is live. -/
theorem kill_endures {memory : Memory} (h : Checkpoint db.storage.disk saved)
    (hfits : Restartable growth db.storage.disk) :
    ∃ db', killStep growth db (.kill memory) = .ok (db', ()) ∧ Endures db' ⟨saved, saved⟩ := by
  cases h with
  | none hvfd hkfd hsaved =>
    obtain ⟨start, hstart⟩ : ∃ start, emptyDatabase growth arenaPages memory 0 (initDisk [] [])
      (newWalLogger db.walLogger.file.content 0 0) = start := ⟨_, rfl⟩
    refine ⟨start, ?_, ?_, ?_, .none ?_ ?_ hsaved⟩
    · rw [killStep, hvfd, hkfd, dbStart_empty, hstart]
      rfl
    · rw [← hstart, hsaved]
      exact emptyDatabase_carries growth memory 0 _
    · rw [← hstart]
      exact hashmapNew_routes.routes
    · rw [← hstart]
      rfl
    · rw [← hstart]
      rfl
  | files stored front hlasts hfiles hkeys =>
    have hlistings : fileListings db.storage.disk = listingsOf stored.storage := by
      rw [fileListings, hkeys, hfiles.pages, readListings_entries hfiles.start hlasts.inRange]
    have hcount := hfits.count
    have hpages := hfits.pages
    have hvectors := hfits.keys
    have hnames := hfits.names
    rw [hlistings] at hcount hpages hvectors hnames
    rw [hkeys, initDisk_nkeys hfiles.start] at hcount
    obtain ⟨db', hstart, hfrom⟩ := hfiles.starts hlasts hcount hpages hvectors hnames
    refine ⟨db', ?_, hfrom.carries, hfrom.routes, hfrom.checkpoint hlasts hfiles⟩
    rw [killStep, hkeys, hstart]
    rfl

theorem killStep_endures {e : Durable} {event : KillEvent} (h : Endures db e)
    (hevent : IsKillEvent event) (hfits : KillFits growth db event) : ∃ db',
      killStep growth db event = .ok (db', (killSpec e event).2) ∧
        Endures db' (killSpec e event).1 := by
  cases event with
  | event event =>
    cases event with
    | operation call => exact operation_endures h hevent hfits
    | snapshot => exact snapshot_endures growth h.carries h.routes hfits
    | restart memory => exact restart_endures h.carries hfits
  | kill memory => exact kill_endures h.checkpoint hfits

theorem start_endures {memory : Memory} {log : List UInt8} {start : Database (VoidPtr ℕ)}
    (hstart : dbStart hashmapCalls growth memory hashmapNew [] [] log = .ok start) :
    Endures start ⟨fun _ ↦ none, fun _ ↦ none⟩ := by
  rw [← Except.ok.inj hstart]
  exact ⟨emptyDatabase_carries growth memory 0 _, hashmapNew_routes.routes, .none rfl rfl rfl⟩

/-- The map after a run of events. -/
def recoveredValues (events : List KillEvent) : Str → Option Str :=
  (runSpec killSpec ⟨fun _ ↦ none, fun _ ↦ none⟩ events).1.live

/-- Nothing faults, and the database has exactly what is live or was recovered. -/
def ServesRecovered (growth : Growth) (start : Database (VoidPtr ℕ)) (events : List KillEvent) :
    Prop :=
  ∃ db outputs, run (killStep growth) start events = .ok (db, outputs) ∧
    ∀ key, (Present hashmapCalls db key ↔ recoveredValues events key ≠ none) ∧
      storedValue hashmapCalls db key = recoveredValues events key

/-- From an empty database, with kills between any two events, the database has what was live at
the last snapshot or shutdown before the last kill and what the operations after it have done. -/
theorem servesRecovered_of_killFits {memory : Memory} {log : List UInt8}
    {start : Database (VoidPtr ℕ)}
    (hstart : dbStart hashmapCalls growth memory hashmapNew [] [] log = .ok start)
    {events : List KillEvent} (hevents : ∀ event ∈ events, IsKillEvent event)
    (hfits : EachStep (killStep growth) (KillFits growth) start events) :
    ServesRecovered growth start events := by
  have hstep (db : Database (VoidPtr ℕ)) (e : Durable) (event : KillEvent) (h : Endures db e)
      (hevent : IsKillEvent event ∧ KillFits growth db event) : ∃ db',
        killStep growth db event = .ok (db', (killSpec e event).2) ∧
          Endures db' (killSpec e event).1 :=
    killStep_endures h hevent.1 hevent.2
  obtain ⟨db, hrun, hendures⟩ :=
    run_simulates hstep (start_endures hstart) ((eachStep_of_forall hevents).and hfits)
  exact ⟨db, _, hrun, hendures.carries.serves⟩

/-- A key file that lists one key, and none was counted, can be read again. -/
theorem restartable_one_key {disk : Disk} {key : Str}
    (hcount : (initDisk disk.vfd.content disk.kfd.content).nkeys = 0)
    (hlistings : (fileListings disk).map (fun listing ↦ listing.keys.map HashmapKey.key) = [[key]]) :
    Restartable .source disk := by
  obtain ⟨listing, rest, hlist, hnames, hrest⟩ := List.map_eq_cons_iff.mp hlistings
  rw [List.map_eq_nil_iff.mp hrest] at hlist
  have hlength : listing.keys.length = 1 := by
    have hone := congrArg List.length hnames
    rwa [List.length_map] at hone
  have hroom : Refills .source 1 := by
    intro used hused
    rw [Nat.lt_one_iff.mp hused]
    decide
  refine ⟨hcount ▸ Nat.zero_le _, ?_, fun other hother ↦ ?_, ?_⟩
  · rw [hlist]
    exact hroom
  · rw [hlist, List.mem_singleton] at hother
    rw [hother, hlength]
    exact hroom
  · rw [hlist, entriesOf, List.flatMap_cons, List.flatMap_nil, List.append_nil, hnames]
    have hroomy : ¬ 0 + 1 = maxHashDep := by decide
    exact ⟨fun _ _ _ ↦ ⟨trivial, fun hfull ↦ absurd hfull hroomy⟩, fun _ _ _ ↦ trivial⟩

/-- The insertion of a key of one letter fits into an empty database. -/
theorem letterInsert_fits :
    EventFits .source (emptyDatabase .source arenaPages (fun _ ↦ 0) 0 (initDisk [] [])
      (newWalLogger [] 0 0)) (.operation (letterCall .insert)) := by
  refine ⟨⟨fun _ _ _ ↦ ⟨⟨?_, ?_, ?_⟩, ?_⟩, ?_⟩, ?_⟩
  · decide
  · intro index header hfirst
    cases hfirst.here
  · refine .inr ⟨?_, by decide, by decide, by decide⟩
    intro x hx
    cases hx
  · exact fun _ _ _ ↦ ⟨trivial, fun hfull ↦ absurd hfull (by decide)⟩
  · exact fun hdelete ↦ absurd hdelete (by decide)
  · intro _ _ _ index header hfirst
    cases hfirst.here

/-- A key is inserted and saved, and the process is killed. -/
theorem servesRecovered_one_kill : ∃ start,
    dbStart hashmapCalls .source (fun _ ↦ 0) hashmapNew [] [] [] = .ok start ∧
      ServesRecovered .source start
        [.event (.operation (letterCall .insert)), .event .snapshot, .kill fun _ ↦ 0] := by
  have hput : (dbStart hashmapCalls .source (fun _ ↦ 0) hashmapNew [] [] [] >>= fun start ↦
      killStep .source start (.event (.operation (letterCall .insert)))).toOption.map (fun result ↦
        (result.1.storage.headers.map PageHeader.places, result.1.storage.disk.keysDumped)) =
          some ([[0]], 0) := by
    decide +kernel
  have hsaved : (dbStart hashmapCalls .source (fun _ ↦ 0) hashmapNew [] [] [] >>= fun start ↦
      killStep .source start (.event (.operation (letterCall .insert))) >>= fun result ↦
        killStep .source result.1 (.event .snapshot)).toOption.map (fun result ↦
          ((initDisk result.1.storage.disk.vfd.content result.1.storage.disk.kfd.content).nkeys,
            (fileListings result.1.storage.disk).map fun listing ↦
              listing.keys.map HashmapKey.key)) = some (0, [[.ofByte 107]]) := by
    decide +kernel
  have hstart := dbStart_empty .source (fun _ ↦ 0) []
  rw [hstart, ok_bind] at hput hsaved
  refine ⟨_, hstart, servesRecovered_of_killFits hstart ?_ ⟨letterInsert_fits,
    fun next output hnext ↦ ⟨?_, fun last output' hlast ↦ ⟨?_, fun _ _ _ ↦ trivial⟩⟩⟩⟩
  · rw [List.forall_mem_cons, List.forall_mem_cons, List.forall_mem_singleton]
    exact ⟨⟨by decide, .inr (.inr (.inl rfl))⟩, trivial, trivial⟩
  · rw [hnext] at hput
    obtain ⟨hplaces, hdumped⟩ := Prod.mk.inj (Option.some.inj hput)
    exact (savable_one_value hplaces hdumped).apart
  · rw [hnext, ok_bind, hlast] at hsaved
    obtain ⟨hcount, hlistings⟩ := Prod.mk.inj (Option.some.inj hsaved)
    exact restartable_one_key hcount hlistings

/-- A key is saved by a shutdown, deleted and not listed by the next snapshot. The count of the
shutdown is still in the key file, and the start after a kill aborts. -/
theorem not_servesRecovered_saved_delete : ∃ start,
    dbStart hashmapCalls .source (fun _ ↦ 0) hashmapNew [] [] [] = .ok start ∧
      ¬ ServesRecovered .source start [.event (.operation (letterCall .insert)),
        .event (.restart fun _ ↦ 0), .event (.operation (letterCall .delete)), .event .snapshot,
        .kill fun _ ↦ 0] := by
  have hfails : (dbStart hashmapCalls .source (fun _ ↦ 0) hashmapNew [] [] [] >>= fun start ↦
      run (killStep .source) start [.event (.operation (letterCall .insert)),
        .event (.restart fun _ ↦ 0), .event (.operation (letterCall .delete)), .event .snapshot,
        .kill fun _ ↦ 0]).toOption.isSome = false := by
    decide +kernel
  refine ⟨_, dbStart_empty .source (fun _ ↦ 0) [], ?_⟩
  rintro ⟨db, outputs, hrun, -⟩
  rw [dbStart_empty, ok_bind, hrun] at hfails
  cases hfails

end Kill

end FGDB.Restart
