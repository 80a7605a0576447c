import FGDB.Restart.Reopen
import FGDB.Restart.Survival

/-!
# The reload of a listing

A start whose vectors have room for what the key file lists succeeds, and the headers
that it makes list the same keys at the same offsets.
-/

namespace FGDB.Restart

open Foundation Memory Records HashMap Pages Server Wal Operations
open FGDB.Vector (BoundedList Growth)

/-- The capacity of a vector for so many elements after some of them were added. -/
def capacityAfter (growth : Growth) (count : ℕ) : ℕ → ℕ
  | 0 => growth.initial count
  | used + 1 => growth.next used (capacityAfter growth count used)

/-- A vector that is made for so many elements takes them. -/
def Refills (growth : Growth) (count : ℕ) : Prop :=
  ∀ used < count, growth.Room used (capacityAfter growth count used)

/-- The keys that the listings name, page after page. -/
def entriesOf (listings : List PageListing) : List HashmapKey := listings.flatMap PageListing.keys

/-- The bytes of the listings in the key file. -/
def entriesBytes (listings : List PageListing) : List UInt8 := listings.flatMap PageListing.encode

/-- The pages so far are listed, and the dictionary has no other keys. -/
structure Rebuilt (growth : Growth) (pages : ℕ) (st : Startup (Str → Option ℕ))
    (done : List PageListing) : Prop where
  lists : List.Forall₂ (ListsHeader st.storage.metas) st.storage.headers done
  capacity : st.storage.arena.headers.capacity = capacityAfter growth pages done.length
  counted : st.keys = (entriesOf done).length
  named : ∀ key, st.hashmap key ≠ none → key ∈ (entriesOf done).map HashmapKey.key

/-- Some keys of the last page are listed. -/
structure RebuiltPart (growth : Growth) (pages : ℕ) (st : Startup (Str → Option ℕ))
    (done : List PageListing) (listing : PageListing) (count : ℕ) : Prop
    extends Rebuilt growth pages st (done ++ [listing]) where
  last : ∃ header, st.storage.headers[done.length]? = some header ∧
    header.keys.capacity = capacityAfter growth count listing.keys.length

section Add

variable {growth : Growth}

theorem add_refills {α : Type} {count : ℕ} (h : Refills growth count) {v : BoundedList α}
    (hcapacity : v.capacity = capacityAfter growth count v.contents.length)
    (hlt : v.contents.length < count) (item : α) : ∃ v', v.add growth item = .ok v' ∧
      v'.contents = v.contents ++ [item] ∧
        v'.capacity = capacityAfter growth count (v.contents.length + 1) := by
  have hroom := h v.contents.length hlt
  rw [← hcapacity] at hroom
  obtain ⟨v', hadd⟩ : ∃ v', v.add growth item = .ok v' := ⟨_, dif_pos hroom⟩
  obtain ⟨-, hcontents, hnext⟩ := BoundedList.add_eq_ok.mp hadd
  refine ⟨v', hadd, hcontents, ?_⟩
  rw [hnext, hcapacity, capacityAfter]

end Add

section Upload

variable {growth : Growth} {pages : ℕ} {st : Startup (Str → Option ℕ)} {done : List PageListing}
  {listing : PageListing} {count : ℕ} {entry : HashmapKey}

theorem ListsHeader.append {metas : List KeyMeta} {header : PageHeader} {listing : PageListing}
    (h : ListsHeader metas header listing) (more : List KeyMeta) :
    ListsHeader (metas ++ more) header listing :=
  ⟨h.offset, h.keys.imp fun _ _ hkey ↦ hkey.append more⟩

theorem entriesOf_concat (done : List PageListing) (listing : PageListing) :
    entriesOf (done ++ [listing]) = entriesOf done ++ listing.keys := by
  rw [entriesOf, List.flatMap_append, List.flatMap_singleton]
  rfl

theorem openPage_rebuilt (h : Rebuilt growth pages st done) (hroom : Refills growth pages)
    (hlt : done.length < pages) (offsetBytes count : ℕ) :
    ∃ st', openPage growth done.length st offsetBytes count = .ok st' ∧
      RebuiltPart growth pages st' done ⟨offsetBytes, []⟩ count := by
  have hlength : st.storage.arena.headers.contents.length = done.length := h.lists.length_eq
  obtain ⟨headers, hadd, hcontents, hcapacity⟩ := add_refills hroom
    (h.capacity.trans (by rw [hlength])) (hlength.trans_lt hlt)
    (reloadedHeader growth st.storage done.length offsetBytes count)
  obtain ⟨st', hst'⟩ : ∃ st' : Startup (Str → Option ℕ), { st with storage := { st.storage with
    arena := { st.storage.arena with headers := headers } } } = st' := ⟨_, rfl⟩
  have hheaders : st'.storage.headers = st.storage.headers ++
      [reloadedHeader growth st.storage done.length offsetBytes count] := by
    rw [← hst']
    exact hcontents
  have hopen : openPage growth done.length st offsetBytes count = .ok st' := by
    rw [openPage, hadd, ← hst']
    rfl
  refine ⟨st', hopen, ⟨?_, ?_, ?_, ?_⟩, ?_⟩
  · rw [hheaders, ← hst']
    exact List.rel_append h.lists (.cons ⟨rfl, .nil⟩ .nil)
  · rw [List.length_append, List.length_singleton, ← hlength, ← hcapacity, ← hst']
  · rw [entriesOf_concat, List.append_nil, ← h.counted, ← hst']
  · rw [entriesOf_concat, List.append_nil, ← hst']
    exact h.named
  · refine ⟨reloadedHeader growth st.storage done.length offsetBytes count, ?_, rfl⟩
    rw [hheaders, ← hlength]
    exact List.getElem?_concat_length

/-- A key is uploaded when its page has room for it and no other key has its name. -/
theorem uploadKey_ok {pageId : ℕ} {header : PageHeader} {keys : BoundedList PageHeaderKey}
    (hhere : st.storage.headers[pageId]? = some header)
    (hadd : header.keys.add growth ⟨wrap16 entry.offset, st.storage.metas.length⟩ = .ok keys)
    (habsent : st.hashmap entry.key = none) :
    ∃ s, uploadKey correctCalls growth pageId st entry =
      .ok ⟨s, Function.update st.hashmap entry.key (some st.storage.metas.length), st.keys + 1⟩ := by
  obtain ⟨s1, hs1⟩ := modifyMeta_ok (fun keyMeta ↦ { keyMeta with page := pageId })
    (show st.storage.newMeta.1.metas[st.storage.newMeta.2]? = some ⟨none, 0, 0⟩ from
      List.getElem?_concat_length)
  obtain ⟨fresh, hfresh, hresult⟩ := modifyMeta_eq_ok hs1
  have hlt : st.storage.newMeta.2 < st.storage.newMeta.1.metas.length :=
    (List.getElem?_eq_some_iff.mp hfresh).1
  have hheader : s1.header pageId = .ok header := by
    rw [hresult]
    exact header_eq_ok.mpr hhere
  have hpaged : s1.metas[st.storage.newMeta.2]? = some { fresh with page := pageId } := by
    rw [hresult]
    exact List.getElem?_set_self hlt
  have hlt1 : st.storage.newMeta.2 < s1.metas.length := (List.getElem?_eq_some_iff.mp hpaged).1
  obtain ⟨metas, hmetas⟩ : ∃ metas, s1.metas.set st.storage.newMeta.2
    { fresh with page := pageId, headerKeyId := wrap16 (keys.contents.length - 1) } = metas :=
      ⟨_, rfl⟩
  have hpush : headersPushKey growth header s1.metas st.storage.newMeta.2 entry.offset =
      .ok ({ header with keys := keys }, metas) := by
    rw [headersPushKey, show header.keys.add growth ⟨wrap16 entry.offset, st.storage.newMeta.2⟩ =
      .ok keys from hadd, ok_bind, hpaged, Option.elim_some, ok_bind, ← hmetas]
    rfl
  have hnamed : (({ s1 with metas := metas } : Storage).setHeader pageId
      { header with keys := keys }).metas[st.storage.newMeta.2]? =
        some { fresh with page := pageId, headerKeyId := wrap16 (keys.contents.length - 1) } := by
    rw [← hmetas]
    exact List.getElem?_set_self hlt1
  obtain ⟨s2, hs2⟩ := modifyMeta_ok (fun keyMeta ↦ { keyMeta with weakKey := some entry.key }) hnamed
  have hinsert : correctCalls.insertKey st.hashmap st.storage.newMeta.2 entry.key = .ok
      (Function.update st.hashmap entry.key (some st.storage.newMeta.2), 0, .success) := by
    simp [dictionaryCalls, habsent]
  refine ⟨s2, ?_⟩
  simp only [uploadKey, hs1, ok_bind, hheader, hpush, hs2, hinsert]
  rfl

theorem uploadKey_rebuilt (h : RebuiltPart growth pages st done listing count)
    (hroom : Refills growth count) (hlt : listing.keys.length < count)
    (hpage : entry.pageId = done.length) (hoffset : entry.offset < 2 ^ 16)
    (hfresh : entry.key ∉ (entriesOf (done ++ [listing])).map HashmapKey.key) :
    ∃ st', uploadKey correctCalls growth done.length st entry = .ok st' ∧
      RebuiltPart growth pages st' done { listing with keys := listing.keys ++ [entry] } count := by
  obtain ⟨header, hhere, hcapacity⟩ := h.last
  have hfront := List.forall₂_take_append _ _ _ h.lists
  have hback := List.forall₂_drop_append _ _ _ h.lists
  obtain ⟨last, rest, hlast, hrest, hdrop⟩ := List.forall₂_cons_right_iff.mp hback
  rw [List.forall₂_nil_right_iff.mp hrest] at hdrop
  have hsplit : st.storage.headers = st.storage.headers.take done.length ++ [last] := by
    rw [← hdrop, List.take_append_drop]
  obtain ⟨front, hfrontEq⟩ : ∃ front, st.storage.headers.take done.length = front := ⟨_, rfl⟩
  rw [hfrontEq] at hsplit hfront
  have hlength : front.length = done.length := hfront.length_eq
  have hsame : last = header := by
    rw [hsplit, ← hlength, List.getElem?_concat_length] at hhere
    exact Option.some.inj hhere
  rw [hsame] at hlast hsplit
  have hcount : header.keys.contents.length = listing.keys.length := hlast.keys.length_eq
  rw [← hcount] at hcapacity hlt
  obtain ⟨keys, hadd, hcontents, hcapacity'⟩ :=
    add_refills hroom hcapacity hlt ⟨wrap16 entry.offset, st.storage.metas.length⟩
  have habsent : st.hashmap entry.key = none := by
    by_contra hpresent
    exact hfresh (h.named _ hpresent)
  obtain ⟨s, hupload⟩ := uploadKey_ok hhere hadd habsent
  obtain ⟨found, keys', hfound, hadd', hstorage, -⟩ := uploadKey_shape hupload
  obtain rfl : header = found := Option.some.inj (hhere.symm.trans hfound)
  obtain rfl : keys = keys' := Except.ok.inj (hadd.symm.trans hadd')
  obtain ⟨header', hheader'⟩ : ∃ header' : PageHeader, { header with keys := keys } = header' :=
    ⟨_, rfl⟩
  obtain ⟨index, hindex⟩ : ∃ index, wrap16 (keys.contents.length - 1) = index := ⟨_, rfl⟩
  rw [hheader', hindex] at hstorage
  have hheaders : s.headers = front ++ [header'] := by
    have hset : s.headers = st.storage.headers.set done.length header' := by
      change s = _ at hstorage
      rw [hstorage]
      rfl
    rw [hset, hsplit, ← hlength, List.set_append_right _ _ le_rfl, Nat.sub_self, List.set_cons_zero]
  have hmetas : s.metas = st.storage.metas ++ [⟨some entry.key, index, done.length⟩] := by
    change s = _ at hstorage
    rw [hstorage]
    rfl
  have hkeys : header'.keys.contents = header.keys.contents ++
      [⟨wrap16 entry.offset, st.storage.metas.length⟩] := by
    rw [← hheader']
    exact hcontents
  have hlists : ListsHeader s.metas header' { listing with keys := listing.keys ++ [entry] } := by
    refine ⟨?_, ?_⟩
    · rw [← hheader']
      exact hlast.offset
    · rw [hkeys, hmetas]
      refine List.rel_append (hlast.append _).keys (.cons ⟨⟨_, List.getElem?_concat_length, rfl, hpage.symm⟩, ?_⟩ .nil)
      exact Nat.mod_eq_of_lt hoffset
  have hentries : entriesOf (done ++ [{ listing with keys := listing.keys ++ [entry] }]) =
      entriesOf (done ++ [listing]) ++ [entry] := by
    rw [entriesOf_concat, entriesOf_concat, List.append_assoc]
  refine ⟨_, hupload, ⟨?_, ?_, ?_, fun key hkey ↦ ?_⟩, header', ?_, ?_⟩
  · rw [hheaders]
    refine List.rel_append ?_ (.cons hlists .nil)
    rw [hmetas]
    exact hfront.imp fun _ _ hheader ↦ hheader.append _
  · have hvector : s.arena.headers.capacity = st.storage.arena.headers.capacity := by
      change s = _ at hstorage
      rw [hstorage]
      rfl
    have hold := h.capacity
    rw [List.length_append, List.length_singleton] at hold ⊢
    exact hvector.trans hold
  · rw [hentries, List.length_append, List.length_singleton, ← h.counted]
  · rw [hentries, List.map_append, List.mem_append]
    by_cases hsameKey : key = entry.key
    · rw [hsameKey]
      exact .inr (List.mem_singleton_self _)
    · have hold : st.hashmap key ≠ none := fun hnone ↦
        hkey ((Function.update_of_ne hsameKey _ _).trans hnone)
      exact .inl (h.named key hold)
  · rw [hheaders, ← hlength, List.getElem?_concat_length]
  · rw [List.length_append, List.length_singleton, ← hcount, ← hcapacity', ← hheader']

theorem uploadKeys_rebuilt {todo : List HashmapKey} (h : RebuiltPart growth pages st done listing count)
    (hroom : Refills growth count) (hcount : listing.keys.length + todo.length = count)
    (hpages : ∀ entry ∈ todo, entry.pageId = done.length)
    (hoffsets : ∀ entry ∈ todo, entry.offset < 2 ^ 16)
    (hnodup : ((entriesOf (done ++ [listing]) ++ todo).map HashmapKey.key).Nodup) :
    ∃ st', todo.foldlM (uploadKey correctCalls growth done.length) st = .ok st' ∧
      RebuiltPart growth pages st' done { listing with keys := listing.keys ++ todo } count := by
  induction todo generalizing st listing with
  | nil =>
    refine ⟨st, rfl, ?_⟩
    rw [List.append_nil]
    exact h
  | cons entry rest ih =>
    rw [List.forall_mem_cons] at hpages hoffsets
    rw [List.length_cons] at hcount
    have hfresh : entry.key ∉ (entriesOf (done ++ [listing])).map HashmapKey.key := by
      rw [List.map_append, List.nodup_append] at hnodup
      intro hmem
      exact hnodup.2.2 entry.key hmem entry.key (List.mem_map_of_mem List.mem_cons_self) rfl
    obtain ⟨st1, hfirst, hpart⟩ :=
      uploadKey_rebuilt h hroom (by omega) hpages.1 hoffsets.1 hfresh
    have hnodup' : ((entriesOf (done ++ [{ listing with keys := listing.keys ++ [entry] }]) ++
        rest).map HashmapKey.key).Nodup := by
      rw [entriesOf_concat] at hnodup ⊢
      rwa [List.append_assoc, List.append_assoc, List.singleton_append, ← List.append_assoc]
    obtain ⟨st', hrest, hlast⟩ := ih hpart (by
      rw [List.length_append, List.length_singleton]
      omega) hpages.2 hoffsets.2 hnodup'
    refine ⟨st', ?_, ?_⟩
    · rw [List.foldlM_cons, hfirst, ok_bind, hrest]
    · rwa [List.append_assoc, List.singleton_append] at hlast

/-- The listings name their pages and have keys of different names, and the vectors of the reload
take them. -/
structure Reloadable (growth : Growth) (first : ℕ) (todo : List PageListing) : Prop where
  numbered : ∀ (i : ℕ) (listing : PageListing), todo[i]? = some listing →
    ∀ entry ∈ listing.keys, entry.pageId = first + i
  inRange : ∀ listing ∈ todo, listing.InRange
  room : ∀ listing ∈ todo, Refills growth listing.keys.length

theorem visitPages_rebuilt {todo : List PageListing} (h : Rebuilt growth pages st done)
    (hroom : Refills growth pages) (hpages : done.length + todo.length = pages)
    (htodo : Reloadable growth done.length todo)
    (hnodup : ((entriesOf (done ++ todo)).map HashmapKey.key).Nodup) :
    ∃ st', visitPages (openPage growth) (uploadKey correctCalls growth) done.length todo st = .ok st' ∧
      Rebuilt growth pages st' (done ++ todo) := by
  induction todo generalizing st done with
  | nil =>
    refine ⟨st, rfl, ?_⟩
    rw [List.append_nil]
    exact h
  | cons listing rest ih =>
    rw [List.length_cons] at hpages
    have hrange := htodo.inRange listing List.mem_cons_self
    obtain ⟨st1, hopen, hpart⟩ :=
      openPage_rebuilt h hroom (by omega) listing.offsetBytes listing.keys.length
    have hsplit : done ++ listing :: rest = (done ++ [listing]) ++ rest := by
      rw [List.append_assoc, List.singleton_append]
    have hhead : entriesOf (done ++ [(⟨listing.offsetBytes, []⟩ : PageListing)]) ++ listing.keys =
        entriesOf (done ++ [listing]) := by
      rw [entriesOf_concat, entriesOf_concat, List.append_nil]
    have hnodup1 : ((entriesOf (done ++ [(⟨listing.offsetBytes, []⟩ : PageListing)]) ++
        listing.keys).map HashmapKey.key).Nodup := by
      rw [hhead]
      rw [hsplit, entriesOf, List.flatMap_append, List.map_append] at hnodup
      exact (List.nodup_append.mp hnodup).1
    obtain ⟨st2, hkeys, hfilled⟩ := uploadKeys_rebuilt hpart (htodo.room listing List.mem_cons_self)
      (Nat.zero_add _) (fun entry hentry ↦ htodo.numbered 0 listing rfl entry hentry)
      (fun entry hentry ↦ (hrange.keys entry hentry).1) hnodup1
    have hnext : Rebuilt growth pages st2 (done ++ [listing]) := hfilled.toRebuilt
    have hlength : (done ++ [listing]).length = done.length + 1 := by
      rw [List.length_append, List.length_singleton]
    have hrest : Reloadable growth (done ++ [listing]).length rest := by
      refine ⟨fun i other hother entry hentry ↦ ?_,
        fun other hother ↦ htodo.inRange other (List.mem_cons_of_mem _ hother),
        fun other hother ↦ htodo.room other (List.mem_cons_of_mem _ hother)⟩
      rw [htodo.numbered (i + 1) other hother entry hentry, hlength]
      omega
    rw [hsplit] at hnodup
    obtain ⟨st', hvisit, hlast⟩ := ih hnext (by omega) hrest hnodup
    rw [← hsplit] at hlast
    rw [hlength] at hvisit
    refine ⟨st', ?_, hlast⟩
    rw [visitPages, hopen, ok_bind, hkeys, ok_bind, hvisit]

end Upload

section Start

variable {growth : Growth} {memory : Memory} {log : List UInt8} {vfd front : List UInt8}
  {listings : List PageListing}

/-- What a start has before it reads the key file. -/
def startupAt {H : Type} (growth : Growth) (memory : Memory) (disk : Disk) (hashmap : H) :
    Startup H :=
  ⟨⟨newArena growth arenaPages memory disk.pages, newLruQueue, disk, []⟩, hashmap, 0⟩

/-- The store of a start that has read a key file of so many bytes. -/
def startedWith {H : Type} (st : Startup H) (kfd log : List UInt8) : Database H where
  storage := { st.storage with disk := { st.storage.disk with kfd := ⟨kfd, kfd.length⟩ } }
  hashmap := st.hashmap
  walLogger := newWalLogger log 0 0
  records := []

theorem initDisk_nkeys {front rest : List UInt8} (h : front.length = keysStart) (vfd : List UInt8) :
    (initDisk vfd (front ++ rest)).nkeys = leValue front := by
  have hfilled : overwrite (List.replicate 8 0) front = front :=
    overwrite_of_length_le (by rw [h, List.length_replicate, keysStart])
  rw [initDisk]
  simp only [← h, List.take_left, hfilled]

/-- A start on a key file that lists pages visits them and succeeds when the count at the head of
the file is not more than the keys that it saw. -/
theorem dbStart_of_visits {H : Type} {calls : HashmapCalls H} {hashmap : H} {st : Startup H}
    (hpages : (initDisk vfd (front ++ entriesBytes listings)).pages = listings.length)
    (hfront : front.length = keysStart) (hrange : ∀ listing ∈ listings, listing.InRange)
    (hvisit : visitPages (openPage growth) (uploadKey calls growth) 0 listings
      (startupAt growth memory (initDisk vfd (front ++ entriesBytes listings)) hashmap) = .ok st)
    (hcount : leValue front ≤ st.keys) :
    dbStart calls growth memory hashmap vfd (front ++ entriesBytes listings) log =
      .ok (startedWith st (front ++ entriesBytes listings) log) := by
  obtain ⟨kfd, hkfd⟩ : ∃ kfd, front ++ entriesBytes listings = kfd := ⟨_, rfl⟩
  obtain ⟨disk, hdisk⟩ : ∃ disk, initDisk vfd kfd = disk := ⟨_, rfl⟩
  rw [hkfd, hdisk] at hpages hvisit
  rw [hkfd]
  have hfile : disk.kfd = ⟨kfd, keysStart⟩ := by
    rw [← hdisk]
    rfl
  have hreload := reloadPages_encode (openPage growth) (uploadKey calls growth) listings hrange 0
    front [] (startupAt growth memory disk hashmap)
  have hbytes : front ++ (listings.flatMap PageListing.encode ++ []) = kfd := by
    rw [List.append_nil, ← hkfd]
    rfl
  have hlength : front ++ listings.flatMap PageListing.encode = kfd := hkfd
  rw [hbytes, hfront, hvisit, ok_bind, hlength] at hreload
  have hnkeys : disk.nkeys = leValue front := by
    rw [← hdisk, ← hkfd, initDisk_nkeys hfront]
  have henough : ¬ st.keys < disk.nkeys := by
    rw [hnkeys]
    exact Nat.not_lt.mpr hcount
  rw [startupAt, ← hfile, ← hpages] at hreload
  rw [dbStart, hdisk]
  simp only [hreload, ok_bind, if_neg henough, pure_eq_ok]
  rfl

/-- The pages that a key file lists are made anew, and they list the same keys. -/
theorem visitPages_listed {disk : Disk} (hpages : disk.pages = listings.length)
    (hroom : Refills growth listings.length) (hreloadable : Reloadable growth 0 listings)
    (hnodup : ((entriesOf listings).map HashmapKey.key).Nodup) :
    ∃ st, visitPages (openPage growth) (uploadKey correctCalls growth) 0 listings
      (startupAt growth memory disk fun _ ↦ none) = .ok st ∧
        st.keys = (entriesOf listings).length ∧
          List.Forall₂ (ListsHeader st.storage.metas) st.storage.headers listings := by
  have hempty : Rebuilt growth listings.length (startupAt growth memory disk fun _ ↦ none) [] := by
    rw [startupAt, hpages]
    exact ⟨.nil, rfl, rfl, fun _ hkey ↦ absurd rfl hkey⟩
  obtain ⟨st, hvisit, hrebuilt⟩ :=
    visitPages_rebuilt hempty hroom (Nat.zero_add _) hreloadable hnodup
  exact ⟨st, hvisit, hrebuilt.counted, hrebuilt.lists⟩

end Start

end FGDB.Restart
