import FGDB.Pages.Disk
import Mathlib.Data.List.Forall2

/-!
# The key file and its reload

The key file lists the pages one after another: the bytes in use, the number of
keys, and a record for each key. The loop of the start reads a header for each
page and then as many keys. What it does with them is a parameter here, so one
law says for every use what it sees in a file that lists pages.
-/

namespace FGDB.Restart

open Foundation HashMap Pages

/-- What the key file says about one page. -/
structure PageListing where
  offsetBytes : ℕ
  keys : List HashmapKey
  deriving DecidableEq, Repr

/-- The numbers are in the range of the fields they are written to. -/
structure PageListing.InRange (listing : PageListing) : Prop where
  offset : listing.offsetBytes < 2 ^ 16
  count : listing.keys.length < 2 ^ 16
  keys : ∀ key ∈ listing.keys, key.offset < 2 ^ 16 ∧ key.pageId < 2 ^ 64

def recordOf (key : HashmapKey) : List UInt8 := keyRecord key.pageId key.offset key.key

/-- The bytes of one page in the key file. -/
def PageListing.encode (listing : PageListing) : List UInt8 :=
  leBytes 2 listing.offsetBytes ++
    (leBytes 2 listing.keys.length ++ listing.keys.flatMap recordOf)

/-- The key with its numbers cut to the widths of their fields. -/
def wrappedKey (key : HashmapKey) : HashmapKey := ⟨key.key, wrap16 key.offset, wrap64 key.pageId⟩

def PageListing.wrapped (listing : PageListing) : PageListing :=
  ⟨wrap16 listing.offsetBytes, listing.keys.map wrappedKey⟩

theorem leBytes_wrap16 (value : ℕ) : leBytes 2 (wrap16 value) = leBytes 2 value :=
  leBytes_mod 2 value

theorem leBytes_wrap64 (value : ℕ) : leBytes 8 (wrap64 value) = leBytes 8 value :=
  leBytes_mod 8 value

theorem recordOf_wrappedKey (key : HashmapKey) : recordOf (wrappedKey key) = recordOf key := by
  simp only [recordOf, keyRecord, wrappedKey, leBytes_wrap16, leBytes_wrap64]

/-- What does not fit in a field is not in the file. -/
theorem encode_wrapped (listing : PageListing) : listing.wrapped.encode = listing.encode := by
  have hkeys : (listing.keys.map wrappedKey).flatMap recordOf = listing.keys.flatMap recordOf := by
    rw [List.flatMap_map]
    apply congrArg (List.flatMap · listing.keys)
    exact funext recordOf_wrappedKey
  simp only [PageListing.encode, PageListing.wrapped, List.length_map, hkeys, leBytes_wrap16]

theorem wrapped_inRange {listing : PageListing} (h : listing.keys.length < 2 ^ 16) :
    listing.wrapped.InRange := by
  refine ⟨Nat.mod_lt _ (by decide), ?_, fun key hkey ↦ ?_⟩
  · rwa [PageListing.wrapped, List.length_map]
  · obtain ⟨raw, -, rfl⟩ := List.mem_map.mp hkey
    exact ⟨Nat.mod_lt _ (by decide), Nat.mod_lt _ (by decide)⟩

section Reload

variable {σ : Type} (openPage : ℕ → σ → ℕ → ℕ → Outcome σ)
  (visitKey : ℕ → σ → HashmapKey → Outcome σ)

/-- The inner loop of the reload in `db_start`. -/
def reloadKeys (pageId : ℕ) : ℕ → File → σ → Outcome (File × σ)
  | 0, kfd, state => .ok (kfd, state)
  | count + 1, kfd, state => do
    match ← diskUploadKey kfd with
    | (kfd, none) => return (kfd, state)
    | (kfd, some key) => do
      let state ← visitKey pageId state key
      reloadKeys pageId count kfd state

/-- The loop over the pages from the page `pageId` on. -/
def reloadPages : ℕ → ℕ → File → σ → Outcome (File × σ)
  | 0, _, kfd, state => .ok (kfd, state)
  | pages + 1, pageId, kfd, state => do
    match ← diskUploadHeader kfd with
    | (kfd, none) => return (kfd, state)
    | (kfd, some (offsetBytes, keysCount)) => do
      let state ← openPage pageId state offsetBytes keysCount
      let (kfd, state) ← reloadKeys visitKey pageId keysCount kfd state
      reloadPages pages (pageId + 1) kfd state

/-- What the reload does with the pages of a listing. -/
def visitPages : ℕ → List PageListing → σ → Outcome σ
  | _, [], state => .ok state
  | pageId, listing :: rest, state => do
    let state ← openPage pageId state listing.offsetBytes listing.keys.length
    let state ← listing.keys.foldlM (visitKey pageId) state
    visitPages (pageId + 1) rest state

theorem diskUploadKey_record (front back : List UInt8) {key : HashmapKey}
    (hoffset : key.offset < 2 ^ 16) (hpage : key.pageId < 2 ^ 64) :
    diskUploadKey ⟨front ++ (recordOf key ++ back), front.length⟩ =
      .ok (⟨front ++ (recordOf key ++ back), (front ++ recordOf key).length⟩, some key) := by
  obtain ⟨rest, hrest⟩ : ∃ rest, leBytes 8 key.pageId ++ (leBytes 2 key.offset ++
      (leBytes 2 key.key.size ++ key.key.bytes)) = rest := ⟨_, rfl⟩
  have hsize : 8 + 2 + 2 + key.key.size < 256 ^ 8 := by
    have hlt : key.key.size < 2 ^ 16 := key.key.size_lt
    omega
  have hlength : rest.length = 8 + 2 + 2 + key.key.size := by
    rw [← hrest]
    simp [Str.size]
    omega
  have hrecord : recordOf key = leBytes 8 (8 + 2 + 2 + key.key.size) ++ rest := by
    rw [recordOf, keyRecord, hrest]
  have hpage' : key.pageId < 256 ^ 8 := hpage.trans_eq (by norm_num)
  have hoffset' : key.offset < 256 ^ 2 := hoffset.trans_eq (by norm_num)
  have hfirst := @File.read_append front (leBytes 8 (8 + 2 + 2 + key.key.size)) (rest ++ back) 8
    (length_leBytes ..)
  have hsecond := @File.read_append (front ++ leBytes 8 (8 + 2 + 2 + key.key.size)) rest back
    (8 + 2 + 2 + key.key.size) hlength
  have hvalue := leValue_leBytes_of_lt hsize
  have hstr := takeStr_append key.key []
  rw [List.append_nil] at hstr
  rw [List.append_assoc front] at hsecond
  rw [diskUploadKey, hrecord, List.append_assoc, hfirst]
  simp only [hvalue, hsecond, hlength, length_leBytes, lt_irrefl, if_false]
  rw [if_neg (List.ne_nil_of_length_pos (by rw [length_leBytes]; omega)), ← hrest]
  simp only [takeBytes_leBytes, ok_bind, hstr, leValue_leBytes_of_lt hpage',
    leValue_leBytes_of_lt hoffset', pure_eq_ok, List.append_assoc]

theorem reloadKeys_records (pageId : ℕ) (keys : List HashmapKey)
    (hkeys : ∀ key ∈ keys, key.offset < 2 ^ 16 ∧ key.pageId < 2 ^ 64) (front back : List UInt8)
    (state : σ) :
    reloadKeys visitKey pageId keys.length ⟨front ++ (keys.flatMap recordOf ++ back), front.length⟩
        state =
      (keys.foldlM (visitKey pageId) state >>= fun state ↦
        .ok (⟨front ++ (keys.flatMap recordOf ++ back), (front ++ keys.flatMap recordOf).length⟩,
          state)) := by
  induction keys generalizing front state with
  | nil =>
    simp only [List.length_nil, reloadKeys, List.flatMap_nil, List.append_nil, List.foldlM_nil,
      pure_eq_ok, ok_bind]
  | cons key rest ih =>
    have hkey := hkeys key List.mem_cons_self
    have hrecord := diskUploadKey_record front (rest.flatMap recordOf ++ back) hkey.1 hkey.2
    have hrest := ih (fun key hmem ↦ hkeys key (List.mem_cons_of_mem _ hmem))
      (front ++ recordOf key)
    simp only [List.append_assoc] at hrest
    simp only [List.length_cons, reloadKeys, List.flatMap_cons, List.append_assoc, hrecord, ok_bind,
      hrest, List.foldlM_cons, bind_assoc]

theorem diskUploadHeader_encode (front back : List UInt8) {listing : PageListing}
    (h : listing.InRange) :
    diskUploadHeader ⟨front ++ (listing.encode ++ back), front.length⟩ =
      .ok (⟨front ++ (listing.encode ++ back),
        (front ++ leBytes 2 listing.offsetBytes ++ leBytes 2 listing.keys.length).length⟩,
        some (listing.offsetBytes, listing.keys.length)) := by
  have hoffset : listing.offsetBytes < 256 ^ 2 := h.offset.trans_eq (by norm_num)
  have hcount : listing.keys.length < 256 ^ 2 := h.count.trans_eq (by norm_num)
  have hfirst := @File.read_append front (leBytes 2 listing.offsetBytes)
    (leBytes 2 listing.keys.length ++ (listing.keys.flatMap recordOf ++ back)) 2
    (length_leBytes ..)
  have hsecond := @File.read_append (front ++ leBytes 2 listing.offsetBytes)
    (leBytes 2 listing.keys.length) (listing.keys.flatMap recordOf ++ back) 2 (length_leBytes ..)
  have hfilled : overwrite [0, 0] (leBytes 2 listing.offsetBytes) =
      leBytes 2 listing.offsetBytes := overwrite_of_length_le (length_leBytes 2 _).ge
  rw [List.append_assoc front] at hsecond
  simp only [PageListing.encode, List.append_assoc]
  rw [diskUploadHeader, hfirst]
  simp only [hsecond, length_leBytes, lt_irrefl, if_false, hfilled, leValue_leBytes_of_lt hoffset,
    leValue_leBytes_of_lt hcount]
  rw [if_neg (List.ne_nil_of_length_pos (by rw [length_leBytes]; omega)), List.append_assoc]

/-- The reload of a file that begins with a list of pages visits these pages, and then reads on. -/
theorem reloadPages_append (listings : List PageListing) (h : ∀ listing ∈ listings, listing.InRange)
    (pages pageId : ℕ) (front back : List UInt8) (state : σ) :
    reloadPages openPage visitKey (listings.length + pages) pageId
        ⟨front ++ (listings.flatMap PageListing.encode ++ back), front.length⟩ state =
      (visitPages openPage visitKey pageId listings state >>= fun state ↦
        reloadPages openPage visitKey pages (pageId + listings.length)
          ⟨front ++ (listings.flatMap PageListing.encode ++ back),
            (front ++ listings.flatMap PageListing.encode).length⟩ state) := by
  induction listings generalizing pageId front state with
  | nil =>
    simp only [List.length_nil, Nat.zero_add, Nat.add_zero, List.flatMap_nil, List.append_nil,
      visitPages, ok_bind]
  | cons listing rest ih =>
    have hlisting := h listing List.mem_cons_self
    have hheader := diskUploadHeader_encode front (rest.flatMap PageListing.encode ++ back) hlisting
    have hkeys (state : σ) := reloadKeys_records visitKey pageId listing.keys hlisting.keys
      (front ++ leBytes 2 listing.offsetBytes ++ leBytes 2 listing.keys.length)
      (rest.flatMap PageListing.encode ++ back) state
    have hrest (state : σ) := ih (fun listing hmem ↦ h listing (List.mem_cons_of_mem _ hmem))
      (pageId + 1) (front ++ listing.encode) state
    simp only [PageListing.encode, List.append_assoc] at hheader hkeys hrest
    simp only [List.length_cons, Nat.succ_add, ← Nat.add_assoc, Nat.add_right_comm _ _ 1]
    simp only [reloadPages, List.flatMap_cons, PageListing.encode, List.append_assoc, hheader,
      ok_bind, hkeys, hrest, visitPages, bind_assoc, Nat.add_right_comm pageId 1]

/-- The reload of a file that lists pages visits these pages and reads up to their end. -/
theorem reloadPages_encode (listings : List PageListing) (h : ∀ listing ∈ listings, listing.InRange)
    (pageId : ℕ) (front back : List UInt8) (state : σ) :
    reloadPages openPage visitKey listings.length pageId
        ⟨front ++ (listings.flatMap PageListing.encode ++ back), front.length⟩ state =
      (visitPages openPage visitKey pageId listings state >>= fun state ↦
        .ok (⟨front ++ (listings.flatMap PageListing.encode ++ back),
          (front ++ listings.flatMap PageListing.encode).length⟩, state)) :=
  reloadPages_append openPage visitKey listings h 0 pageId front back state

/-- At the end of the file the reload stops. -/
theorem reloadPages_end (pages pageId : ℕ) (content : List UInt8) (state : σ) :
    reloadPages openPage visitKey pages pageId ⟨content, content.length⟩ state =
      .ok (⟨content, content.length⟩, state) := by
  cases pages with
  | zero => rfl
  | succ pages =>
    have hread : File.read ⟨content, content.length⟩ 2 = (⟨content, content.length⟩, []) := by
      rw [File.read, List.drop_length, List.take_nil, List.length_nil, Nat.add_zero]
    rw [reloadPages, diskUploadHeader, hread]
    rfl

theorem reloadKeys_invariant {part : ℕ → σ → Prop} {pageId total : ℕ} (htotal : total < 2 ^ 16)
    (hvisit : ∀ visited state key next, visited + 1 < 2 ^ 16 → part visited state →
      visitKey pageId state key = .ok next → part (visited + 1) next)
    {count visited : ℕ} {kfd kfd' : File} {state state' : σ} (hcount : visited + count = total)
    (hpart : part visited state)
    (h : reloadKeys visitKey pageId count kfd state = .ok (kfd', state')) :
    ∃ seen, part seen state' := by
  induction count generalizing visited kfd state with
  | zero =>
    rw [reloadKeys, Except.ok.injEq, Prod.mk.injEq] at h
    exact ⟨visited, h.2 ▸ hpart⟩
  | succ count ih =>
    obtain ⟨⟨kfd1, key⟩, -, h⟩ := bind_eq_ok.mp h
    cases key with
    | none => exact ⟨visited, (Prod.mk.inj (Except.ok.inj h)).2 ▸ hpart⟩
    | some key =>
      obtain ⟨state1, hnext, h⟩ := bind_eq_ok.mp h
      exact ih (by omega) (hvisit visited state key state1 (by omega) hpart hnext) h

theorem diskUploadHeader_count {kfd kfd' : File} {offsetBytes keysCount : ℕ}
    (h : diskUploadHeader kfd = .ok (kfd', some (offsetBytes, keysCount))) :
    keysCount < 2 ^ 16 := by
  obtain ⟨⟨kfd1, offset⟩, hfirst⟩ : ∃ first, kfd.read 2 = first := ⟨_, rfl⟩
  obtain ⟨⟨kfd2, total⟩, hsecond⟩ : ∃ second, kfd1.read 2 = second := ⟨_, rfl⟩
  have hlength : total.length ≤ 2 := by
    rw [← (Prod.mk.inj hsecond).2]
    exact List.length_take_le _ _
  simp only [diskUploadHeader, hfirst, hsecond] at h
  by_cases hempty : offset = []
  · rw [if_pos hempty] at h
    exact nomatch (Prod.mk.inj (Except.ok.inj h)).2
  · rw [if_neg hempty] at h
    by_cases hshort : total.length < 2
    · rw [if_pos hshort] at h
      cases h
    · rw [if_neg hshort] at h
      have hread := Prod.mk.inj (Option.some.inj (Prod.mk.inj (Except.ok.inj h)).2)
      calc keysCount = leValue total := hread.2.symm
        _ < 256 ^ total.length := leValue_lt _
        _ ≤ 256 ^ 2 := Nat.pow_le_pow_right (Nat.succ_pos _) hlength
        _ = 2 ^ 16 := by norm_num

/-- What opening a page, visiting a key of it and going on to the next page keep is kept by the
reload, whatever the file holds. -/
theorem reloadPages_invariant {inv : ℕ → σ → Prop} {part : ℕ → ℕ → σ → Prop}
    (hopen : ∀ pageId state offsetBytes keysCount next, inv pageId state →
      openPage pageId state offsetBytes keysCount = .ok next → part pageId 0 next)
    (hvisit : ∀ pageId visited state key next, visited + 1 < 2 ^ 16 → part pageId visited state →
      visitKey pageId state key = .ok next → part pageId (visited + 1) next)
    (hclose : ∀ pageId visited state, part pageId visited state → inv (pageId + 1) state)
    {pages pageId : ℕ} {kfd kfd' : File} {state state' : σ} (hinv : inv pageId state)
    (h : reloadPages openPage visitKey pages pageId kfd state = .ok (kfd', state')) :
    ∃ last, last ≤ pageId + pages ∧ inv last state' := by
  induction pages generalizing pageId kfd state with
  | zero =>
    rw [reloadPages, Except.ok.injEq, Prod.mk.injEq] at h
    exact ⟨pageId, le_rfl, h.2 ▸ hinv⟩
  | succ pages ih =>
    obtain ⟨⟨kfd1, header⟩, hheader, h⟩ := bind_eq_ok.mp h
    cases header with
    | none => exact ⟨pageId, Nat.le_add_right _ _, (Prod.mk.inj (Except.ok.inj h)).2 ▸ hinv⟩
    | some header =>
      obtain ⟨state1, hnext, h⟩ := bind_eq_ok.mp h
      obtain ⟨⟨kfd2, state2⟩, hkeys, h⟩ := bind_eq_ok.mp h
      have hstart := hopen pageId state header.1 header.2 state1 hinv hnext
      obtain ⟨seen, hpart⟩ := reloadKeys_invariant visitKey (diskUploadHeader_count hheader)
        (hvisit pageId) (Nat.zero_add _) hstart hkeys
      obtain ⟨last, hlast, hinv⟩ := ih (hclose pageId seen state2 hpart) h
      exact ⟨last, by omega, hinv⟩

end Reload

section Dump

/-- What `disk_dump_keys` finds behind a key of a page. -/
structure ListsKey (metas : List KeyMeta) (key : PageHeaderKey) (entry : HashmapKey) : Prop where
  found : ∃ keyMeta, metas[key.keyMetaPtr]? = some keyMeta ∧ keyMeta.weakKey = some entry.key ∧
    keyMeta.page = entry.pageId
  offset : key.offset = entry.offset

structure ListsHeader (metas : List KeyMeta) (header : PageHeader) (listing : PageListing) :
    Prop where
  offset : header.offsetBytes = listing.offsetBytes
  keys : List.Forall₂ (ListsKey metas) header.keys.contents listing.keys

/-- Everything written so far is in the file and counted. -/
structure Wrote (d : KeyDump) (bytes : List UInt8) : Prop where
  file : d.kfd.upTo = bytes
  count : d.bytes = bytes.length

theorem Wrote.write {d : KeyDump} {bytes : List UInt8} (h : Wrote d bytes) (data : List UInt8) :
    Wrote (d.write data) (bytes ++ data) where
  file := by rw [KeyDump.write, File.upTo_write, h.file]
  count := by rw [KeyDump.write, h.count, List.length_append]

theorem dumpKeys_wrote {metas : List KeyMeta} {keys : List PageHeaderKey}
    {entries : List HashmapKey} (hkeys : List.Forall₂ (ListsKey metas) keys entries) {d : KeyDump}
    {bytes : List UInt8} (h : Wrote d bytes) :
    ∃ d', keys.foldlM (dumpKey metas) d = .ok d' ∧ Wrote d' (bytes ++ entries.flatMap recordOf) := by
  induction hkeys generalizing d bytes with
  | nil => exact ⟨d, rfl, by rwa [List.flatMap_nil, List.append_nil]⟩
  | @cons key entry keys entries hkey _ ih =>
    obtain ⟨keyMeta, hmeta, hweak, hpage⟩ := hkey.found
    have hdump : dumpKey metas d key = .ok { d.write (recordOf entry) with
        keysDumped := wrap64 ((d.write (recordOf entry)).keysDumped + 1) } := by
      simp only [dumpKey, hmeta, Option.elim_some, ok_bind, hweak, hpage, hkey.offset, pure_eq_ok,
        recordOf]
    have hwrote := h.write (recordOf entry)
    obtain ⟨d', hrest, hwrote'⟩ := @ih { d.write (recordOf entry) with
        keysDumped := wrap64 ((d.write (recordOf entry)).keysDumped + 1) } _
      ⟨hwrote.file, hwrote.count⟩
    refine ⟨d', ?_, ?_⟩
    · rw [List.foldlM_cons, hdump, ok_bind, hrest]
    · rwa [List.flatMap_cons, ← List.append_assoc]

theorem dumpHeaders_wrote {metas : List KeyMeta} {headers : List PageHeader}
    {listings : List PageListing} (hheaders : List.Forall₂ (ListsHeader metas) headers listings)
    (hcounts : ∀ listing ∈ listings, listing.keys.length < 2 ^ 16) {d : KeyDump}
    {bytes : List UInt8} (h : Wrote d bytes) :
    ∃ d', headers.foldlM (dumpHeader metas) d = .ok d' ∧
      Wrote d' (bytes ++ listings.flatMap PageListing.encode) := by
  induction hheaders generalizing d bytes with
  | nil => exact ⟨d, rfl, by rwa [List.flatMap_nil, List.append_nil]⟩
  | @cons header listing headers listings hheader _ ih =>
    have hcount : wrap16 header.keys.contents.length = listing.keys.length := by
      rw [hheader.keys.length_eq]
      exact Nat.mod_eq_of_lt (hcounts listing List.mem_cons_self)
    obtain ⟨d', hdump, hwrote⟩ := dumpKeys_wrote hheader.keys
      ((h.write (leBytes 2 listing.offsetBytes)).write (leBytes 2 listing.keys.length))
    obtain ⟨final, hrest, hfinal⟩ :=
      ih (fun listing hmem ↦ hcounts listing (List.mem_cons_of_mem _ hmem)) hwrote
    refine ⟨final, ?_, ?_⟩
    · rw [List.foldlM_cons, dumpHeader, hcount, hheader.offset, hdump, ok_bind, hrest]
    · simp only [PageListing.encode, List.flatMap_cons, List.append_assoc] at hfinal ⊢
      exact hfinal

theorem dumpKeys_lists {metas : List KeyMeta} {keys : List PageHeaderKey} {d d' : KeyDump}
    (h : keys.foldlM (dumpKey metas) d = .ok d') :
    ∃ entries, List.Forall₂ (ListsKey metas) keys entries := by
  induction keys generalizing d with
  | nil => exact ⟨[], .nil⟩
  | cons key rest ih =>
    rw [List.foldlM_cons] at h
    obtain ⟨next, hkey, hrest⟩ := bind_eq_ok.mp h
    obtain ⟨keyMeta, hmeta, hkey⟩ := bind_eq_ok.mp hkey
    obtain ⟨weakKey, hweak, -⟩ := bind_eq_ok.mp hkey
    obtain ⟨entries, hentries⟩ := ih hrest
    exact ⟨⟨weakKey, key.offset, keyMeta.page⟩ :: entries,
      .cons ⟨⟨keyMeta, elim_eq_ok.mp hmeta, elim_eq_ok.mp hweak, rfl⟩, rfl⟩ hentries⟩

/-- A dump that succeeds has found what it lists. -/
theorem dumpHeaders_lists {metas : List KeyMeta} {headers : List PageHeader} {d d' : KeyDump}
    (h : headers.foldlM (dumpHeader metas) d = .ok d') :
    ∃ listings, List.Forall₂ (ListsHeader metas) headers listings := by
  induction headers generalizing d with
  | nil => exact ⟨[], .nil⟩
  | cons header rest ih =>
    rw [List.foldlM_cons] at h
    obtain ⟨next, hheader, hrest⟩ := bind_eq_ok.mp h
    obtain ⟨entries, hentries⟩ := dumpKeys_lists hheader
    obtain ⟨listings, hlistings⟩ := ih hrest
    exact ⟨⟨header.offsetBytes, entries⟩ :: listings, .cons ⟨rfl, hentries⟩ hlistings⟩

/-- The key file that `disk_dump_keys` leaves lists the pages and nothing else. -/
theorem diskDumpKeys_wrote {s : Storage} {listings : List PageListing}
    (hlists : List.Forall₂ (ListsHeader s.metas) s.arena.headers.contents listings)
    (hcounts : ∀ listing ∈ listings, listing.keys.length < 2 ^ 16) :
    ∃ s' front, diskDumpKeys s = .ok s' ∧ front.length = keysStart ∧
      s'.disk.kfd.content = front ++ listings.flatMap PageListing.encode := by
  have hstart : Wrote ⟨s.disk.kfd.seek keysStart, keysStart, s.disk.keysDumped⟩
      (s.disk.kfd.seek keysStart).upTo :=
    ⟨rfl, (File.length_upTo (s.disk.kfd.seek keysStart)).symm⟩
  obtain ⟨d, hdump, hwrote⟩ := dumpHeaders_wrote hlists hcounts hstart
  refine ⟨{ s with disk := { s.disk with
    kfd := d.kfd.truncate d.bytes, keysDumped := d.keysDumped } }, _, ?_, File.length_upTo (s.disk.kfd.seek keysStart), ?_⟩
  · rw [diskDumpKeys, hdump, ok_bind, pure_eq_ok]
  · have hposition : d.bytes = d.kfd.position := by
      rw [hwrote.count, ← hwrote.file, File.length_upTo]
    rw [← hwrote.file, File.upTo, hposition]

end Dump

section RoundTrip

/-- A page of the list that the reload makes, the last page first. -/
def collectPage (_ : ℕ) (listings : List PageListing) (offsetBytes _ : ℕ) :
    Outcome (List PageListing) :=
  .ok (⟨offsetBytes, []⟩ :: listings)

def collectKey (_ : ℕ) (listings : List PageListing) (key : HashmapKey) :
    Outcome (List PageListing) :=
  match listings with
  | [] => .ok []
  | listing :: rest => .ok ({ listing with keys := listing.keys ++ [key] } :: rest)

/-- The pages that the reload sees in a key file. -/
def readListings (kfd : List UInt8) (pages : ℕ) : Outcome (File × List PageListing) := do
  let (kfd, listings) ← reloadPages collectPage collectKey pages 0 ⟨kfd, keysStart⟩ []
  return (kfd, listings.reverse)

theorem foldlM_collectKey (pageId : ℕ) (keys : List HashmapKey) (listing : PageListing)
    (listings : List PageListing) :
    keys.foldlM (collectKey pageId) (listing :: listings) =
      .ok ({ listing with keys := listing.keys ++ keys } :: listings) := by
  induction keys generalizing listing with
  | nil => rw [List.foldlM_nil, List.append_nil, pure_eq_ok]
  | cons key rest ih =>
    rw [List.foldlM_cons, collectKey, ok_bind, ih, List.append_assoc, List.singleton_append]

theorem visitPages_collect (pageId : ℕ) (listings seen : List PageListing) :
    visitPages collectPage collectKey pageId listings seen = .ok (listings.reverse ++ seen) := by
  induction listings generalizing pageId seen with
  | nil => rfl
  | cons listing rest ih =>
    rw [visitPages, collectPage, ok_bind, foldlM_collectKey, ok_bind, ih, List.reverse_cons,
      List.append_assoc, List.nil_append, List.singleton_append]

/-- The reload of what was dumped sees every page with its keys in order, stops at the end of the
file, and the file is as long as what was written behind the count. -/
theorem reload_of_dump {s : Storage} {listings : List PageListing}
    (hlists : List.Forall₂ (ListsHeader s.metas) s.arena.headers.contents listings)
    (hrange : ∀ listing ∈ listings, listing.InRange) :
    ∃ s', diskDumpKeys s = .ok s' ∧
      readListings s'.disk.kfd.content s.arena.headers.contents.length =
        .ok (⟨s'.disk.kfd.content, s'.disk.kfd.content.length⟩, listings) ∧
      s'.disk.kfd.content.length =
        keysStart + (listings.map fun listing ↦ listing.encode.length).sum := by
  obtain ⟨s', front, hdump, hfront, hcontent⟩ := diskDumpKeys_wrote hlists fun listing hmem ↦ (hrange listing hmem).count
  have hreload := reloadPages_encode collectPage collectKey listings hrange 0 front [] []
  rw [visitPages_collect, ok_bind, List.append_nil, List.append_nil, hfront] at hreload
  refine ⟨s', hdump, ?_, ?_⟩
  · rw [readListings, hcontent, hlists.length_eq, hreload, ok_bind]
    simp only [List.reverse_reverse, pure_eq_ok]
  · rw [hcontent, List.length_append, hfront, List.length_flatMap]

/-- A page with one key, and a key file with old bytes behind the place of the new ones. -/
theorem reload_of_dump_one_key : ∃ s : Storage, ∃ listings ≠ [], ∃ s', diskDumpKeys s = .ok s' ∧
    readListings s'.disk.kfd.content s.arena.headers.contents.length =
      .ok (⟨s'.disk.kfd.content, s'.disk.kfd.content.length⟩, listings) ∧
    s'.disk.kfd.content.length =
      keysStart + (listings.map fun listing ↦ listing.encode.length).sum := by
  obtain ⟨key, hkey⟩ : ∃ key, (⟨[107], by decide⟩ : Str) = key := ⟨_, rfl⟩
  let header : PageHeader := ⟨0, 4, ⟨[⟨0, 0⟩], 1, le_rfl⟩, 0, 0, 0, .clean, .inMemory⟩
  let s : Storage := ⟨⟨1, 1, ⟨[header], 1, le_rfl⟩, fun _ ↦ 0⟩,
    ⟨none, none, fun _ ↦ none, fun _ ↦ none⟩, ⟨1, 0, 0, 0, File.empty, ⟨List.replicate 50 1, 8⟩⟩, [⟨some key, 0, 0⟩]⟩
  refine ⟨s, [⟨4, [⟨key, 0, 0⟩]⟩], List.cons_ne_nil _ _, reload_of_dump ?_ ?_⟩
  · exact .cons ⟨rfl, .cons ⟨⟨_, rfl, rfl, rfl⟩, rfl⟩ .nil⟩ .nil
  · intro listing hmem
    rw [List.mem_singleton.mp hmem]
    refine ⟨by simp, by simp, fun entry hentry ↦ ?_⟩
    rw [List.mem_singleton.mp hentry]
    exact ⟨by simp, by simp⟩

end RoundTrip

end FGDB.Restart
