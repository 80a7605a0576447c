import FGDB.Pages.Clean
import FGDB.Restart.Rebuild

/-!
# The listing of a store

A snapshot of a store lists its keys, every name once, and the values of the store are
those that the listing points to in the pages.
-/

namespace FGDB.Restart

open Foundation Memory Records HashMap Pages Server Wal Operations
open FGDB.Vector (BoundedList Growth)

/-- What `disk_dump_keys` writes for a key and for a page. -/
def entryOf (s : Storage) (header : PageHeader) (key : PageHeaderKey) : HashmapKey :=
  ⟨(weakKeyOf s key.keyMetaPtr).getD Str.empty, key.offset, header.pageId⟩

def listingOf (s : Storage) (header : PageHeader) : PageListing :=
  ⟨header.offsetBytes, header.keys.contents.map (entryOf s header)⟩

def listingsOf (s : Storage) : List PageListing := s.headers.map (listingOf s)

/-- The names that a dump of the keys writes, in its order. -/
def listedNames (s : Storage) : List Str := (entriesOf (listingsOf s)).map HashmapKey.key

/-- The value of a key according to the listings and the bytes of the pages. -/
def ListedValue (pages : ℕ → Memory) (listings : List PageListing) (key value : Str) : Prop :=
  ∃ (page : ℕ) (listing : PageListing) (entry : HashmapKey), listings[page]? = some listing ∧
    entry ∈ listing.keys ∧ entry.key = key ∧ payloadAt (pages page) entry.offset = value.bytes

/-- Related lists have related elements at every place. -/
theorem getElem?_forall₂ {α β : Type} {R : α → β → Prop} {l : List α} {l' : List β}
    (h : List.Forall₂ R l l') {i : ℕ} {a : α} (ha : l[i]? = some a) :
    ∃ b, l'[i]? = some b ∧ R a b := by
  induction h generalizing i with
  | nil => cases ha
  | @cons first second _ _ hfirst _ ih =>
    cases i with
    | zero =>
      rw [List.getElem?_cons_zero, Option.some.injEq] at ha
      exact ⟨second, rfl, ha ▸ hfirst⟩
    | succ i => exact ih ha

section Listing

variable {s : Storage} {d : Str → Option ℕ}

theorem listed_of_mem {page : ℕ} {header : PageHeader} (hheader : s.headers[page]? = some header)
    {key : PageHeaderKey} (hkey : key ∈ header.keys.contents) : Listed s key.keyMetaPtr := by
  refine ⟨page, ?_⟩
  rw [pointersOf_eq hheader]
  exact List.mem_map_of_mem hkey

theorem indexes_lists (h : Indexes d s) :
    List.Forall₂ (ListsHeader s.metas) s.headers (listingsOf s) := by
  rw [listingsOf, List.forall₂_map_right_iff, List.forall₂_same]
  intro header hheader
  obtain ⟨page, hpage⟩ := List.getElem?_of_mem hheader
  refine ⟨rfl, ?_⟩
  rw [listingOf, List.forall₂_map_right_iff, List.forall₂_same]
  intro key hkey
  obtain ⟨position, hposition⟩ := List.getElem?_of_mem hkey
  obtain ⟨name, hname⟩ := h.named key.keyMetaPtr (listed_of_mem hpage hkey)
  have hpointer : (pointersOf s page)[position]? = some key.keyMetaPtr :=
    getElem?_pointersOf.mpr ⟨header, key, hpage, hposition, rfl⟩
  obtain ⟨keyMeta, hmeta, hmetaPage, -⟩ := h.linked page position key.keyMetaPtr hpointer
  have hweak : keyMeta.weakKey = some name := by
    rwa [weakKeyOf, hmeta, Option.bind_some] at hname
  refine ⟨⟨keyMeta, hmeta, ?_, ?_⟩, rfl⟩
  · rw [entryOf, hname, Option.getD_some, hweak]
  · rw [entryOf, hmetaPage, (h.numbered page header hpage).1]

theorem getElem?_listingsOf {page : ℕ} {listing : PageListing} :
    (listingsOf s)[page]? = some listing ↔
      ∃ header, s.headers[page]? = some header ∧ listingOf s header = listing := by
  rw [listingsOf, List.getElem?_map, Option.map_eq_some_iff]

/-- The numbers of a listing have the widths of the file. -/
theorem valid_inRange (hs : s.Valid) (hpages : s.headers.length ≤ arenaPages) :
    ∀ listing ∈ listingsOf s, listing.InRange := by
  intro listing hlisting
  obtain ⟨page, hpage⟩ := List.getElem?_of_mem hlisting
  obtain ⟨header, hheader, rfl⟩ := getElem?_listingsOf.mp hpage
  have hvalid := hs.headers page header hheader
  have hlength := hvalid.holds.length_le
  have hoffset := hvalid.holds.offset_le
  have hlt := (List.getElem?_eq_some_iff.mp hheader).1
  unfold pageSize at hlength hoffset
  unfold arenaPages at hpages
  refine ⟨?_, ?_, fun entry hentry ↦ ?_⟩
  · change header.offsetBytes < 2 ^ 16
    omega
  · rw [listingOf, List.length_map]
    omega
  · obtain ⟨key, hkey, rfl⟩ := List.mem_map.mp hentry
    have hinside := hvalid.holds.packed.inside key.offset (List.mem_map_of_mem hkey)
    have hpageId := hvalid.pageId
    unfold endAt at hinside
    refine ⟨?_, ?_⟩
    · change key.offset < 2 ^ 16
      omega
    · change header.pageId < 2 ^ 64
      omega

theorem indexes_numbered (h : Indexes d s) {page : ℕ} {listing : PageListing}
    (hlisting : (listingsOf s)[page]? = some listing) :
    ∀ entry ∈ listing.keys, entry.pageId = 0 + page := by
  obtain ⟨header, hheader, rfl⟩ := getElem?_listingsOf.mp hlisting
  intro entry hentry
  obtain ⟨key, -, rfl⟩ := List.mem_map.mp hentry
  rw [Nat.zero_add]
  exact (h.numbered page header hheader).1

/-- No two keys of the pages have one meta. -/
theorem indexes_nodup_pointers (h : Indexes d s) :
    (s.headers.flatMap fun header ↦ header.keys.contents.map PageHeaderKey.keyMetaPtr).Nodup := by
  have hlinked {page : ℕ} {header : PageHeader} (hheader : s.headers[page]? = some header) :
      Linked s.metas page header.keys.contents := by
    have hpage := h.linked page
    rw [pointersOf_eq hheader] at hpage
    exact linkedAt_iff.mp hpage
  rw [List.nodup_flatMap]
  refine ⟨fun header hheader ↦ ?_, ?_⟩
  · obtain ⟨page, hpage⟩ := List.getElem?_of_mem hheader
    exact (hlinked hpage).nodup
  · rw [List.pairwise_iff_getElem]
    intro i j hi hj hij pointer hfirst hsecond
    obtain ⟨first, hfirstMem, rfl⟩ := List.mem_map.mp hfirst
    obtain ⟨second, hsecondMem, hsame⟩ := List.mem_map.mp hsecond
    exact hij.ne ((hlinked (List.getElem?_eq_getElem hi)).page_eq
      (hlinked (List.getElem?_eq_getElem hj)) hfirstMem hsecondMem hsame.symm)

theorem listedNames_eq (s : Storage) : listedNames s =
    (s.headers.flatMap fun header ↦ header.keys.contents.map PageHeaderKey.keyMetaPtr).map
      fun pointer ↦ (weakKeyOf s pointer).getD Str.empty := by
  rw [listedNames, entriesOf, listingsOf, List.flatMap_map, List.map_flatMap, List.map_flatMap]
  apply congrArg (List.flatMap · s.headers)
  funext header
  rw [listingOf, List.map_map, List.map_map]
  rfl

/-- No two keys have one name. -/
theorem indexes_nodup_names (h : Indexes d s) : (listedNames s).Nodup := by
  rw [listedNames_eq]
  refine (indexes_nodup_pointers h).map_on fun pointer hpointer other hother hequal ↦ ?_
  have hlisted (p : ℕ) (hp : p ∈ s.headers.flatMap fun header ↦
      header.keys.contents.map PageHeaderKey.keyMetaPtr) : Listed s p := by
    obtain ⟨header, hheader, hmem⟩ := List.mem_flatMap.mp hp
    obtain ⟨key, hkey, rfl⟩ := List.mem_map.mp hmem
    obtain ⟨page, hpage⟩ := List.getElem?_of_mem hheader
    exact listed_of_mem hpage hkey
  obtain ⟨name, hname⟩ := h.named pointer (hlisted pointer hpointer)
  obtain ⟨name', hname'⟩ := h.named other (hlisted other hother)
  rw [hname, hname', Option.getD_some, Option.getD_some] at hequal
  have hfirst := (h.bound name pointer).mpr ⟨hlisted pointer hpointer, hname⟩
  have hsecond := (h.bound name' other).mpr ⟨hlisted other hother, hname'⟩
  rw [hequal, hsecond] at hfirst
  exact (Option.some.inj hfirst).symm

end Listing

section Values

variable {db : Database (Str → Option ℕ)} {d : Str → Option Str} {listings : List PageListing}
  {pages : ℕ → Memory}

/-- The values of a store are those that its listing points to. -/
theorem serves_listed (h : Serves (fun d hashmap ↦ hashmap = d) db d)
    (hindexes : Indexes db.hashmap db.storage)
    (hlists : List.Forall₂ (ListsHeader db.storage.metas) db.storage.headers listings)
    (hpages : ∀ (page : ℕ) (header : PageHeader), db.storage.headers[page]? = some header →
      AgreeBelow pageSize (db.storage.image header) (pages page)) {key value : Str} :
    d key = some value ↔ ListedValue pages listings key value := by
  obtain ⟨pointers, hhashmap, hbound⟩ := h.index
  rw [← hhashmap] at hbound
  have hpayload {page : ℕ} {header : PageHeader} (hheader : db.storage.headers[page]? = some header)
      {place : PageHeaderKey} (hplace : place ∈ header.keys.contents) :
      payloadAt (db.storage.image header) place.offset = payloadAt (pages page) place.offset := by
    have hvalid := h.valid.headers page header hheader
    have hinside := hvalid.holds.packed.inside place.offset (List.mem_map_of_mem hplace)
    exact (AgreeBelow.record ((hpages page header hheader).mono hvalid.holds.offset_le) hinside).2.symm
  constructor
  · intro hvalue
    cases hkey : db.hashmap key with
    | none =>
      rw [hbound.absent key hkey] at hvalue
      cases hvalue
    | some pointer =>
      obtain ⟨found, hfound, page, header, hheader, hcell⟩ := hbound.stored key pointer hkey
      rw [hvalue, Option.some.injEq] at hfound
      obtain ⟨place, hplace, hcellEq⟩ := List.mem_map.mp hcell
      obtain ⟨hpointer, hbytes⟩ := Prod.mk.inj hcellEq
      obtain ⟨listing, hlisting, hlist⟩ := getElem?_forall₂ hlists hheader
      obtain ⟨position, hposition⟩ := List.getElem?_of_mem hplace
      obtain ⟨entry, hentry, hlistsKey⟩ := getElem?_forall₂ hlist.keys hposition
      obtain ⟨keyMeta, hmeta, hweak, -⟩ := hlistsKey.found
      have hname := ((hindexes.bound key pointer).mp hkey).2
      rw [weakKeyOf, ← hpointer, hmeta, Option.bind_some, hweak, Option.some.injEq] at hname
      refine ⟨page, listing, entry, hlisting, List.mem_of_getElem? hentry, hname, ?_⟩
      rw [← hlistsKey.offset, ← hpayload hheader hplace, hbytes, hfound]
  · rintro ⟨page, listing, entry, hlisting, hentry, hname, hbytes⟩
    obtain ⟨header, hheader, hlist⟩ := getElem?_forall₂ hlists.flip hlisting
    obtain ⟨position, hposition⟩ := List.getElem?_of_mem hentry
    obtain ⟨place, hplaceAt, hlistsKey⟩ := getElem?_forall₂ hlist.keys.flip hposition
    have hplace := List.mem_of_getElem? hplaceAt
    obtain ⟨keyMeta, hmeta, hweak, -⟩ := hlistsKey.found
    have hweakKey : weakKeyOf db.storage place.keyMetaPtr = some key := by
      rw [weakKeyOf, hmeta, Option.bind_some, hweak, hname]
    have hkey := (hindexes.bound key _).mpr ⟨listed_of_mem hheader hplace, hweakKey⟩
    obtain ⟨found, hfound, hstored⟩ := hbound.stored key _ hkey
    have hcell : db.storage.Stores place.keyMetaPtr
        (payloadAt (db.storage.image header) place.offset) :=
      ⟨page, header, hheader, List.mem_map_of_mem hplace⟩
    have hsame := h.valid.stores_unique hstored hcell
    rw [hpayload hheader hplace, hlistsKey.offset, hbytes] at hsame
    rw [hfound, Str.ext hsame]

end Values

end FGDB.Restart
