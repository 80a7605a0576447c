import FGDB.Pages.Defragmentation
import FGDB.Pages.Placement

/-!
# What the page operations do to the headers

Whatever bytes the pages hold, a call that returns has changed the headers, the
metas and the queue in one of a few ways. These are said here once for each
function, for storages about whose pages nothing is known.
-/

namespace FGDB.Pages

open Foundation HashMap
open FGDB.Vector (BoundedList Growth)

variable {growth : Growth} {s s' : Storage}

/-- The headers, the metas and the size of the arena are as before. -/
structure SameHeaders (s s' : Storage) : Prop where
  headers : s'.arena.headers = s.arena.headers
  metas : s'.metas = s.metas
  allocated : s'.arena.allocatedPages = s.arena.allocatedPages

theorem SameHeaders.refl (s : Storage) : SameHeaders s s := ⟨rfl, rfl, rfl⟩

/-- A page of the arena that was not in use is handed out. -/
structure TakesFresh (s s' : Storage) (arenaId : ℕ) : Prop where
  lru : s'.lru = s.lru
  uploaded : s'.arena.uploadedPages = s.arena.uploadedPages + 1
  arenaId : arenaId = s.arena.uploadedPages

theorem header_eq_ok {index : ℕ} {header : PageHeader} :
    s.header index = .ok header ↔ s.headers[index]? = some header := elim_eq_ok

theorem arenaGetNextPage_shape {arenaId : ℕ} (h : arenaGetNextPage s = .ok (s', arenaId)) :
    SameHeaders s s' ∧
      (s.arena.uploadedPages < s.arena.allocatedPages → TakesFresh s s' arenaId) := by
  unfold arenaGetNextPage at h
  by_cases hroom : s.arena.uploadedPages < s.arena.allocatedPages
  · rw [if_pos hroom, Except.ok.injEq, Prod.mk.injEq] at h
    rw [← h.1, ← h.2]
    exact ⟨⟨rfl, rfl, rfl⟩, fun _ ↦ ⟨rfl, rfl, rfl⟩⟩
  · rw [if_neg hroom] at h
    obtain ⟨⟨lru, lr⟩, -, h⟩ := bind_eq_ok.mp h
    obtain ⟨header, -, h⟩ := bind_eq_ok.mp h
    obtain ⟨s1, hdump, h⟩ := bind_eq_ok.mp h
    obtain ⟨_, -, hdump⟩ := bind_eq_ok.mp hdump
    obtain ⟨_, -, hdump⟩ := bind_eq_ok.mp hdump
    rw [pure_eq_ok, Except.ok.injEq] at hdump
    rw [pure_eq_ok, Except.ok.injEq, Prod.mk.injEq] at h
    rw [← h.1, ← hdump]
    exact ⟨⟨rfl, rfl, rfl⟩, fun hlt ↦ absurd hlt hroom⟩

/-- A write to the arena changes the bytes of its pages only. -/
theorem write_shape {arena arena' : Arena} {address : ℕ} {data : List UInt8}
    (h : arena.write address data = .ok arena') : arena' = { arena with pages := arena'.pages } := by
  unfold Arena.write at h
  split at h
  · rw [← Except.ok.inj h]
  · cases h

theorem diskUploadPage_shape {diskPageIdx arenaIdx : ℕ}
    (h : diskUploadPage s diskPageIdx arenaIdx = .ok s') : SameHeaders s s' ∧
      s'.lru = s.lru ∧ s'.arena.uploadedPages = s.arena.uploadedPages := by
  unfold diskUploadPage at h
  obtain ⟨arena, hwrite, h⟩ := bind_eq_ok.mp h
  split at h
  · cases h
  · rw [pure_eq_ok, Except.ok.injEq] at h
    rw [← h, write_shape hwrite]
    exact ⟨⟨rfl, rfl, rfl⟩, rfl, rfl⟩

/-- Heating touches the header that has the number of the arena page. -/
theorem heatPage_shape {pageId arenaId : ℕ} (h : heatPage s pageId = .ok (s', arenaId)) :
    SameHeaders s s' ∧ (∃ s1, arenaGetNextPage s = .ok (s1, arenaId)) ∧ (s.arena.uploadedPages < s.arena.allocatedPages →
      s'.lru = lruTouchPage s.lru s.arena.uploadedPages ∧
        s'.arena.uploadedPages = s.arena.uploadedPages + 1) := by
  unfold heatPage at h
  obtain ⟨⟨s1, arenaPageId⟩, hnext, h⟩ := bind_eq_ok.mp h
  obtain ⟨s2, hupload, h⟩ := bind_eq_ok.mp h
  obtain ⟨_, -, h⟩ := bind_eq_ok.mp h
  rw [pure_eq_ok, Except.ok.injEq, Prod.mk.injEq] at h
  obtain ⟨hsame1, hfresh⟩ := arenaGetNextPage_shape hnext
  obtain ⟨hsame2, hlru, huploaded⟩ := diskUploadPage_shape hupload
  rw [← h.1, ← h.2]
  refine ⟨⟨?_, ?_, ?_⟩, ⟨s1, hnext⟩, fun hroom ↦ ⟨?_, ?_⟩⟩
  · exact hsame2.headers.trans hsame1.headers
  · exact hsame2.metas.trans hsame1.metas
  · exact hsame2.allocated.trans hsame1.allocated
  · rw [hlru, (hfresh hroom).lru, (hfresh hroom).arenaId]
  · exact huploaded.trans (hfresh hroom).uploaded

/-- A cold page has been heated. -/
structure Heated (s s' : Storage) (page : ℕ) (header header' : PageHeader) : Prop where
  cold : header.location = .inDisk
  arenaId : ∃ s1, arenaGetNextPage s = .ok (s1, header'.arenaId)
  same : header' = { header with arenaId := header'.arenaId, location := .inMemory }
  headers : s'.headers = s.headers.set page header'
  metas : s'.metas = s.metas
  allocated : s'.arena.allocatedPages = s.arena.allocatedPages
  fresh : s.arena.uploadedPages < s.arena.allocatedPages →
    s'.lru = lruTouchPage s.lru s.arena.uploadedPages ∧
      s'.arena.uploadedPages = s.arena.uploadedPages + 1

theorem warmHeader_shape {page : ℕ} {header' : PageHeader}
    (h : warmHeader s page = .ok (s', header')) :
    ∃ header, s.headers[page]? = some header ∧
      ((header.location ≠ .inDisk ∧ s' = s ∧ header' = header) ∨
        Heated s s' page header header') := by
  unfold warmHeader at h
  obtain ⟨header, hheader, h⟩ := bind_eq_ok.mp h
  refine ⟨header, elim_eq_ok.mp hheader, ?_⟩
  by_cases hcold : header.location = .inDisk
  · rw [if_pos hcold] at h
    obtain ⟨⟨s1, arenaId⟩, hheat, h⟩ := bind_eq_ok.mp h
    have hresult := Prod.mk.inj (Except.ok.inj h)
    obtain ⟨hsame, hnext, hfresh⟩ := heatPage_shape hheat
    rw [← hresult.1, ← hresult.2]
    refine .inr ⟨hcold, hnext, rfl, ?_, hsame.metas, hsame.allocated, hfresh⟩
    rw [Storage.headers, Storage.headers, ← hsame.headers]
    rfl
  · rw [if_neg hcold, pure_eq_ok, Except.ok.injEq, Prod.mk.injEq] at h
    exact .inl ⟨hcold, h.1.symm, h.2.symm⟩

theorem warmHeader_here {page : ℕ} {header' : PageHeader}
    (h : warmHeader s page = .ok (s', header')) : s'.headers[page]? = some header' := by
  obtain ⟨header, hhere, ⟨-, hsame, hheader⟩ | hheated⟩ := warmHeader_shape h
  · rw [hsame, hheader]
    exact hhere
  · rw [hheated.headers, List.getElem?_set_self (List.getElem?_eq_some_iff.mp hhere).1]

/-- The loop of the defragmentation changes bytes and offsets. -/
theorem defragmentateFrom_shape {start blockId offset offset' : ℕ} {todo : List PageHeaderKey}
    {arena arena' : Arena} {done keys' : BoundedList PageHeaderKey}
    {before : List PageHeaderKey} (hkeys : done.contents = before ++ todo)
    (hblock : blockId = before.length)
    (h : defragmentateFrom start todo blockId offset (arena, done) =
      .ok ((arena', keys'), offset')) :
    arena' = { arena with pages := arena'.pages } ∧
      keys'.contents.map PageHeaderKey.keyMetaPtr =
        done.contents.map PageHeaderKey.keyMetaPtr ∧ keys'.capacity = done.capacity := by
  induction todo generalizing blockId offset arena done before with
  | nil =>
    rw [defragmentateFrom, Except.ok.injEq, Prod.mk.injEq, Prod.mk.injEq] at h
    rw [← h.1.1, ← h.1.2]
    exact ⟨rfl, rfl, rfl⟩
  | cons key rest ih =>
    rw [defragmentateFrom] at h
    obtain ⟨_, -, h⟩ := bind_eq_ok.mp h
    obtain ⟨value, -, h⟩ := bind_eq_ok.mp h
    obtain ⟨arena1, hwrite, h⟩ := bind_eq_ok.mp h
    obtain ⟨_, -, h⟩ := bind_eq_ok.mp h
    have hset : (done.set blockId { key with offset := wrap16 offset }).contents =
        (before ++ [{ key with offset := wrap16 offset }]) ++ rest := by
      change done.contents.set blockId _ = _
      rw [hkeys, hblock, List.set_append_right _ _ le_rfl, Nat.sub_self, List.set_cons_zero,
        List.append_assoc, List.singleton_append]
    obtain ⟨harena, hpointers, hcapacity⟩ := ih hset (by rw [hblock, List.length_append,
      List.length_singleton]) h
    refine ⟨?_, ?_, hcapacity⟩
    · rw [harena, write_shape hwrite]
    · rw [hpointers, hset, hkeys, List.map_append, List.map_append, List.map_append,
        List.append_assoc]
      rfl

/-- A page has been rearranged. -/
structure Rearranged (s s' : Storage) (index : ℕ) (header header' : PageHeader) : Prop where
  here : s.headers[index]? = some header
  headers : s'.headers = s.headers.set index header'
  pageId : header'.pageId = header.pageId
  arenaId : header'.arenaId = header.arenaId
  location : header'.location = header.location
  pointers : header'.keys.contents.map PageHeaderKey.keyMetaPtr =
    header.keys.contents.map PageHeaderKey.keyMetaPtr
  capacity : header'.keys.capacity = header.keys.capacity
  metas : s'.metas = s.metas
  lru : s'.lru = s.lru
  uploaded : s'.arena.uploadedPages = s.arena.uploadedPages
  allocated : s'.arena.allocatedPages = s.arena.allocatedPages

theorem arenaDefragmentatePage_shape {pageId index : ℕ}
    (h : arenaDefragmentatePage s pageId index = .ok s') :
    ∃ header header', Rearranged s s' index header header' := by
  unfold arenaDefragmentatePage at h
  obtain ⟨header, hheader, h⟩ := bind_eq_ok.mp h
  obtain ⟨⟨⟨arena, keys⟩, offset⟩, hloop, h⟩ := bind_eq_ok.mp h
  obtain ⟨harena, hpointers, hcapacity⟩ := defragmentateFrom_shape (List.nil_append _).symm rfl hloop
  simp only [] at h
  split at h
  · cases h
  · obtain ⟨arena', hwrite, h⟩ := bind_eq_ok.mp h
    rw [pure_eq_ok, Except.ok.injEq] at h
    have hpages : arena' = { s.arena with pages := arena'.pages } := by
      rw [write_shape hwrite, harena]
    rw [hpages] at h
    obtain ⟨header', hheader'⟩ : ∃ header', header' = { header with
        keys := keys, fragmentatedBytes := 0, offsetBytes := wrap16 offset, state := .dirty } :=
      ⟨_, rfl⟩
    have hresult : s' = defragmentated s index arena'.pages header' := by
      rw [← h, hheader']
      rfl
    rw [hresult]
    refine ⟨header, header', header_eq_ok.mp hheader, rfl, ?_, ?_, ?_, ?_, ?_, rfl, rfl, rfl, rfl⟩
    · rw [hheader']
    · rw [hheader']
    · rw [hheader']
    · rw [hheader', hpointers]
    · rw [hheader', hcapacity]

/-- A new page stands behind the others. -/
structure NewPage (s s' : Storage) (index : ℕ) (header : PageHeader) : Prop where
  index : index = s.headers.length
  headers : s'.headers = s.headers ++ [header]
  pageId : header.pageId = s.headers.length
  arenaId : ∃ s1, arenaGetNextPage s = .ok (s1, header.arenaId)
  location : header.location = .inMemory
  keys : header.keys.contents = []
  metas : s'.metas = s.metas
  allocated : s'.arena.allocatedPages = s.arena.allocatedPages
  fresh : s.arena.uploadedPages < s.arena.allocatedPages →
    s'.lru = lruTouchPage s.lru s.headers.length ∧
      s'.arena.uploadedPages = s.arena.uploadedPages + 1

theorem headersNewPage_shape {index : ℕ} (h : headersNewPage growth s = .ok (s', index)) :
    ∃ header, NewPage s s' index header := by
  unfold headersNewPage at h
  obtain ⟨⟨s1, arenaId⟩, hnext, h⟩ := bind_eq_ok.mp h
  obtain ⟨headers, hadd, h⟩ := bind_eq_ok.mp h
  obtain ⟨hsame, hfresh⟩ := arenaGetNextPage_shape hnext
  have hresult := Prod.mk.inj (Except.ok.inj h)
  have hcontents := (BoundedList.add_eq_ok.mp hadd).2.1
  rw [hsame.headers] at hcontents
  rw [← hresult.1, ← hresult.2]
  refine ⟨_, rfl, hcontents, rfl, ⟨s1, hnext⟩, rfl, rfl, hsame.metas, hsame.allocated,
    fun hroom ↦ ⟨?_, ?_⟩⟩
  · simp only [(hfresh hroom).lru]
  · exact (hfresh hroom).uploaded

/-- The page that a value goes to has been found, rearranged or made. -/
inductive AllocatedPage (growth : Growth) (s s' : Storage) (valueSize index : ℕ) : Prop
  | fits (hsearch : searchPage valueSize s.headers 0 none = .ok (.fits index)) (hsame : s' = s)
  | prefered (hsearch : searchPage valueSize s.headers 0 none = .ok (.prefered index))
    (header header' : PageHeader) (hrearranged : Rearranged s s' index header header')
  | noPage (hsearch : searchPage valueSize s.headers 0 none = .ok .noPage) (header : PageHeader)
    (hnew : NewPage s s' index header)

theorem headersAllocPage_shape {valueSize index : ℕ}
    (h : headersAllocPage growth s valueSize = .ok (s', index)) :
    AllocatedPage growth s s' valueSize index := by
  unfold headersAllocPage at h
  obtain ⟨choice, hsearch, h⟩ := bind_eq_ok.mp h
  cases choice with
  | fits index' =>
    have hresult := Prod.mk.inj (Except.ok.inj h)
    rw [← hresult.2, ← hresult.1]
    exact .fits hsearch rfl
  | noPage =>
    obtain ⟨header, hnew⟩ := headersNewPage_shape h
    exact .noPage hsearch header hnew
  | prefered index' =>
    obtain ⟨header, -, h⟩ := bind_eq_ok.mp h
    obtain ⟨s1, hdefrag, h⟩ := bind_eq_ok.mp h
    obtain ⟨header1, -, h⟩ := bind_eq_ok.mp h
    split at h
    · have hresult := Prod.mk.inj (Except.ok.inj h)
      rw [← hresult.2, ← hresult.1]
      obtain ⟨header, header', hrearranged⟩ := arenaDefragmentatePage_shape hdefrag
      exact .prefered hsearch header header' hrearranged
    · cases h

theorem pageValueSet_shape {value : Str} {pointer index : ℕ}
    (h : pageValueSet growth s value pointer = .ok (s', index)) :
    ∃ s1 header keys keyMeta, AllocatedPage growth s s1 value.size index ∧
      s1.headers[index]? = some header ∧
      header.keys.add growth ⟨wrap16 header.offsetBytes, pointer⟩ = .ok keys ∧
      s1.metas[pointer]? = some keyMeta ∧
      s' = placed s1 value pointer index header keys keyMeta := by
  unfold pageValueSet at h
  obtain ⟨⟨s1, index'⟩, halloc, h⟩ := bind_eq_ok.mp h
  obtain ⟨s2, hplace, h⟩ := bind_eq_ok.mp h
  have hresult := Prod.mk.inj (Except.ok.inj h)
  obtain ⟨header, keys, keyMeta, hheader, hadd, hmeta, -, hplaced⟩ := placeValue_eq_ok.mp hplace
  rw [← hresult.1, ← hresult.2]
  exact ⟨s1, header, keys, keyMeta, headersAllocPage_shape halloc, hheader, hadd, hmeta, hplaced⟩

/-- The storage with a key taken out of a page in memory. -/
structure Unset (s s' : Storage) (key : KeyMeta) (header header' : PageHeader) : Prop where
  memory : header.location = .inMemory
  headers : s'.headers = s.headers.set key.page header'
  pageId : header'.pageId = header.pageId
  arenaId : header'.arenaId = header.arenaId
  location : header'.location = header.location
  keys : header'.keys.contents = header.keys.contents.eraseIdx key.headerKeyId
  found : key.headerKeyId < header.keys.contents.length
  metas : recountKeys s.metas (header'.keys.contents.drop key.headerKeyId) = .ok s'.metas
  lru : s'.lru = s.lru
  uploaded : s'.arena.uploadedPages = s.arena.uploadedPages
  allocated : s'.arena.allocatedPages = s.arena.allocatedPages

theorem pageValueUnset_shape {key : KeyMeta} {result : Option (ℕ × Str)}
    (h : pageValueUnset s key = .ok (s', result)) :
    ∃ s1 header, warmHeader s key.page = .ok (s1, header) ∧
      ((header.location ≠ .inMemory ∧ s' = s1 ∧ result = none) ∨
        ∃ header' value, Unset s1 s' key header header' ∧ result = some (key.page, value)) := by
  unfold pageValueUnset at h
  obtain ⟨⟨s1, header⟩, hwarm, h⟩ := bind_eq_ok.mp h
  refine ⟨s1, header, hwarm, ?_⟩
  simp only [] at h
  split at h
  · rename_i hmemory
    obtain ⟨metas, hrecount, h⟩ := bind_eq_ok.mp h
    obtain ⟨deleted, hdeleted, h⟩ := bind_eq_ok.mp h
    obtain ⟨value, -, h⟩ := bind_eq_ok.mp h
    have hresult := Prod.mk.inj (Except.ok.inj h)
    have hfound : key.headerKeyId < header.keys.contents.length := by
      by_contra hout
      rw [List.getElem?_eq_none (Nat.le_of_not_lt hout)] at hdeleted
      cases hdeleted
    rw [← hresult.1, ← hresult.2]
    exact .inr ⟨_, value, ⟨hmemory, rfl, rfl, rfl, rfl, rfl, hfound, hrecount, rfl, rfl, rfl⟩, rfl⟩
  · rename_i hcold
    have hresult := Prod.mk.inj (Except.ok.inj h)
    exact .inl ⟨hcold, hresult.1.symm, hresult.2.symm⟩

theorem pageValueGet_shape {key : KeyMeta} {result : Option (ℕ × Str)}
    (h : pageValueGet s key = .ok (s', result)) :
    ∃ header, warmHeader s key.page = .ok (s', header) := by
  unfold pageValueGet at h
  obtain ⟨⟨s1, header⟩, hwarm, h⟩ := bind_eq_ok.mp h
  refine ⟨header, ?_⟩
  simp only [] at h
  split at h
  · split at h
    · have hresult := Prod.mk.inj (Except.ok.inj h)
      rw [hwarm, hresult.1]
    · obtain ⟨value, -, h⟩ := bind_eq_ok.mp h
      have hresult := Prod.mk.inj (Except.ok.inj h)
      rw [hwarm, hresult.1]
  · have hresult := Prod.mk.inj (Except.ok.inj h)
    rw [hwarm, hresult.1]

end FGDB.Pages
