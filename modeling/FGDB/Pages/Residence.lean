import FGDB.Pages.Steps

/-!
# The pages in memory and the queue

A page that enters the memory has to enter the queue. A new page does, and a
heated one does when the page of the arena that it gets has the number of its
own header, since this is the header that is touched. A value that is put into a
page of the snapshot file moves the page into memory without the queue.
-/

namespace FGDB.Pages

open Foundation HashMap
open FGDB.Vector (BoundedList Growth)

section Queue

/-- The links of the queue run through the list, from the bottom to the top. -/
structure LruQueue.Lists (q : LruQueue) (l : List ℕ) : Prop where
  bottom : q.bottom = l.head?
  top : q.top = l.getLast?
  next : ∀ (i page : ℕ), l[i]? = some page → q.next page = l[i + 1]?
  prev : ∀ (i page : ℕ), l[i + 1]? = some page → q.prev page = l[i]?

theorem newLruQueue_lists : newLruQueue.Lists [] := ⟨rfl, rfl, nofun, nofun⟩

theorem LruQueue.Lists.mem_of_bottom {q : LruQueue} {l : List ℕ} (h : q.Lists l) {page : ℕ}
    (hpage : q.bottom = some page) : page ∈ l :=
  List.mem_of_mem_head? (h.bottom ▸ hpage)

theorem LruQueue.Lists.mem_of_next {q : LruQueue} {l : List ℕ} (h : q.Lists l) {page next : ℕ}
    (hpage : page ∈ l) (hnext : q.next page = some next) : next ∈ l := by
  obtain ⟨i, hi⟩ := List.mem_iff_getElem?.mp hpage
  rw [h.next i page hi] at hnext
  exact List.mem_of_getElem? hnext

/-- A page that is not in the queue goes on top. -/
theorem LruQueue.Lists.touch {q : LruQueue} {l : List ℕ} (h : q.Lists l) (hnodup : l.Nodup)
    {page : ℕ} (hpage : page ∉ l) : (lruTouchPage q page).Lists (l ++ [page]) := by
  rcases List.eq_nil_or_concat l with rfl | ⟨front, last, rfl⟩
  · have hbottom : q.bottom = none := h.bottom
    have htop : q.top = none := h.top
    refine ⟨?_, rfl, fun i other hi ↦ ?_, fun i other hi ↦ ?_⟩
    · rw [lruTouchPage, hbottom]
      rfl
    · cases i with
      | zero =>
        obtain rfl : page = other := Option.some.inj hi
        simp only [lruTouchPage, htop, Option.elim_none, Function.update_self]
        rfl
      | succ i => cases hi
    · cases hi
  · rw [List.concat_eq_append] at *
    have htop : q.top = some last := by rw [h.top, List.getLast?_concat]
    have hne : page ≠ last := fun heq ↦ hpage (heq ▸ List.mem_append_right _ List.mem_cons_self)
    have hnext : (lruTouchPage q page).next =
        Function.update (Function.update q.next page none) last (some page) := by
      simp only [lruTouchPage, htop, Option.elim_some]
    have hprev : (lruTouchPage q page).prev = Function.update q.prev page (some last) := by
      simp only [lruTouchPage, htop]
    have hlast : (front ++ [last] ++ [page])[front.length]? = some last := by simp
    have hpagetop : (front ++ [last] ++ [page])[front.length + 1]? = some page := by simp
    have hfront (i : ℕ) (hi : i ≤ front.length) :
        (front ++ [last] ++ [page])[i]? = (front ++ [last])[i]? :=
      List.getElem?_append_left (by rw [List.length_append, List.length_singleton]; omega)
    refine ⟨?_, ?_, fun i other hi ↦ ?_, fun i other hi ↦ ?_⟩
    · rw [lruTouchPage, h.bottom]
      cases front <;> rfl
    · rw [List.getLast?_concat, lruTouchPage]
    · rcases lt_trichotomy i front.length with hlt | rfl | hgt
      · rw [hfront i hlt.le] at hi
        have hother : other ∈ front := by
          rw [List.getElem?_append_left hlt] at hi
          exact List.mem_of_getElem? hi
        have hotherlast : other ≠ last := fun heq ↦
          (List.nodup_append.mp hnodup).2.2 other hother last List.mem_cons_self heq
        have hotherpage : other ≠ page := fun heq ↦ hpage (heq ▸ List.mem_append_left _ hother)
        rw [hfront (i + 1) hlt, ← h.next i other hi, hnext,
          Function.update_of_ne hotherlast, Function.update_of_ne hotherpage]
      · obtain rfl : last = other := Option.some.inj (hlast.symm.trans hi)
        rw [hpagetop, hnext, Function.update_self]
      · obtain rfl : i = front.length + 1 := by
          have hin := (List.getElem?_eq_some_iff.mp hi).1
          simp only [List.length_append, List.length_singleton] at hin
          omega
        obtain rfl : page = other := Option.some.inj (hpagetop.symm.trans hi)
        rw [hnext, Function.update_of_ne hne, Function.update_self]
        simp
    · rcases lt_or_ge i front.length with hlt | hge
      · rw [hfront (i + 1) hlt] at hi
        have hother : other ≠ page := fun heq ↦ hpage (heq ▸ List.mem_of_getElem? hi)
        rw [hfront i hlt.le, ← h.prev i other hi, hprev, Function.update_of_ne hother]
      · obtain rfl : i = front.length := by
          have hin := (List.getElem?_eq_some_iff.mp hi).1
          simp only [List.length_append, List.length_singleton] at hin
          omega
        obtain rfl : page = other := Option.some.inj (hpagetop.symm.trans hi)
        rw [hlast, hprev, Function.update_self]

theorem leastRecentFrom_mem {states : ℕ → Option PageState} {q : LruQueue} {l : List ℕ}
    (h : q.Lists l) {fuel lr : ℕ} {start : Option ℕ} (hstart : ∀ page, start = some page → page ∈ l)
    (hfound : leastRecentFrom states q fuel start = .ok lr) : lr ∈ l := by
  induction fuel generalizing start with
  | zero => cases hfound
  | succ fuel ih =>
    cases start with
    | none => cases hfound
    | some page =>
      have hpage := hstart page rfl
      rw [leastRecentFrom] at hfound
      split at hfound
      · apply ih _ hfound
        intro next hnext
        cases hlink : q.next page with
        | none =>
          rw [hlink, Option.elim_none] at hnext
          exact h.mem_of_bottom hnext
        | some link =>
          rw [hlink, Option.elim_some] at hnext
          exact h.mem_of_next hpage (hlink.trans hnext)
      · rwa [← Except.ok.inj hfound]

/-- Only a page in the queue is taken out of it. -/
theorem leastRecentPage_mem {states : ℕ → Option PageState} {q q' : LruQueue} {l : List ℕ}
    (h : q.Lists l) {count lr : ℕ} (hfound : leastRecentPage states q count = .ok (q', lr)) :
    lr ∈ l := by
  obtain ⟨page, hfrom, hpage⟩ := bind_eq_ok.mp hfound
  have hresult := Prod.mk.inj (Except.ok.inj hpage)
  rw [← hresult.2]
  exact leastRecentFrom_mem h (fun _ ↦ h.mem_of_bottom) hfrom

end Queue

section Residence

variable {growth : Growth} {s s' : Storage}

/-- The page at a place is in memory. -/
def Storage.Resident (s : Storage) (index : ℕ) : Prop :=
  ∃ header, s.headers[index]? = some header ∧ header.location = .inMemory

/-- The queue lists the pages in memory, each of them once. -/
def Storage.QueueResident (s : Storage) : Prop :=
  ∃ l, s.lru.Lists l ∧ l.Nodup ∧ ∀ index, index ∈ l ↔ s.Resident index

theorem resident_set {index : ℕ} {header header' : PageHeader}
    (hhere : s.headers[index]? = some header) (hset : s'.headers = s.headers.set index header')
    (i : ℕ) : s'.Resident i ↔ if i = index then header'.location = .inMemory else s.Resident i := by
  have hlt : index < s.headers.length := (List.getElem?_eq_some_iff.mp hhere).1
  unfold Storage.Resident
  rw [hset, getElem?_set_ite hlt]
  by_cases hi : i = index
  · simp only [if_pos hi, Option.some.injEq, exists_eq_left']
  · simp only [if_neg hi]

/-- A header that is changed without a change of its location. -/
theorem resident_set_same {index : ℕ} {header header' : PageHeader}
    (hhere : s.headers[index]? = some header) (hset : s'.headers = s.headers.set index header')
    (hlocation : header'.location = header.location) (i : ℕ) : s'.Resident i ↔ s.Resident i := by
  rw [resident_set hhere hset]
  by_cases hi : i = index
  · rw [if_pos hi, hi, hlocation]
    unfold Storage.Resident
    simp only [hhere, Option.some.injEq, exists_eq_left']
  · rw [if_neg hi]

theorem Storage.QueueResident.same (h : s.QueueResident) (hlru : s'.lru = s.lru)
    (hresident : ∀ index, s'.Resident index ↔ s.Resident index) : s'.QueueResident := by
  obtain ⟨l, hlists, hnodup, hmem⟩ := h
  refine ⟨l, hlru ▸ hlists, hnodup, fun index ↦ ?_⟩
  rw [hmem, hresident]

/-- A page enters the memory and the queue. -/
theorem Storage.QueueResident.enter (h : s.QueueResident) {page : ℕ} (hcold : ¬ s.Resident page)
    (hlru : s'.lru = lruTouchPage s.lru page)
    (hresident : ∀ index, s'.Resident index ↔ s.Resident index ∨ index = page) :
    s'.QueueResident := by
  obtain ⟨l, hlists, hnodup, hmem⟩ := h
  have hpage : page ∉ l := fun hin ↦ hcold ((hmem page).mp hin)
  refine ⟨l ++ [page], hlru ▸ hlists.touch hnodup hpage, ?_, fun index ↦ ?_⟩
  · rw [List.nodup_append]
    refine ⟨hnodup, List.nodup_cons.mpr ⟨List.not_mem_nil, List.nodup_nil⟩, fun a ha b hb ↦ ?_⟩
    rw [List.mem_singleton.mp hb]
    exact fun heq ↦ hpage (heq ▸ ha)
  · rw [List.mem_append, List.mem_singleton, hmem, hresident]

/-- Eviction takes a page that is in memory. -/
theorem Storage.QueueResident.evicts (h : s.QueueResident) {lru : LruQueue} {lr : ℕ}
    (hfound : leastRecentPage s.states s.lru s.headers.length = .ok (lru, lr)) :
    s.Resident lr := by
  obtain ⟨l, hlists, -, hmem⟩ := h
  exact (hmem lr).mp (leastRecentPage_mem hlists hfound)

inductive PageCall
  | get (key : KeyMeta)
  | set (value : Str)
  | unset (key : KeyMeta)
  deriving DecidableEq, Repr

/-- A call, and the page it returns. The meta of a new value is a fresh one. -/
def pageStep (growth : Growth) (s : Storage) : PageCall → Outcome (Storage × Option ℕ)
  | .get key => do
    let (s, result) ← pageValueGet s key
    return (s, result.map Prod.fst)
  | .set value => do
    let (s, pointer) := s.newMeta
    let (s, index) ← pageValueSet growth s value pointer
    return (s, some index)
  | .unset key => do
    let (s, result) ← pageValueUnset s key
    return (s, result.map Prod.fst)

def ArenaNotFull (s : Storage) (_ : PageCall) : Prop :=
  s.arena.uploadedPages < s.arena.allocatedPages

/-- Pages are heated in the order of their numbers, and a value goes to a page in memory. -/
def InOrder (s : Storage) : PageCall → Prop
  | .get key | .unset key => ∀ header, s.headers[key.page]? = some header →
    header.location = .inDisk → s.arena.uploadedPages = key.page
  | .set value => ∀ index, (searchPage value.size s.headers 0 none = .ok (.fits index) ∨
    searchPage value.size s.headers 0 none = .ok (.prefered index)) → s.Resident index

theorem warmHeader_queueResident (h : s.QueueResident) {page : ℕ} {header' : PageHeader}
    (hroom : s.arena.uploadedPages < s.arena.allocatedPages)
    (horder : ∀ header, s.headers[page]? = some header → header.location = .inDisk →
      s.arena.uploadedPages = page) (hwarm : warmHeader s page = .ok (s', header')) :
    s'.QueueResident ∧ s'.headers[page]? = some header' := by
  obtain ⟨header, hhere, ⟨-, rfl, rfl⟩ | hheated⟩ := warmHeader_shape hwarm
  · exact ⟨h, hhere⟩
  · have hpage := horder header hhere hheated.cold
    have hlt : page < s.headers.length := (List.getElem?_eq_some_iff.mp hhere).1
    have hcold : ¬ s.Resident page := by
      intro ⟨other, hother, hmemory⟩
      obtain rfl : header = other := Option.some.inj (hhere.symm.trans hother)
      exact absurd (hheated.cold.symm.trans hmemory) (by decide)
    refine ⟨h.enter hcold (hpage ▸ (hheated.fresh hroom).1) fun index ↦ ?_, ?_⟩
    · rw [resident_set hhere hheated.headers]
      by_cases hindex : index = page
      · rw [if_pos hindex, hheated.same]
        exact iff_of_true rfl (.inr hindex)
      · rw [if_neg hindex]
        exact ⟨.inl, fun hor ↦ hor.resolve_right hindex⟩
    · rw [hheated.headers, List.getElem?_set_self hlt]

theorem headersAllocPage_queueResident (h : s.QueueResident) {size index : ℕ}
    (hroom : s.arena.uploadedPages < s.arena.allocatedPages)
    (horder : ∀ index, (searchPage size s.headers 0 none = .ok (.fits index) ∨
      searchPage size s.headers 0 none = .ok (.prefered index)) → s.Resident index)
    (halloc : AllocatedPage growth s s' size index) : s'.QueueResident ∧ s'.Resident index := by
  cases halloc with
  | fits hsearch hsame => exact hsame ▸ ⟨h, horder index (.inl hsearch)⟩
  | prefered hsearch header header' hmoved =>
    have hsame := resident_set_same hmoved.here hmoved.headers hmoved.location
    exact ⟨h.same hmoved.lru hsame, (hsame index).mpr (horder index (.inr hsearch))⟩
  | noPage hsearch header hnew =>
    have hresident (i : ℕ) : s'.Resident i ↔ s.Resident i ∨ i = s.headers.length := by
      unfold Storage.Resident
      rw [hnew.headers, getElem?_concat_ite]
      by_cases hi : i = s.headers.length
      · rw [if_pos hi]
        exact iff_of_true ⟨header, rfl, hnew.location⟩ (.inr hi)
      · rw [if_neg hi]
        exact ⟨.inl, fun hor ↦ hor.resolve_right hi⟩
    have hcold : ¬ s.Resident s.headers.length := by
      intro ⟨other, hother, _⟩
      rw [List.getElem?_eq_none le_rfl] at hother
      cases hother
    exact ⟨h.enter hcold (hnew.fresh hroom).1 hresident, (hresident index).mpr (.inr hnew.index)⟩

theorem pageStep_queueResident {call : PageCall} {output : Option ℕ} (h : s.QueueResident)
    (hroom : ArenaNotFull s call) (horder : InOrder s call)
    (hstep : pageStep growth s call = .ok (s', output)) : s'.QueueResident := by
  cases call with
  | get key =>
    obtain ⟨⟨s1, result⟩, hget, hresult⟩ := bind_eq_ok.mp hstep
    obtain ⟨header, hwarm⟩ := pageValueGet_shape hget
    rw [← (Prod.mk.inj (Except.ok.inj hresult)).1]
    exact (warmHeader_queueResident h hroom horder hwarm).1
  | set value =>
    obtain ⟨⟨s1, index⟩, hset, hresult⟩ := bind_eq_ok.mp hstep
    obtain ⟨s2, header, keys, keyMeta, halloc, hheader, -, -, hplaced⟩ := pageValueSet_shape hset
    have hfresh : s.newMeta.1.QueueResident := h
    obtain ⟨hqueue, hmemory⟩ := headersAllocPage_queueResident hfresh hroom horder halloc
    obtain ⟨other, hother, hlocation⟩ := hmemory
    obtain rfl : header = other := Option.some.inj (hheader.symm.trans hother)
    rw [← (Prod.mk.inj (Except.ok.inj hresult)).1, hplaced]
    exact hqueue.same rfl (resident_set_same hheader rfl hlocation.symm)
  | unset key =>
    obtain ⟨⟨s1, result⟩, hunset, hresult⟩ := bind_eq_ok.mp hstep
    obtain ⟨s2, header, hwarm, hrest⟩ := pageValueUnset_shape hunset
    obtain ⟨hqueue, hhere⟩ := warmHeader_queueResident h hroom horder hwarm
    rw [← (Prod.mk.inj (Except.ok.inj hresult)).1]
    rcases hrest with ⟨-, rfl, -⟩ | ⟨header', value, hmoved, -⟩
    · exact hqueue
    · exact hqueue.same hmoved.lru (resident_set_same hhere hmoved.headers hmoved.location)

/-- The pages of a snapshot are in its file, and the queue is new. -/
structure Reloaded (s : Storage) : Prop where
  lru : s.lru = newLruQueue
  uploaded : s.arena.uploadedPages = 0
  headers : ∀ (index : ℕ) (header : PageHeader), s.headers[index]? = some header →
    header.pageId = index ∧ header.location = .inDisk

theorem Reloaded.queueResident (h : Reloaded s) : s.QueueResident := by
  refine ⟨[], h.lru ▸ newLruQueue_lists, List.nodup_nil, fun index ↦ ?_⟩
  refine iff_of_false List.not_mem_nil fun ⟨header, hheader, hmemory⟩ ↦ ?_
  exact absurd ((h.headers index header hheader).2.symm.trans hmemory) (by decide)

/-- After the calls the queue lists the pages in memory, and eviction takes one of them. -/
def KeepsQueue (growth : Growth) (start : Storage) (calls : List PageCall) : Prop :=
  ∀ s outputs, run (pageStep growth) start calls = .ok (s, outputs) → s.QueueResident ∧
    ∀ lru lr, leastRecentPage s.states s.lru s.headers.length = .ok (lru, lr) → s.Resident lr

/-- As long as the arena is not full, every state that ordered calls reach from a snapshot keeps
the pages in memory in the queue. -/
theorem keepsQueue_of_inOrder {start : Storage} (hstart : Reloaded start) {calls : List PageCall}
    (hroom : EachStep (pageStep growth) ArenaNotFull start calls)
    (horder : EachStep (pageStep growth) InOrder start calls) (done : List PageCall)
    (hdone : done <+: calls) : KeepsQueue growth start done := by
  obtain ⟨rest, rfl⟩ := hdone
  intro s outputs hrun
  have hqueue : s.QueueResident :=
    run_invariant (fun _ _ _ _ h hok hstep ↦ pageStep_queueResident h hok.1 hok.2 hstep)
      hstart.queueResident (hroom.take.and horder.take) hrun
  exact ⟨hqueue, fun _ _ hfound ↦ hqueue.evicts hfound⟩

/-- A snapshot with one page that holds nothing. -/
def emptySnapshot : Storage where
  arena := ⟨2, 0, ⟨[⟨0, 0, ⟨[], 1, Nat.zero_le 1⟩, 0, 0, 0, .clean, .inDisk⟩], 1, le_rfl⟩, fun _ ↦ 0⟩
  lru := newLruQueue
  disk := ⟨1, 0, 0, 0, ⟨List.replicate (8 + 4096) 0, 8⟩, ⟨List.replicate 12 0, 8⟩⟩
  metas := []

theorem emptySnapshot_reloaded : Reloaded emptySnapshot := by
  refine ⟨rfl, rfl, fun index header hheader ↦ ?_⟩
  cases index with
  | zero =>
    rw [← Option.some.inj hheader]
    exact ⟨rfl, rfl⟩
  | succ index => cases hheader

/-- The only page of the snapshot is heated first. -/
theorem keepsQueue_heated : KeepsQueue .source emptySnapshot [.get ⟨none, 0, 0⟩] := by
  apply keepsQueue_of_inOrder emptySnapshot_reloaded _ _ _ (List.prefix_refl _)
  · exact ⟨Nat.two_pos, fun _ _ _ ↦ trivial⟩
  · exact ⟨fun _ _ _ ↦ rfl, fun _ _ _ ↦ trivial⟩

/-- A value that is put into a page of the snapshot moves it into memory, not into the queue. -/
theorem not_keepsQueue_set : Reloaded emptySnapshot ∧
    EachStep (pageStep .source) ArenaNotFull emptySnapshot [.set ⟨[118], by decide⟩] ∧
      ¬ KeepsQueue .source emptySnapshot [.set ⟨[118], by decide⟩] := by
  refine ⟨emptySnapshot_reloaded, ⟨Nat.two_pos, fun _ _ _ ↦ trivial⟩, fun h ↦ ?_⟩
  obtain ⟨⟨l, hlists, -, hmem⟩, -⟩ := h _ _ rfl
  have hempty : l.head? = none := hlists.bottom.symm
  have hresident : 0 ∈ l := (hmem 0).mpr ⟨_, rfl, rfl⟩
  rw [List.head?_eq_none_iff.mp hempty] at hresident
  exact List.not_mem_nil hresident

end Residence

end FGDB.Pages
