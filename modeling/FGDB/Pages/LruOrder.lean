import FGDB.Pages.Residence
import Mathlib.Data.List.Nodup

/-!
# The order in which pages leave the queue

The queue is to be the list of the touched pages, in the order of their last
touch, and the least recent page that is not being processed leaves it. Two
updates of the links miss this: a page that is touched while it is queued stays
where it is and becomes the top as well, and a page that leaves from the top
takes the top along with it.
-/

namespace FGDB.Pages

open Foundation

/-- A call on the queue, or a change of the state of a page between two calls. -/
inductive LruCall
  | touch (page : ℕ)
  | setState (page : ℕ) (state : PageState)
  | leastRecent
  deriving DecidableEq

/-- The queue of so many headers, and the page that a call returns. -/
def lruStep (count : ℕ) : LruQueue × (ℕ → Option PageState) → LruCall →
    Outcome ((LruQueue × (ℕ → Option PageState)) × Option ℕ)
  | (q, states), .touch page => .ok ((lruTouchPage q page, states), none)
  | (q, states), .setState page state => .ok ((q, Function.update states page (some state)), none)
  | (q, states), .leastRecent => do
    let (q, lr) ← leastRecentPage states q count
    return ((q, states), some lr)

/-- The pages in the order of their last touch. -/
def recencyStep : List ℕ × (ℕ → Option PageState) → LruCall →
    (List ℕ × (ℕ → Option PageState)) × Option ℕ
  | (pages, states), .touch page => ((pages.erase page ++ [page], states), none)
  | (pages, states), .setState page state =>
    ((pages, Function.update states page (some state)), none)
  | (pages, states), .leastRecent =>
    match pages.find? fun page ↦ states page ≠ some .processing with
    | some lr => ((pages.erase lr, states), some lr)
    | none => ((pages, states), none)

/-- The pages that are touched have headers, and the least recent page is asked for while a queued
page is not being processed. -/
def Asked (count : ℕ) : List ℕ × (ℕ → Option PageState) → LruCall → Prop
  | _, .touch page => page < count
  | _, .setState _ _ => True
  | (pages, states), .leastRecent => ∃ page ∈ pages, states page ≠ some .processing

instance (count : ℕ) (model : List ℕ × (ℕ → Option PageState)) (call : LruCall) :
    Decidable (Asked count model call) :=
  match model, call with
  | _, .touch page => inferInstanceAs (Decidable (page < count))
  | _, .setState _ _ => isTrue trivial
  | (pages, states), .leastRecent =>
    inferInstanceAs (Decidable (∃ page ∈ pages, states page ≠ some .processing))

/-- Both ends and all links of the queue are those of the list. -/
structure LruQueue.Consistent (q : LruQueue) (l : List ℕ) : Prop extends q.Lists l where
  first : ∀ page, l[0]? = some page → q.prev page = none

/-- The queue holds each of the pages once. -/
structure Ordered (count : ℕ) (state : LruQueue × (ℕ → Option PageState))
    (model : List ℕ × (ℕ → Option PageState)) : Prop where
  queue : state.1.Consistent model.1
  nodup : model.1.Nodup
  inside : ∀ page ∈ model.1, page < count
  states : state.2 = model.2

/-- After any number of the calls the queue is the list of the pages, and the calls have returned
the pages that were due. -/
def KeepsOrder (count : ℕ) (states : ℕ → Option PageState) (calls : List LruCall) : Prop :=
  ∀ done, done <+: calls → ∃ final, run (lruStep count) (newLruQueue, states) done =
    .ok (final, (runSpec recencyStep ([], states) done).2) ∧
      Ordered count final (runSpec recencyStep ([], states) done).1

/-- Follow the links of the queue from the bottom. -/
def LruQueue.pagesFrom (q : LruQueue) : ℕ → Option ℕ → List ℕ
  | 0, _ => []
  | _ + 1, none => []
  | fuel + 1, some page => page :: q.pagesFrom fuel (q.next page)

def LruQueue.pages (q : LruQueue) (count : ℕ) : List ℕ := q.pagesFrom count q.bottom

/-- No page is touched while it is queued, and a page below the top is due, or the only page. -/
def StaysLinked (count : ℕ) : LruQueue × (ℕ → Option PageState) → LruCall → Prop
  | (q, _), .touch page => page ∉ q.pages count
  | _, .setState _ _ => True
  | (q, states), .leastRecent => (q.pages count).length = 1 ∨
      ∃ page ∈ (q.pages count).dropLast, states page ≠ some .processing

instance (count : ℕ) (state : LruQueue × (ℕ → Option PageState)) (call : LruCall) :
    Decidable (StaysLinked count state call) :=
  match state, call with
  | (q, _), .touch page => inferInstanceAs (Decidable (page ∉ q.pages count))
  | _, .setState _ _ => isTrue trivial
  | (q, states), .leastRecent => inferInstanceAs (Decidable ((q.pages count).length = 1 ∨
      ∃ page ∈ (q.pages count).dropLast, states page ≠ some .processing))

section Links

variable {q : LruQueue} {l : List ℕ} {states : ℕ → Option PageState} {page lr place : ℕ}

theorem LruQueue.Lists.bottom_eq (h : q.Lists l) : q.bottom = l[0]? := by
  rw [h.bottom, List.head?_eq_getElem?]

theorem LruQueue.Lists.top_eq (h : q.Lists l) : q.top = l[l.length - 1]? := by
  rw [h.top, List.getLast?_eq_getElem?]

/-- The links lead through the list. -/
theorem LruQueue.Lists.pagesFrom_eq (h : q.Lists l) {fuel : ℕ} (hfuel : l.length ≤ place + fuel) :
    q.pagesFrom fuel l[place]? = l.drop place := by
  induction fuel generalizing place with
  | zero => rw [LruQueue.pagesFrom, List.drop_eq_nil_of_le (by omega)]
  | succ fuel ih =>
    cases hplace : l[place]? with
    | none => rw [LruQueue.pagesFrom, List.drop_eq_nil_of_le (List.getElem?_eq_none_iff.mp hplace)]
    | some page =>
      obtain ⟨hlt, rfl⟩ := List.getElem?_eq_some_iff.mp hplace
      rw [LruQueue.pagesFrom, h.next place _ hplace, ih (by omega), ← List.drop_eq_getElem_cons hlt]

theorem LruQueue.Lists.pages_eq (h : q.Lists l) {count : ℕ} (hlength : l.length ≤ count) :
    q.pages count = l := by
  rw [LruQueue.pages, h.bottom_eq, h.pagesFrom_eq (by omega), List.drop_zero]

/-- The loop passes the pages that are being processed and stops at the first other one. -/
theorem LruQueue.Lists.leastRecentFrom_eq (h : q.Lists l) {due fuel : ℕ}
    (hdue : l[due]? = some lr) (hidle : states lr ≠ some .processing)
    (hbusy : ∀ i page, i < due → l[i]? = some page → states page = some .processing)
    (hplace : place ≤ due) (hfuel : due < place + fuel) :
    leastRecentFrom states q fuel l[place]? = .ok lr := by
  induction fuel generalizing place with
  | zero => omega
  | succ fuel ih =>
    rcases Nat.eq_or_lt_of_le hplace with rfl | hlt
    · rw [hdue, leastRecentFrom, if_neg hidle]
    · have hlast := (List.getElem?_eq_some_iff.mp hdue).1
      have hin : place < l.length := hlt.trans hlast
      have hin' : place + 1 < l.length := lt_of_le_of_lt hlt hlast
      have hhere : l[place]? = some l[place] := List.getElem?_eq_getElem hin
      have hnext : l[place + 1]? = some l[place + 1] := List.getElem?_eq_getElem hin'
      rw [hhere, leastRecentFrom, if_pos (hbusy place _ hlt hhere), h.next place _ hhere, hnext,
        Option.elim_some, ← hnext]
      exact ih hlt (by omega)

/-- What is at one place of a list without repetitions is at no other. -/
theorem place_inj {l : List ℕ} (hnodup : l.Nodup) {i j page : ℕ} (hi : l[i]? = some page)
    (hj : l[j]? = some page) : i = j :=
  (List.getElem?_inj (List.getElem?_eq_some_iff.mp hi).1 hnodup).mp (hi.trans hj.symm)

theorem getLast_eraseIdx {l : List ℕ} (hplace : place + 1 < l.length) :
    (l.eraseIdx place).getLast? = l.getLast? := by
  rw [List.getLast?_eq_getElem?, List.getLast?_eq_getElem?, List.length_eraseIdx_of_lt (by omega),
    List.getElem?_eraseIdx_of_ge (by omega)]
  congr 1
  omega

/-- The bottom page leaves. -/
theorem LruQueue.Consistent.remove_bottom (h : q.Consistent l) (hnodup : l.Nodup)
    (hlr : l[0]? = some lr) : (removeFromQueue q lr).Consistent (l.eraseIdx 0) := by
  have hbottom : some lr = q.bottom := by rw [h.bottom_eq, hlr]
  have hnext := h.next 0 lr hlr
  cases hsecond : l[1]? with
  | none =>
    obtain rfl : l = [lr] := by
      have hlength : l.length = 1 := by
        have hle := List.getElem?_eq_none_iff.mp hsecond
        have hlt := (List.getElem?_eq_some_iff.mp hlr).1
        omega
      obtain ⟨only, rfl⟩ := List.length_eq_one_iff.mp hlength
      exact congrArg (fun page ↦ [page]) (Option.some.inj hlr)
    have htop : some lr = q.top := by rw [h.top_eq, ← hlr]; rfl
    rw [removeFromQueue, if_pos htop, if_pos hbottom, hnext]
    exact ⟨⟨rfl, rfl, nofun, nofun⟩, nofun⟩
  | some second =>
    have hlength := (List.getElem?_eq_some_iff.mp hsecond).1
    have htop : some lr ≠ q.top := by
      intro heq
      rw [h.top_eq] at heq
      have hsame := place_inj hnodup hlr heq.symm
      omega
    have herase (i : ℕ) : (l.eraseIdx 0)[i]? = l[i + 1]? :=
      List.getElem?_eraseIdx_of_ge (Nat.zero_le i)
    rw [removeFromQueue, if_neg htop, if_pos hbottom, hnext, Nat.zero_add, hsecond]
    refine ⟨⟨?_, ?_, fun i page hi ↦ ?_, fun i page hi ↦ ?_⟩, fun page hpage ↦ ?_⟩
    · rw [List.head?_eq_getElem?, herase, ← hsecond]
    · rw [getLast_eraseIdx hlength, ← h.top]
    · rw [herase] at hi
      rw [herase]
      exact h.next (i + 1) page hi
    · rw [herase] at hi
      have hne : page ≠ second := by
        rintro rfl
        have hsame := place_inj hnodup hsecond hi
        omega
      rw [herase, ← h.prev (i + 1) page hi]
      exact Function.update_of_ne hne none q.prev
    · rw [herase, hsecond] at hpage
      rw [← Option.some.inj hpage]
      exact Function.update_self second none q.prev

/-- A page between two others leaves. -/
theorem LruQueue.Consistent.remove_inner (h : q.Consistent l) (hnodup : l.Nodup)
    (hlr : l[place + 1]? = some lr) (hplace : place + 2 < l.length) :
    (removeFromQueue q lr).Consistent (l.eraseIdx (place + 1)) := by
  obtain ⟨before, hbefore⟩ : ∃ before, l[place]? = some before :=
    ⟨_, List.getElem?_eq_getElem (by omega)⟩
  obtain ⟨after, hafter⟩ : ∃ after, l[place + 2]? = some after :=
    ⟨_, List.getElem?_eq_getElem hplace⟩
  have htop : some lr ≠ q.top := by
    intro heq
    rw [h.top_eq] at heq
    have hsame := place_inj hnodup hlr heq.symm
    omega
  have hbottom : some lr ≠ q.bottom := by
    intro heq
    rw [h.bottom_eq] at heq
    have hsame := place_inj hnodup hlr heq.symm
    omega
  have hne : lr ≠ after := by
    rintro rfl
    have hsame := place_inj hnodup hlr hafter
    omega
  have hnext := h.next (place + 1) lr hlr
  have hprev := h.prev place lr hlr
  rw [hbefore] at hprev
  rw [Nat.add_assoc, hafter] at hnext
  have herase (i : ℕ) : (l.eraseIdx (place + 1))[i]? = if i < place + 1 then l[i]? else l[i + 1]? :=
    List.getElem?_eraseIdx
  have hremoved : removeFromQueue q lr =
      { q with
        prev := Function.update q.prev after (some before)
        next := Function.update q.next before (some after) } := by
    simp only [removeFromQueue, if_neg htop, if_neg hbottom, hnext, Option.elim_some,
      Function.update_of_ne hne, hprev]
  rw [hremoved]
  refine ⟨⟨?_, ?_, fun i page hi ↦ ?_, fun i page hi ↦ ?_⟩, fun page hpage ↦ ?_⟩
  · rw [List.head?_eq_getElem?, herase, if_pos (by omega), ← h.bottom_eq]
  · rw [getLast_eraseIdx hplace, ← h.top]
  · rw [herase] at hi ⊢
    rcases lt_trichotomy i place with hlt | rfl | hgt
    · rw [if_pos (by omega)] at hi ⊢
      have hother : page ≠ before := by
        rintro rfl
        have hsame := place_inj hnodup hi hbefore
        omega
      exact (Function.update_of_ne hother _ q.next).trans (h.next i page hi)
    · rw [if_pos (by omega), hbefore] at hi
      rw [if_neg (by omega), hafter, ← Option.some.inj hi]
      exact Function.update_self before _ q.next
    · rw [if_neg (by omega)] at hi ⊢
      have hother : page ≠ before := by
        rintro rfl
        have hsame := place_inj hnodup hi hbefore
        omega
      exact (Function.update_of_ne hother _ q.next).trans (h.next (i + 1) page hi)
  · rw [herase] at hi ⊢
    rcases lt_trichotomy i place with hlt | rfl | hgt
    · rw [if_pos (by omega)] at hi ⊢
      have hother : page ≠ after := by
        rintro rfl
        have hsame := place_inj hnodup hi hafter
        omega
      exact (Function.update_of_ne hother _ q.prev).trans (h.prev i page hi)
    · rw [if_neg (by omega), hafter] at hi
      rw [if_pos (by omega), hbefore, ← Option.some.inj hi]
      exact Function.update_self after _ q.prev
    · rw [if_neg (by omega)] at hi ⊢
      have hother : page ≠ after := by
        rintro rfl
        have hsame := place_inj hnodup hi hafter
        omega
      exact (Function.update_of_ne hother _ q.prev).trans (h.prev (i + 1) page hi)
  · rw [herase, if_pos (by omega)] at hpage
    have hother : page ≠ after := by
      rintro rfl
      have hsame := place_inj hnodup hpage hafter
      omega
    exact (Function.update_of_ne hother _ q.prev).trans (h.first page hpage)

/-- The top page leaves from above others, and no page is the top any more. -/
theorem LruQueue.Lists.not_remove_top (h : q.Lists l)
    (hlr : l[place + 1]? = some lr) (hplace : place + 2 = l.length) :
    ¬ (removeFromQueue q lr).Lists (l.eraseIdx (place + 1)) := by
  intro hremoved
  have htop : some lr = q.top := by
    rw [h.top_eq, ← hlr]
    congr 1
    omega
  have hnone : (removeFromQueue q lr).top = none := by
    rw [removeFromQueue, if_pos htop]
    split <;> rfl
  have hlast := hremoved.top
  rw [hnone, eq_comm, List.getLast?_eq_none_iff] at hlast
  have hlength := List.length_eraseIdx_of_lt (show place + 1 < l.length by omega)
  rw [hlast, List.length_nil] at hlength
  omega

/-- The queue keeps its links exactly when the page that leaves is not the top of others. -/
theorem LruQueue.Consistent.remove_iff (h : q.Consistent l) (hnodup : l.Nodup)
    (hlr : l[place]? = some lr) : (removeFromQueue q lr).Consistent (l.eraseIdx place) ↔
      l.length = 1 ∨ place + 1 < l.length := by
  have hlt := (List.getElem?_eq_some_iff.mp hlr).1
  cases place with
  | zero => exact iff_of_true (h.remove_bottom hnodup hlr) (by omega)
  | succ place =>
    rcases Nat.eq_or_lt_of_le (show place + 2 ≤ l.length from hlt) with htop | hinner
    · apply iff_of_false
      · exact fun hremoved ↦ h.toLists.not_remove_top hlr htop hremoved.toLists
      · omega
    · exact iff_of_true (h.remove_inner hnodup hlr hinner) (.inr hinner)

theorem LruQueue.Consistent.touch (h : q.Consistent l) (hnodup : l.Nodup) (hpage : page ∉ l) :
    (lruTouchPage q page).Consistent (l ++ [page]) := by
  refine ⟨h.toLists.touch hnodup hpage, fun first hfirst ↦ ?_⟩
  cases l with
  | nil =>
    obtain rfl : page = first := Option.some.inj hfirst
    exact (Function.update_self page q.top q.prev).trans h.top
  | cons head rest =>
    obtain rfl : head = first := Option.some.inj hfirst
    have hother : head ≠ page := fun heq ↦ hpage (heq ▸ List.mem_cons_self)
    exact (Function.update_of_ne hother q.top q.prev).trans (h.first head rfl)

theorem erase_eq_eraseIdx {l : List ℕ} (hnodup : l.Nodup) (hpage : l[place]? = some page) :
    l.erase page = l.eraseIdx place := by
  obtain ⟨hlt, rfl⟩ := List.getElem?_eq_some_iff.mp hpage
  exact List.Nodup.erase_getElem hnodup place hlt

/-- A page that is touched while it is queued does not leave its place. -/
theorem LruQueue.Lists.not_touch (h : q.Lists l) (hnodup : l.Nodup) (hpage : page ∈ l) :
    ¬ (lruTouchPage q page).Lists (l.erase page ++ [page]) := by
  intro htouched
  obtain ⟨place, hplace⟩ := List.mem_iff_getElem?.mp hpage
  have hlt := (List.getElem?_eq_some_iff.mp hplace).1
  have hlength := List.length_eraseIdx_of_lt hlt
  rw [erase_eq_eraseIdx hnodup hplace] at htouched
  obtain ⟨last, hlast⟩ : ∃ last, l[l.length - 1]? = some last :=
    ⟨_, List.getElem?_eq_getElem (by omega)⟩
  have hnext : (lruTouchPage q page).next =
      Function.update (Function.update q.next page none) last (some page) := by
    simp only [lruTouchPage, h.top_eq, hlast, Option.elim_some]
  rcases Nat.eq_or_lt_of_le (show place + 1 ≤ l.length from hlt) with htop | hbelow
  · have hself : (lruTouchPage q page).next page = some page := by
      obtain rfl : page = last := by
        rw [show l.length - 1 = place by omega, hplace] at hlast
        exact Option.some.inj hlast
      rw [hnext, Function.update_self]
    have hend := htouched.next (l.eraseIdx place).length page (by simp)
    rw [hself, List.getElem?_eq_none (by simp)] at hend
    cases hend
  · cases place with
    | zero =>
      have hbottom := htouched.bottom_eq
      have hsame : (lruTouchPage q page).bottom = some page := by
        rw [lruTouchPage, h.bottom_eq, hplace]
        rfl
      rw [hsame, List.getElem?_append_left (by omega), List.getElem?_eraseIdx_of_ge le_rfl] at hbottom
      have hback := place_inj hnodup hplace hbottom.symm
      omega
    | succ place =>
      obtain ⟨before, hbefore⟩ : ∃ before, l[place]? = some before :=
        ⟨_, List.getElem?_eq_getElem (by omega)⟩
      have hnotpage : before ≠ page := by
        rintro rfl
        have hsame := place_inj hnodup hbefore hplace
        omega
      have hnotlast : before ≠ last := by
        rintro rfl
        have hsame := place_inj hnodup hbefore hlast
        omega
      have hkept : (lruTouchPage q page).next before = some page := by
        rw [hnext, Function.update_of_ne hnotlast, Function.update_of_ne hnotpage,
          h.next place before hbefore, hplace]
      have hmoved := htouched.next place before (by
        rw [List.getElem?_append_left (by omega), List.getElem?_eraseIdx_of_lt (by omega), hbefore])
      rw [hkept, List.getElem?_append_left (by omega), List.getElem?_eraseIdx_of_ge le_rfl] at hmoved
      have hback := place_inj hnodup hplace hmoved.symm
      omega

end Links

section Steps

variable {count : ℕ} {q : LruQueue} {pages : List ℕ} {states : ℕ → Option PageState}

theorem Ordered.length_le {state : LruQueue × (ℕ → Option PageState)}
    {model : List ℕ × (ℕ → Option PageState)} (h : Ordered count state model) :
    model.1.length ≤ count := by
  have hrange : model.1 ⊆ List.range count := fun page hpage ↦ List.mem_range.mpr (h.inside page hpage)
  exact (List.subperm_of_subset h.nodup hrange).length_le.trans_eq List.length_range

theorem lruTouch_iff (h : Ordered count (q, states) (pages, states)) {page : ℕ} (hpage : page < count) :
    Ordered count (lruTouchPage q page, states) (pages.erase page ++ [page], states) ↔
      page ∉ q.pages count := by
  rw [h.queue.pages_eq h.length_le]
  constructor
  · intro htouched hmem
    exact h.queue.not_touch h.nodup hmem htouched.queue.toLists
  · intro hnot
    rw [List.erase_of_not_mem hnot]
    refine ⟨h.queue.touch h.nodup hnot, ?_, fun other hother ↦ ?_, rfl⟩
    · exact List.nodup_append.mpr ⟨h.nodup, List.nodup_singleton page, fun other hother last hlast ↦ by
        rintro rfl
        exact hnot (List.mem_singleton.mp hlast ▸ hother)⟩
    · rcases List.mem_append.mp hother with hother | hother
      · exact h.inside other hother
      · exact List.mem_singleton.mp hother ▸ hpage

/-- The page that is due is found, and the queue stays in order exactly when a page below the top
is due or it is the only one. -/
theorem lruLeast_iff (h : Ordered count (q, states) (pages, states)) {lr : ℕ}
    (hfind : pages.find? (fun page ↦ states page ≠ some .processing) = some lr) :
    leastRecentPage states q count = .ok (removeFromQueue q lr, lr) ∧
      (Ordered count (removeFromQueue q lr, states) (pages.erase lr, states) ↔
        (q.pages count).length = 1 ∨
          ∃ page ∈ (q.pages count).dropLast, states page ≠ some .processing) := by
  obtain ⟨hidle, due, hlt, hhere, hbefore⟩ := List.find?_eq_some_iff_getElem.mp hfind
  have hdue : pages[due]? = some lr := List.getElem?_eq_some_iff.mpr ⟨hlt, hhere⟩
  have hidle : states lr ≠ some .processing := of_decide_eq_true hidle
  have hbusy (i page : ℕ) (hi : i < due) (hpage : pages[i]? = some page) :
      states page = some .processing := by
    obtain ⟨hin, rfl⟩ := List.getElem?_eq_some_iff.mp hpage
    simpa using hbefore i hi
  constructor
  · have hcount : pages.length ≤ count := h.length_le
    have hfrom : leastRecentFrom states q (count + 1) pages[0]? = .ok lr :=
      h.queue.leastRecentFrom_eq hdue hidle hbusy (Nat.zero_le due) (by omega)
    rw [leastRecentPage, h.queue.bottom_eq, hfrom]
    rfl
  · rw [h.queue.pages_eq h.length_le, erase_eq_eraseIdx h.nodup hdue]
    have hbelow : (∃ page ∈ pages.dropLast, states page ≠ some .processing) ↔
        due + 1 < pages.length := by
      constructor
      · rintro ⟨page, hpage, hother⟩
        obtain ⟨i, hi⟩ := List.mem_iff_getElem?.mp hpage
        rw [List.getElem?_dropLast, Option.ite_none_right_eq_some] at hi
        have hnot : ¬ i < due := fun hi' ↦ hother (hbusy i page hi' hi.2)
        omega
      · intro hdue'
        refine ⟨lr, List.mem_iff_getElem?.mpr ⟨due, ?_⟩, hidle⟩
        rw [List.getElem?_dropLast, if_pos (by omega), hdue]
    rw [hbelow, ← h.queue.remove_iff h.nodup hdue]
    constructor
    · exact fun hordered ↦ hordered.queue
    · exact fun hqueue ↦ ⟨hqueue, h.nodup.sublist (List.eraseIdx_sublist ..),
        fun page hpage ↦ h.inside page (List.mem_of_mem_eraseIdx hpage), rfl⟩

theorem lruStep_iff {state : LruQueue × (ℕ → Option PageState)}
    {model : List ℕ × (ℕ → Option PageState)} {call : LruCall} (h : Ordered count state model)
    (hasked : Asked count model call) :
    (∃ next, lruStep count state call = .ok (next, (recencyStep model call).2) ∧
      Ordered count next (recencyStep model call).1) ↔ StaysLinked count state call := by
  obtain ⟨q, states⟩ := state
  obtain ⟨pages, states'⟩ := model
  obtain rfl : states = states' := h.states
  cases call with
  | touch page =>
    rw [StaysLinked, ← lruTouch_iff h hasked]
    constructor
    · rintro ⟨next, hnext, hordered⟩
      cases hnext
      exact hordered
    · exact fun hordered ↦ ⟨_, rfl, hordered⟩
  | setState page state =>
    exact iff_of_true ⟨_, rfl, ⟨h.queue, h.nodup, h.inside, rfl⟩⟩ trivial
  | leastRecent =>
    cases hfind : pages.find? fun page ↦ states page ≠ some .processing with
    | none =>
      obtain ⟨page, hpage, hidle⟩ := hasked
      exact absurd (List.find?_eq_none.mp hfind page hpage) (by simpa using hidle)
    | some lr =>
      obtain ⟨hfound, hordered⟩ := lruLeast_iff h hfind
      have hstep : lruStep count (q, states) .leastRecent =
          .ok ((removeFromQueue q lr, states), some lr) := by
        rw [lruStep, hfound]
        rfl
      have hmodel : recencyStep (pages, states) .leastRecent =
          ((pages.erase lr, states), some lr) := by
        rw [recencyStep, hfind]
      rw [StaysLinked, ← hordered, hmodel]
      constructor
      · rintro ⟨next, hnext, hnextordered⟩
        rw [hstep] at hnext
        cases hnext
        exact hnextordered
      · exact fun hnext ↦ ⟨_, hstep, hnext⟩

end Steps

/-- The queue keeps the order of the last touches exactly in the runs in which no queued page is
touched and no page leaves from the top of others. -/
theorem keepsOrder_iff {count : ℕ} {states : ℕ → Option PageState} {calls : List LruCall}
    (hasked : EachStep (fun model call ↦ .ok (recencyStep model call)) (Asked count) ([], states)
      calls) :
    KeepsOrder count states calls ↔
      EachStep (lruStep count) (StaysLinked count) (newLruQueue, states) calls := by
  have hstep (state : LruQueue × (ℕ → Option PageState)) (model : List ℕ × (ℕ → Option PageState))
      (call : LruCall) (h : Ordered count state model) (hcall : Asked count model call) :=
    lruStep_iff h hcall
  have hinit : Ordered count (newLruQueue, states) ([], states) :=
    ⟨⟨newLruQueue_lists, nofun⟩, List.nodup_nil, nofun, rfl⟩
  exact forall_prefix_simulates_iff hstep hinit hasked

/-- The page in the middle is due while the bottom one is processed. -/
theorem keepsOrder_middle : KeepsOrder 3 (fun _ ↦ some .clean)
    [.touch 0, .touch 1, .touch 2, .setState 0 .processing, .leastRecent, .touch 1] :=
  (keepsOrder_iff (by decide)).mpr (by decide)

/-- A page that is touched twice stays at the bottom. -/
theorem not_keepsOrder_touch :
    ¬ KeepsOrder 2 (fun _ ↦ some .clean) [.touch 0, .touch 1, .touch 0, .leastRecent] := by
  intro h
  obtain ⟨final, hrun, -⟩ := h _ (List.prefix_refl _)
  have houtputs : (run (lruStep 2) (newLruQueue, fun _ ↦ some PageState.clean)
      [.touch 0, .touch 1, .touch 0, .leastRecent]).toOption.map Prod.snd =
        some [none, none, none, some 1] := by
    rw [hrun]
    rfl
  revert houtputs
  decide

end FGDB.Pages
