import FGDB.Pages.Meta

/-!
# The queue of recently used pages

A page is put on top when it is touched, wherever it stands in the queue
already. The least recent page is taken from the bottom, or is the first one
above it that is not being processed.
-/

namespace FGDB.Pages

open Foundation

def newLruQueue : LruQueue := ⟨none, none, fun _ ↦ none, fun _ ↦ none⟩

def lruTouchPage (q : LruQueue) (p : ℕ) : LruQueue :=
  let next := Function.update q.next p none
  { top := some p
    bottom := q.bottom.elim (some p) some
    next := q.top.elim next fun top ↦ Function.update next top (some p)
    prev := Function.update q.prev p q.top }

/-- The loop over pages that are being processed. It has found none after as many steps as there
are headers: then it never ends. -/
def leastRecentFrom (states : ℕ → Option PageState) (q : LruQueue) : ℕ → Option ℕ → Outcome ℕ
  | 0, _ => .error .nontermination
  | _, none => .error .nullPointer
  | fuel + 1, some lr =>
    if states lr = some .processing then
      leastRecentFrom states q fuel ((q.next lr).elim q.bottom some)
    else .ok lr

/-- A page leaves the queue. -/
def removeFromQueue (q : LruQueue) (lr : ℕ) : LruQueue :=
  let q := if some lr = q.top then { q with top := none } else q
  if some lr = q.bottom then
    { q with
      bottom := q.next lr
      prev := (q.next lr).elim q.prev fun bottom ↦ Function.update q.prev bottom none }
  else
    let prev := (q.next lr).elim q.prev fun next ↦ Function.update q.prev next (q.prev lr)
    { q with
      prev := prev
      next := (prev lr).elim q.next fun before ↦ Function.update q.next before (q.next lr) }

def leastRecentPage (states : ℕ → Option PageState) (q : LruQueue) (count : ℕ) :
    Outcome (LruQueue × ℕ) := do
  let lr ← leastRecentFrom states q (count + 1) q.bottom
  return (removeFromQueue q lr, lr)

end FGDB.Pages
