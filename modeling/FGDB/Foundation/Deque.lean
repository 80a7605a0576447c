import Mathlib.Data.List.Basic
import Mathlib.Tactic.Common

/-!
# Deques in a row of places

A deque holds its items in consecutive places of a row, with free places in
front of them and behind them. An operation that would need a place outside of
the row, or an item that is not there, is refused.
-/

namespace FGDB.Foundation

structure Deque (α : Type) where
  gap : ℕ
  items : List α
  room : ℕ
  deriving DecidableEq

namespace Deque

variable {α : Type}

def empty (places : ℕ) : Deque α := ⟨0, [], places⟩

def places (deque : Deque α) : ℕ := deque.gap + deque.items.length + deque.room

def push (deque : Deque α) (items : List α) : Option (Deque α) :=
  if deque.room < items.length then none
  else some ⟨deque.gap, deque.items ++ items, deque.room - items.length⟩

def pop (deque : Deque α) (count : ℕ) : Option (Deque α × List α) :=
  if deque.items.length < count then none
  else some (⟨deque.gap, deque.items.take (deque.items.length - count), deque.room + count⟩,
    deque.items.drop (deque.items.length - count))

def shift (deque : Deque α) (count : ℕ) : Option (Deque α × List α) :=
  if deque.items.length < count then none
  else some (⟨deque.gap + count, deque.items.drop count, deque.room⟩, deque.items.take count)

def unshift (deque : Deque α) (items : List α) : Option (Deque α) :=
  if deque.gap < items.length then none
  else some ⟨deque.gap - items.length, items ++ deque.items, deque.room⟩

/-- The items go and the row stays. -/
def clear (deque : Deque α) : Deque α := empty deque.places

variable {deque next : Deque α} {items taken : List α} {count : ℕ}

theorem places_push (h : deque.push items = some next) : next.places = deque.places := by
  rw [push, Option.ite_none_left_eq_some, Option.some.injEq] at h
  simp only [← h.2, places, List.length_append]
  omega

theorem places_pop (h : deque.pop count = some (next, taken)) : next.places = deque.places := by
  rw [pop, Option.ite_none_left_eq_some, Option.some.injEq, Prod.mk.injEq] at h
  simp only [← h.2.1, places, List.length_take]
  omega

theorem places_shift (h : deque.shift count = some (next, taken)) : next.places = deque.places := by
  rw [shift, Option.ite_none_left_eq_some, Option.some.injEq, Prod.mk.injEq] at h
  simp only [← h.2.1, places, List.length_drop]
  omega

theorem places_unshift (h : deque.unshift items = some next) : next.places = deque.places := by
  rw [unshift, Option.ite_none_left_eq_some, Option.some.injEq] at h
  simp only [← h.2, places, List.length_append]
  omega

@[simp] theorem places_clear : deque.clear.places = deque.places := by
  simp [clear, empty, places]

end Deque

end FGDB.Foundation
