import Mathlib.Data.List.Basic
import Mathlib.Data.List.Induction
import Mathlib.Logic.Function.Basic

/-!
# Replay above a mark

A log is a list of records, each of which gives one key a value. The last record of
a key decides about its value. When the stored values have what the records up to a
mark did, only the records above the mark need to be replayed over them.
-/

namespace FGDB.Foundation

variable {ρ κ ν : Type} [DecidableEq κ] (keyOf : ρ → κ) (effect : ρ → ν)

/-- The record that decides about a key. -/
def lastRecord (log : List ρ) (key : κ) : Option ρ := log.reverse.find? fun r ↦ keyOf r = key

/-- The values after the records of a log. -/
def recover (values : κ → ν) (log : List ρ) : κ → ν :=
  log.foldl (fun values r ↦ Function.update values (keyOf r) (effect r)) values

variable {keyOf effect} {log : List ρ} {r : ρ} {key : κ}

theorem lastRecord_concat (log : List ρ) (r : ρ) (key : κ) :
    lastRecord keyOf (log ++ [r]) key =
      if keyOf r = key then some r else lastRecord keyOf log key := by
  rw [lastRecord, List.reverse_append, List.reverse_singleton, List.singleton_append,
    List.find?_cons]
  by_cases hkey : keyOf r = key
  · simp only [hkey, decide_true, if_true]
  · simp only [hkey, decide_false, if_false, lastRecord]

theorem lastRecord_of_mem (h : r ∈ log) : ∃ last, lastRecord keyOf log (keyOf r) = some last := by
  rw [← Option.isSome_iff_exists, lastRecord, List.find?_isSome]
  exact ⟨r, List.mem_reverse.mpr h, decide_eq_true rfl⟩

/-- The last record of a key decides about its value. -/
theorem recover_eq (values : κ → ν) (log : List ρ) (key : κ) :
    recover keyOf effect values log key = (lastRecord keyOf log key).elim (values key) effect := by
  induction log using List.reverseRecOn with
  | nil => rfl
  | append_singleton log r ih =>
    have hstep : recover keyOf effect values (log ++ [r]) =
        Function.update (recover keyOf effect values log) (keyOf r) (effect r) := by
      rw [recover, List.foldl_append]
      rfl
    rw [hstep, lastRecord_concat]
    by_cases hkey : keyOf r = key
    · rw [if_pos hkey, hkey, Function.update_self, Option.elim_some]
    · rw [if_neg hkey, Function.update_of_ne (Ne.symm hkey), ih]

variable {number : ρ → ℕ} {mark : ℕ}

/-- The last record of a key is kept above a mark, or none of its records is. -/
theorem lastRecord_above (hincreasing : log.Pairwise fun r r' ↦ number r < number r') (mark : ℕ)
    (h : lastRecord keyOf log key = some r) :
    lastRecord keyOf (log.filter fun r ↦ mark < number r) key =
      if mark < number r then some r else none := by
  induction log using List.reverseRecOn with
  | nil => cases h
  | append_singleton log last ih =>
    obtain ⟨hrest, -, hbelow⟩ := List.pairwise_append.mp hincreasing
    rw [lastRecord_concat] at h
    rw [List.filter_append, List.filter_singleton]
    by_cases hkey : keyOf last = key
    · rw [if_pos hkey, Option.some.injEq] at h
      rw [← h]
      by_cases habove : mark < number last
      · simp only [habove, decide_true, cond_true, if_true]
        rw [lastRecord_concat, if_pos hkey]
      · have hnone : (log.filter fun r ↦ mark < number r) = [] := by
          rw [List.filter_eq_nil_iff]
          intro x hx
          have hlt := hbelow x hx last (List.mem_singleton_self _)
          rw [decide_eq_true_eq]
          omega
        rw [hnone, if_neg habove]
        simp only [habove, decide_false, cond_false]
        rfl
    · rw [if_neg hkey] at h
      have hlast := ih hrest h
      by_cases habove : mark < number last
      · simp only [habove, decide_true, cond_true]
        rw [lastRecord_concat, if_neg hkey, hlast]
      · simp only [habove, decide_false, cond_false]
        rw [List.append_nil, hlast]

/-- When the values have what the records up to a mark did, replaying the others over them gives
what the whole log gives. -/
theorem recover_above {values start : κ → ν}
    (hincreasing : log.Pairwise fun r r' ↦ number r < number r')
    (hsaved : ∀ key r, lastRecord keyOf log key = some r → values key ≠ effect r → mark < number r)
    (h : r ∈ log) : recover keyOf effect values (log.filter fun r ↦ mark < number r) (keyOf r) =
      recover keyOf effect start log (keyOf r) := by
  obtain ⟨last, hlast⟩ : ∃ last, lastRecord keyOf log (keyOf r) = some last := lastRecord_of_mem h
  rw [recover_eq, recover_eq, lastRecord_above hincreasing mark hlast, hlast, Option.elim_some]
  by_cases habove : mark < number last
  · rw [if_pos habove, Option.elim_some]
  · rw [if_neg habove, Option.elim_none]
    by_contra hne
    exact habove (hsaved (keyOf r) last hlast hne)

end FGDB.Foundation
