-- Condition variables: the threads that wait on one, and what a wake does
-- to them. A thread is any value that says whether it is parked.
import Mathlib.Algebra.Ring.Nat
import Mathlib.Algebra.Ring.Int.Defs
import Mathlib.Data.List.Basic

namespace lib.parking

/-- How a thread waits on one condition variable: whether it is parked there with no
wake on its way, and where a wake sends it. -/
structure CondVar (P : Type) where
  parked : P → Bool
  wake : P → P
  wake_parked : ∀ p, parked p = true → parked (wake p) = false

variable {P : Type} (cv : CondVar P)

/-- Wake every parked thread. -/
def notifyAll (ts : List P) : List P :=
  ts.map fun p => if cv.parked p then cv.wake p else p

/-- Wake one parked thread, `k`, or nobody when nobody is parked. The caller cannot choose
`k`: the world does. -/
def notifyOne (ts : List P) : Option Nat → Option (List P)
  | some k =>
    match ts[k]? with
    | some p => if cv.parked p then some (ts.set k (cv.wake p)) else none
    | none => none
  | none => if ts.any cv.parked then none else some ts

/-- A thread that leaves the wait with no wake. -/
def spurious (ts : List P) (k : Nat) : Option (List P) := notifyOne cv ts (some k)

/-! ## What a wake does -/

@[simp] theorem notifyAll_length (ts : List P) : (notifyAll cv ts).length = ts.length := by
  simp [notifyAll]

theorem notifyAll_getElem? (ts : List P) (k : Nat) :
    (notifyAll cv ts)[k]? = ts[k]?.map fun p => if cv.parked p then cv.wake p else p := by
  simp [notifyAll]

/-- A wake of one changes nothing when nobody is parked, and else moves one parked thread. -/
theorem notifyOne_cases {ts us : List P} {k : Option Nat} (h : notifyOne cv ts k = some us) :
    (us = ts ∧ ∀ p ∈ ts, cv.parked p = false) ∨
      ∃ j p, ts[j]? = some p ∧ cv.parked p = true ∧ us = ts.set j (cv.wake p) := by
  cases k with
  | none =>
    simp only [notifyOne] at h
    split at h
    · cases h
    · rename_i hn
      cases h
      refine Or.inl ⟨rfl, fun p hp => ?_⟩
      simp only [List.any_eq_true, not_exists, not_and, Bool.not_eq_true] at hn
      exact hn p hp
  | some j =>
    simp only [notifyOne] at h
    split at h
    · rename_i p hp
      split at h
      · rename_i hpk
        cases h
        exact Or.inr ⟨j, p, hp, hpk, rfl⟩
      · cases h
    · cases h

/-- A wake of one can always happen. -/
theorem notifyOne_enabled (ts : List P) : ∃ k us, notifyOne cv ts k = some us := by
  by_cases h : ts.any cv.parked = true
  · simp only [List.any_eq_true] at h
    obtain ⟨p, hp, hpk⟩ := h
    obtain ⟨j, hj, rfl⟩ := List.getElem_of_mem hp
    exact ⟨some j, ts.set j (cv.wake ts[j]), by simp [notifyOne, hj, hpk]⟩
  · exact ⟨none, ts, by simp [notifyOne, h]⟩

/-! ## Weights -/

/-- When one thread moves, the total changes by the change of its weight. -/
theorem total_set (f : P → Nat) {ts : List P} {j : Nat} {v : P} (u : P) (h : ts[j]? = some v) :
    ((ts.set j u).map f).sum + f v = (ts.map f).sum + f u := by
  induction ts generalizing j with
  | nil => cases h
  | cons p ts ih =>
    cases j with
    | zero =>
      simp only [List.getElem?_cons_zero, Option.some.injEq] at h
      subst h
      simp only [List.set_cons_zero, List.map_cons, List.sum_cons]
      omega
    | succ j =>
      have := ih (by simpa using h)
      simp only [List.set_cons_succ, List.map_cons, List.sum_cons]
      omega

/-- When a wake adds no weight, a wake of all adds none. -/
theorem total_notifyAll_le (f : P → Nat) (hw : ∀ p, cv.parked p = true → f (cv.wake p) ≤ f p)
    (ts : List P) : ((notifyAll cv ts).map f).sum ≤ (ts.map f).sum := by
  induction ts with
  | nil => exact Nat.le_refl _
  | cons p ts ih =>
    have hp : f (if cv.parked p then cv.wake p else p) ≤ f p := by
      split
      · rename_i hpk
        exact hw p hpk
      · exact Nat.le_refl _
    simp only [notifyAll, List.map_cons, List.sum_cons] at ih ⊢
    omega

end lib.parking
