-- Recency lists: entries with a key, the last used one first. A hit moves its
-- entry to the front, and a push to a full list drops the entry at the end.
import Mathlib.Algebra.Ring.Nat
import Mathlib.Algebra.Ring.Int.Defs
import Mathlib.Data.List.Basic
import Mathlib.Logic.Function.Basic

namespace lib.recency

variable {α κ : Type}

/-- The entry of `k`, and the list with that entry in front. -/
def touch [DecidableEq κ] (key : α → κ) (l : List α) (k : κ) : Option (α × List α) :=
  match l.findIdx? (key · = k) with
  | some i => l[i]?.map fun e => (e, e :: l.eraseIdx i)
  | none => none

/-- A new entry goes to the front of what the capacity leaves. -/
def push (cap : Nat) (l : List α) (a : α) : List α := a :: l.take (cap - 1)

/-- The keys are distinct, and there are no more entries than the capacity. -/
structure Fits (key : α → κ) (cap : Nat) (l : List α) : Prop where
  distinct : (l.map key).Nodup
  bound : l.length ≤ cap

/-- The entries stand by the stamps of their keys, the latest first. -/
def Ordered {τ : Type} [Preorder τ] (key : α → κ) (last : κ → τ) (l : List α) : Prop :=
  l.Pairwise fun x y => last (key y) < last (key x)

/-! ## Pushes -/

section
variable {τ : Type} [Preorder τ] {key : α → κ} {last : κ → τ} {cap : Nat} {l : List α} {a x : α}

theorem mem_push (h : x ∈ push cap l a) : x = a ∨ x ∈ l := by
  unfold push at h
  rcases List.mem_cons.mp h with h | h
  · exact Or.inl h
  · exact Or.inr (List.mem_of_mem_take h)

theorem fits_nil (key : α → κ) (cap : Nat) : Fits key cap [] := ⟨by simp, by simp⟩

theorem Fits.push (h : Fits key cap l) (hcap : 0 < cap) (hnew : ∀ x ∈ l, key x ≠ key a) :
    Fits key cap (push cap l a) := by
  refine ⟨?_, ?_⟩
  · rw [lib.recency.push, List.map_cons, List.nodup_cons]
    refine ⟨?_, ?_⟩
    · simp only [List.mem_map, not_exists, not_and]
      intro x hx
      exact hnew x (List.mem_of_mem_take hx)
    · rw [List.map_take]
      exact h.distinct.sublist (List.take_sublist _ _)
  · simp only [lib.recency.push, List.length_cons, List.length_take]
    omega

theorem Ordered.take (h : Ordered key last l) (n : Nat) : Ordered key last (l.take n) :=
  List.Pairwise.sublist (List.take_sublist _ _) h

/-- The entry that a push drops is the one that was used before all the others. -/
theorem Ordered.dropped (h : Ordered key last l) (hbound : l.length ≤ cap) (hx : x ∈ l)
    (hgone : x ∉ lib.recency.push cap l a) : ∀ y ∈ l, y ≠ x → last (key x) < last (key y) := by
  have hrest : x ∈ l.drop (cap - 1) := by
    rw [← List.take_append_drop (cap - 1) l, List.mem_append] at hx
    rcases hx with hx | hx
    · exact absurd (List.mem_cons_of_mem _ hx) hgone
    · exact hx
  have hone : l.drop (cap - 1) = [x] := by
    have hlen : (l.drop (cap - 1)).length ≤ 1 := by
      rw [List.length_drop]
      omega
    rcases hdrop : l.drop (cap - 1) with _ | ⟨z, _ | ⟨w, zs⟩⟩
    · simp [hdrop] at hrest
    · simp only [hdrop, List.mem_singleton] at hrest
      rw [hrest]
    · simp [hdrop] at hlen
  intro y hy hne
  have hsplit := List.take_append_drop (cap - 1) l
  rw [hone] at hsplit
  rw [← hsplit, List.mem_append, List.mem_singleton] at hy
  rcases hy with hy | hy
  · rw [Ordered, ← hsplit, List.pairwise_append] at h
    exact h.2.2 y hy x List.mem_cons_self
  · exact absurd hy hne

end

/-! ## Hits -/

section
variable [DecidableEq κ] {key : α → κ} {cap : Nat} {l l' : List α} {k : κ} {e a : α}

/-- A hit takes an entry of the key out of the list and puts it in front. -/
theorem touch_split (h : touch key l k = some (e, l')) :
    ∃ xs ys, l = xs ++ e :: ys ∧ key e = k ∧ l' = e :: (xs ++ ys) := by
  unfold touch at h
  split at h
  · rename_i i hi
    rw [Option.map_eq_some_iff] at h
    obtain ⟨y, hy, hye⟩ := h
    cases hye
    obtain ⟨hlt, hkey, _⟩ := List.findIdx?_eq_some_iff_getElem.mp hi
    obtain ⟨_, hget⟩ := List.getElem?_eq_some_iff.mp hy
    refine ⟨l.take i, l.drop (i + 1), ?_, ?_, ?_⟩
    · rw [← hget, List.getElem_cons_drop, List.take_append_drop]
    · simpa [hget] using hkey
    · rw [List.eraseIdx_eq_take_drop_succ]
  · cases h

theorem touch_eq_none : touch key l k = none ↔ ∀ x ∈ l, key x ≠ k := by
  unfold touch
  split
  · rename_i i hi
    obtain ⟨hlt, hkey, _⟩ := List.findIdx?_eq_some_iff_getElem.mp hi
    simp only [List.getElem?_eq_getElem hlt, Option.map_some, reduceCtorEq, false_iff, not_forall]
    exact ⟨l[i], List.getElem_mem hlt, by simpa using hkey⟩
  · rename_i hnone
    simpa using hnone

theorem touch_key (h : touch key l k = some (e, l')) : key e = k := by
  obtain ⟨_, _, _, hkey, _⟩ := touch_split h
  exact hkey

/-- A hit only changes the order. -/
theorem touch_perm (h : touch key l k = some (e, l')) : l'.Perm l := by
  obtain ⟨xs, ys, rfl, _, rfl⟩ := touch_split h
  exact List.perm_middle.symm

theorem touch_mem (h : touch key l k = some (e, l')) : e ∈ l := by
  obtain ⟨xs, ys, rfl, _, _⟩ := touch_split h
  simp

theorem Fits.touch (h : Fits key cap l) (ht : touch key l k = some (e, l')) : Fits key cap l' := by
  have hperm := touch_perm ht
  refine ⟨?_, ?_⟩
  · apply (hperm.map key).nodup_iff.mpr
    exact h.distinct
  · rw [hperm.length_eq]
    exact h.bound

/-! ## Stamps -/

variable {τ : Type} [Preorder τ] {last : κ → τ} {now : τ}

/-- An entry in front, stamped later than all the others. -/
theorem Ordered.front (h : Ordered key last l) (hk : ∀ x ∈ l, key x ≠ key e)
    (hnow : ∀ x ∈ l, last (key x) < now) :
    Ordered key (Function.update last (key e) now) (e :: l) := by
  apply List.Pairwise.cons
  · intro x hx
    rw [Function.update_self, Function.update_of_ne (hk x hx)]
    exact hnow x hx
  · apply List.Pairwise.imp_of_mem _ h
    intro x y hx hy hlt
    rw [Function.update_of_ne (hk x hx), Function.update_of_ne (hk y hy)]
    exact hlt

theorem Ordered.touch (h : Ordered key last l) (hd : (l.map key).Nodup)
    (hnow : ∀ x ∈ l, last (key x) < now) (ht : touch key l k = some (e, l')) :
    Ordered key (Function.update last k now) l' := by
  obtain ⟨xs, ys, rfl, rfl, rfl⟩ := touch_split ht
  have hd' := (List.perm_middle.map key).nodup_iff.mp hd
  rw [List.map_cons, List.nodup_cons] at hd'
  have hsub : (xs ++ ys).Sublist (xs ++ e :: ys) := by simp
  apply Ordered.front
  · exact List.Pairwise.sublist hsub h
  · intro x hx heq
    exact hd'.1 (heq ▸ List.mem_map_of_mem hx)
  · intro x hx
    exact hnow x (hsub.subset hx)

theorem Ordered.push (h : Ordered key last l) (hnew : ∀ x ∈ l, key x ≠ key a)
    (hnow : ∀ x ∈ l, last (key x) < now) :
    Ordered key (Function.update last (key a) now) (push cap l a) := by
  apply Ordered.front
  · exact h.take _
  · intro x hx
    exact hnew x (List.mem_of_mem_take hx)
  · intro x hx
    exact hnow x (List.mem_of_mem_take hx)

end

end lib.recency
