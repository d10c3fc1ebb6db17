-- Systems that move by actions: what holds in every state they reach, and
-- when every run of them ends. The label of an action carries every choice
-- that the world makes, so a step is a function and a run can be replayed.
import Mathlib.Logic.Relation

namespace lib.runs

/-- The states a system may start in, and the state that an action leads to, when the
action can happen. -/
structure System (σ α : Type) where
  init : σ → Prop
  step : σ → α → Option σ

variable {σ α : Type} {S : System σ α}

/-! ## The states a run reaches -/

/-- The states reached by actions that all meet `ok` in the state they start from. -/
inductive Reach (S : System σ α) (ok : σ → α → Prop) : σ → Prop
  | start {s : σ} : S.init s → Reach S ok s
  | next {s t : σ} {a : α} : Reach S ok s → ok s a → S.step s a = some t → Reach S ok t

/-- Every action is allowed. -/
def AnyAct (_ : σ) (_ : α) : Prop := True

def Reachable (S : System σ α) : σ → Prop := Reach S AnyAct

/-- `t` is what the actions lead to from `s`, one after the other. -/
def exec (S : System σ α) : σ → List α → Option σ
  | s, [] => some s
  | s, a :: as => (S.step s a).bind (exec S · as)

theorem Reach.mono {ok ok' : σ → α → Prop} {s : σ} (h : Reach S ok s)
    (hle : ∀ s a, ok s a → ok' s a) : Reach S ok' s := by
  induction h with
  | start h0 => exact .start h0
  | next _ ha hs ih => exact .next ih (hle _ _ ha) hs

theorem Reach.reachable {ok : σ → α → Prop} {s : σ} (h : Reach S ok s) : Reachable S s :=
  h.mono fun _ _ _ => trivial

/-- What holds at the start and is kept by every allowed step holds in every state reached. -/
theorem Reach.invariant {ok : σ → α → Prop} {I : σ → Prop} {s : σ} (h : Reach S ok s)
    (h0 : ∀ s, S.init s → I s)
    (hs : ∀ s a t, Reach S ok s → I s → ok s a → S.step s a = some t → I t) : I s := by
  induction h with
  | start hi => exact h0 _ hi
  | next hr ha hst ih => exact hs _ _ _ hr ih ha hst

theorem exec_append (s : σ) (as bs : List α) :
    exec S s (as ++ bs) = (exec S s as).bind (exec S · bs) := by
  induction as generalizing s with
  | nil => rfl
  | cons a as ih =>
    simp only [List.cons_append, exec]
    cases S.step s a with
    | none => rfl
    | some t => exact ih t

/-- What every step keeps, a whole run keeps. -/
theorem exec_invariant {I : σ → Prop} (hs : ∀ s a t, I s → S.step s a = some t → I t)
    {s t : σ} {as : List α} (h0 : I s) (h : exec S s as = some t) : I t := by
  induction as generalizing s with
  | nil =>
    simp only [exec, Option.some.injEq] at h
    exact h ▸ h0
  | cons a as ih =>
    simp only [exec, Option.bind_eq_some_iff] at h
    obtain ⟨u, hu, hrest⟩ := h
    exact ih (hs s a u h0 hu) hrest

theorem Reachable.exec {s t : σ} (h : Reachable S s) (as : List α)
    (he : exec S s as = some t) : Reachable S t :=
  exec_invariant (I := Reachable S) (fun _ _ _ hr hst => .next hr trivial hst) h he

/-- A run of actions that are allowed in every state. -/
theorem Reach.exec {ok : σ → α → Prop} {s t : σ} (h : Reach S ok s) (as : List α)
    (hok : ∀ a ∈ as, ∀ s, ok s a) (he : exec S s as = some t) : Reach S ok t := by
  induction as generalizing s with
  | nil =>
    simp only [lib.runs.exec, Option.some.injEq] at he
    exact he ▸ h
  | cons a as ih =>
    simp only [lib.runs.exec, Option.bind_eq_some_iff] at he
    obtain ⟨u, hu, hrest⟩ := he
    exact ih (h.next (hok a List.mem_cons_self s) hu)
      (fun b hb => hok b (List.mem_cons_of_mem a hb)) hrest

/-! ## Systems that refine others -/

/-- From a state of the invariant, every allowed step of `C` keeps the invariant, and what `A` sees
of it is a run of its own steps. That run is empty where `A` does not see the step. -/
structure Refines {τ β : Type} (C : System σ α) (ok : σ → α → Prop) (A : System τ β) (abs : σ → τ)
    (I : σ → Prop) : Prop where
  start : ∀ s, C.init s → I s ∧ A.init (abs s)
  step : ∀ s a t, I s → ok s a → C.step s a = some t →
    I t ∧ ∃ bs, exec A (abs s) bs = some (abs t)

theorem Refines.reach {τ β : Type} {C : System σ α} {ok : σ → α → Prop} {A : System τ β} {abs : σ → τ}
    {I : σ → Prop} (h : Refines C ok A abs I) {s : σ} (hs : Reach C ok s) :
    I s ∧ Reachable A (abs s) := by
  induction hs with
  | start h0 =>
    obtain ⟨hI, hA⟩ := h.start _ h0
    exact ⟨hI, .start hA⟩
  | next _ hok hst ih =>
    obtain ⟨hI, hA⟩ := ih
    obtain ⟨hI', bs, hbs⟩ := h.step _ _ _ hI hok hst
    exact ⟨hI', Reachable.exec hA bs hbs⟩

/-! ## Runs that end -/

/-- When every step from a state of the invariant lowers the measure, a run is no longer
than the measure of its first state. -/
theorem exec_length_le {I : σ → Prop} {μ : σ → Nat}
    (hs : ∀ s a t, I s → S.step s a = some t → I t ∧ μ t < μ s)
    {s t : σ} {as : List α} (h0 : I s) (h : exec S s as = some t) :
    as.length + μ t ≤ μ s := by
  induction as generalizing s with
  | nil =>
    simp only [exec, Option.some.injEq] at h
    simp [h]
  | cons a as ih =>
    simp only [exec, Option.bind_eq_some_iff] at h
    obtain ⟨u, hu, hrest⟩ := h
    obtain ⟨hIu, hlt⟩ := hs s a u h0 hu
    have := ih hIu hrest
    simp only [List.length_cons]
    omega

/-- When every step lowers the measure, but that some actions may raise it by one, a run is no
longer than the measure of its first state and twice those actions. -/
theorem exec_length_le_free {I : σ → Prop} {μ : σ → Nat} {free : α → Bool}
    (hs : ∀ s a t, I s → S.step s a = some t →
      I t ∧ μ t + 1 ≤ μ s + if free a then 2 else 0)
    {s t : σ} {as : List α} (h0 : I s) (h : exec S s as = some t) :
    as.length + μ t ≤ μ s + 2 * as.countP free := by
  induction as generalizing s with
  | nil =>
    simp only [exec, Option.some.injEq] at h
    simp [h]
  | cons a as ih =>
    simp only [exec, Option.bind_eq_some_iff] at h
    obtain ⟨u, hu, hrest⟩ := h
    obtain ⟨hIu, hle⟩ := hs s a u h0 hu
    have hlen := ih hIu hrest
    rw [List.length_cons, List.countP_cons]
    by_cases hf : free a = true
    · rw [if_pos hf] at hle ⊢
      omega
    · rw [if_neg hf] at hle ⊢
      omega

end lib.runs
