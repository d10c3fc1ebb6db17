-- Settings that come in a list: each is checked on its own, and what it sets is
-- applied in order. The first bad one is the error, and of two good ones for the
-- same place the last stays.

namespace lib.settings

variable {α β δ ε σ : Type}

/-- A loop whose turns fail for their own element alone checks all elements first. -/
theorem foldlM_checked {f : σ → α → Except ε σ} {check : α → Except ε δ} {upd : σ → δ → σ}
    (hf : ∀ s a, f s a = (check a).map (upd s)) (s : σ) (as : List α) :
    as.foldlM f s = (as.mapM check).map (List.foldl upd s) := by
  induction as generalizing s with
  | nil => rfl
  | cons a as ih =>
    rw [List.foldlM_cons, List.mapM_cons, hf]
    cases check a with
    | error e => rfl
    | ok d =>
      show as.foldlM f (upd s d) = _
      rw [ih]
      show _ = Except.map _ (Except.bind (as.mapM check) _)
      cases as.mapM check <;> rfl

/-- What is set last stays. -/
theorem foldl_last (proj : σ → β) (pick : δ → Option β) {upd : σ → δ → σ}
    (h : ∀ s d, proj (upd s d) = (pick d).getD (proj s)) (s : σ) (ds : List δ) :
    proj (ds.foldl upd s) = ((ds.filterMap pick).getLast?).getD (proj s) := by
  induction ds generalizing s with
  | nil => rfl
  | cons d ds ih =>
    rw [List.foldl_cons, ih, h, List.filterMap_cons]
    cases hd : pick d with
    | none => rfl
    | some b =>
      cases hl : (ds.filterMap pick).getLast? with
      | none =>
        rw [List.getLast?_eq_none_iff] at hl
        rw [hl]
        rfl
      | some c => rw [List.getLast?_cons, hl]; rfl

/-- All elements are good, or there is a first bad one and its error is the answer. -/
theorem mapM_first {check : α → Except ε δ} {as : List α} :
    (∃ ds, as.mapM check = .ok ds ∧ List.map check as = ds.map .ok) ∨
      ∃ pre a post e, as = pre ++ a :: post ∧ (∀ b ∈ pre, ∃ d, check b = .ok d) ∧
        check a = .error e ∧ as.mapM check = .error e := by
  induction as with
  | nil => exact .inl ⟨[], rfl, rfl⟩
  | cons a as ih =>
    rw [List.mapM_cons]
    cases ha : check a with
    | error e => exact .inr ⟨[], a, as, e, rfl, by simp, ha, rfl⟩
    | ok d =>
      rcases ih with ⟨ds, hds, hall⟩ | ⟨pre, b, post, e, hsplit, hpre, hb, herr⟩
      · exact .inl ⟨d :: ds, by rw [hds]; rfl, by rw [List.map_cons, List.map_cons, ha, hall]⟩
      · refine .inr ⟨a :: pre, b, post, e, by rw [hsplit]; rfl, ?_, hb, by rw [herr]; rfl⟩
        intro c hc
        rcases List.mem_cons.mp hc with rfl | hc
        · exact ⟨d, ha⟩
        · exact hpre c hc

end lib.settings
