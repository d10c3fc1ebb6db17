-- Computations that read a memory and may fail with a message. A read that the
-- memory does not answer has no result at all, so a computation with a result
-- has made none.
import Mathlib.Data.List.Forall2

namespace lib.reading

/-- `none` is a read that nothing answers, and an error is a message. -/
abbrev Reading (α : Type) : Type := ExceptT String Option α

/-- The computation has a result, and this is it. -/
def Gives {α : Type} (x : Reading α) (r : Except String α) : Prop := x.run = some r

variable {α β σ τ : Type}

/-! ## One step -/

theorem gives_pure (a : α) : Gives (pure a) (.ok a) := rfl

theorem gives_throw (e : String) : Gives (throw e : Reading α) (.error e) := rfl

/-- A read that the memory answers. -/
theorem gives_read {o : Option α} {a : α} (h : o = some a) : Gives (liftM o : Reading α) (.ok a) := by
  subst h
  rfl

theorem Gives.bind {x : Reading α} {f : α → Reading β} {r : Except String α}
    {g : α → Except String β} (hx : Gives x r) (hf : ∀ a, r = .ok a → Gives (f a) (g a)) :
    Gives (x >>= f) (r >>= g) := by
  have hrun : (x >>= f).run = x.run.bind fun
      | .ok a => (f a).run
      | .error e => some (.error e) := by
    show (Option.bind _ _) = _
    congr
    funext r
    cases r <;> rfl
  unfold Gives at hx hf ⊢
  rw [hrun, hx]
  cases r with
  | error e => rfl
  | ok a => exact hf a rfl

/-- A failure is all there is. -/
theorem Gives.fails {x : Reading α} {f : α → Reading β} {e : String} (hx : Gives x (.error e)) :
    Gives (x >>= f) (.error e) :=
  hx.bind (g := fun _ => .error e) fun _ ha => nomatch ha

/-- A result and what is done with it. -/
theorem Gives.goes {x : Reading α} {a : α} {f : α → Reading β} {r : Except String β}
    (hx : Gives x (.ok a)) (hf : Gives (f a) r) : Gives (x >>= f) r :=
  hx.bind (g := fun _ => r) fun b hb => by
    obtain rfl : a = b := Except.ok.inj hb
    exact hf

/-- A read and what is done with it. -/
theorem Gives.read {o : Option α} {a : α} {f : α → Reading β} {r : Except String β} (ho : o = some a)
    (hf : Gives (f a) r) : Gives (liftM o >>= f) r :=
  (gives_read ho).goes hf

theorem Gives.bind_pure {x : Reading α} {r : Except String α} (f : α → β) (hx : Gives x r) :
    Gives (x >>= fun a => pure (f a)) (f <$> r) := by
  have hbind := hx.bind (f := fun a => pure (f a)) (g := fun a => .ok (f a)) fun a _ => rfl
  cases r <;> exact hbind

theorem Gives.map {x : Reading α} {r : Except String α} (f : α → β) (hx : Gives x r) :
    Gives (f <$> x) (f <$> r) := hx.bind_pure f

/-! ## Loops -/

/-- A loop over the elements, matched element by element. -/
theorem gives_mapM {f : σ → Reading β} {g : τ → Except String β} {xs : List σ} {ys : List τ}
    (h : List.Forall₂ (fun x y => Gives (f x) (g y)) xs ys) : Gives (xs.mapM f) (ys.mapM g) := by
  induction h with
  | nil => rfl
  | cons hxy _ ih =>
    rw [List.mapM_cons, List.mapM_cons]
    exact hxy.bind fun a _ => ih.bind fun as _ => rfl

/-- A loop that carries a state. -/
theorem gives_foldlM {f : β → σ → Reading β} {g : β → τ → Except String β} {xs : List σ}
    {ys : List τ} (h : List.Forall₂ (fun x y => ∀ b, Gives (f b x) (g b y)) xs ys) (b : β) :
    Gives (xs.foldlM f b) (ys.foldlM g b) := by
  induction h generalizing b with
  | nil => rfl
  | cons hxy _ ih =>
    rw [List.foldlM_cons, List.foldlM_cons]
    exact (hxy b).bind fun c _ => ih c

/-- The positions of a list, matched with its elements. -/
theorem forall₂_range {R : Nat → τ → Prop} {ys : List τ} {n : Nat} (hn : n = ys.length)
    (h : ∀ i y, ys[i]? = some y → R i y) : List.Forall₂ R (List.range n) ys := by
  rw [List.forall₂_iff_get]
  refine ⟨by rw [List.length_range, hn], fun i h1 h2 => ?_⟩
  rw [List.get_eq_getElem, List.getElem_range]
  exact h i _ (List.getElem?_eq_getElem h2)

/-! ## Answers, whatever the message -/

/-- Both answer the same, or both fail. -/
def SameOk (r r' : Except String α) : Prop := ∀ a, r = .ok a ↔ r' = .ok a

theorem SameOk.refl (r : Except String α) : SameOk r r := fun _ => Iff.rfl

theorem sameOk_errors (e e' : String) : SameOk (.error e : Except String α) (.error e') :=
  fun _ => by simp

theorem SameOk.bind {r r' : Except String α} {f g : α → Except String β} (h : SameOk r r')
    (hf : ∀ a, SameOk (f a) (g a)) : SameOk (r >>= f) (r' >>= g) := by
  cases r with
  | ok a =>
    rw [(h a).mp rfl]
    exact hf a
  | error e =>
    cases r' with
    | ok a => cases (h a).mpr rfl
    | error e' => exact sameOk_errors e e'

theorem SameOk.map {r r' : Except String α} (f : α → β) (h : SameOk r r') :
    SameOk (f <$> r) (f <$> r') := by
  have hbind := h.bind (f := fun a => .ok (f a)) (g := fun a => .ok (f a)) fun a => .refl _
  cases r <;> cases r' <;> exact hbind

theorem sameOk_mapM {f g : σ → Except String α} (h : ∀ x, SameOk (f x) (g x)) (xs : List σ) :
    SameOk (xs.mapM f) (xs.mapM g) := by
  induction xs with
  | nil => exact .refl _
  | cons x xs ih =>
    rw [List.mapM_cons, List.mapM_cons]
    exact (h x).bind fun a => ih.bind fun as => .refl _

theorem sameOk_foldlM {f g : β → σ → Except String β} (h : ∀ b x, SameOk (f b x) (g b x)) (b : β)
    (xs : List σ) : SameOk (xs.foldlM f b) (xs.foldlM g b) := by
  induction xs generalizing b with
  | nil => exact .refl _
  | cons x xs ih =>
    rw [List.foldlM_cons, List.foldlM_cons]
    exact (h b x).bind fun c => ih c

theorem gives_unique {x : Reading α} {r r' : Except String α} (h : Gives x r) (h' : Gives x r') : r = r' :=
  Option.some.inj (h.symm.trans h')

end lib.reading
