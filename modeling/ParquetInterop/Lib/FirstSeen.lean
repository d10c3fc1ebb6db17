-- Values in first-seen order, and pages of values with a key: when a page whose
-- key was there before may be skipped without a change of that order.
import Mathlib.Algebra.Ring.Nat
import Mathlib.Algebra.Ring.Int.Defs
import Mathlib.Data.List.Basic
import Mathlib.Data.List.Induction

namespace lib.firstseen

/-! ## First-seen values -/

section
variable {α : Type} [BEq α]

/-- The values of `xs` that are not in `seen`, each where it comes first. -/
def fresh (seen xs : List α) : List α := (xs.removeAll seen).eraseDups

@[simp] theorem fresh_nil (xs : List α) : fresh [] xs = xs.eraseDups := by simp [fresh]

@[simp] theorem fresh_of_nil (seen : List α) : fresh seen [] = [] := by simp [fresh]

theorem length_eraseDups_le (xs : List α) : xs.eraseDups.length ≤ xs.length := by
  induction hn : xs.length using Nat.strong_induction_on generalizing xs with
  | _ n ih =>
    cases xs with
    | nil => simp
    | cons x xs =>
      have hlen := List.length_filter_le (fun b => !b == x) xs
      have hrest := ih _ (by simp at hn; omega) (xs.filter fun b => !b == x) rfl
      rw [List.length_cons] at hn
      rw [List.eraseDups_cons, List.length_cons]
      omega

variable [LawfulBEq α]

theorem mem_removeAll {xs ys : List α} {v : α} : v ∈ xs.removeAll ys ↔ v ∈ xs ∧ v ∉ ys := by
  simp [List.removeAll]

@[simp] theorem mem_fresh {seen xs : List α} {v : α} : v ∈ fresh seen xs ↔ v ∈ xs ∧ v ∉ seen := by
  simp [fresh, mem_removeAll]

/-- It matters which values are seen, and not in which order. -/
theorem fresh_congr {s t : List α} (h : ∀ v, v ∈ s ↔ v ∈ t) (xs : List α) :
    fresh s xs = fresh t xs := by
  have hfilter : xs.removeAll s = xs.removeAll t := by
    apply List.filter_congr
    intro v _
    simp [h]
  rw [fresh, hfilter, fresh]

theorem fresh_append (s xs ys : List α) :
    fresh s (xs ++ ys) = fresh s xs ++ fresh (s ++ xs) ys := by
  have hrest : (ys.removeAll s).removeAll (xs.removeAll s) = ys.removeAll (s ++ xs) := by
    simp only [List.removeAll, List.filter_filter]
    apply List.filter_congr
    intro v _
    simp
    grind
  have hsplit : (xs ++ ys).removeAll s = xs.removeAll s ++ ys.removeAll s := by
    simp [List.removeAll]
  rw [fresh, hsplit, List.eraseDups_append, hrest, fresh, fresh]

/-- One value is new, or it is seen. -/
theorem fresh_singleton (s : List α) (v : α) : fresh s [v] = if v ∈ s then [] else [v] := by
  unfold fresh
  rw [List.cons_removeAll]
  split <;> simp_all [List.eraseDups_cons]

/-- One value more is at the end, unless it came before. -/
theorem eraseDups_concat (xs : List α) (v : α) :
    (xs ++ [v]).eraseDups = xs.eraseDups ++ if v ∈ xs then [] else [v] := by
  rw [← fresh_nil, fresh_append, fresh_nil, List.nil_append, fresh_singleton]

/-- A partial function that tells the values apart keeps where they come first. -/
theorem filterMap_eraseDups {β : Type} [BEq β] [LawfulBEq β] {f : α → Option β} {xs : List α}
    (hf : ∀ a ∈ xs, ∀ b ∈ xs, ∀ y, f a = some y → f b = some y → a = b) :
    (xs.filterMap f).eraseDups = xs.eraseDups.filterMap f := by
  induction xs using List.reverseRecOn with
  | nil => simp
  | append_singleton xs x ih =>
    have hrest := ih fun a ha b hb => hf a (by simp [ha]) b (by simp [hb])
    rw [List.filterMap_append, eraseDups_concat, List.filterMap_append, ← hrest]
    rcases hx : f x with _ | y
    · by_cases hmem : x ∈ xs <;> simp [hmem, hx]
    · have hiff : y ∈ xs.filterMap f ↔ x ∈ xs := by
        rw [List.mem_filterMap]
        constructor
        · rintro ⟨a, ha, hy⟩
          exact hf a (by simp [ha]) x (by simp) y hy hx ▸ ha
        · intro hmem
          exact ⟨x, hmem, hx⟩
      have hone : List.filterMap f [x] = [y] := by simp [hx]
      rw [hone, eraseDups_concat]
      by_cases hmem : x ∈ xs <;> simp [hmem, hiff, hx]

theorem eraseDups_filter (p : α → Bool) (xs : List α) :
    (xs.filter p).eraseDups = xs.eraseDups.filter p := by
  induction hn : xs.length using Nat.strong_induction_on generalizing xs with
  | _ n ih =>
    cases xs with
    | nil => simp
    | cons x xs =>
      have hlen := List.length_filter_le (fun b => !b == x) xs
      have hrec := ih _ (by simp at hn; omega) (xs.filter fun b => !b == x) rfl
      rw [List.eraseDups_cons, List.filter_cons, List.filter_cons, ← hrec]
      split
      · rw [List.eraseDups_cons, List.filter_filter, List.filter_filter]
        congr 3
        funext b
        exact Bool.and_comm _ _
      · rename_i hx
        rw [List.filter_filter]
        congr 1
        apply List.filter_congr
        intro b _
        by_cases hb : b = x
        · subst hb
          simp [hx]
        · simp [hb]

theorem nodup_eraseDups (xs : List α) : xs.eraseDups.Nodup := by
  induction hn : xs.length using Nat.strong_induction_on generalizing xs with
  | _ n ih =>
    cases xs with
    | nil => simp
    | cons x xs =>
      have hlen := List.length_filter_le (fun b => !b == x) xs
      rw [List.eraseDups_cons, List.nodup_cons]
      refine ⟨by simp, ?_⟩
      exact ih _ (by simp at hn; omega) _ rfl

theorem eraseDups_of_nodup {xs : List α} (h : xs.Nodup) : xs.eraseDups = xs := by
  induction xs with
  | nil => simp
  | cons x xs ih =>
    rw [List.nodup_cons] at h
    have hself : xs.filter (fun b => !b == x) = xs := by
      apply List.filter_eq_self.mpr
      intro b hb
      have hbx : b ≠ x := fun he => h.1 (he ▸ hb)
      simp [hbx]
    rw [List.eraseDups_cons, hself, ih h.2]

theorem nodup_fresh (s xs : List α) : (fresh s xs).Nodup := nodup_eraseDups _

/-- The first few of the fresh values may as well have been seen before. -/
theorem fresh_of_front {s xs ws : List α} (h : ws <+: fresh s xs) :
    fresh s xs = ws ++ fresh (s ++ ws) xs := by
  obtain ⟨zs, hzs⟩ := h
  have hfilter : fresh (s ++ ws) xs = (fresh s xs).filter fun v => v ∉ ws := by
    unfold fresh
    rw [← eraseDups_filter]
    congr 1
    simp only [List.removeAll, List.filter_filter]
    apply List.filter_congr
    intro v _
    simp
    grind
  have hnd := nodup_fresh s xs
  rw [← hzs, List.nodup_append] at hnd
  rw [hfilter, ← hzs, List.filter_append]
  have hnone : ws.filter (fun v => v ∉ ws) = [] := by simp
  have hall : zs.filter (fun v => v ∉ ws) = zs := by
    apply List.filter_eq_self.mpr
    intro v hv
    simp only [decide_eq_true_eq]
    intro hw
    exact hnd.2.2 v hw v hv rfl
  rw [hnone, hall, List.nil_append]

end

/-! ## Pages with a key -/

section
variable {κ α : Type}

/-- The values of the pages, one page behind the other. -/
def values (ps : List (κ × List α)) : List α := ps.flatMap Prod.snd

@[simp] theorem values_nil : values ([] : List (κ × List α)) = [] := rfl

@[simp] theorem values_cons (p : κ × List α) (ps : List (κ × List α)) :
    values (p :: ps) = p.2 ++ values ps := by simp [values]

@[simp] theorem values_append (ps qs : List (κ × List α)) :
    values (ps ++ qs) = values ps ++ values qs := by simp [values]

variable [DecidableEq κ]

/-- The pages whose key is not seen before them. -/
def kept (seen : List κ) : List (κ × List α) → List (κ × List α)
  | [] => []
  | p :: ps => if p.1 ∈ seen then kept seen ps else p :: kept (p.1 :: seen) ps

theorem kept_of_seen {seen : List κ} {p : κ × List α} (h : p.1 ∈ seen) (ps : List (κ × List α)) :
    kept seen (p :: ps) = kept seen ps := by simp [kept, h]

theorem kept_of_new {seen : List κ} {p : κ × List α} (h : p.1 ∉ seen) (ps : List (κ × List α)) :
    kept seen (p :: ps) = p :: kept (p.1 :: seen) ps := by simp [kept, h]

theorem kept_congr {s t : List κ} (h : ∀ k, k ∈ s ↔ k ∈ t) (ps : List (κ × List α)) :
    kept s ps = kept t ps := by
  induction ps generalizing s t with
  | nil => rfl
  | cons p ps ih =>
    unfold kept
    rw [ih h, ih (s := p.1 :: s) (t := p.1 :: t) (by simp [h])]
    simp only [h]

variable [BEq α]

/-- After the pages `pre`: where a page is skipped, the values that it would have brought are the
next ones that the kept pages behind it, and then `tail`, bring. -/
def SteadyFrom (pre ps : List (κ × List α)) (tail : List α) : Prop :=
  ∀ mid p post, ps = mid ++ p :: post → p.1 ∈ (pre ++ mid).map Prod.fst →
    fresh (values (pre ++ mid)) p.2 <+:
      fresh (values (pre ++ mid)) (values (kept ((pre ++ mid).map Prod.fst) post) ++ tail)

/-- No skipped page is missed. -/
def Steady (ps : List (κ × List α)) (tail : List α) : Prop := SteadyFrom [] ps tail

theorem steadyFrom_cons {pre ps : List (κ × List α)} {p : κ × List α} {tail : List α} :
    SteadyFrom pre (p :: ps) tail ↔
      (p.1 ∈ pre.map Prod.fst → fresh (values pre) p.2 <+:
        fresh (values pre) (values (kept (pre.map Prod.fst) ps) ++ tail)) ∧
      SteadyFrom (pre ++ [p]) ps tail := by
  constructor
  · intro h
    refine ⟨fun hp => ?_, fun mid q post he hq => ?_⟩
    · simpa using h [] p ps rfl (by simpa using hp)
    · have hq' := h (p :: mid) q post (by rw [he, List.cons_append])
      simp only [List.append_assoc, List.singleton_append] at hq ⊢
      exact hq' hq
  · rintro ⟨hhead, htail⟩ mid q post he hq
    cases mid with
    | nil =>
      obtain ⟨rfl, rfl⟩ := List.cons.inj he
      simp only [List.append_nil] at hq ⊢
      exact hhead hq
    | cons r mid =>
      obtain ⟨rfl, rfl⟩ := List.cons.inj he
      have hq' := htail mid q post rfl
      simp only [List.append_assoc, List.singleton_append] at hq'
      exact hq' hq

variable [LawfulBEq α]

/-- A page that is kept adds the same to both sides. -/
theorem keep_iff (s xs ys zs : List α) :
    fresh s (xs ++ ys) = fresh s (xs ++ zs) ↔ fresh (s ++ xs) ys = fresh (s ++ xs) zs := by
  rw [fresh_append, fresh_append]
  exact List.append_right_inj _

/-- What is fresh after some values is fresh after those of them that are fresh. -/
theorem fresh_seen (s xs ys : List α) : fresh (s ++ fresh s xs) ys = fresh (s ++ xs) ys := by
  apply fresh_congr
  intro v
  simp only [List.mem_append, mem_fresh]
  by_cases hv : v ∈ s
  · simp [hv]
  · simp [hv]

/-- A page that is skipped is not missed when its new values come next, and the rest agrees. -/
theorem skip_iff (s xs ys zs : List α) :
    fresh s ys = fresh s (xs ++ zs) ↔
      fresh s xs <+: fresh s ys ∧ fresh (s ++ xs) ys = fresh (s ++ xs) zs := by
  have hseen := fresh_seen s xs ys
  rw [fresh_append]
  constructor
  · intro h
    have hfront : fresh s xs <+: fresh s ys := by
      rw [h]
      exact List.prefix_append _ _
    refine ⟨hfront, ?_⟩
    rw [fresh_of_front hfront, hseen] at h
    exact List.append_cancel_left h
  · rintro ⟨hfront, h⟩
    rw [fresh_of_front hfront, hseen, h]

theorem kept_from_iff (pre ps : List (κ × List α)) (tail : List α) :
    fresh (values pre) (values (kept (pre.map Prod.fst) ps) ++ tail) =
        fresh (values pre) (values ps ++ tail) ↔ SteadyFrom pre ps tail := by
  induction ps generalizing pre with
  | nil => simp [kept, SteadyFrom]
  | cons p ps ih =>
    have hkeys : ∀ k, k ∈ (pre ++ [p]).map Prod.fst ↔ k ∈ p.1 :: pre.map Prod.fst := by
      intro k
      rw [List.map_append, List.mem_append, List.mem_cons, or_comm]
      simp
    have hstep := ih (pre ++ [p])
    rw [kept_congr hkeys, values_append, values_cons, values_nil, List.append_nil] at hstep
    rw [steadyFrom_cons, ← hstep, values_cons, List.append_assoc]
    by_cases hp : p.1 ∈ pre.map Prod.fst
    · have hsame : kept (p.1 :: pre.map Prod.fst) ps = kept (pre.map Prod.fst) ps := by
        apply kept_congr
        intro k
        rw [List.mem_cons, or_iff_right_of_imp]
        rintro rfl
        exact hp
      rw [kept_of_seen hp, hsame, skip_iff]
      simp only [hp, true_imp_iff]
    · rw [kept_of_new hp, values_cons, List.append_assoc, keep_iff]
      simp only [hp, false_imp_iff, true_and]

/-- Skipping pages leaves the first-seen order as it is exactly when none is missed. -/
theorem kept_iff (ps : List (κ × List α)) (tail : List α) :
    fresh [] (values (kept [] ps) ++ tail) = fresh [] (values ps ++ tail) ↔ Steady ps tail :=
  kept_from_iff [] ps tail

end

end lib.firstseen
