-- Blocks laid end to end: where each one starts, that they fill the whole
-- and that no two of them meet.
import Mathlib.Algebra.Ring.Nat
import Mathlib.Algebra.Ring.Int.Defs
import Mathlib.Data.List.Basic

namespace lib.blocks

/-! ## Chains of blocks -/

/-- A block of `len` places that starts at `off`. -/
structure Block where
  off : Nat
  len : Nat
  deriving DecidableEq

/-- The blocks fill `[lo, hi)`, each one from the end of the one before. -/
def Chain : Nat → List Block → Nat → Prop
  | lo, [], hi => lo = hi
  | lo, b :: bs, hi => b.off = lo ∧ Chain (lo + b.len) bs hi

theorem chain_le {lo hi : Nat} {bs : List Block} (h : Chain lo bs hi) : lo ≤ hi := by
  induction bs generalizing lo with
  | nil => exact Nat.le_of_eq h
  | cons b bs ih =>
    have := ih h.2
    omega

/-- Every block lies between the ends of the chain. -/
theorem chain_inside {lo hi : Nat} {bs : List Block} (h : Chain lo bs hi) :
    ∀ b ∈ bs, lo ≤ b.off ∧ b.off + b.len ≤ hi := by
  induction bs generalizing lo with
  | nil => simp
  | cons c bs ih =>
    obtain ⟨hoff, hrest⟩ := h
    have hle := chain_le hrest
    intro b hb
    rcases List.mem_cons.mp hb with rfl | hb
    · omega
    · have := ih hrest b hb
      omega

/-- A later block starts after the end of an earlier one. -/
theorem chain_pairwise {lo hi : Nat} {bs : List Block} (h : Chain lo bs hi) :
    bs.Pairwise fun a b => a.off + a.len ≤ b.off := by
  induction bs generalizing lo with
  | nil => exact List.Pairwise.nil
  | cons c bs ih =>
    obtain ⟨hoff, hrest⟩ := h
    refine List.Pairwise.cons (fun b hb => ?_) (ih hrest)
    have := chain_inside hrest b hb
    omega

/-- A function that is the list of each block on the places of the block is all the lists, one
after the other. -/
theorem chain_map {T X : Type} {f : Nat → T} {block : X → Block} {rows : X → List T}
    {items : List X} {lo hi : Nat} (h : Chain lo (items.map block) hi)
    (hlen : ∀ x ∈ items, (rows x).length = (block x).len)
    (hf : ∀ x ∈ items, ∀ (j : Nat) y, (rows x)[j]? = some y → f ((block x).off + j) = y) :
    (List.range' lo (hi - lo)).map f = items.flatMap rows := by
  induction items generalizing lo with
  | nil =>
    have : lo = hi := h
    simp [this]
  | cons x items ih =>
    rw [List.map_cons] at h
    obtain ⟨hoff, hrest⟩ := h
    have hle := chain_le hrest
    have hx := hlen x List.mem_cons_self
    have hsplit : List.range' lo (hi - lo) =
        List.range' lo (block x).len ++ List.range' (lo + (block x).len) (hi - (lo + (block x).len)) := by
      rw [List.range'_append_1]
      congr 1
      omega
    have hfirst : (List.range' lo (block x).len).map f = rows x := by
      apply List.ext_getElem?
      intro j
      rw [List.getElem?_map]
      by_cases hj : j < (block x).len
      · obtain ⟨y, hy⟩ : ∃ y, (rows x)[j]? = some y := ⟨_, List.getElem?_eq_getElem (hx ▸ hj)⟩
        have := hf x List.mem_cons_self j y hy
        rw [hoff] at this
        rw [List.getElem?_range' hj, hy, Option.map_some, Nat.one_mul, this]
      · rw [List.getElem?_eq_none (by simpa using hj), List.getElem?_eq_none (by omega)]
        rfl
    rw [hsplit, List.map_append, List.flatMap_cons, hfirst,
      ih hrest (fun y hy => hlen y (List.mem_cons_of_mem x hy))
        fun y hy => hf y (List.mem_cons_of_mem x hy)]

/-! ## Lists cut in slices -/

/-- The elements `[a, b)` of a list. -/
def slice {T : Type} (l : List T) (a b : Nat) : List T := (l.take b).drop a

theorem slice_append {T : Type} (l : List T) {a b c : Nat} (hab : a ≤ b) (hbc : b ≤ c) :
    slice l a b ++ slice l b c = slice l a c := by
  unfold slice
  rw [List.drop_take, List.drop_take, List.drop_take, show c - a = b - a + (c - b) by omega,
    List.take_add, List.drop_drop, show a + (b - a) = b by omega]

/-- Slices at ascending cuts give the list back. -/
theorem flatMap_slices {T : Type} (l : List T) {b : Nat → Nat} (hb : ∀ j, b j ≤ b (j + 1)) (k : Nat) :
    ((List.range k).flatMap fun j => slice l (b j) (b (j + 1))) = slice l (b 0) (b k) := by
  have hle : ∀ j, b 0 ≤ b j := by
    intro j
    induction j with
    | zero => exact Nat.le_refl _
    | succ j ih => exact Nat.le_trans ih (hb j)
  induction k with
  | zero => simp [slice]
  | succ k ih =>
    rw [List.range_succ, List.flatMap_append, ih, List.flatMap_singleton, slice_append l (hle k) (hb k)]

end lib.blocks
