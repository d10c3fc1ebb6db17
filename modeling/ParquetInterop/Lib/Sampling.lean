-- A sample of a list at a fixed stride. It is a part of the list in the order of the
-- list, so what orders the list orders the sample, and the values that it repeats are
-- repeated in the list.
import Mathlib.Data.List.Sort
import ParquetInterop.Lib.FirstSeen

namespace lib.sampling

/-! ## The rows of a sample -/

/-- From one row of the sample to the next, for at most `cap` of `n` rows. -/
def step (cap n : Nat) : Nat := max (n / min cap n) 1

/-- The rows `0, step, 2 * step, ...`. -/
def rows (cap n : Nat) : List Nat := (List.range (min cap n)).map (· * step cap n)

theorem step_pos (cap n : Nat) : 0 < step cap n := by unfold step; omega

/-- Every row of the sample is a row of the list. -/
theorem row_lt {cap n i : Nat} (hi : i < min cap n) : i * step cap n < n := by
  have hn : 1 ≤ n / min cap n := Nat.div_pos (Nat.min_le_right _ _) (by omega)
  have hstep : step cap n = n / min cap n := by unfold step; omega
  calc i * step cap n < min cap n * step cap n := Nat.mul_lt_mul_of_pos_right hi (step_pos _ _)
    _ = min cap n * (n / min cap n) := by rw [hstep]
    _ ≤ n := Nat.mul_div_le _ _

theorem rows_lt {cap n r : Nat} (hr : r ∈ rows cap n) : r < n := by
  obtain ⟨i, hi, rfl⟩ := List.mem_map.mp hr
  exact row_lt (List.mem_range.mp hi)

/-- The rows of the sample come in the order of the list, and none comes twice. -/
theorem rows_sublist (cap n : Nat) : (rows cap n).Sublist (List.range n) := by
  have hrows : (rows cap n).Pairwise (· < ·) := by
    apply List.Pairwise.map _ _ List.pairwise_lt_range
    exact fun a b hab => Nat.mul_lt_mul_of_pos_right hab (step_pos _ _)
  have hsub : (rows cap n).Subperm (List.range n) := by
    apply List.subperm_of_subset (hrows.imp Nat.ne_of_lt)
    exact fun r hr => List.mem_range.mpr (rows_lt hr)
  exact List.sublist_of_subperm_of_pairwise hsub hrows List.pairwise_lt_range

/-- The sample of a list of fewer than twice its size is a prefix of it. -/
theorem rows_first {cap n : Nat} (h : n < 2 * cap) : rows cap n = List.range (min cap n) := by
  have hstep : step cap n = 1 := by
    have hdiv : n / min cap n < 2 := by
      rcases Nat.eq_zero_or_pos (min cap n) with hz | hpos
      · simp [hz]
      · rw [Nat.div_lt_iff_lt_mul hpos]
        omega
    unfold step
    omega
  simp [rows, hstep]

/-- The sample of a short list is the list. -/
theorem rows_all {cap n : Nat} (h : n ≤ cap) : rows cap n = List.range n := by
  rcases Nat.eq_zero_or_pos cap with rfl | hpos
  · obtain rfl : n = 0 := by omega
    rfl
  · rw [rows_first (by omega), Nat.min_eq_right h]

/-! ## What the values of a sample say -/

section
variable {α : Type}

/-- A list whose neighbours are in order is in order. -/
theorem neighbours_iff {r : α → α → Prop} [DecidableRel r] [IsTrans α r] (xs : List α) :
    ((xs.zip xs.tail).all fun (a, b) => r a b) = true ↔ xs.Pairwise r := by
  rw [← List.isChain_iff_pairwise]
  induction xs with
  | nil => simp
  | cons a xs ih =>
    cases xs with
    | nil => simp
    | cons b xs =>
      rw [List.isChain_cons_cons, ← ih]
      simp

variable [BEq α] [LawfulBEq α]

theorem distinct_le {xs ys : List α} (h : xs.Sublist ys) :
    xs.eraseDups.length ≤ ys.eraseDups.length := by
  apply List.Subperm.length_le
  apply List.subperm_of_subset (firstseen.nodup_eraseDups xs)
  intro x hx
  rw [List.mem_eraseDups] at hx ⊢
  exact h.subset hx

end

/-! ## The estimate -/

/-- From `s` values of which `d` are distinct, the estimate stays below `c` when the values collide
more than once in `2 * c` pairs. -/
theorem estimate_lt {s d c : Nat} (h : d < s) :
    s * s / (2 * (s - d)) < c ↔ s * s < 2 * c * (s - d) := by
  rw [Nat.div_lt_iff_lt_mul (by omega), Nat.mul_left_comm, Nat.mul_assoc]

end lib.sampling
