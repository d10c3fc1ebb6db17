-- Sums in a wrapping 64-bit register against the true sums.
import Mathlib.Algebra.Ring.Nat
import Mathlib.Algebra.Ring.Int.Defs
import Mathlib.Algebra.BigOperators.Group.List.Basic

namespace lib.wrapping

/-- The value that a sum wraps to in an `i64`. -/
def wrap (x : Int) : Int := x.bmod (2 ^ 64)

theorem wrap_of_fits {x : Int} (hlo : -2 ^ 63 ≤ x) (hhi : x < 2 ^ 63) : wrap x = x := by
  unfold wrap
  rw [Int.bmod_eq_iff (by decide)]
  omega

theorem wrap_wrap_add (x y : Int) : wrap (wrap x + y) = wrap (x + y) :=
  Int.bmod_add_bmod

theorem wrap_add_wrap (x y : Int) : wrap (x + wrap y) = wrap (x + y) :=
  Int.add_bmod_bmod

/-- Addition from the left with a wrap after each step is the wrap of the true sum. -/
theorem toInt_foldl_add (a : Int64) (l : List Int64) :
    (l.foldl (· + ·) a).toInt = wrap (a.toInt + (l.map Int64.toInt).sum) := by
  induction l generalizing a with
  | nil =>
    have hlo := Int64.le_toInt a
    have hhi := Int64.toInt_lt a
    simp only [List.foldl_nil, List.map_nil, List.sum_nil, Int.add_zero]
    exact (wrap_of_fits hlo hhi).symm
  | cons b l ih =>
    have hb : (a + b).toInt = wrap (a.toInt + b.toInt) := Int64.toInt_add a b
    rw [List.foldl_cons, ih, hb, wrap_wrap_add, List.map_cons, List.sum_cons, Int.add_assoc]

/-- A sum of wrapped sums wraps to the same value. -/
theorem wrap_sum_wrap (l : List Int) : wrap (l.map wrap).sum = wrap l.sum := by
  induction l with
  | nil => rfl
  | cons x l ih =>
    rw [List.map_cons, List.sum_cons, List.sum_cons, wrap_wrap_add, ← wrap_add_wrap, ih,
      wrap_add_wrap]

end lib.wrapping
