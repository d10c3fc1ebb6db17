-- The scratch names of `Scratch::new`: beside the target, with the pid and a
-- counter of the process in them. Two names are the same only when both are.
import Mathlib.Algebra.Ring.Nat
import Mathlib.Algebra.Ring.Int.Defs
import Mathlib.Data.List.DropRight
import Mathlib.Data.List.Basic

namespace parquet_interop.scratch

/-- `path.trim_end_matches('/')`. -/
def trimEnd (path : List Char) : List Char := path.rdropWhile (· == '/')

/-- `format!("{}.{}.{}.tmp", ..)`, where `n` is what the counter held. -/
def name (path : List Char) (pid n : Nat) : List Char :=
  trimEnd path ++ ('.' :: Nat.toDigits 10 pid) ++ ('.' :: Nat.toDigits 10 n) ++ ".tmp".toList

/-- `N.fetch_add(1, Relaxed)` leaves this in the counter, a `usize`. -/
def bumped (n : Nat) : Nat := (n + 1) % 2 ^ 64

/-! ## The digits -/

theorem dot_not_digit (n : Nat) : '.' ∉ Nat.toDigits 10 n := by
  intro h
  have := Nat.isDigit_of_mem_toDigits (by decide) (by decide) h
  contradiction

theorem toDigits_inj {n m : Nat} (h : Nat.toDigits 10 n = Nat.toDigits 10 m) : n = m := by
  have hn := @Nat.ofDigitChars_ten_toDigits n
  rw [h, Nat.ofDigitChars_ten_toDigits] at hn
  exact hn.symm

/-- The dot ends the digits of a number, so the digits and the rest can be told apart. -/
theorem digits_dot_inj {n m : Nat} {xs ys : List Char}
    (h : Nat.toDigits 10 n ++ '.' :: xs = Nat.toDigits 10 m ++ '.' :: ys) : n = m := by
  have htake := congrArg (List.takeWhile (· != '.')) h
  have hdigits : ∀ k zs, (Nat.toDigits 10 k ++ '.' :: zs).takeWhile (· != '.') =
      Nat.toDigits 10 k := fun k zs => by
    rw [List.takeWhile_append_of_pos]
    · simp
    · intro c hc
      exact bne_iff_ne.mpr fun hdot => dot_not_digit k (hdot ▸ hc)
  rw [hdigits, hdigits] at htake
  exact toDigits_inj htake

/-! ## The names -/

theorem trimEnd_append (path : List Char) :
    path = trimEnd path ++ path.rtakeWhile (· == '/') := by
  unfold trimEnd List.rdropWhile List.rtakeWhile
  rw [← List.reverse_append, List.takeWhile_append_dropWhile, List.reverse_reverse]

/-- A name carries the pid and the count that it was made with. -/
theorem name_inj {path : List Char} {p q n m : Nat} (h : name path p n = name path q m) :
    p = q ∧ n = m := by
  unfold name at h
  simp only [List.append_assoc, List.append_cancel_left_eq, List.cons_append, List.cons.injEq,
    true_and] at h
  have hp := digits_dot_inj h
  subst hp
  simp only [List.append_cancel_left_eq, List.cons.injEq, true_and] at h
  exact ⟨rfl, digits_dot_inj (h : _ ++ '.' :: "tmp".toList = _ ++ '.' :: "tmp".toList)⟩

/-- No name is the path itself: what is trimmed holds no dot. -/
theorem name_ne (path : List Char) (p n : Nat) : name path p n ≠ path := by
  intro h
  have hname := h.trans (trimEnd_append path)
  unfold name at hname
  rw [List.append_assoc, List.append_assoc, List.append_cancel_left_eq] at hname
  have hdot : '.' ∈ path.rtakeWhile (· == '/') := hname ▸ List.mem_append_left _ List.mem_cons_self
  have hslash := List.mem_rtakeWhile_imp hdot
  contradiction

end parquet_interop.scratch
