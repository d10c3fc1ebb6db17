-- Bytes of a file: numbers with the low byte first, files with a position,
-- runs of strings that end in a NUL, and runs of elements of one width.
import Mathlib.Algebra.Ring.Nat
import Mathlib.Algebra.Ring.Int.Defs
import Mathlib.Data.List.Basic

namespace lib.bytes

/-! ## Numbers -/

/-- The low `w` bytes of `x`, the lowest first. -/
def little : Nat → Nat → List UInt8
  | 0, _ => []
  | w + 1, x => UInt8.ofNat x :: little w (x / 256)

def ofLittle : List UInt8 → Nat
  | [] => 0
  | b :: bs => b.toNat + 256 * ofLittle bs

/-- The two's complement of `x` in `w` bytes. -/
def signed (w : Nat) (x : Int) : List UInt8 := little w (x % 256 ^ w).toNat

/-- The number that the bytes are the two's complement of. -/
def ofSigned (bs : List UInt8) : Int := (ofLittle bs : Int).bmod (256 ^ bs.length)

@[simp] theorem length_little (w x : Nat) : (little w x).length = w := by
  induction w generalizing x with
  | zero => rfl
  | succ w ih => rw [little, List.length_cons, ih]

@[simp] theorem length_signed (w : Nat) (x : Int) : (signed w x).length = w := length_little ..

theorem drop_signed {w k : Nat} (x : Int) (h : w ≤ k) : (signed w x).drop k = [] :=
  List.drop_eq_nil_of_le (by simpa using h)

theorem ofLittle_little {w x : Nat} (h : x < 256 ^ w) : ofLittle (little w x) = x := by
  induction w generalizing x with
  | zero =>
    have hx : x = 0 := by simpa using h
    rw [hx]
    rfl
  | succ w ih =>
    have hdiv : x / 256 < 256 ^ w := by
      rw [Nat.pow_succ] at h
      exact Nat.div_lt_of_lt_mul (by omega)
    have hlow : (UInt8.ofNat x).toNat = x % 256 := UInt8.toNat_ofNat'
    rw [little, ofLittle, ih hdiv, hlow]
    omega

theorem ofLittle_lt (b : List UInt8) : ofLittle b < 256 ^ b.length := by
  induction b with
  | nil => decide
  | cons x b ih =>
    have hx := x.toNat_lt
    rw [ofLittle, List.length_cons, Nat.pow_succ]
    omega

/-- Bytes are the low bytes of the number that they are read as. -/
theorem little_ofLittle (b : List UInt8) : little b.length (ofLittle b) = b := by
  induction b with
  | nil => rfl
  | cons x b ih =>
    have hx := x.toNat_lt
    have hlow : UInt8.ofNat (x.toNat + 256 * ofLittle b) = x := by
      apply UInt8.toNat_inj.mp
      rw [UInt8.toNat_ofNat']
      omega
    have hhigh : (x.toNat + 256 * ofLittle b) / 256 = ofLittle b := by omega
    rw [ofLittle, List.length_cons, little, hlow, hhigh, ih]

/-- The bytes of a number that fits bring it back. -/
theorem ofSigned_signed {w : Nat} {x : Int} (hlo : -(256 ^ w : Nat) ≤ x * 2)
    (hhi : x * 2 < (256 ^ w : Nat)) : ofSigned (signed w x) = x := by
  have hcast : (256 : Int) ^ w = (256 ^ w : Nat) := by simp
  have hpos : 0 < 256 ^ w := Nat.pow_pos (by decide)
  have hnonneg : 0 ≤ x % (256 ^ w : Nat) := Int.emod_nonneg x (by omega)
  have hlt : x % (256 ^ w : Nat) < (256 ^ w : Nat) := Int.emod_lt_of_pos x (by omega)
  unfold ofSigned
  rw [length_signed, signed, hcast, ofLittle_little (by omega), Int.toNat_of_nonneg hnonneg,
    Int.emod_bmod]
  exact Int.bmod_eq_of_le_mul_two hlo hhi

/-! ## Files -/

/-- An open file: the bytes that it holds, and where the next write goes. -/
structure File where
  data : List UInt8
  pos : Nat
  deriving DecidableEq

def File.empty : File := ⟨[], 0⟩

/-- `write_all`: the bytes go over those at the position. -/
def File.write (f : File) (b : List UInt8) : File :=
  ⟨f.data.take f.pos ++ b ++ f.data.drop (f.pos + b.length), f.pos + b.length⟩

def File.seek (f : File) (pos : Nat) : File := { f with pos := pos }

/-- The position is behind the last byte. -/
def File.AtEnd (f : File) : Prop := f.pos = f.data.length

theorem File.empty_atEnd : File.empty.AtEnd := rfl

theorem File.AtEnd.write {f : File} (h : f.AtEnd) (b : List UInt8) :
    f.write b = ⟨f.data ++ b, (f.data ++ b).length⟩ := by
  have hlen : f.data.length = f.pos := h.symm
  unfold File.write
  rw [List.take_of_length_le (by omega), List.drop_eq_nil_of_le (by omega), List.append_nil,
    List.length_append, hlen]

theorem File.AtEnd.written {f : File} (h : f.AtEnd) (b : List UInt8) : (f.write b).AtEnd := by
  rw [h.write]
  rfl

/-- A write in the middle puts the new bytes in the place of as many old ones. -/
theorem File.write_over {xs old ys b : List UInt8} (h : b.length = old.length) :
    (File.write ⟨xs ++ old ++ ys, xs.length⟩ b).data = xs ++ b ++ ys := by
  unfold File.write
  simp only [List.append_assoc, List.take_left, h]
  rw [List.drop_append, List.drop_eq_nil_of_le (by omega)]
  simp

/-! ## Strings that end in a NUL -/

/-- The string before each NUL, in order. What follows the last NUL must be empty. -/
def strings : List UInt8 → List UInt8 → Option (List (List UInt8))
  | [], [] => some []
  | _ :: _, [] => none
  | acc, b :: bs =>
    if b = 0 then (strings [] bs).map (acc.reverse :: ·) else strings (b :: acc) bs

theorem strings_text {acc t rest : List UInt8} (h : 0 ∉ t) :
    strings acc (t ++ 0 :: rest) = (strings [] rest).map ((acc.reverse ++ t) :: ·) := by
  induction t generalizing acc with
  | nil => simp [strings]
  | cons b t ih =>
    have hb : b ≠ 0 := fun hb => h (hb ▸ List.mem_cons_self)
    rw [List.cons_append, strings, if_neg hb, ih fun ht => h (List.mem_cons_of_mem b ht)]
    simp

/-- A run of strings without a NUL is read back. -/
theorem strings_flatMap {ts : List (List UInt8)} (h : ∀ t ∈ ts, 0 ∉ t) :
    strings [] (ts.flatMap (· ++ [0])) = some ts := by
  induction ts with
  | nil => rfl
  | cons t ts ih =>
    rw [List.flatMap_cons, List.append_assoc, List.singleton_append,
      strings_text (h t List.mem_cons_self), ih fun t ht => h t (List.mem_cons_of_mem _ ht)]
    simp

/-! ## Elements of one width -/

variable {α : Type}

/-- `n` elements of `w` bytes each, and nothing behind them. -/
def elements (w : Nat) (read : List UInt8 → α) : Nat → List UInt8 → Option (List α)
  | 0, bs => if bs = [] then some [] else none
  | n + 1, bs =>
    if w ≤ bs.length then (elements w read n (bs.drop w)).map (read (bs.take w) :: ·) else none

/-- Elements that were written one behind the other are read back. -/
theorem elements_flatMap {w : Nat} {read : List UInt8 → α} {put : α → List UInt8} {xs : List α}
    (hlen : ∀ x ∈ xs, (put x).length = w) (hread : ∀ x ∈ xs, read (put x) = x) :
    elements w read xs.length (xs.flatMap put) = some xs := by
  induction xs with
  | nil => rfl
  | cons x xs ih =>
    have hx := hlen x List.mem_cons_self
    have hrest := ih (fun y hy => hlen y (List.mem_cons_of_mem x hy))
      fun y hy => hread y (List.mem_cons_of_mem x hy)
    rw [List.flatMap_cons, List.length_cons, elements, if_pos (by simp [hx]),
      List.drop_left' hx, List.take_left' hx, hrest, hread x List.mem_cons_self]
    rfl

end lib.bytes
