-- The sliver of the host's types that the adapter reads and writes: the L
-- vector types, their nulls and epochs, and the elements of their vectors.
import Mathlib.Algebra.Ring.Nat
import Mathlib.Algebra.Ring.Int.Defs
import Mathlib.Data.List.Basic

namespace parquet_interop.ffi

/-! ## L types -/

/-- The type tag of an L vector. `other` is every tag that the adapter has no name for, the
list (0) too. -/
inductive LType where
  | KB
  | KG
  | KH
  | KI
  | KJ
  | KE
  | KF
  | KS
  | KP
  | KD
  | KZ
  | KN
  | KT
  | other (tag : Int)
  deriving DecidableEq

def LType.tag : LType → Int
  | .KB => 1
  | .KG => 4
  | .KH => 5
  | .KI => 6
  | .KJ => 7
  | .KE => 8
  | .KF => 9
  | .KS => 11
  | .KP => 12
  | .KD => 14
  | .KZ => 15
  | .KN => 16
  | .KT => 19
  | .other tag => tag

/-! ## Nulls and epochs -/

/-- `0Ni`, the int, date and time null. -/
def NI : Int32 := Int32.minValue

/-- `0Nj`, the long, timestamp and timespan null. -/
def NJ : Int64 := Int64.minValue

/-- `0Nh`, the short null. -/
def NH : Int16 := Int16.minValue

/-- The days from 1970 to 2000. -/
def DAY2000 : Int32 := 10957

/-- The nanoseconds from 1970 to 2000. -/
def NS2000 : Int64 := 946684800000000000

/-! ## Elements -/

/-- An `f32`, by its bits. -/
structure F32 where
  bits : UInt32
  deriving DecidableEq

/-- An `f64`, by its bits. -/
structure F64 where
  bits : UInt64
  deriving DecidableEq

def F32.NAN : F32 := ⟨0x7fc00000⟩

def F64.NAN : F64 := ⟨0x7ff8000000000000⟩

/-- The exponent is all ones and the fraction is not zero. -/
def F32.isNan (x : F32) : Bool := 0x7f800000 < x.bits &&& 0x7fffffff

def F64.isNan (x : F64) : Bool := 0x7ff0000000000000 < x.bits &&& 0x7fffffffffffffff

/-- An interned symbol. Two symbols are the same pointer when they are the same bytes. -/
structure Sym where
  bytes : List UInt8
  deriving DecidableEq

/-- The host's `sn`: the one permanent symbol of the bytes. -/
def intern (b : List UInt8) : Sym := ⟨b⟩

/-- The bytes of a `str`. -/
def utf8Bytes (s : String) : List UInt8 := s.toUTF8.data.toList

/-- `str::from_utf8`: the `str` of the bytes, when they are UTF-8. -/
def utf8Of (b : List UInt8) : Option String := String.fromUTF8? ⟨b.toArray⟩

/-- One element of an L vector. The views `v_g` to `v_s` read the payload at one of these
widths. -/
inductive Cell where
  | g (x : UInt8)
  | h (x : Int16)
  | i (x : Int32)
  | j (x : Int64)
  | e (x : F32)
  | f (x : F64)
  | s (x : Sym)
  deriving DecidableEq

/-- The null of an L type. A boolean and a byte have none and read as 0. -/
def nullCell : LType → Cell
  | .KB | .KG => .g 0
  | .KH => .h NH
  | .KI | .KD | .KT => .i NI
  | .KJ | .KP | .KN => .j NJ
  | .KE => .e F32.NAN
  | .KF => .f F64.NAN
  | .KS => .s (intern [])
  | .KZ => .f F64.NAN
  | .other _ => .g 0

/-- The bytes of an element of each tag, from the list (0) to the time (19). -/
protected def W : List Nat := [8, 1, 16, 0, 1, 2, 4, 8, 4, 8, 1, 8, 8, 4, 4, 8, 8, 4, 4, 4]

/-- The bytes of an element of an L vector. As a `usize` a negative tag is past the table. -/
protected def width (t : LType) : Nat := if t.tag < 0 then 8 else (ffi.W[t.tag.toNat]?).getD 8

/-! ## UTF-8 -/

theorem utf8Bytes_utf8Of {b : List UInt8} {s : String} (h : utf8Of b = some s) : utf8Bytes s = b := by
  unfold utf8Of String.fromUTF8? at h
  split at h
  · cases h
    rfl
  · cases h

end parquet_interop.ffi
