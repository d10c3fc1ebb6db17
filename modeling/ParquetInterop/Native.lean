-- The native types of Arrow arrays and the arithmetic that the adapter asks
-- of them: what wraps, what is checked, and how floats compare.
import ParquetInterop.Ffi

open parquet_interop.ffi

namespace parquet_interop.native

/-! ## The class -/

/-- `ArrowNativeTypeOp`, with the element of an L vector that a value is stored as. -/
class ArrowNativeTypeOp (T : Type) where
  ZERO : T
  ONE : T
  isEq : T → T → Bool
  isLt : T → T → Bool
  addWrapping : T → T → T
  subWrapping : T → T → T
  mulChecked : T → T → Option T
  toCell : T → Cell
  ofCell : Cell → T
  ofCell_toCell : ∀ x, ofCell (toCell x) = x

open ArrowNativeTypeOp

attribute [simp] ArrowNativeTypeOp.ofCell_toCell

def isZero {T : Type} [ArrowNativeTypeOp T] (x : T) : Bool := isEq x (ZERO : T)

/-! ## Integers -/

/-- `i64::checked_mul`. -/
def checkedMul (a b : Int64) : Option Int64 :=
  let w := a.toInt * b.toInt
  if -2 ^ 63 ≤ w ∧ w < 2 ^ 63 then some (Int64.ofInt w) else none

/-- `i64::checked_sub`. -/
def checkedSub (a b : Int64) : Option Int64 :=
  let w := a.toInt - b.toInt
  if -2 ^ 63 ≤ w ∧ w < 2 ^ 63 then some (Int64.ofInt w) else none

def checkedMul32 (a b : Int32) : Option Int32 :=
  let w := a.toInt * b.toInt
  if -2 ^ 31 ≤ w ∧ w < 2 ^ 31 then some (Int32.ofInt w) else none

/-- `i32::checked_sub`. -/
def checkedSub32 (a b : Int32) : Option Int32 :=
  let w := a.toInt - b.toInt
  if -2 ^ 31 ≤ w ∧ w < 2 ^ 31 then some (Int32.ofInt w) else none

def checkedMul16 (a b : Int16) : Option Int16 :=
  let w := a.toInt * b.toInt
  if -2 ^ 15 ≤ w ∧ w < 2 ^ 15 then some (Int16.ofInt w) else none

def checkedMul8 (a b : Int8) : Option Int8 :=
  let w := a.toInt * b.toInt
  if -2 ^ 7 ≤ w ∧ w < 2 ^ 7 then some (Int8.ofInt w) else none

def checkedMulU8 (a b : UInt8) : Option UInt8 :=
  let w := a.toNat * b.toNat
  if w < 2 ^ 8 then some (UInt8.ofNat w) else none

instance : ArrowNativeTypeOp Int64 where
  ZERO := 0
  ONE := 1
  isEq a b := a == b
  isLt a b := a < b
  addWrapping := (· + ·)
  subWrapping := (· - ·)
  mulChecked := checkedMul
  toCell := .j
  ofCell
    | .j x => x
    | _ => 0
  ofCell_toCell _ := rfl

instance : ArrowNativeTypeOp Int32 where
  ZERO := 0
  ONE := 1
  isEq a b := a == b
  isLt a b := a < b
  addWrapping := (· + ·)
  subWrapping := (· - ·)
  mulChecked := checkedMul32
  toCell := .i
  ofCell
    | .i x => x
    | _ => 0
  ofCell_toCell _ := rfl

instance : ArrowNativeTypeOp Int16 where
  ZERO := 0
  ONE := 1
  isEq a b := a == b
  isLt a b := a < b
  addWrapping := (· + ·)
  subWrapping := (· - ·)
  mulChecked := checkedMul16
  toCell := .h
  ofCell
    | .h x => x
    | _ => 0
  ofCell_toCell _ := rfl

/-- A signed byte is stored by its bits in the byte vector. -/
instance : ArrowNativeTypeOp Int8 where
  ZERO := 0
  ONE := 1
  isEq a b := a == b
  isLt a b := a < b
  addWrapping := (· + ·)
  subWrapping := (· - ·)
  mulChecked := checkedMul8
  toCell x := .g x.toUInt8
  ofCell
    | .g x => x.toInt8
    | _ => 0
  ofCell_toCell _ := rfl

instance : ArrowNativeTypeOp UInt8 where
  ZERO := 0
  ONE := 1
  isEq a b := a == b
  isLt a b := a < b
  addWrapping := (· + ·)
  subWrapping := (· - ·)
  mulChecked := checkedMulU8
  toCell := .g
  ofCell
    | .g x => x
    | _ => 0
  ofCell_toCell _ := rfl

/-! ## Floats -/

/-- The place of an `f32` in the total order: negative values stand below in reverse. -/
def orderF32 (x : F32) : Int :=
  if x.bits &&& 0x80000000 = 0 then x.bits.toNat else -1 - (x.bits &&& 0x7fffffff).toNat

def orderF64 (x : F64) : Int :=
  if x.bits &&& 0x8000000000000000 = 0 then x.bits.toNat
  else -1 - (x.bits &&& 0x7fffffffffffffff).toNat

/-- Floats compare by the total order, so a NaN equals itself. No float column is scaled or
shifted, so the arithmetic is never used. -/
instance : ArrowNativeTypeOp F32 where
  ZERO := ⟨0⟩
  ONE := ⟨0x3f800000⟩
  isEq a b := a.bits == b.bits
  isLt a b := orderF32 a < orderF32 b
  addWrapping a b := ⟨(Float32.ofBits a.bits + Float32.ofBits b.bits).toBits⟩
  subWrapping a b := ⟨(Float32.ofBits a.bits - Float32.ofBits b.bits).toBits⟩
  mulChecked a b := some ⟨(Float32.ofBits a.bits * Float32.ofBits b.bits).toBits⟩
  toCell := .e
  ofCell
    | .e x => x
    | _ => ⟨0⟩
  ofCell_toCell _ := rfl

instance : ArrowNativeTypeOp F64 where
  ZERO := ⟨0⟩
  ONE := ⟨0x3ff0000000000000⟩
  isEq a b := a.bits == b.bits
  isLt a b := orderF64 a < orderF64 b
  addWrapping a b := ⟨(Float.ofBits a.bits + Float.ofBits b.bits).toBits⟩
  subWrapping a b := ⟨(Float.ofBits a.bits - Float.ofBits b.bits).toBits⟩
  mulChecked a b := some ⟨(Float.ofBits a.bits * Float.ofBits b.bits).toBits⟩
  toCell := .f
  ofCell
    | .f x => x
    | _ => ⟨0⟩
  ofCell_toCell _ := rfl

end parquet_interop.native
