-- Arrow arrays to L columns: the arrays that a batch brings, and the stores
-- that each fill makes of one array at a row of the column.
import ParquetInterop.Footer
import ParquetInterop.Native
import ParquetInterop.SymCache
import ParquetInterop.Lib.Bits
import ParquetInterop.Lib.Stores

open parquet_interop.ffi parquet_interop.footer parquet_interop.native
open lib.bits lib.stores ArrowNativeTypeOp

namespace parquet_interop.read

/-! ## Arrow arrays -/

/-- An array of native values. `nulls` is the validity bitmap, one bit for each value. -/
structure Prim (T : Type) where
  values : List T
  nulls : Option (List Bool)
  len_eq : ∀ nb, nulls = some nb → nb.length = values.length

/-- A string array, as `utf8_of` casts it. -/
structure StrArr where
  len : Nat
  utf8 : Except String (List (Option String))
  len_eq : ∀ l, utf8 = .ok l → l.length = len

inductive ArrData where
  | bool (a : Prim Bool)
  | i8 (a : Prim Int8)
  | u8 (a : Prim UInt8)
  | i16 (a : Prim Int16)
  | i32 (a : Prim Int32)
  | i64 (a : Prim Int64)
  | f32 (a : Prim F32)
  | f64 (a : Prim F64)
  | dict (keys : Prim Int) (values : ArrayId)
  | str (a : StrArr)
  | other (len : Nat)

structure Arr where
  data_type : DataType
  data : ArrData

def ArrData.len : ArrData → Nat
  | .bool a => a.values.length
  | .i8 a => a.values.length
  | .u8 a => a.values.length
  | .i16 a => a.values.length
  | .i32 a => a.values.length
  | .i64 a => a.values.length
  | .f32 a => a.values.length
  | .f64 a => a.values.length
  | .dict keys _ => keys.values.length
  | .str a => a.len
  | .other len => len

def Arr.len (a : Arr) : Nat := a.data.len

/-- A record batch: its columns are all as long as the batch. -/
structure Batch where
  columns : List Arr
  num_rows : Nat
  len_eq : ∀ a ∈ columns, a.len = num_rows

/-- What the arrow crate brings in: the dictionary arrays and the `cast` kernel, which keeps the
length. -/
structure Crate where
  heap : Heap
  cast : Arr → DataType → Except String Arr
  cast_len : ∀ a dt b, cast a dt = .ok b → b.len = a.len

/-! ## Downcasts -/

/-- The native types that an array can hold. -/
class Held (T : Type) where
  get : ArrData → Option (Prim T)
  get_len : ∀ d a, get d = some a → a.values.length = d.len

instance : Held Bool where
  get
    | .bool a => some a
    | _ => none
  get_len d a h := by cases d <;> cases h; rfl

instance : Held Int8 where
  get
    | .i8 a => some a
    | _ => none
  get_len d a h := by cases d <;> cases h; rfl

instance : Held UInt8 where
  get
    | .u8 a => some a
    | _ => none
  get_len d a h := by cases d <;> cases h; rfl

instance : Held Int16 where
  get
    | .i16 a => some a
    | _ => none
  get_len d a h := by cases d <;> cases h; rfl

instance : Held Int32 where
  get
    | .i32 a => some a
    | _ => none
  get_len d a h := by cases d <;> cases h; rfl

instance : Held Int64 where
  get
    | .i64 a => some a
    | _ => none
  get_len d a h := by cases d <;> cases h; rfl

instance : Held F32 where
  get
    | .f32 a => some a
    | _ => none
  get_len d a h := by cases d <;> cases h; rfl

instance : Held F64 where
  get
    | .f64 a => some a
    | _ => none
  get_len d a h := by cases d <;> cases h; rfl

/-- `downcast_ref`: the array, when its type is the one asked for. -/
def downcast {T : Type} [Held T] (is : DataType → Bool) (a : Arr) : Option (Prim T) :=
  if is a.data_type then Held.get a.data else none

theorem downcast_len {T : Type} [Held T] {is : DataType → Bool} {a : Arr} {b : Prim T}
    (h : downcast is a = some b) : b.values.length = a.len := by
  unfold downcast at h
  split at h
  · exact Held.get_len _ _ h
  · cases h

def asBoolean : Arr → Option (Prim Bool) := downcast (· = .boolean)

def asInt8 : Arr → Option (Prim Int8) := downcast (· = .int8)

def asUInt8 : Arr → Option (Prim UInt8) := downcast (· = .uint8)

def asInt16 : Arr → Option (Prim Int16) := downcast (· = .int16)

def asInt32 : Arr → Option (Prim Int32) := downcast (· = .int32)

def asInt64 : Arr → Option (Prim Int64) := downcast (· = .int64)

def asFloat32 : Arr → Option (Prim F32) := downcast (· = .float32)

def asFloat64 : Arr → Option (Prim F64) := downcast (· = .float64)

def asDate32 : Arr → Option (Prim Int32) := downcast (· = .date32)

def asTime32Millisecond : Arr → Option (Prim Int32) := downcast (· = .time32 .millisecond)

def DataType.isTimestampNs : DataType → Bool
  | .timestamp .nanosecond _ => true
  | _ => false

def asTimestampNanosecond : Arr → Option (Prim Int64) := downcast DataType.isTimestampNs

def asDurationNanosecond : Arr → Option (Prim Int64) := downcast (· = .duration .nanosecond)

/-- The key types that a dictionary array may have. -/
def isKeyType (k : DataType) : Bool :=
  k = .int8 ∨ k = .int16 ∨ k = .int32 ∨ k = .int64 ∨ k = .uint8 ∨ k = .uint16 ∨ k = .uint32 ∨
    k = .uint64

def asDictionary : Arr → Option (Prim Int × ArrayId)
  | ⟨.dictionary k _, .dict keys values⟩ => if isKeyType k then some (keys, values) else none
  | _ => none

/-! ## The fills -/

/-- An element of a column. The column is named by its handle. -/
abbrev Store : Type := Op Nat Cell

/-- Visit the null rows: the zero bits of the bitmap, a word at a time. -/
def eachNull (nb : List Bool) : List Nat :=
  let q := nb.length / 64
  let rl := nb.length % 64
  ((List.range q).flatMap fun k => (visit (~~~wordOf (chunk nb k))).map (64 * k + ·)) ++
    if 0 < rl then
      (visit (~~~wordOf (nb.drop (64 * q)) &&& ((1 : BitVec 64) <<< rl - 1))).map (64 * q + ·)
    else []

/-- The stores of the nulls of an array. -/
def fillNulls (nulls : Option (List Bool)) (col off : Nat) (nullv : Cell) : List Store :=
  match nulls with
  | some nb => blank col off nullv (eachNull nb)
  | none => []

/-- The epoch shift of one value: below the floor the subtraction would wrap. -/
def shiftOr {T : Type} [ArrowNativeTypeOp T] (nullv sh v : T) : T :=
  let lo := addWrapping nullv sh
  let w := subWrapping v sh
  if isLt v lo then nullv else w

/-- Copy the values, shift them in place when there is a shift, and patch the nulls. -/
def fillPrim {T : Type} [ArrowNativeTypeOp T] (a : Option (Prim T)) (col off : Nat)
    (nullv sh : T) : Except String (List Store) :=
  match a with
  | none => .error "pq_read: unexpected array layout"
  | some a =>
    .ok (fill col off (a.values.map toCell) ++
      (if isZero sh then []
       else each col off a.values.length fun c => toCell (shiftOr nullv sh (ofCell c))) ++
      fillNulls a.nulls col off (toCell nullv))

/-- Arrow packs bools one bit a value, and L stores one byte a value. -/
def fillBool (a : Option (Prim Bool)) (col off : Nat) : Except String (List Store) :=
  match a with
  | none => .error "pq_read: bool layout"
  | some a =>
    .ok (fill col off (a.values.map fun b => .g (if b then 1 else 0)) ++
      fillNulls a.nulls col off (.g 0))

/-- `k.as_usize()`: a negative key is a huge index. -/
def asUsizeKey (k : Int) : Nat := (k % 2 ^ 64).toNat

/-- Gather the interned symbols of a dictionary through the keys. -/
def fillSymDict (heap : Heap) (keys : Prim Int) (values : ArrayId) (col off : Nat)
    (sy : SymCache) : Except String (List Store) × SymCache :=
  let (empty, sy) := sy.get []
  let (tbl, sy) := sy.dictTable heap values empty
  match tbl with
  | .error e => (.error e, sy)
  | .ok tbl =>
    (.ok (fill col off (keys.values.map fun k => .s ((tbl[asUsizeKey k]?).getD empty)) ++
      fillNulls keys.nulls col off (.s empty)), sy)

/-- Plain strings, one probe of the cache for each row. -/
def fillSymPlain (a : StrArr) (col off : Nat) (sy : SymCache) :
    Except String (List Store) × SymCache :=
  match a.utf8 with
  | .error e => (.error e, sy)
  | .ok l =>
    let (empty, sy) := sy.get []
    let (t, sy) := sy.getAll empty l
    (.ok (fill col off (t.map .s)), sy)

/-- The array itself when it has the type, and one cast otherwise. -/
def toType (cr : Crate) (a : Arr) (dt : DataType) (who : String) : Except String Arr :=
  if a.data_type = dt then .ok a
  else
    match cr.cast a dt with
    | .ok b => .ok b
    | .error e => .error s!"{who}: {e}"

/-- Normalize the unit to nanoseconds, then fill. -/
def fillNs (cr : Crate) (a : Arr) (dt : DataType) (who : String)
    (as : Arr → Option (Prim Int64)) (col off : Nat) (sh : Int64) : Except String (List Store) :=
  match toType cr a dt who with
  | .ok ns => fillPrim (as ns) col off NJ sh
  | .error e => .error e

/-- One Arrow column at row `off` of the L column `col`. -/
def fillCol (cr : Crate) (lt : LType) (col off : Nat) (arr : Arr) (sy : SymCache) :
    Except String (List Store) × SymCache :=
  match lt with
  | .KB => (fillBool (asBoolean arr) col off, sy)
  | .KG =>
    -- A signed byte keeps its bits.
    if arr.data_type = .int8 then (fillPrim (asInt8 arr) col off 0 0, sy)
    else (fillPrim (asUInt8 arr) col off 0 0, sy)
  | .KH => (fillPrim (asInt16 arr) col off NH 0, sy)
  | .KI => (fillPrim (asInt32 arr) col off NI 0, sy)
  | .KJ => (fillPrim (asInt64 arr) col off NJ 0, sy)
  | .KE => (fillPrim (asFloat32 arr) col off F32.NAN ⟨0⟩, sy)
  | .KF => (fillPrim (asFloat64 arr) col off F64.NAN ⟨0⟩, sy)
  | .KP =>
    (fillNs cr arr (.timestamp .nanosecond none) "pq_read: timestamp" asTimestampNanosecond col off
      NS2000, sy)
  | .KD => (fillPrim (asDate32 arr) col off NI DAY2000, sy)
  | .KT => (fillPrim (asTime32Millisecond arr) col off NI 0, sy)
  | .KN =>
    (fillNs cr arr (.duration .nanosecond) "pq_read: duration" asDurationNanosecond col off 0, sy)
  | .KS =>
    match arr.data_type with
    | .dictionary _ _ =>
      match asDictionary arr with
      | some (keys, values) => fillSymDict cr.heap keys values col off sy
      | none => (.error "pq_read: dict layout", sy)
    | _ =>
      match arr.data with
      | .str a => fillSymPlain a col off sy
      | _ => (.error "pq_read: string layout", sy)
  | _ => (.error "pq_read: internal type dispatch", sy)

/-! ## The null visits -/

theorem eachNull_eq (nb : List Bool) :
    eachNull nb = (List.range nb.length).filter fun i => nb[i]? = some false := by
  have hlen : nb.length = 64 * (nb.length / 64) + nb.length % 64 := (Nat.div_add_mod _ 64).symm
  have hrl : nb.length % 64 < 64 := Nat.mod_lt _ (by decide)
  have hdrop : (nb.drop (64 * (nb.length / 64))).length = nb.length % 64 := by
    rw [List.length_drop]
    omega
  have hfull : ∀ k < nb.length / 64, (visit (~~~wordOf (chunk nb k))).map (64 * k + ·) =
      ((List.range 64).map (64 * k + ·)).filter fun i => nb[i]? = some false := by
    intro k hk
    have hc : (chunk nb k).length = 64 := by
      unfold chunk
      rw [List.length_take, List.length_drop]
      omega
    rw [visit_not_wordOf _ hc, List.filter_map]
    congr 1
    apply List.filter_congr
    intro i hi
    rw [getElem?_chunk nb k (List.mem_range.mp hi)]
    rfl
  have hrest : (if 0 < nb.length % 64 then
      (visit (~~~wordOf (nb.drop (64 * (nb.length / 64))) &&&
        ((1 : BitVec 64) <<< (nb.length % 64) - 1))).map (64 * (nb.length / 64) + ·) else []) =
      ((List.range (nb.length % 64)).map (64 * (nb.length / 64) + ·)).filter
        fun i => nb[i]? = some false := by
    split
    · rw [← hdrop, visit_not_wordOf_mask _ (by omega), List.filter_map]
      congr 1
      apply List.filter_congr
      intro i _
      rw [List.getElem?_drop]
      rfl
    · rename_i h0
      rw [show nb.length % 64 = 0 by omega]
      rfl
  unfold eachNull
  dsimp only
  rw [hrest]
  conv_rhs => rw [hlen, range_chunks, List.filter_append, List.filter_flatMap]
  congr 1
  apply List.flatMap_congr
  intro k hk
  exact hfull k (List.mem_range.mp hk)

theorem mem_eachNull {nb : List Bool} {i : Nat} : i ∈ eachNull nb ↔ nb[i]? = some false := by
  rw [eachNull_eq, List.mem_filter, List.mem_range, decide_eq_true_eq]
  constructor
  · exact fun h => h.2
  · exact fun h => ⟨(List.getElem?_eq_some_iff.mp h).1, h⟩

end parquet_interop.read
