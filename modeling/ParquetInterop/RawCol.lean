-- The zero-copy path: the page decoder packs the values of a batch at the
-- front of the column's own rows, and `patch` spreads them backwards in place.
import ParquetInterop.Delivered

open parquet_interop.ffi parquet_interop.footer parquet_interop.native
open lib.stores ArrowNativeTypeOp

namespace parquet_interop.read

/-! ## Which columns -/

/-- The machine type of a zero-copy column. `I64` carries the nanoseconds of one unit. -/
inductive Raw where
  | I32
  | I64 (m : Int64)
  | F32
  | F64
  deriving DecidableEq

/-- The column can be decoded straight into the L vector. -/
def rawOf (dt : DataType) (pt : PhysType) : Option Raw :=
  match dt, pt with
  | .int32, .INT32 | .date32, .INT32 | .time32 .millisecond, .INT32 => some .I32
  | .int64, .INT64 => some (.I64 1)
  | .timestamp u _, .INT64 | .duration u, .INT64 => some (.I64 (nsPer u))
  | .float32, .FLOAT => some .F32
  | .float64, .DOUBLE => some .F64
  | _, _ => none

/-! ## The reader of a column chunk -/

def BATCH_ROWS : Nat := 2 ^ 16

/-- What `read_records` reports: the records, the packed values and the definition levels. -/
structure Recs where
  recs : Nat
  vals : Nat
  defs : List Int16

/-- What one call of `read_records` leaves: the values in the vector, whether the vector was
moved, and the report. -/
structure Resp (T : Type) where
  buf : List T
  moved : Bool
  out : Except String Recs

/-- A typed reader, after `done` records and asked for `want`. It reports no more records than
it was asked for. -/
structure RecordReader (T : Type) where
  respond : Nat → Nat → Resp T
  recs_le : ∀ done want r, (respond done want).out = .ok r → r.recs ≤ want

/-- The reader of a leaf, by its physical type. -/
inductive ColumnReader where
  | i32 (rd : RecordReader Int32)
  | i64 (rd : RecordReader Int64)
  | f32 (rd : RecordReader F32)
  | f64 (rd : RecordReader F64)
  | other

/-! ## The in-place pass -/

/-- `d.add(vp)`: an offset from `2^63` on is a step back. -/
def ptrAdd (p vp : Nat) : Nat := if vp < 2 ^ 63 then p + vp else p - (2 ^ 64 - vp)

/-- `vp -= 1` in `usize`. -/
def decUsize (vp : Nat) : Nat := (vp + (2 ^ 64 - 1)) % 2 ^ 64

section
variable {T : Type} [ArrowNativeTypeOp T]

/-- Scale, floor and shift one value. -/
def patchShift (nullv sh mul w : T) : T :=
  let lo := addWrapping nullv sh
  match if isEq mul (ONE : T) then some w else mulChecked w mul with
  | none => nullv
  | some w => if isZero sh then w else if isLt w lo then nullv else subWrapping w sh

/-- The backward loop over the rows below `i`, with `vp` packed values left. -/
def spread (col p : Nat) (nullv : Cell) (f : Cell → Cell) (dl : List Int16) (maxdef : Int16) :
    Nat → Nat → List Store
  | 0, _ => []
  | i + 1, vp =>
    if dl[i]? = some maxdef then
      .move ⟨col, p + i⟩ ⟨col, ptrAdd p (decUsize vp)⟩ f ::
        spread col p nullv f dl maxdef i (decUsize vp)
    else .put ⟨col, p + i⟩ nullv :: spread col p nullv f dl maxdef i vp

/-- `patch` in the source, on the `n` rows from `p` on. -/
def patch (col p n vals : Nat) (nullv sh mul : T) (defs : Option (List Int16)) (maxdef : Int16) :
    List Store :=
  let f := fun c => toCell (patchShift nullv sh mul (ofCell c : T))
  let inPlace := if ¬isZero sh ∨ ¬isEq mul (ONE : T) then each col p n f else []
  match defs with
  | some dl =>
    if vals < n ∧ n ≤ dl.length then spread col p (toCell nullv) f dl maxdef n vals else inPlace
  | none => inPlace

/-- The batch loop of `raw_col` at one machine type. -/
def rawLoop (rd : RecordReader T) (maxdef : Int16) (nullv sh mul : T) (col off rows : Nat)
    (who : String) (done : Nat) : List Store × Except String Nat :=
  let want := min BATCH_ROWS (rows - done)
  if want = 0 then ([], .ok done)
  else
    let p := off + done
    let b := rd.respond done want
    let stored : List Store := fill col p ((b.buf.take want).map toCell)
    match _h : b.out with
    | .error e => (stored, .error s!"{who}: {e}")
    | .ok r =>
      if b.moved ∨ want < b.buf.length then (stored, .error s!"{who}: values buffer moved")
      else if 0 < maxdef ∧ r.vals < r.recs ∧ r.defs.length < r.recs then
        (stored, .error s!"{who}: definition levels short")
      else
        let patched := patch col p r.recs r.vals nullv sh mul
          (if 0 < maxdef then some r.defs else none) maxdef
        if r.recs = 0 then (stored ++ patched, .ok done)
        else
          let (rest, n) := rawLoop rd maxdef nullv sh mul col off rows who (done + r.recs)
          (stored ++ patched ++ rest, n)
termination_by rows - done
decreasing_by
  have := rd.recs_le done want r (by assumption)
  omega

end

/-- `raw_col` in the source, from the column reader on. -/
def rawCol (cr : Except String ColumnReader) (maxdef : Int16) (rt : Raw) (lt : LType)
    (col off rows : Nat) (who : String) : List Store × Except String Nat :=
  match cr with
  | .error e => ([], .error s!"{who}: {e}")
  | .ok cr =>
    match rt, cr with
    | .I32, .i32 rd =>
      rawLoop rd maxdef NI (if lt = .KD then DAY2000 else 0) 1 col off rows who 0
    | .I64 m, .i64 rd =>
      rawLoop rd maxdef NJ (if lt = .KP then NS2000 else 0) m col off rows who 0
    | .F32, .f32 rd => rawLoop rd maxdef F32.NAN ⟨0⟩ ⟨0x3f800000⟩ col off rows who 0
    | .F64, .f64 rd => rawLoop rd maxdef F64.NAN ⟨0⟩ ⟨0x3ff0000000000000⟩ col off rows who 0
    | _, _ => ([], .error s!"{who}: column reader type")

/-! ## The stores stay in the rows -/

theorem spread_dst {col p : Nat} {nullv : Cell} {f : Cell → Cell} {dl : List Int16}
    {maxdef : Int16} {n vp : Nat} :
    ∀ o ∈ spread col p nullv f dl maxdef n vp, Rows col p n o.dst := by
  induction n generalizing vp with
  | zero =>
    intro o ho
    cases ho
  | succ i ih =>
    have hin : Rows col p (i + 1) ⟨col, p + i⟩ := ⟨rfl, Nat.le_add_right _ _, by simp only; omega⟩
    have hrest : ∀ vp, ∀ o ∈ spread col p nullv f dl maxdef i vp, Rows col p (i + 1) o.dst := by
      intro vp o ho
      obtain ⟨h1, h2, h3⟩ := ih o ho
      exact ⟨h1, h2, by omega⟩
    intro o ho
    unfold spread at ho
    split at ho
    · rcases List.mem_cons.mp ho with rfl | ho
      · exact hin
      · exact hrest _ o ho
    · rcases List.mem_cons.mp ho with rfl | ho
      · exact hin
      · exact hrest _ o ho

section
variable {T : Type} [ArrowNativeTypeOp T]

theorem patch_dst {col p n vals : Nat} {nullv sh mul : T} {defs : Option (List Int16)}
    {maxdef : Int16} : ∀ o ∈ patch col p n vals nullv sh mul defs maxdef, Rows col p n o.dst := by
  have hplace : ∀ o ∈ (if ¬isZero sh ∨ ¬isEq mul (ONE : T) then
      each col p n fun c => toCell (patchShift nullv sh mul (ofCell c : T)) else []),
      Rows col p n o.dst := by
    intro o ho
    split at ho
    · exact (each_within o ho).1
    · cases ho
  intro o ho
  unfold patch at ho
  dsimp only at ho
  split at ho
  · split at ho
    · exact spread_dst o ho
    · exact hplace o ho
  · exact hplace o ho

/-- Whatever the reader does, the loop stores below `off + rows` only. -/
theorem rawLoop_dst {rd : RecordReader T} {maxdef : Int16} {nullv sh mul : T}
    {col off rows : Nat} {who : String} (done : Nat) :
    ∀ o ∈ (rawLoop rd maxdef nullv sh mul col off rows who done).1,
      Rows col (off + done) (rows - done) o.dst := by
  have hgrow : ∀ {n : Nat} {a : Addr Nat}, n ≤ rows - done → Rows col (off + done) n a →
      Rows col (off + done) (rows - done) a := by
    rintro n a hn ⟨h1, h2, h3⟩
    exact ⟨h1, h2, by omega⟩
  have hwant : min BATCH_ROWS (rows - done) ≤ rows - done := Nat.min_le_right _ _
  have hstored : ∀ o ∈ fill col (off + done)
      (((rd.respond done (min BATCH_ROWS (rows - done))).buf.take
        (min BATCH_ROWS (rows - done))).map toCell),
      Rows col (off + done) (rows - done) o.dst := by
    intro o ho
    refine hgrow ?_ (fill_within o ho).1
    rw [List.length_map, List.length_take]
    omega
  intro o ho
  unfold rawLoop at ho
  dsimp only at ho
  split at ho
  · cases ho
  · split at ho
    · exact hstored o ho
    · rename_i r hr
      have hrecs := rd.recs_le _ _ r hr
      split at ho
      · exact hstored o ho
      · split at ho
        · exact hstored o ho
        · split at ho
          · rcases List.mem_append.mp ho with ho | ho
            · exact hstored o ho
            · exact hgrow (by omega) (patch_dst o ho)
          · rcases List.mem_append.mp ho with ho | ho
            · rcases List.mem_append.mp ho with ho | ho
              · exact hstored o ho
              · exact hgrow (by omega) (patch_dst o ho)
            · obtain ⟨h1, h2, h3⟩ := rawLoop_dst (done + r.recs) o ho
              exact ⟨h1, by omega, by omega⟩
termination_by rows - done

end

/-- Whatever the file holds, `raw_col` stores in the rows of its task only. -/
theorem rawCol_dst {cr : Except String ColumnReader} {maxdef : Int16} {rt : Raw} {lt : LType}
    {col off rows : Nat} {who : String} :
    ∀ o ∈ (rawCol cr maxdef rt lt col off rows who).1, Rows col off rows o.dst := by
  intro o ho
  unfold rawCol at ho
  split at ho
  · cases ho
  · split at ho <;> first | exact rawLoop_dst 0 o ho | cases ho

end parquet_interop.read
