-- `write_table`: the checks of the columns, the encodings that it picks from a
-- sample, and the row groups of arrays that the work queue appends to the file.
import ParquetInterop.WriteCol
import ParquetInterop.QueueSafety

open lib.runs
open parquet_interop.ffi parquet_interop.footer parquet_interop.read

namespace parquet_interop.write

/-! ## Options -/

inductive Compression where
  | UNCOMPRESSED
  | SNAPPY
  | LZ4_RAW
  | ZSTD (level : Int32)
  | GZIP (level : UInt32)

/-- The options as `parse_opts` leaves them. It refuses a row group of no rows. -/
structure Opts where
  comp : Compression
  rg : Nat
  dict : Bool
  stats : Bool
  rg_pos : 0 < rg

def ROW_GROUP : Nat := 2 ^ 20

def Opts.default : Opts := ⟨.UNCOMPRESSED, ROW_GROUP, true, true, by decide⟩

/-! ## Encodings -/

inductive Enc where
  | Plain
  | Delta
  | Dict
  | Rle
  deriving DecidableEq

def SAMPLE : Nat := 8192

def DICT_CARD : Nat := 2 ^ 16

/-- Element `i` as an `i64`, and none for a null. -/
def probe (col : LVec) (i : Nat) : Option Int :=
  match col with
  | .KG xs => (xs[i]?).map fun x => Int.ofNat x.toNat
  | .KH xs => (xs[i]?).bind fun x => if x = NH then none else some x.toInt
  | .KI xs | .KD xs | .KT xs => (xs[i]?).bind fun x => if x = NI then none else some x.toInt
  | .KJ xs | .KP xs | .KN xs => (xs[i]?).bind fun x => if x = NJ then none else some x.toInt
  | _ => none

/-- The encoding of an integral or temporal column, from a sample that is strided. The cardinality
is estimated from the collisions of the sample, unless the sample is the column. -/
def pickInt (col : LVec) (n : Nat) (dict : Bool) : Enc :=
  if n < 2 then .Plain
  else
    let m := min SAMPLE n
    let step := max (n / m) 1
    let v := (List.range m).filterMap fun i => probe col (i * step)
    if v.length < 2 then .Plain
    else
      let asc := (v.zip v.tail).all fun (a, b) => a ≤ b
      let desc := (v.zip v.tail).all fun (a, b) => b ≤ a
      if asc || desc then .Delta
      else
        let s := v.length
        let d := v.eraseDups.length
        let card := if m = n then d else if d = s then 2 ^ 64 - 1 else s * s / (2 * (s - d))
        if card < DICT_CARD then if dict then .Dict else .Delta else .Plain

def pick (col : LVec) (n : Nat) (o : Opts) : Enc :=
  match col with
  | .KB _ => .Rle
  | .KE _ | .KF _ => .Plain
  | .KS _ => if o.dict then .Dict else .Plain
  | _ => pickInt col n o.dict

/-! ## The table -/

/-- An L table. A symbol is a C string: no byte of it is its NUL. -/
structure LTable where
  names : List Sym
  cols : List LVec
  len_eq : cols.length = names.length
  names_end : ∀ p ∈ names, 0 ∉ p.bytes
  cells_end : ∀ v ∈ cols, ∀ p, .s p ∈ v.cells → 0 ∉ p.bytes

/-- The rows of the first column. -/
def LTable.nrows (T : LTable) : Nat := (T.cols.head?.map LVec.len).getD 0

/-- A column that passed the checks: its field as the writer encodes it, as the file advertises it,
and its encoding. -/
structure Checked where
  wf : Field
  mf : Field
  enc : Enc

/-- The loop over the columns, with the names that were seen. -/
def prepare (o : Opts) (nrows : Nat) : List String → List (Sym × LVec) → Except String (List Checked)
  | _, [] => .ok []
  | seen, (name, col) :: rest =>
    match toStr name with
    | none => .error "pq_write: column name utf8"
    | some nm =>
      if nm ∈ seen then .error s!"pq_write: duplicate column {nm}"
      else if col.len ≠ nrows then .error s!"pq_write: column {nm} length {col.len} != {nrows}"
      else
        match arrowType col.lt true with
        | .error e => .error e
        | .ok w =>
          match arrowType col.lt false with
          | .error e => .error e
          | .ok m => (prepare o nrows (nm :: seen) rest).map (⟨⟨nm, w⟩, ⟨nm, m⟩, pick col nrows o⟩ :: ·)

/-! ## The file -/

/-- What the crates are handed: the options, the columns, and the arrays of each row group. -/
structure Written where
  opts : Opts
  columns : List Checked
  groups : List (List Handed)

/-- The array of a chunk. -/
def LTable.encode (T : LTable) (ch : write_queue.Chunk) : Handed :=
  colToArrow ((T.cols[ch.col]?).getD (.KB [])) ch.off ch.len

/-- The row groups of chunks that the queue leaves in the file: none when there is no task, and
else those of any run that comes to the close of the file. -/
inductive Queued (T : LTable) (o : Opts) : List (List write_queue.Chunk) → Prop
  | idle : write_queue.divCeil T.nrows o.rg * T.names.length = 0 → Queued T o []
  | run {p : write_queue.Plan} {s : write_queue.St} : p.nc = T.names.length → p.nrows = T.nrows →
      p.rg = o.rg → Reachable (write_queue.queue p) s → s.m = .closing → Queued T o s.file

/-- `write_table`, when the queue left these chunks. -/
def writeTable (T : LTable) (o : Opts) (file : List (List write_queue.Chunk)) : Except String Written :=
  (prepare o T.nrows [] (T.names.zip T.cols)).map fun columns =>
    { opts := o, columns, groups := file.map fun g => g.map T.encode }

end parquet_interop.write
