-- The decode of one part of one row group, and the workers that claim the
-- tasks of a read from one cursor.
import ParquetInterop.Lib.Jobs
import ParquetInterop.Select

open parquet_interop.ffi parquet_interop.footer
open lib.stores

namespace parquet_interop.read

/-! ## One task -/

/-- One unit of decode work: the columns of part `p` of row group `g` of file `f`, whose rows
land at row `off` of every column of the part. -/
structure Task where
  f : Nat
  g : Nat
  off : Nat
  rows : Nat
  p : Nat
  deriving DecidableEq

/-- What a step of a task answers besides its acts: an error ends the task. -/
abbrev Acts (T : Type) : Type := List Act × Except String T

section
variable (W : World) (sel : Sel) (cols : Nat → Nat) (who : String)

def delivered (src : Src) (t : Task) (n : Nat) : String :=
  s!"{who}: {src.path}: row group {t.g} delivered {n} rows, footer says {t.rows}"

/-- One zero-copy column of a task. -/
def rawColumn (src : Src) (t : Task) (p : Nat) : Acts Unit :=
  match src.leafOf (sel.col p), sel.rawAt p with
  | none, _ => ([], .error s!"{who}: {src.path}: column leaf")
  | some _, none => ([], .error "raw part")
  | some leaf, some rt =>
    let maxdef := ((src.md.leaves[leaf]?).map (·.max_def_level)).getD 0
    let (os, n) := rawCol (W.columnReader src t.g leaf) maxdef rt (sel.lt p) (cols p) t.off t.rows who
    match n with
    | .error e => (os.map .store, .error e)
    | .ok n => (os.map .store, if n = t.rows then .ok () else .error (delivered who src t n))

/-- The zero-copy columns of a task, one after the other. -/
def rawColumns (src : Src) (t : Task) : List Nat → Acts Unit
  | [] => ([], .ok ())
  | p :: ps =>
    match rawColumn W sel cols who src t p with
    | (acts, .error e) => (acts, .error e)
    | (acts, .ok ()) =>
      let (more, r) := rawColumns src t ps
      (acts ++ more, r)

/-- One Arrow column of a batch: by codes when the column is read as a pair. -/
def arrowColumn (cds : Nat → Option Codes) (p : Nat) (arr : Arr) (off : Nat) (sy : SymCache) :
    Acts Unit × SymCache :=
  match cds p with
  | some cd =>
    match symCodes W.crate.heap arr cd p (cols p) off sy with
    | (.error e, sy) => (([], .error e), sy)
    | (.ok acts, sy) => ((acts, .ok ()), sy)
  | none =>
    match fillCol W.crate (sel.lt p) (cols p) off arr sy with
    | (.error e, sy) => (([], .error e), sy)
    | (.ok os, sy) => ((os.map .store, .ok ()), sy)

/-- The columns of one batch: each position with its place in the batch. -/
def batchColumns (cds : Nat → Option Codes) (b : Batch) (off : Nat) :
    List (Nat × Nat) → SymCache → Acts Unit × SymCache
  | [], sy => (([], .ok ()), sy)
  | (p, i) :: ps, sy =>
    match b.columns[i]? with
    | none => (([], .error "index out of bounds"), sy)
    | some arr =>
      match arrowColumn W sel cols cds p arr off sy with
      | ((acts, .error e), sy) => ((acts, .error e), sy)
      | ((acts, .ok ()), sy) =>
        let ((more, r), sy) := batchColumns cds b off ps sy
        ((acts ++ more, r), sy)

/-- The batches of a task, each behind the rows of the ones before it. It answers the row that
they end at. -/
def arrowLoop (cds : Nat → Option Codes) (places : List (Nat × Nat)) :
    List (Except String Batch) → Nat → SymCache → Acts Nat × SymCache
  | [], off, sy => (([], .ok off), sy)
  | .error e :: _, _, sy => (([], .error s!"{who}: {e}"), sy)
  | .ok b :: bs, off, sy =>
    match batchColumns W sel cols cds b off places sy with
    | ((acts, .error e), sy) => ((acts, .error e), sy)
    | ((acts, .ok ()), sy) =>
      let ((more, r), sy) := arrowLoop cds places bs (off + b.num_rows) sy
      ((acts ++ more, r), sy)

/-- The Arrow columns of a task. The rows are counted when all the batches are stored. -/
def arrowPass (cds : Nat → Option Codes) (part : Part) (src : Src) (t : Task) (sy : SymCache) :
    Acts Unit × SymCache :=
  match part.masks[t.f]? with
  | none => (([], .error "index out of bounds"), sy)
  | some mask =>
    match W.batches src mask t.g with
    | .error e => (([], .error s!"{who}: {e}"), sy)
    | .ok bs =>
      match arrowLoop W sel cols who cds (part.outs.zip part.bat) bs t.off sy with
      | ((acts, .error e), sy) => ((acts, .error e), sy)
      | ((acts, .ok off), sy) =>
        ((acts, if off - t.off = t.rows then .ok () else .error (delivered who src t (off - t.off))),
          sy)

/-- Decode one part of one row group into its row range of the shared columns. -/
def one (set : FileSet) (part : Part) (cds : Nat → Option Codes) (t : Task) (sy : SymCache) :
    Acts Unit × SymCache :=
  match set.srcs[t.f]? with
  | none => (([], .error "index out of bounds"), sy)
  | some src =>
    match W.fopen src with
    | .error e => (([], .error s!"{who}: {src.path}: {e}"), sy)
    | .ok () =>
      if part.raw = [] then arrowPass W sel cols who cds part src t sy
      else
        match W.tryClone src with
        | .error e => (([], .error s!"{who}: {src.path}: {e}"), sy)
        | .ok () =>
          match rawColumns W sel cols who src t part.raw with
          | (acts, .error e) => ((acts, .error e), sy)
          | (acts, .ok ()) =>
            if part.outs = [] then ((acts, .ok ()), sy)
            else
              let ((more, r), sy) := arrowPass W sel cols who cds part src t sy
              ((acts ++ more, r), sy)

end

end parquet_interop.read
