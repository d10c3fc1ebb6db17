-- A read from the window to the table: the layout, the plan of the pairs, the
-- decode under any schedule, the second read of what was given up.
import ParquetInterop.Decode

open parquet_interop.ffi parquet_interop.footer
open lib.jobs lib.stores

namespace parquet_interop.read

/-! ## The decode pool -/

/-- What the decode workers share: the vectors, and the flag of each column that is given up as
a pair. -/
structure Shared where
  mem : Mem Nat Cell
  gives : Nat → Bool

def Act.exec (m : Shared) : Act → Shared
  | .store o => { m with mem := o.exec m.mem }
  | .give p => { m with gives := fun q => q = p || m.gives q }

/-- The job of task `i`, for a worker with the cache `sy`. -/
def decodeJobs (W : World) (set : FileSet) (sel : Sel) (parts : List Part) (cols : Nat → Nat)
    (tasks : List Task) (cds : Nat → Option Codes) (who : String) :
    Jobs Shared Act SymCache String where
  n := tasks.length
  exec := Act.exec
  job i sy :=
    match tasks[i]?, (tasks[i]?).bind fun t => parts[t.p]? with
    | some t, some part =>
      let ((acts, r), sy) := one W sel cols who set part cds t sy
      (acts, r, sy)
    | _, _ => ([], .error "index out of bounds", sy)

/-- `decode`: a schedule of `k` workers takes the shared state from `m` to another one, and
answers the first error. Each worker starts with an empty cache. -/
inductive Decodes (W : World) (set : FileSet) (sel : Sel) (parts : List Part) (cols : Nat → Nat)
    (tasks : List Task) (cds : Nat → Option Codes) (who : String) (k : Nat) (m : Shared) :
    Shared → Except String Unit → Prop
  | idle : tasks = [] → Decodes W set sel parts cols tasks cds who k m m (.ok ())
  | failed {s : St Shared Act SymCache String} {e : String} : tasks ≠ [] →
      Finishes (decodeJobs W set sel parts cols tasks cds who) k SymCache.new m s →
      s.err = some e → Decodes W set sel parts cols tasks cds who k m s.mem (.error e)
  | done {s : St Shared Act SymCache String} : tasks ≠ [] →
      Finishes (decodeJobs W set sel parts cols tasks cds who) k SymCache.new m s →
      s.err = none → Decodes W set sel parts cols tasks cds who k m s.mem (.ok ())

/-! ## The plan of a read -/

/-- The tasks of a window: every part of every row group. -/
def tasksOf (rgs : List Rg) (n : Nat) : List Task :=
  rgs.flatMap fun r => (List.range n).map fun p => ⟨r.f, r.g, r.off, r.rows, p⟩

/-- The plan of each symbol column. -/
def codesPlans (W : World) (set : FileSet) (sel : Sel) (rgs : List Rg) (who : String) :
    List Nat → Except String (List (Option Codes))
  | [] => .ok []
  | p :: ps =>
    if sel.lt p = .KS then
      match codesPlan W set.srcs rgs (sel.col p) who with
      | .error e => .error e
      | .ok cd => (codesPlans W set sel rgs who ps).map (cd :: ·)
    else (codesPlans W set sel rgs who ps).map (none :: ·)

structure Plan where
  rgs : List Rg
  total : Nat
  parts : List Part
  cds : List (Option Codes)

/-- All of a read that is known before a vector is allocated. -/
def planOf (W : World) (nthreads : Nat) (set : FileSet) (sel : Sel) (g0 g1 : Nat) (codes : Bool)
    (who : String) : Except String Plan :=
  match window set.srcs g0 g1 who with
  | .error e => .error e
  | .ok (rgs, total) =>
    let parts := split set sel (splitWays nthreads rgs.length sel)
    let positions := List.range sel.out.length
    if codes then
      (codesPlans W set sel rgs who positions).map fun cds => ⟨rgs, total, parts, cds⟩
    else .ok ⟨rgs, total, parts, positions.map fun _ => none⟩

/-! ## The second read -/

/-- The columns while they are finished: the vectors, the pairs, and the handle of each column. -/
structure Cols where
  mem : Mem Nat Cell
  cds : Nat → Option Codes
  colv : Nat → Nat

/-- The selection of one symbol column alone. -/
def oneSel (sel : Sel) (p : Nat) : Sel :=
  { out := [sel.col p], lts := [sel.lt p], uniq := [sel.col p], raw := [none] }

/-- A pair that was given up is read again as plain symbols, into a vector of its own. -/
inductive Rereads (W : World) (set : FileSet) (sel : Sel) (rgs : List Rg) (gives : Nat → Bool)
    (who : String) (k : Nat) : List Nat → Cols → Except String Cols → Prop
  | nil {c} : Rereads W set sel rgs gives who k [] c (.ok c)
  | keep {p ps c r} : ¬((c.cds p).isSome ∧ gives p) → Rereads W set sel rgs gives who k ps c r →
      Rereads W set sel rgs gives who k (p :: ps) c r
  | failed {p ps c m e} : (c.cds p).isSome ∧ gives p →
      Decodes W set (oneSel sel p) (split set (oneSel sel p) 1) (fun _ => sel.out.length + p)
        (tasksOf rgs 1) (fun _ => none) who k ⟨c.mem, fun _ => false⟩ m (.error e) →
      Rereads W set sel rgs gives who k (p :: ps) c (.error e)
  | again {p ps c m r} : (c.cds p).isSome ∧ gives p →
      Decodes W set (oneSel sel p) (split set (oneSel sel p) 1) (fun _ => sel.out.length + p)
        (tasksOf rgs 1) (fun _ => none) who k ⟨c.mem, fun _ => false⟩ m (.ok ()) →
      Rereads W set sel rgs gives who k ps
        ⟨m.mem, fun q => if q = p then none else c.cds q,
          fun q => if q = p then sel.out.length + p else c.colv q⟩ r →
      Rereads W set sel rgs gives who k (p :: ps) c r

/-! ## The answer -/

/-- A column of the answer: a vector, or a dictionary and one code for each row. -/
inductive Column where
  | vec (lt : LType) (xs : List Cell)
  | pair (d : List Sym) (lt : LType) (xs : List Cell)

/-- The answer: a table, or a column dictionary when pairs were asked for. -/
structure Table where
  names : List Sym
  columns : List Column
  flipped : Bool

/-- The first `n` elements of a vector. -/
def cells (m : Mem Nat Cell) (col n : Nat) : List Cell := (List.range n).map fun i => m ⟨col, i⟩

def columnOf (sel : Sel) (total : Nat) (c : Cols) (p : Nat) : Column :=
  match c.cds p with
  | some cd => .pair cd.d cd.lt (cells c.mem (c.colv p) total)
  | none => .vec (sel.lt p) (cells c.mem (c.colv p) total)

def tableOf (set : FileSet) (sel : Sel) (total : Nat) (codes : Bool) (c : Cols) : Table where
  names := (List.range sel.out.length).map fun p => intern (utf8Bytes (set.names.getD (sel.col p) ""))
  columns := (List.range sel.out.length).map (columnOf sel total c)
  flipped := !codes

/-- One vector of L is bounded by `I32_MAX` elements, the dictionary of a pair too. -/
def Cols.Short (sel : Sel) (c : Cols) : Prop :=
  ∀ p < sel.out.length, ∀ cd, c.cds p = some cd → cd.d.length ≤ I32_MAX

/-- `read`: what a read of row groups `[g0, g1)` can answer, on vectors that hold `m` when they
are allocated, with `k` decode workers. The vector of result position `p` is `p`. The host has room
for the dictionaries: the code does not ask, and what a host does that has none is not said here. -/
inductive Reads (W : World) (nthreads k : Nat) (set : FileSet) (sel : Sel) (g0 g1 : Nat)
    (codes : Bool) (who : String) (m : Mem Nat Cell) : Except String Table → Prop
  | refused {e} : planOf W nthreads set sel g0 g1 codes who = .error e →
      Reads W nthreads k set sel g0 g1 codes who m (.error e)
  | failed {plan m' e} : planOf W nthreads set sel g0 g1 codes who = .ok plan →
      Decodes W set sel plan.parts id (tasksOf plan.rgs plan.parts.length)
        (fun p => (plan.cds[p]?).join) who k ⟨m, fun _ => false⟩ m' (.error e) →
      Reads W nthreads k set sel g0 g1 codes who m (.error e)
  | answered {plan m' r} : planOf W nthreads set sel g0 g1 codes who = .ok plan →
      Decodes W set sel plan.parts id (tasksOf plan.rgs plan.parts.length)
        (fun p => (plan.cds[p]?).join) who k ⟨m, fun _ => false⟩ m' (.ok ()) →
      Rereads W set sel plan.rgs m'.gives who k (List.range sel.out.length)
        ⟨m'.mem, fun p => (plan.cds[p]?).join, id⟩ r → (∀ c, r = .ok c → c.Short sel) →
      Reads W nthreads k set sel g0 g1 codes who m (r.map (tableOf set sel plan.total codes))

end parquet_interop.read
