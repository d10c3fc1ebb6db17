-- A read of a path beside a write to it. The read resolves the path anew for
-- the footer, for each dictionary page and for each task, and each opening has
-- the file that stands there at that moment.
import ParquetInterop.Replace
import ParquetInterop.Projection

open lib.jobs lib.runs lib.stores
open parquet_interop.ffi parquet_interop.footer parquet_interop.read

namespace parquet_interop.versions

/-! ## The openings of a read -/

/-- A `File::open` of a read: of the footer, of the dictionary page of the `i`th row group for
position `p`, of task `i`, and of task `i` of the second read of position `p`. -/
inductive Opening where
  | footer
  | page (p i : Nat)
  | task (i : Nat)
  | again (p i : Nat)
  deriving DecidableEq

/-- A read goes through its stages in order, and position by position where a stage has them. -/
def Opening.stage : Opening → Nat × Nat
  | .footer => (0, 0)
  | .page p _ => (1, p)
  | .task _ => (2, 0)
  | .again p _ => (3, p)

def Opening.mayFollow (o x : Opening) : Prop :=
  x.stage.1 < o.stage.1 ∨ (x.stage.1 = o.stage.1 ∧ x.stage.2 ≤ o.stage.2)

instance (o x : Opening) : Decidable (o.mayFollow x) := by
  unfold Opening.mayFollow
  infer_instance

/-! ## A read on what its openings found -/

section
variable (set : FileSet) (sel : Sel) (who : String)

/-- Each task works on the file of its own opening. -/
def jobsAt (Ws : Nat → World) (parts : List Part) (cols : Nat → Nat) (tasks : List Task)
    (cds : Nat → Option Codes) : Jobs Shared Act SymCache String where
  n := tasks.length
  exec := Act.exec
  job i := (decodeJobs (Ws i) set sel parts cols tasks cds who).job i

/-- `decode`, where `Ws i` is what task `i` opened. -/
inductive DecodesAt (Ws : Nat → World) (parts : List Part) (cols : Nat → Nat) (tasks : List Task)
    (cds : Nat → Option Codes) (k : Nat) (m : Shared) : Shared → Except String Unit → Prop
  | idle : tasks = [] → DecodesAt Ws parts cols tasks cds k m m (.ok ())
  | failed {s : lib.jobs.St Shared Act SymCache String} {e : String} : tasks ≠ [] →
      Finishes (jobsAt set sel who Ws parts cols tasks cds) k SymCache.new m s → s.err = some e →
      DecodesAt Ws parts cols tasks cds k m s.mem (.error e)
  | done {s : lib.jobs.St Shared Act SymCache String} : tasks ≠ [] →
      Finishes (jobsAt set sel who Ws parts cols tasks cds) k SymCache.new m s → s.err = none →
      DecodesAt Ws parts cols tasks cds k m s.mem (.ok ())

/-- The plan of one symbol column, where `Ws i` is what its `i`th page was read from. -/
def codesPlanAt (Ws : Nat → World) (rgs : List Rg) (c : Nat) : Except String (Option Codes) :=
  if rgs = [] ∨ ¬allDict set.srcs rgs c then .ok none
  else
    let pages := rgs.zipIdx.filterMap fun x =>
      (set.srcs[x.1.f]?).map fun s => (dictPage (Ws x.2) s x.1.g c who, mayHoldNulls s x.1.g c)
    (mergePages ⟨[], [], false, []⟩ pages).map (·.map Union.close)

def codesPlansAt (Ws : Opening → World) (rgs : List Rg) :
    List Nat → Except String (List (Option Codes))
  | [] => .ok []
  | p :: ps =>
    if sel.lt p = .KS then
      match codesPlanAt set who (fun i => Ws (.page p i)) rgs (sel.col p) with
      | .error e => .error e
      | .ok cd => (codesPlansAt Ws rgs ps).map (cd :: ·)
    else (codesPlansAt Ws rgs ps).map (none :: ·)

def planAt (Ws : Opening → World) (nthreads g0 g1 : Nat) (codes : Bool) : Except String Plan :=
  match window set.srcs g0 g1 who with
  | .error e => .error e
  | .ok (rgs, total) =>
    let parts := split set sel (splitWays nthreads rgs.length sel)
    let positions := List.range sel.out.length
    if codes then
      (codesPlansAt set sel who Ws rgs positions).map fun cds => ⟨rgs, total, parts, cds⟩
    else .ok ⟨rgs, total, parts, positions.map fun _ => none⟩

/-- The second read of the pairs that were given up. -/
inductive RereadsAt (Ws : Opening → World) (rgs : List Rg) (gives : Nat → Bool) (k : Nat) :
    List Nat → Cols → Except String Cols → Prop
  | nil {c} : RereadsAt Ws rgs gives k [] c (.ok c)
  | keep {p ps c r} : ¬((c.cds p).isSome ∧ gives p) → RereadsAt Ws rgs gives k ps c r →
      RereadsAt Ws rgs gives k (p :: ps) c r
  | failed {p ps c m e} : (c.cds p).isSome ∧ gives p →
      DecodesAt set (oneSel sel p) who (fun i => Ws (.again p i)) (split set (oneSel sel p) 1)
        (fun _ => sel.out.length + p) (tasksOf rgs 1) (fun _ => none) k ⟨c.mem, fun _ => false⟩ m
        (.error e) →
      RereadsAt Ws rgs gives k (p :: ps) c (.error e)
  | again {p ps c m r} : (c.cds p).isSome ∧ gives p →
      DecodesAt set (oneSel sel p) who (fun i => Ws (.again p i)) (split set (oneSel sel p) 1)
        (fun _ => sel.out.length + p) (tasksOf rgs 1) (fun _ => none) k ⟨c.mem, fun _ => false⟩ m
        (.ok ()) →
      RereadsAt Ws rgs gives k ps
        ⟨m.mem, fun q => if q = p then none else c.cds q,
          fun q => if q = p then sel.out.length + p else c.colv q⟩ r →
      RereadsAt Ws rgs gives k (p :: ps) c r

/-- `read`, where `Ws o` is what the opening `o` found. -/
inductive ReadsAt (Ws : Opening → World) (nthreads k g0 g1 : Nat) (codes : Bool)
    (m : Mem Nat Cell) : Except String Table → Prop
  | refused {e} : planAt set sel who Ws nthreads g0 g1 codes = .error e →
      ReadsAt Ws nthreads k g0 g1 codes m (.error e)
  | failed {plan m' e} : planAt set sel who Ws nthreads g0 g1 codes = .ok plan →
      DecodesAt set sel who (fun i => Ws (.task i)) plan.parts id
        (tasksOf plan.rgs plan.parts.length) (fun p => (plan.cds[p]?).join) k ⟨m, fun _ => false⟩ m'
        (.error e) →
      ReadsAt Ws nthreads k g0 g1 codes m (.error e)
  | answered {plan m' r} : planAt set sel who Ws nthreads g0 g1 codes = .ok plan →
      DecodesAt set sel who (fun i => Ws (.task i)) plan.parts id
        (tasksOf plan.rgs plan.parts.length) (fun p => (plan.cds[p]?).join) k ⟨m, fun _ => false⟩ m'
        (.ok ()) →
      RereadsAt set sel who Ws plan.rgs m'.gives k (List.range sel.out.length)
        ⟨m'.mem, fun p => (plan.cds[p]?).join, id⟩ r → (∀ c, r = .ok c → c.Short sel) →
      ReadsAt Ws nthreads k g0 g1 codes m (r.map (tableOf set sel plan.total codes))

end

/-! ## A read of one path -/

/-- The files by their bytes: what the crates make of one, and what opening it and parsing its
footer answer. -/
structure Host where
  world : List UInt8 → World
  file : List UInt8 → OpenFile

def NO_ENTRY : String := "No such file or directory (os error 2)"

/-- What an opening that found `v` goes on with. -/
def Host.at (H : Host) : Option (List UInt8) → World
  | some b => H.world b
  | none => { H.world [] with fopen := fun _ => .error NO_ENTRY }

def Host.fopen (H : Host) : Option (List UInt8) → Except String OpenFile
  | some b => .ok (H.file b)
  | none => .error NO_ENTRY

/-- The arguments of a `pq_read` of one file, its threads and decode workers, the vectors that the
host allocates, and the footers that are cached. -/
structure Args where
  orig : String
  path : String
  want : Option (List String)
  codes : Bool
  nthreads : Nat
  k : Nat
  mem : Mem Nat Cell
  cache : List Entry

/-- `meta::open` and `select`. -/
def chosen (A : Args) (cache : List Entry) (f : Except String OpenFile) :
    Except String (FileSet × Sel) :=
  match (load cache A.orig A.path f "pq_read").1 with
  | .error e => .error e
  | .ok src =>
    match agree [src] "pq_read" with
    | .error e => .error e
    | .ok set => (select set A.want "pq_read").map fun sel => (set, sel)

/-- What `pq_read` can answer when the opening `o` finds `seen o`. -/
inductive Read (H : Host) (A : Args) (seen : Opening → Option (List UInt8)) :
    Except String Table → Prop
  | refused {e} : chosen A A.cache (H.fopen (seen .footer)) = .error e → Read H A seen (.error e)
  | went {set sel r} : chosen A A.cache (H.fopen (seen .footer)) = .ok (set, sel) →
      ReadsAt set sel "pq_read" (fun o => H.at (seen o)) A.nthreads A.k 0 set.nRg A.codes A.mem r →
      Read H A seen r

/-- A table of the file with the bytes `b`: an answer of a read that parses its footer and has
nothing but this file. -/
def TableOf (H : Host) (A : Args) (b : List UInt8) (t : Table) : Prop :=
  ∃ set sel, chosen A [] (.ok (H.file b)) = .ok (set, sel) ∧
    Reads (H.world b) A.nthreads A.k set sel 0 set.nRg A.codes "pq_read" A.mem (.ok t)

/-! ## The read and the write -/

/-- The directory and the write, what each opening of the read found so far, and whether the read
opens nothing more. -/
structure St where
  disk : replace.St
  log : List (Opening × Option (List UInt8))
  ended : Bool

inductive Ev where
  | write (d : replace.Does)
  | opens (o : Opening)
  | last
  deriving DecidableEq

/-- What an opening found. One that was not made finds nothing. -/
def St.seen (s : St) (o : Opening) : Option (List UInt8) := (s.log.lookup o).join

/-- The path of the read, and the one write to it. -/
def target (A : Args) (w : replace.Call) : replace.Target := ⟨A.path.toList, fun _ => w⟩

def step (A : Args) (w : replace.Call) (s : St) : Ev → Option St
  | .write d => (replace.callStep (target A w) s.disk 0 d).map fun disk => { s with disk }
  | .opens o =>
    if s.ended = false ∧ (s.log = [] ↔ o = .footer) ∧ o ∉ s.log.map (·.1) ∧
        ∀ x ∈ s.log, o.mayFollow x.1 then
      some { s with log := s.log ++ [(o, s.disk.files A.path.toList)] }
    else none
  | .last => if s.log = [] then none else some { s with ended := true }

/-- The files are `f0`, and neither the read nor the write has begun. -/
def Start (f0 : List Char → Option (List UInt8)) (s : St) : Prop :=
  s.disk.files = f0 ∧ s.disk.calls 0 = .idle ∧ s.log = [] ∧ s.ended = false

def beside (A : Args) (w : replace.Call) (f0 : List Char → Option (List UInt8)) : System St Ev where
  init := Start f0
  step := step A w

/-- The read has opened the footer and not yet its last file. -/
def St.reading (s : St) : Prop := s.log ≠ [] ∧ s.ended = false

/-- A footer that the cache has under the identity of a file is the footer of the file. -/
def Fresh (cache : List Entry) (path : String) (f : OpenFile) : Prop :=
  ∀ e c, lookup cache f.key = some (e, c) → parse f path "pq_read" = .ok e

/-- The write does not put its file in place while the read opens files, and the cache has no other
file's footer for the one that is opened. -/
def Undisturbed (H : Host) (A : Args) (s : St) : Ev → Prop
  | .write (.rename true) => ¬s.reading
  | .opens .footer => ∀ b, s.disk.files A.path.toList = some b → Fresh A.cache A.path (H.file b)
  | _ => True

end parquet_interop.versions
