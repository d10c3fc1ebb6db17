-- `stream_table` on a directory tree: the scratch directory, one file for the
-- names and one for each column, the batches, the counts, and the swap. Where
-- a call may fail, and with what left behind, is a choice of the world.
import ParquetInterop.Splay
import ParquetInterop.Scratch
import ParquetInterop.Lib.Trees

open lib.bytes lib.trees lib.wrapping
open parquet_interop.ffi parquet_interop.footer parquet_interop.read

namespace parquet_interop.stream

/-! ## What is streamed, and where to -/

/-- A batch whose columns went through `fill_col`. -/
structure Filled where
  rows : Nat
  cols : List (List Cell)
  len_eq : ∀ c ∈ cols, c.length = rows

/-- A source whose footer was accepted: its columns, the counts of its footer, and the batches of
each row group. -/
structure Source where
  names : List String
  lts : List LType
  rg_rows : List Int64
  groups : List (List Filled)
  lts_len : lts.length = names.length
  cols_len : ∀ g ∈ groups, ∀ b ∈ g, b.cols.length = names.length

def Source.batches (src : Source) : List Filled := src.groups.flatten

/-- `total`. -/
def Source.total (src : Source) : Int64 :=
  src.batches.foldl (fun total b => total + Int64.ofNat b.rows) 0

/-- `dst` without its slashes at the end: the directory that its last component stands in, and
that component. A path that ends in a dot or two names no entry that could be replaced. -/
structure Dst where
  parent : Loc
  last : Name
  plain : last ∉ [[], ['.'], ['.', '.']]

def Dst.loc (D : Dst) : Loc := D.parent ++ [D.last]

/-- Where `Scratch::new(dst, true)` has the scratch directory. -/
def Dst.scratch (D : Dst) (pid n : Nat) : Loc := D.parent ++ [scratch.name D.last pid n]

/-! ## The calls on the scratch directory -/

/-- A call: create a file under a name pasted behind `{tmp}/`, or something on an open file. -/
inductive Op where
  | create (name : List Char)
  | on (h : Nat) (f : File → File)

/-- What the calls `f` ask for of each column, from the column `c` on. -/
def eachCol {α : Type} (f : Nat → α → List Op) : Nat → List α → List Op
  | _, [] => []
  | c, x :: xs => f c x ++ eachCol f (c + 1) xs

/-- The header of a column file. -/
def start (lt : LType) (f : File) : File := if lt = .KS then hdrSyms f 0 else hdrFixed f lt

def manifestOps (names : List String) : List Op :=
  .create ".d".toList :: .on 0 (hdrSyms · (Int32.ofNat names.length)) ::
    names.map fun n => .on 0 fun f => (f.write (utf8Bytes n)).write [0]

def headOps (c : Nat) (x : String × LType) : List Op :=
  [.create x.1.toList, .on (c + 1) (start x.2)]

def chunkOps (rows : Nat) (c : Nat) (x : LType × List Cell) : List Op :=
  [.on (c + 1) fun f => appendChunk f x.1 x.2 rows]

def patchOps (total : Int64) (c : Nat) (lt : LType) : List Op :=
  [.on (c + 1) fun f => patchCount f (lt = .KS) total]

def batchOps (lts : List LType) (b : Filled) : List Op :=
  eachCol (chunkOps b.rows) 0 (lts.zip b.cols)

/-- Everything between the making of the scratch directory and the swap. -/
def Source.ops (src : Source) : List Op :=
  manifestOps src.names ++ eachCol headOps 0 (src.names.zip src.lts) ++
    src.batches.flatMap (batchOps src.lts) ++ eachCol (patchOps src.total) 0 src.lts

/-- The tree, and the location and position of each open file, the oldest first. -/
structure Run where
  tree : Tree
  handles : List (Loc × Nat)

def dataAt (t : Tree) (l : Loc) : List UInt8 :=
  match t.node l with
  | some (.file data) => data
  | _ => []

/-- What the handle `h` writes. A file that is not open is never written. -/
def Run.on (r : Run) (h : Nat) (f : File → File) : Run :=
  match r.handles[h]? with
  | none => r
  | some (l, pos) =>
    let f' := f ⟨dataAt r.tree l, pos⟩
    ⟨r.tree.put l (.file f'.data), r.handles.set h (l, f'.pos)⟩

/-- One call that goes well, where the scratch directory is `s`. -/
def Run.step (s : Loc) (r : Run) : Op → Option Run
  | .create name => (creates r.tree s name).map fun l =>
      ⟨r.tree.put l (.file []), r.handles ++ [(l, 0)]⟩
  | .on h f => some (r.on h f)

/-- The calls one after the other, up to the first that fails. -/
def runOps (s : Loc) (r : Run) : List Op → Run × Bool
  | [] => (r, true)
  | op :: ops =>
    match r.step s op with
    | some r' => runOps s r' ops
    | none => (r, false)

/-! ## The whole call -/

/-- The choices of the world. `refused` is an error before the scratch name is taken. `made` and
`stop` say after how many steps `create_dir_all` and the calls fail, where they would not have,
and `stop` with what the failed write left. `removed` and `gone` are the entries that the two
removals took. -/
structure Fate where
  refused : Bool
  made : Option Nat
  stop : Option (Nat × List UInt8)
  removed : Loc → Bool
  rename : Bool
  dropped : Bool
  gone : Loc → Bool

/-- How a call ended. `opened` holds every file that it created or emptied, in order, and `named`
tells whether it took a scratch name. -/
structure Out where
  tree : Tree
  ok : Bool
  opened : List Loc
  named : Bool

/-- What a write that fails half way leaves in its file. -/
def Run.leave (r : Run) (op : Option Op) (left : List UInt8) : Run :=
  match op with
  | some (.on h _) =>
    match r.handles[h]? with
    | some (l, pos) => ⟨r.tree.put l (.file left), r.handles.set h (l, pos)⟩
    | none => r
  | _ => r

/-- The calls, as far as the world lets them come. -/
def Fate.work (w : Fate) (s : Loc) (r : Run) (ops : List Op) : Run × Bool :=
  match w.stop with
  | none => runOps s r ops
  | some (k, left) =>
    let (r, ok) := runOps s r (ops.take k)
    (if ok then r.leave ops[k]? left else r, false)

/-- `create_dir_all(&tmp)`. -/
def Fate.makes (w : Fate) (s : Loc) (t : Tree) : Tree × Bool :=
  match w.made with
  | none => mkdirs t (above s)
  | some k => ((mkdirs t ((above s).take k)).1, false)

/-- The guard. A removal that fails leaves at least the directory itself. -/
def Fate.drop (w : Fate) (s : Loc) (t : Tree) : Tree :=
  t.remove fun l => s.isPrefixOf l && (w.dropped || (l != s && w.gone l))

/-- `remove_dir_all(dst)`, its error ignored. -/
def Fate.clear (w : Fate) (d : Loc) (t : Tree) : Tree :=
  t.remove fun l => d.isPrefixOf l && w.removed l

/-- A directory is renamed onto nothing, or onto an empty directory. -/
def Fate.renames (w : Fate) (s d : Loc) (t : Tree) : Bool :=
  w.rename && t.node s == some .dir && (t.node d == none || t.node d == some .dir) && t.bare d

/-- The swap. -/
def Fate.swap (w : Fate) (s d : Loc) (t : Tree) : Tree × Bool :=
  let t := w.clear d t
  if w.renames s d t then (t.move s d, true) else (w.drop s t, false)

/-- The checks before the scratch name is taken: too many rows, or a file at `dst`. -/
def Barred (src : Source) (D : Dst) (t : Tree) : Prop :=
  (I32_MAX : Int) < (wrappingSum src.rg_rows).toInt ∨
    (t.node D.loc ≠ none ∧ t.node D.loc ≠ some .dir)

instance (src : Source) (D : Dst) (t : Tree) : Decidable (Barred src D t) := by
  unfold Barred
  infer_instance

/-- `stream_table`, with the scratch name of the count `n` in the process `pid`. -/
def streamTable (w : Fate) (src : Source) (D : Dst) (pid n : Nat) (t : Tree) : Out :=
  let s := D.scratch pid n
  if w.refused ∨ Barred src D t then ⟨t, false, [], false⟩
  else
    let (t, made) := w.makes s t
    if made then
      let (r, worked) := w.work s ⟨t, []⟩ src.ops
      let opened := r.handles.map (·.1)
      if worked then
        let (t, swapped) := w.swap s D.loc r.tree
        ⟨t, swapped, opened, true⟩
      else ⟨w.drop s r.tree, false, opened, true⟩
    else ⟨w.drop s t, false, [], true⟩

end parquet_interop.stream
