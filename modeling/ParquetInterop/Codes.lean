-- Symbol columns as a pair: the union of the dictionary pages of a window, and
-- the fill of a batch by its codes in that union.
import ParquetInterop.RawCol
import ParquetInterop.Layout

open parquet_interop.ffi parquet_interop.footer
open lib.stores

namespace parquet_interop.read

/-! ## The outside world -/

/-- The first page of a column chunk. The size of a page is an `i32` in its header. -/
inductive Page where
  | dictionary (buf : List UInt8) (num_values : UInt32) (size : buf.length < 2 ^ 31)
  | other

/-- The roots that a projection keeps. -/
structure ProjectionMask where
  roots : List Nat

/-- The files, as the crates read them: the opens, the first page of a chunk, the column reader
of a leaf, and the batches of a projected row group. -/
structure World where
  crate : Crate
  fopen : Src → Except String Unit
  tryClone : Src → Except String Unit
  firstPage : Src → Nat → Nat → Except String (Option Page)
  columnReader : Src → Nat → Nat → Except String ColumnReader
  batches : Src → ProjectionMask → Nat → Except String (List (Except String Batch))

/-! ## A dictionary page -/

/-- The union of the dictionaries: `d` in first-seen order, the id of each value, the id of the
empty symbol, and the L type of the codes. -/
structure Codes where
  d : List Sym
  ix : List (List UInt8 × UInt32)
  empty : UInt32
  lt : LType

/-- The narrowest L type that can index `n` entries. -/
def width (n : Nat) : LType := if n ≤ 256 then .KG else if n ≤ 32768 then .KH else .KI

/-- The entries of a PLAIN page from byte `i` on: a 4-byte length, then the bytes. -/
def spansFrom (buf : List UInt8) : Nat → Nat → Option (List (UInt32 × UInt32))
  | 0, _ => some []
  | k + 1, i =>
    let b := (buf.drop i).take 4
    let n := (leWord b).toNat
    if b.length = 4 ∧ i + 4 + n ≤ buf.length then
      (spansFrom buf k (i + 4 + n)).map (((i + 4).toUInt32, n.toUInt32) :: ·)
    else none

/-- The bytes of one entry. -/
def entry (buf : List UInt8) (s : UInt32 × UInt32) : List UInt8 :=
  (buf.drop s.1.toNat).take s.2.toNat

/-- `u64::to_le_bytes`. -/
def leBytes (w : UInt64) : List UInt8 :=
  (List.range 8).map fun k => (w >>> (8 * k).toUInt64).toUInt8

/-- A hash of the set of the entries: their order does not matter. -/
def setHash (buf : List UInt8) (spans : List (UInt32 × UInt32)) : UInt64 :=
  spans.foldl (fun h s => h ^^^ fxh (entry buf s) * 0x9E3779B97F4A7C15)
    (fxh (leBytes spans.length.toUInt64))

structure DictBuf where
  hash : UInt64
  buf : List UInt8
  spans : List (UInt32 × UInt32)

/-- The entries of the dictionary page of one chunk. A chunk that has none answers no entries. -/
def dictPage (W : World) (src : Src) (g c : Nat) (who : String) : Except String DictBuf :=
  match W.fopen src with
  | .error e => .error s!"{who}: {src.path}: {e}"
  | .ok () =>
    match src.chunk g c with
    | none => .ok ⟨0, [], []⟩
    | some _ =>
      match W.firstPage src g c with
      | .error e => .error s!"{who}: {e}"
      | .ok (some (.dictionary buf num_values _)) =>
        match spansFrom buf num_values.toNat 0 with
        | some spans => .ok ⟨setHash buf spans, buf, spans⟩
        | none => .error s!"{who}: {src.path}: short dictionary"
      | .ok _ => .ok ⟨0, [], []⟩

/-! ## The union -/

/-- The union while it is merged: `seen` holds the hashes of the sets that are in it. -/
structure Union where
  d : List Sym
  ix : List (List UInt8 × UInt32)
  nulls : Bool
  seen : List UInt64

/-- One value: a new one takes the next id. -/
def Union.add (u : Union) (v : List UInt8) : Union :=
  match u.ix.lookup v with
  | some _ => u
  | none => { u with ix := (v, u.d.length.toUInt32) :: u.ix, d := u.d ++ [intern v] }

/-- One page: a set whose hash is seen adds nothing. -/
def Union.merge (u : Union) (p : DictBuf) : Union :=
  if p.hash ∈ u.seen then u
  else { (p.spans.map (entry p.buf)).foldl Union.add u with seen := p.hash :: u.seen }

/-- A chunk may hold a null, unless its statistics say that it holds none. -/
def mayHoldNulls (src : Src) (g c : Nat) : Bool :=
  match src.chunk g c with
  | none => true
  | some cc =>
    match cc.statistics with
    | none => true
    | some s =>
      match s.null_count with
      | none => true
      | some k => 0 < k

/-- The merge of the pages in row-group order. A chunk with no entries ends it. -/
def mergePages (u : Union) : List (Except String DictBuf × Bool) → Except String (Option Union)
  | [] => .ok (some u)
  | (.error e, _) :: _ => .error e
  | (.ok p, nulls) :: ps =>
    if p.spans = [] then .ok none
    else
      let u := u.merge p
      mergePages { u with nulls := u.nulls || nulls } ps

/-- The id of the empty symbol. It joins the union once the window may hold a null. -/
def Union.close (u : Union) : Codes :=
  match u.ix.lookup [] with
  | some empty => ⟨u.d, u.ix, empty, width (max u.d.length (empty.toNat + 1))⟩
  | none =>
    let empty := u.d.length.toUInt32
    let d := if u.nulls then u.d ++ [intern []] else u.d
    let ix := if u.nulls then ([], empty) :: u.ix else u.ix
    ⟨d, ix, empty, width (max d.length (empty.toNat + 1))⟩

/-- Every row group of the window has a dictionary page for column `c`. -/
def allDict (srcs : List Src) (rgs : List Rg) (c : Nat) : Bool :=
  rgs.all fun r => ((srcs[r.f]?).map fun s => s.chunkDict r.g c).getD false

def codesPlan (W : World) (srcs : List Src) (rgs : List Rg) (c : Nat) (who : String) :
    Except String (Option Codes) :=
  if rgs = [] ∨ ¬allDict srcs rgs c then .ok none
  else
    let pages := rgs.filterMap fun r =>
      (srcs[r.f]?).map fun s => (dictPage W s r.g c who, mayHoldNulls s r.g c)
    (mergePages ⟨[], [], false, []⟩ pages).map (·.map Union.close)

/-! ## The fill by codes -/

/-- What a decode worker does to the shared world: a store, or giving a column up as a pair. -/
inductive Act where
  | store (o : Store)
  | give (p : Nat)

/-- The ids of a dictionary, built once while the memo keeps it. No table when a value is not in
the union. -/
def SymCache.lut (heap : Heap) (sy : SymCache) (id : ArrayId) (cd : Codes) :
    Except String (Option (List UInt32)) × SymCache :=
  match memoHit sy.luts id with
  | some (t, luts) => (.ok t, { sy with luts })
  | none =>
    match heap id with
    | .error e => (.error e, sy)
    | .ok vs =>
      let t := vs.mapM fun v => cd.ix.lookup ((v.map utf8Bytes).getD [])
      (.ok t, { sy with luts := memoInsert sy.luts id t })

/-- A code at the width of the codes vector. -/
def narrow (lt : LType) (id : UInt32) : Cell :=
  match lt with
  | .KG => .g id.toUInt8
  | .KH => .h id.toUInt16.toInt16
  | _ => .i id.toInt32

/-- One batch of a symbol column as codes. -/
def fillCodes (heap : Heap) (keys : Prim Int) (values : ArrayId) (cd : Codes) (p col off : Nat)
    (sy : SymCache) : Except String (List Act) × SymCache :=
  match sy.lut heap values cd with
  | (.error e, sy) => (.error e, sy)
  | (.ok none, sy) => (.ok [.give p], sy)
  | (.ok (some lut), sy) =>
    (.ok ((fill col off (keys.values.map fun k =>
        narrow cd.lt ((lut[asUsizeKey k]?).getD cd.empty)) ++
      fillNulls keys.nulls col off (narrow cd.lt cd.empty)).map .store), sy)

/-- The fill by the key type of the array. What is no dictionary of a known key type gives the
column up. -/
def symCodes (heap : Heap) (arr : Arr) (cd : Codes) (p col off : Nat) (sy : SymCache) :
    Except String (List Act) × SymCache :=
  match arr.data_type with
  | .dictionary k _ =>
    if isKeyType k then
      match arr.data with
      | .dict keys values => fillCodes heap keys values cd p col off sy
      | _ => (.error "pq_read: dictionary layout", sy)
    else (.ok [.give p], sy)
  | _ => (.ok [.give p], sy)

end parquet_interop.read
