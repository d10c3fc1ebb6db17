-- Parquet footers: the part of a file's metadata that the adapter looks at,
-- the cache of parsed footers, and the set of files that make one table.
import Mathlib.Data.List.Induction
import ParquetInterop.Lib.Recency
import ParquetInterop.Ffi

open lib.recency
open parquet_interop.ffi

namespace parquet_interop.footer

/-! ## Column types -/

inductive TimeUnit where
  | second
  | millisecond
  | microsecond
  | nanosecond
  deriving DecidableEq

/-- The Arrow type of a column. `other` is every type that has no L type, by its name. -/
inductive DataType where
  | boolean
  | int8
  | int16
  | int32
  | int64
  | uint8
  | uint16
  | uint32
  | uint64
  | float32
  | float64
  | utf8
  | largeUtf8
  | utf8View
  | date32
  | timestamp (u : TimeUnit) (tz : Option String)
  | time32 (u : TimeUnit)
  | duration (u : TimeUnit)
  | dictionary (k v : DataType)
  | other (name : String)
  deriving DecidableEq

def TimeUnit.display : TimeUnit → String
  | .second => "Second"
  | .millisecond => "Millisecond"
  | .microsecond => "Microsecond"
  | .nanosecond => "Nanosecond"

def DataType.display : DataType → String
  | .boolean => "Boolean"
  | .int8 => "Int8"
  | .int16 => "Int16"
  | .int32 => "Int32"
  | .int64 => "Int64"
  | .uint8 => "UInt8"
  | .uint16 => "UInt16"
  | .uint32 => "UInt32"
  | .uint64 => "UInt64"
  | .float32 => "Float32"
  | .float64 => "Float64"
  | .utf8 => "Utf8"
  | .largeUtf8 => "LargeUtf8"
  | .utf8View => "Utf8View"
  | .date32 => "Date32"
  | .timestamp u none => s!"Timestamp({u.display}, None)"
  | .timestamp u (some tz) => s!"Timestamp({u.display}, Some(\"" ++ tz ++ "\"))"
  | .time32 u => s!"Time32({u.display})"
  | .duration u => s!"Duration({u.display})"
  | .dictionary k v => s!"Dictionary({k.display}, {v.display})"
  | .other name => name

/-- The physical type of a Parquet leaf. -/
inductive PhysType where
  | BOOLEAN
  | INT32
  | INT64
  | INT96
  | FLOAT
  | DOUBLE
  | BYTE_ARRAY
  | FIXED_LEN_BYTE_ARRAY
  deriving DecidableEq

/-- The L vector type of an Arrow column, or `'nyi`. -/
def lTypeOf : DataType → Except String LType
  | .boolean => .ok .KB
  | .int8 | .uint8 => .ok .KG
  | .int16 => .ok .KH
  | .int32 => .ok .KI
  | .int64 => .ok .KJ
  | .float32 => .ok .KE
  | .float64 => .ok .KF
  | .utf8 | .largeUtf8 | .utf8View => .ok .KS
  | .dictionary k v =>
    match lTypeOf v with
    | .ok .KS => .ok .KS
    | _ => .error ("nyi: column type " ++ (DataType.dictionary k v).display)
  | .timestamp _ _ => .ok .KP
  | .date32 => .ok .KD
  | .time32 .millisecond => .ok .KT
  | .duration _ => .ok .KN
  | dt => .error ("nyi: column type " ++ dt.display)

/-! ## The metadata of one file -/

/-- The extrema of one column chunk, with the flags that say whether they are exact. -/
structure ValueStatistics (T : Type) where
  min : Option T
  max : Option T
  min_is_exact : Bool
  max_is_exact : Bool

/-- The bounds by physical type. `other` is a physical type that no L type reads a bound of. -/
inductive Bounds where
  | boolean (s : ValueStatistics Bool)
  | int32 (s : ValueStatistics Int32)
  | int64 (s : ValueStatistics Int64)
  | float (s : ValueStatistics F32)
  | double (s : ValueStatistics F64)
  | byteArray (s : ValueStatistics (List UInt8))
  | other

structure Statistics where
  null_count : Option UInt64
  bounds : Bounds

structure ColumnChunk where
  dictionary_page : Bool
  statistics : Option Statistics

structure RowGroup where
  num_rows : Int64
  columns : List ColumnChunk

structure Field where
  name : String
  data_type : DataType

/-- A leaf of the Parquet schema, with the root column it belongs to. -/
structure Leaf where
  root : Nat
  physical_type : PhysType
  max_def_level : Int16
  max_rep_level : Int16

/-- A parsed footer: the Arrow schema, the Parquet leaves and the row groups. -/
structure Md where
  fields : List Field
  leaves : List Leaf
  row_groups : List RowGroup
  num_rows : Int64

/-- One opened file. -/
structure Src where
  path : String
  orig : String
  md : Md
  rg_rows : List Int64
  leaf : List (Option Nat)

/-- Count one leaf: a root that has more than one leaf has none of its own. -/
def leafStep (vn : List (Option Nat) × List Nat) (x : Leaf × Nat) : List (Option Nat) × List Nat :=
  match vn.2[x.1.root]? with
  | some k => (vn.1.set x.1.root (if k + 1 = 1 then some x.2 else none), vn.2.set x.1.root (k + 1))
  | none => vn

/-- The one leaf of each root column, or none when the root has not exactly one. -/
def leafMap (md : Md) : List (Option Nat) :=
  (md.leaves.zipIdx.foldl leafStep
    (List.replicate md.fields.length none, List.replicate md.fields.length 0)).1

/-- The leaf of root column `c`. -/
def Src.leafOf (s : Src) (c : Nat) : Option Nat := (s.leaf[c]?).join

/-- The chunk of root column `c` in row group `g`. -/
def Src.chunk (s : Src) (g c : Nat) : Option ColumnChunk := do
  let l ← s.leafOf c
  let rg ← s.md.row_groups[g]?
  rg.columns[l]?

/-- Row group `g` has a dictionary page for root column `c`. -/
def Src.chunkDict (s : Src) (g c : Nat) : Bool := ((s.chunk g c).map (·.dictionary_page)).getD false

/-! ## The footer cache -/

/-- What the filesystem says a file is. -/
structure Key where
  path : String
  dev : Nat
  ino : Nat
  size : Nat
  mtime : Int × Int
  deriving DecidableEq

structure Entry where
  key : Key
  md : Md
  rg_rows : List Int64

def FOOTERS_MAX : Nat := 32

/-- A file that `File::open` opened: its identity, the footer that the crate parses, and the
metadata that the crate makes of the footer under another schema, if it accepts it. -/
structure OpenFile where
  key : Key
  parsed : Except String Md
  tryNew : List Field → Option Md

/-- The schema with each string column declared as a dictionary, if there is one. -/
def dictHint (fields : List Field) : Option (List Field) :=
  let isStr := fun f : Field => f.data_type = .utf8 ∨ f.data_type = .largeUtf8 ∨ f.data_type = .utf8View
  if fields.any fun f => isStr f then
    some (fields.map fun f => if isStr f then { f with data_type := .dictionary .int32 .utf8 } else f)
  else none

/-- The sum in `i64` as the release profile adds: it wraps. -/
def wrappingSum (rows : List Int64) : Int64 := rows.foldl (· + ·) 0

def mk (orig path : String) (md : Md) (rg_rows : List Int64) : Src :=
  { path, orig, md, rg_rows, leaf := leafMap md }

/-- A hit of the cache moves its entry to the front. -/
def lookup (cache : List Entry) (key : Key) : Option (Entry × List Entry) :=
  match cache.findIdx? (·.key = key) with
  | some i => cache[i]?.map fun e => (e, e :: cache.eraseIdx i)
  | none => none

/-- Two threads can miss on one file, and the second does not insert it again. -/
def insert (c : List Entry) (e : Entry) : List Entry :=
  if c.any (·.key = e.key) then c else e :: c.take (FOOTERS_MAX - 1)

/-- The metadata under the dictionary hint, when there is one and the crate takes it. -/
def hinted (f : OpenFile) (base : Md) : Md :=
  match dictHint base.fields with
  | some h => (f.tryNew h).getD base
  | none => base

/-- Parse a footer and check its row counts. -/
def parse (f : OpenFile) (path who : String) : Except String Entry :=
  match f.parsed with
  | .error e => .error s!"{who}: {e}"
  | .ok base =>
    let md := hinted f base
    let rg_rows := md.row_groups.map (·.num_rows)
    if md.num_rows ≠ wrappingSum rg_rows then .error s!"{who}: {path}: row counts disagree"
    else .ok { key := f.key, md, rg_rows }

/-- Open one file: the footer out of the cache, or a parsed one. -/
def load (c : List Entry) (orig path : String) (f : Except String OpenFile) (who : String) :
    Except String Src × List Entry :=
  match f with
  | .error e => (.error s!"{who}: {path}: {e}", c)
  | .ok f =>
    match lookup c f.key with
    | some (e, c) => (.ok (mk orig path e.md e.rg_rows), c)
    | none =>
      match parse f path who with
      | .error e => (.error e, c)
      | .ok e => (.ok (mk orig path e.md e.rg_rows), insert c e)

/-! ## The set of files -/

/-- `Set` in the source: files that present the same table. -/
structure FileSet where
  srcs : List Src
  names : List String
  lts : List (Except String LType)

/-- Total rows across every file. -/
def rowsOf (srcs : List Src) : Int64 := wrappingSum (srcs.map fun s => wrappingSum s.rg_rows)

def FileSet.rows (set : FileSet) : Int64 := rowsOf set.srcs

/-- Total row groups across every file. -/
def FileSet.nRg (set : FileSet) : Nat := (set.srcs.map (·.rg_rows.length)).sum

/-- The L type of a column of a file, if it has one. -/
def okType (f : Field) : Option LType := (lTypeOf f.data_type).toOption

/-- The columns line up by position: the same names and the same L types. -/
def sameTable (names : List String) (lts : List (Except String LType)) (s : Src) : Bool :=
  s.md.fields.map (·.name) = names ∧ s.md.fields.map okType = lts.map (·.toOption)

/-- Agree on one schema: the columns of the first file. -/
def agree (srcs : List Src) (who : String) : Except String FileSet :=
  match srcs with
  | [] => .error s!"{who}: no files"
  | s0 :: rest =>
    let names := s0.md.fields.map (·.name)
    let lts := s0.md.fields.map fun f =>
      (lTypeOf f.data_type).mapError fun _ => s!"nyi: column {f.name} type {f.data_type.display}"
    match rest.find? fun s => !sameTable names lts s with
    | some s => .error s!"{who}: schema {s.orig}"
    | none => .ok { srcs, names, lts }

/-! ## Leaves of the roots -/

/-- After the leaves `ls`: the count of the leaves of each root, and a leaf only for a root that
has no other. -/
structure Counted (ls : List Leaf) (vn : List (Option Nat) × List Nat) : Prop where
  len : vn.1.length = vn.2.length
  count : ∀ c k, vn.2[c]? = some k → k = ls.countP (·.root = c)
  leaf : ∀ c l, vn.1[c]? = some (some l) → ∃ d, ls[l]? = some d ∧ d.root = c ∧
    ∀ (l' : Nat) d', ls[l']? = some d' → d'.root = c → l' = l

theorem getElem?_snoc {T : Type} {l : List T} {x y : T} {i : Nat} (h : (l ++ [x])[i]? = some y) :
    l[i]? = some y ∨ i = l.length ∧ y = x := by
  by_cases hi : i < l.length
  · rw [List.getElem?_append_left hi] at h
    exact Or.inl h
  · rw [List.getElem?_append_right (Nat.not_lt.mp hi)] at h
    have hlt := (List.getElem?_eq_some_iff.mp h).1
    rw [List.length_singleton] at hlt
    have hi0 : i - l.length = 0 := by omega
    rw [hi0] at h
    exact Or.inr ⟨by omega, (Option.some.inj h).symm⟩

theorem counted_step {ls : List Leaf} {vn : List (Option Nat) × List Nat} (h : Counted ls vn)
    (x : Leaf) : Counted (ls ++ [x]) (leafStep vn (x, ls.length)) := by
  have hkeep : ∀ c, c ≠ x.root → ∀ l, vn.1[c]? = some (some l) →
      ∃ d, (ls ++ [x])[l]? = some d ∧ d.root = c ∧
        ∀ (l' : Nat) d', (ls ++ [x])[l']? = some d' → d'.root = c → l' = l := by
    intro c hc l hl
    obtain ⟨d, hd, hroot, huniq⟩ := h.leaf c l hl
    refine ⟨d, ?_, hroot, fun l' d' hd' hroot' => ?_⟩
    · rw [List.getElem?_append_left (List.getElem?_eq_some_iff.mp hd).1, hd]
    · rcases getElem?_snoc hd' with hd' | ⟨_, rfl⟩
      · exact huniq l' d' hd' hroot'
      · exact absurd hroot'.symm hc
  have hcount : ∀ c, c ≠ x.root → ls.countP (·.root = c) = (ls ++ [x]).countP (·.root = c) := by
    intro c hc
    simp [List.countP_append, Ne.symm hc]
  unfold leafStep
  dsimp only
  split
  · rename_i k hk
    have hk0 := h.count _ _ hk
    have hlt2 := (List.getElem?_eq_some_iff.mp hk).1
    have hlt1 : x.root < vn.1.length := h.len ▸ hlt2
    refine ⟨by simp [h.len], fun c k' hk' => ?_, fun c l hl => ?_⟩
    · by_cases hc : c = x.root
      · subst hc
        rw [List.getElem?_set_self hlt2] at hk'
        simp [List.countP_append, ← hk0, ← Option.some.inj hk']
      · rw [List.getElem?_set_ne (Ne.symm hc)] at hk'
        rw [← hcount c hc]
        exact h.count c k' hk'
    · by_cases hc : c = x.root
      · subst hc
        rw [List.getElem?_set_self hlt1] at hl
        split at hl
        · rename_i hone
          cases hl
          have hnone : ls.countP (·.root = x.root) = 0 := by omega
          rw [List.countP_eq_zero] at hnone
          refine ⟨x, List.getElem?_concat_length, rfl, fun l' d' hd' hroot' => ?_⟩
          rcases getElem?_snoc hd' with hd' | ⟨hl', _⟩
          · exact absurd (decide_eq_true hroot') (hnone d' (List.mem_of_getElem? hd'))
          · exact hl'
        · cases hl
      · rw [List.getElem?_set_ne (Ne.symm hc)] at hl
        exact hkeep c hc l hl
  · rename_i hnone
    have hout : ∀ {c}, c < vn.2.length → c ≠ x.root := by
      rintro c hc rfl
      rw [List.getElem?_eq_getElem hc] at hnone
      cases hnone
    refine ⟨h.len, fun c k hk => ?_, fun c l hl => ?_⟩
    · rw [← hcount c (hout (List.getElem?_eq_some_iff.mp hk).1)]
      exact h.count c k hk
    · exact hkeep c (hout (h.len ▸ (List.getElem?_eq_some_iff.mp hl).1)) l hl

/-- A leaf of `leafMap` belongs to its root, and it is the only one. -/
theorem leafMap_spec (md : Md) {c l : Nat} (h : (leafMap md)[c]? = some (some l)) :
    ∃ d, md.leaves[l]? = some d ∧ d.root = c ∧
      ∀ (l' : Nat) d', md.leaves[l']? = some d' → d'.root = c → l' = l := by
  have hall : ∀ ls : List Leaf, Counted ls (ls.zipIdx.foldl leafStep
      (List.replicate md.fields.length none, List.replicate md.fields.length 0)) := by
    intro ls
    induction ls using List.reverseRecOn with
    | nil =>
      refine ⟨by simp, fun c k hk => ?_, fun c l hl => ?_⟩
      · have := List.mem_of_getElem? hk
        exact List.eq_of_mem_replicate this
      · have := List.eq_of_mem_replicate (List.mem_of_getElem? hl)
        cases this
    | append_singleton ls x ih =>
      rw [List.zipIdx_append, List.foldl_append]
      simp only [Nat.zero_add, List.zipIdx_singleton, List.foldl_cons, List.foldl_nil]
      exact counted_step ih x
  exact (hall md.leaves).leaf c l h

/-! ## What an accepted footer promises -/

/-- The row counts that a file is laid out from are the counts of its footer, and their
wrapped sum is the total that the footer declares. -/
structure Accepted (md : Md) (rg_rows : List Int64) : Prop where
  counts : rg_rows = md.row_groups.map (·.num_rows)
  declared : md.num_rows = wrappingSum rg_rows

theorem lookup_eq (c : List Entry) (key : Key) : lookup c key = touch Entry.key c key := rfl

theorem lookup_mem {c c' : List Entry} {key : Key} {e : Entry} (h : lookup c key = some (e, c')) :
    e ∈ c ∧ ∀ x ∈ c', x ∈ c := by
  rw [lookup_eq] at h
  exact ⟨touch_mem h, fun x hx => (touch_perm h).subset hx⟩

theorem parse_accepted {f : OpenFile} {path who : String} {e : Entry}
    (h : parse f path who = .ok e) : Accepted e.md e.rg_rows := by
  unfold parse at h
  split at h
  · cases h
  · dsimp only at h
    split at h
    · cases h
    · rename_i hsum
      cases h
      exact ⟨rfl, Decidable.not_not.mp hsum⟩

/-- A file comes out of `load` with counts that passed the check, from the cache or not, and
the cache holds only such files. -/
theorem load_accepted {c : List Entry} {orig path who : String} {f : Except String OpenFile}
    (hc : ∀ e ∈ c, Accepted e.md e.rg_rows) :
    (∀ s, (load c orig path f who).1 = .ok s → Accepted s.md s.rg_rows) ∧
      ∀ e ∈ (load c orig path f who).2, Accepted e.md e.rg_rows := by
  unfold load
  split
  · exact ⟨fun s h => (by cases h), hc⟩
  · rename_i f
    split
    · rename_i e c' hl
      obtain ⟨he, hc'⟩ := lookup_mem hl
      refine ⟨fun s h => ?_, fun x hx => hc x (hc' x hx)⟩
      cases h
      exact hc e he
    · split
      · exact ⟨fun s h => (by cases h), hc⟩
      · rename_i e he
        have hacc := parse_accepted he
        refine ⟨fun s h => ?_, fun x hx => ?_⟩
        · cases h
          exact hacc
        · unfold insert at hx
          split at hx
          · exact hc x hx
          · rcases List.mem_cons.mp hx with rfl | hx
            · exact hacc
            · exact hc x (List.mem_of_mem_take hx)

end parquet_interop.footer
