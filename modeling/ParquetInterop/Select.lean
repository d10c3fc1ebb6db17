-- The projection of a read: which columns, which of them decode straight
-- into their vector, and the parts that the columns of a row group are cut into.
import Mathlib.Data.List.Sort
import Mathlib.Data.List.Dedup
import ParquetInterop.RawCol
import ParquetInterop.Codes

open parquet_interop.ffi parquet_interop.footer lib.blocks

namespace parquet_interop.read

/-! ## Selection -/

/-- `Sel` in the source: by result position, the file column, its L type, and the machine type
when the column is zero-copy. `uniq` is the selection in file order. -/
structure Sel where
  out : List Nat
  lts : List LType
  uniq : List Nat
  raw : List (Option Raw)

/-- `out` in ascending order, without repeats: the equal ones stand side by side. -/
def sortedUniq (out : List Nat) : List Nat := (out.insertionSort (· ≤ ·)).dedup

/-- One file's say on a column: the answer so far stays when the file gives the same one and
stores the column flat. -/
def rawStep (first : Bool) (r : Option Raw) (l : Leaf) (f : Field) : Option Raw :=
  let ri := rawOf f.data_type l.physical_type
  let r := if first ∨ ri = r then ri else none
  if l.max_rep_level ≠ 0 then none else r

/-- Column `c` is zero-copy when every file gives the same answer. -/
def rawDecision (c : Nat) : List Src → Bool → Option Raw → Option Raw
  | [], _, r => r
  | s :: ss, first, r =>
    match s.leafOf c with
    | none => none
    | some l =>
      match s.md.leaves[l]?, s.md.fields[c]? with
      | some d, some f => rawDecision c ss false (rawStep first r d f)
      | _, _ => none

/-- The L types of the columns, or the error of the first that has none. -/
def ltsOf (set : FileSet) : List Nat → Except String (List LType)
  | [] => .ok []
  | c :: cs =>
    match set.lts[c]? with
    | some (.ok lt) => (ltsOf set cs).map (lt :: ·)
    | some (.error e) => .error e
    | none => .error "index out of bounds"

/-- The file columns of the names that are wanted. -/
def outOf (set : FileSet) (who : String) : List String → Except String (List Nat)
  | [] => .ok []
  | n :: ns =>
    match set.names.findIdx? (· = n) with
    | some c => (outOf set who ns).map (c :: ·)
    | none => .error s!"{who}: no column {n}"

/-- All the columns in file order, when none are named. -/
def wanted (set : FileSet) (who : String) : Option (List String) → Except String (List Nat)
  | none => .ok (List.range set.names.length)
  | some w => outOf set who w

/-- Resolve the wanted columns. -/
def select (set : FileSet) (want : Option (List String)) (who : String) : Except String Sel :=
  match wanted set who want with
  | .error e => .error e
  | .ok out =>
    match ltsOf set out with
    | .error e => .error e
    | .ok lts =>
      let uniq := sortedUniq out
      if uniq.length ≠ out.length then .error s!"{who}: duplicate column"
      else .ok { out, lts, uniq, raw := out.map fun c => rawDecision c set.srcs true none }

/-- The file column of result position `p`. -/
def Sel.col (sel : Sel) (p : Nat) : Nat := sel.out.getD p 0

/-- The L type of result position `p`. -/
def Sel.lt (sel : Sel) (p : Nat) : LType := sel.lts.getD p (.other 0)

def Sel.rawAt (sel : Sel) (p : Nat) : Option Raw := (sel.raw[p]?).join

/-! ## Parts -/

/-- One column part of a row group: one zero-copy column, or Arrow columns that share a reader.
`bat` is the place of each of `outs` in the batch of this part. -/
structure Part where
  raw : List Nat
  outs : List Nat
  bat : List Nat
  masks : List ProjectionMask

def rawParts (sel : Sel) : List Part :=
  ((List.range sel.out.length).filter fun p => (sel.rawAt p).isSome).map fun p =>
    { raw := [p], outs := [], bat := [], masks := [] }

/-- The result positions that go through Arrow. -/
def arrowCols (sel : Sel) : List Nat :=
  (List.range sel.out.length).filter fun p => (sel.rawAt p).isNone

/-- The part of the positions `outs`: its projection is in file order. -/
def arrowPart (set : FileSet) (sel : Sel) (outs : List Nat) : Part :=
  let want := outs.map sel.col
  let srt := want.insertionSort (· ≤ ·)
  { raw := [], outs, bat := want.map srt.idxOf, masks := set.srcs.map fun _ => ⟨srt⟩ }

/-- The Arrow columns cut `k` ways. -/
def arrowParts (set : FileSet) (sel : Sel) (k : Nat) : List Part :=
  let arw := arrowCols sel
  let n := arw.length
  let k := max 1 (min k n)
  ((List.range k).map fun j => slice arw (j * n / k) ((j + 1) * n / k)).filterMap fun outs =>
    if outs = [] then none else some (arrowPart set sel outs)

/-- Cut the selection into parts. -/
def split (set : FileSet) (sel : Sel) (k : Nat) : List Part :=
  if arrowCols sel = [] then rawParts sel else rawParts sel ++ arrowParts set sel k

/-- How many parts the Arrow columns are cut into, for a window of `n` row groups. -/
def splitWays (nthreads n : Nat) (sel : Sel) : Nat :=
  if n = 0 then 1 else max 1 (min ((2 * nthreads + n - 1) / n) (max 1 sel.uniq.length))

/-! ## What a selection promises -/

/-- The Arrow type of column `c` in a file. -/
def typeAt (s : Src) (c : Nat) : DataType :=
  ((s.md.fields[c]?).map (·.data_type)).getD (.other "")

/-- A file as `load` makes it: its leaves are the leaves of its own schema. -/
def Loaded (s : Src) : Prop :=
  s.leaf = leafMap s.md ∧ Accepted s.md s.rg_rows

/-- A zero-copy column of a file: one flat leaf, stored as the machine type says. -/
def RawIn (s : Src) (c : Nat) (rt : Raw) : Prop :=
  ∃ l d, s.leafOf c = some l ∧ s.md.leaves[l]? = some d ∧
    rawOf (typeAt s c) d.physical_type = some rt ∧ d.max_rep_level = 0

/-- A selection that fits every file of the set. -/
structure Selected (set : FileSet) (sel : Sel) : Prop where
  nodup : sel.out.Nodup
  lt : ∀ q < sel.out.length, ∀ s ∈ set.srcs, lTypeOf (typeAt s (sel.col q)) = .ok (sel.lt q)
  raw : ∀ q rt, sel.rawAt q = some rt → q < sel.out.length ∧
    ∀ s ∈ set.srcs, RawIn s (sel.col q) rt

theorem load_loaded {c : List Entry} {orig path who : String} {f : Except String OpenFile}
    (hc : ∀ e ∈ c, Accepted e.md e.rg_rows) {s : Src} (h : (load c orig path f who).1 = .ok s) :
    Loaded s := by
  refine ⟨?_, (load_accepted hc).1 s h⟩
  unfold load at h
  split at h
  · cases h
  · split at h
    · cases h
      rfl
    · split at h
      · cases h
      · cases h
        rfl

/-- What `agree` answers: the columns of the first file, which every other file shares. -/
theorem agree_cases {srcs : List Src} {who : String} {set : FileSet}
    (h : agree srcs who = .ok set) : set.srcs = srcs ∧
      ∀ s ∈ srcs, s.md.fields.map (·.name) = set.names ∧
        s.md.fields.map okType = set.lts.map (·.toOption) := by
  unfold agree at h
  split at h
  · cases h
  rename_i s0 rest
  dsimp only at h
  split at h
  · cases h
  rename_i hfind
  cases h
  refine ⟨rfl, fun s hs => ?_⟩
  rcases List.mem_cons.mp hs with rfl | hs
  · refine ⟨rfl, ?_⟩
    rw [List.map_map]
    apply List.map_congr_left
    intro f _
    show (lTypeOf f.data_type).toOption = ((lTypeOf f.data_type).mapError _).toOption
    cases lTypeOf f.data_type <;> rfl
  · have hsame := List.find?_eq_none.mp hfind s hs
    simpa [sameTable] using hsame

/-- Every file of a set has the L types of the set. -/
theorem agree_lt {srcs : List Src} {who : String} {set : FileSet} (h : agree srcs who = .ok set)
    {c : Nat} {lt : LType} (hlt : set.lts[c]? = some (.ok lt)) :
    ∀ s ∈ srcs, lTypeOf (typeAt s c) = .ok lt := by
  intro s hs
  have htypes := congrArg (·[c]?) ((agree_cases h).2 s hs).2
  simp only [List.getElem?_map, hlt, Option.map_some, Option.map_eq_some_iff] at htypes
  obtain ⟨f, hf, hok⟩ := htypes
  unfold typeAt
  rw [hf]
  simp only [Option.map_some, Option.getD_some]
  unfold okType at hok
  rcases hl : lTypeOf f.data_type with e | lt'
  · rw [hl] at hok
    cases hok
  · rw [hl] at hok
    cases hok
    rfl

theorem ltsOf_get {set : FileSet} {out : List Nat} {lts : List LType} (h : ltsOf set out = .ok lts) :
    lts.length = out.length ∧ ∀ q < out.length,
      set.lts[out.getD q 0]? = some (.ok (lts.getD q (.other 0))) := by
  induction out generalizing lts with
  | nil =>
    cases h
    exact ⟨rfl, fun q hq => absurd hq (Nat.not_lt_zero q)⟩
  | cons c cs ih =>
    unfold ltsOf at h
    split at h
    · rename_i lt hc
      rcases hr : ltsOf set cs with e | rest
      · rw [hr] at h
        cases h
      · rw [hr] at h
        cases h
        obtain ⟨hlen, hget⟩ := ih hr
        refine ⟨congrArg (· + 1) hlen, fun q hq => ?_⟩
        cases q with
        | zero => exact hc
        | succ q => exact hget q (Nat.lt_of_succ_lt_succ hq)
    · cases h
    · cases h

theorem rawStep_some {first : Bool} {r : Option Raw} {d : Leaf} {f : Field} {rt : Raw}
    (h : rawStep first r d f = some rt) :
    d.max_rep_level = 0 ∧ rawOf f.data_type d.physical_type = some rt ∧
      (first = false → r = some rt) := by
  unfold rawStep at h
  dsimp only at h
  split at h
  · cases h
  rename_i hrep
  split at h
  · rename_i hor
    refine ⟨Decidable.not_not.mp hrep, h, fun hf => ?_⟩
    rcases hor with hfirst | hr
    · rw [hf] at hfirst
      cases hfirst
    · rw [← hr, h]
  · cases h

/-- Every file gives the answer that stays. -/
theorem rawDecision_some {c : Nat} {srcs : List Src} {first : Bool} {r : Option Raw} {rt : Raw}
    (h : rawDecision c srcs first r = some rt) :
    (first = false → r = some rt) ∧ ∀ s ∈ srcs, RawIn s c rt := by
  induction srcs generalizing first r with
  | nil => exact ⟨fun _ => h, fun s hs => absurd hs List.not_mem_nil⟩
  | cons s srcs ih =>
    unfold rawDecision at h
    split at h
    · cases h
    rename_i l hl
    split at h
    · rename_i d f hd hf
      obtain ⟨hstep, hrest⟩ := ih h
      obtain ⟨hrep, hraw, hr⟩ := rawStep_some (hstep rfl)
      refine ⟨hr, fun s' hs' => ?_⟩
      rcases List.mem_cons.mp hs' with rfl | hs'
      · refine ⟨l, d, hl, hd, ?_, hrep⟩
        unfold typeAt
        rw [hf]
        exact hraw
      · exact hrest s' hs'
    · cases h

theorem sortedUniq_nodup {out : List Nat} (h : (sortedUniq out).length = out.length) :
    out.Nodup := by
  have hperm := List.perm_insertionSort (· ≤ ·) out
  have heq : (out.insertionSort (· ≤ ·)).dedup = out.insertionSort (· ≤ ·) :=
    (List.dedup_sublist _).eq_of_length (h.trans hperm.length_eq.symm)
  exact hperm.nodup_iff.mp (heq ▸ List.nodup_dedup _)

/-- `select` answers a selection that fits every file. -/
theorem select_selected {srcs : List Src} {who : String} {set : FileSet}
    (hset : agree srcs who = .ok set) {want : Option (List String)} {sel : Sel}
    (hsel : select set want who = .ok sel) : Selected set sel := by
  unfold select at hsel
  split at hsel
  · cases hsel
  rename_i out hout
  split at hsel
  · cases hsel
  rename_i lts hlts
  dsimp only at hsel
  split at hsel
  · cases hsel
  rename_i huniq
  cases hsel
  have hsrcs := (agree_cases hset).1
  obtain ⟨hlen, hget⟩ := ltsOf_get hlts
  constructor
  case nodup => exact sortedUniq_nodup (Decidable.not_not.mp huniq)
  case lt => exact fun q hq s hs => agree_lt hset (hget q hq) s (hsrcs ▸ hs)
  case raw =>
    intro q rt hraw
    simp only [Sel.rawAt, List.getElem?_map] at hraw
    rcases hq : out[q]? with _ | c
    · rw [hq] at hraw
      cases hraw
    · rw [hq] at hraw
      have hcol : out.getD q 0 = c := by rw [List.getD_eq_getElem?_getD, hq]; rfl
      refine ⟨(List.getElem?_eq_some_iff.mp hq).1, fun s hs => ?_⟩
      show RawIn s (out.getD q 0) rt
      rw [hcol]
      exact (rawDecision_some hraw).2 s hs

/-- Distinct result positions are distinct file columns. -/
theorem Selected.col_inj {set : FileSet} {sel : Sel} (h : Selected set sel) {p q : Nat}
    (hp : p < sel.out.length) (hq : q < sel.out.length) (he : sel.col p = sel.col q) : p = q := by
  unfold Sel.col at he
  rw [List.getD_eq_getElem _ _ hp, List.getD_eq_getElem _ _ hq] at he
  exact (List.Nodup.getElem_inj_iff h.nodup).mp he

/-! ## What the parts are -/

theorem mem_arrowCols {sel : Sel} {q : Nat} :
    q ∈ arrowCols sel ↔ q < sel.out.length ∧ sel.rawAt q = none := by
  unfold arrowCols
  rw [List.mem_filter, List.mem_range, Option.isNone_iff_eq_none]

/-- A part is one zero-copy column, or some Arrow columns with the projection of them. -/
theorem split_cases {set : FileSet} {sel : Sel} {k : Nat} {part : Part}
    (h : part ∈ split set sel k) :
    (∃ q rt, part = ⟨[q], [], [], []⟩ ∧ q < sel.out.length ∧ sel.rawAt q = some rt) ∨
      ∃ outs, outs ≠ [] ∧ part = arrowPart set sel outs ∧ outs.Nodup ∧
        ∀ q ∈ outs, q < sel.out.length ∧ sel.rawAt q = none := by
  have hraw : part ∈ rawParts sel →
      ∃ q rt, part = ⟨[q], [], [], []⟩ ∧ q < sel.out.length ∧ sel.rawAt q = some rt := by
    intro h
    unfold rawParts at h
    simp only [List.mem_map, List.mem_filter, List.mem_range] at h
    obtain ⟨q, ⟨hq, hsome⟩, rfl⟩ := h
    obtain ⟨rt, hrt⟩ := Option.isSome_iff_exists.mp hsome
    exact ⟨q, rt, rfl, hq, hrt⟩
  unfold split at h
  split at h
  · exact Or.inl (hraw h)
  · rcases List.mem_append.mp h with h | h
    · exact Or.inl (hraw h)
    · right
      unfold arrowParts at h
      simp only [List.mem_filterMap, List.mem_map, List.mem_range] at h
      obtain ⟨outs, ⟨j, _, hj⟩, hpart⟩ := h
      split at hpart
      · cases hpart
      rename_i hne
      cases hpart
      have hsub : ∀ q ∈ outs, q ∈ arrowCols sel := by
        intro q hq
        rw [← hj] at hq
        exact List.mem_of_mem_take (List.mem_of_mem_drop hq)
      have hnd : outs.Nodup := by
        rw [← hj]
        exact ((List.nodup_range.filter _).sublist (List.take_sublist _ _)).sublist
          (List.drop_sublist _ _)
      exact ⟨outs, hne, rfl, hnd, fun q hq => mem_arrowCols.mp (hsub q hq)⟩

/-- The positions of a part. -/
def Part.positions (part : Part) : List Nat := part.raw ++ part.outs

/-- The Arrow parts are the Arrow columns, cut. -/
theorem arrowParts_flat (set : FileSet) (sel : Sel) (k : Nat) :
    (arrowParts set sel k).flatMap Part.positions = arrowCols sel := by
  have hparts : ∀ L : List (List Nat), (L.filterMap fun outs =>
      if outs = [] then none else some (arrowPart set sel outs)).flatMap Part.positions =
        L.flatten := by
    intro L
    induction L with
    | nil => rfl
    | cons outs L ih =>
      rw [List.filterMap_cons, List.flatten_cons]
      by_cases h : outs = []
      · rw [h]
        exact ih
      · simp only [h, if_false, List.flatMap_cons, ih]
        rfl
  unfold arrowParts
  dsimp only
  rw [hparts, ← List.flatMap_def]
  have hk : 0 < max 1 (min k (arrowCols sel).length) := by omega
  have hcuts : ∀ j, j * (arrowCols sel).length / max 1 (min k (arrowCols sel).length) ≤
      (j + 1) * (arrowCols sel).length / max 1 (min k (arrowCols sel).length) := by
    intro j
    exact Nat.div_le_div_right (Nat.mul_le_mul_right _ (Nat.le_succ j))
  rw [flatMap_slices (arrowCols sel)
    (b := fun j => j * (arrowCols sel).length / max 1 (min k (arrowCols sel).length)) hcuts]
  simp only [Nat.zero_mul, Nat.zero_div, Nat.mul_div_cancel_left _ hk]
  unfold slice
  rw [List.take_length, List.drop_zero]

/-- The parts are the result positions, each one in one part. -/
theorem split_flat (set : FileSet) (sel : Sel) (k : Nat) :
    ((split set sel k).flatMap Part.positions).Nodup ∧
      ∀ q < sel.out.length, q ∈ (split set sel k).flatMap Part.positions := by
  have hraw : (rawParts sel).flatMap Part.positions =
      (List.range sel.out.length).filter fun q => (sel.rawAt q).isSome := by
    unfold rawParts
    rw [List.flatMap_map]
    exact List.flatMap_singleton' _
  have hflat : (split set sel k).flatMap Part.positions =
      ((List.range sel.out.length).filter fun q => (sel.rawAt q).isSome) ++ arrowCols sel := by
    unfold split
    split
    · rename_i h
      rw [hraw, h, List.append_nil]
    · rw [List.flatMap_append, hraw, arrowParts_flat]
  rw [hflat]
  constructor
  · rw [List.nodup_append]
    refine ⟨List.nodup_range.filter _, List.nodup_range.filter _, fun a ha b hb he => ?_⟩
    rw [← he, mem_arrowCols] at hb
    rw [List.mem_filter, hb.2] at ha
    cases ha.2
  · intro q hq
    rw [List.mem_append]
    rcases h : sel.rawAt q with _ | rt
    · exact Or.inr (mem_arrowCols.mpr ⟨hq, h⟩)
    · left
      rw [List.mem_filter, h]
      exact ⟨List.mem_range.mpr hq, rfl⟩

end parquet_interop.read
