-- The encodings of a written table: the writer properties hold those of each column
-- under its name, and the encoding of an integral column comes from a sample of its
-- rows, which says of the column no more than is true of it.
import ParquetInterop.Lib.Sampling
import ParquetInterop.RoundTrip

open lib
open parquet_interop.ffi parquet_interop.footer

namespace parquet_interop.write

/-! ## The writer properties -/

inductive Encoding where
  | PLAIN
  | PLAIN_DICTIONARY
  | RLE
  | DELTA_BINARY_PACKED
  | RLE_DICTIONARY
  deriving DecidableEq

/-- The builder of the writer properties in the crate, with states `B`: what the writer sets of it,
from the dictionary of every column on, and what the properties that it builds say of the column of a
name. A call that panics has no result. -/
structure PropsBuilder (B : Type) where
  builder : Bool → B
  setColumnDictionaryEnabled : B → String → Bool → B
  setColumnEncoding : B → String → Encoding → Option B
  dictionaryEnabled : B → String → Bool
  encoding : B → String → Option Encoding

/-- What the crate documents. What is set of a column is said of that column, and nothing else is; an
encoding that names a dictionary is not taken. -/
structure PropsBuilder.Lawful {B : Type} (P : PropsBuilder B) : Prop where
  builder : ∀ dict p, P.dictionaryEnabled (P.builder dict) p = dict ∧ P.encoding (P.builder dict) p = none
  dictionary : ∀ b p v q, P.dictionaryEnabled (P.setColumnDictionaryEnabled b p v) q =
      (if q = p then v else P.dictionaryEnabled b q) ∧
    P.encoding (P.setColumnDictionaryEnabled b p v) q = P.encoding b q
  named : ∀ b p e, e ≠ .PLAIN_DICTIONARY → e ≠ .RLE_DICTIONARY →
    ∃ b', P.setColumnEncoding b p e = some b' ∧ ∀ q,
      P.encoding b' q = (if q = p then some e else P.encoding b q) ∧
      P.dictionaryEnabled b' q = P.dictionaryEnabled b q
  refused : ∀ b p e, e = .PLAIN_DICTIONARY ∨ e = .RLE_DICTIONARY → P.setColumnEncoding b p e = none

section
variable {B : Type} (P : PropsBuilder B)

def setEnc (b : B) (name : String) (e : Enc) : Option B :=
  match e with
  | .Dict => some (P.setColumnDictionaryEnabled b name true)
  | .Plain => P.setColumnEncoding (P.setColumnDictionaryEnabled b name false) name .PLAIN
  | .Delta => P.setColumnEncoding (P.setColumnDictionaryEnabled b name false) name .DELTA_BINARY_PACKED
  | .Rle => P.setColumnEncoding (P.setColumnDictionaryEnabled b name false) name .RLE

/-- The properties of a file, as the loop over the columns leaves them. -/
def propsOf (o : Opts) (columns : List Checked) : Option B :=
  columns.foldlM (fun b k => setEnc P b k.wf.name k.enc) (P.builder o.dict)

/-- What the properties say of a column. -/
def PropsBuilder.tells (b : B) (p : String) : Bool × Option Encoding :=
  (P.dictionaryEnabled b p, P.encoding b p)

end

/-- What an encoding asks for: a dictionary or not, and the encoding by name. -/
def Enc.asks : Enc → Bool × Option Encoding
  | .Dict => (true, none)
  | .Plain => (false, some .PLAIN)
  | .Delta => (false, some .DELTA_BINARY_PACKED)
  | .Rle => (false, some .RLE)

/-- The physical types that the crate documents for the Arrow types of the writer. -/
structure StoredAs (phys : DataType → Option PhysType) : Prop where
  boolean : phys .boolean = some .BOOLEAN
  int32 : ∀ dt ∈ [DataType.uint8, .int16, .int32, .date32, .time32 .millisecond], phys dt = some .INT32
  int64 : ∀ dt ∈ [DataType.int64, .timestamp .nanosecond none, .duration .nanosecond],
    phys dt = some .INT64
  float : phys .float32 = some .FLOAT
  double : phys .float64 = some .DOUBLE
  byteArray : ∀ dt ∈ [DataType.utf8, .dictionary .int32 .utf8], phys dt = some .BYTE_ARRAY

/-- The physical types that an encoding is defined for. -/
def Enc.takes : Enc → PhysType → Bool
  | .Plain, _ => true
  | .Delta, pt => pt == .INT32 || pt == .INT64
  | .Dict, pt => pt != .BOOLEAN
  | .Rle, pt => pt == .BOOLEAN

/-! ## One column -/

section
variable {B : Type} {P : PropsBuilder B}

/-- A column that no encoding was named for takes its own, and the other columns keep theirs. -/
theorem setEnc_tells (hP : P.Lawful) {b : B} {name : String} (e : Enc)
    (hnew : P.encoding b name = none) :
    ∃ b', setEnc P b name e = some b' ∧ P.tells b' name = e.asks ∧
      ∀ q, q ≠ name → P.tells b' q = P.tells b q := by
  have hnamed : ∀ e' : Encoding, e' ≠ .PLAIN_DICTIONARY → e' ≠ .RLE_DICTIONARY →
      ∃ b', P.setColumnEncoding (P.setColumnDictionaryEnabled b name false) name e' = some b' ∧
        P.tells b' name = (false, some e') ∧ ∀ q, q ≠ name → P.tells b' q = P.tells b q := by
    intro e' hplain hrle
    obtain ⟨b', hb', hsay⟩ := hP.named (P.setColumnDictionaryEnabled b name false) name e' hplain hrle
    refine ⟨b', hb', ?_, fun q hq => ?_⟩ <;> unfold PropsBuilder.tells
    · rw [(hsay name).1, (hsay name).2, (hP.dictionary b name false name).1, if_pos rfl, if_pos rfl]
    · rw [(hsay q).1, (hsay q).2, (hP.dictionary b name false q).1, (hP.dictionary b name false q).2,
        if_neg hq, if_neg hq]
  cases e with
  | Dict =>
    refine ⟨_, rfl, ?_, fun q hq => ?_⟩ <;> unfold PropsBuilder.tells
    · rw [(hP.dictionary b name true name).1, (hP.dictionary b name true name).2, if_pos rfl, hnew]
      rfl
    · rw [(hP.dictionary b name true q).1, (hP.dictionary b name true q).2, if_neg hq]
  | Plain => exact hnamed .PLAIN nofun nofun
  | Delta => exact hnamed .DELTA_BINARY_PACKED nofun nofun
  | Rle => exact hnamed .RLE nofun nofun

/-! ## The loop over the columns -/

/-- The columns have names of their own, so that none overwrites what another one set. -/
theorem columns_tell (hP : P.Lawful) {columns : List Checked} (hnd : (columns.map (·.wf.name)).Nodup)
    {b : B} (hnew : ∀ k ∈ columns, P.encoding b k.wf.name = none) :
    ∃ b', columns.foldlM (fun b k => setEnc P b k.wf.name k.enc) b = some b' ∧
      (∀ k ∈ columns, P.tells b' k.wf.name = k.enc.asks) ∧
      ∀ q, q ∉ columns.map (·.wf.name) → P.tells b' q = P.tells b q := by
  induction columns generalizing b with
  | nil => exact ⟨b, rfl, by simp, fun _ _ => rfl⟩
  | cons k columns ih =>
    rw [List.map_cons, List.nodup_cons] at hnd
    obtain ⟨b1, hset, htells, hkeep⟩ := setEnc_tells hP k.enc (hnew k List.mem_cons_self)
    obtain ⟨b2, hfold, hall, hrest⟩ := @ih hnd.2 b1 (by
      intro k' hk'
      have hne : k'.wf.name ≠ k.wf.name := fun heq => hnd.1 (heq ▸ List.mem_map_of_mem hk')
      have hsame : P.encoding b1 k'.wf.name = P.encoding b k'.wf.name :=
        congrArg Prod.snd (hkeep _ hne)
      rw [hsame]
      exact hnew k' (List.mem_cons_of_mem _ hk'))
    refine ⟨b2, ?_, ?_, ?_⟩
    · rw [List.foldlM_cons, hset]
      exact hfold
    · intro k' hk'
      rcases List.mem_cons.mp hk' with rfl | hk'
      · rw [hrest _ hnd.1, htells]
      · exact hall k' hk'
    · intro q hq
      rw [List.map_cons, List.mem_cons, not_or] at hq
      rw [hrest q hq.2, hkeep q hq.1]

end

/-- What the checks found of a column. -/
structure CheckedOf (o : Opts) (nrows : Nat) (x : Sym × LVec) (k : Checked) : Prop where
  name : toStr x.1 = some k.wf.name
  even : x.2.len = nrows
  type : arrowType x.2.lt true = .ok k.wf.data_type
  enc : k.enc = pick x.2 nrows o

theorem prepare_checked {o : Opts} {nrows : Nat} {seen : List String} {rest : List (Sym × LVec)}
    {columns : List Checked} (h : prepare o nrows seen rest = .ok columns) :
    List.Forall₂ (CheckedOf o nrows) rest columns ∧ (columns.map (·.wf.name)).Nodup ∧
      ∀ k ∈ columns, k.wf.name ∉ seen := by
  induction rest generalizing seen columns with
  | nil =>
    cases h
    exact ⟨.nil, List.nodup_nil, by simp⟩
  | cons x rest ih =>
    obtain ⟨name, col⟩ := x
    rw [prepare] at h
    cases hnm : toStr name with
    | none => simp [hnm] at h
    | some nm =>
      obtain ⟨w, hw⟩ := arrowType_ok col true
      obtain ⟨m, hm⟩ := arrowType_ok col false
      simp only [hnm, hw, hm] at h
      split at h
      · cases h
      · rename_i hseen
        split at h
        · cases h
        · rename_i hlen
          rw [not_not] at hlen
          cases hrest : prepare o nrows (nm :: seen) rest with
          | error e =>
            rw [hrest] at h
            cases h
          | ok columns =>
            rw [hrest] at h
            cases h
            obtain ⟨hall, hnd, hnot⟩ := ih hrest
            refine ⟨.cons ⟨hnm, hlen, hw, rfl⟩ hall, ?_, ?_⟩
            · rw [List.map_cons, List.nodup_cons]
              refine ⟨?_, hnd⟩
              intro hmem
              obtain ⟨k, hk, heq⟩ := List.mem_map.mp hmem
              exact hnot k hk (heq ▸ List.mem_cons_self)
            · intro k hk
              rcases List.mem_cons.mp hk with rfl | hk
              · exact hseen
              · exact fun hmem => hnot k hk (List.mem_cons_of_mem _ hmem)

/-! ## The sample -/

/-- The columns that are sampled: integers and times. -/
def LVec.integral : LVec → Bool
  | .KG _ | .KH _ | .KI _ | .KJ _ | .KD _ | .KT _ | .KP _ | .KN _ => true
  | _ => false

/-- The integer of an element, and none for a null. -/
def intOf : Cell → Option Int
  | .g x => some (Int.ofNat x.toNat)
  | .h x => if x = NH then none else some x.toInt
  | .i x => if x = NI then none else some x.toInt
  | .j x => if x = NJ then none else some x.toInt
  | _ => none

/-- The values of a column, without the nulls. -/
def LVec.values (col : LVec) : List Int := col.cells.filterMap intOf

/-- The values that `pick_int` looks at. -/
def sampled (col : LVec) : List Int := (sampling.rows SAMPLE col.len).filterMap (probe col)

/-- The values ascend, or they descend. -/
def Ordered (v : List Int) : Prop := v.Pairwise (· ≤ ·) ∨ v.Pairwise (· ≥ ·)

theorem Ordered.sublist {v w : List Int} (h : Ordered w) (hsub : v.Sublist w) : Ordered v :=
  h.imp (·.sublist hsub) (·.sublist hsub)

theorem probe_cells {col : LVec} (h : col.integral = true) (i : Nat) :
    probe col i = col.cells[i]?.bind intOf := by
  cases col with
  | KB xs | KE xs | KF xs | KS xs => cases h
  | KG xs | KH xs | KI xs | KJ xs | KD xs | KT xs | KP xs | KN xs =>
    simp only [probe, LVec.cells, List.getElem?_map]
    cases xs[i]? <;> rfl

theorem probed_all {col : LVec} (h : col.integral = true) :
    (List.range col.len).filterMap (probe col) = col.values := by
  have hget : (List.range col.len).map (col.cells[·]?) = col.cells.map some := by
    apply List.ext_getElem
    · simp [LVec.len]
    · intro i _ hi
      rw [List.length_map] at hi
      simp [hi]
  calc (List.range col.len).filterMap (probe col)
      = ((List.range col.len).map (col.cells[·]?)).filterMap (·.bind intOf) := by
        rw [List.filterMap_map]
        exact List.filterMap_congr fun i _ => probe_cells h i
    _ = col.values := by
        rw [hget, List.filterMap_map]
        rfl

/-- The sample is a part of the values of the column, in its order. -/
theorem sampled_sublist {col : LVec} (h : col.integral = true) : (sampled col).Sublist col.values :=
  probed_all h ▸ (sampling.rows_sublist SAMPLE col.len).filterMap (probe col)

/-- A short column is sampled whole. -/
theorem sampled_all {col : LVec} (h : col.integral = true) (hn : col.len ≤ SAMPLE) :
    sampled col = col.values := by
  rw [sampled, sampling.rows_all hn, probed_all h]

theorem sampled_length_le (col : LVec) : (sampled col).length ≤ min SAMPLE col.len := by
  have hlen := List.length_filterMap_le (probe col) (sampling.rows SAMPLE col.len)
  simpa [sampled, sampling.rows] using hlen

/-- A column without nulls is probed at every row of the sample. -/
theorem sampled_full {col : LVec} (h : col.integral = true) (hfull : none ∉ col.cells.map intOf) :
    (sampled col).length = min SAMPLE col.len := by
  have hsome : ∀ r ∈ sampling.rows SAMPLE col.len, (probe col r).isSome = true := by
    intro r hr
    have hlt : r < col.cells.length := sampling.rows_lt hr
    rw [probe_cells h, List.getElem?_eq_getElem hlt, Option.bind_some, Option.isSome_iff_ne_none]
    intro hnone
    exact hfull (hnone ▸ List.mem_map_of_mem (List.getElem_mem hlt))
  have hlen : (sampled col).length = (sampling.rows SAMPLE col.len).length := by
    rw [sampled, List.filterMap_length_eq_length.mpr hsome]
  simpa [sampling.rows] using hlen

/-! ## The choice -/

/-- The sample shows few values: it is the column, or its values collide often. -/
def Few (col : LVec) : Prop :=
  col.len ≤ SAMPLE ∨ (sampled col).length * (sampled col).length <
    2 * DICT_CARD * ((sampled col).length - (sampled col).eraseDups.length)

/-- What `pick_int` chooses, by the sample. -/
inductive Picked (col : LVec) (dict : Bool) : Enc → Prop
  | short : (sampled col).length < 2 → Picked col dict .Plain
  | ordered : 2 ≤ (sampled col).length → Ordered (sampled col) → Picked col dict .Delta
  | few : 2 ≤ (sampled col).length → ¬ Ordered (sampled col) → Few col →
      Picked col dict (if dict then .Dict else .Delta)
  | many : 2 ≤ (sampled col).length → ¬ Ordered (sampled col) → ¬ Few col → Picked col dict .Plain

/-- The estimate is below the threshold when the sample shows few values. -/
theorem card_few {col : LVec} : (if min SAMPLE col.len = col.len then (sampled col).eraseDups.length
    else if (sampled col).eraseDups.length = (sampled col).length then 2 ^ 64 - 1
    else (sampled col).length * (sampled col).length /
      (2 * ((sampled col).length - (sampled col).eraseDups.length))) < DICT_CARD ↔ Few col := by
  have hle := sampled_length_le col
  have hd := firstseen.length_eraseDups_le (sampled col)
  unfold Few
  split
  · simp only [SAMPLE, DICT_CARD] at *
    omega
  · rename_i hlong
    have hnot : ¬ col.len ≤ SAMPLE := by omega
    rw [or_iff_right hnot]
    split
    · rename_i heq
      simp [heq, DICT_CARD]
    · exact sampling.estimate_lt (by omega)

theorem pickInt_picked (col : LVec) (dict : Bool) : Picked col dict (pickInt col col.len dict) := by
  have hv : ((List.range (min SAMPLE col.len)).filterMap fun i =>
      probe col (i * max (col.len / min SAMPLE col.len) 1)) = sampled col := by
    rw [sampled, sampling.rows, List.filterMap_map]
    rfl
  unfold pickInt
  split
  · have hle := sampled_length_le col
    exact .short (by omega)
  · simp only [hv]
    split
    · exact .short ‹_›
    · rename_i hlen
      rw [Nat.not_lt] at hlen
      have hasc := sampling.neighbours_iff (r := (· ≤ ·)) (sampled col)
      have hdesc := sampling.neighbours_iff (r := (· ≥ ·)) (sampled col)
      split
      · rename_i h
        rw [Bool.or_eq_true] at h
        exact .ordered hlen (h.imp hasc.mp hdesc.mp)
      · rename_i h
        rw [Bool.or_eq_true] at h
        replace h : ¬ Ordered (sampled col) := fun hord => h (hord.imp hasc.mpr hdesc.mpr)
        by_cases hfew : Few col
        · rw [if_pos (card_few.mpr hfew)]
          exact .few hlen h hfew
        · rw [if_neg (mt card_few.mp hfew)]
          exact .many hlen h hfew

theorem pick_picked {col : LVec} (h : col.integral = true) (o : Opts) :
    Picked col o.dict (pick col col.len o) := by
  have hpick : pick col col.len o = pickInt col col.len o.dict := by
    cases col <;> first | rfl | cases h
  rw [hpick]
  exact pickInt_picked col o.dict

/-- A column that repeats few enough values shows it in its sample. -/
theorem few_of_distinct {col : LVec} (h : col.integral = true)
    (hfew : (sampled col).length * (sampled col).length <
      2 * DICT_CARD * ((sampled col).length - col.values.eraseDups.length)) : Few col := by
  have hd := sampling.distinct_le (sampled_sublist h)
  refine .inr (Nat.lt_of_lt_of_le hfew (Nat.mul_le_mul_left _ ?_))
  omega

/-! ## The types -/

/-- No encoding is chosen for a type that it is not defined for, and none is a dictionary when the
options have none. -/
theorem pick_takes {phys : DataType → Option PhysType} (hphys : StoredAs phys) (col : LVec) (o : Opts) :
    ∃ dt pt, arrowType col.lt true = .ok dt ∧ phys dt = some pt ∧ (pick col col.len o).takes pt = true ∧
      (o.dict = false → pick col col.len o ≠ .Dict) := by
  have hint : col.integral = true → ∀ pt, (pt = .INT32 ∨ pt = .INT64) →
      (pick col col.len o).takes pt = true ∧ (o.dict = false → pick col col.len o ≠ .Dict) := by
    intro h pt hpt
    have hp := pick_picked h o
    generalize pick col col.len o = e at hp
    cases hp <;> rcases hpt with rfl | rfl <;> cases o.dict <;> simp [Enc.takes]
  cases col with
  | KB xs => exact ⟨_, .BOOLEAN, rfl, hphys.boolean, rfl, fun _ => nofun⟩
  | KE xs => exact ⟨_, .FLOAT, rfl, hphys.float, rfl, fun _ => nofun⟩
  | KF xs => exact ⟨_, .DOUBLE, rfl, hphys.double, rfl, fun _ => nofun⟩
  | KS xs =>
    refine ⟨_, .BYTE_ARRAY, rfl, hphys.byteArray _ (by simp), ?_, ?_⟩ <;> simp only [pick] <;>
      cases o.dict <;> simp [Enc.takes]
  | KG xs | KH xs | KI xs | KD xs | KT xs =>
    exact ⟨_, .INT32, rfl, hphys.int32 _ (by simp), hint rfl _ (.inl rfl)⟩
  | KJ xs | KP xs | KN xs => exact ⟨_, .INT64, rfl, hphys.int64 _ (by simp), hint rfl _ (.inr rfl)⟩

/-! ## The laws -/

/-- `pick_int` reads rows of the column only, in their order, and what it chooses is true of the
column: a column in order takes DELTA, a dictionary is for a column that is not in order (and that
repeats a value, when the sample is not all of it), and PLAIN is for what shows too many values. So a
column of at most `SAMPLE` rows is not PLAIN when it has two values, nor is one of two rows or more
with no null and 7679 distinct values or fewer. -/
theorem the_sample_speaks_for_the_column {col : LVec} (h : col.integral = true) (o : Opts) :
    (∀ r ∈ sampling.rows SAMPLE col.len, r < col.len) ∧ (sampled col).Sublist col.values ∧
      (col.len ≤ SAMPLE → sampled col = col.values) ∧
      (none ∉ col.cells.map intOf → (sampled col).length = min SAMPLE col.len) ∧
      (2 ≤ (sampled col).length → Ordered col.values → pick col col.len o = .Delta) ∧
      (pick col col.len o = .Dict → o.dict = true ∧ ¬ Ordered col.values ∧
        (SAMPLE < col.len → ¬ col.values.Nodup)) ∧
      (2 ≤ (sampled col).length →
        (col.len ≤ SAMPLE ∨ (sampled col).length * (sampled col).length <
          2 * DICT_CARD * ((sampled col).length - col.values.eraseDups.length)) →
        pick col col.len o ≠ .Plain) ∧
      (none ∉ col.cells.map intOf → 2 ≤ col.len → col.values.eraseDups.length ≤ 7679 →
        pick col col.len o ≠ .Plain) := by
  have hsub := sampled_sublist h
  have hp := pick_picked h o
  have hplain : 2 ≤ (sampled col).length → Few col → pick col col.len o ≠ .Plain := by
    intro hlen hfew hplain
    rw [hplain] at hp
    generalize he : Enc.Plain = e at hp
    cases hp with
    | short hshort => omega
    | ordered => cases he
    | few => cases hd : o.dict <;> simp [hd] at he
    | many _ _ hmany => exact hmany hfew
  refine ⟨fun r => sampling.rows_lt, hsub, sampled_all h, sampled_full h, ?_, ?_, ?_, ?_⟩
  · intro hlen hord
    generalize pick col col.len o = e at hp
    cases hp with
    | short hshort => omega
    | ordered => rfl
    | few _ hnot => exact absurd (hord.sublist hsub) hnot
    | many _ hnot => exact absurd (hord.sublist hsub) hnot
  · intro hdict
    rw [hdict] at hp
    generalize he : Enc.Dict = e at hp
    cases hp with
    | short | ordered | many => cases he
    | few _ hnot hfew =>
      refine ⟨?_, fun hord => hnot (hord.sublist hsub), ?_⟩
      · cases hd : o.dict
        · rw [hd] at he
          cases he
        · rfl
      · intro hlong hnd
        rcases hfew with hshort | hfew
        · omega
        · rw [firstseen.eraseDups_of_nodup (hnd.sublist hsub)] at hfew
          simp at hfew
  · exact fun hlen hdistinct => hplain hlen (hdistinct.elim .inl (few_of_distinct h))
  · intro hfull hlen hdistinct
    have hsample := sampled_full h hfull
    refine hplain (by rw [hsample]; simp only [SAMPLE]; omega) ?_
    by_cases hshort : col.len ≤ SAMPLE
    · exact .inl hshort
    · -- The sample has `SAMPLE` values, of which 513 are there a second time.
      apply few_of_distinct h
      have hlong : (sampled col).length = 8192 := by
        rw [hsample, Nat.min_eq_left (Nat.le_of_not_le hshort)]
        rfl
      rw [hlong]
      simp only [DICT_CARD]
      omega

theorem a_value_that_comes_back_takes_a_dictionary :
    pick (.KJ [1, 5, 1]) 3 .default = .Dict ∧ ¬ Ordered (LVec.KJ [1, 5, 1]).values := by
  have hdict : pick (.KJ [1, 5, 1]) 3 .default = .Dict := by decide +kernel
  have hspeaks := @the_sample_speaks_for_the_column (.KJ [1, 5, 1]) rfl .default
  exact ⟨hdict, (hspeaks.2.2.2.2.2.1 hdict).2.1⟩

/-- The properties of a file that is written say of every column what its own encoding asks for,
whatever the other columns ask for: an encoding that is defined for the type of the column, and a
dictionary only when the options have it. No column has the crate panic. -/
theorem each_column_is_written_in_its_encoding {B : Type} {P : PropsBuilder B} (hP : P.Lawful)
    {phys : DataType → Option PhysType} (hphys : StoredAs phys) {T : LTable} {o : Opts}
    {file : List (List write_queue.Chunk)} {w : Written} (h : writeTable T o file = .ok w) :
    ∃ b, propsOf P o w.columns = some b ∧ w.columns.length = T.cols.length ∧
      ∀ (c : Nat) (k : Checked) (v : LVec), w.columns[c]? = some k → T.cols[c]? = some v →
        ∃ pt, P.tells b k.wf.name = (pick v v.len o).asks ∧ phys k.wf.data_type = some pt ∧
          (pick v v.len o).takes pt = true ∧
          (o.dict = false → P.dictionaryEnabled b k.wf.name = false) := by
  obtain ⟨columns, hprep, hw⟩ : ∃ columns, prepare o T.nrows [] (T.names.zip T.cols) = .ok columns ∧
      w.columns = columns := by
    unfold writeTable at h
    cases hprep : prepare o T.nrows [] (T.names.zip T.cols) with
    | error e =>
      rw [hprep] at h
      cases h
    | ok columns =>
      rw [hprep] at h
      cases h
      exact ⟨columns, rfl, rfl⟩
  obtain ⟨hall, hnd, -⟩ := prepare_checked hprep
  obtain ⟨b, hb, htells, -⟩ := columns_tell hP hnd fun _ _ => (hP.builder o.dict _).2
  have hlen := hall.length_eq
  rw [List.length_zip, T.len_eq, Nat.min_self] at hlen
  refine ⟨b, hw ▸ hb, by rw [hw, T.len_eq, hlen], ?_⟩
  intro c k v hk hv
  rw [hw] at hk
  obtain ⟨hc, hkc⟩ := List.getElem?_eq_some_iff.mp hk
  obtain ⟨hcv, hvc⟩ := List.getElem?_eq_some_iff.mp hv
  have hof := hall.get (i := c) (by simpa [T.len_eq] using hlen ▸ hc) hc
  simp only [List.get_eq_getElem, List.getElem_zip, hvc, hkc] at hof
  obtain ⟨dt, pt, hdt, hpt, htakes, hdict⟩ := pick_takes hphys v o
  have henc : k.enc = pick v v.len o := by rw [hof.enc, ← hof.even]
  have htell : P.tells b k.wf.name = (pick v v.len o).asks := henc ▸ htells k (List.mem_of_getElem? hk)
  cases hdt.symm.trans hof.type
  refine ⟨pt, htell, hpt, htakes, ?_⟩
  intro hno
  have hnot := hdict hno
  have hfst : P.dictionaryEnabled b k.wf.name = (pick v v.len o).asks.1 := congrArg Prod.fst htell
  rw [hfst]
  generalize pick v v.len o = e at hnot
  cases e <;> first | rfl | exact absurd rfl hnot

/-- A builder that keeps for each column the last that was set of it. -/
def lastSet : PropsBuilder ((String → Bool) × (String → Option Encoding)) where
  builder dict := (fun _ => dict, fun _ => none)
  setColumnDictionaryEnabled b p v := (fun q => if q = p then v else b.1 q, b.2)
  setColumnEncoding b p e :=
    if e = .PLAIN_DICTIONARY ∨ e = .RLE_DICTIONARY then none
    else some (b.1, fun q => if q = p then some e else b.2 q)
  dictionaryEnabled b := b.1
  encoding b := b.2

theorem lastSet_lawful : lastSet.Lawful where
  builder _ _ := ⟨rfl, rfl⟩
  dictionary _ _ _ _ := ⟨rfl, rfl⟩
  named _ _ _ hplain hrle := ⟨_, if_neg (not_or.mpr ⟨hplain, hrle⟩), fun _ => ⟨rfl, rfl⟩⟩
  refused _ _ _ h := if_pos h

/-- The physical types, by the kind of their value. -/
def physByKind : DataType → Option PhysType
  | .boolean => some .BOOLEAN
  | .uint8 | .int16 | .int32 | .date32 | .time32 .millisecond => some .INT32
  | .int64 | .timestamp .nanosecond none | .duration .nanosecond => some .INT64
  | .float32 => some .FLOAT
  | .float64 => some .DOUBLE
  | .utf8 | .dictionary .int32 .utf8 => some .BYTE_ARRAY
  | _ => none

theorem physByKind_stored : StoredAs physByKind := by
  constructor
  case boolean | float | double => rfl
  all_goals simp [physByKind]

/-- A flag, and a count that comes back. -/
def flagAndCount : LTable where
  names := [intern [102], intern [110]]
  cols := [.KB [1, 0, 1], .KJ [1, 5, 1]]
  len_eq := rfl
  names_end := by decide
  cells_end v hv p hp := by
    rcases List.mem_cons.mp hv with rfl | hv
    · simp [LVec.cells] at hp
    · cases List.mem_singleton.mp hv
      simp [LVec.cells] at hp

theorem a_flag_and_a_count_are_written_in_two_encodings :
    ∃ w b, writeTable flagAndCount .default [] = .ok w ∧ propsOf lastSet .default w.columns = some b ∧
      lastSet.tells b "f" = (false, some .RLE) ∧ lastSet.tells b "n" = (true, none) := by
  obtain ⟨w, hw⟩ : ∃ w, writeTable flagAndCount .default [] = .ok w := ⟨_, rfl⟩
  obtain ⟨b, hb, _, htells⟩ := each_column_is_written_in_its_encoding lastSet_lawful physByKind_stored hw
  refine ⟨w, b, hw, hb, ?_, ?_⟩
  · cases hw
    obtain ⟨_, htell, _⟩ := htells 0 _ _ rfl rfl
    exact htell
  · cases hw
    obtain ⟨_, htell, _⟩ := htells 1 _ _ rfl rfl
    rw [show pick (.KJ [1, 5, 1]) (LVec.KJ [1, 5, 1]).len .default = .Dict by decide +kernel] at htell
    exact htell

end parquet_interop.write
