-- `pq_meta`'s statistics: what the footer's bounds are stored as, what a
-- reported bound claims, and when the rows that a read delivers keep to it.
import ParquetInterop.Pairs

open parquet_interop.ffi parquet_interop.footer parquet_interop.native parquet_interop.read

namespace parquet_interop.stats

/-! ## The stores -/

/-- `put_null` over what the element held. -/
def putNull (lt : LType) (old : Cell) : Cell :=
  match lt with
  | .KB | .KG => .g 0
  | .KH => .h NH
  | .KI | .KD | .KT => .i NI
  | .KJ | .KP | .KN => .j NJ
  | .KE => .e F32.NAN
  | .KF => .f F64.NAN
  | .KS => .s (intern [])
  | _ => old

/-- `pick!`: the exact maximum (`hi`) or minimum. -/
def pick {T : Type} (s : ValueStatistics T) (hi : Bool) : Option T :=
  match hi with
  | true => if s.max_is_exact then s.max else none
  | false => if s.min_is_exact then s.min else none

/-- A raw temporal statistic in nanoseconds, unless it overflows. -/
def toNs (dt : DataType) (v : Int64) : Option Int64 :=
  match dt with
  | .timestamp u _ => checkedMul v (nsPer u)
  | .duration u => checkedMul v (nsPer u)
  | _ => none

/-- `put_stat` over what the element held. -/
def putStat (lt : LType) (dt : DataType) (old : Cell) (st : Statistics) (hi : Bool) : Cell :=
  match lt, st.bounds with
  | .KB, .boolean s => ((pick s hi).map fun v => .g (if v then 1 else 0)).getD old
  | .KG, .int32 s => ((pick s hi).map fun v => .g v.toUInt32.toUInt8).getD old
  | .KH, .int32 s => ((pick s hi).map fun v => .h v.toInt16).getD old
  | .KI, .int32 s | .KT, .int32 s => ((pick s hi).map .i).getD old
  | .KJ, .int64 s => ((pick s hi).map .j).getD old
  | .KE, .float s => ((pick s hi).map .e).getD old
  | .KF, .double s => ((pick s hi).map .f).getD old
  | .KS, .byteArray s => ((pick s hi).map fun v => .s (intern v)).getD old
  | .KD, .int32 s => (((pick s hi).bind (checkedSub32 · DAY2000)).map .i).getD old
  | .KP, .int64 s =>
    ((((pick s hi).bind (toNs dt)).bind (checkedSub · NS2000)).map .j).getD old
  | .KN, .int64 s => (((pick s hi).bind (toNs dt)).map .j).getD old
  | _, _ => old

/-- One extremum of one chunk, over what the element held. -/
def extremum (lt : LType) (dt : DataType) (old : Cell) (st : Option Statistics) (hi : Bool) : Cell :=
  match st with
  | some st => putStat lt dt (putNull lt old) st hi
  | none => putNull lt old

/-- One `min max null` dict. Each vector has an element for each global row group. -/
structure ColStats where
  mn : List Cell
  mx : List Cell
  nulls : List Int64

/-- The statistics of a column chunk. The chunk of column `c` is asked for as leaf `c`. -/
def statistics (rg : RowGroup) (c : Nat) : Option Statistics := (rg.columns[c]?).bind (·.statistics)

/-- The vector of one of the extrema of column `c`, scaled for each file by its own unit. The
vectors hold `old` when they are allocated. -/
def extrema (set : FileSet) (lt : LType) (c : Nat) (old : Cell) (hi : Bool) : List Cell :=
  set.srcs.flatMap fun s => s.md.row_groups.map fun rg =>
    extremum lt (typeAt s c) old (statistics rg c) hi

def nullCounts (set : FileSet) (c : Nat) : List Int64 :=
  set.srcs.flatMap fun s => s.md.row_groups.map fun rg =>
    (((statistics rg c).bind (·.null_count)).map fun v => v.toInt64).getD NJ

/-- `stats_of`. -/
def statsOf (set : FileSet) (lts : List LType) (old : Cell) : List ColStats :=
  lts.zipIdx.map fun (lt, c) =>
    ⟨extrema set lt c old false, extrema set lt c old true, nullCounts set c⟩

/-- The types of a set, when every column has one: `pq_meta` describes whole files. -/
def dictTypes (set : FileSet) : Except String (List LType) := set.lts.mapM id

/-! ## What a reported bound claims -/

/-- An element in the order of its L type. Bytes have no sign. -/
def num : Cell → Int
  | .g x => x.toNat
  | .h x => x.toInt
  | .i x => x.toInt
  | .j x => x.toInt
  | _ => 0

/-- A value in the order of its Parquet type. -/
def ofVal : Val → Int
  | .bool x => if x then 1 else 0
  | .i8 x => x.toInt
  | .u8 x => x.toNat
  | .i16 x => x.toInt
  | .i32 x => x.toInt
  | .i64 x => x.toInt
  | _ => 0

/-- `b` is on its side of `x`. -/
def Ordered (hi : Bool) (b x : Int) : Prop := if hi then x ≤ b else b ≤ x

/-- An element that is not the null of its type. A boolean and a byte have no null. -/
def Present (lt : LType) (x : Cell) : Prop := lt = .KB ∨ lt = .KG ∨ x ≠ nullCell lt

/-- The types whose bounds have an order that is looked at. -/
def Ranged (lt : LType) : Prop := lt ∈ [.KB, .KG, .KH, .KI, .KJ, .KD, .KT, .KP, .KN]

/-- The bound that is reported as `b` is a bound of the rows, as far as they are delivered as `xs`
and not as nulls. -/
def Brackets (lt : LType) (b : Cell) (hi : Bool) (rows : List (Option Val)) (xs : List Cell) : Prop :=
  Present lt b → ∀ (i : Nat) v x, rows[i]? = some (some v) → xs[i]? = some x → Present lt x →
    Ordered hi (num b) (num x)

/-! ## What the footer says -/

/-- A bound of an `INT32` column. `UINT_8` compares without a sign. -/
def ofInt32 (dt : DataType) (b : Int32) : Int := if dt = .uint8 then b.toUInt32.toNat else b.toInt

/-- The bound that is flagged exact, in the order of the Parquet type. -/
def exactBound (lt : LType) (dt : DataType) (st : Option Statistics) (hi : Bool) : Option Int :=
  match lt, st.map Statistics.bounds with
  | .KB, some (.boolean s) => (pick s hi).map fun b => if b then 1 else 0
  | .KG, some (.int32 s) | .KH, some (.int32 s) | .KI, some (.int32 s) | .KT, some (.int32 s)
  | .KD, some (.int32 s) => (pick s hi).map (ofInt32 dt)
  | .KJ, some (.int64 s) | .KP, some (.int64 s) | .KN, some (.int64 s) => (pick s hi).map (·.toInt)
  | _, _ => none

/-- A bound that is flagged exact is a bound of the rows. -/
def TrueBound (lt : LType) (dt : DataType) (st : Option Statistics) (hi : Bool)
    (rows : List (Option Val)) : Prop :=
  ∀ b, exactBound lt dt st hi = some b → ∀ v, some v ∈ rows → Ordered hi b (ofVal v)

/-- The bound is a value of its narrow type. -/
def InType : DataType → Int → Prop
  | .int8, b => -2 ^ 7 ≤ b ∧ b < 2 ^ 7
  | .uint8, b => 0 ≤ b ∧ b < 2 ^ 8
  | .int16, b => -2 ^ 15 ≤ b ∧ b < 2 ^ 15
  | _, _ => True

/-- When a reported bound is one. A boolean or a byte of which nothing exact is known is reported
as 0. The bytes of `INT_8` lose their sign. A bound that is no value of its type loses its high
bits, and holds only by chance. -/
def Fair (lt : LType) (dt : DataType) (st : Option Statistics) (hi : Bool)
    (rows : List (Option Val)) : Prop :=
  match lt, exactBound lt dt st hi with
  | .KB, none | .KG, none => hi = true → ∀ v, some v ∈ rows → ofVal v = 0
  | .KG, some b => (InType dt b ∧ (dt = .int8 → ∀ v, some v ∈ rows → (ofVal v < 0 ↔ b < 0))) ∨
      (¬InType dt b ∧ ∀ v, some v ∈ rows → Ordered hi (b % 2 ^ 8) (ofVal v % 2 ^ 8))
  | .KH, some b => InType dt b ∨ b.bmod (2 ^ 16) = -2 ^ 15 ∨
      ∀ v, some v ∈ rows → ofVal v ≠ -2 ^ 15 → Ordered hi (b.bmod (2 ^ 16)) (ofVal v)
  | _, _ => True

/-! ## Scales and epochs -/

theorem checkedSub32_toInt {a b w : Int32} (h : checkedSub32 a b = some w) :
    w.toInt = a.toInt - b.toInt := by
  unfold checkedSub32 at h
  dsimp only at h
  split at h
  · rename_i hfits
    cases h
    rw [Int32.toInt_ofInt, Int.bmod_eq_of_le (by simp only [Int32.size]; omega)
      (by simp only [Int32.size]; omega)]
  · cases h

theorem checkedSub_toInt {a b w : Int64} (h : checkedSub a b = some w) :
    w.toInt = a.toInt - b.toInt := by
  unfold checkedSub at h
  dsimp only at h
  split at h
  · rename_i hfits
    cases h
    rw [Int64.toInt_ofInt, Int.bmod_eq_of_le (by simp only [Int64.size]; omega)
      (by simp only [Int64.size]; omega)]
  · cases h

theorem checkedMul_toInt {a b w : Int64} (h : checkedMul a b = some w) :
    w.toInt = a.toInt * b.toInt := by
  unfold checkedMul at h
  dsimp only at h
  split at h
  · rename_i hfits
    cases h
    rw [Int64.toInt_ofInt, Int.bmod_eq_of_le (by simp only [Int64.size]; omega)
      (by simp only [Int64.size]; omega)]
  · cases h

/-- A day is delivered in days since 2000, if it is not the null. -/
theorem shiftDay_toInt {v : Int32} (h : shiftDay v ≠ NI) : (shiftDay v).toInt = v.toInt - 10957 := by
  unfold shiftDay at h ⊢
  split at h
  · exact absurd rfl h
  · rename_i hv
    rw [if_neg hv]
    have hfloor : (NI + DAY2000).toInt = -2147472691 := by decide
    have hday : DAY2000.toInt = 10957 := by decide
    rw [Int32.lt_iff_toInt_lt, hfloor] at hv
    have hmax := Int32.toInt_lt v
    rw [Int32.toInt_sub, hday, Int.bmod_eq_of_le (by omega) (by omega)]

theorem shiftNs_toInt {v : Int64} (h : shiftNs v ≠ NJ) :
    (shiftNs v).toInt = v.toInt - 946684800000000000 := by
  unfold shiftNs at h ⊢
  split at h
  · exact absurd rfl h
  · rename_i hv
    rw [if_neg hv]
    have hfloor : (NJ + NS2000).toInt = -8276687236854775808 := by decide
    have hns : NS2000.toInt = 946684800000000000 := by decide
    rw [Int64.lt_iff_toInt_lt, hfloor] at hv
    have hmax := Int64.toInt_lt v
    rw [Int64.toInt_sub, hns, Int.bmod_eq_of_le (by omega) (by omega)]

/-- The nanoseconds of one unit of a temporal column. -/
def scale : DataType → Int
  | .timestamp u _ | .duration u => (nsPer u).toInt
  | _ => 1

/-- What the epoch of an L type lies after 1970. -/
def epoch : LType → Int
  | .KD => 10957
  | .KP => 946684800000000000
  | _ => 0

theorem scale_pos (dt : DataType) : 0 < scale dt := by
  unfold scale
  split
  · rename_i u _
    cases u <;> decide
  · rename_i u
    cases u <;> decide
  · decide

/-- The types that keep every bit of a value. -/
def Wide (lt : LType) : Prop := lt ∈ [.KI, .KJ, .KD, .KT, .KP, .KN]

/-- A value of a wide type is delivered as it is scaled and shifted, if not as the null. -/
theorem delivered_num {lt : LType} {dt : DataType} (hlt : lTypeOf dt = .ok lt) (hwide : Wide lt)
    {v : Val} (hv : v.Of dt) (hx : cellOf lt dt v ≠ nullCell lt) :
    num (cellOf lt dt v) = ofVal v * scale dt - epoch lt := by
  cases dt with
  | int32 =>
    cases hlt
    cases v <;> first | exact hv.elim | skip
    simp [num, cellOf, ofVal, scale, epoch]
  | int64 =>
    cases hlt
    cases v <;> first | exact hv.elim | skip
    simp [num, cellOf, ofVal, scale, epoch]
  | date32 =>
    cases hlt
    cases v <;> first | exact hv.elim | skip
    rename_i x
    have hday : shiftDay x ≠ NI := fun h => hx (congrArg Cell.i h)
    have hnum := shiftDay_toInt hday
    simp only [num, cellOf, ofVal, scale, epoch, hnum, Int.mul_one]
  | time32 u =>
    cases u <;> cases hlt
    cases v <;> first | exact hv.elim | skip
    simp [num, cellOf, ofVal, scale, epoch]
  | timestamp u tz =>
    cases hlt
    cases v <;> first | exact hv.elim | skip
    rename_i x
    rcases hmul : checkedMul x (nsPer u) with _ | w
    · simp [cellOf, hmul, nullCell] at hx
    · have hns : shiftNs w ≠ NJ := fun h => hx (by simp [cellOf, hmul, nullCell, h])
      simp only [num, cellOf, hmul, Option.map_some, Option.getD_some, shiftNs_toInt hns,
        checkedMul_toInt hmul, ofVal, scale, epoch]
  | duration u =>
    cases hlt
    cases v <;> first | exact hv.elim | skip
    rename_i x
    rcases hmul : checkedMul x (nsPer u) with _ | w
    · simp [cellOf, hmul, nullCell] at hx
    · simp only [num, cellOf, hmul, Option.getD_some, checkedMul_toInt hmul, ofVal, scale, epoch,
        Int.sub_zero]
  | boolean | int8 | int16 | uint8 | float32 | float64 | utf8 | largeUtf8 | utf8View =>
    cases hlt
    exact absurd hwide (by simp [Wide])
  | dictionary k v' =>
    simp only [lTypeOf] at hlt
    split at hlt
    · cases hlt
      exact absurd hwide (by simp [Wide])
    · cases hlt
  | uint16 | uint32 | uint64 | other name => cases hlt

/-! ## Reported bounds -/

theorem putNull_null {lt : LType} (hlt : Ranged lt) (old : Cell) : putNull lt old = nullCell lt := by
  cases lt <;> first | rfl | simp [Ranged] at hlt

/-- Where nothing exact is known, the null is reported. -/
theorem reported_none {lt : LType} (hlt : Ranged lt) {dt : DataType} {st : Option Statistics}
    {hi : Bool} (h : exactBound lt dt st hi = none) (old : Cell) :
    extremum lt dt old st hi = nullCell lt := by
  rcases st with _ | ⟨nulls, bounds⟩
  · exact putNull_null hlt old
  · rw [← putNull_null hlt old]
    have hpick : ∀ {T U : Type} {o : Option T} {f : T → U}, o.map f = none → o = none := by
      intro T U o f ho
      exact Option.map_eq_none_iff.mp ho
    show putStat lt dt (putNull lt old) ⟨nulls, bounds⟩ hi = _
    generalize putNull lt old = fresh
    unfold exactBound at h
    unfold putStat
    cases lt <;> cases bounds <;> first
      | rfl
      | (dsimp only [Option.map_some] at h ⊢; rw [hpick h]; rfl)
      | simp [Ranged] at hlt

/-- An exact bound of a wide type is reported as it is scaled and shifted, if not as the null. -/
theorem reported_num {lt : LType} {dt : DataType} (hlt : lTypeOf dt = .ok lt) (hwide : Wide lt)
    {st : Option Statistics} {hi : Bool} {b : Int} (hb : exactBound lt dt st hi = some b)
    {old : Cell} (hx : extremum lt dt old st hi ≠ nullCell lt) :
    num (extremum lt dt old st hi) = b * scale dt - epoch lt := by
  have hranged : Ranged lt := List.Sublist.subset (by decide) hwide
  rcases st with _ | ⟨nulls, bounds⟩
  · exact absurd (putNull_null hranged old) hx
  change num (putStat lt dt (putNull lt old) ⟨nulls, bounds⟩ hi) = _
  change putStat lt dt (putNull lt old) ⟨nulls, bounds⟩ hi ≠ _ at hx
  rw [putNull_null hranged] at hx ⊢
  cases dt with
  | int32 =>
    cases hlt
    cases bounds <;> first | cases hb | skip
    rename_i s
    obtain ⟨v, hv, rfl⟩ := Option.map_eq_some_iff.mp hb
    simp [putStat, hv, num, ofInt32, scale, epoch]
  | int64 =>
    cases hlt
    cases bounds <;> first | cases hb | skip
    rename_i s
    obtain ⟨v, hv, rfl⟩ := Option.map_eq_some_iff.mp hb
    simp [putStat, hv, num, scale, epoch]
  | date32 =>
    cases hlt
    cases bounds <;> first | cases hb | skip
    rename_i s
    obtain ⟨v, hv, rfl⟩ := Option.map_eq_some_iff.mp hb
    rcases hsub : checkedSub32 v DAY2000 with _ | w
    · simp [putStat, hv, hsub] at hx
    · have hday : DAY2000.toInt = 10957 := by decide
      simp [putStat, hv, hsub, num, ofInt32, scale, epoch, checkedSub32_toInt hsub, hday]
  | time32 u =>
    cases u <;> cases hlt
    cases bounds <;> first | cases hb | skip
    rename_i s
    obtain ⟨v, hv, rfl⟩ := Option.map_eq_some_iff.mp hb
    simp [putStat, hv, num, ofInt32, scale, epoch]
  | timestamp u tz =>
    cases hlt
    cases bounds <;> first | cases hb | skip
    rename_i s
    obtain ⟨v, hv, rfl⟩ := Option.map_eq_some_iff.mp hb
    rcases hmul : checkedMul v (nsPer u) with _ | w
    · simp [putStat, hv, toNs, hmul] at hx
    · rcases hsub : checkedSub w NS2000 with _ | x
      · simp [putStat, hv, toNs, hmul, hsub] at hx
      · have hns : NS2000.toInt = 946684800000000000 := by decide
        simp [putStat, hv, toNs, hmul, hsub, num, scale, epoch, checkedSub_toInt hsub,
          checkedMul_toInt hmul, hns]
  | duration u =>
    cases hlt
    cases bounds <;> first | cases hb | skip
    rename_i s
    obtain ⟨v, hv, rfl⟩ := Option.map_eq_some_iff.mp hb
    rcases hmul : checkedMul v (nsPer u) with _ | w
    · simp [putStat, hv, toNs, hmul] at hx
    · simp [putStat, hv, toNs, hmul, num, scale, epoch, checkedMul_toInt hmul]
  | boolean | int8 | int16 | uint8 | float32 | float64 | utf8 | largeUtf8 | utf8View =>
    cases hlt
    exact absurd hwide (by simp [Wide])
  | dictionary k v' =>
    simp only [lTypeOf] at hlt
    split at hlt
    · cases hlt
      exact absurd hwide (by simp [Wide])
    · cases hlt
  | uint16 | uint32 | uint64 | other name => cases hlt

theorem reported_bool {dt : DataType} {st : Option Statistics} {hi : Bool} {b : Int}
    (h : exactBound .KB dt st hi = some b) {old : Cell} : num (extremum .KB dt old st hi) = b := by
  rcases st with _ | ⟨nulls, bounds⟩
  · cases h
  cases bounds <;> first | cases h | skip
  rename_i s
  obtain ⟨v, hv, rfl⟩ := Option.map_eq_some_iff.mp h
  cases v <;> simp [extremum, putStat, hv, num]

/-- A byte keeps the low bits of its bound. -/
theorem reported_byte {dt : DataType} {st : Option Statistics} {hi : Bool} {b : Int}
    (h : exactBound .KG dt st hi = some b) {old : Cell} :
    num (extremum .KG dt old st hi) = b % 2 ^ 8 := by
  rcases st with _ | ⟨nulls, bounds⟩
  · cases h
  cases bounds <;> first | cases h | skip
  rename_i s
  obtain ⟨v, hv, rfl⟩ := Option.map_eq_some_iff.mp h
  have hnat : num (extremum .KG dt old (some ⟨nulls, .int32 s⟩) hi) = v.toUInt32.toNat % 2 ^ 8 := by
    simp [extremum, putStat, hv, num]
  have hdvd : (2 ^ 8 : Int) ∣ (2 ^ 32 : Nat) := by decide
  rw [hnat]
  unfold ofInt32
  split
  · rfl
  · have hbmod : v.toInt = (v.toUInt32.toNat : Int).bmod (2 ^ 32) := BitVec.toInt_eq_toNat_bmod _
    rw [← Int.emod_emod_of_dvd v.toInt hdvd, hbmod, Int.bmod_emod, Int.emod_emod_of_dvd _ hdvd]

/-- A short keeps the low bits of its bound, with their sign. -/
theorem reported_short {st : Option Statistics} {hi : Bool} {b : Int}
    (h : exactBound .KH .int16 st hi = some b) {old : Cell} :
    ∃ x, extremum .KH .int16 old st hi = .h x ∧ x.toInt = b.bmod (2 ^ 16) := by
  rcases st with _ | ⟨nulls, bounds⟩
  · cases h
  cases bounds <;> first | cases h | skip
  rename_i s
  obtain ⟨v, hv, rfl⟩ := Option.map_eq_some_iff.mp h
  refine ⟨v.toInt16, ?_, ?_⟩
  · simp [extremum, putStat, hv]
  · exact Int32.toInt_toInt16 v

/-! ## A chunk -/

/-- The bound that is reported for a chunk bounds what its rows are delivered as. -/
def Holds (lt : LType) (dt : DataType) (old : Cell) (st : Option Statistics) (hi : Bool)
    (rows : List (Option Val)) : Prop :=
  Present lt (extremum lt dt old st hi) → ∀ v, some v ∈ rows → Present lt (cellOf lt dt v) →
    Ordered hi (num (extremum lt dt old st hi)) (num (cellOf lt dt v))

section
variable {lt : LType} {dt : DataType} {old : Cell} {st : Option Statistics} {hi : Bool}
variable {rows : List (Option Val)}

theorem ordered_scale {b x k e : Int} (hk : 0 < k) (h : Ordered hi b x) :
    Ordered hi (b * k - e) (x * k - e) := by
  unfold Ordered at h ⊢
  split
  · rename_i hhi
    rw [if_pos hhi] at h
    have := Int.mul_le_mul_of_nonneg_right h (Int.le_of_lt hk)
    omega
  · rename_i hhi
    rw [if_neg hhi] at h
    have := Int.mul_le_mul_of_nonneg_right h (Int.le_of_lt hk)
    omega

/-- Scaling and shifting keep the order, so a wide bound holds. -/
theorem wide_holds (hlt : lTypeOf dt = .ok lt) (hwide : Wide lt)
    (hrows : ∀ v, some v ∈ rows → v.Of dt) (htrue : TrueBound lt dt st hi rows) :
    Holds lt dt old st hi rows := by
  have hranged : Ranged lt := List.Sublist.subset (by decide) hwide
  have hthere : ∀ {x}, Present lt x → x ≠ nullCell lt := by
    rintro x (rfl | rfl | h)
    · exact absurd hwide (by simp [Wide])
    · exact absurd hwide (by simp [Wide])
    · exact h
  intro hb v hv hx
  rcases he : exactBound lt dt st hi with _ | b
  · exact absurd (reported_none hranged he old) (hthere hb)
  · rw [reported_num hlt hwide he (hthere hb), delivered_num hlt hwide (hrows v hv) (hthere hx)]
    exact ordered_scale (scale_pos dt) (htrue b he v hv)

/-- A boolean is one bit on both sides. -/
theorem bool_holds_iff (hrows : ∀ v, some v ∈ rows → v.Of .boolean)
    (htrue : TrueBound .KB .boolean st hi rows) :
    Holds .KB .boolean old st hi rows ↔ Fair .KB .boolean st hi rows := by
  have hnum : ∀ v, some v ∈ rows → num (cellOf .KB .boolean v) = ofVal v ∧ 0 ≤ ofVal v := by
    intro v hv
    have hof := hrows v hv
    cases v <;> first | exact hof.elim | skip
    rename_i x
    cases x <;> decide
  unfold Holds Fair
  rcases he : exactBound .KB .boolean st hi with _ | b
  · rw [reported_none (by simp [Ranged]) he old]
    refine ⟨fun h hhi v hv => ?_, fun h _ v hv _ => ?_⟩
    · have hle := h (.inl rfl) v hv (.inl rfl)
      obtain ⟨hcell, hpos⟩ := hnum v hv
      rw [hcell, Ordered, if_pos hhi] at hle
      have hzero : num (nullCell .KB) = 0 := rfl
      omega
    · obtain ⟨hcell, hpos⟩ := hnum v hv
      rw [hcell]
      unfold Ordered
      split
      · rename_i hhi
        exact Int.le_of_eq (h hhi v hv)
      · exact hpos
  · refine iff_of_true (fun _ v hv _ => ?_) trivial
    rw [reported_bool he, (hnum v hv).1]
    exact htrue b he v hv

theorem int8_byte (x : Int8) : (x.toUInt8.toNat : Int) = x.toInt % 2 ^ 8 := by
  have hbmod : x.toInt = (x.toUInt8.toNat : Int).bmod (2 ^ 8) := BitVec.toInt_eq_toNat_bmod _
  have hlt := UInt8.toNat_lt x.toUInt8
  rw [hbmod]
  have hmod : (x.toUInt8.toNat : Int).bmod (2 ^ 8) % (2 ^ 8 : Nat) = x.toUInt8.toNat % (2 ^ 8 : Nat) :=
    Int.bmod_emod
  omega

/-- What a byte is delivered as, and where its value lies. -/
theorem byte_num (hdt : dt = .int8 ∨ dt = .uint8) {v : Val} (hv : v.Of dt) :
    num (cellOf .KG dt v) = ofVal v % 2 ^ 8 ∧ InType dt (ofVal v) := by
  rcases hdt with rfl | rfl
  · cases v <;> first | exact hv.elim | skip
    rename_i x
    exact ⟨int8_byte x, Int8.le_toInt x, Int8.toInt_lt x⟩
  · cases v <;> first | exact hv.elim | skip
    rename_i x
    have hlt := UInt8.toNat_lt x
    refine ⟨?_, Int.natCast_nonneg _, ?_⟩
    · show (x.toNat : Int) = x.toNat % 2 ^ 8
      omega
    · show (x.toNat : Int) < 2 ^ 8
      omega

/-- In range, two bytes keep their order as long as both have one sign. -/
theorem ordered_bytes (hdt : dt = .int8 ∨ dt = .uint8) {b x : Int} (hb : InType dt b)
    (hx : InType dt x) (h : Ordered hi b x) :
    Ordered hi (b % 2 ^ 8) (x % 2 ^ 8) ↔ (dt = .int8 → (x < 0 ↔ b < 0)) := by
  unfold Ordered at h ⊢
  rcases hdt with rfl | rfl <;> simp only [InType] at hb hx <;> cases hi
  · simp only [Bool.false_eq_true, if_false, forall_const] at h ⊢
    omega
  · simp only [if_true, forall_const] at h ⊢
    omega
  · simp only [Bool.false_eq_true, if_false, reduceCtorEq, false_implies, iff_true] at h ⊢
    omega
  · simp only [if_true, reduceCtorEq, false_implies, iff_true] at h ⊢
    omega

theorem byte_holds_iff (hdt : dt = .int8 ∨ dt = .uint8) (hrows : ∀ v, some v ∈ rows → v.Of dt)
    (htrue : TrueBound .KG dt st hi rows) :
    Holds .KG dt old st hi rows ↔ Fair .KG dt st hi rows := by
  unfold Holds Fair
  rcases he : exactBound .KG dt st hi with _ | b
  · rw [reported_none (by simp [Ranged]) he old]
    have hzero : num (nullCell .KG) = 0 := rfl
    refine ⟨fun h hhi v hv => ?_, fun h _ v hv _ => ?_⟩
    · have hle := h (.inr (.inl rfl)) v hv (.inr (.inl rfl))
      obtain ⟨hcell, hin⟩ := byte_num hdt (hrows v hv)
      rw [hcell, Ordered, if_pos hhi, hzero] at hle
      rcases hdt with rfl | rfl <;> simp only [InType] at hin <;> omega
    · obtain ⟨hcell, _⟩ := byte_num hdt (hrows v hv)
      rw [hcell, hzero]
      unfold Ordered
      split
      · rename_i hhi
        rw [h hhi v hv]
        exact Int.le_refl 0
      · omega
  · dsimp only
    rw [reported_byte he]
    have hone : ∀ v, some v ∈ rows → InType dt b → (Ordered hi (b % 2 ^ 8) (num (cellOf .KG dt v)) ↔
        (dt = .int8 → (ofVal v < 0 ↔ b < 0))) := by
      intro v hv hb
      obtain ⟨hcell, hin⟩ := byte_num hdt (hrows v hv)
      rw [hcell]
      exact ordered_bytes hdt hb hin (htrue b he v hv)
    have hcell : ∀ v, some v ∈ rows → num (cellOf .KG dt v) = ofVal v % 2 ^ 8 := fun v hv =>
      (byte_num hdt (hrows v hv)).1
    refine ⟨fun h => ?_, fun h _ v hv _ => ?_⟩
    · by_cases hb : InType dt b
      · exact .inl ⟨hb, fun hint8 v hv =>
          (hone v hv hb).mp (h (.inr (.inl rfl)) v hv (.inr (.inl rfl))) hint8⟩
      · refine .inr ⟨hb, fun v hv => ?_⟩
        rw [← hcell v hv]
        exact h (.inr (.inl rfl)) v hv (.inr (.inl rfl))
    · rcases h with ⟨hb, h⟩ | ⟨_, h⟩
      · exact (hone v hv hb).mpr fun hint8 => h hint8 v hv
      · rw [hcell v hv]
        exact h v hv

theorem short_holds_iff (hrows : ∀ v, some v ∈ rows → v.Of .int16)
    (htrue : TrueBound .KH .int16 st hi rows) :
    Holds .KH .int16 old st hi rows ↔ Fair .KH .int16 st hi rows := by
  have hthere : ∀ {x : Int16}, Present .KH (.h x) ↔ x.toInt ≠ -2 ^ 15 := by
    intro x
    have hnull : NH.toInt = -2 ^ 15 := by decide
    have hx : Cell.h x ≠ nullCell .KH ↔ x ≠ NH := by simp [nullCell]
    simp only [Present, reduceCtorEq, false_or, hx]
    rw [← hnull, Ne, Ne, Int16.toInt_inj]
  have hrow : ∀ v, some v ∈ rows → ∃ x : Int16, cellOf .KH .int16 v = .h x ∧ x.toInt = ofVal v := by
    intro v hv
    have hof := hrows v hv
    cases v <;> first | exact hof.elim | skip
    exact ⟨_, rfl, rfl⟩
  unfold Holds Fair
  rcases he : exactBound .KH .int16 st hi with _ | b
  · rw [reported_none (by simp [Ranged]) he old]
    refine iff_of_true (fun h => ?_) trivial
    have hnull : NH.toInt = -2 ^ 15 := by decide
    exact absurd hnull (hthere.mp h)
  · dsimp only
    obtain ⟨y, hy, hlow⟩ := @reported_short st hi b he old
    have hin : InType .int16 b → b.bmod (2 ^ 16) = b := fun hb =>
      Int.bmod_eq_of_le (by simp only [InType] at hb; omega) (by simp only [InType] at hb; omega)
    rw [hy, hthere, hlow]
    refine ⟨fun h => ?_, fun h hnull v hv hx => ?_⟩
    · by_cases hnull : b.bmod (2 ^ 16) = -2 ^ 15
      · exact .inr (.inl hnull)
      · refine .inr (.inr fun v hv hv0 => ?_)
        obtain ⟨x, hcell, hnum⟩ := hrow v hv
        have hord := h hnull v hv (by rw [hcell, hthere, hnum]; exact hv0)
        rw [hcell] at hord
        change Ordered hi y.toInt x.toInt at hord
        rwa [hlow, hnum] at hord
    · obtain ⟨x, hcell, hnum⟩ := hrow v hv
      rw [hcell, hthere, hnum] at hx
      rw [hcell]
      change Ordered hi y.toInt x.toInt
      rw [hlow, hnum]
      rcases h with hb | hb | hb
      · rw [hin hb]
        exact htrue b he v hv
      · exact absurd hb hnull
      · exact hb v hv hx

/-- A reported bound holds exactly when it is fair. -/
theorem holds_iff_fair (hlt : lTypeOf dt = .ok lt) (hranged : Ranged lt)
    (hrows : ∀ v, some v ∈ rows → v.Of dt) (htrue : TrueBound lt dt st hi rows) :
    Holds lt dt old st hi rows ↔ Fair lt dt st hi rows := by
  have hwide : Wide lt → Fair lt dt st hi rows → (Holds lt dt old st hi rows ↔ Fair lt dt st hi rows) :=
    fun hw => iff_of_true (wide_holds hlt hw hrows htrue)
  cases dt with
  | boolean =>
    cases hlt
    exact bool_holds_iff hrows htrue
  | int8 =>
    cases hlt
    exact byte_holds_iff (.inl rfl) hrows htrue
  | uint8 =>
    cases hlt
    exact byte_holds_iff (.inr rfl) hrows htrue
  | int16 =>
    cases hlt
    exact short_holds_iff hrows htrue
  | int32 | int64 | date32 | timestamp u tz | duration u =>
    cases hlt
    exact hwide (by simp [Wide]) trivial
  | time32 u =>
    cases u <;> cases hlt
    exact hwide (by simp [Wide]) trivial
  | float32 | float64 | utf8 | largeUtf8 | utf8View =>
    cases hlt
    exact absurd hranged (by simp [Ranged])
  | dictionary k v =>
    simp only [lTypeOf] at hlt
    split at hlt
    · cases hlt
      exact absurd hranged (by simp [Ranged])
    · cases hlt
  | uint16 | uint32 | uint64 | other name => cases hlt

end

/-! ## The global row groups -/

/-- What a vector over all row groups holds at a global row group comes from that row group of its
own file. -/
theorem flat_get {T : Type} (F : Src → RowGroup → T) {all srcs : List Src} {k : Nat}
    (hall : ∀ i, srcs[i]? = all[k + i]?)
    (hcounts : ∀ s ∈ srcs, s.rg_rows = s.md.row_groups.map (·.num_rows)) {g : Nat} {x : Group}
    (hx : (((srcs.zipIdx k).map fun (s, f) => s.rg_rows.zipIdx.map fun (rows, g) =>
      (⟨f, g, rows⟩ : Group)).flatten)[g]? = some x) :
    ∃ s rg, all[x.f]? = some s ∧ s.md.row_groups[x.g]? = some rg ∧
      (srcs.flatMap fun s => s.md.row_groups.map (F s))[g]? = some (F s rg) := by
  induction srcs generalizing k g with
  | nil => cases hx
  | cons s srcs ih =>
    have hs : all[k]? = some s := (hall 0).symm
    have hrest : ∀ i, srcs[i]? = all[k + 1 + i]? := by
      intro i
      rw [show k + 1 + i = k + (i + 1) by omega]
      exact hall (i + 1)
    have hcount := hcounts s List.mem_cons_self
    have hlen : s.rg_rows.length = s.md.row_groups.length := by rw [hcount, List.length_map]
    rw [List.zipIdx_cons, List.map_cons, List.flatten_cons] at hx
    rw [List.flatMap_cons]
    by_cases hg : g < s.rg_rows.length
    · rw [List.getElem?_append_left (by simpa using hg), List.getElem?_map,
        Option.map_eq_some_iff] at hx
      obtain ⟨⟨rows, g'⟩, hrows, rfl⟩ := hx
      obtain ⟨hrow, rfl⟩ : s.rg_rows[g]? = some rows ∧ g' = g := by
        rw [List.getElem?_zipIdx, Option.map_eq_some_iff] at hrows
        obtain ⟨r, hr, he⟩ := hrows
        cases he
        exact ⟨hr, Nat.zero_add g⟩
      rw [hcount, List.getElem?_map, Option.map_eq_some_iff] at hrow
      obtain ⟨rg, hrg, _⟩ := hrow
      refine ⟨s, rg, hs, hrg, ?_⟩
      rw [List.getElem?_append_left (by rw [List.length_map]; omega), List.getElem?_map, hrg]
      rfl
    · rw [List.getElem?_append_right (by simpa using hg)] at hx
      simp only [List.length_map, List.length_zipIdx] at hx
      rw [List.getElem?_append_right (by rw [List.length_map]; omega), List.length_map, ← hlen]
      exact ih hrest (fun s hs => hcounts s (List.mem_cons_of_mem _ hs)) hx

/-- Every column is stored in one leaf, and the leaves stand as the columns do. -/
def Flat (s : Src) : Prop := ∀ c < s.md.fields.length, s.leafOf c = some c

/-- `pq_meta` answers for whole files: each column has its type. -/
theorem dictTypes_get {set : FileSet} {lts : List LType} (h : dictTypes set = .ok lts) :
    set.lts = lts.map .ok := by
  unfold dictTypes at h
  generalize set.lts = xs at h
  induction xs generalizing lts with
  | nil =>
    cases h
    rfl
  | cons x xs ih =>
    rw [List.mapM_cons] at h
    rcases x with e | lt
    · cases h
    · rcases hrest : xs.mapM id with e | rest
      · simp [hrest, bind, Except.bind] at h
      · simp only [hrest, id, bind, Except.bind, pure, Except.pure, Except.ok.injEq] at h
        subst h
        rw [ih hrest]
        rfl

/-- A file of such a set has a type for each column. -/
theorem typed_fields {srcs : List Src} {who : String} {set : FileSet} (hset : agree srcs who = .ok set)
    {lts : List LType} (hdict : dictTypes set = .ok lts) {s : Src} (hs : s ∈ srcs) :
    s.md.fields.length = lts.length ∧ ∀ f ∈ s.md.fields, ∃ lt, lTypeOf f.data_type = .ok lt := by
  have hcols := ((agree_cases hset).2 s hs).2
  rw [dictTypes_get hdict, List.map_map] at hcols
  refine ⟨by simpa using congrArg List.length hcols, fun f hf => ?_⟩
  obtain ⟨c, hc⟩ := List.mem_iff_getElem?.mp hf
  have hget := congrArg (·[c]?) hcols
  simp only [List.getElem?_map, hc, Option.map_some] at hget
  obtain ⟨lt, _, hlt⟩ := Option.map_eq_some_iff.mp hget.symm
  unfold okType at hlt
  rcases hl : lTypeOf f.data_type with e | lt'
  · rw [hl] at hlt
    cases hlt
  · exact ⟨lt', rfl⟩

/-- The values of a column are values of its type. -/
theorem rows_typed {W : World} {srcs : List Src} {content : Content} (hW : Whole W srcs content)
    {s : Src} (hs : s ∈ srcs) {g : Nat} {n : Int64} (hn : s.rg_rows[g]? = some n) {c : Nat} {lt : LType}
    (hlt : lTypeOf (typeAt s c) = .ok lt) {v : Val} (hv : some v ∈ content s g c) :
    v.Of (typeAt s c) := by
  have hlts : ∀ c' ∈ [c], ∃ lt, lTypeOf (typeAt s c') = .ok lt := fun c' hc' =>
    List.mem_singleton.mp hc' ▸ ⟨lt, hlt⟩
  have hord : [c].Pairwise (· < ·) := List.pairwise_singleton _ _
  obtain ⟨bs, hbs, hsum⟩ := hW.batches s hs g n [c] hn hord hlts
  obtain ⟨htyped, hcontent⟩ := hW.typed s hs g n [c] bs hn hord hlts hbs hsum 0 c rfl
  rw [← hcontent] at hv
  obtain ⟨b, hb, hv⟩ := List.mem_flatMap.mp hv
  obtain ⟨arr, harr, hdt, ht⟩ := htyped b hb
  unfold batchRows at hv
  rw [harr] at hv
  exact hdt ▸ ht.of_mem hv

/-- What stands at a global row group in a vector of extrema. -/
theorem extrema_get {set : FileSet} (hloaded : ∀ s ∈ set.srcs, Loaded s) {g : Nat} {x : Group}
    (hx : (groupsOf set.srcs)[g]? = some x) {s : Src} (hs : set.srcs[x.f]? = some s) {c : Nat}
    (hflat : s.leafOf c = some c) (lt : LType) (old : Cell) (hi : Bool) :
    (extrema set lt c old hi)[g]? =
      some (extremum lt (typeAt s c) old ((s.chunk x.g c).bind (·.statistics)) hi) := by
  obtain ⟨s', rg, hs', hrg, hget⟩ := flat_get (k := 0)
    (fun s rg => extremum lt (typeAt s c) old (statistics rg c) hi)
    (fun i => by rw [Nat.zero_add]) (fun s hs => (hloaded s hs).2.counts) hx
  cases hs.symm.trans hs'
  have hchunk : (s.chunk x.g c).bind (·.statistics) = statistics rg c := by
    unfold Src.chunk statistics
    simp only [hflat, hrg, Option.bind_eq_bind, Option.bind_some]
  rw [hchunk]
  exact hget

/-- A window is what stands before a row group, the row group, and what stands after it. -/
theorem windowCells_around (content : Content) {srcs : List Src} (lt : LType) (c : Nat)
    {g0 g g1 : Nat} (h0 : g0 ≤ g) (h1 : g < g1) {x : Group} (hx : (groupsOf srcs)[g]? = some x) :
    windowCells content srcs lt c g0 g1 = windowCells content srcs lt c g0 g ++
      groupCells content srcs lt c x.f x.g ++ windowCells content srcs lt c (g + 1) g1 := by
  have hone : lib.blocks.slice (groupsOf srcs) g (g + 1) = [x] := by
    unfold lib.blocks.slice
    obtain ⟨hlt, hget⟩ := List.getElem?_eq_some_iff.mp hx
    rw [List.drop_take, Nat.add_sub_cancel_left, List.drop_eq_getElem_cons hlt, hget]
    rfl
  unfold windowCells
  rw [← lib.blocks.slice_append _ h0 (Nat.le_of_lt h1),
    ← lib.blocks.slice_append _ (Nat.le_succ g) h1, hone]
  simp only [List.flatMap_append, List.flatMap_singleton, List.append_assoc]

/-! ## The law of the bounds -/

/-- The bound that `pq_meta` reports at a row group bounds what a read delivers of it, exactly when
it is fair. -/
theorem a_reported_bound_holds_iff_it_is_fair {srcs : List Src} {who : String} {set : FileSet}
    (hset : agree srcs who = .ok set) (hloaded : ∀ s ∈ srcs, Loaded s)
    (hflat : ∀ s ∈ srcs, (∀ f ∈ s.md.fields, ∃ lt, lTypeOf f.data_type = .ok lt) → Flat s)
    {lts : List LType} (hdict : dictTypes set = .ok lts) {W : World} {content : Content}
    (hW : Whole W srcs content)
    (htrue : ∀ s ∈ srcs, ∀ g c lt hi, TrueBound lt (typeAt s c)
      ((s.chunk g c).bind (·.statistics)) hi (content s g c))
    {want : Option (List String)} {sel : Sel} (hsel : select set want who = .ok sel) {p : Nat}
    (hp : p < sel.out.length) (hranged : Ranged (sel.lt p)) {g0 g g1 : Nat} (h0 : g0 ≤ g)
    (h1 : g < g1) {x : Group} (hx : (groupsOf srcs)[g]? = some x) {s : Src}
    (hs : srcs[x.f]? = some s) (hrows : countedRows (windowCounts srcs g0 g1) ≤ I32_MAX)
    {nthreads k : Nat} (hk : 0 < k) {m : lib.stores.Mem Nat Cell} {t : Table}
    (hread : Reads W nthreads k set sel g0 g1 false who m (.ok t)) (old : Cell) (hi : Bool) :
    ∃ stats b pre xs post, (statsOf set lts old)[sel.col p]? = some stats ∧
      (if hi then stats.mx else stats.mn)[g]? = some b ∧
      t.columns[p]? = some (.vec (sel.lt p) (pre ++ xs ++ post)) ∧
      pre.length = countedRows (windowCounts srcs g0 g) ∧
      xs.length = (content s x.g (sel.col p)).length ∧
      (Brackets (sel.lt p) b hi (content s x.g (sel.col p)) xs ↔
        Fair (sel.lt p) (typeAt s (sel.col p)) ((s.chunk x.g (sel.col p)).bind (·.statistics)) hi
          (content s x.g (sel.col p))) := by
  have hsrcs := (agree_cases hset).1
  subst hsrcs
  have hmem : s ∈ set.srcs := List.mem_of_getElem? hs
  have hselected := select_selected hset hsel
  have hlt : lTypeOf (typeAt s (sel.col p)) = .ok (sel.lt p) := hselected.lt p hp s hmem
  obtain ⟨hlen, hfields⟩ := typed_fields hset hdict hmem
  have hc : sel.col p < s.md.fields.length := by
    by_contra hout
    unfold typeAt at hlt
    rw [List.getElem?_eq_none (Nat.not_lt.mp hout)] at hlt
    cases hlt
  have hltc : lts[sel.col p]? = some (sel.lt p) := by
    have hget := List.getElem?_eq_getElem (hlen ▸ hc)
    have hset' : set.lts[sel.col p]? = some (.ok lts[sel.col p]) := by
      rw [dictTypes_get hdict, List.getElem?_map, hget]
      rfl
    have heq := (agree_lt hset hset' s hmem).symm.trans hlt
    rw [hget, Except.ok.inj heq]
  obtain ⟨n, hn⟩ : ∃ n, s.rg_rows[x.g]? = some n := by
    obtain ⟨s', hs', hn⟩ := mem_groupsOf (List.mem_of_getElem? hx)
    cases hs.symm.trans hs'
    exact ⟨_, hn⟩
  have hanswer := (read_plain hselected hloaded hW hrows who).answer nthreads k m _ hk hread
  obtain rfl : t = windowTable content set sel g0 g1 := Except.ok.inj hanswer
  have hgroup : groupCells content set.srcs (sel.lt p) (sel.col p) x.f x.g =
      (content s x.g (sel.col p)).map (cell (sel.lt p) (typeAt s (sel.col p))) := by
    unfold groupCells
    rw [hs]
    rfl
  refine ⟨⟨extrema set (sel.lt p) (sel.col p) old false, extrema set (sel.lt p) (sel.col p) old true,
      nullCounts set (sel.col p)⟩,
    extremum (sel.lt p) (typeAt s (sel.col p)) old ((s.chunk x.g (sel.col p)).bind (·.statistics)) hi,
    windowCells content set.srcs (sel.lt p) (sel.col p) g0 g,
    (content s x.g (sel.col p)).map (cell (sel.lt p) (typeAt s (sel.col p))),
    windowCells content set.srcs (sel.lt p) (sel.col p) (g + 1) g1, ?stats, ?bound, ?column,
    length_windowCells hW.toFaithful (sel.lt p) (sel.col p) g0 g, List.length_map _, ?law⟩
  case stats =>
    unfold statsOf
    rw [List.getElem?_map, List.getElem?_zipIdx, hltc, Nat.zero_add]
    rfl
  case bound =>
    have hget := extrema_get hloaded hx hs (hflat s hmem hfields _ hc) (sel.lt p) old hi
    cases hi
    · exact hget
    · exact hget
  case column =>
    unfold windowTable
    simp only [List.getElem?_map, List.getElem?_range hp, Option.map_some]
    rw [windowCells_around content _ _ h0 h1 hx, hgroup]
  case law =>
    rw [← holds_iff_fair hlt hranged (fun v hv => rows_typed hW hmem hn hlt hv)
      (htrue s hmem x.g _ _ hi)]
    refine ⟨fun h hb v hv hx => ?_, fun h hb i v y hv hy hx => ?_⟩
    · obtain ⟨i, hi'⟩ := List.mem_iff_getElem?.mp hv
      refine h hb i v _ hi' ?_ hx
      rw [List.getElem?_map, hi']
      rfl
    · rw [List.getElem?_map, hv] at hy
      cases hy
      exact h hb v (List.mem_of_getElem? hv) hx

/-- A file of two signed bytes, whose footer says exactly where they lie. -/
def signedFile (lo hi : Int32) : Src :=
  mk "b" "b"
    { fields := [⟨"b", .int8⟩], leaves := [⟨0, .INT32, 1, 0⟩]
      row_groups := [⟨2, [⟨false, some ⟨some 0, .int32 ⟨some lo, some hi, true, true⟩⟩⟩]⟩], num_rows := 2 }
    [2]

def signedBatch (s : Src) (roots : List Nat) (xs : List (Option Int8)) : Batch where
  columns := roots.map fun c => (⟨typeAt s c, .i8 (Prim.ofContent xs)⟩ : Arr)
  num_rows := xs.length
  len_eq a ha := by
    obtain ⟨c, _, rfl⟩ := List.mem_map.mp ha
    exact List.length_map _

/-- Crates that read these bytes. -/
def signedWorld (xs : List (Option Int8)) : World where
  crate := Crate.safe fun _ => .ok []
  fopen _ := .ok ()
  tryClone _ := .ok ()
  firstPage _ _ _ := .ok none
  columnReader _ _ _ := .ok .other
  batches s mask _ := .ok [.ok (signedBatch s mask.roots xs)]

def signedContent (xs : List (Option Int8)) : Content := fun _ _ _ => xs.map (·.map .i8)

theorem signed_whole {lo hi : Int32} {xs : List (Option Int8)} (hxs : xs.length = 2) :
    Whole (signedWorld xs) [signedFile lo hi] (signedContent xs) := by
  have hgroup : ∀ {g : Nat} {n : Int64}, (signedFile lo hi).rg_rows[g]? = some n → n = 2 := fun hn =>
    List.mem_singleton.mp (List.mem_of_getElem? hn)
  refine ⟨⟨safe_lawful _, ?rows, ?typed⟩, ⟨fun _ _ => rfl, fun _ _ => rfl, ?batches⟩, ?raw⟩
  case rows =>
    intro s hs g n hn c
    cases List.mem_singleton.mp hs
    cases hgroup hn
    exact (List.length_map _).trans hxs
  case typed =>
    intro s hs g n roots bs hn _ hlts hbs _ i c hc
    cases List.mem_singleton.mp hs
    have hbatch : bs = [signedBatch (signedFile lo hi) roots xs] := by
      have h := Except.ok.inj hbs
      rcases bs with _ | ⟨b, _ | ⟨b', bs⟩⟩ <;> simp_all
    subst hbatch
    have hcol : (signedBatch (signedFile lo hi) roots xs).columns[i]? =
        some ⟨typeAt (signedFile lo hi) c, .i8 (Prim.ofContent xs)⟩ := by
      simp only [signedBatch, List.getElem?_map, hc, Option.map_some]
    refine ⟨fun b hb => ⟨_, List.mem_singleton.mp hb ▸ hcol, rfl, ?_⟩, ?_⟩
    · obtain ⟨lt, hlt⟩ := hlts c (List.mem_of_getElem? hc)
      cases c with
      | zero => trivial
      | succ c => cases hlt
    · rw [List.flatMap_singleton]
      unfold batchRows
      rw [hcol]
      exact congrArg (List.map _) (content_ofContent _)
  case batches =>
    intro s hs g n roots hn _ _
    cases List.mem_singleton.mp hs
    cases hgroup hn
    exact ⟨[signedBatch _ roots xs], rfl, List.sum_singleton.trans hxs⟩
  case raw =>
    intro c s hs g n _ l d hd _ _ _ hraw
    cases List.mem_singleton.mp hs
    obtain rfl : d = ⟨0, .INT32, 1, 0⟩ := List.mem_singleton.mp (List.mem_of_getElem? hd)
    rcases c with _ | c <;> cases hraw

/-- A footer that says where the bytes lie is true. -/
theorem signed_true {lo hi : Int32} {xs : List (Option Int8)}
    (hxs : ∀ x, some x ∈ xs → lo.toInt ≤ x.toInt ∧ x.toInt ≤ hi.toInt) :
    ∀ s ∈ [signedFile lo hi], ∀ g c lt side, TrueBound lt (typeAt s c)
      ((s.chunk g c).bind (·.statistics)) side (signedContent xs s g c) := by
  intro s hs g c lt side b hb v hv
  cases List.mem_singleton.mp hs
  obtain ⟨y, hy, hyv⟩ := List.mem_map.mp hv
  obtain ⟨x, rfl, rfl⟩ := Option.map_eq_some_iff.mp hyv
  have hx := hxs x hy
  rcases hchunk : (signedFile lo hi).chunk g c with _ | cc
  · rw [hchunk] at hb
    cases lt <;> cases hb
  · obtain ⟨rfl, rfl⟩ : c = 0 ∧ g = 0 := by
      unfold Src.chunk at hchunk
      rcases c with _ | c
      · rcases g with _ | g
        · exact ⟨rfl, rfl⟩
        · cases hchunk
      · cases hchunk
    rw [hchunk] at hb
    cases hchunk
    cases lt <;> cases side <;> cases hb
    all_goals first | exact hx.1 | exact hx.2

def signedSet (lo hi : Int32) : FileSet := ⟨[signedFile lo hi], ["b"], [.ok .KG]⟩

def signedSel : Sel := ⟨[0], [.KG], [0], [none]⟩

theorem signed_loaded {lo hi : Int32} : ∀ s ∈ [signedFile lo hi], Loaded s := by
  intro s hs
  cases List.mem_singleton.mp hs
  exact ⟨rfl, rfl, rfl⟩

theorem signed_read {lo hi : Int32} {xs : List (Option Int8)} (hxs : xs.length = 2) :
    Reads (signedWorld xs) 1 1 (signedSet lo hi) signedSel 0 1 false "pq_read" (fun _ => .g 0)
      (.ok (windowTable (signedContent xs) (signedSet lo hi) signedSel 0 1)) := by
  have hset : agree [signedFile lo hi] "pq_read" = .ok (signedSet lo hi) := rfl
  have hsel : select (signedSet lo hi) none "pq_read" = .ok signedSel := rfl
  have hcounts : windowCounts [signedFile lo hi] 0 1 = [2] := rfl
  have hanswers := @read_plain _ _ _ _ (select_selected hset hsel) signed_loaded (signed_whole hxs) 0 1
    (show countedRows (windowCounts [signedFile lo hi] 0 1) ≤ I32_MAX by rw [hcounts]; decide) "pq_read"
  obtain ⟨r, hr⟩ := hanswers.returns 1 1 fun _ => .g 0
  rwa [hanswers.answer 1 1 _ r (by decide) hr] at hr

/-- Two negative bytes stay below the maximum that is reported for them. -/
theorem the_bytes_of_one_sign_are_bracketed :
    ∃ stats b pre xs post, (statsOf (signedSet (-3) (-1)) [.KG] (.g 0))[0]? = some stats ∧
      stats.mx[0]? = some b ∧
      (windowTable (signedContent [some (-3), some (-1)]) (signedSet (-3) (-1)) signedSel 0 1).columns[0]? =
        some (.vec .KG (pre ++ xs ++ post)) ∧
      Brackets .KG b true [some (.i8 (-3)), some (.i8 (-1))] xs := by
  have hset : agree [signedFile (-3) (-1)] "pq_read" = .ok (signedSet (-3) (-1)) := rfl
  have hsel : select (signedSet (-3) (-1)) none "pq_read" = .ok signedSel := rfl
  have hrange : ∀ x, some x ∈ [some (-3 : Int8), some (-1)] →
      (-3 : Int32).toInt ≤ x.toInt ∧ x.toInt ≤ (-1 : Int32).toInt := by
    intro x hx
    simp only [List.mem_cons, Option.some.injEq, List.not_mem_nil, or_false] at hx
    rcases hx with rfl | rfl <;> decide
  have hflat : ∀ s ∈ [signedFile (-3) (-1)],
      (∀ f ∈ s.md.fields, ∃ lt, lTypeOf f.data_type = .ok lt) → Flat s := by
    intro s hs _ c hc
    cases List.mem_singleton.mp hs
    obtain rfl : c = 0 := Nat.lt_one_iff.mp hc
    rfl
  obtain ⟨stats, b, pre, xs, post, hstats, hb, hcol, _, _, hlaw⟩ :=
    @a_reported_bound_holds_iff_it_is_fair [signedFile (-3) (-1)] "pq_read" _ hset signed_loaded hflat
      [.KG] rfl _ _ (@signed_whole (-3) (-1) [some (-3), some (-1)] rfl) (signed_true hrange) none signedSel
      hsel 0 (by decide) (by simp [Ranged, signedSel, Sel.lt]) 0 0 1 (by decide) (by decide) ⟨0, 0, 2⟩ rfl
      (signedFile (-3) (-1)) rfl (by decide) 1 1 (by decide) (fun _ => .g 0) _ (signed_read rfl) (.g 0) true
  refine ⟨stats, b, pre, xs, post, hstats, hb, hcol, hlaw.mpr (.inl ⟨?_, fun _ v hv => ?_⟩)⟩
  · exact ⟨by decide, by decide⟩
  · have hv' : some v ∈ [some (Val.i8 (-3)), some (.i8 (-1))] := hv
    simp only [List.mem_cons, Option.some.injEq, List.not_mem_nil, or_false] at hv'
    rcases hv' with rfl | rfl <;> exact iff_of_true (by decide) (by decide)

/-- The bytes -1 and 1 are delivered as 255 and 1, and their minimum -1 is reported as 255. -/
theorem the_minimum_of_signed_bytes_lies_above_a_row :
    (∀ s ∈ [signedFile (-1) 1], ∀ g c lt hi, TrueBound lt (typeAt s c)
        ((s.chunk g c).bind (·.statistics)) hi (signedContent [some (-1), some 1] s g c)) ∧
      ∃ t stats b xs, Reads (signedWorld [some (-1), some 1]) 1 1 (signedSet (-1) 1) signedSel 0 1 false
          "pq_read" (fun _ => .g 0) (.ok t) ∧
        (statsOf (signedSet (-1) 1) [.KG] (.g 0))[0]? = some stats ∧ stats.mn[0]? = some b ∧
        t.columns[0]? = some (.vec .KG xs) ∧
        ¬Brackets .KG b false [some (.i8 (-1)), some (.i8 1)] xs := by
  refine ⟨signed_true fun x hx => ?_, _, _, _, _, signed_read rfl, rfl, rfl, rfl, fun h => ?_⟩
  · simp only [List.mem_cons, Option.some.injEq, List.not_mem_nil, or_false] at hx
    rcases hx with rfl | rfl <;> decide
  · have hle := h (.inr (.inl rfl)) 1 (.i8 1) (.g 1) rfl rfl (.inr (.inl rfl))
    exact absurd hle (by unfold Ordered; decide)

end parquet_interop.stats
