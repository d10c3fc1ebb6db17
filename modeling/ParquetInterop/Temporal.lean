-- The clock of a file: a bound of the footer and a row of the same value are
-- stored as one element, by the unit of the file that wrote them.
import ParquetInterop.Stats

open parquet_interop.ffi parquet_interop.footer parquet_interop.native parquet_interop.read
open lib.stores

namespace parquet_interop.stats

/-! ## The normalization -/

/-- The types of days, of instants and of durations. -/
def Clock (lt : LType) : Prop := lt ∈ [.KD, .KP, .KN]

/-- An element of the type is at least `-reach`, and below `reach`. -/
def reach : LType → Int
  | .KD => 2 ^ 31
  | _ => 2 ^ 63

/-- A raw value in the unit and from the epoch of its L type. The scaled value has to fit in `i64`,
and the shifted one in the type. -/
def normalized (lt : LType) (dt : DataType) (x : Int) : Option Int :=
  let w := x * scale dt
  if (-2 ^ 63 ≤ w ∧ w < 2 ^ 63) ∧ -reach lt ≤ w - epoch lt ∧ w - epoch lt < reach lt then
    some (w - epoch lt)
  else none

def clockCell (lt : LType) (y : Int) : Cell :=
  match lt with
  | .KD => .i (Int32.ofInt y)
  | _ => .j (Int64.ofInt y)

/-- The element of a raw value, or the null where the value has none. -/
def normal (lt : LType) (dt : DataType) (x : Int) : Cell :=
  ((normalized lt dt x).map (clockCell lt)).getD (nullCell lt)

section
variable {lt : LType} {dt : DataType} {x y : Int}

theorem normalized_some (h : normalized lt dt x = some y) :
    y = x * scale dt - epoch lt ∧ -reach lt ≤ y ∧ y < reach lt := by
  unfold normalized at h
  dsimp only at h
  split at h
  · rename_i hfits
    obtain rfl := Option.some.inj h
    exact ⟨rfl, hfits.2⟩
  · cases h

theorem normalized_none : normalized lt dt x = none ↔
    ¬(-2 ^ 63 ≤ x * scale dt ∧ x * scale dt < 2 ^ 63) ∨
      ¬(-reach lt ≤ x * scale dt - epoch lt ∧ x * scale dt - epoch lt < reach lt) := by
  unfold normalized
  simp only [ite_eq_right_iff, reduceCtorEq, imp_false, not_and_or]

/-- An element says what it holds. -/
theorem num_clockCell (hclock : Clock lt) (hlow : -reach lt ≤ y) (hhigh : y < reach lt) :
    num (clockCell lt y) = y := by
  rcases hclock with _ | ⟨_, _ | ⟨_, _ | ⟨_, h⟩⟩⟩
  · apply Int32.toInt_ofInt_of_le
    · exact hlow
    · exact hhigh
  · apply Int64.toInt_ofInt_of_le
    · exact hlow
    · exact hhigh
  · apply Int64.toInt_ofInt_of_le
    · exact hlow
    · exact hhigh
  · cases h

/-- The null of a clock is the least element of its type. -/
theorem clockCell_eq_null (hclock : Clock lt) (hlow : -reach lt ≤ y) (hhigh : y < reach lt) :
    clockCell lt y = nullCell lt ↔ y = -reach lt := by
  have hnum := num_clockCell hclock hlow hhigh
  have hnull : num (nullCell lt) = -reach lt ∧ clockCell lt (-reach lt) = nullCell lt := by
    rcases hclock with _ | ⟨_, _ | ⟨_, _ | ⟨_, h⟩⟩⟩
    · exact ⟨by decide, by decide⟩
    · exact ⟨by decide, by decide⟩
    · exact ⟨by decide, by decide⟩
    · cases h
  refine ⟨fun h => ?_, fun h => h ▸ hnull.2⟩
  rw [h, hnull.1] at hnum
  exact hnum.symm

/-- The null stands for a value that has no element, and for the one that falls on it. -/
theorem normal_eq_null (hclock : Clock lt) : normal lt dt x = nullCell lt ↔
    normalized lt dt x = none ∨ normalized lt dt x = some (-reach lt) := by
  unfold normal
  rcases hn : normalized lt dt x with _ | y
  · simp
  · obtain ⟨_, hlow, hhigh⟩ := normalized_some hn
    simp [clockCell_eq_null hclock hlow hhigh]

theorem normal_num (hclock : Clock lt) (h : normal lt dt x ≠ nullCell lt) :
    num (normal lt dt x) = x * scale dt - epoch lt := by
  rcases hn : normalized lt dt x with _ | y
  · exact absurd ((normal_eq_null hclock).mpr (.inl hn)) h
  · obtain ⟨rfl, hlow, hhigh⟩ := normalized_some hn
    unfold normal
    rw [hn]
    exact num_clockCell hclock hlow hhigh

theorem normal_scaled (h : -2 ^ 63 ≤ x * scale dt ∧ x * scale dt < 2 ^ 63) : normal lt dt x =
    if -reach lt ≤ x * scale dt - epoch lt ∧ x * scale dt - epoch lt < reach lt then
      clockCell lt (x * scale dt - epoch lt)
    else nullCell lt := by
  unfold normal normalized
  simp only [h, and_self, true_and]
  split <;> rfl

theorem normal_overflow (h : ¬(-2 ^ 63 ≤ x * scale dt ∧ x * scale dt < 2 ^ 63)) :
    normal lt dt x = nullCell lt := by
  unfold normal
  rw [normalized_none.mpr (.inl h)]
  rfl

/-- The normalization keeps the order of the values that it does not null. -/
theorem normal_mono (hclock : Clock lt) {x' : Int} (hle : x ≤ x') (hx : normal lt dt x ≠ nullCell lt)
    (hx' : normal lt dt x' ≠ nullCell lt) : num (normal lt dt x) ≤ num (normal lt dt x') := by
  rw [normal_num hclock hx, normal_num hclock hx']
  have := Int.mul_le_mul_of_nonneg_right hle (Int.le_of_lt (scale_pos dt))
  omega

end

/-! ## The three pipelines -/

/-- The multiply of every pipeline. -/
theorem scale_checked (v : Int64) (u : TimeUnit) {dt : DataType}
    (hdt : dt = .duration u ∨ ∃ tz, dt = .timestamp u tz) :
    checkedMul v (nsPer u) =
      if -2 ^ 63 ≤ v.toInt * scale dt ∧ v.toInt * scale dt < 2 ^ 63 then
        some (Int64.ofInt (v.toInt * scale dt)) else none := by
  rcases hdt with rfl | ⟨tz, rfl⟩ <;> rfl

theorem toInt_scaled {w : Int} (h : -2 ^ 63 ≤ w ∧ w < 2 ^ 63) : (Int64.ofInt w).toInt = w := by
  apply Int64.toInt_ofInt_of_le
  · exact h.1
  · exact h.2

/-- The subtraction of the bounds. -/
theorem checkedSub_epoch {w : Int} (h : -2 ^ 63 ≤ w ∧ w < 2 ^ 63) :
    checkedSub (Int64.ofInt w) NS2000 =
      if -reach .KP ≤ w - epoch .KP ∧ w - epoch .KP < reach .KP then
        some (Int64.ofInt (w - epoch .KP)) else none := by
  unfold checkedSub
  rw [toInt_scaled h]
  rfl

/-- Rows compare with the floor and wrap: the same as a subtraction that is checked. -/
theorem shiftNs_checked (v : Int64) : shiftNs v = (checkedSub v NS2000).getD NJ := by
  have hfloor : (NJ + NS2000).toInt = -8276687236854775808 := by decide
  have hns : NS2000.toInt = 946684800000000000 := by decide
  have hlow := Int64.le_toInt v
  have hhigh := Int64.toInt_lt v
  unfold shiftNs checkedSub
  simp only [Int64.lt_iff_toInt_lt, hfloor, hns]
  by_cases h : v.toInt < -8276687236854775808
  · rw [if_pos h, if_neg (by omega)]
    simp
  · rw [if_neg h, if_pos (by omega)]
    apply Int64.toInt_inj.mp
    rw [Option.getD_some, Int64.toInt_sub, hns, Int64.toInt_ofInt]

theorem shiftDay_checked (v : Int32) : shiftDay v = (checkedSub32 v DAY2000).getD NI := by
  have hfloor : (NI + DAY2000).toInt = -2147472691 := by decide
  have hday : DAY2000.toInt = 10957 := by decide
  have hlow := Int32.le_toInt v
  have hhigh := Int32.toInt_lt v
  unfold shiftDay checkedSub32
  simp only [Int32.lt_iff_toInt_lt, hfloor, hday]
  by_cases h : v.toInt < -2147472691
  · rw [if_pos h, if_neg (by omega)]
    simp
  · rw [if_neg h, if_pos (by omega)]
    apply Int32.toInt_inj.mp
    rw [Option.getD_some, Int32.toInt_sub, hday, Int32.toInt_ofInt]

/-- A checked multiply and a checked subtraction normalize. -/
theorem instant_normal (v : Int64) (u : TimeUnit) (tz : Option String) :
    Cell.j (((checkedMul v (nsPer u)).bind (checkedSub · NS2000)).getD NJ) =
      normal .KP (.timestamp u tz) v.toInt := by
  have hmul := scale_checked v u (.inr ⟨tz, rfl⟩)
  by_cases hfits : -2 ^ 63 ≤ v.toInt * scale (.timestamp u tz) ∧
      v.toInt * scale (.timestamp u tz) < 2 ^ 63
  · rw [if_pos hfits] at hmul
    rw [normal_scaled hfits, hmul, Option.bind_some]
    rw [checkedSub_epoch hfits]
    split <;> rfl
  · rw [if_neg hfits] at hmul
    rw [normal_overflow hfits, hmul]
    rfl

theorem duration_normal (v : Int64) (u : TimeUnit) :
    Cell.j ((checkedMul v (nsPer u)).getD NJ) = normal .KN (.duration u) v.toInt := by
  have hmul := scale_checked v u (.inl rfl)
  by_cases hfits : -2 ^ 63 ≤ v.toInt * scale (.duration u) ∧ v.toInt * scale (.duration u) < 2 ^ 63
  · rw [if_pos hfits] at hmul
    simp only [normal_scaled hfits, hmul, reach, epoch, Int.sub_zero, hfits, and_self, if_true]
    rfl
  · rw [if_neg hfits] at hmul
    rw [normal_overflow hfits, hmul]
    rfl

theorem day_normal (v : Int32) :
    Cell.i ((checkedSub32 v DAY2000).getD NI) = normal .KD .date32 v.toInt := by
  have hday : DAY2000.toInt = 10957 := by decide
  have hlow := Int32.le_toInt v
  have hhigh := Int32.toInt_lt v
  have hfits : -2 ^ 63 ≤ v.toInt * scale .date32 ∧ v.toInt * scale .date32 < 2 ^ 63 := by
    simp only [scale, Int.mul_one]
    omega
  simp only [normal_scaled hfits, checkedSub32, scale, hday, reach, epoch, Int.mul_one]
  split <;> rfl

/-- A row is stored as it is normalized. -/
theorem cellOf_normal {lt : LType} {dt : DataType} (hlt : lTypeOf dt = .ok lt) (hclock : Clock lt)
    {v : Val} (hv : v.Of dt) : cellOf lt dt v = normal lt dt (ofVal v) := by
  cases dt with
  | date32 =>
    cases hlt
    cases v <;> first | exact hv.elim | skip
    rename_i x
    apply Eq.trans _ (day_normal x)
    rw [← shiftDay_checked]
    rfl
  | timestamp u tz =>
    cases hlt
    cases v <;> first | exact hv.elim | skip
    rename_i x
    apply Eq.trans _ (instant_normal x u tz)
    change Cell.j (((checkedMul x (nsPer u)).map shiftNs).getD NJ) = _
    rcases checkedMul x (nsPer u) with _ | w
    · rfl
    · simp [shiftNs_checked]
  | duration u =>
    cases hlt
    cases v <;> first | exact hv.elim | skip
    rename_i x
    apply duration_normal
  | time32 u =>
    cases u <;> cases hlt
    exact absurd hclock (by simp [Clock])
  | dictionary k v' =>
    simp only [lTypeOf] at hlt
    split at hlt
    · cases hlt
      exact absurd hclock (by simp [Clock])
    · cases hlt
  | boolean | int8 | int16 | int32 | int64 | uint8 | float32 | float64 | utf8 | largeUtf8 | utf8View =>
    cases hlt
    exact absurd hclock (by simp [Clock])
  | uint16 | uint32 | uint64 | other name => cases hlt

/-- An exact bound is stored as it is normalized. -/
theorem extremum_normal {lt : LType} {dt : DataType} (hlt : lTypeOf dt = .ok lt) (hclock : Clock lt)
    {st : Option Statistics} {hi : Bool} {b : Int} (hb : exactBound lt dt st hi = some b) (old : Cell) :
    extremum lt dt old st hi = normal lt dt b := by
  rcases st with _ | ⟨nulls, bounds⟩
  · cases lt <;> cases hb
  cases dt with
  | date32 =>
    cases hlt
    cases bounds <;> first | cases hb | skip
    obtain ⟨v, hv, rfl⟩ := Option.map_eq_some_iff.mp hb
    apply Eq.trans _ (day_normal v)
    simp only [extremum, putStat, putNull, hv, Option.bind_some]
    cases checkedSub32 v DAY2000 <;> rfl
  | timestamp u tz =>
    cases hlt
    cases bounds <;> first | cases hb | skip
    obtain ⟨v, hv, rfl⟩ := Option.map_eq_some_iff.mp hb
    apply Eq.trans _ (instant_normal v u tz)
    simp only [extremum, putStat, putNull, hv, Option.bind_some, toNs]
    cases (checkedMul v (nsPer u)).bind (checkedSub · NS2000) <;> rfl
  | duration u =>
    cases hlt
    cases bounds <;> first | cases hb | skip
    obtain ⟨v, hv, rfl⟩ := Option.map_eq_some_iff.mp hb
    apply Eq.trans _ (duration_normal v u)
    simp only [extremum, putStat, putNull, hv, Option.bind_some, toNs]
    cases checkedMul v (nsPer u) <;> rfl
  | time32 u =>
    cases u <;> cases hlt
    exact absurd hclock (by simp [Clock])
  | dictionary k v' =>
    simp only [lTypeOf] at hlt
    split at hlt
    · cases hlt
      exact absurd hclock (by simp [Clock])
    · cases hlt
  | boolean | int8 | int16 | int32 | int64 | uint8 | float32 | float64 | utf8 | largeUtf8 | utf8View =>
    cases hlt
    exact absurd hclock (by simp [Clock])
  | uint16 | uint32 | uint64 | other name => cases hlt

/-! ## The rows of a file -/

/-- The in-place pass of the zero-copy path leaves `el` where a row holds `b`. -/
def PatchStores (lt : LType) (dt : DataType) (b : Int) (el : Cell) : Prop :=
  ∀ rt cr maxdef xs, rawOf dt (RawContent.physical xs) = some rt → ColumnReader.Holds maxdef cr xs →
    ∀ (i : Nat) v, xs.rows[i]? = some (some v) → ofVal v = b → ∀ col off who, ∃ os n,
      rawCol (.ok cr) maxdef rt lt col off xs.rows.length who = (os, .ok n) ∧
      ∀ m, run m os ⟨col, off + i⟩ = el

/-- The cast of the Arrow path and `fill_prim` leave `el` where a row holds `b`. -/
def CastStores (lt : LType) (dt : DataType) (b : Int) (el : Cell) : Prop :=
  ∀ cr : Crate, cr.Lawful → ∀ arr sy, arr.data_type = dt → arr.Typed cr.heap →
    SymCache.Coherent cr.heap sy → ∀ (i : Nat) v, (arr.content cr.heap)[i]? = some (some v) →
    ofVal v = b → ∀ col off, ∃ os sy', fillCol cr lt col off arr sy = (.ok os, sy') ∧
      ∀ m, run m os ⟨col, off + i⟩ = el

/-- Every read leaves `el` where a row of column `c` of file `f` holds `b`, in whichever row group
and window. -/
def ReadStores (set : FileSet) (who : String) (f c : Nat) (lt : LType) (b : Int) (el : Cell) : Prop :=
  ∀ W content, Whole W set.srcs content → ∀ want sel, select set want who = .ok sel →
    ∀ p < sel.out.length, sel.col p = c →
    ∀ g0 g1, countedRows (windowCounts set.srcs g0 g1) ≤ I32_MAX →
    ∀ g x, g0 ≤ g → g < g1 → (groupsOf set.srcs)[g]? = some x → x.f = f →
    ∀ s, set.srcs[f]? = some s → ∀ (i : Nat) v, (content s x.g c)[i]? = some (some v) → ofVal v = b →
    ∀ nthreads k m t, 0 < k → Reads W nthreads k set sel g0 g1 false who m (.ok t) →
    ∃ xs, t.columns[p]? = some (.vec lt xs) ∧
      xs[countedRows (windowCounts set.srcs g0 g) + i]? = some el

theorem rawOf_typed {dt : DataType} {rt : Raw} {xs : RawContent} (hrt : rawOf dt xs.physical = some rt)
    {v : Val} (hv : some v ∈ xs.rows) : v.Of dt := by
  have hmap : ∀ {T : Type} {ys : List (Option T)} {f : T → Val}, some v ∈ ys.map (·.map f) →
      ∃ y, v = f y := by
    intro T ys f hm
    obtain ⟨y, _, hy⟩ := List.mem_map.mp hm
    obtain ⟨z, _, rfl⟩ := Option.map_eq_some_iff.mp hy
    exact ⟨z, rfl⟩
  cases xs with
  | i32 ys =>
    obtain ⟨y, rfl⟩ := hmap hv
    obtain ⟨_, _, rfl | rfl | rfl⟩ | ⟨⟨⟩, _⟩ | ⟨⟨⟩, _⟩ | ⟨⟨⟩, _⟩ | ⟨⟨⟩, _⟩ := rawOf_cases hrt <;>
      trivial
  | i64 ys =>
    obtain ⟨y, rfl⟩ := hmap hv
    obtain ⟨⟨⟩, _⟩ | ⟨_, rfl, _⟩ | ⟨_, u, _, ⟨tz, rfl⟩ | rfl⟩ | ⟨⟨⟩, _⟩ | ⟨⟨⟩, _⟩ := rawOf_cases hrt <;>
      trivial
  | f32 ys =>
    obtain ⟨y, rfl⟩ := hmap hv
    obtain ⟨⟨⟩, _⟩ | ⟨⟨⟩, _⟩ | ⟨⟨⟩, _⟩ | ⟨_, rfl, _⟩ | ⟨⟨⟩, _⟩ := rawOf_cases hrt
    trivial
  | f64 ys =>
    obtain ⟨y, rfl⟩ := hmap hv
    obtain ⟨⟨⟩, _⟩ | ⟨⟨⟩, _⟩ | ⟨⟨⟩, _⟩ | ⟨⟨⟩, _⟩ | ⟨_, rfl, _⟩ := rawOf_cases hrt
    trivial

theorem patch_stores {lt : LType} {dt : DataType} (hlt : lTypeOf dt = .ok lt) (hclock : Clock lt)
    (b : Int) : PatchStores lt dt b (normal lt dt b) := by
  rintro rt cr maxdef xs hrt hcr i v hv rfl col off who
  obtain ⟨os, hos, _, hdel⟩ := rawCol_delivers hrt hlt hcr col off who
  refine ⟨os, _, hos, fun m => (hdel m i _ hv).trans ?_⟩
  apply cellOf_normal hlt hclock
  exact rawOf_typed hrt (List.mem_of_getElem? hv)

theorem cast_stores {lt : LType} {dt : DataType} (hlt : lTypeOf dt = .ok lt) (hclock : Clock lt)
    (b : Int) : CastStores lt dt b (normal lt dt b) := by
  rintro cr hcr arr sy rfl ht hsy i v hv rfl col off
  obtain ⟨os, sy', hos, _, hdel⟩ := fillCol_delivers hcr hsy ht hlt col off
  refine ⟨os, sy', hos, fun m => (hdel m i _ hv).trans ?_⟩
  apply cellOf_normal hlt hclock
  exact ht.of_mem (List.mem_of_getElem? hv)

theorem read_stores {srcs : List Src} {who : String} {set : FileSet} (hset : agree srcs who = .ok set)
    (hloaded : ∀ s ∈ srcs, Loaded s) {f c : Nat} {s : Src} (hs : srcs[f]? = some s) {lt : LType}
    (hlt : lTypeOf (typeAt s c) = .ok lt) (hclock : Clock lt) (b : Int) :
    ReadStores set who f c lt b (normal lt (typeAt s c) b) := by
  have hsrcs := (agree_cases hset).1
  subst hsrcs
  intro W content hW want sel hsel p hp hcol g0 g1 hrows g x h0 h1 hx hf s' hs' i v hv hb
    nthreads k m t hk hread
  subst hf hcol hb
  obtain rfl := Option.some.inj (hs.symm.trans hs')
  have hmem : s ∈ set.srcs := List.mem_of_getElem? hs
  have hselected := select_selected hset hsel
  obtain rfl : sel.lt p = lt := Except.ok.inj ((hselected.lt p hp s hmem).symm.trans hlt)
  obtain ⟨n, hn⟩ : ∃ n, s.rg_rows[x.g]? = some n := by
    obtain ⟨s', hs', hn⟩ := mem_groupsOf (List.mem_of_getElem? hx)
    cases hs.symm.trans hs'
    exact ⟨_, hn⟩
  have hanswer := (read_plain hselected hloaded hW hrows who).answer nthreads k m _ hk hread
  obtain rfl : t = windowTable content set sel g0 g1 := Except.ok.inj hanswer
  have hgroup : groupCells content set.srcs (sel.lt p) (sel.col p) x.f x.g =
      (content s x.g (sel.col p)).map (cell (sel.lt p) (typeAt s (sel.col p))) := by
    unfold groupCells
    rw [hs]
    rfl
  have hcell : cell (sel.lt p) (typeAt s (sel.col p)) (some v) =
      normal (sel.lt p) (typeAt s (sel.col p)) (ofVal v) := by
    apply cellOf_normal hlt hclock
    exact rows_typed hW hmem hn hlt (List.mem_of_getElem? hv)
  refine ⟨windowCells content set.srcs (sel.lt p) (sel.col p) g0 g1, ?_, ?_⟩
  · simp [windowTable, hp]
  · rw [windowCells_around content _ _ h0 h1 hx, hgroup, List.append_assoc,
      ← length_windowCells hW.toFaithful (sel.lt p) (sel.col p) g0 g,
      List.getElem?_append_right (Nat.le_add_right _ _), Nat.add_sub_cancel_left]
    obtain ⟨hi, _⟩ := List.getElem?_eq_some_iff.mp hv
    rw [List.getElem?_append_left (by simpa using hi), List.getElem?_map, hv, Option.map_some, hcell]

/-! ## The law of the clocks -/

/-- What `pq_meta` stores for an exact bound is what a read stores for a row that holds it, on both
paths: the value by the unit of its own file, or the null where it has none. -/
theorem a_bound_is_normalized_as_its_value {srcs : List Src} {who : String} {set : FileSet}
    (hset : agree srcs who = .ok set) (hloaded : ∀ s ∈ srcs, Loaded s)
    (hflat : ∀ s ∈ srcs, (∀ f ∈ s.md.fields, ∃ lt, lTypeOf f.data_type = .ok lt) → Flat s)
    {lts : List LType} (hdict : dictTypes set = .ok lts) {c : Nat} {lt : LType}
    (hlt : lts[c]? = some lt) (hclock : Clock lt) {g : Nat} {x : Group}
    (hx : (groupsOf srcs)[g]? = some x) {s : Src} (hs : srcs[x.f]? = some s) {b : Int} {hi : Bool}
    (hb : exactBound lt (typeAt s c) ((s.chunk x.g c).bind (·.statistics)) hi = some b) (old : Cell) :
    (∃ stats, (statsOf set lts old)[c]? = some stats ∧
        (if hi then stats.mx else stats.mn)[g]? = some (normal lt (typeAt s c) b)) ∧
      PatchStores lt (typeAt s c) b (normal lt (typeAt s c) b) ∧
      CastStores lt (typeAt s c) b (normal lt (typeAt s c) b) ∧
      ReadStores set who x.f c lt b (normal lt (typeAt s c) b) ∧
      (normal lt (typeAt s c) b = nullCell lt ↔
        normalized lt (typeAt s c) b = none ∨ normalized lt (typeAt s c) b = some (-reach lt)) ∧
      ∀ v v', v ≤ v' → normal lt (typeAt s c) v ≠ nullCell lt → normal lt (typeAt s c) v' ≠ nullCell lt →
        num (normal lt (typeAt s c) v) ≤ num (normal lt (typeAt s c) v') := by
  have hsrcs := (agree_cases hset).1
  have hmem : s ∈ srcs := List.mem_of_getElem? hs
  obtain ⟨hlen, hfields⟩ := typed_fields hset hdict hmem
  have hc : c < s.md.fields.length := by
    rw [hlen]
    exact (List.getElem?_eq_some_iff.mp hlt).1
  have hof : lTypeOf (typeAt s c) = .ok lt := by
    apply agree_lt hset _ s hmem
    rw [dictTypes_get hdict, List.getElem?_map, hlt, Option.map_some]
  refine ⟨⟨⟨extrema set lt c old false, extrema set lt c old true, nullCounts set c⟩, ?stats, ?bound⟩,
    patch_stores hof hclock b, cast_stores hof hclock b, read_stores hset hloaded hs hof hclock b,
    normal_eq_null hclock, fun v v' hle hv hv' => normal_mono hclock hle hv hv'⟩
  case stats =>
    unfold statsOf
    rw [List.getElem?_map, List.getElem?_zipIdx, hlt, Nat.zero_add]
    rfl
  case bound =>
    subst hsrcs
    have hget := extrema_get hloaded hx hs (hflat s hmem hfields c hc) lt old hi
    rw [extremum_normal hof hclock hb] at hget
    cases hi
    · exact hget
    · exact hget

/-- A file of one instant, whose footer says exactly where it lies. -/
def boundFile (path : String) (u : TimeUnit) (b : Int64) : Src :=
  mk path path
    { fields := [⟨"t", .timestamp u none⟩], leaves := [⟨0, .INT64, 1, 0⟩]
      row_groups := [⟨1, [⟨false, some ⟨some 0, .int64 ⟨some b, some b, true, true⟩⟩⟩]⟩], num_rows := 1 } [1]

def boundFiles : List Src :=
  [boundFile "ns" .nanosecond 5, boundFile "us" .microsecond 1000000000000001]

/-- The microseconds of the second file, beside the nanoseconds of the first. -/
theorem the_microseconds_beside_nanoseconds_are_normalized :
    ∃ set stats, agree boundFiles "pq_meta" = .ok set ∧ (statsOf set [.KP] (.j 0))[0]? = some stats ∧
      stats.mx[1]? = some (.j 53315200000001000) ∧
      ReadStores set "pq_meta" 1 0 .KP 1000000000000001 (.j 53315200000001000) := by
  have hset : agree boundFiles "pq_meta" = .ok ⟨boundFiles, ["t"], [.ok .KP]⟩ := rfl
  have hmem : ∀ s ∈ boundFiles, ∃ path u b, s = boundFile path u b := by
    intro s hs
    simp only [boundFiles, List.mem_cons, List.not_mem_nil, or_false] at hs
    rcases hs with rfl | rfl
    · exact ⟨_, _, _, rfl⟩
    · exact ⟨_, _, _, rfl⟩
  have hloaded : ∀ s ∈ boundFiles, Loaded s := by
    intro s hs
    obtain ⟨path, u, b, rfl⟩ := hmem s hs
    exact ⟨rfl, rfl, rfl⟩
  have hflat : ∀ s ∈ boundFiles, (∀ f ∈ s.md.fields, ∃ lt, lTypeOf f.data_type = .ok lt) → Flat s := by
    intro s hs _ c hc
    obtain ⟨path, u, b, rfl⟩ := hmem s hs
    obtain rfl : c = 0 := Nat.lt_one_iff.mp hc
    rfl
  have hnormal : normal .KP (.timestamp .microsecond none) 1000000000000001 = .j 53315200000001000 := by
    decide
  obtain ⟨⟨stats, hstats, hbound⟩, _, _, hread, _⟩ :=
    @a_bound_is_normalized_as_its_value boundFiles "pq_meta" _ hset hloaded hflat [.KP] rfl 0 .KP rfl
      (by simp [Clock]) 1 ⟨1, 0, 1⟩ rfl (boundFile "us" .microsecond 1000000000000001) rfl
      1000000000000001 true rfl (.j 0)
  exact ⟨_, stats, hset, hstats, hnormal ▸ hbound, hnormal ▸ hread⟩

end parquet_interop.stats
