-- What a read delivers: the L element of each Parquet value, by the type of
-- the column, and the fills of an Arrow array against it.
import ParquetInterop.FillCol

open parquet_interop.ffi parquet_interop.footer parquet_interop.native
open lib.bits lib.stores ArrowNativeTypeOp

namespace parquet_interop.read

/-! ## Values and elements -/

/-- A value of a column, as its Arrow type holds it. -/
inductive Val where
  | bool (x : Bool)
  | i8 (x : Int8)
  | u8 (x : UInt8)
  | i16 (x : Int16)
  | i32 (x : Int32)
  | i64 (x : Int64)
  | f32 (x : F32)
  | f64 (x : F64)
  | str (x : String)
  deriving DecidableEq

/-- `ns_per` in the source. -/
def nsPer : TimeUnit → Int64
  | .second => 1000000000
  | .millisecond => 1000000
  | .microsecond => 1000
  | .nanosecond => 1

/-- A day since 1970 as a day since 2000, or the null when it lies below the floor. -/
def shiftDay (v : Int32) : Int32 := if v < NI + DAY2000 then NI else v - DAY2000

/-- A nanosecond since 1970 as one since 2000, or the null when it lies below the floor. -/
def shiftNs (v : Int64) : Int64 := if v < NJ + NS2000 then NJ else v - NS2000

/-- The element that a value is delivered as. -/
def cellOf : LType → DataType → Val → Cell
  | .KP, .timestamp u _, .i64 v => .j (((checkedMul v (nsPer u)).map shiftNs).getD NJ)
  | .KN, .duration u, .i64 v => .j ((checkedMul v (nsPer u)).getD NJ)
  | .KD, _, .i32 v => .i (shiftDay v)
  | _, _, .bool b => .g (if b then 1 else 0)
  | _, _, .i8 v => .g v.toUInt8
  | _, _, .u8 v => .g v
  | _, _, .i16 v => .h v
  | _, _, .i32 v => .i v
  | _, _, .i64 v => .j v
  | _, _, .f32 v => .e v
  | _, _, .f64 v => .f v
  | _, _, .str s => .s (intern (utf8Bytes s))

/-- The element that a row is delivered as. A Parquet null is the null of the L type. -/
def cell (lt : LType) (dt : DataType) : Option Val → Cell
  | some v => cellOf lt dt v
  | none => nullCell lt

/-! ## The rows of an array -/

/-- The values of an array, with `none` for a null. -/
def Prim.content {T : Type} (a : Prim T) : List (Option T) :=
  match a.nulls with
  | none => a.values.map some
  | some nb => (a.values.zip nb).map fun (v, ok) => if ok then some v else none

/-- The rows of an array. A key that is outside the dictionary reads as a null. -/
def ArrData.content (heap : Heap) : ArrData → List (Option Val)
  | .bool a => a.content.map (·.map .bool)
  | .i8 a => a.content.map (·.map .i8)
  | .u8 a => a.content.map (·.map .u8)
  | .i16 a => a.content.map (·.map .i16)
  | .i32 a => a.content.map (·.map .i32)
  | .i64 a => a.content.map (·.map .i64)
  | .f32 a => a.content.map (·.map .f32)
  | .f64 a => a.content.map (·.map .f64)
  | .dict keys values =>
    match heap values with
    | .ok vs => keys.content.map fun k => (k.bind fun k => (vs[asUsizeKey k]?).join).map .str
    | .error _ => []
  | .str a =>
    match a.utf8 with
    | .ok l => l.map (·.map .str)
    | .error _ => []
  | .other _ => []

def Arr.content (heap : Heap) (a : Arr) : List (Option Val) := a.data.content heap

/-- The data of an array is what its type says, and the crate can cast its strings. -/
def Arr.Typed (heap : Heap) : Arr → Prop
  | ⟨.boolean, .bool _⟩ | ⟨.int8, .i8 _⟩ | ⟨.uint8, .u8 _⟩ | ⟨.int16, .i16 _⟩ | ⟨.int32, .i32 _⟩
  | ⟨.int64, .i64 _⟩ | ⟨.float32, .f32 _⟩ | ⟨.float64, .f64 _⟩ | ⟨.date32, .i32 _⟩
  | ⟨.time32 _, .i32 _⟩ | ⟨.timestamp _ _, .i64 _⟩ | ⟨.duration _, .i64 _⟩ => True
  | ⟨.dictionary k _, .dict _ values⟩ => isKeyType k = true ∧ ∃ vs, heap values = .ok vs
  | ⟨.utf8, .str a⟩ | ⟨.largeUtf8, .str a⟩ | ⟨.utf8View, .str a⟩ => ∃ l, a.utf8 = .ok l
  | _ => False

/-- The values in nanoseconds, with a null for each that leaves `i64`. -/
def scaled (u : TimeUnit) (xs : List (Option Int64)) : List (Option Int64) :=
  xs.map fun x => x.bind fun v => checkedMul v (nsPer u)

/-- The safe cast of the arrow crate to another time unit: a checked multiply that nulls on
overflow. -/
structure Crate.Lawful (cr : Crate) : Prop where
  timestamp : ∀ u tz (a : Prim Int64), ∃ b : Prim Int64,
    cr.cast ⟨.timestamp u tz, .i64 a⟩ (.timestamp .nanosecond none) =
      .ok ⟨.timestamp .nanosecond none, .i64 b⟩ ∧ b.content = scaled u a.content
  duration : ∀ u (a : Prim Int64), ∃ b : Prim Int64,
    cr.cast ⟨.duration u, .i64 a⟩ (.duration .nanosecond) =
      .ok ⟨.duration .nanosecond, .i64 b⟩ ∧ b.content = scaled u a.content

theorem length_content {T : Type} (a : Prim T) : a.content.length = a.values.length := by
  unfold Prim.content
  split
  · rw [List.length_map]
  · rename_i nb hnb
    rw [List.length_map, List.length_zip, a.len_eq nb hnb, Nat.min_self]

theorem length_map_content {T : Type} (a : Prim T) (mk : T → Val) :
    (a.content.map (·.map mk)).length = a.values.length := by
  rw [List.length_map, length_content]

/-- An array of its own type has a row for each of its slots. -/
theorem Arr.Typed.length_content {heap : Heap} {a : Arr} (h : a.Typed heap) :
    (a.content heap).length = a.len := by
  unfold Arr.Typed at h
  split at h <;> first | exact length_map_content _ _ | skip
  · obtain ⟨_, vs, hvs⟩ := h
    simp only [Arr.content, ArrData.content, hvs, List.length_map]
    exact read.length_content _
  · obtain ⟨l, hl⟩ := h
    simp only [Arr.content, ArrData.content, hl, List.length_map]
    exact StrArr.len_eq _ l hl
  · obtain ⟨l, hl⟩ := h
    simp only [Arr.content, ArrData.content, hl, List.length_map]
    exact StrArr.len_eq _ l hl
  · obtain ⟨l, hl⟩ := h
    simp only [Arr.content, ArrData.content, hl, List.length_map]
    exact StrArr.len_eq _ l hl
  · exact h.elim

/-- The value is one that an array of this type holds. -/
def Val.Of : Val → DataType → Prop
  | .bool _, .boolean | .i8 _, .int8 | .u8 _, .uint8 | .i16 _, .int16 | .i32 _, .int32
  | .i64 _, .int64 | .f32 _, .float32 | .f64 _, .float64 | .i32 _, .date32 | .i32 _, .time32 _
  | .i64 _, .timestamp _ _ | .i64 _, .duration _ | .str _, .utf8 | .str _, .largeUtf8
  | .str _, .utf8View | .str _, .dictionary _ _ => True
  | _, _ => False

/-- The rows of an array of its own type are values of that type. -/
theorem Arr.Typed.of_mem {heap : Heap} {a : Arr} (h : a.Typed heap) {v : Val}
    (hv : some v ∈ a.content heap) : v.Of a.data_type := by
  have hmap : ∀ {T : Type} {xs : List (Option T)} {f : T → Val}, some v ∈ xs.map (·.map f) →
      ∃ x, v = f x := by
    intro T xs f hm
    obtain ⟨y, _, hy⟩ := List.mem_map.mp hm
    obtain ⟨x, _, hx⟩ := Option.map_eq_some_iff.mp hy
    exact ⟨x, hx.symm⟩
  unfold Arr.Typed at h
  split at h <;> first | (obtain ⟨x, rfl⟩ := hmap hv; trivial) | skip
  · obtain ⟨_, vs, hvs⟩ := h
    simp only [Arr.content, ArrData.content, hvs] at hv
    obtain ⟨y, _, hy⟩ := List.mem_map.mp hv
    obtain ⟨x, _, rfl⟩ := Option.map_eq_some_iff.mp hy
    trivial
  · obtain ⟨l, hl⟩ := h
    simp only [Arr.content, ArrData.content, hl] at hv
    obtain ⟨x, rfl⟩ := hmap hv
    trivial
  · obtain ⟨l, hl⟩ := h
    simp only [Arr.content, ArrData.content, hl] at hv
    obtain ⟨x, rfl⟩ := hmap hv
    trivial
  · obtain ⟨l, hl⟩ := h
    simp only [Arr.content, ArrData.content, hl] at hv
    obtain ⟨x, rfl⟩ := hmap hv
    trivial
  · exact h.elim

/-- The array that holds these rows, with any value under a null. -/
def Prim.ofContent {T : Type} [Inhabited T] (xs : List (Option T)) : Prim T where
  values := xs.map (·.getD default)
  nulls := some (xs.map (·.isSome))
  len_eq nb hnb := by
    cases hnb
    rw [List.length_map, List.length_map]

theorem content_ofContent {T : Type} [Inhabited T] (xs : List (Option T)) :
    (Prim.ofContent xs).content = xs := by
  show (List.zip (xs.map _) (xs.map _)).map _ = xs
  rw [List.zip_map', List.map_map]
  conv_rhs => rw [← List.map_id xs]
  apply List.map_congr_left
  intro x _
  cases x <;> rfl

/-- A crate whose casts are the safe ones. -/
def Crate.safe (heap : Heap) : Crate where
  heap := heap
  cast a dt :=
    match a, dt with
    | ⟨.timestamp u _, .i64 p⟩, .timestamp .nanosecond none
    | ⟨.duration u, .i64 p⟩, .duration .nanosecond =>
      .ok ⟨dt, .i64 (Prim.ofContent (scaled u p.content))⟩
    | _, _ => .error "cast"
  cast_len a dt b h := by
    have hlen : ∀ (u : TimeUnit) (p : Prim Int64),
        (Prim.ofContent (scaled u p.content)).values.length = p.values.length := by
      intro u p
      rw [← length_content, content_ofContent, scaled, List.length_map, length_content]
    split at h
    · cases h
      exact hlen _ _
    · cases h
      exact hlen _ _
    · cases h

theorem safe_lawful (heap : Heap) : (Crate.safe heap).Lawful where
  timestamp u _ a := ⟨Prim.ofContent (scaled u a.content), rfl, content_ofContent _⟩
  duration u a := ⟨Prim.ofContent (scaled u a.content), rfl, content_ofContent _⟩

/-- A row is the value at its place, unless the bitmap says null. -/
theorem content_cases {T : Type} {a : Prim T} {i : Nat} {x : Option T}
    (h : a.content[i]? = some x) :
    ∃ v, a.values[i]? = some v ∧
      x = if ∃ nb, a.nulls = some nb ∧ nb[i]? = some false then none else some v := by
  unfold Prim.content at h
  split at h
  · rename_i hnone
    rw [List.getElem?_map, Option.map_eq_some_iff] at h
    obtain ⟨v, hv, rfl⟩ := h
    refine ⟨v, hv, ?_⟩
    rw [if_neg]
    rintro ⟨nb, hnb, _⟩
    rw [hnone] at hnb
    cases hnb
  · rename_i nb hnb
    rw [List.getElem?_map, Option.map_eq_some_iff] at h
    obtain ⟨⟨v, ok⟩, hz, rfl⟩ := h
    rw [List.getElem?_zip_eq_some] at hz
    refine ⟨v, hz.1, ?_⟩
    have hbit : (∃ nb', a.nulls = some nb' ∧ nb'[i]? = some false) ↔ ok = false := by
      rw [hnb]
      constructor
      · rintro ⟨nb', hnb', hbit⟩
        cases hnb'
        exact Option.some.inj (hz.2.symm.trans hbit)
      · rintro rfl
        exact ⟨nb, rfl, hz.2⟩
    simp only [hbit]
    cases ok <;> rfl

/-! ## One fill against the rows -/

/-- The rows `[off, off + n)` of column `col`. -/
def Rows (col off n : Nat) (a : Addr Nat) : Prop := a.vec = col ∧ off ≤ a.idx ∧ a.idx < off + n

theorem fillNulls_within {nulls : Option (List Bool)} {col off n : Nat} {nullv : Cell}
    (h : ∀ nb, nulls = some nb → nb.length = n) :
    ∀ o ∈ fillNulls nulls col off nullv, o.Within (Rows col off n) := by
  intro o ho
  unfold fillNulls at ho
  split at ho
  · rename_i nb
    obtain ⟨i, hi, hdst, hsrc⟩ := blank_dst ho
    have hlt := (List.getElem?_eq_some_iff.mp (mem_eachNull.mp hi)).1
    have hn := h nb rfl
    refine ⟨?_, fun a ha => ?_⟩
    · rw [hdst]
      exact ⟨rfl, Nat.le_add_right _ _, by simp only; omega⟩
    · rw [hsrc] at ha
      cases ha
  · cases ho

theorem fill_within {col off : Nat} {vs : List Cell} :
    ∀ o ∈ fill col off vs, o.Within (Rows col off vs.length) := by
  intro o ho
  obtain ⟨i, hi, hdst, hsrc⟩ := fill_dst ho
  refine ⟨?_, fun a ha => ?_⟩
  · rw [hdst]
    exact ⟨rfl, Nat.le_add_right _ _, by simp only; omega⟩
  · rw [hsrc] at ha
    cases ha

theorem each_within {col off n : Nat} {f : Cell → Cell} :
    ∀ o ∈ each col off n f, o.Within (Rows col off n) := by
  intro o ho
  obtain ⟨i, hi, hdst, hsrc⟩ := each_dst ho
  have hin : Rows col off n ⟨col, off + i⟩ := ⟨rfl, Nat.le_add_right _ _, by simp only; omega⟩
  refine ⟨hdst ▸ hin, fun a ha => ?_⟩
  rw [hsrc] at ha
  cases ha
  exact hin

/-- The stores of an array of `n` rows: a value for each row first, and nothing elsewhere. -/
structure Fills (os : List Store) (col off n : Nat) : Prop where
  within : ∀ o ∈ os, o.Within (Rows col off n)
  head : ∃ vs us, os = fill col off vs ++ us ∧ vs.length = n

theorem Fills.reach {os : List Store} {col off n i : Nat} (h : Fills os col off n) (hi : i < n) :
    ∃ o ∈ os, o.dst = ⟨col, off + i⟩ := by
  obtain ⟨vs, us, rfl, hlen⟩ := h.head
  refine ⟨.put ⟨col, off + i⟩ vs[i], List.mem_append_left _ ?_, rfl⟩
  unfold fill
  rw [List.mem_map]
  exact ⟨(vs[i], i), List.mem_zipIdx_iff_getElem?.mpr (List.getElem?_eq_getElem _), rfl⟩

/-- The nulls come last, so they win over whatever the rows held. -/
theorem run_fillNulls (m : Mem Nat Cell) (nulls : Option (List Bool)) (col off : Nat)
    (nullv : Cell) (i : Nat) :
    run m (fillNulls nulls col off nullv) ⟨col, off + i⟩ =
      if ∃ nb, nulls = some nb ∧ nb[i]? = some false then nullv else m ⟨col, off + i⟩ := by
  unfold fillNulls
  split
  · rename_i nb
    rw [run_blank]
    by_cases hi : i ∈ eachNull nb
    · rw [if_pos hi, if_pos ⟨nb, rfl, mem_eachNull.mp hi⟩]
    · rw [if_neg hi, if_neg]
      rintro ⟨nb', hnb', hbit⟩
      cases hnb'
      exact hi (mem_eachNull.mpr hbit)
  · rw [if_neg]
    · rfl
    · rintro ⟨nb, hnb, _⟩
      cases hnb

/-- A fill of values and nulls leaves each row as its own element. -/
theorem run_fill_nulls (m : Mem Nat Cell) {T : Type} (a : Prim T) (col off : Nat) (f : T → Cell)
    (nullv : Cell) {i : Nat} {x : Option T} (h : a.content[i]? = some x) :
    run m (fill col off (a.values.map f) ++ fillNulls a.nulls col off nullv) ⟨col, off + i⟩ =
      (x.map f).getD nullv := by
  obtain ⟨v, hv, rfl⟩ := content_cases h
  have hfill : run m (fill col off (a.values.map f)) ⟨col, off + i⟩ = f v := by
    apply run_fill
    rw [List.getElem?_map, hv]
    rfl
  rw [run_append, run_fillNulls, hfill]
  split <;> rfl

/-- `fill_prim` leaves the shifted value in each row, and the null in a null row. -/
theorem run_fillPrim (m : Mem Nat Cell) {T : Type} [ArrowNativeTypeOp T] {a : Prim T}
    {col off : Nat} {nullv sh : T} {os : List Store}
    (hos : fillPrim (some a) col off nullv sh = .ok os) {i : Nat} {x : Option T}
    (h : a.content[i]? = some x) :
    run m os ⟨col, off + i⟩ =
      toCell ((x.map fun v => if isZero sh then v else shiftOr nullv sh v).getD nullv) := by
  cases hos
  obtain ⟨v, hv, rfl⟩ := content_cases h
  have hlt := (List.getElem?_eq_some_iff.mp hv).1
  have hfill : run m (fill col off (a.values.map toCell)) ⟨col, off + i⟩ = toCell v := by
    apply run_fill
    rw [List.getElem?_map, hv]
    rfl
  rw [run_append, run_fillNulls, run_append]
  split
  · rfl
  · split
    · simpa using hfill
    · rw [run_each _ _ _ _ _ hlt, hfill, ofCell_toCell]
      rfl

theorem fill_nulls_fills {T : Type} (a : Prim T) (col off : Nat) (f : T → Cell) (nullv : Cell) :
    Fills (fill col off (a.values.map f) ++ fillNulls a.nulls col off nullv) col off
      a.values.length := by
  refine ⟨fun o ho => ?_, _, _, rfl, List.length_map _⟩
  rcases List.mem_append.mp ho with ho | ho
  · have := fill_within o ho
    rwa [List.length_map] at this
  · exact fillNulls_within a.len_eq o ho

theorem fillPrim_fills {T : Type} [ArrowNativeTypeOp T] {a : Option (Prim T)} {n : Nat}
    {col off : Nat} {nullv sh : T} {os : List Store} (hos : fillPrim a col off nullv sh = .ok os)
    (hn : ∀ b, a = some b → b.values.length = n) : Fills os col off n := by
  unfold fillPrim at hos
  split at hos
  · cases hos
  · rename_i b
    cases hos
    rw [← hn b rfl]
    refine ⟨fun o ho => ?_, _, _, List.append_assoc _ _ _, List.length_map _⟩
    rcases List.mem_append.mp ho with ho | ho
    · rcases List.mem_append.mp ho with ho | ho
      · have := fill_within o ho
        rwa [List.length_map] at this
      · split at ho
        · cases ho
        · exact each_within o ho
    · exact fillNulls_within b.len_eq o ho

theorem fillBool_fills {a : Option (Prim Bool)} {n : Nat} {col off : Nat} {os : List Store}
    (hos : fillBool a col off = .ok os) (hn : ∀ b, a = some b → b.values.length = n) :
    Fills os col off n := by
  unfold fillBool at hos
  split at hos
  · cases hos
  · rename_i b
    cases hos
    exact hn b rfl ▸ fill_nulls_fills b col off _ _

theorem toType_len {cr : Crate} {a b : Arr} {dt : DataType} {who : String}
    (h : toType cr a dt who = .ok b) : b.len = a.len := by
  unfold toType at h
  split at h
  · cases h
    rfl
  · split at h
    · rename_i c hc
      cases h
      exact cr.cast_len a dt b hc
    · cases h

theorem fillNs_fills {cr : Crate} {a : Arr} {dt : DataType} {who : String}
    {as : Arr → Option (Prim Int64)} {col off : Nat} {sh : Int64} {os : List Store}
    (has : ∀ b c, as b = some c → c.values.length = b.len)
    (hos : fillNs cr a dt who as col off sh = .ok os) : Fills os col off a.len := by
  unfold fillNs at hos
  split at hos
  · rename_i b hb
    exact fillPrim_fills hos fun c hc => (has b c hc).trans (toType_len hb)
  · cases hos

theorem getAll_length (sy : SymCache) (empty : Sym) (vs : List (Option String)) :
    (sy.getAll empty vs).1.length = vs.length := by
  induction vs generalizing sy with
  | nil => rfl
  | cons v vs ih =>
    cases v with
    | none => simp only [SymCache.getAll, List.length_cons, ih]
    | some v => simp only [SymCache.getAll, List.length_cons, ih]

theorem fillSymDict_fills {heap : Heap} {keys : Prim Int} {values : ArrayId} {col off : Nat}
    {sy sy' : SymCache} {os : List Store}
    (hos : fillSymDict heap keys values col off sy = (.ok os, sy')) :
    Fills os col off keys.values.length := by
  unfold fillSymDict at hos
  dsimp only at hos
  split at hos
  · cases hos
  · cases hos
    exact fill_nulls_fills keys col off _ _

theorem fillSymPlain_fills {a : StrArr} {col off : Nat} {sy sy' : SymCache} {os : List Store}
    (hos : fillSymPlain a col off sy = (.ok os, sy')) : Fills os col off a.len := by
  unfold fillSymPlain at hos
  split at hos
  · cases hos
  · rename_i l hl
    cases hos
    refine ⟨fun o ho => ?_, _, [], (List.append_nil _).symm, ?_⟩
    · have := fill_within o ho
      rwa [List.length_map, getAll_length, a.len_eq l hl] at this
    · rw [List.length_map, getAll_length, a.len_eq l hl]

/-- Whatever the array holds, `fill_col` stores in the rows of the array, and in all of them. -/
theorem fillCol_fills {cr : Crate} {lt : LType} {col off : Nat} {arr : Arr} {sy sy' : SymCache}
    {os : List Store} (h : fillCol cr lt col off arr sy = (.ok os, sy')) :
    Fills os col off arr.len := by
  unfold fillCol at h
  split at h
  · exact fillBool_fills (congrArg Prod.fst h) fun _ => downcast_len
  · split at h
    · exact fillPrim_fills (congrArg Prod.fst h) fun _ => downcast_len
    · exact fillPrim_fills (congrArg Prod.fst h) fun _ => downcast_len
  · exact fillPrim_fills (congrArg Prod.fst h) fun _ => downcast_len
  · exact fillPrim_fills (congrArg Prod.fst h) fun _ => downcast_len
  · exact fillPrim_fills (congrArg Prod.fst h) fun _ => downcast_len
  · exact fillPrim_fills (congrArg Prod.fst h) fun _ => downcast_len
  · exact fillPrim_fills (congrArg Prod.fst h) fun _ => downcast_len
  · exact fillNs_fills (fun _ _ => downcast_len) (congrArg Prod.fst h)
  · exact fillPrim_fills (congrArg Prod.fst h) fun _ => downcast_len
  · exact fillPrim_fills (congrArg Prod.fst h) fun _ => downcast_len
  · exact fillNs_fills (fun _ _ => downcast_len) (congrArg Prod.fst h)
  · split at h
    · split at h
      · rename_i keys values hd
        have hlen : keys.values.length = arr.len := by
          unfold asDictionary at hd
          split at hd
          · split at hd
            · cases hd
              rfl
            · cases hd
          · cases hd
        exact hlen ▸ fillSymDict_fills h
      · cases congrArg Prod.fst h
    · split at h
      · rename_i a ha
        have hlen : a.len = arr.len := by
          unfold Arr.len
          rw [ha]
          rfl
        exact hlen ▸ fillSymPlain_fills h
      · cases congrArg Prod.fst h
  · cases congrArg Prod.fst h

/-- The plain fills leave the code tables of the cache alone. -/
theorem fillCol_luts (cr : Crate) (lt : LType) (col off : Nat) (arr : Arr) (sy : SymCache) :
    (fillCol cr lt col off arr sy).2.luts = sy.luts := by
  have hdict : ∀ keys values, (fillSymDict cr.heap keys values col off sy).2.luts = sy.luts := by
    intro keys values
    unfold fillSymDict
    dsimp only
    split <;> exact (dictTable_luts _ _ _ _).trans (get_luts _ _)
  have hplain : ∀ a, (fillSymPlain a col off sy).2.luts = sy.luts := by
    intro a
    unfold fillSymPlain
    split
    · rfl
    · exact (getAll_luts _ _ _).trans (get_luts _ _)
  unfold fillCol
  split <;> try rfl
  · split <;> rfl
  · split
    · split
      · exact hdict _ _
      · rfl
    · split
      · exact hplain _
      · rfl

/-! ## Every row is delivered -/

theorem checkedMul_one (v : Int64) : checkedMul v 1 = some v := by
  have hlo := Int64.le_toInt v
  have hhi := Int64.toInt_lt v
  have hone : (1 : Int64).toInt = 1 := rfl
  unfold checkedMul
  rw [hone, Int.mul_one]
  dsimp only
  rw [if_pos ⟨by omega, by omega⟩, Int64.ofInt_toInt]

/-- The stores leave each row of `xs` as `R` says, from row `off` on. -/
def Leaves (os : List Store) (col off : Nat) (R : Option Val → Cell → Prop)
    (xs : List (Option Val)) : Prop :=
  ∀ (m : Mem Nat Cell) (i : Nat) x, xs[i]? = some x → R x (run m os ⟨col, off + i⟩)

/-- The stores leave each row of `xs` as its element. -/
def Delivers (os : List Store) (col off : Nat) (lt : LType) (dt : DataType)
    (xs : List (Option Val)) : Prop := Leaves os col off (fun x c => c = cell lt dt x) xs

theorem Leaves.append {os us : List Store} {col off : Nat} {R : Option Val → Cell → Prop}
    {xs ys : List (Option Val)} (h : Leaves os col off R xs)
    (hus : ∀ o ∈ us, ∀ i < xs.length, o.dst ≠ ⟨col, off + i⟩)
    (hy : Leaves us col (off + xs.length) R ys) : Leaves (os ++ us) col off R (xs ++ ys) := by
  intro m i x hx
  rw [run_append]
  by_cases hi : i < xs.length
  · rw [List.getElem?_append_left hi] at hx
    rw [run_frame fun o ho => hus o ho i hi]
    exact h m i x hx
  · rw [List.getElem?_append_right (by omega)] at hx
    have := hy (run m os) (i - xs.length) x hx
    rwa [show off + xs.length + (i - xs.length) = off + i by omega] at this

theorem prim_delivers {T : Type} [ArrowNativeTypeOp T] (a : Prim T) (mk : T → Val) (col off : Nat)
    {nullv sh : T} {lt : LType} {dt : DataType}
    (hcell : ∀ v, toCell (if isZero sh then v else shiftOr nullv sh v) = cellOf lt dt (mk v))
    (hnull : toCell nullv = nullCell lt) :
    ∃ os, fillPrim (some a) col off nullv sh = .ok os ∧
      Delivers os col off lt dt (a.content.map (·.map mk)) := by
  refine ⟨_, rfl, fun m i x hx => ?_⟩
  rw [List.getElem?_map, Option.map_eq_some_iff] at hx
  obtain ⟨y, hy, rfl⟩ := hx
  rw [run_fillPrim m rfl hy]
  cases y with
  | none => exact hnull
  | some v => exact hcell v

/-- Nanoseconds are their own scaling. -/
theorem scaled_ns (xs : List (Option Int64)) : scaled .nanosecond xs = xs := by
  unfold scaled
  conv_rhs => rw [← List.map_id xs]
  apply List.map_congr_left
  intro x _
  cases x with
  | none => rfl
  | some v => exact checkedMul_one v

theorem toType_timestamp {cr : Crate} (hcr : cr.Lawful) (u : TimeUnit) (tz : Option String)
    (a : Prim Int64) (who : String) : ∃ b : Prim Int64,
    toType cr ⟨.timestamp u tz, .i64 a⟩ (.timestamp .nanosecond none) who =
      .ok ⟨.timestamp .nanosecond none, .i64 b⟩ ∧ b.content = scaled u a.content := by
  unfold toType
  by_cases h : DataType.timestamp u tz = .timestamp .nanosecond none
  · cases h
    exact ⟨a, rfl, (scaled_ns _).symm⟩
  · obtain ⟨b, hb, hc⟩ := hcr.timestamp u tz a
    exact ⟨b, by rw [if_neg h, hb], hc⟩

theorem toType_duration {cr : Crate} (hcr : cr.Lawful) (u : TimeUnit) (a : Prim Int64)
    (who : String) : ∃ b : Prim Int64,
    toType cr ⟨.duration u, .i64 a⟩ (.duration .nanosecond) who =
      .ok ⟨.duration .nanosecond, .i64 b⟩ ∧ b.content = scaled u a.content := by
  unfold toType
  by_cases h : DataType.duration u = .duration .nanosecond
  · cases h
    exact ⟨a, rfl, (scaled_ns _).symm⟩
  · obtain ⟨b, hb, hc⟩ := hcr.duration u a
    exact ⟨b, by rw [if_neg h, hb], hc⟩

theorem timestamp_shift :
    (fun w : Int64 => if isZero NS2000 then w else shiftOr NJ NS2000 w) = shiftNs := by
  funext w
  show (if decide (w < NJ + NS2000) then NJ else w - NS2000) = shiftNs w
  simp [shiftNs]

theorem duration_shift : (fun w : Int64 => if isZero (0 : Int64) then w else shiftOr NJ 0 w) = id := by
  funext w
  rfl

/-- The fill of a scaled array: the scale nulls what it cannot hold, and the shift what lies
below the floor. -/
theorem ns_delivers {cr : Crate} {arr b' : Arr} {u : TimeUnit} {lt : LType} {who : String}
    {dt : DataType} {as : Arr → Option (Prim Int64)} {sh : Int64} {a b : Prim Int64} (col off : Nat)
    (hb : toType cr arr dt who = .ok b') (has : as b' = some b) (hd : arr.data = .i64 a)
    (hscale : b.content = scaled u a.content)
    (hcell : ∀ v, cellOf lt arr.data_type (.i64 v) =
      .j (((checkedMul v (nsPer u)).map fun w => if isZero sh then w else shiftOr NJ sh w).getD NJ))
    (hnull : nullCell lt = .j NJ) :
    ∃ os, fillNs cr arr dt who as col off sh = .ok os ∧
      Delivers os col off lt arr.data_type (arr.content cr.heap) := by
  obtain ⟨os, hos⟩ : ∃ os, fillPrim (some b) col off NJ sh = .ok os := ⟨_, rfl⟩
  refine ⟨os, by unfold fillNs; rw [hb]; dsimp only; rw [has, hos], fun m i x hx => ?_⟩
  have hcontent : arr.content cr.heap = a.content.map (·.map .i64) := by
    unfold Arr.content
    rw [hd]
    rfl
  rw [hcontent, List.getElem?_map, Option.map_eq_some_iff] at hx
  obtain ⟨y, hy, rfl⟩ := hx
  have hbi : b.content[i]? = some (y.bind fun v => checkedMul v (nsPer u)) := by
    rw [hscale]
    unfold scaled
    rw [List.getElem?_map, hy]
    rfl
  rw [run_fillPrim m hos hbi]
  cases y with
  | none => exact hnull.symm
  | some v => exact (hcell v).symm

/-- A dictionary of strings: every key gathers the interned symbol of its value. -/
theorem dict_delivers {heap : Heap} {keys : Prim Int} {values : ArrayId} {sy : SymCache}
    {vs : List (Option String)} (hsy : sy.Coherent heap) (hvs : heap values = .ok vs)
    (col off : Nat) (dt : DataType) :
    ∃ os sy', fillSymDict heap keys values col off sy = (.ok os, sy') ∧ sy'.Coherent heap ∧
      Delivers os col off .KS dt ((ArrData.dict keys values).content heap) := by
  obtain ⟨hget, hsy1⟩ := get_spec hsy []
  obtain ⟨htbl, hsy2⟩ := dictTable_spec hsy1 hvs
  refine ⟨_, _, by unfold fillSymDict; simp only [hget, htbl]; rfl, hsy2, fun m i x hx => ?_⟩
  simp only [ArrData.content, hvs, List.getElem?_map, Option.map_eq_some_iff] at hx
  obtain ⟨y, hy, rfl⟩ := hx
  rw [run_fill_nulls m keys col off _ _ hy]
  cases y with
  | none => rfl
  | some k =>
    simp only [Option.map_some, Option.getD_some, Option.bind_some, List.getElem?_map]
    rcases vs[asUsizeKey k]? with _ | _ | v <;> rfl

theorem plain_delivers {heap : Heap} {a : StrArr} {sy : SymCache} {l : List (Option String)}
    (hsy : sy.Coherent heap) (hl : a.utf8 = .ok l) (col off : Nat) (dt : DataType) :
    ∃ os sy', fillSymPlain a col off sy = (.ok os, sy') ∧ sy'.Coherent heap ∧
      Delivers os col off .KS dt ((ArrData.str a).content heap) := by
  obtain ⟨hget, hsy1⟩ := get_spec hsy []
  obtain ⟨hall, hsy2⟩ := getAll_spec hsy1 l
  refine ⟨_, _, by unfold fillSymPlain; rw [hl]; simp only [hget]; rfl, hsy2, fun m i x hx => ?_⟩
  simp only [ArrData.content, hl, List.getElem?_map, Option.map_eq_some_iff] at hx
  obtain ⟨v, hv, rfl⟩ := hx
  apply run_fill
  rw [List.getElem?_map, hall, List.getElem?_map, hv]
  cases v <;> rfl

theorem bool_delivers (a : Prim Bool) (col off : Nat) (dt : DataType) :
    ∃ os, fillBool (some a) col off = .ok os ∧
      Delivers os col off .KB dt (a.content.map (·.map .bool)) := by
  refine ⟨_, rfl, fun m i x hx => ?_⟩
  rw [List.getElem?_map, Option.map_eq_some_iff] at hx
  obtain ⟨y, hy, rfl⟩ := hx
  rw [run_fill_nulls m a col off _ _ hy]
  cases y <;> rfl

/-- `fill_col` delivers every row of an array of the column's type, whatever the worker's
cache holds. -/
theorem fillCol_delivers {cr : Crate} (hcr : cr.Lawful) {lt : LType} {arr : Arr} {sy : SymCache}
    (hsy : sy.Coherent cr.heap) (ht : arr.Typed cr.heap) (hlt : lTypeOf arr.data_type = .ok lt)
    (col off : Nat) :
    ∃ os sy', fillCol cr lt col off arr sy = (.ok os, sy') ∧ sy'.Coherent cr.heap ∧
      Delivers os col off lt arr.data_type (arr.content cr.heap) := by
  have hprim : ∀ {r : Except String (List Store)},
      (∃ os, r = .ok os ∧ Delivers os col off lt arr.data_type (arr.content cr.heap)) →
      fillCol cr lt col off arr sy = (r, sy) →
      ∃ os sy', fillCol cr lt col off arr sy = (.ok os, sy') ∧ sy'.Coherent cr.heap ∧
        Delivers os col off lt arr.data_type (arr.content cr.heap) := by
    rintro r ⟨os, rfl, hos⟩ hr
    exact ⟨os, sy, hr, hsy, hos⟩
  obtain ⟨dt, d⟩ := arr
  cases dt with
  | boolean =>
    cases hlt
    cases d <;> first | exact ht.elim | skip
    rename_i a
    exact hprim (bool_delivers a col off _) rfl
  | int8 =>
    cases hlt
    cases d <;> first | exact ht.elim | skip
    rename_i a
    exact hprim (prim_delivers a .i8 col off (fun _ => rfl) rfl) rfl
  | int16 =>
    cases hlt
    cases d <;> first | exact ht.elim | skip
    rename_i a
    exact hprim (prim_delivers a .i16 col off (fun _ => rfl) rfl) rfl
  | int32 =>
    cases hlt
    cases d <;> first | exact ht.elim | skip
    rename_i a
    exact hprim (prim_delivers a .i32 col off (fun _ => rfl) rfl) rfl
  | int64 =>
    cases hlt
    cases d <;> first | exact ht.elim | skip
    rename_i a
    exact hprim (prim_delivers a .i64 col off (fun _ => rfl) rfl) rfl
  | uint8 =>
    cases hlt
    cases d <;> first | exact ht.elim | skip
    rename_i a
    exact hprim (prim_delivers a .u8 col off (fun _ => rfl) rfl) rfl
  | float32 =>
    cases hlt
    cases d <;> first | exact ht.elim | skip
    rename_i a
    exact hprim (prim_delivers a .f32 col off (fun _ => rfl) rfl) rfl
  | float64 =>
    cases hlt
    cases d <;> first | exact ht.elim | skip
    rename_i a
    exact hprim (prim_delivers a .f64 col off (fun _ => rfl) rfl) rfl
  | date32 =>
    cases hlt
    cases d <;> first | exact ht.elim | skip
    rename_i a
    refine hprim (prim_delivers a .i32 col off (fun v => ?_) rfl) rfl
    show Cell.i (if decide (v < NI + DAY2000) then NI else v - DAY2000) = .i (shiftDay v)
    simp [shiftDay]
  | time32 u =>
    cases u <;> cases hlt
    cases d <;> first | exact ht.elim | skip
    rename_i a
    exact hprim (prim_delivers a .i32 col off (fun _ => rfl) rfl) rfl
  | timestamp u tz =>
    cases hlt
    cases d <;> first | exact ht.elim | skip
    rename_i a
    obtain ⟨b, hb, hscale⟩ := toType_timestamp hcr u tz a "pq_read: timestamp"
    refine hprim (ns_delivers col off hb rfl rfl hscale (fun v => ?_) rfl) rfl
    rw [timestamp_shift]
    rfl
  | duration u =>
    cases hlt
    cases d <;> first | exact ht.elim | skip
    rename_i a
    obtain ⟨b, hb, hscale⟩ := toType_duration hcr u a "pq_read: duration"
    refine hprim (ns_delivers col off hb rfl rfl hscale (fun v => ?_) rfl) rfl
    rw [duration_shift, Option.map_id]
    rfl
  | dictionary k v =>
    have hks : lt = .KS := by
      simp only [lTypeOf] at hlt
      split at hlt
      · exact (Except.ok.inj hlt).symm
      · cases hlt
    subst hks
    cases d <;> first | exact ht.elim | skip
    rename_i keys values
    obtain ⟨hk, vs, hvs⟩ := ht
    obtain ⟨os, sy', hos, hsy', hdel⟩ := dict_delivers hsy hvs col off (.dictionary k v)
    refine ⟨os, sy', ?_, hsy', hdel⟩
    simp only [fillCol, asDictionary, hk, if_true]
    exact hos
  | utf8 =>
    cases hlt
    cases d <;> first | exact ht.elim | skip
    obtain ⟨l, hl⟩ := ht
    exact plain_delivers hsy hl col off _
  | largeUtf8 =>
    cases hlt
    cases d <;> first | exact ht.elim | skip
    obtain ⟨l, hl⟩ := ht
    exact plain_delivers hsy hl col off _
  | utf8View =>
    cases hlt
    cases d <;> first | exact ht.elim | skip
    obtain ⟨l, hl⟩ := ht
    exact plain_delivers hsy hl col off _
  | uint16 => cases hlt
  | uint32 => cases hlt
  | uint64 => cases hlt
  | other name => cases hlt

end parquet_interop.read
