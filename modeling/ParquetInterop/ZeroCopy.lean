-- The zero-copy path against the Arrow path: the in-place pass leaves every
-- row as the element that the Arrow fills leave it.
import ParquetInterop.Delivered
import ParquetInterop.RawCol

open parquet_interop.ffi parquet_interop.footer parquet_interop.native
open lib.stores ArrowNativeTypeOp

namespace parquet_interop.read

/-! ## What `read_records` is trusted with -/

section
variable {T : Type}

/-- The values of a batch, packed at the front. -/
def packed (ys : List (Option T)) : List T := ys.filterMap id

/-- One definition level for each record, and the top level where the record has a value. -/
structure Levels (maxdef : Int16) (defs : List Int16) (ys : List (Option T)) : Prop where
  len : defs.length = ys.length
  top : ∀ (i : Nat) (y : Option T), ys[i]? = some y → (defs[i]? = some maxdef ↔ y.isSome = true)

/-- The report on a batch of records. A column that is required has no nulls and no levels. -/
structure Recs.Honest (r : Recs) (maxdef : Int16) (ys : List (Option T)) : Prop where
  recs : r.recs = ys.length
  vals : r.vals = (packed ys).length
  levels : 0 < maxdef → Levels maxdef r.defs ys
  required : ¬0 < maxdef → (packed ys).length = ys.length

/-- A reader of a chunk of rows `xs`: it goes on until the rows are read, and packs the values
of each batch at the front of the vector. -/
def RecordReader.Honest (rd : RecordReader T) (maxdef : Int16) (xs : List (Option T)) : Prop :=
  ∀ done want, 0 < want → done < xs.length →
    ∃ r, (rd.respond done want).out = .ok r ∧ (rd.respond done want).moved = false ∧
      0 < r.recs ∧ done + r.recs ≤ xs.length ∧
      (rd.respond done want).buf = packed ((xs.drop done).take r.recs) ∧
      r.Honest maxdef ((xs.drop done).take r.recs)

theorem length_packed_le (ys : List (Option T)) : (packed ys).length ≤ ys.length :=
  List.length_filterMap_le _ _

theorem packed_snoc (ys : List (Option T)) (y : Option T) :
    packed (ys ++ [y]) = packed ys ++ y.toList := by
  unfold packed
  rw [List.filterMap_append]
  cases y <;> rfl

/-- The reader of the rows `xs` that answers as many records as it is asked for. -/
def RecordReader.ofRows (maxdef : Int16) (xs : List (Option T)) : RecordReader T where
  respond done want :=
    let ys := (xs.drop done).take want
    ⟨packed ys, false, .ok ⟨ys.length, (packed ys).length,
      ys.map fun y => if y.isSome then maxdef else maxdef - 1⟩⟩
  recs_le done want r h := by
    cases h
    rw [List.length_take]
    exact Nat.min_le_left _ _

theorem ofRows_honest {maxdef : Int16} (hmax : 0 < maxdef) (xs : List (Option T)) :
    (RecordReader.ofRows maxdef xs).Honest maxdef xs := by
  intro done want hwant hdone
  have hlen : ((xs.drop done).take want).length = min want (xs.length - done) := by
    rw [List.length_take, List.length_drop]
  have htake : (xs.drop done).take ((xs.drop done).take want).length = (xs.drop done).take want := by
    rw [hlen, ← List.length_drop, ← List.take_eq_take_min]
  have hne : maxdef - 1 ≠ maxdef := by
    intro he
    have hbits : maxdef.toBitVec - 1#16 = maxdef.toBitVec := congrArg Int16.toBitVec he
    bv_omega
  refine ⟨_, rfl, rfl, ?_, ?_, ?_, ?_⟩
  · show 0 < ((xs.drop done).take want).length
    omega
  · show done + ((xs.drop done).take want).length ≤ xs.length
    omega
  · show packed ((xs.drop done).take want) = _
    rw [htake]
  · show Recs.Honest _ maxdef ((xs.drop done).take ((xs.drop done).take want).length)
    rw [htake]
    refine ⟨rfl, rfl, fun _ => ⟨List.length_map _, fun i y hy => ?_⟩, fun hn => absurd hmax hn⟩
    rw [List.getElem?_map, hy]
    cases y with
    | none => simp [hne]
    | some w => simp

/-- Nothing was null, so nothing has to move. -/
theorem packed_of_full {ys : List (Option T)} (h : (packed ys).length = ys.length) :
    ys = (packed ys).map some := by
  induction ys with
  | nil => rfl
  | cons y ys ih =>
    cases y with
    | none =>
      have := length_packed_le ys
      simp only [packed, List.filterMap_cons, id, List.length_cons] at h this
      omega
    | some w =>
      simp only [packed, List.filterMap_cons, id, List.length_cons, Nat.add_right_cancel_iff,
        List.map_cons, List.cons.injEq, true_and] at h ⊢
      exact ih h

end

/-! ## The backward pass -/

section
variable {T : Type}

theorem ptrAdd_decUsize {p vp : Nat} (h : vp < 2 ^ 63) : ptrAdd p (decUsize (vp + 1)) = p + vp := by
  have hdec : decUsize (vp + 1) = vp := by
    unfold decUsize
    omega
  rw [hdec, ptrAdd, if_pos h]

variable {col p : Nat} {nullv : Cell} {f : Cell → Cell} {dl : List Int16} {maxdef : Int16}
  {ys : List (Option T)}

/-- One row of the pass, from the top: a value comes from at or below its row. -/
theorem spread_succ {i : Nat} {y : Option T} (hy : ys[i]? = some y)
    (hdl : dl[i]? = some maxdef ↔ y.isSome = true) (hlen : ys.length < 2 ^ 63) :
    spread col p nullv f dl maxdef (i + 1) (packed (ys.take (i + 1))).length =
      (match y with
        | some _ => .move ⟨col, p + i⟩ ⟨col, p + (packed (ys.take i)).length⟩ f
        | none => .put ⟨col, p + i⟩ nullv) ::
        spread col p nullv f dl maxdef i (packed (ys.take i)).length := by
  have htake : ys.take (i + 1) = ys.take i ++ [y] := by
    rw [List.take_add_one, hy]
    rfl
  have hle : (packed (ys.take i)).length < 2 ^ 63 := by
    have h1 := length_packed_le (ys.take i)
    rw [List.length_take] at h1
    omega
  rw [htake, packed_snoc]
  conv_lhs => unfold spread
  cases y with
  | none =>
    rw [if_neg (by rw [hdl]; exact Bool.false_ne_true)]
    simp
  | some w =>
    have hadd : (packed (ys.take i) ++ [w]).length = (packed (ys.take i)).length + 1 := by
      rw [List.length_append, List.length_singleton]
    rw [if_pos (hdl.mpr rfl)]
    simp only [Option.toList_some]
    have hdec : decUsize ((packed (ys.take i)).length + 1) = (packed (ys.take i)).length := by
      unfold decUsize
      omega
    rw [hadd, ptrAdd_decUsize hle, hdec]

theorem spread_within (hdl : Levels maxdef dl ys) (hlen : ys.length < 2 ^ 63)
    (n : Nat) (hn : n ≤ ys.length) :
    ∀ o ∈ spread col p nullv f dl maxdef n (packed (ys.take n)).length,
      o.Within (Rows col p n) := by
  induction n with
  | zero =>
    intro o ho
    cases ho
  | succ i ih =>
    obtain ⟨y, hy⟩ : ∃ y, ys[i]? = some y := ⟨_, List.getElem?_eq_getElem hn⟩
    have hin : ∀ k ≤ i, Rows col p (i + 1) ⟨col, p + k⟩ := by
      intro k hk
      exact ⟨rfl, Nat.le_add_right _ _, by simp only; omega⟩
    have hle : (packed (ys.take i)).length ≤ i := by
      have h1 := length_packed_le (ys.take i)
      rw [List.length_take] at h1
      omega
    rw [spread_succ hy (hdl.top i y hy) hlen]
    intro o ho
    rcases List.mem_cons.mp ho with rfl | ho
    · cases y with
      | none => exact ⟨hin i le_rfl, by rintro a ⟨⟩⟩
      | some w => exact ⟨hin i le_rfl, by rintro a ⟨⟩; exact hin _ hle⟩
    · obtain ⟨h1, h2⟩ := ih (by omega) o ho
      have hup : ∀ a, Rows col p i a → Rows col p (i + 1) a := by
        rintro a ⟨g1, g2, g3⟩
        exact ⟨g1, g2, by omega⟩
      exact ⟨hup _ h1, fun a ha => hup a (h2 a ha)⟩

variable [ArrowNativeTypeOp T]

/-- The induction is on the rows still to do; the values packed below them are still in place. -/
theorem run_spread (hdl : Levels maxdef dl ys) (hlen : ys.length < 2 ^ 63)
    (n : Nat) (hn : n ≤ ys.length) (m : Mem Nat Cell)
    (hm : ∀ c w, (packed (ys.take n))[c]? = some w → m ⟨col, p + c⟩ = toCell w) :
    ∀ i y, i < n → ys[i]? = some y →
      run m (spread col p nullv f dl maxdef n (packed (ys.take n)).length) ⟨col, p + i⟩ =
        (y.map fun w => f (toCell w)).getD nullv := by
  induction n generalizing m with
  | zero =>
    intro i y hi
    cases hi
  | succ k ih =>
    obtain ⟨z, hz⟩ : ∃ z, ys[k]? = some z := ⟨_, List.getElem?_eq_getElem hn⟩
    have htake : packed (ys.take (k + 1)) = packed (ys.take k) ++ z.toList := by
      rw [List.take_add_one, hz]
      exact packed_snoc _ _
    have hle : (packed (ys.take k)).length ≤ k := by
      have h1 := length_packed_le (ys.take k)
      rw [List.length_take] at h1
      omega
    have hlow : ∀ c w, (packed (ys.take k))[c]? = some w → m ⟨col, p + c⟩ = toCell w := by
      intro c w hc
      apply hm
      rw [htake, List.getElem?_append_left (List.getElem?_eq_some_iff.mp hc).1, hc]
    rw [spread_succ hz (hdl.top k z hz) hlen]
    intro i y hi hy
    rw [run_cons]
    by_cases hik : i = k
    · subst hik
      have hyz : y = z := Option.some.inj (hy.symm.trans hz)
      subst hyz
      rw [run_frame fun o ho he => by
        obtain ⟨_, _, h3⟩ := spread_dst o ho
        rw [he] at h3
        exact absurd h3 (Nat.lt_irrefl _)]
      cases y with
      | none => exact if_pos rfl
      | some w =>
        have hw : m ⟨col, p + (packed (ys.take i)).length⟩ = toCell w := by
          apply hm
          rw [htake]
          exact List.getElem?_concat_length
        show (if _ then _ else _) = _
        rw [if_pos rfl, hw]
        rfl
    · refine ih (by omega) _ (fun c w hc => ?_) i y (by omega) hy
      have hck : c < k := Nat.lt_of_lt_of_le (List.getElem?_eq_some_iff.mp hc).1 hle
      rw [exec_frame, hlow c w hc]
      cases z <;> exact addr_ne (by omega)

/-- Nothing was null: the values are where they belong, and the pass is one in place. -/
theorem patch_full {n vals : Nat} {nullv sh mul : T} {defs : Option (List Int16)}
    (h : ¬vals < n) : patch col p n vals nullv sh mul defs maxdef =
      if ¬isZero sh ∨ ¬isEq mul (ONE : T) then
        each col p n fun c => toCell (patchShift nullv sh mul (ofCell c : T))
      else [] := by
  unfold patch
  cases defs with
  | none => rfl
  | some dl =>
    dsimp only
    rw [if_neg fun hc => h hc.1]

theorem patch_spread {n vals : Nat} {nullv sh mul : T} (h : vals < n) (hdl : n ≤ dl.length) :
    patch col p n vals nullv sh mul (some dl) maxdef =
      spread col p (toCell nullv) (fun c => toCell (patchShift nullv sh mul (ofCell c : T))) dl
        maxdef n vals := by
  unfold patch
  dsimp only
  rw [if_pos ⟨h, hdl⟩]

/-- A column that is neither scaled nor shifted needs no pass. -/
theorem patchShift_id {nullv sh mul w : T} (hsh : isZero sh = true)
    (hmul : isEq mul (ONE : T) = true) : patchShift nullv sh mul w = w := by
  unfold patchShift
  simp only [hsh, hmul, if_true]

/-- `patch` on a batch of packed values leaves each row shifted, or null. -/
theorem run_patch (col p : Nat) (nullv sh mul : T) {r : Recs} (hr : r.Honest maxdef ys)
    (hlen : ys.length < 2 ^ 63) :
    ∃ os, patch col p r.recs r.vals nullv sh mul (if 0 < maxdef then some r.defs else none)
        maxdef = os ∧ (∀ o ∈ os, o.Within (Rows col p ys.length)) ∧
      ∀ m : Mem Nat Cell, (∀ c w, (packed ys)[c]? = some w → m ⟨col, p + c⟩ = toCell w) →
        ∀ i y, ys[i]? = some y →
          run m os ⟨col, p + i⟩ = toCell ((y.map (patchShift nullv sh mul)).getD nullv) := by
  have htake : ys.take ys.length = ys := List.take_length
  rw [hr.recs, hr.vals]
  by_cases hfull : (packed ys).length < ys.length
  · have hmax : 0 < maxdef := by
      by_contra hc
      exact absurd (hr.required hc) (Nat.ne_of_lt hfull)
    have hdl := hr.levels hmax
    rw [if_pos hmax, patch_spread hfull (Nat.le_of_eq hdl.len.symm)]
    refine ⟨_, rfl, ?_, fun m hm i y hy => ?_⟩
    · conv in (packed ys).length => rw [← htake]
      exact spread_within hdl hlen ys.length le_rfl
    · have hlt := (List.getElem?_eq_some_iff.mp hy).1
      conv in (packed ys).length => rw [← htake]
      rw [run_spread hdl hlen ys.length le_rfl m (by rwa [htake]) i y hlt hy]
      cases y with
      | none => rfl
      | some w => simp
  · have hle := length_packed_le ys
    have hlen : (packed ys).length = ys.length := by omega
    have hys := packed_of_full hlen
    rw [patch_full hfull]
    refine ⟨_, rfl, ?_, fun m hm i y hy => ?_⟩
    · intro o ho
      split at ho
      · exact each_within o ho
      · cases ho
    · have hlt := (List.getElem?_eq_some_iff.mp hy).1
      obtain ⟨w, hw, rfl⟩ : ∃ w, (packed ys)[i]? = some w ∧ y = some w := by
        rw [hys, List.getElem?_map, Option.map_eq_some_iff] at hy
        obtain ⟨w, hw, rfl⟩ := hy
        exact ⟨w, hw, rfl⟩
      simp only [Option.map_some, Option.getD_some]
      split
      · rw [run_each _ _ _ _ _ hlt, hm i w hw, ofCell_toCell]
      · rename_i hno
        rw [not_or, not_not, not_not] at hno
        rw [run_nil, hm i w hw, patchShift_id hno.1 hno.2]

end

/-! ## The batches of a chunk -/

section
variable {T : Type} [ArrowNativeTypeOp T] {rd : RecordReader T} {maxdef : Int16}
  {xs : List (Option T)} (nullv sh mul : T) (col off : Nat) (who : String)

/-- One round: a batch is packed, patched, and the loop goes on behind it. -/
theorem rawLoop_round (hrd : rd.Honest maxdef xs) {done : Nat} (hdone : done < xs.length) :
    ∃ n, 0 < n ∧ done + n ≤ xs.length ∧ n ≤ BATCH_ROWS ∧ ∃ r : Recs,
      r.Honest maxdef ((xs.drop done).take n) ∧ r.recs = n ∧
      rawLoop rd maxdef nullv sh mul col off xs.length who done =
        (fill col (off + done) ((packed ((xs.drop done).take n)).map toCell) ++
          patch col (off + done) r.recs r.vals nullv sh mul
            (if 0 < maxdef then some r.defs else none) maxdef ++
          (rawLoop rd maxdef nullv sh mul col off xs.length who (done + n)).1,
        (rawLoop rd maxdef nullv sh mul col off xs.length who (done + n)).2) := by
  have hwant : 0 < min BATCH_ROWS (xs.length - done) := by
    rw [Nat.lt_min]
    exact ⟨by decide, by omega⟩
  obtain ⟨r, hout, hmoved, hpos, hle, hbuf, hr⟩ := hrd done _ hwant hdone
  have hrecs := rd.recs_le _ _ r hout
  have hbatch : r.recs ≤ BATCH_ROWS := hrecs.trans (Nat.min_le_left _ _)
  have hlen : (packed ((xs.drop done).take r.recs)).length ≤ r.recs := by
    refine (length_packed_le _).trans ?_
    rw [List.length_take]
    omega
  refine ⟨r.recs, hpos, hle, hbatch, r, hr, rfl, ?_⟩
  have hdefs : ¬(0 < maxdef ∧ r.vals < r.recs ∧ r.defs.length < r.recs) := by
    rintro ⟨h0, _, hshort⟩
    have hl := (hr.levels h0).len
    have hs := hr.recs
    omega
  conv_lhs => unfold rawLoop
  dsimp only
  rw [if_neg (Nat.pos_iff_ne_zero.mp hwant)]
  split
  · rename_i e he
    rw [hout] at he
    cases he
  · rename_i r' hr'
    rw [hout] at hr'
    cases hr'
    rw [if_neg (by rw [hmoved, hbuf]; simp only [Bool.false_eq_true, false_or]; omega),
      if_neg hdefs, if_neg (Nat.pos_iff_ne_zero.mp hpos), hbuf,
      List.take_of_length_le (by omega)]

/-- The loop leaves every row of the chunk shifted, or null. -/
theorem rawLoop_delivers (hrd : rd.Honest maxdef xs) (done : Nat) (hdone : done ≤ xs.length) :
    ∃ os, rawLoop rd maxdef nullv sh mul col off xs.length who done = (os, .ok xs.length) ∧
      (∀ o ∈ os, o.Within (Rows col (off + done) (xs.length - done))) ∧
      ∀ (m : Mem Nat Cell) i y, done ≤ i → xs[i]? = some y →
        run m os ⟨col, off + i⟩ = toCell ((y.map (patchShift nullv sh mul)).getD nullv) := by
  by_cases hend : done = xs.length
  · refine ⟨[], ?_, (fun _ ho => absurd ho List.not_mem_nil), fun m i y hi hy => ?_⟩
    · unfold rawLoop
      dsimp only
      rw [if_pos (by omega), hend]
    · have hlt := (List.getElem?_eq_some_iff.mp hy).1
      omega
  · have hlt : done < xs.length := by omega
    obtain ⟨n, hpos, hle, hbatch, r, hr, hn, hloop⟩ := rawLoop_round nullv sh mul col off who hrd hlt
    have hys : ((xs.drop done).take n).length = n := by
      rw [List.length_take, List.length_drop]
      omega
    have hbound : ((xs.drop done).take n).length < 2 ^ 63 := by
      rw [hys]
      exact Nat.lt_of_le_of_lt hbatch (by decide)
    obtain ⟨os, hos, hwithin, hrun⟩ := run_patch col (off + done) nullv sh mul hr hbound
    obtain ⟨us, hus, huwithin, hurun⟩ := rawLoop_delivers hrd (done + n) hle
    have hgrow : ∀ {k l : Nat} {a : Addr Nat}, done ≤ k → k + l ≤ xs.length →
        Rows col (off + k) l a → Rows col (off + done) (xs.length - done) a := by
      rintro k l a hk hl ⟨h1, h2, h3⟩
      exact ⟨h1, by omega, by omega⟩
    rw [hos, hus] at hloop
    rw [hys] at hwithin
    refine ⟨_, hloop, ?_, fun m i y hi hy => ?_⟩
    · intro o ho
      have hwiden : ∀ {k l : Nat}, done ≤ k → k + l ≤ xs.length → o.Within (Rows col (off + k) l) →
          o.Within (Rows col (off + done) (xs.length - done)) := by
        rintro k l hk hl ⟨h1, h2⟩
        exact ⟨hgrow hk hl h1, fun a ha => hgrow hk hl (h2 a ha)⟩
      rcases List.mem_append.mp ho with ho | ho
      · rcases List.mem_append.mp ho with ho | ho
        · have hin := fill_within o ho
          have hlen := length_packed_le ((xs.drop done).take n)
          rw [List.length_map] at hin
          exact hwiden le_rfl (by omega) hin
        · exact hwiden le_rfl hle (hwithin o ho)
      · exact hwiden (Nat.le_add_right _ _) (by omega) (huwithin o ho)
    · rw [run_append]
      by_cases hin : i < done + n
      · -- A row of this batch: the batches behind it leave it alone.
        rw [run_frame fun o ho he => by
          have := (huwithin o ho).1.2.1
          rw [he] at this
          simp only at this
          omega]
        obtain ⟨k, rfl⟩ : ∃ k, i = done + k := ⟨i - done, by omega⟩
        have hk : ((xs.drop done).take n)[k]? = some y := by
          rw [List.getElem?_take_of_lt (by omega), List.getElem?_drop, hy]
        rw [run_append, ← Nat.add_assoc]
        refine hrun _ (fun c w hc => ?_) k y hk
        apply run_fill
        rw [List.getElem?_map, hc]
        rfl
      · exact hurun _ i y (by omega) hy
termination_by xs.length - done

end

/-! ## One column on both paths -/

/-- The rows of a zero-copy chunk, by the physical type of its values. -/
inductive RawContent where
  | i32 (xs : List (Option Int32))
  | i64 (xs : List (Option Int64))
  | f32 (xs : List (Option F32))
  | f64 (xs : List (Option F64))

def RawContent.physical : RawContent → PhysType
  | .i32 _ => .INT32
  | .i64 _ => .INT64
  | .f32 _ => .FLOAT
  | .f64 _ => .DOUBLE

def RawContent.rows : RawContent → List (Option Val)
  | .i32 xs => xs.map (·.map .i32)
  | .i64 xs => xs.map (·.map .i64)
  | .f32 xs => xs.map (·.map .f32)
  | .f64 xs => xs.map (·.map .f64)

/-- The column reader reads these rows. -/
def ColumnReader.Holds (maxdef : Int16) : ColumnReader → RawContent → Prop
  | .i32 rd, .i32 xs => rd.Honest maxdef xs
  | .i64 rd, .i64 xs => rd.Honest maxdef xs
  | .f32 rd, .f32 xs => rd.Honest maxdef xs
  | .f64 rd, .f64 xs => rd.Honest maxdef xs
  | _, _ => False

theorem patchShift_day (w : Int32) : patchShift NI DAY2000 1 w = shiftDay w := by
  show (if decide (w < NI + DAY2000) then NI else w - DAY2000) = shiftDay w
  simp [shiftDay]

/-- The multiply of the in-place pass is the multiply of the cast. -/
theorem patchShift_scale (sh w : Int64) (u : TimeUnit) :
    patchShift NJ sh (nsPer u) w =
      ((checkedMul w (nsPer u)).map fun v => if isZero sh then v else shiftOr NJ sh v).getD NJ := by
  have hone : (if isEq (nsPer u) (ONE : Int64) then some w else mulChecked w (nsPer u)) =
      checkedMul w (nsPer u) := by
    cases u with
    | nanosecond => exact (checkedMul_one w).symm
    | second => rfl
    | millisecond => rfl
    | microsecond => rfl
  unfold patchShift
  dsimp only
  rw [hone]
  cases checkedMul w (nsPer u) <;> rfl

/-- The loop delivers, when the pass turns every value into its element. -/
theorem rawLoop_col {T : Type} [ArrowNativeTypeOp T] {rd : RecordReader T} {maxdef : Int16}
    {xs : List (Option T)} (hrd : rd.Honest maxdef xs) {nullv sh mul : T} {lt : LType}
    {dt : DataType} (mk : T → Val)
    (hcell : ∀ v, toCell (patchShift nullv sh mul v) = cellOf lt dt (mk v))
    (hnull : toCell nullv = nullCell lt) (col off : Nat) (who : String) :
    ∃ os, rawLoop rd maxdef nullv sh mul col off (xs.map (·.map mk)).length who 0 =
        (os, .ok (xs.map (·.map mk)).length) ∧
      (∀ o ∈ os, o.Within (Rows col off (xs.map (·.map mk)).length)) ∧
      Delivers os col off lt dt (xs.map (·.map mk)) := by
  rw [List.length_map]
  obtain ⟨os, hos, hwithin, hrun⟩ :=
    rawLoop_delivers nullv sh mul col off who hrd 0 (Nat.zero_le _)
  refine ⟨os, hos, hwithin, fun m i x hx => ?_⟩
  rw [List.getElem?_map, Option.map_eq_some_iff] at hx
  obtain ⟨y, hy, rfl⟩ := hx
  rw [hrun m i y (Nat.zero_le _) hy]
  cases y with
  | none => exact hnull
  | some v => exact hcell v

/-- The columns that `raw_of` accepts, and what it answers. -/
theorem rawOf_cases {dt : DataType} {pt : PhysType} {rt : Raw} (h : rawOf dt pt = some rt) :
    (pt = .INT32 ∧ rt = .I32 ∧ (dt = .int32 ∨ dt = .date32 ∨ dt = .time32 .millisecond)) ∨
      (pt = .INT64 ∧ dt = .int64 ∧ rt = .I64 1) ∨
      (pt = .INT64 ∧ ∃ u, rt = .I64 (nsPer u) ∧
        ((∃ tz, dt = .timestamp u tz) ∨ dt = .duration u)) ∨
      (pt = .FLOAT ∧ dt = .float32 ∧ rt = .F32) ∨ (pt = .DOUBLE ∧ dt = .float64 ∧ rt = .F64) := by
  unfold rawOf at h
  split at h <;> cases h <;> simp

/-- `raw_col` delivers every row of a chunk that `raw_of` accepts. -/
theorem rawCol_delivers {dt : DataType} {rt : Raw} {lt : LType} {cr : ColumnReader}
    {maxdef : Int16} {xs : RawContent} (hrt : rawOf dt xs.physical = some rt)
    (hlt : lTypeOf dt = .ok lt) (hcr : cr.Holds maxdef xs) (col off : Nat) (who : String) :
    ∃ os, rawCol (.ok cr) maxdef rt lt col off xs.rows.length who = (os, .ok xs.rows.length) ∧
      (∀ o ∈ os, o.Within (Rows col off xs.rows.length)) ∧ Delivers os col off lt dt xs.rows := by
  have hid : ∀ {T : Type} [ArrowNativeTypeOp T] {nullv sh mul w : T} (f : T → Cell),
      isZero sh = true → isEq mul (ONE : T) = true → f (patchShift nullv sh mul w) = f w :=
    fun f hsh hmul => congrArg f (patchShift_id hsh hmul)
  cases xs with
  | i32 xs =>
    cases cr <;> first | exact hcr.elim | skip
    obtain ⟨_, rfl, rfl | rfl | rfl⟩ | ⟨⟨⟩, _⟩ | ⟨⟨⟩, _⟩ | ⟨⟨⟩, _⟩ | ⟨⟨⟩, _⟩ := rawOf_cases hrt <;>
      cases hlt
    · exact rawLoop_col hcr .i32 (fun v => hid .i rfl rfl) rfl col off who
    · exact rawLoop_col hcr .i32 (fun v => congrArg Cell.i (patchShift_day v)) rfl col off who
    · exact rawLoop_col hcr .i32 (fun v => hid .i rfl rfl) rfl col off who
  | i64 xs =>
    cases cr <;> first | exact hcr.elim | skip
    obtain ⟨⟨⟩, _⟩ | ⟨_, rfl, rfl⟩ | ⟨_, u, rfl, ⟨tz, rfl⟩ | rfl⟩ | ⟨⟨⟩, _⟩ | ⟨⟨⟩, _⟩ :=
      rawOf_cases hrt <;> cases hlt
    · exact rawLoop_col hcr .i64 (fun v => hid .j rfl rfl) rfl col off who
    · have hcell : ∀ v, Cell.j (patchShift NJ NS2000 (nsPer u) v) =
          cellOf .KP (.timestamp u tz) (.i64 v) := by
        intro v
        rw [patchShift_scale, timestamp_shift]
        rfl
      exact rawLoop_col hcr .i64 hcell rfl col off who
    · have hcell : ∀ v, Cell.j (patchShift NJ 0 (nsPer u) v) =
          cellOf .KN (.duration u) (.i64 v) := by
        intro v
        rw [patchShift_scale, duration_shift, Option.map_id]
        rfl
      exact rawLoop_col hcr .i64 hcell rfl col off who
  | f32 xs =>
    cases cr <;> first | exact hcr.elim | skip
    obtain ⟨⟨⟩, _⟩ | ⟨⟨⟩, _⟩ | ⟨⟨⟩, _⟩ | ⟨_, rfl, rfl⟩ | ⟨⟨⟩, _⟩ := rawOf_cases hrt
    cases hlt
    exact rawLoop_col hcr .f32 (fun v => hid .e rfl rfl) rfl col off who
  | f64 xs =>
    cases cr <;> first | exact hcr.elim | skip
    obtain ⟨⟨⟩, _⟩ | ⟨⟨⟩, _⟩ | ⟨⟨⟩, _⟩ | ⟨⟨⟩, _⟩ | ⟨_, rfl, rfl⟩ := rawOf_cases hrt
    cases hlt
    exact rawLoop_col hcr .f64 (fun v => hid .f rfl rfl) rfl col off who

/-- The arrays of one column, one behind the other, as the Arrow loop fills them. -/
def fillCols (ck : Crate) (lt : LType) (col : Nat) :
    Nat → List Arr → SymCache → Except String (List Store) × SymCache
  | _, [], sy => (.ok [], sy)
  | off, arr :: arrs, sy =>
    match fillCol ck lt col off arr sy with
    | (.error e, sy) => (.error e, sy)
    | (.ok os, sy) =>
      match fillCols ck lt col (off + arr.len) arrs sy with
      | (.error e, sy) => (.error e, sy)
      | (.ok us, sy) => (.ok (os ++ us), sy)

theorem fillCols_delivers {ck : Crate} (hck : ck.Lawful) {lt : LType} {dt : DataType}
    (hlt : lTypeOf dt = .ok lt) (arrs : List Arr)
    (harrs : ∀ a ∈ arrs, a.data_type = dt ∧ a.Typed ck.heap) {sy : SymCache}
    (hsy : sy.Coherent ck.heap) (col off : Nat) :
    ∃ os sy', fillCols ck lt col off arrs sy = (.ok os, sy') ∧ sy'.Coherent ck.heap ∧
      (∀ o ∈ os, off ≤ o.dst.idx) ∧
      Delivers os col off lt dt (arrs.flatMap (·.content ck.heap)) := by
  induction arrs generalizing sy off with
  | nil =>
    exact ⟨[], sy, rfl, hsy, (fun _ ho => absurd ho List.not_mem_nil), fun _ _ _ hx => by cases hx⟩
  | cons arr arrs ih =>
    obtain ⟨hdt, hty⟩ := harrs arr List.mem_cons_self
    obtain ⟨os, sy1, hos, hsy1, hdel⟩ := fillCol_delivers hck hsy hty (hdt ▸ hlt) col off
    obtain ⟨us, sy2, hus, hsy2, hlow, hudel⟩ :=
      ih (fun a ha => harrs a (List.mem_cons_of_mem _ ha)) hsy1 (off + arr.len)
    refine ⟨os ++ us, sy2, ?_, hsy2, ?_, ?_⟩
    · unfold fillCols
      rw [hos]
      dsimp only
      rw [hus]
    · intro o ho
      rcases List.mem_append.mp ho with ho | ho
      · exact ((fillCol_fills hos).within o ho).1.2.1
      · have := hlow o ho
        omega
    · rw [List.flatMap_cons]
      rw [hdt] at hdel
      rw [← hty.length_content] at hudel hlow
      refine Leaves.append hdel (fun o ho i hi he => ?_) hudel
      have := hlow o ho
      rw [he] at this
      simp only at this
      omega

/-! ## The law of the two paths -/

/-- Every row that the zero-copy path stores is the row that the Arrow path stores, however the
rows are cut into batches of records and into arrays. -/
theorem the_zero_copy_path_is_the_arrow_path {dt : DataType} {rt : Raw} {lt : LType}
    {cr : ColumnReader} {maxdef : Int16} {xs : RawContent}
    (hrt : rawOf dt xs.physical = some rt) (hlt : lTypeOf dt = .ok lt)
    (hcr : cr.Holds maxdef xs) {ck : Crate} (hck : ck.Lawful) {arrs : List Arr}
    (harrs : ∀ a ∈ arrs, a.data_type = dt ∧ a.Typed ck.heap)
    (hrows : arrs.flatMap (·.content ck.heap) = xs.rows) {sy : SymCache}
    (hsy : sy.Coherent ck.heap) (col off : Nat) (who : String) :
    ∃ raw arrow sy', rawCol (.ok cr) maxdef rt lt col off xs.rows.length who =
        (raw, .ok xs.rows.length) ∧
      fillCols ck lt col off arrs sy = (.ok arrow, sy') ∧
      ∀ (m m' : Mem Nat Cell) (i : Nat), i < xs.rows.length →
        run m raw ⟨col, off + i⟩ = run m' arrow ⟨col, off + i⟩ := by
  obtain ⟨raw, hraw, _, hdel⟩ := rawCol_delivers hrt hlt hcr col off who
  obtain ⟨arrow, sy', harrow, _, _, hadel⟩ := fillCols_delivers hck hlt arrs harrs hsy col off
  refine ⟨raw, arrow, sy', hraw, harrow, fun m m' i hi => ?_⟩
  obtain ⟨x, hx⟩ : ∃ x, xs.rows[i]? = some x := ⟨_, List.getElem?_eq_getElem hi⟩
  rw [hdel m i x hx, hadel m' i x (by rw [hrows, hx])]

/-- Microseconds with a null, with one that leaves `i64`, and with one below the floor. -/
def stamps : List (Option Int64) :=
  [some 1000, none, some 9223372036854775807, some (-9223372036854775)]

theorem the_zero_copy_path_on_stamps :
    ∃ raw arrow sy', rawCol (.ok (.i64 (RecordReader.ofRows 1 stamps))) 1 (.I64 1000) .KP 3 7 4 "" =
        (raw, .ok 4) ∧
      fillCols (Crate.safe fun _ => .ok []) .KP 3 7
        [⟨.timestamp .microsecond none, .i64 (Prim.ofContent stamps)⟩] SymCache.new =
        (.ok arrow, sy') ∧
      ∀ (m m' : Mem Nat Cell) (i : Nat), i < 4 →
        run m raw ⟨3, 7 + i⟩ = run m' arrow ⟨3, 7 + i⟩ := by
  have hrd : ColumnReader.Holds 1 (.i64 (RecordReader.ofRows 1 stamps)) (.i64 stamps) :=
    ofRows_honest (by decide) stamps
  have hty : ∀ a ∈ [(⟨.timestamp .microsecond none, .i64 (Prim.ofContent stamps)⟩ : Arr)],
      a.data_type = .timestamp .microsecond none ∧ a.Typed fun _ => .ok [] := by
    intro a ha
    rw [List.mem_singleton] at ha
    subst ha
    exact ⟨rfl, trivial⟩
  have hrows : [(⟨.timestamp .microsecond none, .i64 (Prim.ofContent stamps)⟩ : Arr)].flatMap
      (·.content fun _ => .ok []) = (RawContent.i64 stamps).rows := by
    rw [List.flatMap_singleton]
    exact congrArg (List.map _) (content_ofContent stamps)
  exact the_zero_copy_path_is_the_arrow_path rfl rfl hrd (safe_lawful _) hty hrows
    (coherent_new _) 3 7 ""

end parquet_interop.read
