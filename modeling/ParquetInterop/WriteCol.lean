-- L columns to Arrow arrays: the null bitmap a word at a time, the epoch shift
-- in the same pass, and symbols as keys into a dictionary of their strings.
import ParquetInterop.Delivered
import ParquetInterop.Splay
import ParquetInterop.Lib.Bits
import ParquetInterop.Lib.Blocks
import ParquetInterop.Lib.FirstSeen

open lib.bits lib.blocks lib.firstseen
open parquet_interop.ffi parquet_interop.footer parquet_interop.native parquet_interop.read
open ArrowNativeTypeOp

namespace parquet_interop.write

/-! ## L vectors -/

/-- A vector of one of the types that come back. A `KZ`, which is written as the float product of
its days and read as a `KP`, is left out. -/
inductive LVec where
  | KB (xs : List UInt8)
  | KG (xs : List UInt8)
  | KH (xs : List Int16)
  | KI (xs : List Int32)
  | KJ (xs : List Int64)
  | KE (xs : List F32)
  | KF (xs : List F64)
  | KS (xs : List Sym)
  | KD (xs : List Int32)
  | KT (xs : List Int32)
  | KP (xs : List Int64)
  | KN (xs : List Int64)

def LVec.lt : LVec → LType
  | .KB _ => .KB
  | .KG _ => .KG
  | .KH _ => .KH
  | .KI _ => .KI
  | .KJ _ => .KJ
  | .KE _ => .KE
  | .KF _ => .KF
  | .KS _ => .KS
  | .KD _ => .KD
  | .KT _ => .KT
  | .KP _ => .KP
  | .KN _ => .KN

/-- The elements of the payload. -/
def LVec.cells : LVec → List Cell
  | .KB xs | .KG xs => xs.map .g
  | .KH xs => xs.map .h
  | .KI xs | .KD xs | .KT xs => xs.map .i
  | .KJ xs | .KP xs | .KN xs => xs.map .j
  | .KE xs => xs.map .e
  | .KF xs => xs.map .f
  | .KS xs => xs.map .s

/-- `kn` of the vector. -/
def LVec.len (v : LVec) : Nat := v.cells.length

/-- The Arrow type that each L type is written as. `sym_dict` picks the spelling of a symbol. -/
def arrowType (t : LType) (sym_dict : Bool) : Except String DataType :=
  match t with
  | .KB => .ok .boolean
  | .KG => .ok .uint8
  | .KH => .ok .int16
  | .KI => .ok .int32
  | .KJ => .ok .int64
  | .KE => .ok .float32
  | .KF => .ok .float64
  | .KS => .ok (if sym_dict then .dictionary .int32 .utf8 else .utf8)
  | .KD => .ok .date32
  | .KT => .ok (.time32 .millisecond)
  | .KP | .KZ => .ok (.timestamp .nanosecond none)
  | .KN => .ok (.duration .nanosecond)
  | .other t => if t = 0 then .error "nyi: list column" else .error s!"nyi: column type {t}"

/-! ## Null bitmaps -/

section
variable {T : Type}

/-- One word: `w |= (valid(x) as u64) << i`. -/
def wordLoop (valid : T → Bool) : List T → Nat → BitVec 64 → BitVec 64
  | [], _, w => w
  | x :: c, i, w => wordLoop valid c (i + 1) (w ||| (if valid x then (1 : BitVec 64) else 0) <<< i)

/-- The words so far, and whether one of them has a bit that is not set. -/
structure Bitmap where
  bits : List (BitVec 64)
  nulls : Bool

/-- A full chunk owns 64 bits, and the last one only the bits of its own length. -/
def Bitmap.push (b : Bitmap) (w : BitVec 64) (len : Nat) : Bitmap :=
  ⟨b.bits ++ [w], b.nulls || w ≠ BitVec.allOnes 64 >>> (64 - len)⟩

/-- The bitmap of `n` values, when there is a null. -/
def Bitmap.finish (b : Bitmap) (n : Nat) : Option (List Bool) :=
  if b.nulls then some (bitsOf b.bits n) else none

def nullLoop (valid : T → Bool) : List (List T) → Bitmap → Bitmap
  | [], b => b
  | c :: cs, b => nullLoop valid cs (b.push (wordLoop valid c 0 0) c.length)

/-- The null bitmap that `valid` implies, or none when every value is valid. -/
def nullBits (s : List T) (valid : T → Bool) : Option (List Bool) :=
  (nullLoop valid (chunks s) ⟨[], false⟩).finish s.length

/-- One chunk of the shifted copy: the word, and the values. -/
def shiftWord [ArrowNativeTypeOp T] (sh : T) (valid : T → Bool) :
    List T → Nat → BitVec 64 → List T → BitVec 64 × List T
  | [], _, w, v => (w, v)
  | x :: c, i, w, v =>
    shiftWord sh valid c (i + 1) (w ||| (if valid x then (1 : BitVec 64) else 0) <<< i)
      (v ++ [addWrapping x sh])

/-- The copy and the bitmap come out of the same pass. -/
def shiftLoop [ArrowNativeTypeOp T] (sh : T) (valid : T → Bool) :
    List (List T) → List T → Bitmap → List T × Bitmap
  | [], v, b => (v, b)
  | c :: cs, v, b =>
    let (w, v) := shiftWord sh valid c 0 0 v
    shiftLoop sh valid cs v (b.push w c.length)

/-! ## What the loops leave -/

theorem wordLoop_eq (valid : T → Bool) (c : List T) (i : Nat) (w : BitVec 64) :
    wordLoop valid c i w = setBits (c.map valid) i w := by
  induction c generalizing i w with
  | nil => rfl
  | cons x c ih => exact ih _ _

theorem nullLoop_eq (valid : T → Bool) (cs : List (List T)) (b : Bitmap)
    (hcs : ∀ c ∈ cs, c.length ≤ 64) :
    nullLoop valid cs b = ⟨b.bits ++ cs.map fun c => wordOf (c.map valid),
      b.nulls || !(cs.all fun c => c.all valid)⟩ := by
  induction cs generalizing b with
  | nil => simp [nullLoop]
  | cons c cs ih =>
    have hc : c.length ≤ 64 := hcs c List.mem_cons_self
    have hword : wordLoop valid c 0 0 = wordOf (c.map valid) := by
      rw [wordLoop_eq, setBits_wordOf]
    have hflag : decide (wordOf (c.map valid) ≠ BitVec.allOnes 64 >>> (64 - c.length)) =
        !c.all valid := by
      have hones := wordOf_eq_ones (show (c.map valid).length ≤ 64 by simpa using hc)
      rw [List.length_map] at hones
      rw [Bool.eq_iff_iff, decide_eq_true_eq, ne_eq, hones]
      simp
    rw [nullLoop, ih _ fun c' hc' => hcs c' (List.mem_cons_of_mem c hc'), hword]
    simp only [Bitmap.push, hflag, List.append_assoc, List.singleton_append, List.map_cons,
      List.all_cons, Bool.not_and, Bool.or_assoc]

theorem shiftWord_eq [ArrowNativeTypeOp T] (sh : T) (valid : T → Bool) (c : List T) (i : Nat)
    (w : BitVec 64) (v : List T) :
    shiftWord sh valid c i w v = (wordLoop valid c i w, v ++ c.map (addWrapping · sh)) := by
  induction c generalizing i w v with
  | nil => simp [shiftWord, wordLoop]
  | cons x c ih =>
    rw [shiftWord, ih]
    simp [wordLoop]

theorem shiftLoop_eq [ArrowNativeTypeOp T] (sh : T) (valid : T → Bool) (cs : List (List T))
    (v : List T) (b : Bitmap) :
    shiftLoop sh valid cs v b = (v ++ cs.flatten.map (addWrapping · sh), nullLoop valid cs b) := by
  induction cs generalizing v b with
  | nil => simp [shiftLoop, nullLoop]
  | cons c cs ih =>
    rw [shiftLoop, shiftWord_eq]
    simp [ih, nullLoop]

/-- The bitmap has the validity of each value, and there is one exactly when a value is null. -/
theorem nullBits_eq (s : List T) (valid : T → Bool) :
    nullBits s valid = if s.all valid then none else some (s.map valid) := by
  have hall : ((chunks s).all fun c => c.all valid) = s.all valid := by
    rw [← List.all_flatten, flatten_chunks]
  have hbits : bitsOf ((chunks s).map fun c => wordOf (c.map valid)) s.length = s.map valid := by
    have h := bitsOf_words (s.map valid)
    rw [chunks_map, List.map_map, List.length_map] at h
    exact h
  unfold nullBits Bitmap.finish
  rw [nullLoop_eq valid _ _ fun c hc => (length_chunk hc).2]
  simp only [List.nil_append, Bool.false_or, hall, hbits]
  cases s.all valid <;> rfl

theorem nullBits_len {s : List T} {valid : T → Bool} {nb : List Bool}
    (h : nullBits s valid = some nb) : nb.length = s.length := by
  rw [nullBits_eq] at h
  split at h
  · cases h
  · rw [← Option.some.inj h, List.length_map]

/-- A payload with no null sentinel: the values as they are. -/
def colRaw (s : List T) : Prim T := ⟨s, none, fun nb h => (by cases h)⟩

/-- With no shift the values are borrowed. A shift makes a copy, and the bitmap with it. -/
def colPrim [ArrowNativeTypeOp T] (s : List T) (sh : T) (valid : T → Bool) : Prim T :=
  if isZero sh then ⟨s, nullBits s valid, fun nb h => nullBits_len h⟩
  else
    let vb := shiftLoop sh valid (chunks s) [] ⟨[], false⟩
    ⟨vb.1, vb.2.finish s.length, fun nb h => (by
      simp only [vb, shiftLoop_eq] at h ⊢
      rw [nullBits_len h, List.nil_append, List.length_map, flatten_chunks])⟩

/-- A value that is valid is in the array with its shift, and every other one is a null. -/
theorem content_colPrim [ArrowNativeTypeOp T] (s : List T) (sh : T) (valid : T → Bool) :
    (colPrim s sh valid).content =
      s.map fun x => if valid x then some (if isZero sh then x else addWrapping x sh) else none := by
  have hcontent : ∀ (f : T → T) (a : Prim T), a.values = s.map f → a.nulls = nullBits s valid →
      a.content = s.map fun x => if valid x then some (f x) else none := by
    intro f a hv hn
    unfold Prim.content
    rw [hn, hv, nullBits_eq]
    by_cases hall : s.all valid = true
    · rw [if_pos hall]
      simp only [List.map_map]
      apply List.map_congr_left
      intro x hx
      simp [List.all_eq_true.mp hall x hx]
    · rw [if_neg hall]
      simp only [List.zip_map', List.map_map]
      rfl
  unfold colPrim
  split
  · apply hcontent id
    · simp
    · rfl
  · apply hcontent (addWrapping · sh)
    · simp [shiftLoop_eq, flatten_chunks]
    · simp only [shiftLoop_eq]
      rfl

end

/-! ## Arrays -/

/-- The array that a chunk is encoded from. The dictionary of a symbol column is its own. -/
inductive Handed where
  | bool (a : Prim Bool)
  | u8 (a : Prim UInt8)
  | i16 (a : Prim Int16)
  | i32 (a : Prim Int32)
  | i64 (a : Prim Int64)
  | f32 (a : Prim F32)
  | f64 (a : Prim F64)
  | dict (keys : Prim Int32) (values : List String)

/-- The values and the validity of the rows. -/
def Handed.content : Handed → List (Option Val)
  | .bool a => a.content.map (·.map .bool)
  | .u8 a => a.content.map (·.map .u8)
  | .i16 a => a.content.map (·.map .i16)
  | .i32 a => a.content.map (·.map .i32)
  | .i64 a => a.content.map (·.map .i64)
  | .f32 a => a.content.map (·.map .f32)
  | .f64 a => a.content.map (·.map .f64)
  | .dict keys values =>
    keys.content.map fun k => (k.bind fun k => values[asUsizeKey k.toInt]?).map .str

/-! ## Symbols -/

/-- `CStr::from_ptr(p).to_str()`. -/
def toStr (p : Sym) : Option String := utf8Of (stream.text p)

/-- The locals of `col_sym`: the id of each pointer, the values, the keys, the validity from the
first null on, and the pointer before with its id. No pointer is before the first. -/
structure SymLoop where
  ids : List (Sym × Int32)
  vals : List String
  keys : List Int32
  nulls : Option (List Bool)
  last : Option Sym × Int32

def SymLoop.new : SymLoop := ⟨[], [], [], none, none, 0⟩

/-- The id of a pointer: a run of one pointer has one answer, and a new one is resolved. -/
def SymLoop.id (l : SymLoop) (p : Sym) : Int32 × SymLoop :=
  if l.last.1 = some p then (l.last.2, l)
  else
    match l.ids.lookup p with
    | some id => (id, l)
    | none =>
      match toStr p with
      | some s =>
        let vals := l.vals ++ [s]
        let id := Int32.ofNat vals.length - 1
        (id, { l with vals, ids := (p, id) :: l.ids })
      | none => (-1, { l with ids := (p, -1) :: l.ids })

/-- Row `i`. -/
def SymLoop.row (l : SymLoop) (i : Nat) (p : Sym) : SymLoop :=
  let (id, l) := l.id p
  let nulls := if id < 0 ∧ l.nulls = none then some (List.replicate i true) else l.nulls
  { l with
    last := (some p, id)
    nulls := nulls.map (· ++ [decide (0 ≤ id)])
    keys := l.keys ++ [if id < 0 then 0 else id] }

def SymLoop.rows (l : SymLoop) : Nat → List Sym → SymLoop
  | _, [] => l
  | i, p :: ps => SymLoop.rows (l.row i p) (i + 1) ps

/-- A dictionary of null rows alone still has a slot for the key 0. -/
def SymLoop.values (l : SymLoop) : List String :=
  if l.vals = [] ∧ l.keys ≠ [] then [""] else l.vals

/-- The validity of each row so far. -/
def SymLoop.valid (l : SymLoop) : List Bool := l.nulls.getD (List.replicate l.keys.length true)

/-- The keys of the rows so far, with `none` for a null. -/
def SymLoop.content (l : SymLoop) : List (Option Int32) :=
  (l.keys.zip l.valid).map fun (k, ok) => if ok then some k else none

theorem id_rest (l : SymLoop) (p : Sym) :
    (l.id p).2.keys = l.keys ∧ (l.id p).2.nulls = l.nulls := by
  unfold SymLoop.id
  split
  · exact ⟨rfl, rfl⟩
  · split
    · exact ⟨rfl, rfl⟩
    · split <;> exact ⟨rfl, rfl⟩

theorem row_keys (l : SymLoop) (i : Nat) (p : Sym) :
    (l.row i p).keys = l.keys ++ [if (l.id p).1 < 0 then 0 else (l.id p).1] := by
  simp only [SymLoop.row, (id_rest l p).1]

/-- The bitmap starts at the first null, with a bit for each row before. -/
theorem row_valid (l : SymLoop) (p : Sym) :
    (l.row l.keys.length p).valid = l.valid ++ [decide (0 ≤ (l.id p).1)] := by
  obtain ⟨hkeys, hnulls⟩ := id_rest l p
  unfold SymLoop.valid
  rw [row_keys]
  simp only [SymLoop.row, hnulls]
  rcases l.nulls with _ | nb
  · by_cases hid : (l.id p).1 < 0
    · simp [hid]
    · simp [hid, Int32.not_lt.mp hid, List.replicate_succ']
  · simp

/-- A bitmap is there from the first null on. -/
theorem row_nulls (l : SymLoop) (i : Nat) (p : Sym) :
    (l.row i p).nulls.isSome = true ↔ l.nulls.isSome = true ∨ (l.id p).1 < 0 := by
  simp only [SymLoop.row, (id_rest l p).2]
  rcases l.nulls with _ | nb
  · by_cases hid : (l.id p).1 < 0
    · simp [hid]
    · simp [hid]
  · simp

/-- `id` is the answer for `p`: the place of its string, or -1. -/
def Resolves (vals : List String) (p : Sym) (id : Int32) : Prop :=
  (toStr p = none ∧ id = -1) ∨
    ∃ k s, toStr p = some s ∧ vals[k]? = some s ∧ id = Int32.ofNat k

theorem Resolves.more {vals : List String} {p : Sym} {id : Int32} (h : Resolves vals p id)
    (more : List String) : Resolves (vals ++ more) p id := by
  rcases h with h | ⟨k, s, hs, hk, rfl⟩
  · exact Or.inl h
  · refine Or.inr ⟨k, s, hs, ?_, rfl⟩
    rw [List.getElem?_append_left (List.getElem?_eq_some_iff.mp hk).1, hk]

theorem Resolves.lt {vals : List String} {p : Sym} {id : Int32} (h : Resolves vals p id)
    (hlen : vals.length ≤ 2 ^ 31) : id < 0 ↔ toStr p = none := by
  rcases h with ⟨hnone, rfl⟩ | ⟨k, s, hs, hk, rfl⟩
  · simp [hnone]
  · have hlt := (List.getElem?_eq_some_iff.mp hk).1
    rw [Int32.lt_iff_toInt_lt, Int32.toInt_ofNat_of_lt (by omega)]
    simp [hs]

/-- A key of a row names the string of its symbol, and a row without one is a null. -/
def Names (vals : List String) (k : Option Int32) (p : Sym) : Prop :=
  (toStr p = none ∧ k = none) ∨
    ∃ id s, toStr p = some s ∧ k = some id ∧ vals[asUsizeKey id.toInt]? = some s

theorem Resolves.names {vals : List String} {p : Sym} {id : Int32} (h : Resolves vals p id)
    (hlen : vals.length ≤ 2 ^ 31) : Names vals (if id < 0 then none else some id) p := by
  have hlt := h.lt hlen
  rcases h with ⟨hnone, rfl⟩ | ⟨k, s, hs, hk, rfl⟩
  · exact Or.inl ⟨hnone, if_pos (hlt.mpr hnone)⟩
  · have hk31 := (List.getElem?_eq_some_iff.mp hk).1
    have hpos : ¬Int32.ofNat k < 0 := by
      rw [hlt, hs]
      simp
    refine Or.inr ⟨Int32.ofNat k, s, hs, if_neg hpos, ?_⟩
    rw [Int32.toInt_ofNat_of_lt (by omega), ← hk]
    congr 1
    unfold asUsizeKey
    omega

/-- A key and its validity are those of an answer for `p`. -/
def KeyOf (vals : List String) (row : Int32 × Bool) (p : Sym) : Prop :=
  ∃ id, Resolves vals p id ∧ row = (if id < 0 then 0 else id, decide (0 ≤ id))

theorem KeyOf.more {vals : List String} {row : Int32 × Bool} {p : Sym} (h : KeyOf vals row p)
    (more : List String) : KeyOf (vals ++ more) row p := by
  obtain ⟨id, hid, hrow⟩ := h
  exact ⟨id, hid.more more, hrow⟩

/-- The loop after the rows `ps`: the map knows exactly the pointers of the rows, and the values are
the strings of those that have one, in the order in which they came. -/
structure SymLoop.After (l : SymLoop) (ps : List Sym) : Prop where
  known : ∀ p, (l.ids.lookup p).isSome = true ↔ p ∈ ps
  ids : ∀ p id, l.ids.lookup p = some id → Resolves l.vals p id
  last : ∀ p, l.last.1 = some p → p ∈ ps ∧ Resolves l.vals p l.last.2
  vals : l.vals = ps.eraseDups.filterMap toStr
  keys : l.keys.length = ps.length
  valid : l.valid.length = ps.length
  nulls : l.nulls.isSome = true ↔ false ∈ l.valid
  rows : List.Forall₂ (KeyOf l.vals) (l.keys.zip l.valid) ps

theorem after_new : SymLoop.new.After [] where
  known p := by simp [SymLoop.new]
  ids p id h := by cases h
  last p h := by cases h
  vals := rfl
  keys := rfl
  valid := rfl
  nulls := by simp [SymLoop.new, SymLoop.valid]
  rows := .nil

/-- What the id of a pointer leaves: an answer for it, values that only grow, and a map that knows
it too. -/
structure SymLoop.Answered (l l' : SymLoop) (ps : List Sym) (p : Sym) (id : Int32) : Prop where
  answer : Resolves l'.vals p id
  more : ∃ more, l'.vals = l.vals ++ more
  known : ∀ q, (l'.ids.lookup q).isSome = true ↔ q ∈ ps ++ [p]
  ids : ∀ q id, l'.ids.lookup q = some id → Resolves l'.vals q id
  vals : l'.vals = (ps ++ [p]).eraseDups.filterMap toStr

theorem SymLoop.After.seen {l : SymLoop} {ps : List Sym} (h : l.After ps) {p : Sym} (hp : p ∈ ps)
    {id : Int32} (hid : Resolves l.vals p id) : l.Answered l ps p id where
  answer := hid
  more := ⟨[], by simp⟩
  known q := by
    rw [h.known, List.mem_append, List.mem_singleton]
    constructor
    · exact Or.inl
    · rintro (hq | rfl)
      · exact hq
      · exact hp
  ids := h.ids
  vals := by rw [eraseDups_concat, if_pos hp, List.append_nil, h.vals]

/-- A new pointer goes into the map, and its string, if it has one, behind the values. -/
theorem SymLoop.After.fresh {l : SymLoop} {ps : List Sym} (h : l.After ps) {p : Sym} (hp : p ∉ ps)
    {id : Int32} {vals : List String} (hid : Resolves vals p id)
    (hvals : vals = l.vals ++ (toStr p).toList) :
    l.Answered { l with vals, ids := (p, id) :: l.ids } ps p id where
  answer := hid
  more := ⟨_, hvals⟩
  known q := by
    rw [List.lookup_cons, List.mem_append, List.mem_singleton]
    split
    · rename_i hqp
      simp [beq_iff_eq.mp hqp]
    · rename_i hqp
      rw [h.known]
      simp_all
  ids q id' hq := by
    rw [List.lookup_cons] at hq
    split at hq
    · rename_i hqp
      rw [beq_iff_eq] at hqp
      cases hq
      exact hqp ▸ hid
    · exact hvals ▸ (h.ids q id' hq).more _
  vals := by
    rw [eraseDups_concat, if_neg hp, List.filterMap_append, ← h.vals, hvals]
    cases hs : toStr p <;> simp [hs]

theorem SymLoop.After.id {l : SymLoop} {ps : List Sym} (h : l.After ps) (p : Sym) :
    l.Answered (l.id p).2 ps p (l.id p).1 := by
  unfold SymLoop.id
  split
  · rename_i hlast
    obtain ⟨hp, hid⟩ := h.last p hlast
    exact h.seen hp hid
  · split
    · rename_i id hid
      exact h.seen ((h.known p).mp (by rw [hid]; rfl)) (h.ids p id hid)
    · rename_i hnone
      have hp : p ∉ ps := by
        rw [← h.known, hnone]
        simp
      split
      · rename_i s hs
        have hid : Int32.ofNat (l.vals ++ [s]).length - 1 = Int32.ofNat l.vals.length := by
          simp [Int32.ofNat_add]
        simp only [hid]
        exact h.fresh hp (Or.inr ⟨l.vals.length, s, hs, by simp, rfl⟩) (by simp [hs])
      · rename_i hs
        exact h.fresh hp (Or.inl ⟨hs, rfl⟩) (by simp [hs])

theorem SymLoop.After.row {l : SymLoop} {ps : List Sym} (h : l.After ps) (p : Sym) :
    (l.row ps.length p).After (ps ++ [p]) := by
  have hid := h.id p
  obtain ⟨more, hmore⟩ := hid.more
  have hvals : (l.row ps.length p).vals = (l.id p).2.vals := rfl
  have hkeys := row_keys l ps.length p
  have hvalid := row_valid l p
  rw [h.keys] at hvalid
  refine ⟨hid.known, hid.ids, ?_, hid.vals, ?_, ?_, ?_, ?_⟩
  · intro q hq
    cases hq
    exact ⟨by simp, hid.answer⟩
  · simp [hkeys, h.keys]
  · simp [hvalid, h.valid]
  · rw [row_nulls, hvalid, List.mem_append, ← h.nulls]
    simp
  · rw [hkeys, hvalid, List.zip_append (h.keys.trans h.valid.symm), hvals]
    apply List.rel_append
    · rw [hmore]
      exact h.rows.imp fun k q hkq => hkq.more more
    · exact .cons ⟨_, hid.answer, rfl⟩ .nil

theorem SymLoop.After.rows_all {l : SymLoop} {ps qs : List Sym} (h : l.After ps) :
    (SymLoop.rows l ps.length qs).After (ps ++ qs) := by
  induction qs generalizing l ps with
  | nil => simpa [SymLoop.rows] using h
  | cons q qs ih =>
    have hrest := ih (h.row q)
    simpa [SymLoop.rows] using hrest

theorem after_rows (s : List Sym) : (SymLoop.new.rows 0 s).After s := after_new.rows_all

/-- With as many values as an `Int32` has keys, each row names its symbol. -/
theorem SymLoop.After.named {l : SymLoop} {ps : List Sym} (h : l.After ps)
    (hlen : l.vals.length ≤ 2 ^ 31) : List.Forall₂ (Names l.vals) l.content ps := by
  rw [SymLoop.content, List.forall₂_map_left_iff]
  apply h.rows.imp
  rintro _ p ⟨id, hid, rfl⟩
  have hname := hid.names hlen
  by_cases hneg : id < 0
  · simpa [hneg, Int32.not_le.mpr hneg] using hname
  · simpa [hneg, Int32.not_lt.mp hneg] using hname

/-- A bitmap has a bit for each key. -/
theorem rows_nulls_len (s : List Sym) : ∀ nb, (SymLoop.new.rows 0 s).nulls = some nb →
    nb.length = (SymLoop.new.rows 0 s).keys.length := by
  intro nb h
  have hafter := after_rows s
  have hvalid : (SymLoop.new.rows 0 s).valid = nb := by simp [SymLoop.valid, h]
  rw [← hvalid, hafter.valid, hafter.keys]

/-- The rows of a symbol vector as keys, and the dictionary that the keys index. -/
def colSym (s : List Sym) : Handed :=
  let l := SymLoop.new.rows 0 s
  .dict ⟨l.keys, l.nulls, rows_nulls_len s⟩ l.values

/-- The rows of an array by the validity of each. -/
theorem prim_content {T : Type} (a : Prim T) : a.content =
    (a.values.zip (a.nulls.getD (List.replicate a.values.length true))).map
      fun (x, ok) => if ok then some x else none := by
  obtain ⟨values, nulls, h⟩ := a
  cases nulls with
  | none =>
    rw [Prim.content]
    apply List.ext_getElem
    · simp
    · intro k h1 h2
      simp
  | some nb => rfl

/-- A symbol is written as its string, and one that has none as a null. -/
theorem content_colSym {s : List Sym} (hlen : s.length < 2 ^ 31) :
    (colSym s).content = s.map fun p => (toStr p).map .str := by
  have hafter := after_rows s
  generalize hl : SymLoop.new.rows 0 s = l at hafter
  have hbound : l.vals.length ≤ 2 ^ 31 := by
    rw [hafter.vals]
    have hfilter := List.length_filterMap_le toStr s.eraseDups
    have hdups := length_eraseDups_le s
    omega
  have hrows : ∀ (ks : List (Option Int32)) (ps : List Sym), List.Forall₂ (Names l.vals) ks ps →
      ks.map (fun k => (k.bind fun k => l.values[asUsizeKey k.toInt]?).map Val.str) =
        ps.map fun p => (toStr p).map Val.str := by
    intro ks ps h
    induction h with
    | nil => rfl
    | @cons k p ks ps hkp _ ih =>
      rw [List.map_cons, List.map_cons, ih]
      congr 1
      rcases hkp with ⟨hnone, rfl⟩ | ⟨id, str, hs, rfl, hget⟩
      · simp [hnone]
      · have hne : l.vals ≠ [] := by
          intro hnil
          simp [hnil] at hget
        simp [SymLoop.values, hne, hget, hs]
  have hkeys : ∀ h, Prim.content (⟨l.keys, l.nulls, h⟩ : Prim Int32) = l.content :=
    fun h => prim_content ⟨l.keys, l.nulls, h⟩
  simp only [colSym, Handed.content, hl, hkeys]
  exact hrows _ _ (hafter.named hbound)

/-! ## A column to its array -/

/-- Rows `[off, off + n)` of a vector. A byte, a short and a real have no null here. -/
def colToArrow (col : LVec) (off n : Nat) : Handed :=
  match col with
  | .KB xs => .bool (colRaw ((slice xs off (off + n)).map (· ≠ 0)))
  | .KG xs => .u8 (colRaw (slice xs off (off + n)))
  | .KH xs => .i16 (colRaw (slice xs off (off + n)))
  | .KE xs => .f32 (colRaw (slice xs off (off + n)))
  | .KI xs => .i32 (colPrim (slice xs off (off + n)) 0 (· ≠ NI))
  | .KJ xs => .i64 (colPrim (slice xs off (off + n)) 0 (· ≠ NJ))
  | .KF xs => .f64 (colPrim (slice xs off (off + n)) ⟨0⟩ (!·.isNan))
  | .KS xs => colSym (slice xs off (off + n))
  | .KD xs =>
    .i32 (colPrim (slice xs off (off + n)) DAY2000 fun x => x ≠ NI ∧ x ≤ Int32.maxValue - DAY2000)
  | .KT xs => .i32 (colPrim (slice xs off (off + n)) 0 (· ≠ NI))
  | .KP xs =>
    .i64 (colPrim (slice xs off (off + n)) NS2000 fun x => x ≠ NJ ∧ x ≤ Int64.maxValue - NS2000)
  | .KN xs => .i64 (colPrim (slice xs off (off + n)) 0 (· ≠ NJ))

/-! ## What comes back -/

/-- The element that is read where `c` was written: itself, up to a boolean that is not 1, a date or
timestamp past the ceiling of its epoch, the bits of a NaN, and a symbol that is no UTF-8. -/
def back (lt : LType) (c : Cell) : Cell :=
  match lt, c with
  | .KB, .g x => .g (if x = 0 then 0 else 1)
  | .KD, .i x => if Int32.maxValue - DAY2000 < x then .i NI else .i x
  | .KP, .j x => if Int64.maxValue - NS2000 < x then .j NJ else .j x
  | .KF, .f x => if x.isNan then .f F64.NAN else .f x
  | .KS, .s p => if (utf8Of p.bytes).isSome then .s p else .s (intern [])
  | _, c => c

theorem shiftDay_add {x : Int32} (hnull : x ≠ NI) (hmax : x ≤ Int32.maxValue - DAY2000) :
    shiftDay (x + DAY2000) = x := by
  have hlow : x.toInt ≠ NI.toInt := fun h => hnull (Int32.toInt_inj.mp h)
  have hmin : NI.toInt ≤ x.toInt := Int32.le_iff_toInt_le.mp (Int32.minValue_le x)
  have hNI : NI.toInt = -2147483648 := by decide
  have hceil : (Int32.maxValue - DAY2000).toInt = 2147483647 - 10957 := by decide
  have hfloor : (NI + DAY2000).toInt = -2147483648 + 10957 := by decide
  have hday : DAY2000.toInt = 10957 := by decide
  rw [Int32.le_iff_toInt_le, hceil] at hmax
  have hsum : (x + DAY2000).toInt = x.toInt + 10957 := by
    rw [Int32.toInt_add, hday]
    apply Int.bmod_eq_of_le <;> omega
  unfold shiftDay
  rw [if_neg, Int32.add_sub_cancel]
  rw [Int32.lt_iff_toInt_lt, hsum, hfloor]
  omega

theorem shiftNs_add {x : Int64} (hnull : x ≠ NJ) (hmax : x ≤ Int64.maxValue - NS2000) :
    shiftNs (x + NS2000) = x := by
  have hlow : x.toInt ≠ NJ.toInt := fun h => hnull (Int64.toInt_inj.mp h)
  have hmin : NJ.toInt ≤ x.toInt := Int64.le_iff_toInt_le.mp (Int64.minValue_le x)
  have hNJ : NJ.toInt = -9223372036854775808 := by decide
  have hceil : (Int64.maxValue - NS2000).toInt = 9223372036854775807 - 946684800000000000 := by decide
  have hfloor : (NJ + NS2000).toInt = -9223372036854775808 + 946684800000000000 := by decide
  have hns : NS2000.toInt = 946684800000000000 := by decide
  rw [Int64.le_iff_toInt_le, hceil] at hmax
  have hsum : (x + NS2000).toInt = x.toInt + 946684800000000000 := by
    rw [Int64.toInt_add, hns]
    apply Int.bmod_eq_of_le <;> omega
  unfold shiftNs
  rw [if_neg, Int64.add_sub_cancel]
  rw [Int64.lt_iff_toInt_lt, hsum, hfloor]
  omega

theorem slice_map {S T : Type} (f : S → T) (l : List S) (a b : Nat) :
    slice (l.map f) a b = (slice l a b).map f := by
  simp [slice, List.map_take, List.map_drop]

/-- A column with null sentinels: what holds of each value that is valid, and of each that is not,
holds of the rows. -/
theorem prim_back {T : Type} [ArrowNativeTypeOp T] {lt : LType} {dt : DataType} (s : List T) (sh : T)
    (valid : T → Bool) (mk : T → Val) (el : T → Cell)
    (hvalid : ∀ x, valid x = true →
      cellOf lt dt (mk (if isZero sh then x else addWrapping x sh)) = back lt (el x))
    (hnull : ∀ x, valid x = false → nullCell lt = back lt (el x)) :
    ((colPrim s sh valid).content.map (·.map mk)).map (cell lt dt) = (s.map el).map (back lt) := by
  rw [content_colPrim, List.map_map, List.map_map, List.map_map]
  apply List.map_congr_left
  intro x _
  simp only [Function.comp_apply]
  rcases hx : valid x with _ | _
  · simpa [cell] using hnull x hx
  · simpa [cell] using hvalid x hx

/-- A day up to the ceiling comes back from the shift. -/
theorem day_back (x : Int32) (hx : decide (x ≠ NI ∧ x ≤ Int32.maxValue - DAY2000) = true) :
    cellOf .KD .date32 (.i32 (if isZero DAY2000 then x else addWrapping x DAY2000)) = back .KD (.i x) := by
  have hzero : isZero DAY2000 = false := rfl
  have hadd : addWrapping x DAY2000 = x + DAY2000 := rfl
  obtain ⟨hnull, hmax⟩ := of_decide_eq_true hx
  simp [hzero, hadd, cellOf, back, Int32.not_lt.mpr hmax, shiftDay_add hnull hmax]

/-- The null and every later day come back as the null. -/
theorem day_null (x : Int32) (hx : decide (x ≠ NI ∧ x ≤ Int32.maxValue - DAY2000) = false) :
    nullCell .KD = back .KD (.i x) := by
  have hor := of_decide_eq_false hx
  by_cases hmax : x ≤ Int32.maxValue - DAY2000
  · have hnull : x = NI := by simpa [hmax] using hor
    have hNI : ¬Int32.maxValue - DAY2000 < NI := by decide
    simp [hnull, hNI, nullCell, back]
  · simp [Int32.not_le.mp hmax, nullCell, back]

theorem stamp_back (x : Int64) (hx : decide (x ≠ NJ ∧ x ≤ Int64.maxValue - NS2000) = true) :
    cellOf .KP (.timestamp .nanosecond none) (.i64 (if isZero NS2000 then x else addWrapping x NS2000)) =
      back .KP (.j x) := by
  have hzero : isZero NS2000 = false := rfl
  have hadd : addWrapping x NS2000 = x + NS2000 := rfl
  obtain ⟨hnull, hmax⟩ := of_decide_eq_true hx
  simp [hzero, hadd, cellOf, back, Int64.not_lt.mpr hmax, nsPer, checkedMul_one, shiftNs_add hnull hmax]

theorem stamp_null (x : Int64) (hx : decide (x ≠ NJ ∧ x ≤ Int64.maxValue - NS2000) = false) :
    nullCell .KP = back .KP (.j x) := by
  have hor := of_decide_eq_false hx
  by_cases hmax : x ≤ Int64.maxValue - NS2000
  · have hnull : x = NJ := by simpa [hmax] using hor
    have hNJ : ¬Int64.maxValue - NS2000 < NJ := by decide
    simp [hnull, hNJ, nullCell, back]
  · simp [Int64.not_le.mp hmax, nullCell, back]

/-- A symbol is a C string: the bytes up to its NUL are all of its bytes. -/
theorem toStr_eq {p : Sym} (hp : 0 ∉ p.bytes) : toStr p = utf8Of p.bytes := by
  have htext : stream.text p = p.bytes := by
    unfold stream.text
    rw [List.takeWhile_eq_self_iff]
    intro b hb
    have hne : b ≠ 0 := fun h0 => hp (h0 ▸ hb)
    simp [hne]
  rw [toStr, htext]

theorem sym_back {dt : DataType} {p : Sym} (hp : 0 ∉ p.bytes) :
    cell .KS dt ((toStr p).map .str) = back .KS (.s p) := by
  rw [toStr_eq hp]
  rcases hs : utf8Of p.bytes with _ | str
  · simp [hs, cell, nullCell, back]
  · have hbytes := utf8Bytes_utf8Of hs
    simp [hs, cell, cellOf, back, hbytes]
    rfl

theorem NI_of_not {x : Int32} (hx : decide (x ≠ NI) = false) : x = NI := by simpa using hx

theorem NJ_of_not {x : Int64} (hx : decide (x ≠ NJ) = false) : x = NJ := by simpa using hx

/-- The type of a column in the file: as it is advertised, or with the hint. -/
def ReadAs (lt : LType) (dt : DataType) : Prop := ∃ sym_dict, arrowType lt sym_dict = .ok dt

/-- A slice of a vector is handed to the encoder so that it is read as what comes back. -/
theorem handed_back (v : LVec) (hv : ∀ p, .s p ∈ v.cells → 0 ∉ p.bytes) (off n : Nat) (hn : n < 2 ^ 31)
    {dt : DataType} (hdt : ReadAs v.lt dt) :
    (colToArrow v off n).content.map (cell v.lt dt) =
      (slice v.cells off (off + n)).map (back v.lt) := by
  obtain ⟨sym_dict, hdt⟩ := hdt
  cases v with
  | KB xs =>
    cases hdt
    simp [colToArrow, Handed.content, LVec.lt, LVec.cells, slice_map, colRaw, Prim.content, cell, cellOf,
      back]
  | KG xs =>
    cases hdt
    simp [colToArrow, Handed.content, LVec.lt, LVec.cells, slice_map, colRaw, Prim.content, cell, cellOf,
      back]
  | KH xs =>
    cases hdt
    simp [colToArrow, Handed.content, LVec.lt, LVec.cells, slice_map, colRaw, Prim.content, cell, cellOf,
      back]
  | KE xs =>
    cases hdt
    simp [colToArrow, Handed.content, LVec.lt, LVec.cells, slice_map, colRaw, Prim.content, cell, cellOf,
      back]
  | KI xs =>
    cases hdt
    rw [LVec.cells, slice_map]
    apply prim_back
    · intro x _
      rfl
    · intro x hx
      rw [NI_of_not hx]
      rfl
  | KJ xs =>
    cases hdt
    rw [LVec.cells, slice_map]
    apply prim_back
    · intro x _
      rfl
    · intro x hx
      rw [NJ_of_not hx]
      rfl
  | KF xs =>
    cases hdt
    rw [LVec.cells, slice_map]
    apply prim_back
    · intro x hx
      have hreal : x.isNan = false := by simpa using hx
      simp only [LVec.lt, back, hreal]
      rfl
    · intro x hx
      have hnan : x.isNan = true := by simpa using hx
      simp only [LVec.lt, back, hnan]
      rfl
  | KS xs =>
    rw [LVec.cells, slice_map, colToArrow, content_colSym, List.map_map, List.map_map]
    · apply List.map_congr_left
      intro p hp
      have hin : p ∈ xs := List.mem_of_mem_take (List.mem_of_mem_drop hp)
      exact sym_back (hv p (List.mem_map_of_mem hin))
    · have hlen : (slice xs off (off + n)).length ≤ n := by
        rw [slice, List.length_drop, List.length_take]
        omega
      omega
  | KD xs =>
    cases hdt
    rw [LVec.cells, slice_map]
    exact prim_back _ _ _ _ _ day_back day_null
  | KT xs =>
    cases hdt
    rw [LVec.cells, slice_map]
    apply prim_back
    · intro x _
      rfl
    · intro x hx
      rw [NI_of_not hx]
      rfl
  | KP xs =>
    cases hdt
    rw [LVec.cells, slice_map]
    exact prim_back _ _ _ _ _ stamp_back stamp_null
  | KN xs =>
    cases hdt
    rw [LVec.cells, slice_map]
    apply prim_back
    · intro x _
      simp only [LVec.lt, cellOf, nsPer, checkedMul_one]
      rfl
    · intro x hx
      rw [NJ_of_not hx]
      rfl

end parquet_interop.write
