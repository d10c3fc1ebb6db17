-- The files of a splay: two headers with the count in a fixed slot, raw chunks
-- appended batch after batch, and the count patched at the end. The reader of
-- the layout, at the bottom layer's bytes, gets every column back.
import ParquetInterop.Layout
import ParquetInterop.Lib.Bytes
import Mathlib.Data.List.TakeWhile

open lib.bytes lib.wrapping parquet_interop.ffi parquet_interop.footer parquet_interop.read

namespace parquet_interop.stream

/-! ## Elements as bytes -/

/-- The views of a payload, `v_g` to `v_s`. -/
inductive View where
  | g
  | h
  | i
  | j
  | e
  | f
  | s
  deriving DecidableEq

def View.width : View → Nat
  | .g => 1
  | .h => 2
  | .i | .e => 4
  | .j | .f | .s => 8

def viewOf : Cell → View
  | .g _ => .g
  | .h _ => .h
  | .i _ => .i
  | .j _ => .j
  | .e _ => .e
  | .f _ => .f
  | .s _ => .s

/-- The view that the fill of an L type writes through. -/
def typeView : LType → View
  | .KB | .KG => .g
  | .KH => .h
  | .KI | .KD | .KT => .i
  | .KJ | .KP | .KN => .j
  | .KE => .e
  | .KF | .KZ => .f
  | .KS | .other _ => .s

/-- The bytes of an element in a payload. A pointer has none that a file could hold. -/
def cellBytes : Cell → List UInt8
  | .g x => [x]
  | .h x => signed 2 x.toInt
  | .i x => signed 4 x.toInt
  | .j x => signed 8 x.toInt
  | .e x => little 4 x.bits.toNat
  | .f x => little 8 x.bits.toNat
  | .s _ => List.replicate 8 0

/-- The raw payload of a K vector, from its base on. -/
def payload (col : List Cell) : List UInt8 := col.flatMap cellBytes

/-- What `CStr::from_ptr` sees of a symbol. -/
def text (x : Sym) : List UInt8 := x.bytes.takeWhile (· ≠ 0)

/-- `to_bytes_with_nul` of one slot of a symbol vector. -/
def cstr : Cell → List UInt8
  | .s x => text x ++ [0]
  | _ => []

/-- The storage bytes of one element by type tag. -/
def width (t : Int) : Nat :=
  let W := [8, 1, 16, 0, 1, 2, 4, 8, 4, 8, 1, 8, 8, 4, 4, 8, 8, 4, 4, 4]
  if t < 0 then 8 else W.getD t.toNat 8

/-! ## The writers -/

def hdrFixed (f : File) (lt : LType) : File :=
  f.write (List.replicate 4 0 ++ signed 2 lt.tag ++ List.replicate 26 0)

def hdrSyms (f : File) (n : Int32) : File :=
  f.write (0xFF :: 0x01 :: (signed 2 LType.KS.tag ++ signed 4 n.toInt))

def patchCount (f : File) (sym : Bool) (n : Int64) : File :=
  if sym then (f.seek 4).write (signed 4 n.toInt32.toInt) else (f.seek 8).write (signed 8 n.toInt)

def appendChunk (f : File) (lt : LType) (col : List Cell) (nr : Nat) : File :=
  if lt = .KS then (col.take nr).foldl (fun f c => f.write (cstr c)) f
  else f.write ((payload col).take (nr * width lt.tag))

/-- The header of a column file, with no count yet. -/
def header (lt : LType) : File := if lt = .KS then hdrSyms .empty 0 else hdrFixed .empty lt

/-- One turn of the batch loop for one column. -/
def spill (lt : LType) (ft : File × Int64) (col : List Cell) : File × Int64 :=
  (appendChunk ft.1 lt col col.length, ft.2 + Int64.ofNat col.length)

/-- The file of a column that comes in these row groups and batches. -/
def columnFile (lt : LType) (groups : List (List (List Cell))) : File :=
  let (f, total) := groups.foldl (fun ft g => g.foldl (spill lt) ft) (header lt, 0)
  patchCount f (lt = .KS) total

/-- `.d`, the names of the columns. -/
def manifest (names : List String) : File :=
  names.foldl (fun f n => (f.write (utf8Bytes n)).write [0])
    (hdrSyms .empty (Int32.ofNat names.length))

/-! ## The documented layout -/

/-- A vector as a file of the splay gives it. -/
structure Vec where
  type : Int
  count : Int
  cells : List Cell
  deriving DecidableEq

def View.read (v : View) (bs : List UInt8) : Cell :=
  match v with
  | .g => .g (UInt8.ofNat (ofLittle bs))
  | .h => .h (Int16.ofInt (ofSigned bs))
  | .i => .i (Int32.ofInt (ofSigned bs))
  | .j => .j (Int64.ofInt (ofSigned bs))
  | .e => .e ⟨UInt32.ofNat (ofLittle bs)⟩
  | .f => .f ⟨UInt64.ofNat (ofLittle bs)⟩
  | .s => .s ⟨bs⟩

/-- The element of a type tag: boolean and byte; short; int, date and time; long, timestamp and
timespan; real; float and datetime. -/
def viewOfTag (t : Int) : Option View :=
  if t ∈ [1, 4] then some .g
  else if t = 5 then some .h
  else if t ∈ [6, 14, 19] then some .i
  else if t ∈ [7, 12, 16] then some .j
  else if t = 8 then some .e
  else if t ∈ [9, 15] then some .f
  else none

/-- `[u32 0][i16 type][u16 0][i64 count][16B 0]` and the payload. -/
def decodeFixed (bs : List UInt8) : Option Vec :=
  if bs.take 4 = List.replicate 4 0 ∧ (bs.drop 6).take 2 = List.replicate 2 0 ∧
      (bs.drop 16).take 16 = List.replicate 16 0 then do
    let t := ofSigned ((bs.drop 4).take 2)
    let n := ofSigned ((bs.drop 8).take 8)
    let v ← viewOfTag t
    let cells ← elements v.width v.read n.toNat (bs.drop 32)
    if 0 ≤ n then some ⟨t, n, cells⟩ else none
  else none

/-- `[0xFF 0x01][i16 KS][i32 count]` and the strings. -/
def decodeSyms (bs : List UInt8) : Option Vec :=
  if ofSigned ((bs.drop 2).take 2) = LType.KS.tag then do
    let ts ← strings [] (bs.drop 8)
    some ⟨LType.KS.tag, ofSigned ((bs.drop 4).take 4), ts.map fun t => .s ⟨t⟩⟩
  else none

def decode (bs : List UInt8) : Option Vec :=
  if bs.take 2 = [0xFF, 0x01] then decodeSyms bs else decodeFixed bs

/-! ## The widths -/

/-- The L types that a column can be read as. -/
def Readable (lt : LType) : Prop := ∃ dt, lTypeOf dt = .ok lt

theorem readable_cases {lt : LType} (h : Readable lt) :
    lt ∈ [LType.KB, .KG, .KH, .KI, .KJ, .KE, .KF, .KS, .KP, .KD, .KN, .KT] := by
  obtain ⟨dt, h⟩ := h
  unfold lTypeOf at h
  split at h <;> try split at h
  all_goals cases h
  all_goals decide

/-- The table of widths agrees with the views that the fills write through. -/
theorem readable_width {lt : LType} (h : Readable lt) (hk : lt ≠ .KS) :
    width lt.tag = (typeView lt).width ∧ viewOfTag lt.tag = some (typeView lt) ∧
      typeView lt ≠ .s := by
  have hmem := readable_cases h
  simp only [List.mem_cons, List.not_mem_nil, or_false] at hmem
  rcases hmem with rfl | rfl | rfl | rfl | rfl | rfl | rfl | rfl | rfl | rfl | rfl | rfl
  case inr.inr.inr.inr.inr.inr.inr.inl => exact absurd rfl hk
  all_goals decide

theorem tag_bounds {lt : LType} (h : Readable lt) : 0 < lt.tag ∧ lt.tag < 20 := by
  have hmem := readable_cases h
  simp only [List.mem_cons, List.not_mem_nil, or_false] at hmem
  rcases hmem with rfl | rfl | rfl | rfl | rfl | rfl | rfl | rfl | rfl | rfl | rfl | rfl <;> decide

theorem length_cellBytes (c : Cell) : (cellBytes c).length = (viewOf c).width := by
  cases c <;> simp [cellBytes, viewOf, View.width]

/-- The bytes of an element bring it back. -/
theorem read_cellBytes {c : Cell} (h : viewOf c ≠ .s) : (viewOf c).read (cellBytes c) = c := by
  cases c with
  | g x => simp [viewOf, View.read, cellBytes, ofLittle]
  | h x =>
    have hlo := Int16.le_toInt x
    have hhi := Int16.toInt_lt x
    simp only [viewOf, View.read, cellBytes]
    rw [ofSigned_signed (by omega) (by omega), Int16.ofInt_toInt]
  | i x =>
    have hlo := Int32.le_toInt x
    have hhi := Int32.toInt_lt x
    simp only [viewOf, View.read, cellBytes]
    rw [ofSigned_signed (by omega) (by omega), Int32.ofInt_toInt]
  | j x =>
    have hlo := Int64.le_toInt x
    have hhi := Int64.toInt_lt x
    simp only [viewOf, View.read, cellBytes]
    rw [ofSigned_signed (by omega) (by omega), Int64.ofInt_toInt]
  | e x =>
    have := x.bits.toNat_lt
    simp only [viewOf, View.read, cellBytes]
    rw [ofLittle_little (by omega), UInt32.ofNat_toNat]
  | f x =>
    have := x.bits.toNat_lt
    simp only [viewOf, View.read, cellBytes]
    rw [ofLittle_little (by omega), UInt64.ofNat_toNat]
  | s x => exact absurd rfl h

theorem nul_not_in_text (x : Sym) : 0 ∉ text x := by
  intro h
  have := List.mem_takeWhile_imp h
  contradiction

/-! ## What the writers leave -/

variable {lt : LType} {f : File}

/-- The bytes that the elements of a column add to its file. -/
def body (lt : LType) (col : List Cell) : List UInt8 :=
  if lt = .KS then col.flatMap cstr else payload col

theorem body_append (xs ys : List Cell) : body lt (xs ++ ys) = body lt xs ++ body lt ys := by
  unfold body payload
  split <;> rw [List.flatMap_append]

/-- The elements are those that the fill of the type writes. -/
def Typed (lt : LType) (col : List Cell) : Prop := ∀ c ∈ col, viewOf c = typeView lt

theorem length_payload {col : List Cell} (h : Typed lt col) :
    (payload col).length = col.length * (typeView lt).width := by
  unfold payload
  rw [List.length_flatMap, List.map_congr_left fun c hc => by rw [length_cellBytes, h c hc],
    List.map_const', List.sum_replicate, Nat.nsmul_eq_mul]

theorem foldl_write {α : Type} (put : α → List UInt8) (h : f.AtEnd) (xs : List α) :
    (xs.foldl (fun f x => f.write (put x)) f).AtEnd ∧
      (xs.foldl (fun f x => f.write (put x)) f).data = f.data ++ xs.flatMap put := by
  induction xs generalizing f with
  | nil => exact ⟨h, by simp⟩
  | cons x xs ih =>
    obtain ⟨hend, hdata⟩ := ih (h.written (put x))
    refine ⟨hend, ?_⟩
    rw [List.foldl_cons, hdata, h.write, List.flatMap_cons, List.append_assoc]

theorem appendChunk_appends (hlt : Readable lt) (h : f.AtEnd) {col : List Cell}
    (hcol : Typed lt col) : (appendChunk f lt col col.length).AtEnd ∧
      (appendChunk f lt col col.length).data = f.data ++ body lt col := by
  unfold appendChunk body
  by_cases hk : lt = .KS
  · rw [if_pos hk, if_pos hk, List.take_length]
    exact foldl_write cstr h col
  · obtain ⟨hw, -, -⟩ := readable_width hlt hk
    rw [if_neg hk, if_neg hk, hw, ← length_payload hcol, List.take_length]
    exact ⟨h.written _, by rw [h.write]⟩

/-- After any number of batches the file holds its header and their elements, and the total
counts them. -/
theorem spills_append (hlt : Readable lt) {bs : List (List Cell)} (hbs : ∀ b ∈ bs, Typed lt b)
    (h : f.AtEnd) (n : Nat) :
    (bs.foldl (spill lt) (f, Int64.ofNat n)).1.AtEnd ∧
      (bs.foldl (spill lt) (f, Int64.ofNat n)).1.data = f.data ++ body lt bs.flatten ∧
      (bs.foldl (spill lt) (f, Int64.ofNat n)).2 = Int64.ofNat (n + bs.flatten.length) := by
  induction bs generalizing f n with
  | nil =>
    refine ⟨h, ?_, rfl⟩
    unfold body payload
    split <;> simp
  | cons b bs ih =>
    obtain ⟨hend, hdata⟩ := appendChunk_appends hlt h (hbs b List.mem_cons_self)
    obtain ⟨hend', hdata', htotal⟩ :=
      ih (fun x hx => hbs x (List.mem_cons_of_mem b hx)) hend (n + b.length)
    have hspill : spill lt (f, Int64.ofNat n) b =
        (appendChunk f lt b b.length, Int64.ofNat (n + b.length)) := by
      unfold spill
      rw [Int64.ofNat_add]
    rw [List.foldl_cons, hspill]
    refine ⟨hend', ?_, ?_⟩
    · rw [hdata', hdata, List.flatten_cons, body_append, List.append_assoc]
    · rw [htotal, List.flatten_cons, List.length_append, Nat.add_assoc]

theorem header_atEnd (lt : LType) : (header lt).AtEnd := by
  unfold header hdrSyms hdrFixed
  split <;> exact File.empty_atEnd.written _

/-- The bytes of a finished column file. -/
def finished (lt : LType) (cells : List Cell) : List UInt8 :=
  if lt = .KS then
    0xFF :: 0x01 :: (signed 2 LType.KS.tag ++ signed 4 cells.length) ++ body lt cells
  else
    List.replicate 4 0 ++ signed 2 lt.tag ++ List.replicate 2 0 ++ signed 8 cells.length ++
      List.replicate 16 0 ++ body lt cells

theorem ofNat_toInt {n : Nat} (h : n ≤ I32_MAX) :
    (Int64.ofNat n).toInt = n ∧ (Int64.ofNat n).toInt32.toInt = n := by
  unfold I32_MAX at h
  have hlong : (Int64.ofNat n).toInt = n := Int64.toInt_ofNat_of_lt (by omega)
  refine ⟨hlong, ?_⟩
  rw [Int64.toInt_toInt32, hlong]
  exact Int.bmod_eq_of_le_mul_two (by omega) (by omega)

theorem patch_syms (ys : List UInt8) (pos : Nat) (total : Int64) :
    (patchCount ⟨(header .KS).data ++ ys, pos⟩ true total).data =
      0xFF :: 0x01 :: (signed 2 LType.KS.tag ++ signed 4 total.toInt32.toInt) ++ ys := by
  have hhead : (header .KS).data = (0xFF :: 0x01 :: signed 2 LType.KS.tag) ++ signed 4 0 := by
    unfold header hdrSyms
    rw [if_pos rfl, File.empty_atEnd.write]
    rfl
  rw [hhead]
  exact @File.write_over (0xFF :: 0x01 :: signed 2 LType.KS.tag) _ ys _ (by simp)

theorem patch_fixed (hk : lt ≠ .KS) (ys : List UInt8) (pos : Nat) (total : Int64) :
    (patchCount ⟨(header lt).data ++ ys, pos⟩ false total).data =
      List.replicate 4 0 ++ signed 2 lt.tag ++ List.replicate 2 0 ++ signed 8 total.toInt ++
        List.replicate 16 0 ++ ys := by
  have hhead : (header lt).data ++ ys =
      (List.replicate 4 0 ++ signed 2 lt.tag ++ List.replicate 2 0) ++ List.replicate 8 0 ++
        (List.replicate 16 0 ++ ys) := by
    unfold header hdrFixed
    rw [if_neg hk, File.empty_atEnd.write]
    have hzeros : List.replicate 26 (0 : UInt8) =
        List.replicate 2 0 ++ (List.replicate 8 0 ++ List.replicate 16 0) := rfl
    simp only [File.empty, List.nil_append, hzeros, List.append_assoc]
  have hlen : 8 = (List.replicate 4 (0 : UInt8) ++ signed 2 lt.tag ++ List.replicate 2 0).length := by
    simp
  rw [hhead, List.append_assoc _ (List.replicate 16 0) ys]
  unfold patchCount
  rw [if_neg (by decide), File.seek, hlen]
  exact File.write_over (by simp)

theorem columnFile_data (hlt : Readable lt) {groups : List (List (List Cell))}
    (hcells : ∀ g ∈ groups, ∀ b ∈ g, Typed lt b) (hn : groups.flatten.flatten.length ≤ I32_MAX) :
    (columnFile lt groups).data = finished lt groups.flatten.flatten := by
  have hbs : ∀ b ∈ groups.flatten, Typed lt b := fun b hb => by
    obtain ⟨g, hg, hbg⟩ := List.mem_flatten.mp hb
    exact hcells g hg b hbg
  obtain ⟨_, hdata, htotal⟩ := spills_append hlt hbs (header_atEnd lt) 0
  have hfold : groups.foldl (fun ft g => g.foldl (spill lt) ft) (header lt, 0) =
      groups.flatten.foldl (spill lt) (header lt, Int64.ofNat 0) := List.foldl_flatten.symm
  obtain ⟨hlong, hint⟩ := ofNat_toInt hn
  unfold columnFile
  rw [hfold]
  generalize groups.flatten.foldl (spill lt) (header lt, Int64.ofNat 0) = ft at *
  obtain ⟨⟨data, pos⟩, total⟩ := ft
  simp only [Nat.zero_add] at hdata htotal
  subst hdata htotal
  unfold finished
  by_cases hk : lt = .KS
  · subst hk
    rw [if_pos rfl, ← hint]
    exact patch_syms _ pos _
  · rw [if_neg hk, ← hlong]
    simp only [hk, decide_false]
    exact patch_fixed hk _ pos _

/-! ## What the reader finds -/

/-- An element as a splay file holds it: a symbol by its text. -/
def onDisk : Cell → Cell
  | .s x => .s ⟨text x⟩
  | c => c

theorem decode_syms {ts : List (List UInt8)} (h : ∀ t ∈ ts, 0 ∉ t) {n : Int} (hlo : -2 ^ 31 ≤ n)
    (hhi : n < 2 ^ 31) :
    decode (0xFF :: 0x01 :: (signed 2 LType.KS.tag ++ signed 4 n) ++ ts.flatMap (· ++ [0])) =
      some ⟨LType.KS.tag, n, ts.map fun t => .s ⟨t⟩⟩ := by
  have htag : ofSigned (signed 2 LType.KS.tag) = LType.KS.tag := by decide
  have hcount : ofSigned (signed 4 n) = n := ofSigned_signed (by omega) (by omega)
  unfold decode decodeSyms
  simp [List.take_append, List.drop_append, drop_signed, htag, hcount, strings_flatMap h]

theorem decode_fixed (hlt : Readable lt) (hk : lt ≠ .KS) {cells : List Cell}
    (hcells : Typed lt cells) (hn : cells.length ≤ I32_MAX) :
    decode (List.replicate 4 0 ++ signed 2 lt.tag ++ List.replicate 2 0 ++ signed 8 cells.length ++
      List.replicate 16 0 ++ payload cells) = some ⟨lt.tag, cells.length, cells⟩ := by
  obtain ⟨_, hview, hs⟩ := readable_width hlt hk
  obtain ⟨hlo, hhi⟩ := tag_bounds hlt
  unfold I32_MAX at hn
  have htag : ofSigned (signed 2 lt.tag) = lt.tag := ofSigned_signed (by omega) (by omega)
  have hcount : ofSigned (signed 8 cells.length) = cells.length :=
    ofSigned_signed (by omega) (by omega)
  have helements : elements (typeView lt).width (typeView lt).read cells.length (payload cells) =
      some cells := by
    apply elements_flatMap
    · intro c hc
      rw [length_cellBytes, hcells c hc]
    · intro c hc
      rw [← hcells c hc]
      exact read_cellBytes (by rw [hcells c hc]; exact hs)
  unfold decode decodeFixed
  simp [List.take_append, List.drop_append, drop_signed, htag, hcount, hview, helements]

theorem typed_syms {cells : List Cell} (h : Typed .KS cells) :
    ∃ xs : List Sym, cells = xs.map .s := by
  induction cells with
  | nil => exact ⟨[], rfl⟩
  | cons c cells ih =>
    obtain ⟨xs, rfl⟩ := ih fun x hx => h x (List.mem_cons_of_mem c hx)
    have hc := h c List.mem_cons_self
    cases c with
    | s x => exact ⟨x :: xs, rfl⟩
    | _ => cases hc

theorem onDisk_fixed {c : Cell} (h : viewOf c ≠ .s) : onDisk c = c := by
  cases c with
  | s x => exact absurd rfl h
  | _ => rfl

/-- What was written of the cells of a column decodes to them. -/
theorem decode_finished (hlt : Readable lt) {cells : List Cell} (hcells : Typed lt cells)
    (hn : cells.length ≤ I32_MAX) :
    decode (finished lt cells) = some ⟨lt.tag, cells.length, cells.map onDisk⟩ := by
  unfold finished body
  by_cases hk : lt = .KS
  · subst hk
    obtain ⟨xs, rfl⟩ := typed_syms hcells
    rw [if_pos rfl, if_pos rfl]
    unfold I32_MAX at hn
    have htexts : (xs.map Cell.s).flatMap cstr = (xs.map text).flatMap (· ++ [0]) := by
      rw [List.flatMap_map, List.flatMap_map]
      rfl
    have hnul : ∀ t ∈ xs.map text, 0 ∉ t := fun t ht => by
      obtain ⟨x, _, rfl⟩ := List.mem_map.mp ht
      exact nul_not_in_text x
    rw [htexts, decode_syms hnul (by omega) (by omega), List.map_map, List.map_map]
    rfl
  · obtain ⟨_, _, hs⟩ := readable_width hlt hk
    rw [if_neg hk, if_neg hk, decode_fixed hlt hk hcells hn]
    have hsame : cells.map onDisk = cells := by
      rw [List.map_congr_left fun c hc => onDisk_fixed (hcells c hc ▸ hs)]
      exact List.map_id' cells
    rw [hsame]

theorem manifest_data (names : List String) :
    (manifest names).data = 0xFF :: 0x01 :: (signed 2 LType.KS.tag ++
      signed 4 (Int32.ofNat names.length).toInt) ++
        (names.map utf8Bytes).flatMap (· ++ [0]) := by
  have hwrites : ∀ (f : File), f.AtEnd →
      (names.foldl (fun f n => (f.write (utf8Bytes n)).write [0]) f).data =
        f.data ++ (names.map utf8Bytes).flatMap (· ++ [0]) := fun f hf => by
    induction names generalizing f with
    | nil => simp
    | cons n names ih =>
      rw [List.foldl_cons, ih _ ((hf.written _).written _), (hf.written _).write, hf.write]
      simp
  have hhead : hdrSyms .empty (Int32.ofNat names.length) =
      ⟨0xFF :: 0x01 :: (signed 2 LType.KS.tag ++ signed 4 (Int32.ofNat names.length).toInt), _⟩ :=
    File.empty_atEnd.write _
  unfold manifest
  rw [hwrites (hdrSyms _ _) (File.empty_atEnd.written _), hhead]

/-! ## The law -/

/-- A column file, finished, holds its type, its count and its elements in order, however the rows
were cut into batches, and the manifest holds the names. -/
theorem a_splay_file_reads_back :
    (∀ lt, Readable lt → ∀ groups : List (List (List Cell)),
      (∀ g ∈ groups, ∀ b ∈ g, Typed lt b) → groups.flatten.flatten.length ≤ I32_MAX →
        decode (columnFile lt groups).data = some ⟨lt.tag, groups.flatten.flatten.length,
          groups.flatten.flatten.map onDisk⟩ ∧
        ∀ groups' : List (List (List Cell)), groups'.flatten.flatten = groups.flatten.flatten →
          (columnFile lt groups').data = (columnFile lt groups).data) ∧
      ∀ names : List String, (∀ n ∈ names, 0 ∉ utf8Bytes n) →
        ∃ count, decode (manifest names).data =
            some ⟨LType.KS.tag, count, names.map fun n => .s ⟨utf8Bytes n⟩⟩ ∧
          (names.length ≤ I32_MAX → count = names.length) := by
  refine ⟨fun lt hlt groups hcells hn => ?_, fun names hnul => ?_⟩
  · have htyped : Typed lt groups.flatten.flatten := fun c hc => by
      obtain ⟨b, hb, hcb⟩ := List.mem_flatten.mp hc
      obtain ⟨g, hg, hbg⟩ := List.mem_flatten.mp hb
      exact hcells g hg b hbg c hcb
    refine ⟨?_, fun groups' hsame => ?_⟩
    · rw [columnFile_data hlt hcells hn]
      exact decode_finished hlt htyped hn
    · have hcells' : ∀ g ∈ groups', ∀ b ∈ g, Typed lt b := fun g hg b hb c hc =>
        htyped c (hsame ▸ List.mem_flatten_of_mem (List.mem_flatten_of_mem hg hb) hc)
      rw [columnFile_data hlt hcells hn, columnFile_data hlt hcells' (hsame ▸ hn), hsame]
  · have hlo := Int32.le_toInt (Int32.ofNat names.length)
    have hhi := Int32.toInt_lt (Int32.ofNat names.length)
    refine ⟨(Int32.ofNat names.length).toInt, ?_, fun hn => ?_⟩
    · rw [manifest_data, decode_syms _ hlo hhi, List.map_map]
      · rfl
      · intro t ht
        obtain ⟨n, hname, rfl⟩ := List.mem_map.mp ht
        exact hnul n hname
    · unfold I32_MAX at hn
      exact Int32.toInt_ofNat_of_lt (by omega)

/-- Three shorts in two row groups, the last one in a batch of its own. -/
theorem three_shorts_read_back :
    decode (columnFile .KH [[[.h 1, .h (-2)]], [[], [.h 3]]]).data =
      some ⟨5, 3, [.h 1, .h (-2), .h 3]⟩ := by
  obtain ⟨hcolumn, -⟩ := a_splay_file_reads_back
  refine (hcolumn .KH ⟨.int16, rfl⟩ _ ?_ (by decide)).1
  simp [Typed, viewOf, typeView]

end parquet_interop.stream
