-- A stream beside a read of the same file: the batches that `stream_table`
-- decodes, a vector at a time, hold the columns that the read answers with, so
-- the splay loads as the table of the read.
import ParquetInterop.StreamReplace
import ParquetInterop.RoundTrip

open lib.stores lib.trees lib.wrapping
open parquet_interop.ffi parquet_interop.footer parquet_interop.read parquet_interop.write

namespace parquet_interop.stream

/-! ## The batch loop -/

/-- The L types of all columns, or the error of the first that has none. -/
def typesOf : (ts : List (Except String LType)) →
    Except String {lts : List LType // lts.length = ts.length}
  | [] => .ok ⟨[], rfl⟩
  | .error e :: _ => .error e
  | .ok lt :: ts => (typesOf ts).map fun lts => ⟨lt :: lts.1, congrArg (· + 1) lts.2⟩

/-- The columns of a batch of `rows` rows. -/
abbrev Columns (rows n : Nat) : Type :=
  {cols : List (List Cell) // cols.length = n ∧ ∀ c ∈ cols, c.length = rows}

/-- A batch of `n` columns. -/
abbrev FilledOf (n : Nat) : Type := {b : Filled // b.cols.length = n}

theorem length_cells (m : Mem Nat Cell) (col n : Nat) : (cells m col n).length = n := by
  simp [cells]

def Columns.cons {rows n : Nat} (m : Mem Nat Cell) (v : Nat) (cs : Columns rows n) :
    Columns rows (n + 1) where
  val := cells m v rows :: cs.1
  property := by
    refine ⟨congrArg (· + 1) cs.2.1, fun c hc => ?_⟩
    rcases List.mem_cons.mp hc with rfl | hc
    · exact length_cells m v rows
    · exact cs.2.2 c hc

section
variable (W : World) (m : Mem Nat Cell)

/-- The columns of one batch from `c` on, each through a vector of its own, which holds what `m`
does when it is allocated. `v` counts the vectors. -/
def batchCols (b : Batch) : (lts : List LType) → Nat → Nat → SymCache →
    Except String (Columns b.num_rows lts.length) × SymCache
  | [], _, _, sy => (.ok ⟨[], rfl, nofun⟩, sy)
  | lt :: lts, c, v, sy =>
    match b.columns[c]? with
    | none => (.error "index out of bounds", sy)
    | some arr =>
      match fillCol W.crate lt v 0 arr sy with
      | (.error e, sy) => (.error e, sy)
      | (.ok os, sy) =>
        let (r, sy) := batchCols b lts (c + 1) (v + 1) sy
        (r.map (Columns.cons (run m os) v), sy)

/-- The batches of one row group. -/
def batchLoop (lts : List LType) : List (Except String Batch) → Nat → SymCache →
    Except String (List (FilledOf lts.length)) × Nat × SymCache
  | [], v, sy => (.ok [], v, sy)
  | .error e :: _, v, sy => (.error s!"pq_stream: {e}", v, sy)
  | .ok b :: bs, v, sy =>
    match batchCols W m b lts 0 v sy with
    | (.error e, sy) => (.error e, v, sy)
    | (.ok cs, sy) =>
      let (r, v, sy) := batchLoop lts bs (v + lts.length) sy
      (r.map (⟨⟨b.num_rows, cs.1, cs.2.2⟩, cs.2.1⟩ :: ·), v, sy)

/-- The row groups, each with a fresh reader of all its columns. The symbol cache goes on from one
to the next. -/
def groupLoop (s : Src) (lts : List LType) : List Nat → Nat → SymCache →
    Except String (List (List (FilledOf lts.length)))
  | [], _, _ => .ok []
  | g :: gs, v, sy =>
    match W.fopen s with
    | .error e => .error s!"pq_stream: {s.path}: {e}"
    | .ok () =>
      match W.batches s ⟨List.range lts.length⟩ g with
      | .error e => .error s!"pq_stream: {e}"
      | .ok bs =>
        match batchLoop W m lts bs v sy with
        | (.error e, _) => .error e
        | (.ok bs, v, sy) => (groupLoop s lts gs v sy).map (bs :: ·)

/-- What `stream_table` streams of the file `s`, when its batches decode. One that does not decode
is a stop of the world between two calls. -/
def sourceOf (s : Src) : Except String Source :=
  match typesOf (oneSet s).lts with
  | .error e => .error e
  | .ok lts =>
    (groupLoop W m s lts.1 (List.range s.rg_rows.length) 0 SymCache.new).map fun groups =>
      { names := (oneSet s).names
        lts := lts.1
        rg_rows := s.rg_rows
        groups := groups.map (·.map (·.1))
        lts_len := by simp [lts.2, oneSet]
        cols_len := by
          have hlen : lts.1.length = (oneSet s).names.length := by simp [lts.2, oneSet]
          intro g hg b hb
          obtain ⟨g', _, rfl⟩ := List.mem_map.mp hg
          obtain ⟨b', _, rfl⟩ := List.mem_map.mp hb
          exact b'.2.trans hlen }

end

/-! ## What the loop decodes -/

theorem typesOf_iff {ts : List (Except String LType)} {lts : {lts : List LType // lts.length = ts.length}} :
    typesOf ts = .ok lts ↔ ts = lts.1.map .ok := by
  induction ts with
  | nil =>
    obtain ⟨lts, hlen⟩ := lts
    obtain rfl := List.eq_nil_of_length_eq_zero hlen
    simp [typesOf]
  | cons t ts ih =>
    obtain ⟨lts, hlen⟩ := lts
    obtain ⟨lt, lts, rfl⟩ := List.exists_cons_of_length_eq_add_one hlen
    rcases t with e | lt'
    · simp [typesOf]
    · have hrest := @ih ⟨lts, Nat.succ.inj hlen⟩
      unfold typesOf
      rcases h : typesOf ts with e | ⟨lts', hlen'⟩
      · rw [h] at hrest
        simp [Except.map] at hrest ⊢
        exact fun _ => hrest
      · rw [h] at hrest
        simp [Except.map] at hrest ⊢
        exact fun _ => hrest

theorem cells_delivered {os : List Store} {v : Nat} {lt : LType} {dt : DataType}
    {xs : List (Option Val)} (h : Delivers os v 0 lt dt xs) (m : Mem Nat Cell) :
    cells (run m os) v xs.length = xs.map (cell lt dt) := by
  apply List.ext_getElem
  · simp [cells]
  · intro i hi hxs
    rw [List.length_map] at hxs
    have hrow := h m i xs[i] (List.getElem?_eq_getElem hxs)
    rw [Nat.zero_add] at hrow
    simp [cells, hrow]

variable {W : World} {m : Mem Nat Cell} {s : Src} {content : Content} {lts : List LType}

/-- The batch brings a column of each type, from column `c` of the file on. -/
def Brings (W : World) (s : Src) (lts : List LType) (c : Nat) (b : Batch) : Prop :=
  ∀ (i : Nat) lt, lts[i]? = some lt → lTypeOf (typeAt s (c + i)) = .ok lt ∧
    ∃ arr, b.columns[c + i]? = some arr ∧ arr.data_type = typeAt s (c + i) ∧ arr.Typed W.crate.heap

/-- Column `i` of a batch as it is delivered. -/
def rowCells (W : World) (s : Src) (lt : LType) (i : Nat) (b : Batch) : List Cell :=
  (batchRows W.crate.heap b i).map (cell lt (typeAt s i))

/-- Every column of a batch goes through its vector whole, whatever the vector held before. -/
theorem batchCols_brings (hcr : W.crate.Lawful) {b : Batch} {c v : Nat} {sy : SymCache}
    (hsy : sy.Coherent W.crate.heap) (hb : Brings W s lts c b) :
    ∃ cs sy', batchCols W m b lts c v sy = (.ok cs, sy') ∧ sy'.Coherent W.crate.heap ∧
      ∀ (i : Nat) lt, lts[i]? = some lt → cs.1[i]? = some (rowCells W s lt (c + i) b) := by
  induction lts generalizing c v sy with
  | nil => exact ⟨_, sy, rfl, hsy, fun i lt h => by cases h⟩
  | cons lt lts ih =>
    obtain ⟨hlt, arr, harr, hdt, htyped⟩ := hb 0 lt rfl
    rw [Nat.add_zero] at hlt harr hdt
    obtain ⟨os, sy1, hfill, hsy1, hdel⟩ := fillCol_delivers hcr hsy htyped (hdt ▸ hlt) v 0
    obtain ⟨cs, sy', hcols, hsy', hcs⟩ := @ih (c + 1) (v + 1) sy1 hsy1 fun i lt' h => by
      rw [Nat.add_right_comm, Nat.add_assoc]
      exact hb (i + 1) lt' h
    refine ⟨cs.cons (run m os) v, sy', ?_, hsy', fun i lt' h => ?_⟩
    · unfold batchCols
      simp only [harr, hfill, hcols]
      rfl
    · cases i with
      | zero =>
        obtain rfl : lt = lt' := by simpa using h
        have hrows : batchRows W.crate.heap b c = arr.content W.crate.heap := by
          simp [batchRows, harr]
        have hlen : (arr.content W.crate.heap).length = b.num_rows :=
          htyped.length_content.trans (b.len_eq arr (List.mem_of_getElem? harr))
        have hcells := cells_delivered hdel m
        rw [hlen, hdt] at hcells
        show some (cells (run m os) v b.num_rows) = _
        rw [hcells, rowCells, Nat.add_zero, hrows]
      | succ i =>
        have hi := hcs i lt' (by simpa using h)
        rw [Nat.add_right_comm, Nat.add_assoc] at hi
        exact hi

theorem batchLoop_brings (hcr : W.crate.Lawful) {bs : List Batch} {v : Nat} {sy : SymCache}
    (hsy : sy.Coherent W.crate.heap) (hbs : ∀ b ∈ bs, Brings W s lts 0 b) :
    ∃ fs v' sy', batchLoop W m lts (bs.map .ok) v sy = (.ok fs, v', sy') ∧
      sy'.Coherent W.crate.heap ∧ fs.map (·.1.rows) = bs.map (·.num_rows) ∧
      ∀ (i : Nat) lt, lts[i]? = some lt →
        fs.map (fun f => f.1.cols.getD i []) = bs.map (rowCells W s lt i) := by
  induction bs generalizing v sy with
  | nil => exact ⟨[], v, sy, rfl, hsy, rfl, fun _ _ _ => rfl⟩
  | cons b bs ih =>
    obtain ⟨cs, sy1, hcols, hsy1, hcs⟩ := @batchCols_brings W m s lts hcr b 0 v sy hsy
      (hbs b List.mem_cons_self)
    obtain ⟨fs, v', sy', hloop, hsy', hrows, hfs⟩ := @ih (v + lts.length) sy1 hsy1
      fun b' hb' => hbs b' (List.mem_cons_of_mem b hb')
    refine ⟨⟨⟨b.num_rows, cs.1, cs.2.2⟩, cs.2.1⟩ :: fs, v', sy', ?_, hsy', congrArg (_ :: ·) hrows,
      fun i lt h => ?_⟩
    · rw [List.map_cons]
      unfold batchLoop
      simp only [hcols, hloop]
      rfl
    · have hi := hcs i lt h
      rw [Nat.zero_add] at hi
      rw [List.map_cons, List.map_cons, hfs i lt h, List.getD_eq_getElem?_getD, hi]
      rfl

/-- The batches of a row group, with every column of the file. -/
theorem group_brings (hW : Whole W [s] content) (hlts : ∀ (i : Nat) lt, lts[i]? = some lt →
    lTypeOf (typeAt s i) = .ok lt) {g : Nat} {n : Int64} (hn : s.rg_rows[g]? = some n) :
    ∃ bs : List Batch, W.batches s ⟨List.range lts.length⟩ g = .ok (bs.map .ok) ∧
      (bs.map (·.num_rows)).sum = asUsize n ∧ (∀ b ∈ bs, Brings W s lts 0 b) ∧
      ∀ i < lts.length, bs.flatMap (batchRows W.crate.heap · i) = content s g i := by
  have hs := List.mem_singleton_self s
  have hsorted : (List.range lts.length).Pairwise (· < ·) := List.pairwise_lt_range
  have hreadable : ∀ c ∈ List.range lts.length, ∃ lt, lTypeOf (typeAt s c) = .ok lt := fun c hc =>
    ⟨_, hlts c _ (List.getElem?_eq_getElem (List.mem_range.mp hc))⟩
  obtain ⟨bs, hbs, hsum⟩ := hW.batches s hs g n _ hn hsorted hreadable
  have hcol := fun i (hi : i < lts.length) =>
    hW.typed s hs g n _ bs hn hsorted hreadable hbs hsum i i (by simp [hi])
  refine ⟨bs, hbs, hsum, fun b hb i lt h => ?_, fun i hi => (hcol i hi).2⟩
  rw [Nat.zero_add]
  exact ⟨hlts i lt h, (hcol i (List.getElem?_eq_some_iff.mp h).1).1 b hb⟩

theorem groupLoop_brings (hW : Whole W [s] content) (hlts : ∀ (i : Nat) lt, lts[i]? = some lt →
    lTypeOf (typeAt s i) = .ok lt) {gs : List Nat} (hgs : ∀ g ∈ gs, g < s.rg_rows.length) {v : Nat}
    {sy : SymCache} (hsy : sy.Coherent W.crate.heap) :
    ∃ groups, groupLoop W m s lts gs v sy = .ok groups ∧
      groups.map (fun fs => (fs.map (·.1.rows)).sum) = gs.map (fun g => asUsize (s.rg_rows.getD g 0)) ∧
      ∀ (i : Nat) lt, lts[i]? = some lt →
        groups.map (fun fs => (fs.map fun f => f.1.cols.getD i []).flatten) =
          gs.map fun g => (content s g i).map (cell lt (typeAt s i)) := by
  induction gs generalizing v sy with
  | nil => exact ⟨[], rfl, rfl, fun _ _ _ => rfl⟩
  | cons g gs ih =>
    have hn := List.getElem?_eq_getElem (hgs g List.mem_cons_self)
    obtain ⟨bs, hbs, hsum, hbrings, hrows⟩ := group_brings hW hlts hn
    obtain ⟨fs, v1, sy1, hloop, hsy1, hcounts, hfs⟩ :=
      @batchLoop_brings W m s lts hW.lawful bs v sy hsy hbrings
    obtain ⟨groups, hok, htotals, hgroups⟩ :=
      @ih (fun x hx => hgs x (List.mem_cons_of_mem g hx)) v1 sy1 hsy1
    refine ⟨fs :: groups, ?_, ?_, fun i lt h => ?_⟩
    · unfold groupLoop
      simp only [hW.fopen s (List.mem_singleton_self s), hbs, hloop, hok]
      rfl
    · rw [List.map_cons, List.map_cons, htotals, hcounts, hsum, List.getD_eq_getElem?_getD, hn]
      rfl
    · have hi := (List.getElem?_eq_some_iff.mp h).1
      rw [List.map_cons, List.map_cons, hgroups i lt h, hfs i lt h, ← hrows i hi, ← List.flatMap_def,
        List.map_flatMap]
      rfl

/-! ## The elements of a column -/

/-- A value of a type is delivered through the view of its L type. -/
theorem viewOf_cellOf {v : Val} {dt : DataType} {lt : LType} (hv : v.Of dt)
    (hlt : lTypeOf dt = .ok lt) : viewOf (cellOf lt dt v) = typeView lt := by
  unfold Val.Of at hv
  split at hv <;> try exact hv.elim
  all_goals try (cases hlt; rfl)
  · rename_i u
    cases u <;> cases hlt
    rfl
  · rename_i k v'
    simp only [lTypeOf] at hlt
    split at hlt
    · cases hlt
      rfl
    · cases hlt

theorem viewOf_nullCell {lt : LType} (h : Readable lt) : viewOf (nullCell lt) = typeView lt := by
  have hmem := readable_cases h
  simp only [List.mem_cons, List.not_mem_nil, or_false] at hmem
  rcases hmem with rfl | rfl | rfl | rfl | rfl | rfl | rfl | rfl | rfl | rfl | rfl | rfl <;> rfl

theorem typed_content (hW : Whole W [s] content) (hlts : ∀ (i : Nat) lt, lts[i]? = some lt →
    lTypeOf (typeAt s i) = .ok lt) {g i : Nat} (hg : g < s.rg_rows.length) {lt : LType}
    (h : lts[i]? = some lt) : Typed lt ((content s g i).map (cell lt (typeAt s i))) := by
  have hi := (List.getElem?_eq_some_iff.mp h).1
  obtain ⟨bs, _, _, hbrings, hrows⟩ := group_brings hW hlts (List.getElem?_eq_getElem hg)
  intro c hc
  rw [← hrows i hi] at hc
  obtain ⟨x, hx, rfl⟩ := List.mem_map.mp hc
  obtain ⟨b, hb, hxb⟩ := List.mem_flatMap.mp hx
  obtain ⟨hlt, arr, harr, hdt, htyped⟩ := hbrings b hb i lt h
  rw [Nat.zero_add] at hlt harr hdt
  rcases x with _ | v
  · exact viewOf_nullCell ⟨_, hlt⟩
  · have hmem : some v ∈ arr.content W.crate.heap := by simpa [batchRows, harr] using hxb
    exact viewOf_cellOf (hdt ▸ htyped.of_mem hmem) hlt

/-! ## The source of a file -/

theorem windowCounts_one (s : Src) : countedRows (windowCounts [s] 0 s.rg_rows.length) =
    ((List.range s.rg_rows.length).map fun g => asUsize (s.rg_rows.getD g 0)).sum := by
  have hall := windowCounts_all [s]
  rw [List.map_singleton, List.sum_singleton, List.flatMap_singleton] at hall
  rw [hall]
  unfold countedRows
  congr 1
  apply List.ext_getElem
  · simp
  · intro g hg hg'
    rw [List.length_map, List.length_map] at hg
    simp [asUsize, hg]

theorem types_get {ts : List (Except String LType)} {lts : {lts : List LType // lts.length = ts.length}}
    (htypes : typesOf ts = .ok lts) (i : Nat) : ts[i]? = (lts.1[i]?).map Except.ok := by
  have hget := congrArg (·[i]?) (typesOf_iff.mp htypes)
  rwa [List.getElem?_map] at hget

theorem types_at {lts : {lts : List LType // lts.length = (oneSet s).lts.length}}
    (htypes : typesOf (oneSet s).lts = .ok lts) {i : Nat} {lt : LType} (h : lts.1[i]? = some lt) :
    lTypeOf (typeAt s i) = .ok lt := by
  have hget : (oneSet s).lts[i]? = some (.ok lt) := by
    rw [types_get htypes, h]
    rfl
  exact agree_lt (agree_one s "") hget s (List.mem_singleton_self s)

/-- The whole file decodes, and its columns are those of the read. -/
theorem sourceOf_brings {lts : {lts : List LType // lts.length = (oneSet s).lts.length}}
    (htypes : typesOf (oneSet s).lts = .ok lts) (hW : Whole W [s] content) (m : Mem Nat Cell) :
    ∃ src, sourceOf W m s = .ok src ∧ src.names = (oneSet s).names ∧ src.lts = lts.1 ∧
      src.rg_rows = s.rg_rows ∧
      src.total = Int64.ofNat (countedRows (windowCounts [s] 0 s.rg_rows.length)) ∧
      ∀ (i : Nat) lt, lts.1[i]? = some lt → (∀ g ∈ src.column i, ∀ b ∈ g, Typed lt b) ∧
        (src.column i).flatten.flatten = windowCells content [s] lt i 0 (oneSet s).nRg := by
  obtain ⟨groups, hok, hcounts, hgroups⟩ := @groupLoop_brings W m s content lts.1 hW
    (fun i lt h => types_at htypes h) (List.range s.rg_rows.length) (fun g => List.mem_range.mp) 0
    SymCache.new (coherent_new _)
  obtain ⟨src, hsrc⟩ : ∃ src, sourceOf W m s = .ok src := by
    unfold sourceOf
    simp only [htypes, hok]
    exact ⟨_, rfl⟩
  have hfields : src.names = (oneSet s).names ∧ src.lts = lts.1 ∧ src.rg_rows = s.rg_rows ∧
      src.groups = groups.map (·.map (·.1)) := by
    unfold sourceOf at hsrc
    simp only [htypes, hok] at hsrc
    cases hsrc
    exact ⟨rfl, rfl, rfl, rfl⟩
  obtain ⟨hnames, hlts, hrows, hgs⟩ := hfields
  refine ⟨src, hsrc, hnames, hlts, hrows, ?_, fun i lt h => ?_⟩
  · have htotal : src.total = wrappingSum ((src.batches.map (·.rows)).map Int64.ofNat) := by
      unfold wrappingSum Source.total
      rw [List.map_map, List.foldl_map]
      rfl
    have hsum : (src.batches.map (·.rows)).sum =
        countedRows (windowCounts [s] 0 s.rg_rows.length) := by
      rw [windowCounts_one, ← hcounts, Source.batches, hgs, List.map_flatten, List.sum_flatten,
        List.map_map, List.map_map]
      congr 1
      apply List.map_congr_left
      intro fs _
      simp [Function.comp_def]
    rw [htotal, wrappingSum_ofNat, hsum]
  · have hcolumn : (src.column i).map List.flatten =
        (List.range s.rg_rows.length).map fun g => (content s g i).map (cell lt (typeAt s i)) := by
      rw [← hgroups i lt h, Source.column, hgs, List.map_map, List.map_map]
      apply List.map_congr_left
      intro fs _
      simp [Function.comp_def]
    refine ⟨fun g hg b hb => ?_, ?_⟩
    · have hmem : g.flatten ∈ (src.column i).map List.flatten := List.mem_map_of_mem hg
      rw [hcolumn] at hmem
      obtain ⟨x, hx, hflat⟩ := List.mem_map.mp hmem
      have htyped := typed_content hW (fun i lt h => types_at htypes h) (List.mem_range.mp hx) h
      rw [hflat] at htyped
      exact fun c hc => htyped c (List.mem_flatten_of_mem hb hc)
    · have hwhole := windowCells_whole content [s] lt i
      rw [List.flatMap_singleton] at hwhole
      rw [List.flatten_flatten, hcolumn, ← List.flatMap_def]
      exact hwhole.symm

/-! ## The names of the columns -/

/-- Only the NUL has a byte 0. -/
theorem zero_mem_encode {c : Char} (h : 0 ∈ String.utf8EncodeChar c) : c = '\x00' := by
  have hsmall : ∀ {k : Nat}, 0 = UInt8.ofNat k → k % 256 = 0 := fun hk => by
    have := congrArg UInt8.toNat hk
    simpa using this.symm
  unfold String.utf8EncodeChar at h
  dsimp only at h
  split at h
  · have hzero : c.val.toNat = 0 := by
      have := hsmall (List.mem_singleton.mp h)
      omega
    apply Char.ext
    apply UInt32.toNat_inj.mp
    rw [hzero]
    rfl
  · exfalso
    split at h
    · simp only [List.mem_cons, List.not_mem_nil, or_false] at h
      rcases h with h | h <;> have := hsmall h <;> omega
    · split at h
      · simp only [List.mem_cons, List.not_mem_nil, or_false] at h
        rcases h with h | h | h <;> have := hsmall h <;> omega
      · simp only [List.mem_cons, List.not_mem_nil, or_false] at h
        rcases h with h | h | h | h <;> have := hsmall h <;> omega

theorem zero_not_in_utf8 {n : String} (h : '\x00' ∉ n.toList) : 0 ∉ utf8Bytes n := by
  have hbytes : utf8Bytes n = n.toList.flatMap String.utf8EncodeChar := by
    unfold utf8Bytes String.toUTF8
    rw [← String.utf8Encode_toList]
    simp [List.utf8Encode]
  rw [hbytes]
  intro hz
  obtain ⟨c, hc, hzc⟩ := List.mem_flatMap.mp hz
  exact h (zero_mem_encode hzc ▸ hc)

theorem utf8Of_utf8Bytes (n : String) : utf8Of (utf8Bytes n) = some n := by
  unfold utf8Of String.fromUTF8?
  rw [dif_pos (by exact n.isValidUTF8)]
  rfl

/-- Names that open a file each, beside the manifest. -/
structure FileNames (names : List String) : Prop where
  plain : ∀ n ∈ names, Plain n.toList
  nodup : (".d" :: names).Nodup

theorem FileNames.own {src : Source} (h : FileNames src.names) (t : Tree) (d : Loc) :
    OwnFiles t d src.files := by
  have hfiles : src.files = (".d" :: src.names).map String.toList := rfl
  rw [hfiles]
  apply own_of_plain
  · intro file hfile
    obtain ⟨n, hn, rfl⟩ := List.mem_map.mp hfile
    rcases List.mem_cons.mp hn with rfl | hn
    · exact ⟨by decide, by decide, by decide⟩
    · exact h.plain n hn
  · exact h.nodup.map fun x y hxy => String.toList_inj.mp hxy

/-! ## What a stream leaves -/

/-- A stream that comes to its end leaves its splay, whatever it met on the way. -/
theorem stream_intact {w : Fate} {src : Source} {D : Dst} {pid n : Nat} {t : Tree}
    (hnames : FileNames src.names) (hok : (streamTable w src D pid n t).ok = true) :
    Intact src D.loc (streamTable w src D pid n t).tree := by
  by_cases hb : w.refused = true ∨ Barred src D t
  · rw [stream_barred hb] at hok
    cases hok
  rcases hm : (w.makes (D.scratch pid n) t).2 with _ | _
  · rw [stream_unmade hb hm] at hok
    cases hok
  rcases hw : (worked w src D pid n t).2 with _ | _
  · rw [stream_failed hb hm hw] at hok
    cases hok
  obtain ⟨hmade, _⟩ := makes_ok hm
  have hrun := work_ok hw
  rw [hmade] at hrun
  rw [stream_worked hb hm hw] at hok ⊢
  rw [hrun] at hok hw ⊢
  obtain ⟨hmanifest, hcolumns⟩ := intact_scratch (hnames.own _ _) hw
  exact ⟨(swap_ok hok _).trans hmanifest, fun c name lt hn hlt =>
    (swap_ok hok _).trans (hcolumns c name lt hn hlt)⟩

/-- What `get` finds in the splay at `d`: the names of the table, and in the file of each name the
type, the count and the elements of its column. -/
structure Loads (t : Tree) (d : Loc) (u : Table) : Prop where
  manifest : ∃ data count, t.node (d ++ [".d".toList]) = some (.file data) ∧
    decode data = some ⟨LType.KS.tag, count, u.names.map .s⟩ ∧
    (u.names.length ≤ I32_MAX → count = u.names.length)
  columns : List.Forall₂ (fun p c => ∃ name data lt xs, intern (utf8Bytes name) = p ∧
    c = .vec lt xs ∧ t.node (d ++ [name.toList]) = some (.file data) ∧
    decode data = some ⟨lt.tag, xs.length, xs.map onDisk⟩) u.names u.columns

theorem decode_manifest {names : List String} (h : ∀ n ∈ names, 0 ∉ utf8Bytes n) :
    ∃ count, decode (manifest names).data =
        some ⟨LType.KS.tag, count, names.map fun n => .s (intern (utf8Bytes n))⟩ ∧
      (names.length ≤ I32_MAX → count = names.length) := by
  refine ⟨(Int32.ofNat names.length).toInt, ?_, fun hn => ?_⟩
  · rw [manifest_data, decode_syms _ (Int32.le_toInt _) (Int32.toInt_lt _), List.map_map]
    · rfl
    · intro x hx
      obtain ⟨n, hn, rfl⟩ := List.mem_map.mp hx
      exact h n hn
  · unfold I32_MAX at hn
    exact Int32.toInt_ofNat_of_lt (by omega)

/-! ## The laws -/

section
variable {lts : {lts : List LType // lts.length = (oneSet s).lts.length}}

/-- A read of all columns selects them as they are. -/
theorem select_all (htypes : typesOf (oneSet s).lts = .ok lts) (who : String) :
    ∃ sel, select (oneSet s) none who = .ok sel ∧
      sel.out = List.range (oneSet s).names.length ∧
      ∀ c < (oneSet s).names.length, lts.1[c]? = some (sel.lt c) := by
  have hlen : lts.1.length = (oneSet s).names.length := by simp [lts.2, oneSet]
  have hget := types_get htypes
  obtain ⟨ls, hok⟩ : ∃ ls, ltsOf (oneSet s) (List.range (oneSet s).names.length) = .ok ls := by
    apply ltsOf_readable
    intro c hc
    rw [List.mem_range, ← hlen] at hc
    exact ⟨lts.1[c], by rw [hget, List.getElem?_eq_getElem hc]; rfl⟩
  have huniq := sortedUniq_length (List.nodup_range (n := (oneSet s).names.length))
  refine ⟨⟨List.range (oneSet s).names.length, ls, sortedUniq (List.range (oneSet s).names.length),
    (List.range (oneSet s).names.length).map fun c => rawDecision c [s] true none⟩, ?_, rfl, ?_⟩
  · unfold select wanted
    simp only [hok]
    rw [if_neg (not_not_intro huniq)]
    rfl
  · intro c hc
    have hat := (ltsOf_get hok).2 c (by simpa using hc)
    have hout : (List.range (oneSet s).names.length).getD c 0 = c := by simp [hc]
    rw [hout, hget, Option.map_eq_some_iff] at hat
    obtain ⟨lt, hlt, heq⟩ := hat
    cases heq
    exact hlt

theorem length_windowCells (hW : Whole W [s] content) (lt : LType) (c : Nat) :
    (windowCells content [s] lt c 0 (oneSet s).nRg).length =
      countedRows (windowCounts [s] 0 s.rg_rows.length) := by
  have hwhole := windowCells_whole content [s] lt c
  rw [List.flatMap_singleton] at hwhole
  have hnrg : (oneSet s).nRg = ([s].map (·.rg_rows.length)).sum := rfl
  rw [hnrg, hwhole, windowCounts_one, List.length_flatMap]
  congr 1
  apply List.map_congr_left
  intro g hg
  have hg := List.mem_range.mp hg
  rw [List.length_map, hW.rows s (List.mem_singleton_self s) g _ (List.getElem?_eq_getElem hg) c]
  simp [hg]

/-- The splay of a file loads as the table of the file. -/
theorem stream_loads (htypes : typesOf (oneSet s).lts = .ok lts) (hnames : FileNames (oneSet s).names)
    (hW : Whole W [s] content)
    (hrows : countedRows (windowCounts [s] 0 s.rg_rows.length) ≤ I32_MAX) {sel : Sel}
    (hout : sel.out = List.range (oneSet s).names.length)
    (hlt : ∀ c < (oneSet s).names.length, lts.1[c]? = some (sel.lt c)) (m : Mem Nat Cell) :
    ∃ src, sourceOf W m s = .ok src ∧
      src.total = Int64.ofNat (countedRows (windowCounts [s] 0 s.rg_rows.length)) ∧
      ∀ {w D pid n t}, (streamTable w src D pid n t).ok = true →
        Loads (streamTable w src D pid n t).tree D.loc
          (windowTable content (oneSet s) sel 0 (oneSet s).nRg) := by
  obtain ⟨src, hsrc, hns, hlts, _, htotal, hcols⟩ := sourceOf_brings htypes hW m
  refine ⟨src, hsrc, htotal, fun {w D pid n t} hok => ?_⟩
  obtain ⟨hmanifest, hfiles⟩ := stream_intact (hns ▸ hnames) hok
  have hcol : ∀ p < (oneSet s).names.length, sel.col p = p := fun p hp => by
    simp [Sel.col, hout, hp]
  have hnul : ∀ n ∈ src.names, 0 ∉ utf8Bytes n := fun n hn =>
    zero_not_in_utf8 (hnames.plain n (hns ▸ hn)).2.1
  have hall : (windowTable content (oneSet s) sel 0 (oneSet s).nRg).names =
      src.names.map fun n => intern (utf8Bytes n) := by
    unfold windowTable
    dsimp only
    rw [hout, List.length_range, hns]
    apply List.ext_getElem
    · simp
    · intro p hp _
      have hp : p < (oneSet s).names.length := by simpa using hp
      rw [List.getElem_map, List.getElem_range, List.getElem_map, hcol p hp,
        List.getD_eq_getElem _ _ hp]
  constructor
  case manifest =>
    obtain ⟨count, hdecode, hcount⟩ := decode_manifest hnul
    refine ⟨_, count, hmanifest, ?_, fun h => ?_⟩
    · rw [hdecode, hall, List.map_map]
      rfl
    · rw [hall, List.length_map] at h ⊢
      exact hcount h
  case columns =>
    unfold windowTable
    dsimp only
    rw [hout, List.length_range, List.forall₂_map_left_iff, List.forall₂_map_right_iff,
      List.forall₂_same]
    intro p hp
    have hp := List.mem_range.mp hp
    have hname := List.getElem?_eq_getElem hp
    have hread : Readable (sel.lt p) := ⟨_, types_at htypes (hlt p hp)⟩
    obtain ⟨htyped, hcells⟩ := hcols p _ (hlt p hp)
    have hlen := length_windowCells hW (sel.lt p) p
    have hfile := hfiles p _ _ ((congrArg (·[p]?) hns).trans hname)
      ((congrArg (·[p]?) hlts).trans (hlt p hp))
    rw [leaf_plain (hnames.plain _ (List.getElem_mem hp))] at hfile
    rw [hcol p hp]
    refine ⟨_, _, _, _, ?_, rfl, hfile, ?_⟩
    · rw [List.getD_eq_getElem _ _ hp]
    · have hshort : (src.column p).flatten.flatten.length ≤ I32_MAX := by
        rw [hcells, hlen]
        exact hrows
      have hflat : Typed (sel.lt p) (src.column p).flatten.flatten := fun c hc => by
        obtain ⟨b, hb, hcb⟩ := List.mem_flatten.mp hc
        obtain ⟨g, hg, hbg⟩ := List.mem_flatten.mp hb
        exact htyped g hg b hbg c hcb
      rw [columnFile_data hread htyped hshort, decode_finished hread hflat hshort, hcells]
      rfl

end

/-- The swap of a stream where nothing goes wrong, over the splay that was there. -/
def Fate.swaps : Fate := { Fate.good with rename := true, removed := fun _ => true }

/-- A file of three timestamps in two row groups. -/
def stamps : Src := stampFile "t" .nanosecond [2, 1]

theorem stamps_whole : Whole (stampWorld stampRows) [stamps]
    fun s g _ => (stampRows s g).map (·.map Val.i64) := by
  apply stampWorld_whole
  intro s hs
  refine ⟨"t", .nanosecond, [2, 1], List.mem_singleton.mp hs, fun g n hn => ?_⟩
  rcases g with _ | _ | g
  · cases hn
    rfl
  · cases hn
    rfl
  · cases hn

/-- The stream of the stamps over an old splay comes to its end. -/
theorem stamps_swap {src : Source}
    (h : sourceOf (stampWorld stampRows) (fun _ => .j 7) stamps = .ok src) :
    (streamTable Fate.swaps src splayDst 7 0 oldSplay).ok = true := by
  have hok : ((sourceOf (stampWorld stampRows) (fun _ => .j 7) stamps).map fun src =>
      (streamTable Fate.swaps src splayDst 7 0 oldSplay).ok).toOption = some true := by
    decide +kernel
  rw [h] at hok
  simpa [Except.map, Except.toOption] using hok

section
variable {T : LTable}

/-- Every table that can be written passes the checks. -/
theorem prepare_written (hT : T.Writable) (o : Opts) :
    ∃ columns, prepare o T.nrows [] (T.names.zip T.cols) = .ok columns ∧
      List.Forall₂ FieldOf (T.names.zip T.cols) (columns.map (·.mf)) := by
  apply prepare_ok
  · intro x hx
    have hmem := (List.of_mem_zip hx).1
    obtain ⟨nm, hnm⟩ := Option.isSome_iff_exists.mp (hT.utf8 _ hmem)
    exact ⟨nm, (toStr_eq (T.names_end _ hmem)).trans hnm, List.not_mem_nil⟩
  · have hfst : (T.names.zip T.cols).map Prod.fst = T.names :=
      List.map_fst_zip (Nat.le_of_eq T.len_eq.symm)
    have hmap : (T.names.zip T.cols).map (fun x => toStr x.1) = T.names.map toStr := by
      conv_rhs => rw [← hfst, List.map_map]
      rfl
    rw [hmap, List.nodup_map_iff_inj_on hT.distinct]
    exact fun p hp q hq heq => toStr_inj (T.names_end p hp) (T.names_end q hq) (hT.utf8 p hp) heq
  · exact fun x hx => hT.even _ (List.of_mem_zip hx).2

/-- The names of a written file are the names of its table. -/
theorem names_written (hs : List.Forall₂ FieldOf (T.names.zip T.cols) s.md.fields) :
    (oneSet s).names.map (fun n => intern (utf8Bytes n)) = T.names := by
  have hlen := hs.length_eq
  rw [List.length_zip, T.len_eq, Nat.min_self] at hlen
  apply List.ext_getElem
  · simp [oneSet, hlen]
  · intro c hc hcn
    obtain ⟨nm, f, hnm, hf, hstr, _⟩ :=
      fields_get hs (List.getElem?_eq_getElem (T.len_eq.symm ▸ hcn : c < T.cols.length))
    rw [List.getElem?_eq_getElem hcn] at hnm
    cases hnm
    rw [toStr_eq (T.names_end _ (List.getElem_mem hcn))] at hstr
    obtain ⟨hlt, hget⟩ := List.getElem?_eq_some_iff.mp hf
    simp only [oneSet, List.getElem_map, hget, utf8Bytes_utf8Of hstr]
    rfl

theorem types_written (hs : List.Forall₂ FieldOf (T.names.zip T.cols) s.md.fields) :
    ∃ lts, typesOf (oneSet s).lts = .ok lts ∧ lts.1 = T.cols.map LVec.lt := by
  have hlen := hs.length_eq
  rw [List.length_zip, ← T.len_eq, Nat.min_self] at hlen
  have hmap : (oneSet s).lts = (T.cols.map LVec.lt).map Except.ok := by
    apply List.ext_getElem
    · simp [oneSet, hlen]
    · intro c hc hcT
      rw [List.length_map, List.length_map] at hcT
      obtain ⟨_, f, _, hf, _, hdt⟩ := fields_get hs (List.getElem?_eq_getElem hcT)
      obtain ⟨hlt, hget⟩ := List.getElem?_eq_some_iff.mp hf
      simp [oneSet, hget, lTypeOf_readAs _ hdt, Except.mapError]
  exact ⟨⟨T.cols.map LVec.lt, by simp [hmap]⟩, typesOf_iff.mpr hmap, rfl⟩

/-- The names of a table, as the files of a splay. -/
def LTable.FileNames (T : LTable) : Prop :=
  ∀ p ∈ T.names, ∀ n, utf8Of p.bytes = some n → Plain n.toList ∧ n ≠ ".d"

theorem fileNames_written (hT : T.Writable) (hnames : LTable.FileNames T)
    (hs : List.Forall₂ FieldOf (T.names.zip T.cols) s.md.fields) : FileNames (oneSet s).names := by
  have hmap := names_written hs
  have hfile : ∀ n ∈ (oneSet s).names, Plain n.toList ∧ n ≠ ".d" := fun n hn => by
    have hmem : intern (utf8Bytes n) ∈ T.names := hmap ▸ List.mem_map_of_mem hn
    exact hnames _ hmem n (utf8Of_utf8Bytes n)
  refine ⟨fun n hn => (hfile n hn).1, List.nodup_cons.mpr ⟨fun h => (hfile _ h).2 rfl, ?_⟩⟩
  apply List.Nodup.of_map fun n => intern (utf8Bytes n)
  rw [hmap]
  exact hT.distinct

/-- The rows that the footer of a written file counts are those of the table. -/
theorem rows_written (hT : T.Writable) {o : Opts} {file : List (List write_queue.Chunk)}
    (hfile : Queued T o file) {columns : List Checked}
    (hs : List.Forall₂ FieldOf (T.names.zip T.cols) s.md.fields)
    (hrows : s.rg_rows = (Written.rows ⟨o, columns, file.map fun g => g.map T.encode⟩).map Int64.ofNat)
    (hW : Whole W [s] content)
    (hret : Returns ⟨o, columns, file.map fun g => g.map T.encode⟩ s content) :
    countedRows (windowCounts [s] 0 s.rg_rows.length) = T.nrows := by
  have hgroups := queued_groups hfile
  have hsum := rows_sum hT o.rg_pos (w := ⟨o, columns, file.map fun g => g.map T.encode⟩) hgroups
  have hcounted : countedRows (windowCounts [s] 0 s.rg_rows.length) =
      (Written.rows ⟨o, columns, file.map fun g => g.map T.encode⟩).sum := by
    have hall := windowCounts_all [s]
    rw [List.map_singleton, List.sum_singleton, List.flatMap_singleton] at hall
    rw [hall, hrows]
    exact counted_ofNat (Nat.le_trans hsum hT.short)
  rcases hcols : T.cols with _ | ⟨v, vs⟩
  · have hzero : T.nrows = 0 := by simp [LTable.nrows, hcols]
    omega
  · have hv : T.cols[0]? = some v := by simp [hcols]
    have hcells := congrArg List.length (cells_back hT o.rg_pos hgroups hs hrows hret hv)
    rw [length_windowCells hW, List.length_map] at hcells
    exact hcells.trans (hT.even v (List.mem_of_getElem? hv))

end

/-- The chunks of the three stamps are those of a run. -/
theorem stamps_queued : Queued threeStamps byTwo stampGroups := by
  obtain ⟨q, hq, hfile, hclosing⟩ : ∃ q, lib.runs.exec (write_queue.queue write_queue.smallPlan)
      (write_queue.start write_queue.smallPlan) write_queue.smallRun = some q ∧
      q.file = stampGroups ∧ q.m = .closing := ⟨_, rfl, rfl, rfl⟩
  rw [← hfile]
  exact .run (p := write_queue.smallPlan) rfl rfl rfl (lib.runs.Reachable.exec (.start rfl) _ hq) hclosing

theorem stamps_footer {w : Written} (hw : writeTable threeStamps byTwo stampGroups = .ok w) :
    w.groups = [[threeStamps.array 2 0 0], [threeStamps.array 2 1 0]] ∧
      FooterOf w ⟨⟨"t", 0, 0, 0, (0, 0)⟩, .ok stamps.md, fun _ => none⟩ := by
  have hfield : w.columns.map (·.mf) = [⟨"t", .timestamp .nanosecond none⟩] := by
    cases hw
    rfl
  have hgroups : w.groups = [[threeStamps.array 2 0 0], [threeStamps.array 2 1 0]] := by
    cases hw
    rfl
  refine ⟨hgroups, ⟨_, rfl, hfield.symm, ?_, ?_⟩, fun base fields md _ hmd => ?_⟩
  · rw [Written.rows, hgroups]
    rfl
  · rw [Written.rows, hgroups]
    rfl
  · cases hmd

/-- The rows of the stamps are what was written of them. -/
theorem stamps_returned {w : Written} (hw : writeTable threeStamps byTwo stampGroups = .ok w) :
    Returns w stamps fun s g _ => (stampRows s g).map (·.map Val.i64) := by
  intro g group c a hg hc
  rw [(stamps_footer hw).1] at hg
  rcases g with _ | _ | g
  · cases hg
    cases c <;> cases hc
    rfl
  · cases hg
    cases c <;> cases hc
    rfl
  · cases hg

/-- A table that is written and then streamed loads from its splay as the table that a read of the
file brings back, where its names are those of files. -/
theorem a_written_table_streams_into_its_splay {T : LTable} (hT : T.Writable)
    (hnames : LTable.FileNames T) (o : Opts) {file : List (List write_queue.Chunk)}
    (hfile : Queued T o file) :
    ∃ w, writeTable T o file = .ok w ∧ ∀ {f : OpenFile}, FooterOf w f →
      ∀ {cache : List Entry}, (∀ e ∈ cache, e.key ≠ f.key) → ∀ orig path : String,
      ∃ s, (load cache orig path (.ok f) "pq_stream").1 = .ok s ∧
        ∀ {W : World} {content : Content}, Whole W [s] content → Returns w s content →
        ∀ m, ∃ src, sourceOf W m s = .ok src ∧ src.total = Int64.ofNat T.nrows ∧
          ∀ {x D pid n t}, (streamTable x src D pid n t).ok = true →
            Loads (streamTable x src D pid n t).tree D.loc T.back := by
  obtain ⟨columns, hok, hfields⟩ := prepare_written hT o
  refine ⟨⟨o, columns, file.map fun g => g.map T.encode⟩, by simp [writeTable, hok, Except.map], ?_⟩
  intro f hf cache hcache orig path
  obtain ⟨s, hload, _, hrows, hs⟩ := load_written hf hfields hcache orig path "pq_stream"
  refine ⟨s, hload, fun {W content} hW hret m => ?_⟩
  obtain ⟨lts, htypes, hlts⟩ := types_written hs
  obtain ⟨sel, hsel, hout, hlt⟩ := select_all htypes "pq_stream"
  have hcounted := rows_written hT hfile hs hrows hW hret
  have hlen : (oneSet s).names.length = T.cols.length := by
    have hnames := congrArg List.length (names_written hs)
    rw [List.length_map] at hnames
    rw [hnames, T.len_eq]
  have hsellt : ∀ (c : Nat) v, T.cols[c]? = some v → sel.lt c = v.lt := by
    intro c v hv
    have hc := (List.getElem?_eq_some_iff.mp hv).1
    have hat := hlt c (hlen ▸ hc)
    rw [hlts, List.getElem?_map, hv] at hat
    exact (Option.some.inj hat).symm
  have htable : windowTable content (oneSet s) sel 0 (oneSet s).nRg = T.back :=
    table_back hs (hlen ▸ hout) hsellt fun c v hv =>
      cells_back hT o.rg_pos (queued_groups hfile) hs hrows hret hv
  obtain ⟨src, hsrc, htotal, hloads⟩ := stream_loads htypes (fileNames_written hT hnames hs) hW
    (hcounted ▸ hT.short) hout hlt m
  exact ⟨src, hsrc, hcounted ▸ htotal, fun {x D pid n t} hx => htable ▸ hloads hx⟩

theorem three_stamps_stream_back : ∃ w, writeTable threeStamps byTwo stampGroups = .ok w ∧
    ∃ src, sourceOf (stampWorld stampRows) (fun _ => .j 7) stamps = .ok src ∧ src.total = 3 ∧
      Loads (streamTable Fate.swaps src splayDst 7 0 oldSplay).tree splayDst.loc
        ⟨[intern [116]], [.vec .KP [.j 1, .j NJ, .j NJ]], true⟩ := by
  have hnames : LTable.FileNames threeStamps := by
    intro p hp n hn
    cases List.mem_singleton.mp hp
    have hstr : n = "t" := by
      have := (utf8Of_utf8Bytes "t").symm.trans hn
      exact (Option.some.inj this).symm
    subst hstr
    exact ⟨by unfold Plain; decide, by decide⟩
  obtain ⟨w, hw, hstream⟩ := a_written_table_streams_into_its_splay
    ⟨by decide, by decide, by decide, by decide⟩ hnames byTwo stamps_queued
  refine ⟨w, hw, ?_⟩
  obtain ⟨_, hfooter⟩ := stamps_footer hw
  obtain ⟨s, hload, hloads⟩ := @hstream _ hfooter [] (fun e he => absurd he List.not_mem_nil) "t" "t"
  cases hload
  obtain ⟨src, hsrc, htotal, hsplay⟩ := hloads stamps_whole (stamps_returned hw) fun _ => .j 7
  exact ⟨src, hsrc, htotal, hsplay (stamps_swap hsrc)⟩

end parquet_interop.stream
