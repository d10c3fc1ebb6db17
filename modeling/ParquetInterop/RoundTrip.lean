-- The round trip: a table that `write_table` took is read back from its file,
-- row group after row group, by the same reader that any other file has.
import Mathlib.Algebra.Order.BigOperators.Group.List
import Mathlib.Algebra.Order.Group.Nat
import ParquetInterop.WriteTable
import ParquetInterop.Projection

open lib.blocks lib.runs
open parquet_interop.ffi parquet_interop.footer parquet_interop.read

namespace parquet_interop.write

/-! ## What the queue leaves -/

/-- The array of row group `g` and column `c`. -/
def LTable.array (T : LTable) (rg g c : Nat) : Handed :=
  colToArrow ((T.cols[c]?).getD (.KB [])) (g * rg) (min ((g + 1) * rg) T.nrows - g * rg)

theorem queued_groups {T : LTable} {o : Opts} {file : List (List write_queue.Chunk)}
    (h : Queued T o file) : (file.map fun g => g.map T.encode) =
      (List.range (write_queue.divCeil T.nrows o.rg)).map fun g =>
        (List.range T.names.length).map fun c => T.array o.rg g c := by
  cases h with
  | idle hno =>
    rcases Nat.mul_eq_zero.mp hno with hg | hc
    · simp [hg]
    · have hcols : T.cols = [] := List.eq_nil_of_length_eq_zero (T.len_eq.trans hc)
      have hrows : T.nrows = 0 := by simp [LTable.nrows, hcols]
      simp [hrows, write_queue.divCeil]
  | @run p s hnc hrows hrg hr hm =>
    have hplace := (write_queue.good_reachable hr).place
    rw [hm] at hplace
    rw [hplace.2.1, List.map_map]
    have hnrg : p.nrg = write_queue.divCeil T.nrows o.rg := by
      rw [write_queue.Plan.nrg, hrows, hrg]
    rw [hnrg]
    apply List.map_congr_left
    intro g hg
    simp only [Function.comp_apply, write_queue.groupOf, List.map_map, hnc]
    apply List.map_congr_left
    intro c hc
    rw [List.mem_range] at hg hc
    have hchunk := write_queue.chunkOf_rows p g c (by omega) (by omega)
    simp only [Function.comp_apply, LTable.encode, LTable.array, ← hnc, hchunk, hrows, hrg]

/-! ## The checks -/

/-- The field that a file may have for a column of a table. -/
def FieldOf (x : Sym × LVec) (f : Field) : Prop := toStr x.1 = some f.name ∧ ReadAs x.2.lt f.data_type

theorem arrowType_ok (v : LVec) (sym_dict : Bool) : ∃ dt, arrowType v.lt sym_dict = .ok dt := by
  cases v <;> exact ⟨_, rfl⟩

theorem prepare_ok {o : Opts} {nrows : Nat} {seen : List String} {rest : List (Sym × LVec)}
    (hnames : ∀ x ∈ rest, ∃ nm, toStr x.1 = some nm ∧ nm ∉ seen)
    (hnodup : (rest.map fun x => toStr x.1).Nodup) (hlen : ∀ x ∈ rest, x.2.len = nrows) :
    ∃ columns, prepare o nrows seen rest = .ok columns ∧
      List.Forall₂ FieldOf rest (columns.map (·.mf)) := by
  induction rest generalizing seen with
  | nil => exact ⟨[], rfl, .nil⟩
  | cons x rest ih =>
    obtain ⟨name, col⟩ := x
    obtain ⟨nm, hnm, hnot⟩ := hnames _ List.mem_cons_self
    obtain ⟨hhead, hrest⟩ := List.nodup_cons.mp hnodup
    obtain ⟨columns, hok, hall⟩ := @ih (nm :: seen) (by
      intro y hy
      obtain ⟨nm', hnm', hnot'⟩ := hnames y (List.mem_cons_of_mem _ hy)
      refine ⟨nm', hnm', ?_⟩
      rw [List.mem_cons, not_or]
      refine ⟨?_, hnot'⟩
      rintro rfl
      apply hhead
      exact List.mem_map.mpr ⟨y, hy, hnm'.trans hnm.symm⟩) hrest
      fun y hy => hlen y (List.mem_cons_of_mem _ hy)
    obtain ⟨w, hw⟩ := arrowType_ok col true
    obtain ⟨m, hm⟩ := arrowType_ok col false
    have hcol : col.len = nrows := hlen _ List.mem_cons_self
    refine ⟨⟨⟨nm, w⟩, ⟨nm, m⟩, pick col nrows o⟩ :: columns, ?_, .cons ⟨hnm, false, hm⟩ hall⟩
    simp [prepare, hnm, hnot, hcol, hw, hm, hok, Except.map]

/-! ## The footer -/

/-- The rows of each row group, as the crates count them: those of its first column. -/
def Written.rows (w : Written) : List Nat :=
  w.groups.map fun g => (g.head?.map (·.content.length)).getD 0

/-- What the crates read of the footer: the fields that the file advertises and its row counts.
Under another schema it is the same footer with the fields of that schema, when they take it. -/
structure FooterOf (w : Written) (f : OpenFile) : Prop where
  parsed : ∃ base, f.parsed = .ok base ∧ base.fields = w.columns.map (·.mf) ∧
    base.row_groups.map (·.num_rows) = w.rows.map Int64.ofNat ∧ base.num_rows = Int64.ofNat w.rows.sum
  tryNew : ∀ base fields md, f.parsed = .ok base → f.tryNew fields = some md →
    md = { base with fields }

theorem wrappingSum_ofNat (ns : List Nat) : wrappingSum (ns.map Int64.ofNat) = Int64.ofNat ns.sum := by
  have hfold : ∀ (a : Nat), (ns.map Int64.ofNat).foldl (· + ·) (Int64.ofNat a) =
      Int64.ofNat (a + ns.sum) := by
    induction ns with
    | nil => simp
    | cons n ns ih =>
      intro a
      rw [List.map_cons, List.foldl_cons, ← Int64.ofNat_add, ih, List.sum_cons, Nat.add_assoc]
  have h := hfold 0
  rw [Nat.zero_add] at h
  exact h

/-- The hint spells the symbols as dictionaries, and leaves the other fields. -/
theorem hint_field {x : Sym × LVec} {f : Field} (h : FieldOf x f) : FieldOf x
    (if f.data_type = .utf8 ∨ f.data_type = .largeUtf8 ∨ f.data_type = .utf8View then
      { f with data_type := .dictionary .int32 .utf8 } else f) := by
  obtain ⟨hname, sym_dict, hdt⟩ := h
  split
  · rename_i hstr
    refine ⟨hname, true, ?_⟩
    obtain ⟨name, v⟩ := x
    cases v <;> cases sym_dict <;> simp [LVec.lt, arrowType] at hdt ⊢ <;> simp [← hdt] at hstr
  · exact ⟨hname, sym_dict, hdt⟩

theorem hinted_fields {xs : List (Sym × LVec)} {f : OpenFile} {base : Md}
    (hnew : ∀ fields md, f.tryNew fields = some md → md = { base with fields })
    (h : List.Forall₂ FieldOf xs base.fields) :
    List.Forall₂ FieldOf xs (hinted f base).fields ∧ (hinted f base).row_groups = base.row_groups ∧
      (hinted f base).num_rows = base.num_rows := by
  unfold hinted
  split
  · rename_i fields hfields
    rcases hmd : f.tryNew fields with _ | md
    · exact ⟨h, rfl, rfl⟩
    · rw [hnew fields md hmd]
      refine ⟨?_, rfl, rfl⟩
      unfold dictHint at hfields
      dsimp only at hfields
      split at hfields
      · cases hfields
        rw [Option.getD_some, List.forall₂_map_right_iff]
        exact h.imp fun x y hxy => hint_field hxy
      · cases hfields
  · exact ⟨h, rfl, rfl⟩

/-- The file of a table loads, with a row count for each row group. -/
theorem load_written {w : Written} {f : OpenFile} (hf : FooterOf w f) {xs : List (Sym × LVec)}
    (hxs : List.Forall₂ FieldOf xs (w.columns.map (·.mf))) {cache : List Entry}
    (hcache : ∀ e ∈ cache, e.key ≠ f.key) (orig path who : String) :
    ∃ s, (load cache orig path (.ok f) who).1 = .ok s ∧ Loaded s ∧
      s.rg_rows = w.rows.map Int64.ofNat ∧ List.Forall₂ FieldOf xs s.md.fields := by
  obtain ⟨base, hparsed, hfields, hcounts, htotal⟩ := hf.parsed
  obtain ⟨hhint, hgroups, hnum⟩ := hinted_fields (fun fields md => hf.tryNew base fields md hparsed)
    (hfields.symm ▸ hxs)
  have hmiss : lookup cache f.key = none := by
    rw [lookup_eq, lib.recency.touch_eq_none]
    exact hcache
  have hrows : (hinted f base).row_groups.map (·.num_rows) = w.rows.map Int64.ofNat := by
    rw [hgroups, hcounts]
  have hsum : (hinted f base).num_rows = wrappingSum ((hinted f base).row_groups.map (·.num_rows)) := by
    rw [hnum, htotal, hrows, wrappingSum_ofNat]
  refine ⟨mk orig path (hinted f base) ((hinted f base).row_groups.map RowGroup.num_rows), ?_,
    ⟨rfl, rfl, hsum⟩, hrows, hhint⟩
  simp [load, hmiss, footer.parse, hparsed, hsum]

/-! ## The reader's view of the columns -/

section
variable {T : LTable} {s : Src}

theorem lTypeOf_readAs (v : LVec) {dt : DataType} (h : ReadAs v.lt dt) : lTypeOf dt = .ok v.lt := by
  obtain ⟨sym_dict, h⟩ := h
  cases v <;> cases sym_dict <;> cases h <;> rfl

theorem fields_get (h : List.Forall₂ FieldOf (T.names.zip T.cols) s.md.fields) {c : Nat} {v : LVec}
    (hv : T.cols[c]? = some v) : ∃ nm f, T.names[c]? = some nm ∧ s.md.fields[c]? = some f ∧
      toStr nm = some f.name ∧ ReadAs v.lt f.data_type := by
  have hc := (List.getElem?_eq_some_iff.mp hv).1
  have hcn : c < T.names.length := T.len_eq ▸ hc
  have hlen := h.length_eq
  rw [List.length_zip, T.len_eq, Nat.min_self] at hlen
  have hcf : c < s.md.fields.length := hlen ▸ hcn
  have hget := h.get (by simp [hc, hcn]) hcf
  simp only [List.get_eq_getElem, List.getElem_zip] at hget
  refine ⟨_, _, List.getElem?_eq_getElem hcn, List.getElem?_eq_getElem hcf, hget.1, ?_⟩
  rw [List.getElem?_eq_getElem hc] at hv
  exact Option.some.inj hv ▸ hget.2

/-- The set of one file. -/
def oneSet (s : Src) : FileSet where
  srcs := [s]
  names := s.md.fields.map (·.name)
  lts := s.md.fields.map fun f =>
    (lTypeOf f.data_type).mapError fun _ => s!"nyi: column {f.name} type {f.data_type.display}"

theorem agree_one (s : Src) (who : String) : agree [s] who = .ok (oneSet s) := rfl

theorem select_written (h : List.Forall₂ FieldOf (T.names.zip T.cols) s.md.fields) (who : String) :
    ∃ sel, select (oneSet s) none who = .ok sel ∧ sel.out = List.range T.cols.length ∧
      ∀ (c : Nat) v, T.cols[c]? = some v → sel.lt c = v.lt := by
  have hlen : (oneSet s).names.length = T.cols.length := by
    have hlen := h.length_eq
    rw [List.length_zip, ← T.len_eq, Nat.min_self] at hlen
    simp [oneSet, hlen]
  have hlts : ∀ (c : Nat) v, T.cols[c]? = some v → (oneSet s).lts[c]? = some (.ok v.lt) := by
    intro c v hv
    obtain ⟨_, f, _, hf, _, hdt⟩ := fields_get h hv
    simp [oneSet, hf, lTypeOf_readAs v hdt, Except.mapError]
  obtain ⟨lts, hok⟩ : ∃ lts, ltsOf (oneSet s) (List.range T.cols.length) = .ok lts := by
    apply ltsOf_readable
    intro c hc
    rw [List.mem_range] at hc
    exact ⟨_, hlts c _ (List.getElem?_eq_getElem hc)⟩
  have huniq := sortedUniq_length (List.nodup_range (n := T.cols.length))
  refine ⟨⟨List.range T.cols.length, lts, sortedUniq (List.range T.cols.length),
    (List.range T.cols.length).map fun c => rawDecision c [s] true none⟩, ?_, rfl, ?_⟩
  · unfold select wanted
    rw [hlen]
    simp only [hok]
    rw [if_neg (not_not_intro huniq)]
    rfl
  · intro c v hv
    have hc := (List.getElem?_eq_some_iff.mp hv).1
    have hget := (ltsOf_get hok).2 c (by simpa using hc)
    have hout : (List.range T.cols.length).getD c 0 = c := by simp [hc]
    rw [hout, hlts c v hv] at hget
    exact (Except.ok.inj (Option.some.inj hget)).symm

end

/-! ## The rows of the row groups -/

theorem le_divCeil_mul {n d : Nat} (hd : 0 < d) : n ≤ write_queue.divCeil n d * d := by
  unfold write_queue.divCeil
  have hn := Nat.div_add_mod n d
  have hlt := Nat.mod_lt n hd
  rw [Nat.mul_comm] at hn
  split
  · omega
  · rw [Nat.succ_mul]
    omega

/-- A table that `write_table` takes and that one vector can hold. -/
structure LTable.Writable (T : LTable) : Prop where
  utf8 : ∀ p ∈ T.names, (utf8Of p.bytes).isSome = true
  distinct : T.names.Nodup
  even : ∀ v ∈ T.cols, v.len = T.nrows
  short : T.nrows ≤ I32_MAX

section
variable {T : LTable} {rg : Nat}

/-- The row groups are the column, one slice after the other. -/
theorem groups_slices (hT : T.Writable) (hrg : 0 < rg) {v : LVec} (hv : v ∈ T.cols) :
    ((List.range (write_queue.divCeil T.nrows rg)).flatMap fun g =>
      slice v.cells (g * rg) (g * rg + (min ((g + 1) * rg) T.nrows - g * rg))) = v.cells := by
  have hcuts := flatMap_slices v.cells (b := fun j => min (j * rg) T.nrows) (fun j => by
    have : (j + 1) * rg = j * rg + rg := Nat.succ_mul j rg
    omega) (write_queue.divCeil T.nrows rg)
  have hend := le_divCeil_mul (n := T.nrows) hrg
  have hlen : v.cells.length = T.nrows := hT.even v hv
  rw [Nat.zero_mul, Nat.zero_min, Nat.min_eq_right hend] at hcuts
  have hwhole : slice v.cells 0 T.nrows = v.cells := by simp [slice, ← hlen]
  rw [hwhole] at hcuts
  rw [← hcuts]
  apply List.flatMap_congr
  intro g hg
  have hlt := write_queue.divCeil_mul_lt hrg (List.mem_range.mp hg)
  have hsucc : (g + 1) * rg = g * rg + rg := Nat.succ_mul g rg
  congr 1 <;> omega

theorem array_back (hT : T.Writable) {c : Nat} {v : LVec} (hv : T.cols[c]? = some v) (g : Nat)
    {dt : DataType} (hdt : ReadAs v.lt dt) : (T.array rg g c).content.map (cell v.lt dt) =
      (slice v.cells (g * rg) (g * rg + (min ((g + 1) * rg) T.nrows - g * rg))).map (back v.lt) := by
  have hshort := hT.short
  have hmem := List.mem_of_getElem? hv
  rw [LTable.array, hv, Option.getD_some]
  apply handed_back v (T.cells_end v hmem) _ _ _ hdt
  unfold I32_MAX at hshort
  omega

/-- The rows of a row group, by its first column, add up to the rows of the table. -/
theorem rows_sum (hT : T.Writable) (hrg : 0 < rg) {w : Written}
    (hw : w.groups = (List.range (write_queue.divCeil T.nrows rg)).map fun g =>
      (List.range T.names.length).map fun c => T.array rg g c) : w.rows.sum ≤ T.nrows := by
  rcases hcols : T.cols with _ | ⟨v, vs⟩
  · have hrows : T.nrows = 0 := by simp [LTable.nrows, hcols]
    simp [Written.rows, hw, hrows, write_queue.divCeil]
  · have hv : T.cols[0]? = some v := by simp [hcols]
    have hpos : 0 < T.names.length := by
      rw [← T.len_eq, hcols]
      simp
    obtain ⟨dt, hdt⟩ := arrowType_ok v true
    have hlen : ∀ g, (T.array rg g 0).content.length =
        (slice v.cells (g * rg) (g * rg + (min ((g + 1) * rg) T.nrows - g * rg))).length := by
      intro g
      have h := congrArg List.length (@array_back T rg hT 0 v hv g dt ⟨true, hdt⟩)
      simpa using h
    have hall := congrArg List.length (groups_slices hT hrg (List.mem_of_getElem? hv))
    rw [List.length_flatMap] at hall
    have hnrows : v.cells.length = T.nrows := hT.even v (List.mem_of_getElem? hv)
    rw [← hnrows, ← hall, Written.rows, hw, List.map_map]
    apply Nat.le_of_eq
    congr 1
    apply List.map_congr_left
    intro g _
    simp [List.head?_range, Nat.ne_of_gt hpos, hlen]

/-! ## The law of the round trip -/

/-- The table that comes back. -/
def LTable.back (T : LTable) : Table where
  names := T.names
  columns := T.cols.map fun v => .vec v.lt (v.cells.map (write.back v.lt))
  flipped := true

/-- The crates return the values and the validity that they were handed. -/
def Returns (w : Written) (s : Src) (content : Content) : Prop :=
  ∀ (g : Nat) group (c : Nat) a, w.groups[g]? = some group → group[c]? = some a →
    content s g c = a.content

theorem counted_ofNat {ns : List Nat} (h : ns.sum ≤ I32_MAX) :
    countedRows ((ns.map Int64.ofNat).map Int64.toInt) = ns.sum := by
  unfold countedRows
  congr 1
  rw [List.map_map, List.map_map]
  conv_rhs => rw [← List.map_id ns]
  apply List.map_congr_left
  intro n hn
  have hle := List.single_le_sum (fun _ _ => Nat.zero_le _) n hn
  unfold I32_MAX at h
  simp only [Function.comp_apply, id_eq]
  rw [Int64.toInt_ofNat_of_lt (by omega)]
  rfl

/-- A column of the file, read from its row groups, is the column that comes back. -/
theorem cells_back (hT : T.Writable) (hrg : 0 < rg) {w : Written}
    (hw : w.groups = (List.range (write_queue.divCeil T.nrows rg)).map fun g =>
      (List.range T.names.length).map fun c => T.array rg g c) {s : Src}
    (hs : List.Forall₂ FieldOf (T.names.zip T.cols) s.md.fields)
    (hrows : s.rg_rows = w.rows.map Int64.ofNat) {content : Content} (hret : Returns w s content)
    {c : Nat} {v : LVec} (hv : T.cols[c]? = some v) :
    windowCells content [s] v.lt c 0 (oneSet s).nRg = v.cells.map (write.back v.lt) := by
  obtain ⟨_, f, _, hf, _, hdt⟩ := fields_get hs hv
  have htype : typeAt s c = f.data_type := by simp [typeAt, hf]
  have hn : s.rg_rows.length = write_queue.divCeil T.nrows rg := by simp [hrows, Written.rows, hw]
  have hc : c < T.names.length := T.len_eq ▸ (List.getElem?_eq_some_iff.mp hv).1
  have hwhole := windowCells_whole content [s] v.lt c
  rw [List.flatMap_singleton, hn] at hwhole
  refine hwhole.trans ?_
  have hslices := groups_slices hT hrg (List.mem_of_getElem? hv)
  conv_rhs => rw [← hslices, List.map_flatMap]
  apply List.flatMap_congr
  intro g hg
  have hcontent : content s g c = (T.array rg g c).content := by
    apply hret g ((List.range T.names.length).map fun c => T.array rg g c) c
    · rw [hw]
      simp [List.mem_range.mp hg]
    · simp [hc]
  rw [hcontent, htype]
  exact array_back hT hv g hdt

end

/-- Symbols with the same string are the same. -/
theorem toStr_inj {p q : Sym} (hp : 0 ∉ p.bytes) (hq : 0 ∉ q.bytes) (hsome : (utf8Of p.bytes).isSome = true)
    (h : toStr p = toStr q) : p = q := by
  rw [toStr_eq hp, toStr_eq hq] at h
  obtain ⟨str, hstr⟩ := Option.isSome_iff_exists.mp hsome
  have hpb := utf8Bytes_utf8Of hstr
  have hqb := utf8Bytes_utf8Of (h ▸ hstr)
  obtain ⟨pb⟩ := p
  obtain ⟨qb⟩ := q
  have hbytes : pb = qb := hpb.symm.trans hqb
  rw [hbytes]

/-- The table of a read is the table that comes back, when its columns are. -/
theorem table_back {T : LTable} {s : Src} (hs : List.Forall₂ FieldOf (T.names.zip T.cols) s.md.fields)
    {sel : Sel} (hout : sel.out = List.range T.cols.length)
    (hlts : ∀ (c : Nat) v, T.cols[c]? = some v → sel.lt c = v.lt) {content : Content}
    (hcells : ∀ (c : Nat) v, T.cols[c]? = some v →
      windowCells content [s] v.lt c 0 (oneSet s).nRg = v.cells.map (write.back v.lt)) :
    windowTable content (oneSet s) sel 0 (oneSet s).nRg = T.back := by
  have hcol : ∀ p < T.cols.length, sel.col p = p := by
    intro p hp
    simp [Sel.col, hout, hp]
  have hnames : (List.range T.cols.length).map (fun p =>
      intern (utf8Bytes ((oneSet s).names.getD (sel.col p) ""))) = T.names := by
    apply List.ext_getElem
    · simp [T.len_eq]
    · intro p hp hpn
      have hpc : p < T.cols.length := by simpa using hp
      obtain ⟨nm, f, hnm, hf, hstr, _⟩ := fields_get hs (List.getElem?_eq_getElem hpc)
      rw [List.getElem?_eq_getElem hpn] at hnm
      cases hnm
      rw [toStr_eq (T.names_end _ (List.getElem_mem hpn))] at hstr
      have hname : (oneSet s).names.getD p "" = f.name := by simp [oneSet, hf]
      rw [List.getElem_map, List.getElem_range, hcol p hpc, hname, utf8Bytes_utf8Of hstr]
      rfl
  have hcolumns : (List.range T.cols.length).map (fun p => Column.vec (sel.lt p)
      (windowCells content [s] (sel.lt p) (sel.col p) 0 (oneSet s).nRg)) =
        T.cols.map fun v => .vec v.lt (v.cells.map (write.back v.lt)) := by
    apply List.ext_getElem
    · simp
    · intro p hp hpc
      rw [List.length_map] at hpc
      have hv := List.getElem?_eq_getElem hpc
      rw [List.getElem_map, List.getElem_range, List.getElem_map, hcol p hpc, hlts p _ hv,
        hcells p _ hv]
  unfold windowTable LTable.back
  dsimp only
  rw [hout, List.length_range, hnames]
  exact congrArg (Table.mk T.names · true) hcolumns

/-- Whatever the order in which the workers of the write and of the read take their tasks, and
whatever the options, the table comes back. -/
theorem a_written_table_reads_back {T : LTable} (hT : T.Writable) (o : Opts)
    {file : List (List write_queue.Chunk)} (hfile : Queued T o file) :
    ∃ w, writeTable T o file = .ok w ∧ ∀ {f : OpenFile}, FooterOf w f →
      ∀ {cache : List Entry}, (∀ e ∈ cache, e.key ≠ f.key) → ∀ orig path who : String,
      ∃ s sel, (load cache orig path (.ok f) who).1 = .ok s ∧ agree [s] who = .ok (oneSet s) ∧
        select (oneSet s) none who = .ok sel ∧
        ∀ {W : World} {content : Content}, Whole W [s] content → Returns w s content →
          read.Answers W (oneSet s) sel 0 (oneSet s).nRg who T.back := by
  have hnames : ∀ x ∈ T.names.zip T.cols, ∃ nm, toStr x.1 = some nm ∧ nm ∉ ([] : List String) := by
    intro x hx
    have hmem := (List.of_mem_zip hx).1
    obtain ⟨nm, hnm⟩ := Option.isSome_iff_exists.mp (hT.utf8 _ hmem)
    exact ⟨nm, (toStr_eq (T.names_end _ hmem)).trans hnm, by simp⟩
  have hnodup : ((T.names.zip T.cols).map fun x => toStr x.1).Nodup := by
    have hfst : (T.names.zip T.cols).map Prod.fst = T.names :=
      List.map_fst_zip (Nat.le_of_eq T.len_eq.symm)
    have hmap : (T.names.zip T.cols).map (fun x => toStr x.1) = T.names.map toStr := by
      conv_rhs => rw [← hfst, List.map_map]
      rfl
    rw [hmap, List.nodup_map_iff_inj_on hT.distinct]
    intro p hp q hq heq
    exact toStr_inj (T.names_end p hp) (T.names_end q hq) (hT.utf8 p hp) heq
  obtain ⟨columns, hok, hfields⟩ := @prepare_ok o T.nrows [] _ hnames hnodup fun x hx =>
    hT.even _ (List.of_mem_zip hx).2
  refine ⟨⟨o, columns, file.map fun g => g.map T.encode⟩, ?_, ?_⟩
  · simp [writeTable, hok, Except.map]
  intro f hf cache hcache orig path who
  obtain ⟨s, hload, hloaded, hrows, hs⟩ := load_written hf hfields hcache orig path who
  obtain ⟨sel, hsel, hout, hlts⟩ := select_written hs who
  refine ⟨s, sel, hload, agree_one s who, hsel, ?_⟩
  intro W content hW hret
  have hgroups := queued_groups hfile
  have hsum := rows_sum hT o.rg_pos (w := ⟨o, columns, file.map fun g => g.map T.encode⟩) hgroups
  have hshort : countedRows (windowCounts [s] 0 (oneSet s).nRg) ≤ I32_MAX := by
    have hall := windowCounts_all [s]
    rw [List.flatMap_singleton, hrows] at hall
    have hle := Nat.le_trans hsum hT.short
    refine Nat.le_trans (Nat.le_of_eq ?_) hle
    exact (congrArg countedRows hall).trans (counted_ofNat hle)
  have hloads : ∀ s' ∈ (oneSet s).srcs, Loaded s' := by
    intro s' hs'
    cases List.mem_singleton.mp hs'
    exact hloaded
  have hread := read_plain (select_selected (agree_one s who) hsel) hloads hW hshort who
  have htable : windowTable content (oneSet s) sel 0 (oneSet s).nRg = T.back := by
    have hcells : ∀ (c : Nat) v, T.cols[c]? = some v →
        windowCells content [s] v.lt c 0 (oneSet s).nRg = v.cells.map (write.back v.lt) :=
      fun c v hv => cells_back hT o.rg_pos hgroups hs hrows hret hv
    exact table_back hs hout hlts hcells
  exact htable ▸ hread

/-- A timestamp, a null, and a timestamp past the ceiling. -/
def threeStamps : LTable where
  names := [intern [116]]
  cols := [.KP [1, NJ, Int64.maxValue]]
  len_eq := rfl
  names_end := by decide
  cells_end v hv p hp := by
    cases List.mem_singleton.mp hv
    simp [LVec.cells] at hp

/-- Two rows to a row group. -/
def byTwo : Opts := ⟨.SNAPPY, 2, true, true, Nat.zero_lt_two⟩

/-- The row groups that one worker leaves, by which the rows of the file are known. -/
def stampGroups : List (List write_queue.Chunk) := [[⟨0, 0, 0, 2⟩], [⟨1, 0, 2, 1⟩]]

def stampRows (_ : Src) (g : Nat) : List (Option Int64) :=
  ([[some (1 + NS2000), none], [none]][g]?).getD []

theorem three_stamps_read_back : ∃ w, writeTable threeStamps byTwo stampGroups = .ok w ∧
    ∃ set sel, Answers (stampWorld stampRows) set sel 0 2 "pq_read"
      ⟨[intern [116]], [.vec .KP [.j 1, .j NJ, .j NJ]], true⟩ := by
  have hwritable : threeStamps.Writable := ⟨by decide, by decide, by decide, by decide⟩
  obtain ⟨q, hq, hfile, hclosing⟩ : ∃ q, lib.runs.exec (write_queue.queue write_queue.smallPlan)
      (write_queue.start write_queue.smallPlan) write_queue.smallRun = some q ∧
      q.file = stampGroups ∧ q.m = .closing := ⟨_, rfl, rfl, rfl⟩
  have hqueued : Queued threeStamps byTwo q.file :=
    .run (p := write_queue.smallPlan) rfl rfl rfl (Reachable.exec (.start rfl) _ hq) hclosing
  rw [hfile] at hqueued
  obtain ⟨w, hw, hread⟩ := a_written_table_reads_back hwritable byTwo hqueued
  refine ⟨w, hw, ?_⟩
  have hfield : w.columns.map (·.mf) = [⟨"t", .timestamp .nanosecond none⟩] := by
    cases hw
    rfl
  have hgroups : w.groups = [[threeStamps.array 2 0 0], [threeStamps.array 2 1 0]] := by
    cases hw
    rfl
  have hfooter : FooterOf w ⟨⟨"t", 0, 0, 0, (0, 0)⟩, .ok (stampFile "t" .nanosecond [2, 1]).md, fun _ => none⟩ := by
    refine ⟨⟨_, rfl, hfield.symm, ?_, ?_⟩, ?_⟩
    · rw [Written.rows, hgroups]
      rfl
    · rw [Written.rows, hgroups]
      rfl
    · intro base fields md _ hmd
      cases hmd
  obtain ⟨s, sel, hload, _, _, hans⟩ := @hread _ hfooter [] (fun e he => absurd he List.not_mem_nil)
    "t" "t" "pq_read"
  cases hload
  have hwhole : Whole (stampWorld stampRows) [stampFile "t" .nanosecond [2, 1]]
      fun s g _ => (stampRows s g).map (·.map Val.i64) := by
    apply stampWorld_whole
    intro s hs
    refine ⟨"t", .nanosecond, [2, 1], List.mem_singleton.mp hs, fun g n hn => ?_⟩
    rcases g with _ | _ | g
    · cases hn
      rfl
    · cases hn
      rfl
    · cases hn
  refine ⟨_, sel, hans hwhole ?_⟩
  intro g group c a hg hc
  rw [hgroups] at hg
  rcases g with _ | _ | g
  · cases hg
    cases c <;> cases hc
    rfl
  · cases hg
    cases c <;> cases hc
    rfl
  · cases hg

end parquet_interop.write
