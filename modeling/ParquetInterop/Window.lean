-- Windows and lists of files: a plain read is its row groups one after the
-- other, each by its own file's types, however the work was cut and scheduled.
import ParquetInterop.Schedule

open parquet_interop.ffi parquet_interop.footer
open lib.blocks lib.jobs lib.stores

namespace parquet_interop.read

/-! ## The row groups of a window -/

theorem mem_groupsOf {srcs : List Src} {x : Group} (h : x ∈ groupsOf srcs) :
    ∃ s, srcs[x.f]? = some s ∧ s.rg_rows[x.g]? = some x.rows := by
  unfold groupsOf at h
  simp only [List.mem_flatten, List.mem_map, Prod.exists] at h
  obtain ⟨gs, ⟨s, f, hs, rfl⟩, hx⟩ := h
  simp only [List.mem_map, Prod.exists] at hx
  obtain ⟨rows, g, hrows, rfl⟩ := hx
  exact ⟨s, List.mem_zipIdx_iff_getElem?.mp hs, List.mem_zipIdx_iff_getElem?.mp hrows⟩

theorem length_groupsOf (srcs : List Src) :
    (groupsOf srcs).length = (srcs.map (·.rg_rows.length)).sum := by
  have hcounts := congrArg List.length (allCounts_eq srcs)
  unfold allCounts at hcounts
  simpa [List.length_flatten, Function.comp_def] using hcounts

theorem slice_cons {T : Type} (x : T) (l : List T) (a b g : Nat) :
    slice (x :: l) (a - g) (b - g) =
      if a ≤ g ∧ g < b then x :: slice l (a - (g + 1)) (b - (g + 1))
      else slice l (a - (g + 1)) (b - (g + 1)) := by
  unfold slice
  split
  · rename_i h
    rw [show a - g = 0 by omega, show a - (g + 1) = 0 by omega,
      show b - g = b - (g + 1) + 1 by omega]
    rfl
  · rename_i h
    by_cases hb : g < b
    · rw [show a - g = a - (g + 1) + 1 by omega, show b - g = b - (g + 1) + 1 by omega]
      rfl
    · rw [show b - g = 0 by omega, show b - (g + 1) = 0 by omega]
      simp

/-- The counts of the window are the counts of its slice. -/
theorem windowFrom_eq (g0 g1 : Nat) (gs : List Group) (g : Nat) :
    windowFrom g0 g1 gs g = (slice gs (g0 - g) (g1 - g)).map (·.rows.toInt) := by
  induction gs generalizing g with
  | nil => simp [windowFrom, slice]
  | cons x gs ih =>
    rw [windowFrom_cons, slice_cons, ih (g + 1)]
    split <;> rfl

theorem layoutFrom_mem (g0 g1 : Nat) {gs : List Group} (g total : Nat) {r : Rg}
    (h : r ∈ (layoutFrom g0 g1 gs g total).1) :
    ∃ x ∈ gs, r.f = x.f ∧ r.g = x.g ∧ r.rows = asUsize x.rows := by
  induction gs generalizing g total with
  | nil => cases h
  | cons x gs ih =>
    unfold layoutFrom at h
    dsimp only at h
    split at h
    · rcases List.mem_cons.mp h with rfl | h
      · exact ⟨x, List.mem_cons_self, rfl, rfl, rfl⟩
      · obtain ⟨y, hy, hr⟩ := ih _ _ h
        exact ⟨y, List.mem_cons_of_mem x hy, hr⟩
    · obtain ⟨y, hy, hr⟩ := ih _ _ h
      exact ⟨y, List.mem_cons_of_mem x hy, hr⟩

/-- What the layout leaves out of the window has no rows. -/
theorem layoutFrom_flatMap {T : Type} (F : Nat → Nat → List T) (g0 g1 : Nat) {gs : List Group}
    (g total : Nat) (hF : ∀ x ∈ gs, asUsize x.rows = 0 → F x.f x.g = []) :
    ((layoutFrom g0 g1 gs g total).1.flatMap fun r => F r.f r.g) =
      (slice gs (g0 - g) (g1 - g)).flatMap fun x => F x.f x.g := by
  induction gs generalizing g total with
  | nil => simp [layoutFrom, slice]
  | cons x gs ih =>
    have hrest := fun total => ih (g + 1) total fun y hy => hF y (List.mem_cons_of_mem x hy)
    rw [slice_cons]
    unfold layoutFrom
    dsimp only
    split
    · rename_i h
      rw [if_pos ⟨h.1, h.2.1⟩, List.flatMap_cons, List.flatMap_cons, hrest]
    · rename_i h
      rw [hrest]
      split
      · have hzero : F x.f x.g = [] := by
          apply hF x List.mem_cons_self
          unfold asUsize
          omega
        rw [List.flatMap_cons, hzero, List.nil_append]
      · rfl

/-- A window of at most `I32_MAX` rows passes the guard, and it is laid out. -/
theorem window_laid_out {set : FileSet} {g0 g1 : Nat}
    (hrows : countedRows (windowCounts set.srcs g0 g1) ≤ I32_MAX) (who : String) :
    window set.srcs g0 g1 who = .ok (layout set.srcs g0 g1) ∧
      Chain 0 ((layout set.srcs g0 g1).1.map Rg.block) (layout set.srcs g0 g1).2 ∧
      LaidOut set (layout set.srcs g0 g1).1 := by
  have hcounts : windowCounts set.srcs g0 g1 = windowFrom g0 g1 (groupsOf set.srcs) 0 := rfl
  unfold I32_MAX at hrows
  rw [hcounts] at hrows
  have hfits : 0 + countedRows (windowFrom g0 g1 (groupsOf set.srcs) 0) < 2 ^ 64 := by omega
  obtain ⟨hchain, htotal⟩ := layoutFrom_chain g0 g1 0 0 hfits
  refine ⟨?_, hchain, ?_, fun r hr => ?_⟩
  · have hle : ¬I32_MAX < (layout set.srcs g0 g1).2 := by
      show ¬I32_MAX < (layoutFrom g0 g1 (groupsOf set.srcs) 0 0).2
      unfold I32_MAX
      omega
    unfold window
    dsimp only
    rw [if_neg hle]
  · have hpair := chain_pairwise hchain
    rw [List.pairwise_map] at hpair
    exact hpair
  · obtain ⟨x, hx, hf, hg, hrows⟩ := layoutFrom_mem g0 g1 0 0 hr
    obtain ⟨s, hs, hn⟩ := mem_groupsOf hx
    exact ⟨s, x.rows, hf ▸ hs, hg ▸ hn, hrows⟩

/-! ## The rows of a window -/

/-- The elements of column `c` of one row group, by the type that its own file gives the column. -/
def groupCells (content : Content) (srcs : List Src) (lt : LType) (c f g : Nat) : List Cell :=
  ((srcs[f]?).map fun s => (content s g c).map (cell lt (typeAt s c))).getD []

/-- Column `c` of row groups `[g0, g1)`: files in argument order, row groups in file order. -/
def windowCells (content : Content) (srcs : List Src) (lt : LType) (c g0 g1 : Nat) : List Cell :=
  (slice (groupsOf srcs) g0 g1).flatMap fun x => groupCells content srcs lt c x.f x.g

/-- The table of a window. -/
def windowTable (content : Content) (set : FileSet) (sel : Sel) (g0 g1 : Nat) : Table :=
  let positions := List.range sel.out.length
  { names := positions.map fun p => intern (utf8Bytes (set.names.getD (sel.col p) ""))
    columns := positions.map fun p =>
      .vec (sel.lt p) (windowCells content set.srcs (sel.lt p) (sel.col p) g0 g1)
    flipped := true }

/-- The first `total` places of a vector are the rows of the window, when the places of each row
group are its rows. -/
theorem window_map {T : Type} {set : FileSet} {content : Content} {W : World}
    (hW : Faithful W set.srcs content) {g0 g1 : Nat}
    (hrows : countedRows (windowCounts set.srcs g0 g1) ≤ I32_MAX) {c : Nat} {f : Nat → T}
    {el : Src → Option Val → T}
    (hf : ∀ r ∈ (layout set.srcs g0 g1).1, ∀ s, set.srcs[r.f]? = some s → ∀ (j : Nat) x,
      (content s r.g c)[j]? = some x → f (r.off + j) = el s x) :
    (List.range (layout set.srcs g0 g1).2).map f =
      (slice (groupsOf set.srcs) g0 g1).flatMap fun x =>
        ((set.srcs[x.f]?).map fun s => (content s x.g c).map (el s)).getD [] := by
  obtain ⟨_, hchain, hlaid⟩ := window_laid_out hrows ""
  have hmap := @chain_map T Rg f Rg.block
    (fun r => ((set.srcs[r.f]?).map fun s => (content s r.g c).map (el s)).getD []) _ _ _ hchain
    (fun r hr => ?_) fun r hr j y hy => ?_
  · rw [Nat.sub_zero, ← List.range_eq_range'] at hmap
    rw [hmap]
    refine layoutFrom_flatMap
      (fun f g => ((set.srcs[f]?).map fun s => (content s g c).map (el s)).getD []) g0 g1 0 0 ?_
    intro x hx hzero
    obtain ⟨s, hs, hn⟩ := mem_groupsOf hx
    have hlen := hW.rows s (List.mem_of_getElem? hs) x.g x.rows hn c
    rw [hzero] at hlen
    rw [hs, Option.map_some, Option.getD_some, List.eq_nil_of_length_eq_zero hlen]
    rfl
  · obtain ⟨s, n, hs, hn, hrn⟩ := hlaid.inSet r hr
    rw [hs, Option.map_some, Option.getD_some, List.length_map,
      hW.rows s (List.mem_of_getElem? hs) r.g n hn c]
    exact hrn.symm
  · obtain ⟨s, n, hs, hn, hrn⟩ := hlaid.inSet r hr
    rw [hs, Option.map_some, Option.getD_some, List.getElem?_map, Option.map_eq_some_iff] at hy
    obtain ⟨x, hx, rfl⟩ := hy
    exact hf r hr s hs j x hx

/-! ## A plain read -/

/-- The ground of a read without pairs. -/
def Ground.plain (W : World) (sel : Sel) (cols : Nat → Nat) : Ground where
  W := W
  sel := sel
  cols := cols
  cds _ := none
  owner _ := 0

theorem plain_fits {W : World} {set : FileSet} {sel : Sel} {cols : Nat → Nat} {content : Content}
    {Q : Nat → Prop} (hsel : Selected set sel) (hloaded : ∀ s ∈ set.srcs, Loaded s)
    (hW : Faithful W set.srcs content)
    (hraw : ∀ q rt, Q q → sel.rawAt q = some rt → RawHolds W set.srcs content (sel.col q))
    (hcols : ∀ p < sel.out.length, ∀ q < sel.out.length, cols p = cols q → p = q) :
    (Ground.plain W sel cols).Fits set content Q where
  lawful := hW.lawful
  inj _ _ h := absurd rfl h
  closed _ _ h := nomatch h
  empty _ _ h := nomatch h
  sym _ h := absurd rfl h
  selected := hsel
  loaded := hloaded
  faithful := hW
  owned _ h := absurd rfl h
  inside _ h := absurd rfl h
  raw := hraw
  handles := hcols

/-- A plain column whose row groups have all landed is the column of the window. -/
theorem plain_cells {G : Ground} {set : FileSet} {content : Content} {Q : Nat → Prop}
    (hG : G.Fits set content Q) {g0 g1 : Nat}
    (hrows : countedRows (windowCounts set.srcs g0 g1) ≤ I32_MAX) {q : Nat} (hcd : G.cds q = none)
    {m : Shared} (hland : ∀ r ∈ (layout set.srcs g0 g1).1,
      G.Landed set content ⟨r.f, r.g, r.off, r.rows, 0⟩ q m) :
    cells m.mem (G.cols q) (layout set.srcs g0 g1).2 =
      windowCells content set.srcs (G.sel.lt q) (G.sel.col q) g0 g1 := by
  unfold cells windowCells groupCells
  apply window_map hG.faithful hrows
  intro r hr s hs j x hx
  rcases hland r hr with ⟨hne, _⟩ | hl
  · exact absurd hcd hne
  · have hrow := hl s hs j x hx
    unfold Ground.RowIs at hrow
    rw [hcd] at hrow
    exact hrow

/-- Files whose row groups the crates deliver whole. -/
structure Whole (W : World) (srcs : List Src) (content : Content) : Prop
    extends Faithful W srcs content, Delivering W srcs where
  raw : ∀ c, RawHolds W srcs content c

/-- A plain read answers `t`, whatever the number of threads, what is in the vectors before, and
the order in which the workers take the tasks and go on with them. -/
structure Answers (W : World) (set : FileSet) (sel : Sel) (g0 g1 : Nat) (who : String) (t : Table) :
    Prop where
  ends : ∀ nthreads plan, planOf W nthreads set sel g0 g1 false who = .ok plan →
    WellFounded fun s' s : St Shared Act SymCache String => ∃ w,
      step (decodeJobs W set sel plan.parts id (tasksOf plan.rgs plan.parts.length)
        (fun p => (plan.cds[p]?).join) who) s w = some s'
  returns : ∀ nthreads k m, ∃ r, Reads W nthreads k set sel g0 g1 false who m r
  answer : ∀ nthreads k m r, 0 < k → Reads W nthreads k set sel g0 g1 false who m r → r = .ok t

/-- A pair that is not given up is not read again. -/
theorem rereads_kept {W : World} {set : FileSet} {sel : Sel} {rgs : List Rg} {gives : Nat → Bool}
    {who : String} {k : Nat} {ps : List Nat} {c : Cols}
    (h : ∀ p ∈ ps, ¬((c.cds p).isSome ∧ gives p)) : Rereads W set sel rgs gives who k ps c (.ok c) := by
  induction ps with
  | nil => exact .nil
  | cons p ps ih =>
    exact .keep (h p List.mem_cons_self) (ih fun q hq => h q (List.mem_cons_of_mem p hq))

/-- Nothing is read again when no column is a pair. -/
theorem rereads_plain {W : World} {set : FileSet} {sel : Sel} {rgs : List Rg} {gives : Nat → Bool}
    {who : String} {k : Nat} {ps : List Nat} {c : Cols} (hc : ∀ p, c.cds p = none)
    {r : Except String Cols} : Rereads W set sel rgs gives who k ps c r ↔ r = .ok c := by
  have hno : ∀ p, ¬((c.cds p).isSome ∧ gives p) := fun p h => by simp [hc p] at h
  constructor
  · intro h
    induction h with
    | nil => rfl
    | keep _ _ ih => exact ih hc hno
    | failed hp _ => exact absurd hp (hno _)
    | again hp _ _ _ => exact absurd hp (hno _)
  · rintro rfl
    exact rereads_kept fun p _ => hno p

theorem tableOf_plain {set : FileSet} {sel : Sel} {total : Nat} {codes : Bool} {c : Cols}
    (hc : ∀ p, c.cds p = none) : tableOf set sel total codes c =
      { names := (List.range sel.out.length).map fun p =>
          intern (utf8Bytes (set.names.getD (sel.col p) ""))
        columns := (List.range sel.out.length).map fun p =>
          .vec (sel.lt p) (cells c.mem (c.colv p) total)
        flipped := !codes } := by
  have hcol : columnOf sel total c = fun p => .vec (sel.lt p) (cells c.mem (c.colv p) total) := by
    funext p
    unfold columnOf
    rw [hc p]
  unfold tableOf
  rw [hcol]

theorem short_plain {sel : Sel} {c : Cols} (hc : ∀ p, c.cds p = none) : c.Short sel :=
  fun p _ _ hcd => by cases (hc p).symm.trans hcd

/-- A plain read of a window answers the table of the window. -/
theorem read_plain {W : World} {set : FileSet} {sel : Sel} {content : Content}
    (hsel : Selected set sel) (hloaded : ∀ s ∈ set.srcs, Loaded s) (hW : Whole W set.srcs content)
    {g0 g1 : Nat} (hrows : countedRows (windowCounts set.srcs g0 g1) ≤ I32_MAX) (who : String) :
    Answers W set sel g0 g1 who (windowTable content set sel g0 g1) := by
  have hG : (Ground.plain W sel id).Fits set content fun _ => True :=
    plain_fits hsel hloaded hW.toFaithful (fun q _ _ _ => hW.raw (sel.col q)) fun _ _ _ _ h => h
  obtain ⟨hwindow, _, hlaid⟩ := window_laid_out hrows who
  have hplan : ∀ nthreads, planOf W nthreads set sel g0 g1 false who = .ok
      ⟨(layout set.srcs g0 g1).1, (layout set.srcs g0 g1).2,
        split set sel (splitWays nthreads (layout set.srcs g0 g1).1.length sel),
        (List.range sel.out.length).map fun _ => none⟩ := by
    intro nthreads
    unfold planOf
    rw [hwindow]
    rfl
  have hcds : (fun p => (((List.range sel.out.length).map fun _ => (none : Option Codes))[p]?).join) =
      (Ground.plain W sel id).cds := by
    funext p
    rw [List.getElem?_map]
    cases (List.range sel.out.length)[p]? <;> rfl
  have hdecode := fun nthreads k m => decode_succeeds hG (Ground.runs_self _) (fun _ _ _ => trivial)
    hW.toDelivering hlaid (splitWays nthreads (layout set.srcs g0 g1).1.length sel) k who ⟨m, fun _ => false⟩
  constructor
  case ends => exact fun _ _ _ => terminates _
  case returns =>
    intro nthreads k m
    obtain ⟨m', hm'⟩ := (hdecode nthreads k m).1
    have hnone := congrFun hcds
    refine ⟨_, .answered (hplan nthreads) (hcds ▸ hm') ((rereads_plain hnone).mpr rfl) ?_⟩
    rintro c hc
    cases hc
    exact short_plain hnone
  case answer =>
    intro nthreads k m r hk h
    cases h with
    | refused he =>
      rw [hplan nthreads] at he
      cases he
    | failed hp hd =>
      rw [hplan nthreads] at hp
      cases hp
      cases (hdecode nthreads k m).2 _ _ (hcds ▸ hd)
    | answered hp hd hr _ =>
      rw [hplan nthreads] at hp
      cases hp
      have hland := decode_landed hG (Ground.runs_self _) hlaid hk (hcds ▸ hd)
      rw [rereads_plain fun p => congrFun hcds p] at hr
      subst hr
      rw [Except.map, tableOf_plain fun p => congrFun hcds p]
      unfold windowTable
      congr 2
      apply List.map_congr_left
      intro p hp
      congr 1
      exact plain_cells hG hrows rfl fun r hr => hland r hr p (List.mem_range.mp hp) trivial

/-! ## Windows and files joined -/

/-- The columns of two tables, one below the other. Only vectors are joined. -/
def Column.append : Column → Column → Column
  | .vec lt xs, .vec _ ys => .vec lt (xs ++ ys)
  | c, _ => c

/-- The rows of `u` below the rows of `t`. -/
def Table.append (t u : Table) : Table :=
  { t with columns := List.zipWith Column.append t.columns u.columns }

theorem append_vecs (names names' : List Sym) (flipped flipped' : Bool) (ps : List Nat)
    (lt : Nat → LType) (xs ys : Nat → List Cell) :
    Table.append ⟨names, ps.map fun p => .vec (lt p) (xs p), flipped⟩
        ⟨names', ps.map fun p => .vec (lt p) (ys p), flipped'⟩ =
      ⟨names, ps.map fun p => .vec (lt p) (xs p ++ ys p), flipped⟩ := by
  unfold Table.append
  simp only [List.zipWith_map, List.zipWith_self]
  rfl

/-- The cells of one file read alone. -/
def fileCells (content : Content) (s : Src) (lt : LType) (c : Nat) : List Cell :=
  windowCells content [s] lt c 0 s.rg_rows.length

theorem groupsOf_cells {content : Content} {all srcs : List Src} {lt : LType} {c k : Nat}
    (hall : ∀ i, srcs[i]? = all[k + i]?) :
    (((srcs.zipIdx k).map fun (s, f) => s.rg_rows.zipIdx.map fun (rows, g) =>
      (⟨f, g, rows⟩ : Group)).flatten.flatMap fun x => groupCells content all lt c x.f x.g) =
    srcs.flatMap fun s => (List.range s.rg_rows.length).flatMap fun g =>
      (content s g c).map (cell lt (typeAt s c)) := by
  induction srcs generalizing k with
  | nil => rfl
  | cons s srcs ih =>
    have hs : all[k]? = some s := (hall 0).symm
    have hrest : ∀ i, srcs[i]? = all[k + 1 + i]? := by
      intro i
      rw [show k + 1 + i = k + (i + 1) by omega]
      exact hall (i + 1)
    rw [List.zipIdx_cons, List.map_cons, List.flatten_cons, List.flatMap_append, List.flatMap_cons,
      ih hrest]
    congr 1
    rw [List.flatMap_map, List.range_eq_range', ← List.zipIdx_map_snd 0 s.rg_rows, List.flatMap_map]
    simp only [groupCells, hs, Option.map_some, Option.getD_some]

theorem windowCells_whole (content : Content) (srcs : List Src) (lt : LType) (c : Nat) :
    windowCells content srcs lt c 0 (srcs.map (·.rg_rows.length)).sum =
      srcs.flatMap fun s => (List.range s.rg_rows.length).flatMap fun g =>
        (content s g c).map (cell lt (typeAt s c)) := by
  unfold windowCells slice
  rw [← length_groupsOf, List.take_length, List.drop_zero]
  exact groupsOf_cells fun i => by rw [Nat.zero_add]

/-- The cells of a list of files are the cells of each file, read alone. -/
theorem windowCells_files (content : Content) (srcs : List Src) (lt : LType) (c : Nat) :
    windowCells content srcs lt c 0 (srcs.map (·.rg_rows.length)).sum =
      srcs.flatMap fun s => fileCells content s lt c := by
  have hone : ∀ s, fileCells content s lt c = (List.range s.rg_rows.length).flatMap fun g =>
      (content s g c).map (cell lt (typeAt s c)) := by
    intro s
    have h := windowCells_whole content [s] lt c
    simpa [fileCells] using h
  rw [windowCells_whole]
  simp only [hone]

/-- Tables of the same columns, joined from the first one on. -/
theorem foldl_append_vecs (names : List Sym) (flipped : Bool) (ps : List Nat) (lt : Nat → LType)
    (F : Src → Nat → List Cell) (ss : List Src) (xs : Nat → List Cell) :
    (ss.map fun s => (⟨names, ps.map fun p => .vec (lt p) (F s p), flipped⟩ : Table)).foldl Table.append
        ⟨names, ps.map fun p => .vec (lt p) (xs p), flipped⟩ =
      ⟨names, ps.map fun p => .vec (lt p) (xs p ++ ss.flatMap (F · p)), flipped⟩ := by
  induction ss generalizing xs with
  | nil => simp
  | cons s ss ih =>
    rw [List.map_cons, List.foldl_cons, append_vecs, ih]
    simp only [List.flatMap_cons, List.append_assoc]

/-! ## One file of the list -/

theorem outOf_congr {set set' : FileSet} (hnames : set'.names = set.names) (who : String)
    (ns : List String) : outOf set' who ns = outOf set who ns := by
  induction ns with
  | nil => rfl
  | cons n ns ih =>
    unfold outOf
    rw [hnames, ih]

theorem ltsOf_congr {set set' : FileSet} {out : List Nat} {lts : List LType}
    (hlts : ∀ (c : Nat) (lt : LType), set.lts[c]? = some (.ok lt) → set'.lts[c]? = some (.ok lt))
    (h : ltsOf set out = .ok lts) : ltsOf set' out = .ok lts := by
  induction out generalizing lts with
  | nil => exact h
  | cons c cs ih =>
    unfold ltsOf at h ⊢
    split at h
    · rename_i lt hc
      rcases hr : ltsOf set cs with e | rest
      · rw [hr] at h
        cases h
      · rw [hr] at h
        rw [hlts c lt hc, ih hr]
        exact h
    · cases h
    · cases h

/-- A file of a set makes a set of its own, with the same columns. Only the zero-copy decision
may be another one. -/
theorem select_alone {srcs : List Src} {who : String} {set : FileSet}
    (hset : agree srcs who = .ok set) {want : Option (List String)} {sel : Sel}
    (hsel : select set want who = .ok sel) {s : Src} (hs : s ∈ srcs) :
    ∃ set1, agree [s] who = .ok set1 ∧ set1.names = set.names ∧
      select set1 want who =
        .ok { sel with raw := sel.out.map fun c => rawDecision c [s] true none } := by
  obtain ⟨set1, hset1⟩ : ∃ set1, agree [s] who = .ok set1 := ⟨_, rfl⟩
  obtain ⟨hnames, hlts⟩ := (agree_cases hset).2 s hs
  obtain ⟨hsrcs1, hall1⟩ := agree_cases hset1
  obtain ⟨hnames1, hlts1⟩ := hall1 s (List.mem_singleton_self s)
  have hn : set1.names = set.names := hnames1.symm.trans hnames
  have hl : ∀ (c : Nat) (lt : LType), set.lts[c]? = some (.ok lt) →
      set1.lts[c]? = some (.ok lt) := by
    intro c lt hc
    have heq := congrArg (·[c]?) (hlts1.symm.trans hlts)
    simp only [List.getElem?_map, hc, Option.map_some] at heq
    rcases h1 : set1.lts[c]? with _ | r
    · rw [h1] at heq
      cases heq
    · rw [h1] at heq
      cases r with
      | error e => cases heq
      | ok lt' =>
        cases heq
        rfl
  refine ⟨set1, hset1, hn, ?_⟩
  have hwanted : wanted set1 who want = wanted set who want := by
    cases want with
    | none => rw [wanted, wanted, hn]
    | some w => exact outOf_congr hn who w
  unfold select at hsel ⊢
  rw [hwanted]
  split at hsel
  · cases hsel
  rename_i out hout
  split at hsel
  · cases hsel
  rename_i lts hlts
  rw [ltsOf_congr hl hlts]
  dsimp only at hsel ⊢
  split at hsel
  · cases hsel
  rename_i huniq
  cases hsel
  rw [if_neg huniq, hsrcs1]

theorem Whole.file {W : World} {srcs : List Src} {content : Content} (h : Whole W srcs content)
    {s : Src} (hs : s ∈ srcs) : Whole W [s] content where
  lawful := h.lawful
  rows := by simpa using h.rows s hs
  typed := by simpa using h.typed s hs
  fopen := by simpa using h.fopen s hs
  tryClone := by simpa using h.tryClone s hs
  batches := by simpa using h.batches s hs
  raw := fun c => by simpa [RawHolds] using h.raw c s hs

theorem countedRows_append (a b : List Int) :
    countedRows (a ++ b) = countedRows a + countedRows b := by
  unfold countedRows
  rw [List.map_append, List.sum_append]

theorem windowCounts_eq (srcs : List Src) (g0 g1 : Nat) :
    windowCounts srcs g0 g1 = (slice (groupsOf srcs) g0 g1).map (·.rows.toInt) :=
  windowFrom_eq g0 g1 (groupsOf srcs) 0

theorem countedRows_split (srcs : List Src) {lo mid hi : Nat} (h1 : lo ≤ mid) (h2 : mid ≤ hi) :
    countedRows (windowCounts srcs lo hi) =
      countedRows (windowCounts srcs lo mid) + countedRows (windowCounts srcs mid hi) := by
  simp only [windowCounts_eq]
  rw [← slice_append _ h1 h2, List.map_append, countedRows_append]

theorem windowCounts_all (srcs : List Src) :
    windowCounts srcs 0 (srcs.map (·.rg_rows.length)).sum =
      srcs.flatMap fun s => s.rg_rows.map Int64.toInt := by
  rw [List.flatMap_def, ← allCounts_eq, windowCounts_eq, ← length_groupsOf]
  unfold slice allCounts
  rw [List.take_length, List.drop_zero]

/-- A file has no more rows than the list that it is in. -/
theorem countedRows_file {srcs : List Src} {s : Src} (hs : s ∈ srcs) :
    countedRows (windowCounts [s] 0 s.rg_rows.length) ≤
      countedRows (windowCounts srcs 0 (srcs.map (·.rg_rows.length)).sum) := by
  have hone := windowCounts_all [s]
  simp only [List.map_cons, List.map_nil, List.sum_singleton, List.flatMap_singleton] at hone
  rw [hone, windowCounts_all]
  obtain ⟨pre, post, rfl⟩ := List.append_of_mem hs
  rw [List.flatMap_append, List.flatMap_cons, countedRows_append, countedRows_append]
  omega

/-! ## The laws -/

/-- A plain read answers its row groups one after the other, each by its own file's types. So a
window is its two halves, and a list of files is each file read alone. -/
theorem a_read_is_its_row_groups_one_after_the_other {srcs : List Src} {who : String}
    {set : FileSet} (hset : agree srcs who = .ok set) {want : Option (List String)} {sel : Sel}
    (hsel : select set want who = .ok sel) (hloaded : ∀ s ∈ srcs, Loaded s) {W : World}
    {content : Content} (hW : Whole W srcs content) {lo mid hi : Nat} (hmid : lo ≤ mid ∧ mid ≤ hi)
    (hrows : countedRows (windowCounts srcs lo hi) ≤ I32_MAX) :
    Answers W set sel lo hi who (windowTable content set sel lo hi) ∧
    (∃ t u, Answers W set sel lo mid who t ∧ Answers W set sel mid hi who u ∧
      Answers W set sel lo hi who (t.append u)) ∧
    (countedRows (windowCounts srcs 0 set.nRg) ≤ I32_MAX →
      ∃ t ts, List.Forall₂ (fun s t => ∃ set1 sel1, agree [s] who = .ok set1 ∧
          select set1 want who = .ok sel1 ∧ Answers W set1 sel1 0 set1.nRg who t) srcs (t :: ts) ∧
        Answers W set sel 0 set.nRg who (ts.foldl Table.append t)) := by
  have hsrcs := (agree_cases hset).1
  have hread : ∀ {g0 g1}, countedRows (windowCounts srcs g0 g1) ≤ I32_MAX →
      Answers W set sel g0 g1 who (windowTable content set sel g0 g1) := fun h =>
    read_plain (select_selected hset hsel) (hsrcs ▸ hloaded) (hsrcs ▸ hW) (hsrcs ▸ h) who
  refine ⟨hread hrows, ?_, fun hall => ?_⟩
  · have hsum := countedRows_split srcs hmid.1 hmid.2
    refine ⟨_, _, hread (by omega), hread (by omega), ?_⟩
    have hjoin : windowTable content set sel lo hi =
        (windowTable content set sel lo mid).append (windowTable content set sel mid hi) := by
      unfold windowTable
      rw [append_vecs]
      simp only [windowCells, ← List.flatMap_append, slice_append _ hmid.1 hmid.2]
    exact hjoin ▸ hread hrows
  · -- The table of one file has the columns of the list.
    let alone := fun s => (⟨(List.range sel.out.length).map fun p =>
      intern (utf8Bytes (set.names.getD (sel.col p) "")), (List.range sel.out.length).map fun p =>
        .vec (sel.lt p) (fileCells content s (sel.lt p) (sel.col p)), true⟩ : Table)
    have hone : ∀ s ∈ srcs, ∃ set1 sel1, agree [s] who = .ok set1 ∧
        select set1 want who = .ok sel1 ∧ Answers W set1 sel1 0 set1.nRg who (alone s) := by
      intro s hs
      obtain ⟨set1, hset1, hnames, hsel1⟩ := select_alone hset hsel hs
      have hsrcs1 := (agree_cases hset1).1
      have hn : set1.nRg = s.rg_rows.length := by simp [FileSet.nRg, hsrcs1]
      refine ⟨set1, _, hset1, hsel1, ?_⟩
      have hfile := countedRows_file hs
      have hsmall : countedRows (windowCounts set1.srcs 0 set1.nRg) ≤ I32_MAX := by
        rw [hsrcs1, hn]
        rw [FileSet.nRg, hsrcs] at hall
        exact Nat.le_trans hfile hall
      have hfile1 : Whole W set1.srcs content := hsrcs1 ▸ hW.file hs
      have hans := read_plain (select_selected hset1 hsel1) (by rw [hsrcs1]; simpa using hloaded s hs)
        hfile1 hsmall who
      have htable : windowTable content set1
          { sel with raw := sel.out.map fun c => rawDecision c [s] true none } 0 set1.nRg = alone s := by
        unfold windowTable
        rw [hnames, hsrcs1, hn]
        rfl
      exact htable ▸ hans
    obtain ⟨s0, ss, rfl⟩ : ∃ s0 ss, srcs = s0 :: ss := by
      cases srcs with
      | nil => cases hset
      | cons s0 ss => exact ⟨s0, ss, rfl⟩
    refine ⟨alone s0, ss.map alone, ?_, ?_⟩
    · rw [← List.map_cons, List.forall₂_map_right_iff, List.forall₂_same]
      exact hone
    · have hjoin : windowTable content set sel 0 set.nRg = (ss.map alone).foldl Table.append (alone s0) := by
        rw [foldl_append_vecs]
        unfold windowTable
        simp only [FileSet.nRg, hsrcs, windowCells_files, List.flatMap_cons]
      exact hjoin ▸ hread hall

/-- A file of one timestamp column. -/
def stampFile (path : String) (u : TimeUnit) (counts : List Int64) : Src :=
  mk path path
    { fields := [⟨"t", .timestamp u none⟩], leaves := [⟨0, .INT64, 1, 0⟩]
      row_groups := counts.map fun n => ⟨n, [⟨false, none⟩]⟩, num_rows := wrappingSum counts } counts

/-- The batch of some timestamp rows, once for each projected column. -/
def stampBatch (s : Src) (roots : List Nat) (xs : List (Option Int64)) : Batch where
  columns := roots.map fun c => (⟨typeAt s c, .i64 (Prim.ofContent xs)⟩ : Arr)
  num_rows := xs.length
  len_eq a ha := by
    obtain ⟨c, _, rfl⟩ := List.mem_map.mp ha
    exact List.length_map _

/-- Crates that read these rows, by both paths. -/
def stampWorld (rows : Src → Nat → List (Option Int64)) : World where
  crate := Crate.safe fun _ => .ok []
  fopen _ := .ok ()
  tryClone _ := .ok ()
  firstPage _ _ _ := .ok none
  columnReader s g _ := .ok (.i64 (RecordReader.ofRows 1 (rows s g)))
  batches s mask g := .ok [.ok (stampBatch s mask.roots (rows s g))]

theorem stampWorld_batches {rows : Src → Nat → List (Option Int64)} {s : Src} {g : Nat}
    {roots : List Nat} {bs : List Batch}
    (h : (stampWorld rows).batches s ⟨roots⟩ g = .ok (bs.map .ok)) :
    bs = [stampBatch s roots (rows s g)] := by
  have h := Except.ok.inj h
  match bs with
  | [b] => exact congrArg (fun b => [b]) (Except.ok.inj (List.cons.inj h).1).symm

theorem stampWorld_whole {rows : Src → Nat → List (Option Int64)} {srcs : List Src}
    (hsrcs : ∀ s ∈ srcs, ∃ path u counts, s = stampFile path u counts ∧
      ∀ (g : Nat) n, counts[g]? = some n → (rows s g).length = asUsize n) :
    Whole (stampWorld rows) srcs fun s g _ => (rows s g).map (·.map Val.i64) := by
  have htype : ∀ {path u counts c lt}, lTypeOf (typeAt (stampFile path u counts) c) = .ok lt → c = 0 := by
    intro path u counts c lt h
    cases c with
    | zero => rfl
    | succ c => cases h
  have hrows : ∀ s ∈ srcs, ∀ (g : Nat) n, s.rg_rows[g]? = some n → (rows s g).length = asUsize n := by
    intro s hs g n hn
    obtain ⟨path, u, counts, rfl, hlen⟩ := hsrcs s hs
    exact hlen g n hn
  refine ⟨⟨safe_lawful _, ?rows, ?typed⟩, ⟨fun _ _ => rfl, fun _ _ => rfl, ?batches⟩, ?raw⟩
  case rows =>
    intro s hs g n hn c
    rw [List.length_map, hrows s hs g n hn]
  case typed =>
    intro s hs g n roots bs hn _ hlts hbs _ i c hc
    rw [stampWorld_batches hbs]
    have hcol : (stampBatch s roots (rows s g)).columns[i]? =
        some ⟨typeAt s c, .i64 (Prim.ofContent (rows s g))⟩ := by
      simp only [stampBatch, List.getElem?_map, hc, Option.map_some]
    refine ⟨fun b hb => ⟨_, List.mem_singleton.mp hb ▸ hcol, rfl, ?_⟩, ?_⟩
    · obtain ⟨path, u, counts, rfl, _⟩ := hsrcs s hs
      obtain ⟨lt, hlt⟩ := hlts c (List.mem_of_getElem? hc)
      cases htype hlt
      trivial
    · rw [List.flatMap_singleton]
      unfold batchRows
      rw [hcol]
      exact congrArg (List.map _) (content_ofContent _)
  case batches =>
    intro s hs g n roots hn _ _
    refine ⟨[stampBatch s roots (rows s g)], rfl, ?_⟩
    simp [stampBatch, hrows s hs g n hn]
  case raw =>
    intro c s hs g n hn l d hd _ _ _ _
    obtain ⟨path, u, counts, rfl, _⟩ := hsrcs s hs
    have hl : d = ⟨0, .INT64, 1, 0⟩ := List.mem_singleton.mp (List.mem_of_getElem? hd)
    subst hl
    exact ⟨_, .i64 (rows _ g), rfl, ofRows_honest (show (0 : Int16) < 1 by decide) _, rfl, rfl⟩

/-- Seconds with a null and an empty row group, then nanoseconds: each file alone is zero-copy,
and the list is not. -/
def clocks : List Src := [stampFile "s" .second [2, 0], stampFile "ns" .nanosecond [1]]

def clockRows (s : Src) (g : Nat) : List (Option Int64) :=
  if s.path = "s" then ([[some 1000000000, none], []][g]?).getD [] else [some 1000000000000000001]

theorem the_clocks_are_read_one_after_the_other :
    ∃ set sel, agree clocks "pq_read" = .ok set ∧ select set none "pq_read" = .ok sel ∧
      Answers (stampWorld clockRows) set sel 0 3 "pq_read"
        ⟨[intern (utf8Bytes "t")],
          [.vec .KP [.j 53315200000000000, .j NJ, .j 53315200000000001]], true⟩ := by
  have hset : agree clocks "pq_read" = .ok ⟨clocks, ["t"], [.ok .KP]⟩ := rfl
  have hsel : select ⟨clocks, ["t"], [.ok .KP]⟩ none "pq_read" = .ok ⟨[0], [.KP], [0], [none]⟩ := rfl
  have hloaded : ∀ s ∈ clocks, Loaded s := by
    intro s hs
    rcases List.mem_cons.mp hs with rfl | hs
    · exact ⟨rfl, rfl, rfl⟩
    · cases List.mem_singleton.mp hs
      exact ⟨rfl, rfl, rfl⟩
  have hW : Whole (stampWorld clockRows) clocks fun s g _ => (clockRows s g).map (·.map Val.i64) := by
    refine stampWorld_whole fun s hs => ?_
    rcases List.mem_cons.mp hs with rfl | hs
    · refine ⟨_, _, _, rfl, fun g n hn => ?_⟩
      match g with
      | 0 | 1 =>
        cases hn
        rfl
    · cases List.mem_singleton.mp hs
      refine ⟨_, _, _, rfl, fun g n hn => ?_⟩
      match g with
      | 0 =>
        cases hn
        rfl
  exact ⟨_, _, hset, hsel, (a_read_is_its_row_groups_one_after_the_other hset hsel hloaded hW
    (show 0 ≤ 1 ∧ 1 ≤ 3 by decide) (by decide)).1⟩

end parquet_interop.read
