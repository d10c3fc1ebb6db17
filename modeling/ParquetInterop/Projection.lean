-- Projections: the names that a selection answers with, and the columns that
-- its parts read, however many ways they are cut.
import ParquetInterop.Pairs

open parquet_interop.ffi parquet_interop.footer
open lib.jobs lib.stores

namespace parquet_interop.read

/-! ## The names of a selection -/

/-- The names of the result columns. -/
def Sel.names (set : FileSet) (sel : Sel) : List String := sel.out.map fun c => set.names.getD c ""

/-- What a caller may count on: no name twice, and the names that were asked for. -/
def OwnNames (set : FileSet) (want : Option (List String)) (sel : Sel) : Prop :=
  (sel.names set).Nodup ∧ ∀ w, want = some w → sel.names set = w

theorem outOf_names {set : FileSet} {who : String} {ns : List String} {out : List Nat}
    (h : outOf set who ns = .ok out) : (out.map fun c => set.names.getD c "") = ns ∧
      out = ns.map set.names.idxOf := by
  induction ns generalizing out with
  | nil =>
    cases h
    exact ⟨rfl, rfl⟩
  | cons n ns ih =>
    unfold outOf at h
    split at h
    · rename_i c hc
      rcases hr : outOf set who ns with e | rest
      · rw [hr] at h
        cases h
      · rw [hr] at h
        cases h
        obtain ⟨hnames, hidx⟩ := ih hr
        obtain ⟨hlt, hget, _⟩ := List.findIdx?_eq_some_iff_getElem.mp hc
        have hfirst : set.names.idxOf n = c := by
          have hfind := List.findIdx?_eq_some_iff_findIdx_eq.mp hc
          rw [← hfind.2]
          rfl
        refine ⟨?_, by rw [List.map_cons, hfirst, ← hidx]⟩
        rw [List.map_cons, hnames, List.getD_eq_getElem _ _ hlt, of_decide_eq_true hget]
    · cases h

theorem select_out {set : FileSet} {want : Option (List String)} {who : String} {sel : Sel}
    (h : select set want who = .ok sel) : wanted set who want = .ok sel.out ∧
      ltsOf set sel.out = .ok sel.lts ∧ sel.out.Nodup := by
  unfold select at h
  split at h
  · cases h
  rename_i out hout
  split at h
  · cases h
  rename_i lts hlts
  dsimp only at h
  split at h
  · cases h
  rename_i huniq
  cases h
  exact ⟨hout, hlts, sortedUniq_nodup (Decidable.not_not.mp huniq)⟩

theorem map_range_getD {T : Type} (l : List T) (d : T) :
    ((List.range l.length).map fun i => l.getD i d) = l := by
  apply List.ext_getElem
  · simp
  · intro i h1 h2
    rw [List.getElem_map, List.getElem_range, List.getD_eq_getElem _ _ h2]

/-! ## A request that is accepted -/

/-- A column that a name stands for and that has an L type. -/
def Readable (set : FileSet) (n : String) : Prop :=
  n ∈ set.names ∧ ∃ lt, set.lts[set.names.idxOf n]? = some (.ok lt)

theorem outOf_readable {set : FileSet} {ns : List String} (h : ∀ n ∈ ns, n ∈ set.names)
    (who : String) : outOf set who ns = .ok (ns.map set.names.idxOf) := by
  induction ns with
  | nil => rfl
  | cons n ns ih =>
    have hn := h n List.mem_cons_self
    have hfind : set.names.findIdx? (· = n) = some (set.names.idxOf n) := by
      rw [List.findIdx?_eq_some_iff_findIdx_eq]
      exact ⟨List.idxOf_lt_length_of_mem hn, rfl⟩
    unfold outOf
    rw [hfind, ih fun m hm => h m (List.mem_cons_of_mem n hm)]
    rfl

theorem ltsOf_readable {set : FileSet} {out : List Nat}
    (h : ∀ c ∈ out, ∃ lt, set.lts[c]? = some (.ok lt)) : ∃ lts, ltsOf set out = .ok lts := by
  induction out with
  | nil => exact ⟨[], rfl⟩
  | cons c cs ih =>
    obtain ⟨lt, hlt⟩ := h c List.mem_cons_self
    obtain ⟨lts, hlts⟩ := ih fun d hd => h d (List.mem_cons_of_mem c hd)
    refine ⟨lt :: lts, ?_⟩
    unfold ltsOf
    rw [hlt, hlts]
    rfl

theorem sortedUniq_length {out : List Nat} (h : out.Nodup) : (sortedUniq out).length = out.length := by
  have hperm := List.perm_insertionSort (· ≤ ·) out
  unfold sortedUniq
  rw [(hperm.nodup_iff.mpr h).dedup, hperm.length_eq]

/-- A request without repeats is accepted, when each of its columns is there and has an L
type. -/
theorem select_readable {set : FileSet} {w : List String} (hnd : w.Nodup)
    (hw : ∀ n ∈ w, Readable set n) (who : String) :
    ∃ sel, select set (some w) who = .ok sel ∧ sel.out = w.map set.names.idxOf := by
  have hout : outOf set who w = .ok (w.map set.names.idxOf) := outOf_readable (fun n hn => (hw n hn).1) who
  obtain ⟨lts, hlts⟩ : ∃ lts, ltsOf set (w.map set.names.idxOf) = .ok lts := by
    apply ltsOf_readable
    intro c hc
    obtain ⟨n, hn, rfl⟩ := List.mem_map.mp hc
    exact (hw n hn).2
  have huniq : (sortedUniq (w.map set.names.idxOf)).length = (w.map set.names.idxOf).length := by
    apply sortedUniq_length
    rw [List.nodup_map_iff_inj_on hnd]
    exact fun m hm n hn he => (List.idxOf_inj (hw m hm).1).mp he
  obtain ⟨sel, hsel⟩ : ∃ sel, select set (some w) who = .ok sel := by
    unfold select wanted
    simp only [hout, hlts]
    rw [if_neg (not_not_intro huniq)]
    exact ⟨_, rfl⟩
  exact ⟨sel, hsel, (outOf_names (select_out hsel).1).2⟩

/-! ## What a part opens -/

/-- Where a part reads root column `c` of file `f`, for its result position `q`: from the one
leaf of the root, or from the place of the root in the batches of the part. -/
inductive Part.Opens (part : Part) (f : Nat) (s : Src) (q c : Nat) : Prop
  | leaf (l : Nat) (d : Leaf) : q ∈ part.raw → s.leafOf c = some l → s.md.leaves[l]? = some d →
      d.root = c → (∀ (l' : Nat) d', s.md.leaves[l']? = some d' → d'.root = c → l' = l) →
      Part.Opens part f s q c
  | batch (roots : List Nat) (i : Nat) : (q, i) ∈ part.outs.zip part.bat →
      part.masks[f]? = some ⟨roots⟩ → roots.Pairwise (· < ·) → roots[i]? = some c →
      Part.Opens part f s q c

/-- However the selection is cut, a part reads each of its positions from the root that the
position names. -/
theorem split_opens {set : FileSet} {sel : Sel} (hsel : Selected set sel)
    (hloaded : ∀ s ∈ set.srcs, Loaded s) {k : Nat} {part : Part} (hpart : part ∈ split set sel k)
    {q : Nat} (hq : q ∈ part.positions) {f : Nat} {s : Src} (hs : set.srcs[f]? = some s) :
    part.Opens f s q (sel.col q) := by
  have hmem := List.mem_of_getElem? hs
  rcases split_cases hpart with ⟨p, rt, rfl, _, hrt⟩ | ⟨outs, _, rfl, hnd, houts⟩
  · have hqp : q = p := List.mem_singleton.mp hq
    subst hqp
    obtain ⟨_, hraw⟩ := hsel.raw q rt hrt
    obtain ⟨l, d, hl, hd, _⟩ := hraw s hmem
    have hmap : (leafMap s.md)[sel.col q]? = some (some l) := by
      rw [← (hloaded s hmem).1]
      exact Option.join_eq_some_iff.mp hl
    obtain ⟨d', hd', hroot, huniq⟩ := leafMap_spec s.md hmap
    exact .leaf l d' (List.mem_singleton_self q) hl hd' hroot huniq
  · have hq : q ∈ outs := hq
    have hroots := arrowPart_roots hsel hnd fun p hp => (houts p hp).1
    have hin : sel.col q ∈ (outs.map sel.col).insertionSort (· ≤ ·) := by
      rw [List.mem_insertionSort]
      exact List.mem_map_of_mem hq
    refine .batch _ _ ?_ ?_ hroots (List.getElem?_idxOf hin)
    · -- The place of a position is the rank of its column in the projection.
      simp only [arrowPart, List.map_map]
      have hzip := List.zip_map' (f := fun p : Nat => p)
        (g := ((outs.map sel.col).insertionSort (· ≤ ·)).idxOf ∘ sel.col) (l := outs)
      rw [List.map_id'] at hzip
      rw [hzip]
      exact List.mem_map_of_mem hq
    · simp only [arrowPart, List.getElem?_map, hs, Option.map_some]

/-- The positions of the parts are the result positions, each once. -/
theorem split_perm (set : FileSet) (sel : Sel) (k : Nat) :
    ((split set sel k).flatMap Part.positions).Perm (List.range sel.out.length) := by
  obtain ⟨hnd, hall⟩ := split_flat set sel k
  rw [List.perm_ext_iff_of_nodup hnd List.nodup_range]
  intro q
  rw [List.mem_range]
  constructor
  · intro hq
    obtain ⟨part, hpart, hq⟩ := List.mem_flatMap.mp hq
    exact positions_lt hpart q hq
  · exact hall q

/-! ## The columns of a projection -/

section
variable {W : World} {set : FileSet} {sel : Sel} {content : Content} {g0 g1 : Nat} {who : String}

/-- A decode without an error leaves the columns of the window, cut into however many parts. -/
theorem plain_decoded (hsel : Selected set sel) (hloaded : ∀ s ∈ set.srcs, Loaded s)
    (hW : Faithful W set.srcs content) (hraw : ∀ c, RawHolds W set.srcs content c)
    (hrows : countedRows (windowCounts set.srcs g0 g1) ≤ I32_MAX) {ways k : Nat} (hk : 0 < k)
    {m m' : Shared} (h : Decodes W set sel (split set sel ways) id
      (tasksOf (layout set.srcs g0 g1).1 (split set sel ways).length) (fun _ => none) who k m m'
      (.ok ())) {p : Nat} (hp : p < sel.out.length) :
    cells m'.mem p (layout set.srcs g0 g1).2 =
      windowCells content set.srcs (sel.lt p) (sel.col p) g0 g1 := by
  have hG : (Ground.plain W sel id).Fits set content fun _ => True :=
    plain_fits hsel hloaded hW (fun q _ _ _ => hraw (sel.col q)) fun _ _ _ _ h => h
  have hland := decode_landed hG (Ground.runs_self _) (window_laid_out hrows who).2.2 hk h
  exact plain_cells hG hrows rfl fun r hr => hland r hr p hp trivial

/-- A plain read that answers has the table of its window. -/
theorem plain_read_right (hsel : Selected set sel) (hloaded : ∀ s ∈ set.srcs, Loaded s)
    (hW : Faithful W set.srcs content) (hraw : ∀ c, RawHolds W set.srcs content c)
    (hfits : countedRows (windowCounts set.srcs g0 g1) < 2 ^ 64) {nthreads k : Nat} (hk : 0 < k)
    {m : Mem Nat Cell} {t : Table} (h : Reads W nthreads k set sel g0 g1 false who m (.ok t)) :
    t = windowTable content set sel g0 g1 := by
  generalize hr : (Except.ok t : Except String Table) = r at h
  cases h with
  | refused _ => cases hr
  | failed _ _ => cases hr
  | @answered plan m' r hplan hd hre _ =>
    obtain ⟨rgs, total, parts, cds⟩ := plan
    obtain ⟨hwindow, ⟨ways, hparts⟩, _, hoff⟩ := planOf_cases hplan
    dsimp only at hwindow hparts hoff hd hre hr
    subst hparts
    have hlayout := (window_ok hwindow).1
    have hrows : countedRows (windowCounts set.srcs g0 g1) ≤ I32_MAX := by
      obtain ⟨heq, hle⟩ := rows_le_of_window hfits hwindow
      exact heq ▸ hle
    have hrgs : rgs = (layout set.srcs g0 g1).1 := by rw [hlayout]
    have htotal : total = (layout set.srcs g0 g1).2 := by rw [hlayout]
    subst hrgs htotal
    have hnone : (fun p : Nat => (cds[p]?).join) = fun _ => none := by
      funext p
      exact hoff rfl p
    rw [hnone] at hd hre
    rw [rereads_plain fun _ => rfl] at hre
    subst hre
    rw [Except.map, tableOf_plain fun _ => rfl] at hr
    cases hr
    unfold windowTable
    congr 1
    apply List.map_congr_left
    intro p hp
    congr 1
    exact plain_decoded hsel hloaded hW hraw hrows hk hd (List.mem_range.mp hp)

end

theorem windowTable_names (content : Content) (set : FileSet) (sel : Sel) (g0 g1 : Nat) :
    (windowTable content set sel g0 g1).names =
      (sel.names set).map fun n => intern (utf8Bytes n) := by
  have hout := map_range_getD sel.out 0
  unfold windowTable Sel.names
  dsimp only
  rw [List.map_map]
  conv_rhs => rw [← hout, List.map_map]
  rfl

/-- The reads of a window that answer, answer `t`. -/
structure Pinned (W : World) (set : FileSet) (sel : Sel) (g0 g1 : Nat) (who : String) (t : Table) :
    Prop where
  only : ∀ nthreads k m t', 0 < k → Reads W nthreads k set sel g0 g1 false who m (.ok t') → t' = t
  answers : Delivering W set.srcs → countedRows (windowCounts set.srcs g0 g1) ≤ I32_MAX →
    Answers W set sel g0 g1 who t

theorem plain_pinned {W : World} {set : FileSet} {sel : Sel} {content : Content}
    (hsel : Selected set sel) (hloaded : ∀ s ∈ set.srcs, Loaded s)
    (hW : Faithful W set.srcs content) (hraw : ∀ c, RawHolds W set.srcs content c) {g0 g1 : Nat}
    (hfits : countedRows (windowCounts set.srcs g0 g1) < 2 ^ 64) (who : String) :
    Pinned W set sel g0 g1 who (windowTable content set sel g0 g1) where
  only _ _ _ _ hk h := plain_read_right hsel hloaded hW hraw hfits hk h
  answers hD hrows := read_plain hsel hloaded ⟨hW, hD, hraw⟩ hrows who

/-! ## The laws -/

/-- A selection of names has the names that were asked for, each once. One of the whole file has
the names of the file, as they are. -/
theorem the_names_are_distinct_iff_asked_for_or_distinct_in_the_file {set : FileSet}
    {want : Option (List String)} {who : String} {sel : Sel} (h : select set want who = .ok sel) :
    OwnNames set want sel ↔ (want = none → set.names.Nodup) := by
  obtain ⟨hout, _, hnd⟩ := select_out h
  cases want with
  | none =>
    have hall : sel.out = List.range set.names.length := (Except.ok.inj hout).symm
    have hnames : sel.names set = set.names := by
      unfold Sel.names
      rw [hall]
      exact map_range_getD set.names ""
    unfold OwnNames
    rw [hnames]
    constructor
    · exact fun hown _ => hown.1
    · exact fun hfile => ⟨hfile rfl, fun w hw => nomatch hw⟩
  | some w =>
    obtain ⟨hnames, hidx⟩ := outOf_names hout
    have hnames : sel.names set = w := hnames
    unfold OwnNames
    rw [hnames]
    constructor
    · exact fun _ hw => nomatch hw
    · intro _
      rw [hidx] at hnd
      exact ⟨hnd.of_map, fun w' hw' => Option.some.inj hw'⟩

/-- A file of two columns of one name. -/
def twins : Src :=
  mk "twins" "twins"
    { fields := [⟨"a", .int64⟩, ⟨"a", .int64⟩], leaves := [⟨0, .INT64, 0, 0⟩, ⟨1, .INT64, 0, 0⟩]
      row_groups := [], num_rows := 0 } []

def twinsFile : OpenFile where
  key := ⟨"twins", 1, 1, 512, (0, 0)⟩
  parsed := .ok twins.md
  tryNew _ := none

theorem the_twins_are_asked_for_by_name :
    OwnNames ⟨[twins], ["a", "a"], [.ok .KJ, .ok .KJ]⟩ (some ["a"])
      ⟨[0], [.KJ], [0], [some (.I64 1)]⟩ :=
  (@the_names_are_distinct_iff_asked_for_or_distinct_in_the_file _ _ "pq_read" _ rfl).mpr nofun

/-- The whole file is selected with both. -/
theorem the_twins_are_selected_under_one_name :
    ¬ ∀ (srcs : List Src) (set : FileSet) (want : Option (List String)) (sel : Sel),
      (∀ s ∈ srcs, ∃ orig path f who, (load [] orig path f who).1 = .ok s) →
      agree srcs "pq_read" = .ok set → select set want "pq_read" = .ok sel →
      OwnNames set want sel := by
  intro h
  have hload : (load [] "twins" "twins" (.ok twinsFile) "pq_read").1 = .ok twins := rfl
  have hown := h [twins] ⟨[twins], ["a", "a"], [.ok .KJ, .ok .KJ]⟩ none
    ⟨[0, 1], [.KJ, .KJ], [0, 1], [some (.I64 1), some (.I64 1)]⟩
    (fun s hs => ⟨_, _, _, _, (List.mem_singleton.mp hs) ▸ hload⟩) rfl rfl
  exact absurd hown.1 (by decide)

/-- A request of distinct columns is read column by column: however many ways it is cut, each
result position is in one part, which opens the root that the position names. So the table has
the columns in the order of the request, with the rows that the files hold of them, and each one is
the column read alone. -/
theorem a_projection_reads_the_columns_it_names {srcs : List Src} {who : String} {set : FileSet}
    (hset : agree srcs who = .ok set) (hloaded : ∀ s ∈ srcs, Loaded s) {w : List String}
    (hnd : w.Nodup) (hw : ∀ n ∈ w, Readable set n) {W : World} {content : Content}
    (hW : Faithful W srcs content) (hraw : ∀ c, RawHolds W srcs content c) {g0 g1 : Nat}
    (hfits : countedRows (windowCounts srcs g0 g1) < 2 ^ 64) :
    ∃ sel, select set (some w) who = .ok sel ∧ sel.out = w.map set.names.idxOf ∧
      (∀ ways, ((split set sel ways).flatMap Part.positions).Perm (List.range w.length) ∧
        ∀ part ∈ split set sel ways, ∀ q ∈ part.positions, ∀ (f : Nat) s, srcs[f]? = some s →
          part.Opens f s q (sel.col q)) ∧
      ∃ columns : List Column, columns.length = w.length ∧
        columns = (windowTable content set sel g0 g1).columns ∧
        (∀ rgs total, window srcs g0 g1 who = .ok (rgs, total) → ∀ ways k m m', 0 < k →
          Decodes W set sel (split set sel ways) id (tasksOf rgs (split set sel ways).length)
            (fun _ => none) who k m m' (.ok ()) →
          columns = (List.range w.length).map fun p => .vec (sel.lt p) (cells m'.mem p total)) ∧
        Pinned W set sel g0 g1 who ⟨w.map fun n => intern (utf8Bytes n), columns, true⟩ ∧
        ∀ (i : Nat) n, w[i]? = some n → ∃ sel1 col, select set (some [n]) who = .ok sel1 ∧
          columns[i]? = some col ∧
          Pinned W set sel1 g0 g1 who ⟨[intern (utf8Bytes n)], [col], true⟩ := by
  obtain ⟨hsrcs, _⟩ := agree_cases hset
  subst hsrcs
  obtain ⟨sel, hsel, hout⟩ := select_readable hnd hw who
  have hselected := select_selected hset hsel
  have hlen : sel.out.length = w.length := by rw [hout, List.length_map]
  have htable : ∀ {w' : List String} {sel' : Sel}, select set (some w') who = .ok sel' →
      windowTable content set sel' g0 g1 = ⟨w'.map fun n => intern (utf8Bytes n),
        (windowTable content set sel' g0 g1).columns, true⟩ := by
    intro w' sel' hsel'
    have hnames : sel'.names set = w' := (outOf_names (select_out hsel').1).1
    have h := windowTable_names content set sel' g0 g1
    rw [hnames] at h
    exact congrArg (fun names => (⟨names, (windowTable content set sel' g0 g1).columns, true⟩ : Table)) h
  refine ⟨sel, hsel, hout, fun ways => ⟨hlen ▸ split_perm set sel ways, ?_⟩,
    (windowTable content set sel g0 g1).columns, ?_, rfl, ?_, ?_, ?_⟩
  · exact fun part hpart q hq f s hs => split_opens hselected hloaded hpart hq hs
  · unfold windowTable
    rw [List.length_map, List.length_range, hlen]
  · intro rgs total hwindow ways k m m' hk hd
    obtain ⟨heq, hle⟩ := rows_le_of_window hfits hwindow
    obtain ⟨hlayout, _⟩ := window_ok hwindow
    have hrgs : rgs = (layout set.srcs g0 g1).1 := by rw [hlayout]
    have htotal : total = (layout set.srcs g0 g1).2 := by rw [hlayout]
    subst hrgs htotal
    unfold windowTable
    rw [← hlen]
    apply List.map_congr_left
    intro p hp
    rw [plain_decoded hselected hloaded hW hraw (heq ▸ hle) hk hd (List.mem_range.mp hp)]
  · rw [← htable hsel]
    exact plain_pinned hselected hloaded hW hraw hfits who
  · intro i n hi
    have hn := List.mem_of_getElem? hi
    obtain ⟨sel1, hsel1, hout1⟩ := select_readable (List.nodup_singleton n)
      (fun m hm => List.mem_singleton.mp hm ▸ hw n hn) who
    have hcol : sel.col i = set.names.idxOf n := by
      unfold Sel.col
      rw [hout, List.getD_eq_getElem?_getD, List.getElem?_map, hi]
      rfl
    have hlt : sel1.lt 0 = sel.lt i := by
      have h1 := (ltsOf_get (select_out hsel1).2.1).2 0 (by rw [hout1]; exact Nat.zero_lt_one)
      have h2 := (ltsOf_get (select_out hsel).2.1).2 i
        (by rw [hlen]; exact (List.getElem?_eq_some_iff.mp hi).1)
      have hc : sel.out.getD i 0 = set.names.idxOf n := hcol
      rw [hout1] at h1
      rw [hc] at h2
      exact Except.ok.inj (Option.some.inj (h1.symm.trans h2))
    refine ⟨sel1, .vec (sel.lt i) (windowCells content set.srcs (sel.lt i) (sel.col i) g0 g1), hsel1,
      ?_, ?_⟩
    · unfold windowTable
      rw [List.getElem?_map, List.getElem?_range (hlen ▸ (List.getElem?_eq_some_iff.mp hi).1)]
      rfl
    · have hpin := plain_pinned (select_selected hset hsel1) hloaded hW hraw hfits who
      rw [htable hsel1] at hpin
      have hone : (windowTable content set sel1 g0 g1).columns =
          [.vec (sel.lt i) (windowCells content set.srcs (sel.lt i) (sel.col i) g0 g1)] := by
        unfold windowTable
        have hcol1 : sel1.col 0 = set.names.idxOf n := by
          unfold Sel.col
          rw [hout1]
          rfl
        rw [hout1, hcol]
        simp only [List.map_cons, List.map_nil, List.length_singleton, List.range_one, hlt, hcol1]
      rw [hone] at hpin
      exact hpin

/-- A file of a nested column of `k` leaves, a long and a short column, and one row group. -/
def nest (path : String) (k : Nat) (n : Int64) : Src :=
  mk path path
    { fields := [⟨"s", .other "Struct"⟩, ⟨"a", .int64⟩, ⟨"b", .int16⟩]
      leaves := List.replicate k ⟨0, .INT64, 1, 0⟩ ++ [⟨1, .INT64, 1, 0⟩, ⟨2, .INT32, 1, 0⟩]
      row_groups := [⟨n, List.replicate (k + 2) ⟨false, none⟩⟩], num_rows := n } [n]

def nests : List Src := [nest "p" 2 2, nest "q" 3 1]

def nestLongs (s : Src) : List (Option Int64) := if s.path = "p" then [some 5, none] else [some 6]

def nestShorts (s : Src) : List (Option Int16) := if s.path = "p" then [some 7, some 8] else [none]

def nestColumn (s : Src) (c : Nat) : Arr :=
  if c = 2 then ⟨typeAt s c, .i16 (Prim.ofContent (nestShorts s))⟩
  else ⟨typeAt s c, .i64 (Prim.ofContent (nestLongs s))⟩

theorem nestColumn_len (s : Src) (c : Nat) : (nestColumn s c).len = (nestLongs s).length := by
  unfold nestColumn nestShorts nestLongs
  split <;> split <;> rfl

def nestBatch (s : Src) (roots : List Nat) : Batch where
  columns := roots.map (nestColumn s)
  num_rows := (nestLongs s).length
  len_eq a ha := by
    obtain ⟨c, _, rfl⟩ := List.mem_map.mp ha
    exact nestColumn_len s c

def nestWorld : World where
  crate := Crate.safe fun _ => .ok []
  fopen _ := .ok ()
  tryClone _ := .ok ()
  firstPage _ _ _ := .ok none
  columnReader s _ _ := .ok (.i64 (RecordReader.ofRows 1 (nestLongs s)))
  batches s mask _ := .ok [.ok (nestBatch s mask.roots)]

def nestContent : Content := fun s _ c => (nestColumn s c).content nestWorld.crate.heap

theorem nestContent_length (s : Src) (g c : Nat) : (nestContent s g c).length = (nestLongs s).length := by
  rw [← nestColumn_len s c]
  unfold nestContent nestColumn
  split
  · exact length_map_content _ _
  · exact length_map_content _ _

theorem nestWorld_faithful : Faithful nestWorld nests nestContent ∧
    (∀ c, RawHolds nestWorld nests nestContent c) ∧ Delivering nestWorld nests := by
  have hcount : ∀ s ∈ nests, ∀ (g : Nat) n, s.rg_rows[g]? = some n → (nestLongs s).length = asUsize n := by
    intro s hs g n hn
    have hg : g = 0 := by
      rcases List.mem_cons.mp hs with rfl | hs
      · exact Nat.lt_one_iff.mp (List.getElem?_eq_some_iff.mp hn).1
      · cases List.mem_singleton.mp hs
        exact Nat.lt_one_iff.mp (List.getElem?_eq_some_iff.mp hn).1
    subst hg
    rcases List.mem_cons.mp hs with rfl | hs
    · cases hn
      rfl
    · cases List.mem_singleton.mp hs
      cases hn
      rfl
  have hbatch : ∀ {s g roots} {bs : List Batch},
      nestWorld.batches s ⟨roots⟩ g = .ok (bs.map .ok) → bs = [nestBatch s roots] := by
    intro s g roots bs h
    have h := Except.ok.inj h
    match bs with
    | [b] => exact congrArg (fun b => [b]) (Except.ok.inj (List.cons.inj h).1).symm
  -- The columns that have an L type are the long and the short one.
  have htype : ∀ s ∈ nests, ∀ c lt, lTypeOf (typeAt s c) = .ok lt →
      c = 1 ∧ typeAt s c = .int64 ∨ c = 2 ∧ typeAt s c = .int16 := by
    intro s hs c lt h
    rcases List.mem_cons.mp hs with rfl | hs
    · match c with
      | 1 => exact Or.inl ⟨rfl, rfl⟩
      | 2 => exact Or.inr ⟨rfl, rfl⟩
    · cases List.mem_singleton.mp hs
      match c with
      | 1 => exact Or.inl ⟨rfl, rfl⟩
      | 2 => exact Or.inr ⟨rfl, rfl⟩
  refine ⟨⟨safe_lawful _, ?rows, ?typed⟩, ?raw, ⟨fun _ _ => rfl, fun _ _ => rfl, ?batches⟩⟩
  case rows =>
    intro s hs g n hn c
    rw [nestContent_length, hcount s hs g n hn]
  case typed =>
    intro s hs g n roots bs hn _ hlts hbs _ i c hc
    rw [hbatch hbs]
    have hcol : (nestBatch s roots).columns[i]? = some (nestColumn s c) := by
      simp only [nestBatch, List.getElem?_map, hc, Option.map_some]
    refine ⟨fun b hb => ⟨_, List.mem_singleton.mp hb ▸ hcol, ?_, ?_⟩, ?_⟩
    · unfold nestColumn
      split <;> rfl
    · obtain ⟨lt, hlt⟩ := hlts c (List.mem_of_getElem? hc)
      unfold nestColumn
      rcases htype s hs c lt hlt with ⟨rfl, hdt⟩ | ⟨rfl, hdt⟩
      · rw [hdt]
        trivial
      · rw [hdt]
        trivial
    · rw [List.flatMap_singleton]
      unfold batchRows
      rw [hcol]
      rfl
  case raw =>
    intro c s hs g n hn l d hd hroot _ _ hof
    obtain ⟨lt, hlt⟩ : ∃ lt, lTypeOf (typeAt s c) = .ok lt := by
      obtain ⟨rt, hrt⟩ := Option.isSome_iff_exists.mp hof
      rcases rawOf_cases hrt with ⟨_, _, h | h | h⟩ | ⟨_, h, _⟩ | ⟨_, _, _, ⟨_, h⟩ | h⟩ | ⟨_, h, _⟩ |
        ⟨_, h, _⟩ <;> exact ⟨_, by rw [h]; rfl⟩
    rcases htype s hs c lt hlt with ⟨rfl, hdt⟩ | ⟨rfl, hdt⟩
    · have hleaf : d = ⟨1, .INT64, 1, 0⟩ := by
        have hmem := List.mem_of_getElem? hd
        rcases List.mem_cons.mp hs with rfl | hs
        · simp only [nest, mk, List.mem_append, List.mem_replicate, List.mem_cons] at hmem
          rcases hmem with ⟨_, rfl⟩ | rfl | rfl | h
          · cases hroot
          · rfl
          · cases hroot
          · cases h
        · cases List.mem_singleton.mp hs
          simp only [nest, mk, List.mem_append, List.mem_replicate, List.mem_cons] at hmem
          rcases hmem with ⟨_, rfl⟩ | rfl | rfl | h
          · cases hroot
          · rfl
          · cases hroot
          · cases h
      subst hleaf
      refine ⟨_, .i64 (nestLongs s), rfl, ofRows_honest (show (0 : Int16) < 1 by decide) _, rfl, ?_⟩
      exact (congrArg (List.map _) (content_ofContent (nestLongs s))).symm
    · rw [hdt] at hof
      cases hof
  case batches =>
    intro s hs g n roots hn _ _
    exact ⟨[nestBatch s roots], rfl, by simp [nestBatch, hcount s hs g n hn]⟩

/-- The short column and then the long one, out of files whose nested columns differ. -/
theorem the_nests_are_read_by_name :
    ∃ set sel columns, agree nests "pq_read" = .ok set ∧
      select set (some ["b", "a"]) "pq_read" = .ok sel ∧
      Answers nestWorld set sel 0 2 "pq_read"
        ⟨[intern (utf8Bytes "b"), intern (utf8Bytes "a")], columns, true⟩ ∧
      ∃ sel1 col, select set (some ["a"]) "pq_read" = .ok sel1 ∧ columns[1]? = some col ∧
        Answers nestWorld set sel1 0 2 "pq_read" ⟨[intern (utf8Bytes "a")], [col], true⟩ := by
  obtain ⟨hW, hraw, hD⟩ := nestWorld_faithful
  have hset : agree nests "pq_read" = .ok ⟨nests, ["s", "a", "b"],
    [.error "nyi: column s type Struct", .ok .KJ, .ok .KH]⟩ := rfl
  have hloaded : ∀ s ∈ nests, Loaded s := by
    intro s hs
    rcases List.mem_cons.mp hs with rfl | hs
    · exact ⟨rfl, rfl, rfl⟩
    · cases List.mem_singleton.mp hs
      exact ⟨rfl, rfl, rfl⟩
  have hw : ∀ n ∈ ["b", "a"], Readable ⟨nests, ["s", "a", "b"],
      [.error "nyi: column s type Struct", .ok .KJ, .ok .KH]⟩ n := by
    intro n hn
    simp only [List.mem_cons, List.not_mem_nil, or_false] at hn
    rcases hn with rfl | rfl
    · exact ⟨by decide, .KH, by decide⟩
    · exact ⟨by decide, .KJ, by decide⟩
  obtain ⟨sel, hsel, _, _, columns, _, _, _, hpin, halone⟩ :=
    a_projection_reads_the_columns_it_names hset hloaded (show ["b", "a"].Nodup by decide) hw hW hraw
      (show countedRows (windowCounts nests 0 2) < 2 ^ 64 by decide)
  obtain ⟨sel1, col, hsel1, hcol, hpin1⟩ := halone 1 "a" rfl
  have hrows : countedRows (windowCounts nests 0 2) ≤ I32_MAX := by decide
  exact ⟨_, sel, columns, hset, hsel, hpin.answers hD hrows, sel1, col, hsel1, hcol,
    hpin1.answers hD hrows⟩

end parquet_interop.read
