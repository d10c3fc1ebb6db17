-- What `pq_meta` says of a read before there is one: which symbol columns it
-- announces as pairs, and which of them come back as pairs.
import ParquetInterop.GiveUp

open parquet_interop.ffi parquet_interop.footer
open lib.stores

namespace parquet_interop.read

/-! ## The announcement -/

/-- `enc_of`: for each column, whether every row group of every file carries a dictionary page. -/
def encOf (set : FileSet) (nc : Nat) : List Bool :=
  let any : Bool := 0 < set.nRg
  (List.range nc).map fun c =>
    set.srcs.foldl (fun all s =>
      (List.range s.rg_rows.length).foldl (fun all g => all && s.chunkDict g c) all) any

theorem foldl_and {T : Type} (f : T → Bool) (xs : List T) (b : Bool) :
    xs.foldl (fun all x => all && f x) b = (b && xs.all f) := by
  induction xs generalizing b with
  | nil => simp
  | cons x xs ih => rw [List.foldl_cons, ih, List.all_cons, Bool.and_assoc]

/-- What the loops come to. -/
theorem encOf_get {set : FileSet} {nc c : Nat} {e : Bool} (h : (encOf set nc)[c]? = some e) :
    e = true ↔ 0 < set.nRg ∧ ∀ s ∈ set.srcs, ∀ g < s.rg_rows.length, s.chunkDict g c = true := by
  unfold encOf at h
  rw [List.getElem?_map, Option.map_eq_some_iff] at h
  obtain ⟨c', hc, rfl⟩ := h
  obtain ⟨hlt, rfl⟩ := List.getElem?_eq_some_iff.mp hc
  simp only [List.getElem_range, foldl_and, Bool.and_eq_true, decide_eq_true_eq, List.all_eq_true,
    List.mem_range]

/-! ## The row groups of the files -/

/-- Some row group has a row. -/
def HasRows (srcs : List Src) : Prop := ∃ s ∈ srcs, ∃ n ∈ s.rg_rows, 0 < n.toInt

/-- Every row group with rows has a dictionary page for column `c`. -/
def PagedRows (srcs : List Src) (c : Nat) : Prop :=
  ∀ s ∈ srcs, ∀ (g : Nat) n, s.rg_rows[g]? = some n → 0 < n.toInt → s.chunkDict g c = true

/-- Every row group without rows has a dictionary page for column `c`. -/
def PagedEmpty (srcs : List Src) (c : Nat) : Prop :=
  ∀ s ∈ srcs, ∀ (g : Nat) n, s.rg_rows[g]? = some n → ¬0 < n.toInt → s.chunkDict g c = true

/-- A file with rows hands out strings for column `c`, not a dictionary. -/
def Strings (srcs : List Src) (c : Nat) : Prop :=
  ∃ s ∈ srcs, (∃ n ∈ s.rg_rows, 0 < n.toInt) ∧ ∀ k v, typeAt s c ≠ .dictionary k v

theorem groupsOf_mem {srcs : List Src} {f g : Nat} {s : Src} {n : Int64} (hs : srcs[f]? = some s)
    (hn : s.rg_rows[g]? = some n) : (⟨f, g, n⟩ : Group) ∈ groupsOf srcs := by
  unfold groupsOf
  simp only [List.mem_flatten, List.mem_map, Prod.exists]
  refine ⟨_, ⟨s, f, List.mem_zipIdx_iff_getElem?.mpr hs, rfl⟩, ?_⟩
  simp only [List.mem_map, Prod.exists]
  exact ⟨n, g, List.mem_zipIdx_iff_getElem?.mpr hn, rfl⟩

/-- The layout of a whole set has the row groups that have rows. -/
theorem layout_whole {set : FileSet} {f g : Nat} :
    (∃ r ∈ (layout set.srcs 0 set.nRg).1, r.f = f ∧ r.g = g) ↔
      ∃ s n, set.srcs[f]? = some s ∧ s.rg_rows[g]? = some n ∧ 0 < n.toInt := by
  have hfrom : ∀ (gs : List Group) (i total : Nat), i + gs.length ≤ set.nRg →
      ((∃ r ∈ (layoutFrom 0 set.nRg gs i total).1, r.f = f ∧ r.g = g) ↔
        ∃ n, (⟨f, g, n⟩ : Group) ∈ gs ∧ 0 < n.toInt) := by
    intro gs
    induction gs with
    | nil =>
      intro i total _
      simp [layoutFrom]
    | cons x gs ih =>
      intro i total hlen
      rw [List.length_cons] at hlen
      obtain ⟨xf, xg, rows⟩ := x
      by_cases hrows : 0 < rows.toInt
      · have hstep : (layoutFrom 0 set.nRg (⟨xf, xg, rows⟩ :: gs) i total).1 =
            ⟨xf, xg, total, asUsize rows⟩ ::
              (layoutFrom 0 set.nRg gs (i + 1) ((total + asUsize rows) % 2 ^ 64)).1 := by
          rw [layoutFrom, if_pos ⟨Nat.zero_le i, by omega, hrows⟩]
        rw [hstep, List.exists_mem_cons_iff, ih _ _ (by omega)]
        constructor
        · rintro (⟨rfl, rfl⟩ | ⟨n, hn, hpos⟩)
          · exact ⟨rows, List.mem_cons_self, hrows⟩
          · exact ⟨n, List.mem_cons_of_mem _ hn, hpos⟩
        · rintro ⟨n, hn, hpos⟩
          rcases List.mem_cons.mp hn with he | hn
          · cases he
            exact Or.inl ⟨rfl, rfl⟩
          · exact Or.inr ⟨n, hn, hpos⟩
      · have hstep : layoutFrom 0 set.nRg (⟨xf, xg, rows⟩ :: gs) i total =
            layoutFrom 0 set.nRg gs (i + 1) total := by
          rw [layoutFrom, if_neg fun h => hrows h.2.2]
        rw [hstep, ih _ _ (by omega)]
        constructor
        · rintro ⟨n, hn, hpos⟩
          exact ⟨n, List.mem_cons_of_mem _ hn, hpos⟩
        · rintro ⟨n, hn, hpos⟩
          rcases List.mem_cons.mp hn with he | hn
          · cases he
            exact absurd hpos hrows
          · exact ⟨n, hn, hpos⟩
  have hall := hfrom (groupsOf set.srcs) 0 0 (by rw [length_groupsOf]; unfold FileSet.nRg; omega)
  refine hall.trans ⟨?_, ?_⟩
  · rintro ⟨n, hn, hpos⟩
    obtain ⟨s, hs, hrows⟩ := mem_groupsOf hn
    exact ⟨s, n, hs, hrows, hpos⟩
  · rintro ⟨s, n, hs, hrows, hpos⟩
    exact ⟨n, groupsOf_mem hs hrows, hpos⟩

theorem layout_ne_nil {set : FileSet} : (layout set.srcs 0 set.nRg).1 ≠ [] ↔ HasRows set.srcs := by
  constructor
  · intro hne
    obtain ⟨r, hr⟩ := List.exists_mem_of_ne_nil _ hne
    obtain ⟨s, n, hs, hn, hpos⟩ := layout_whole.mp ⟨r, hr, rfl, rfl⟩
    exact ⟨s, List.mem_of_getElem? hs, n, List.mem_of_getElem? hn, hpos⟩
  · rintro ⟨s, hs, n, hn, hpos⟩
    obtain ⟨f, hf⟩ := List.mem_iff_getElem?.mp hs
    obtain ⟨g, hg⟩ := List.mem_iff_getElem?.mp hn
    obtain ⟨r, hr, _⟩ := layout_whole.mpr ⟨s, n, hf, hg, hpos⟩
    exact List.ne_nil_of_mem hr

theorem allDict_whole {set : FileSet} {c : Nat} :
    allDict set.srcs (layout set.srcs 0 set.nRg).1 c = true ↔ PagedRows set.srcs c := by
  unfold allDict
  rw [List.all_eq_true]
  constructor
  · intro hall s hs g n hn hpos
    obtain ⟨f, hf⟩ := List.mem_iff_getElem?.mp hs
    obtain ⟨r, hr, rfl, rfl⟩ := layout_whole.mpr ⟨s, n, hf, hn, hpos⟩
    have hdict := hall r hr
    rw [hf] at hdict
    exact hdict
  · intro hpaged r hr
    obtain ⟨s, n, hs, hn, hpos⟩ := layout_whole.mp ⟨r, hr, rfl, rfl⟩
    rw [hs]
    exact hpaged s (List.mem_of_getElem? hs) r.g n hn hpos

theorem inflated_whole {set : FileSet} {c : Nat} :
    Inflated set.srcs (layout set.srcs 0 set.nRg).1 c ↔ Strings set.srcs c := by
  constructor
  · rintro ⟨r, hr, s, hs, hno⟩
    obtain ⟨s', n, hs', hn, hpos⟩ := layout_whole.mp ⟨r, hr, rfl, rfl⟩
    cases hs.symm.trans hs'
    exact ⟨s, List.mem_of_getElem? hs, ⟨n, List.mem_of_getElem? hn, hpos⟩, hno⟩
  · rintro ⟨s, hs, ⟨n, hn, hpos⟩, hno⟩
    obtain ⟨f, hf⟩ := List.mem_iff_getElem?.mp hs
    obtain ⟨g, hg⟩ := List.mem_iff_getElem?.mp hn
    obtain ⟨r, hr, rfl, rfl⟩ := layout_whole.mpr ⟨s, n, hf, hg, hpos⟩
    exact ⟨r, hr, s, hf, hno⟩

/-- A column is announced when the row groups with rows and the ones without have their pages. -/
theorem encOf_iff {set : FileSet} {nc c : Nat} {e : Bool} (h : (encOf set nc)[c]? = some e)
    (hrows : HasRows set.srcs) : e = true ↔ PagedRows set.srcs c ∧ PagedEmpty set.srcs c := by
  have hany : 0 < set.nRg := by
    obtain ⟨s, hs, n, hn, _⟩ := hrows
    obtain ⟨f, hf⟩ := List.mem_iff_getElem?.mp hs
    obtain ⟨g, hg⟩ := List.mem_iff_getElem?.mp hn
    unfold FileSet.nRg
    rw [← length_groupsOf]
    exact List.length_pos_of_mem (groupsOf_mem hf hg)
  rw [encOf_get h]
  constructor
  · rintro ⟨_, hall⟩
    have hget := fun s hs (g : Nat) n (hn : (s : Src).rg_rows[g]? = some n) =>
      hall s hs g (List.getElem?_eq_some_iff.mp hn).1
    exact ⟨fun s hs g n hn _ => hget s hs g n hn, fun s hs g n hn _ => hget s hs g n hn⟩
  · rintro ⟨hwith, hwithout⟩
    refine ⟨hany, fun s hs g hg => ?_⟩
    have hn := List.getElem?_eq_getElem hg
    by_cases hpos : 0 < s.rg_rows[g].toInt
    · exact hwith s hs g _ hn hpos
    · exact hwithout s hs g _ hn hpos

/-! ## The law of the announcement -/

/-- The announcement `e` of position `p` predicts the answer of a whole read with codes. -/
structure Predicts (W : World) (nthreads : Nat) (set : FileSet) (sel : Sel) (who : String) (p : Nat)
    (e : Bool) (t : Table) : Prop where
  plain : e = false → ¬∃ d lt cs, t.columns[p]? = some (.pair d lt cs)
  all_dict : e = true → HasRows set.srcs →
    allDict set.srcs (layout set.srcs 0 set.nRg).1 (sel.col p) = true
  pair : e = true → HasRows set.srcs → (¬∃ d lt cs, t.columns[p]? = some (.pair d lt cs)) →
    EmptyPage W set.srcs (layout set.srcs 0 set.nRg).1 (sel.col p) who ∨
      Outside W set sel (layout set.srcs 0 set.nRg).1
        (split set sel (splitWays nthreads (layout set.srcs 0 set.nRg).1.length sel)) p who

/-- Where every row group with rows has its page, none is empty and no value is outside the union,
the announcement looks at the pages of the row groups without rows, and the read at whether a file
hands out strings. The announcement predicts the read exactly when the two agree. -/
theorem enc_predicts_the_pairs_iff_empty_row_groups_have_pages_where_no_file_has_strings
    {srcs : List Src} {who : String} {set : FileSet} (hset : agree srcs who = .ok set)
    (hloaded : ∀ s ∈ srcs, Loaded s) {want : Option (List String)} {sel : Sel}
    (hsel : select set want who = .ok sel) {W : World} {content : Content}
    (hW : Faithful W srcs content) {owner : ArrayId → Nat} (harr : CodedArrays W srcs owner)
    (hfits : countedRows (windowCounts srcs 0 set.nRg) < 2 ^ 64) {nthreads k : Nat} (hk : 0 < k)
    {m : Mem Nat Cell} {t : Table}
    (h : Reads W nthreads k set sel 0 set.nRg true who m (.ok t)) {p : Nat} (hp : p < sel.out.length)
    (hks : sel.lt p = .KS) {nc : Nat} {e : Bool} (he : (encOf set nc)[sel.col p]? = some e) :
    Predicts W nthreads set sel who p e t ↔
      (HasRows srcs ∧ PagedRows srcs (sel.col p) ∧
          ¬EmptyPage W srcs (layout srcs 0 set.nRg).1 (sel.col p) who ∧
          ¬Outside W set sel (layout srcs 0 set.nRg).1
            (split set sel (splitWays nthreads (layout srcs 0 set.nRg).1.length sel)) p who →
        (PagedEmpty srcs (sel.col p) ↔ ¬Strings srcs (sel.col p))) := by
  obtain ⟨hsrcs, _⟩ := agree_cases hset
  subst hsrcs
  have hpair := pair_iff (select_selected hset hsel) hloaded hW harr hfits hk h hp hks
  rw [layout_ne_nil, allDict_whole, inflated_whole] at hpair
  constructor
  · rintro ⟨hplain, _, hback⟩ ⟨hrows, hpaged, hfull, hin⟩
    have henc := encOf_iff he hrows
    constructor
    · intro hempty hstrings
      have htrue := henc.mpr ⟨hpaged, hempty⟩
      rcases hback htrue hrows fun hp => (hpair.mp hp).2.1 hstrings with hno | hno
      · exact hfull hno
      · exact hin hno
    · intro hno
      have hyes := hpair.mpr ⟨⟨hrows, hpaged, hfull⟩, hno, hin⟩
      have htrue : e = true := by
        by_contra hfalse
        exact hplain (by simpa using hfalse) hyes
      exact (henc.mp htrue).2
  · intro hcond
    constructor
    case plain =>
      rintro rfl hyes
      obtain ⟨⟨hrows, hpaged, hfull⟩, hno, hin⟩ := hpair.mp hyes
      have hempty := (hcond ⟨hrows, hpaged, hfull, hin⟩).mpr hno
      cases (encOf_iff he hrows).mpr ⟨hpaged, hempty⟩
    case all_dict =>
      intro htrue hrows
      exact allDict_whole.mpr ((encOf_iff he hrows).mp htrue).1
    case pair =>
      intro htrue hrows hno
      obtain ⟨hpaged, hempty⟩ := (encOf_iff he hrows).mp htrue
      by_contra hneither
      rw [not_or] at hneither
      have hdict := (hcond ⟨hrows, hpaged, hneither⟩).mp hempty
      exact hno (hpair.mpr ⟨⟨hrows, hpaged, hneither.1⟩, hdict, hneither.2⟩)

/-- A row group of one row that has a dictionary page, and one without rows. -/
def hollowSrc (dict : Bool) : Src :=
  mk "hollow" "hollow"
    { fields := [⟨"s", .dictionary .int32 .utf8⟩], leaves := [⟨0, .BYTE_ARRAY, 1, 0⟩]
      row_groups := [⟨1, [⟨true, none⟩]⟩, ⟨0, [⟨dict, none⟩]⟩], num_rows := 1 } [1, 0]

def hollowSet (dict : Bool) : FileSet := ⟨[hollowSrc dict], ["s"], [.ok .KS]⟩

def hollowKeys (g : Nat) : Prim Int := keysOf (if g = 0 then [0] else [])

def hollowWorld : World := dictWorld (fun _ => ["a"]) hollowKeys

/-- The row group without rows is not read. -/
theorem hollowWorld_read (dict : Bool) :
    ∃ t, Reads hollowWorld 1 1 (hollowSet dict) dictSel 0 2 true "pq_read" (fun _ => .g 0) (.ok t) ∧
      t.columns[0]? = some (.pair [⟨[97]⟩, ⟨[]⟩] .KG [.g 0]) := by
  have hplan : planOf hollowWorld 1 (hollowSet dict) dictSel 0 2 true "pq_read" =
      .ok ⟨[⟨0, 0, 0, 1⟩], 1, [⟨[], [0], [0], [⟨[0]⟩]⟩],
        [some ⟨[⟨[97]⟩, ⟨[]⟩], [([], 1), ([97], 0)], 1, .KG⟩]⟩ := by rfl
  have hread := read_alone (m := fun _ => .g 0) hplan (by decide) rfl (fun p hp => by
    cases Nat.lt_one_iff.mp hp
    rfl) fun p hp cd hcd => by
      cases Nat.lt_one_iff.mp hp
      cases hcd
      decide
  exact ⟨_, hread, rfl⟩

/-- The column is announced as strings and comes back as a pair: the row group that has no page has
no row either. -/
theorem a_column_without_an_announcement_is_a_pair :
    agree [hollowSrc false] "pq_read" = .ok (hollowSet false) ∧
      select (hollowSet false) none "pq_read" = .ok dictSel ∧
      (encOf (hollowSet false) 1)[dictSel.col 0]? = some false ∧
      ∃ t, Reads hollowWorld 1 1 (hollowSet false) dictSel 0 (hollowSet false).nRg true "pq_read"
          (fun _ => .g 0) (.ok t) ∧
        (∃ d lt cs, t.columns[0]? = some (.pair d lt cs)) ∧
        ¬Predicts hollowWorld 1 (hollowSet false) dictSel "pq_read" 0 false t := by
  obtain ⟨t, hread, hcol⟩ := hollowWorld_read false
  exact ⟨rfl, rfl, rfl, t, hread, ⟨_, _, _, hcol⟩, fun h => h.plain rfl ⟨_, _, _, hcol⟩⟩

/-- With a page in both row groups the announcement holds. -/
theorem the_announcement_of_two_pages_holds :
    ∃ t, Reads hollowWorld 1 1 (hollowSet true) dictSel 0 (hollowSet true).nRg true "pq_read"
        (fun _ => .g 0) (.ok t) ∧
      Predicts hollowWorld 1 (hollowSet true) dictSel "pq_read" 0 true t := by
  obtain ⟨t, hread, _⟩ := hollowWorld_read true
  have hset : agree [hollowSrc true] "pq_read" = .ok (hollowSet true) := rfl
  have hsel : select (hollowSet true) none "pq_read" = .ok dictSel := rfl
  have hloaded : ∀ s ∈ [hollowSrc true], Loaded s := by
    intro s hs
    cases List.mem_singleton.mp hs
    exact ⟨rfl, rfl, rfl⟩
  have hgroups : ∀ (g : Nat) n, (hollowSrc true).rg_rows[g]? = some n →
      (hollowKeys g).values.length = asUsize n ∧ (hollowSrc true).chunkDict g 0 = true := by
    intro g n hn
    rcases g with _ | _ | g
    · cases hn
      exact ⟨rfl, rfl⟩
    · cases hn
      exact ⟨rfl, rfl⟩
    · cases hn
  obtain ⟨hW, harr⟩ := @dictWorld_faithful (fun _ => ["a"]) hollowKeys (hollowSrc true)
    (fun c lt h => by
      cases c with
      | zero => rfl
      | succ c => cases h)
    rfl (fun g n hn => (hgroups g n hn).1)
    (fun g k hk => by
      have hkey : some k ∈ [some (0 : Int)] := by
        rcases g with _ | g
        · exact hk
        · cases hk
      simp only [List.mem_singleton, Option.some.injEq] at hkey
      subst hkey
      exact Nat.one_pos)
  refine ⟨t, hread, ?_⟩
  apply (@enc_predicts_the_pairs_iff_empty_row_groups_have_pages_where_no_file_has_strings _ _ _ hset hloaded
    _ _ hsel _ _ hW _ harr (by decide) 1 1 Nat.one_pos _ _ hread 0 (by decide) rfl 1 true rfl).mpr
  intro _
  refine iff_of_true (fun s hs g n hn _ => ?_) ?_
  · cases List.mem_singleton.mp hs
    exact (hgroups g n hn).2
  · rintro ⟨s, hs, _, hno⟩
    cases List.mem_singleton.mp hs
    exact hno _ _ rfl

end parquet_interop.read
