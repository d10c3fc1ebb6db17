-- What a column that is read with codes says: the dictionary at the code of a row
-- is the symbol of the plain read, unless a chunk told no nulls and has one.
import ParquetInterop.GiveUp

open parquet_interop.ffi parquet_interop.footer
open lib.blocks lib.jobs lib.stores

namespace parquet_interop.read

/-! ## The rows of a pair -/

/-- The column comes back as a pair: every chunk of the window is told as dictionary-encoded and has
a page with entries, every file hands out a dictionary, and no value is outside the union. -/
def Paired (W : World) (set : FileSet) (sel : Sel) (rgs : List Rg) (parts : List Part) (p : Nat)
    (who : String) : Prop :=
  (rgs ≠ [] ∧ allDict set.srcs rgs (sel.col p) ∧ ¬EmptyPage W set.srcs rgs (sel.col p) who) ∧
    ¬Inflated set.srcs rgs (sel.col p) ∧ ¬Outside W set sel rgs parts p who

/-- A chunk whose null count is reported, and as 0, has no null row. The crate reports it so also
where the footer has no null count. -/
def NoneDenied (content : Content) (srcs : List Src) (rgs : List Rg) (c : Nat) : Prop :=
  ∀ r ∈ rgs, ∀ s, srcs[r.f]? = some s → mayHoldNulls s r.g c = false → none ∉ content s r.g c

/-- A symbol column has the symbols of its rows, whatever the types of its files. -/
theorem windowCells_sym (content : Content) (srcs : List Src) (c g0 g1 : Nat) (dt : DataType) :
    windowCells content srcs .KS c g0 g1 = (windowRows content srcs c g0 g1).map (cell .KS dt) := by
  have hcell : ∀ (dt' : DataType) (x : Option Val), cell .KS dt' x = cell .KS dt x := by
    rintro dt' (_ | v)
    · rfl
    · cases v <;> rfl
  unfold windowCells groupCells windowRows
  rw [List.map_flatMap]
  congr 1
  funext x
  cases srcs[x.f]? with
  | none => rfl
  | some s => exact List.map_congr_left fun x _ => hcell _ x

theorem cell_of_bytes {x : Option Val} {b : List UInt8} (h : rowBytes x = some b) (dt : DataType) :
    cell .KS dt x = .s (intern b) := by
  cases x with
  | none =>
    cases h
    rfl
  | some v =>
    cases v <;> cases h
    rfl

/-- Cells that are those of the rows are mapped like the rows when each of them is. -/
theorem map_cells {T : Type} {f : Option Val → Option Cell} {rows : List (Option Val)} {cs : List Cell}
    (h : cs.map some = rows.map f) (F : Cell → T) (G : Option Val → T) :
    cs.map F = rows.map G ↔ ∀ x ∈ rows, ∃ c, f x = some c ∧ F c = G x := by
  have hF : (cs.map F).map some = rows.map fun x => (f x).map F := by
    rw [List.map_map]
    have hcells := congrArg (List.map (Option.map F)) h
    rw [List.map_map, List.map_map] at hcells
    exact hcells
  have hG : (rows.map G).map some = rows.map fun x => some (G x) := List.map_map
  rw [← (List.map_injective_iff.mpr (Option.some_injective T)).eq_iff, hF, hG, List.map_inj_left]
  simp only [Option.map_eq_some_iff]

/-- The dictionary at the code of a row is the symbol of the row, unless the row reads as the empty
symbol and the union does not have it. -/
theorem code_reads_iff {cd : Codes} {vs : List (List UInt8)} (hof : cd.Of vs) (hsound : cd.Sound)
    (hlen : cd.d.length ≤ I32_MAX) {x : Option Val} {c : Cell} (h : rowCell cd.patched x = some c)
    (dt : DataType) :
    (indexed cd.d c).map Cell.s = some (cell .KS dt x) ↔ [] ∈ vs ∨ rowBytes x ≠ some [] := by
  obtain ⟨b, id, hb, _, rfl, _, hplace⟩ := row_coded hof hsound hlen h
  rw [cell_of_bytes hb]
  rcases hplace with ⟨hid, -, hin⟩ | ⟨hout, rfl, hbehind⟩
  · rw [indexed_id hsound hlen hid]
    refine iff_of_true rfl ?_
    by_cases hempty : b = []
    · exact Or.inl (hempty ▸ hin)
    · exact Or.inr fun h => hempty (Option.some.inj (hb.symm.trans h))
  · rw [hof.lt_eq hsound hlen, if_neg hout, indexed_behind hlen hbehind]
    refine iff_of_false nofun ?_
    rintro (hin | hne)
    · exact hout hin
    · exact hne hb

/-- Where the union has no empty symbol every chunk told that it has no null. -/
theorem told_none {W : World} {srcs : List Src} {rgs : List Rg} {c : Nat} {who : String}
    (hout : [] ∉ unionValues W srcs rgs c who) {r : Rg} (hr : r ∈ rgs) {s : Src}
    (hs : srcs[r.f]? = some s) : mayHoldNulls s r.g c = false := by
  by_contra hmay
  have hany : anyNulls srcs rgs c = true := by
    refine List.any_eq_true.mpr ⟨r, hr, ?_⟩
    rw [hs]
    simpa using hmay
  refine hout (List.mem_append_right _ ?_)
  unfold emptyLast
  rw [if_pos hany]
  exact List.mem_singleton_self _

section
variable {W : World} {set : FileSet} {sel : Sel} {content : Content} {g0 g1 : Nat}
  {owner : ArrayId → Nat}

/-- In a pair whose union has no empty symbol only a null reads as it: an empty string, or a null
entry of a dictionary, is a value outside the union. -/
theorem empty_row_null (hsel : Selected set sel) (hloaded : ∀ s ∈ set.srcs, Loaded s)
    (hW : Faithful W set.srcs content) (harr : CodedArrays W set.srcs owner)
    (hfits : countedRows (windowCounts set.srcs g0 g1) < 2 ^ 64) {nthreads k : Nat} (hk : 0 < k)
    {who : String} {m : Mem Nat Cell} {t : Table}
    (h : Reads W nthreads k set sel g0 g1 true who m (.ok t)) {p : Nat} (hp : p < sel.out.length)
    (hks : sel.lt p = .KS) {d : List Sym} {lt : LType} {cs : List Cell}
    (hpair : t.columns[p]? = some (.pair d lt cs))
    (hout : [] ∉ unionValues W set.srcs (layout set.srcs g0 g1).1 (sel.col p) who) {r : Rg}
    (hr : r ∈ (layout set.srcs g0 g1).1) {s : Src} (hs : set.srcs[r.f]? = some s) {x : Option Val}
    (hx : x ∈ content s r.g (sel.col p)) (hempty : rowBytes x = some []) : x = none := by
  obtain ⟨_, hdict, hinside⟩ := (pair_iff hsel hloaded hW harr hfits hk h hp hks).mp ⟨d, lt, cs, hpair⟩
  obtain ⟨⟨rgs, total, parts, cds⟩, m', c, cd, hplan, hd, _⟩ := pair_cases h hpair
  obtain ⟨hwindow, _, hcds, _⟩ := planOf_cases hplan
  obtain ⟨hparts, _⟩ := planOf_get hplan hp hks
  dsimp only at hwindow hcds hparts hd
  have hlayout := (window_ok hwindow).1
  have hrows : countedRows (windowCounts set.srcs g0 g1) ≤ I32_MAX := by
    obtain ⟨heq, hle⟩ := rows_le_of_window hfits hwindow
    exact heq ▸ hle
  have hrgs : rgs = (layout set.srcs g0 g1).1 := by rw [hlayout]
  subst hparts hrgs
  obtain ⟨part, hpart, hq⟩ := outs_of_sym hsel hp hks (List.mem_of_getElem? hs)
    (splitWays nthreads (layout set.srcs g0 g1).1.length sel)
  obtain ⟨htyped, _, hmet⟩ := decode_met (pairs_fits hsel hloaded hW harr hcds) (pairs_runs W sel owner cds)
    (window_laid_out hrows who).2.2 hk hd hr hpart hq
  obtain ⟨arr, hmeets, hin⟩ := hmet s hs x hx
  obtain ⟨hdt, hty⟩ := htyped arr hmeets s hs
  have hdt : arr.data_type = typeAt s (sel.col p) := hdt
  -- The file hands out a dictionary, whose values are all in the union.
  obtain ⟨k, v, hkv⟩ : ∃ k v, typeAt s (sel.col p) = .dictionary k v := by
    by_contra hno
    exact hdict ⟨r, hr, s, hs, fun k v hkv => hno ⟨k, v, hkv⟩⟩
  obtain ⟨adt, data⟩ := arr
  obtain rfl : adt = .dictionary k v := hdt.trans hkv
  cases data with
  | dict keys values =>
    obtain ⟨_, vs, hvs⟩ := hty
    simp only [Arr.content, ArrData.content, hvs] at hin
    obtain ⟨key, _, rfl⟩ := List.mem_map.mp hin
    rcases hval : key.bind fun k => (vs[asUsizeKey k]?).join with _ | v
    · rfl
    · exfalso
      rw [hval, Option.map_some] at hempty
      obtain ⟨i, _, hi⟩ := Option.bind_eq_some_iff.mp hval
      have hmem := List.mem_of_getElem? (Option.join_eq_some_iff.mp hi)
      refine hinside ⟨r, hr, part, hpart, _, hmeets, keys, values, vs, rfl, hvs, some v, hmem, ?_⟩
      rw [Option.map_some, Option.getD_some, Option.some.inj hempty]
      exact hout
  | _ => exact hty.elim

/-- The rows of a pair that read as the empty symbol without having one are the nulls of chunks that
told none. -/
theorem none_denied_iff (hW : Faithful W set.srcs content) {who : String} {c : Nat}
    (hnull : [] ∉ unionValues W set.srcs (layout set.srcs g0 g1).1 c who →
      ∀ r ∈ (layout set.srcs g0 g1).1, ∀ s, set.srcs[r.f]? = some s → ∀ x ∈ content s r.g c,
        rowBytes x = some [] → x = none) :
    (∀ x ∈ windowRows content set.srcs c g0 g1,
        [] ∈ unionValues W set.srcs (layout set.srcs g0 g1).1 c who ∨ rowBytes x ≠ some []) ↔
      [] ∈ unionValues W set.srcs (layout set.srcs g0 g1).1 c who ∨
        NoneDenied content set.srcs (layout set.srcs g0 g1).1 c := by
  have hmem : ∀ x, x ∈ windowRows content set.srcs c g0 g1 ↔ ∃ r ∈ (layout set.srcs g0 g1).1,
      ∃ s, set.srcs[r.f]? = some s ∧ x ∈ content s r.g c := by
    intro x
    rw [windowRows_eq hW, List.mem_flatMap]
    refine exists_congr fun r => and_congr_right fun _ => ?_
    cases set.srcs[r.f]? <;> simp
  by_cases hin : [] ∈ unionValues W set.srcs (layout set.srcs g0 g1).1 c who
  · exact iff_of_true (fun _ _ => Or.inl hin) (Or.inl hin)
  constructor
  · intro h
    refine Or.inr fun r hr s hs _ hnone => ?_
    rcases h none ((hmem none).mpr ⟨r, hr, s, hs, hnone⟩) with h | h
    · exact hin h
    · exact h rfl
  · intro h x hx
    refine Or.inr fun hempty => ?_
    obtain ⟨r, hr, s, hs, hx⟩ := (hmem x).mp hx
    obtain rfl := hnull hin r hr s hs x hx hempty
    exact (h.resolve_left hin) r hr s hs (told_none hin hr hs) hx

/-- A pair says the plain column when its union has the empty symbol or no null is denied. -/
theorem pair_says_iff (hsel : Selected set sel) (hloaded : ∀ s ∈ set.srcs, Loaded s)
    (hW : Faithful W set.srcs content) (harr : CodedArrays W set.srcs owner)
    (hfits : countedRows (windowCounts set.srcs g0 g1) < 2 ^ 64) {nthreads k : Nat} (hk : 0 < k)
    {who : String} {m : Mem Nat Cell} {t : Table}
    (h : Reads W nthreads k set sel g0 g1 true who m (.ok t)) {p : Nat} (hp : p < sel.out.length)
    (hks : sel.lt p = .KS) {d : List Sym} {lt : LType} {cs : List Cell}
    (hpair : t.columns[p]? = some (.pair d lt cs)) :
    cs.length = countedRows (windowCounts set.srcs g0 g1) ∧
      (cs.map (fun c => (indexed d c).map Cell.s) =
          (windowCells content set.srcs .KS (sel.col p) g0 g1).map some ↔
        [] ∈ unionValues W set.srcs (layout set.srcs g0 g1).1 (sel.col p) who ∨
          NoneDenied content set.srcs (layout set.srcs g0 g1).1 (sel.col p)) := by
  obtain ⟨cd, hplan, rfl, hlen, hcells⟩ := pair_cells hsel hloaded hW harr hfits hk h hpair
  constructor
  · have hlength := congrArg List.length hcells
    have hrows := length_windowCells hW .KS (sel.col p) g0 g1
    rw [List.length_map, List.length_map] at hlength
    rwa [windowCells_sym content set.srcs (sel.col p) g0 g1 .utf8, List.length_map, ← hlength] at hrows
  · rw [windowCells_sym content set.srcs (sel.col p) g0 g1 .utf8, List.map_map, map_cells hcells,
      ← none_denied_iff hW fun hout r hr s hs x hx =>
        empty_row_null hsel hloaded hW harr hfits hk h hp hks hpair hout hr hs hx]
    refine forall₂_congr fun x hx => ?_
    have hsome := List.mem_map_of_mem (f := rowCell cd.patched) hx
    rw [← hcells] at hsome
    obtain ⟨c, _, hc⟩ := List.mem_map.mp hsome
    rw [← code_reads_iff (codesPlan_of hplan) (codesPlan_sound hplan).1 hlen hc.symm .utf8, ← hc]
    simp

end

/-! ## The law of the pairs -/

/-- A symbol column of a read with codes has one code for each row of the window, with the symbol
that a plain read delivers at the code of each row, or it is the plain column. That is so if and only
if the column does not come back as a pair, or the union has the empty symbol, or no chunk that is
told as one without nulls has a null row. -/
theorem a_column_reads_plain_iff_no_null_is_denied {srcs : List Src} {who : String} {set : FileSet}
    (hset : agree srcs who = .ok set) {want : Option (List String)} {sel : Sel}
    (hsel : select set want who = .ok sel) (hloaded : ∀ s ∈ srcs, Loaded s) {W : World}
    {content : Content} (hW : Faithful W srcs content) {owner : ArrayId → Nat}
    (harr : CodedArrays W srcs owner) {g0 g1 : Nat}
    (hfits : countedRows (windowCounts srcs g0 g1) < 2 ^ 64) {nthreads k : Nat} (hk : 0 < k)
    {m : Mem Nat Cell} {t : Table} (h : Reads W nthreads k set sel g0 g1 true who m (.ok t)) {p : Nat}
    (hp : p < sel.out.length) (hks : sel.lt p = .KS) :
    ((∃ d lt cs, t.columns[p]? = some (.pair d lt cs) ∧
        cs.length = countedRows (windowCounts srcs g0 g1) ∧
        cs.map (fun c => (indexed d c).map Cell.s) =
          (windowCells content srcs .KS (sel.col p) g0 g1).map some) ∨
      t.columns[p]? = some (.vec .KS (windowCells content srcs .KS (sel.col p) g0 g1)) ↔
        (Paired W set sel (layout srcs g0 g1).1
            (split set sel (splitWays nthreads (layout srcs g0 g1).1.length sel)) p who →
          [] ∈ unionValues W srcs (layout srcs g0 g1).1 (sel.col p) who ∨
            NoneDenied content srcs (layout srcs g0 g1).1 (sel.col p))) ∧
    ∀ nthreads' k' m' t', 0 < k' → Reads W nthreads' k' set sel g0 g1 false who m' (.ok t') →
      t'.columns[p]? = some (.vec .KS (windowCells content srcs .KS (sel.col p) g0 g1)) := by
  obtain ⟨hsrcs, _⟩ := agree_cases hset
  subst hsrcs
  have hselected := select_selected hset hsel
  refine ⟨?_, fun nthreads' k' m' t' hk' h' => ?_⟩
  · have hiff := pair_iff hselected hloaded hW harr hfits hk h hp hks
    rcases read_right hselected hloaded hW harr hfits hk h hp hks with ⟨-, d, lt, cs, hpair⟩ | hvec
    · obtain ⟨hrows, hright⟩ := pair_says_iff hselected hloaded hW harr hfits hk h hp hks hpair
      have hpaired := hiff.mp ⟨_, _, _, hpair⟩
      constructor
      · rintro (⟨d, lt', cs', hcol, -, heq⟩ | hcol) _
        · cases hpair.symm.trans hcol
          exact hright.mp heq
        · cases hpair.symm.trans hcol
      · exact fun hcond => Or.inl ⟨_, _, _, hpair, hrows, hright.mpr (hcond hpaired)⟩
    · refine iff_of_true (Or.inr hvec) fun hpaired => ?_
      obtain ⟨d, lt, cs, hpair⟩ := hiff.mpr hpaired
      cases hvec.symm.trans hpair
  · rcases read_right hselected hloaded hW harr hfits hk' h' hp hks with ⟨hcodes, -⟩ | hvec
    · cases hcodes
    · exact hvec

/-- The tags come back as a pair of the symbols `a`, `b` and the empty one. -/
theorem the_tags_are_a_pair :
    ∃ t cs, Reads tagWorld 2 1 ⟨[tagSrc], ["tag"], [.ok .KS]⟩ ⟨[0], [.KS], [0], [none]⟩ 0 2 true "pq_read"
        (fun _ => .g 0) (.ok t) ∧
      t.columns[0]? = some (.pair [⟨[97]⟩, ⟨[98]⟩, ⟨[]⟩] .KG cs) ∧ cs.length = 3 ∧
      cs.map (fun c => (indexed [⟨[97]⟩, ⟨[98]⟩, ⟨[]⟩] c).map Cell.s) =
        [some (.s ⟨[98]⟩), some (.s ⟨[]⟩), some (.s ⟨[98]⟩)] := by
  have hset : agree [tagSrc] "pq_read" = .ok ⟨[tagSrc], ["tag"], [.ok .KS]⟩ := rfl
  have hsel : select ⟨[tagSrc], ["tag"], [.ok .KS]⟩ none "pq_read" = .ok ⟨[0], [.KS], [0], [none]⟩ := rfl
  have hloaded : ∀ s ∈ [tagSrc], Loaded s := by
    intro s hs
    cases List.mem_singleton.mp hs
    exact ⟨rfl, rfl, rfl⟩
  obtain ⟨hW, _, harr⟩ := tagWorld_faithful
  have hread := read_alone (m := fun _ => .g 0) tags_plan (by decide) rfl (fun p hp => by
    cases Nat.lt_one_iff.mp hp
    decide +kernel) (fun p hp cd hcd => by
    cases Nat.lt_one_iff.mp hp
    cases hcd
    decide)
  have hempty : [] ∈ unionValues tagWorld [tagSrc] (layout [tagSrc] 0 2).1 0 "pq_read" :=
    List.mem_append_right _ (List.mem_singleton_self _)
  have hlaw := (a_column_reads_plain_iff_no_null_is_denied hset hsel hloaded hW harr
    (show countedRows (windowCounts [tagSrc] 0 2) < 2 ^ 64 by decide) (by decide) hread
    (show 0 < 1 by decide) rfl).1.mpr fun _ => Or.inl hempty
  rcases hlaw with ⟨d, lt, cs, hcol, hlen, hrows⟩ | hcol
  · cases hcol
    exact ⟨_, _, hread, rfl, hlen, hrows⟩
  · cases hcol

/-- The null has the code 1, at which the dictionary has no symbol: the footer has no null count and
the crate tells none. -/
theorem an_untold_null_reads_as_no_symbol :
    Faithful lyingWorld [lyingSrc] lyingContent ∧ CodedArrays lyingWorld [lyingSrc] (fun _ => 0) ∧
      windowCells lyingContent [lyingSrc] .KS 0 0 1 = [.s ⟨[97]⟩, .s ⟨[]⟩] ∧
      ∃ t d lt cs, Reads lyingWorld 1 1 (dictSet [2] (some ⟨some 0, .other⟩)) dictSel 0 1 true "pq_read"
          (fun _ => .g 0) (.ok t) ∧
        t.columns[0]? = some (.pair d lt cs) ∧
        cs.map (fun c => (indexed d c).map Cell.s) = [some (.s ⟨[97]⟩), none] := by
  obtain ⟨hW, harr⟩ := lyingWorld_faithful
  obtain ⟨t, hread, hcol⟩ := lyingWorld_read
  exact ⟨hW, harr, rfl, t, _, _, _, hread, hcol, rfl⟩

end parquet_interop.read
