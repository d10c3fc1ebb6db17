-- The codes of a pair as indexes into its dictionary, whatever the statistics
-- of the chunks say: every code indexes it, or a row without a value does not.
import ParquetInterop.DictUnion

open parquet_interop.ffi parquet_interop.footer
open lib.blocks lib.jobs lib.stores

namespace parquet_interop.read

/-! ## The decode of a pair -/

section
variable {W : World} {set : FileSet} {sel : Sel} {content : Content} {g0 g1 : Nat}
  {owner : ArrayId → Nat}

/-- A column that stays a pair was not given up, and no second read has touched its vector. -/
theorem rereads_pair {rgs : List Rg} {gives : Nat → Bool} {who : String} {k : Nat} {ps : List Nat}
    {c c' : Cols} (h : Rereads W set sel rgs gives who k ps c (.ok c')) {p : Nat} {cd : Codes}
    (hcd : c'.cds p = some cd) (hp : p < sel.out.length) (hcolv : c.colv p = p) :
    (p ∈ ps → gives p = false) ∧ c'.colv p = p ∧ ∀ i, c'.mem ⟨p, i⟩ = c.mem ⟨p, i⟩ := by
  generalize hr : (Except.ok c' : Except String Cols) = r at h
  induction h with
  | nil =>
    cases hr
    exact ⟨fun hin => absurd hin List.not_mem_nil, hcolv, fun _ => rfl⟩
  | @keep q ps c r hno hrest ih =>
    obtain ⟨hgives, hsame⟩ := ih hcolv hr
    refine ⟨fun hin => ?_, hsame⟩
    rcases List.mem_cons.mp hin with rfl | hin
    · subst hr
      rw [rereads_cds hrest hcd] at hno
      simpa using hno
    · exact hgives hin
  | failed _ _ => cases hr
  | @again q ps c m r _ hd hrest ih =>
    subst hr
    have hold := rereads_cds hrest hcd
    dsimp only at hold
    split at hold
    · cases hold
    · rename_i hpq
      obtain ⟨hgives, hcolv', hmem⟩ := ih ((if_neg hpq).trans hcolv) rfl
      refine ⟨fun hin => hgives ?_, hcolv', fun i => ?_⟩
      · exact (List.mem_cons.mp hin).resolve_left hpq
      · rw [hmem]
        -- The second read is into a vector behind those of the positions.
        exact decode_frame hd fun _ _ _ _ hvec => by
          simp only at hvec
          omega

/-! ## The codes of the rows -/

/-- The rows of a column of a window. -/
def windowRows (content : Content) (srcs : List Src) (c g0 g1 : Nat) : List (Option Val) :=
  (slice (groupsOf srcs) g0 g1).flatMap fun x => ((srcs[x.f]?).map fun s => content s x.g c).getD []

/-- A code, read as the unsigned number that it is. -/
def unsignedCode : Cell → Option Nat
  | .g x => some x.toNat
  | .h x => some x.toUInt16.toNat
  | .i x => some x.toUInt32.toNat
  | _ => none

theorem unsigned_narrow {n : Nat} {id : UInt32} (hid : id.toNat < n) :
    unsignedCode (narrow (width n) id) = some id.toNat := by
  unfold width
  split
  · have h : id.toUInt8.toNat = id.toNat := by
      rw [UInt32.toNat_toUInt8]
      exact Nat.mod_eq_of_lt (by omega)
    exact congrArg some h
  · split
    · have h : id.toUInt16.toNat = id.toNat := by
        rw [UInt32.toNat_toUInt16]
        exact Nat.mod_eq_of_lt (by omega)
      exact congrArg some h
    · rfl

/-- What a plan stores for a row: the id of its bytes, in the width of the codes. -/
def rowCell (cd : Codes) (x : Option Val) : Option Cell :=
  ((rowBytes x).bind fun b => cd.ix.lookup b).map (narrow cd.lt)

theorem codeOf_iff {cd : Codes} {x : Option Val} {c : Cell} : CodeOf cd x c ↔ rowCell cd x = some c := by
  unfold CodeOf rowCell
  simp only [Option.map_eq_some_iff, Option.bind_eq_some_iff]
  constructor
  · rintro ⟨b, id, hb, hid, rfl⟩
    exact ⟨id, ⟨b, hb, hid⟩, rfl⟩
  · rintro ⟨id, ⟨b, hb, hid⟩, rfl⟩
    exact ⟨b, id, hb, hid, rfl⟩

/-- Cells that are all those of the rows have in common what the rows have. -/
theorem forall_cells {f : Option Val → Option Cell} {rows : List (Option Val)} {cs : List Cell}
    (h : cs.map some = rows.map f) (P : Cell → Prop) :
    (∀ c ∈ cs, P c) ↔ ∀ x ∈ rows, ∃ c, f x = some c ∧ P c := by
  have hiff : (∀ o ∈ cs.map some, ∃ c, o = some c ∧ P c) ↔ ∀ o ∈ rows.map f, ∃ c, o = some c ∧ P c := by
    rw [h]
  simpa only [List.forall_mem_map, Option.some.injEq, exists_eq_left'] using hiff

/-- Rows that are delivered are rows of a row group that is laid out. -/
theorem windowRows_eq (hW : Faithful W set.srcs content) (c : Nat) :
    windowRows content set.srcs c g0 g1 = (layout set.srcs g0 g1).1.flatMap fun r =>
      ((set.srcs[r.f]?).map fun s => content s r.g c).getD [] := by
  symm
  apply layoutFrom_flatMap (fun f g => ((set.srcs[f]?).map fun s => content s g c).getD []) g0 g1 0 0
  intro x hx hzero
  obtain ⟨s, hs, hn⟩ := mem_groupsOf hx
  have hlen := hW.rows s (List.mem_of_getElem? hs) x.g x.rows hn c
  rw [hzero] at hlen
  rw [hs, Option.map_some, Option.getD_some]
  exact List.eq_nil_of_length_eq_zero hlen

/-- An id of the patched plan has a place in the dictionary, or it is the one of the empty symbol,
right behind it. -/
theorem patched_id {cd : Codes} {vs : List (List UInt8)} (hof : cd.Of vs) (hsound : cd.Sound)
    (hlen : cd.d.length ≤ I32_MAX) {b : List UInt8} {id : UInt32}
    (h : cd.patched.ix.lookup b = some id) :
    (cd.ix.lookup b = some id ∧ id.toNat < cd.d.length ∧ b ∈ vs) ∨
      [] ∉ vs ∧ b = [] ∧ id.toNat = cd.d.length := by
  unfold I32_MAX at hlen
  have hplace : cd.ix.lookup b = some id → cd.ix.lookup b = some id ∧ id.toNat < cd.d.length ∧ b ∈ vs := by
    intro hid
    have hget := hsound.fits (by omega) b id hid
    exact ⟨hid, (List.getElem?_eq_some_iff.mp hget).1, (hof.ix b).mp (by simp [hid])⟩
  by_cases hb : b = []
  · subst hb
    unfold Codes.patched at h
    split at h
    · exact Or.inl (hplace h)
    · rename_i hnone
      have hout : [] ∉ vs := fun hin => hnone ((hof.ix []).mpr hin)
      have hempty : cd.empty = id := by simpa using h
      refine Or.inr ⟨hout, rfl, ?_⟩
      rw [← hempty, hof.absent hout, Nat.toUInt32_eq, UInt32.toNat_ofNat']
      exact Nat.mod_eq_of_lt (by omega)
  · rw [patched_lookup hb] at h
    exact Or.inl (hplace h)

/-- A row that has a code has bytes and an id for them, in the dictionary or right behind it. -/
theorem row_coded {cd : Codes} {vs : List (List UInt8)} (hof : cd.Of vs) (hsound : cd.Sound)
    (hlen : cd.d.length ≤ I32_MAX) {x : Option Val} {c : Cell} (h : rowCell cd.patched x = some c) :
    ∃ b id, rowBytes x = some b ∧ cd.patched.ix.lookup b = some id ∧ c = narrow cd.lt id ∧
      unsignedCode c = some id.toNat ∧
      ((cd.ix.lookup b = some id ∧ id.toNat < cd.d.length ∧ b ∈ vs) ∨
        [] ∉ vs ∧ b = [] ∧ id.toNat = cd.d.length) := by
  obtain ⟨b, id, hb, hid, rfl⟩ := codeOf_iff.mpr h
  have hplace := patched_id hof hsound hlen hid
  refine ⟨b, id, hb, hid, rfl, ?_, hplace⟩
  rw [show cd.patched.lt = cd.lt from rfl, hof.lt_eq hsound hlen]
  apply unsigned_narrow
  rcases hplace with ⟨-, hlt, -⟩ | ⟨hout, -, heq⟩
  · split <;> omega
  · rw [if_neg hout]
    omega

/-- The codes of a pair are those of the rows of the window. -/
theorem pair_cells (hsel : Selected set sel) (hloaded : ∀ s ∈ set.srcs, Loaded s)
    (hW : Faithful W set.srcs content) (harr : CodedArrays W set.srcs owner)
    (hfits : countedRows (windowCounts set.srcs g0 g1) < 2 ^ 64) {nthreads k : Nat} (hk : 0 < k)
    {codes : Bool} {who : String} {m : Mem Nat Cell} {t : Table}
    (h : Reads W nthreads k set sel g0 g1 codes who m (.ok t)) {p : Nat} {d : List Sym} {lt : LType}
    {cs : List Cell} (hp : t.columns[p]? = some (.pair d lt cs)) :
    ∃ cd, codesPlan W set.srcs (layout set.srcs g0 g1).1 (sel.col p) who = .ok (some cd) ∧
      d = cd.d ∧ d.length ≤ I32_MAX ∧
      cs.map some = (windowRows content set.srcs (sel.col p) g0 g1).map (rowCell cd.patched) := by
  obtain ⟨⟨rgs, total, parts, cds⟩, m', c, cd, hplan, hd, hre, hlt, hcd, rfl, rfl, rfl, hlen⟩ := pair_cases h hp
  obtain ⟨hwindow, ⟨ways, hparts⟩, hcds, _⟩ := planOf_cases hplan
  dsimp only at hwindow hparts hcds hd hre
  subst hparts
  have hlayout := (window_ok hwindow).1
  have hrows : countedRows (windowCounts set.srcs g0 g1) ≤ I32_MAX := by
    obtain ⟨heq, hle⟩ := rows_le_of_window hfits hwindow
    exact heq ▸ hle
  have hrgs : rgs = (layout set.srcs g0 g1).1 := by rw [hlayout]
  have htotal : total = (layout set.srcs g0 g1).2 := by rw [hlayout]
  subst hrgs htotal
  have hcd0 := rereads_cds hre hcd
  dsimp only at hcd0
  obtain ⟨_, hks, hplanned⟩ := hcds.lt p cd hcd0
  obtain ⟨hgives, hcolv, hmem⟩ := rereads_pair hre hcd hlt rfl
  have hgive := hgives (List.mem_range.mpr hlt)
  have hland := decode_landed (pairs_fits hsel hloaded hW harr hcds) (pairs_runs W sel owner cds)
    (window_laid_out hrows who).2.2 hk hd
  have hground : (Ground.pairs W sel owner cds).cds p = some cd.patched :=
    congrArg (Option.map Codes.patched) hcd0
  -- Each row of the window has the code of its bytes.
  have hcode : ∀ r ∈ (layout set.srcs g0 g1).1, ∀ s, set.srcs[r.f]? = some s → ∀ (j : Nat) x,
      (content s r.g (sel.col p))[j]? = some x →
        some (m'.mem ⟨p, r.off + j⟩) = rowCell cd.patched x := by
    intro r hr s hs j x hx
    rcases hland r hr p hlt hks with ⟨_, hg⟩ | hrow
    · rw [hgive] at hg
      cases hg
    · have hrow := hrow s hs j x hx
      unfold Ground.RowIs at hrow
      rw [hground] at hrow
      exact (codeOf_iff.mp hrow).symm
  refine ⟨cd, hplanned, rfl, hlen, ?_⟩
  have hcells : (cells c.mem (c.colv p) (layout set.srcs g0 g1).2).map some =
      (List.range (layout set.srcs g0 g1).2).map fun i => some (m'.mem ⟨p, i⟩) := by
    unfold cells
    rw [List.map_map, hcolv]
    apply List.map_congr_left
    intro i _
    exact congrArg some (hmem i)
  have hmap : (List.range (layout set.srcs g0 g1).2).map (fun i => some (m'.mem ⟨p, i⟩)) =
      (slice (groupsOf set.srcs) g0 g1).flatMap fun x =>
        ((set.srcs[x.f]?).map fun s => (content s x.g (sel.col p)).map (rowCell cd.patched)).getD [] :=
    window_map hW hrows hcode
  rw [hcells, hmap]
  unfold windowRows
  rw [List.map_flatMap]
  congr 1
  funext x
  cases set.srcs[x.f]? <;> rfl

end

/-! ## The law of the codes -/

/-- Every code of a pair is less than the count of its dictionary if and only if the union has the
empty symbol, or no row of the window reads as it: without it, its id is the one behind the last. -/
theorem codes_index_the_dictionary_iff_no_row_lacks_its_symbol {srcs : List Src} {who : String}
    {set : FileSet} (hset : agree srcs who = .ok set) {want : Option (List String)} {sel : Sel}
    (hsel : select set want who = .ok sel) (hloaded : ∀ s ∈ srcs, Loaded s) {W : World}
    {content : Content} (hW : Faithful W srcs content) {owner : ArrayId → Nat}
    (harr : CodedArrays W srcs owner) {g0 g1 : Nat}
    (hfits : countedRows (windowCounts srcs g0 g1) < 2 ^ 64) {nthreads k : Nat} (hk : 0 < k)
    {codes : Bool} {m : Mem Nat Cell} {t : Table}
    (h : Reads W nthreads k set sel g0 g1 codes who m (.ok t)) {p : Nat} {d : List Sym} {lt : LType}
    {cs : List Cell} (hp : t.columns[p]? = some (.pair d lt cs)) :
    (∀ c ∈ cs, ∃ i, unsignedCode c = some i ∧ i < d.length) ↔
      [] ∈ unionValues W srcs (layout srcs g0 g1).1 (sel.col p) who ∨
        ∀ x ∈ windowRows content srcs (sel.col p) g0 g1, rowBytes x ≠ some [] := by
  obtain ⟨hsrcs, _⟩ := agree_cases hset
  subst hsrcs
  obtain ⟨cd, hplan, rfl, hlen, hcodes⟩ :=
    pair_cells (select_selected hset hsel) hloaded hW harr hfits hk h hp
  have hof := codesPlan_of hplan
  have hsound := (codesPlan_sound hplan).1
  rw [forall_cells hcodes]
  constructor
  · intro hall
    by_cases hin : [] ∈ unionValues W set.srcs (layout set.srcs g0 g1).1 (sel.col p) who
    · exact Or.inl hin
    · refine Or.inr fun x hx hempty => ?_
      obtain ⟨c, hc, i, hi, hlt⟩ := hall x hx
      obtain ⟨b, id, hb, _, _, hcode, hplace⟩ := row_coded hof hsound hlen hc
      rw [hcode] at hi
      cases hi
      rw [hempty] at hb
      cases hb
      rcases hplace with ⟨-, -, hmem⟩ | ⟨-, -, heq⟩
      · exact hin hmem
      · omega
  · intro hcond x hx
    have hsome := List.mem_map_of_mem (f := rowCell cd.patched) hx
    rw [← hcodes] at hsome
    obtain ⟨c, _, hc⟩ := List.mem_map.mp hsome
    obtain ⟨b, id, hb, _, _, hcode, hplace⟩ := row_coded hof hsound hlen hc.symm
    refine ⟨c, hc.symm, id.toNat, hcode, ?_⟩
    rcases hplace with ⟨-, hlt, -⟩ | ⟨hout, rfl, -⟩
    · exact hlt
    · rcases hcond with hin | hno
      · exact absurd hin hout
      · exact absurd hb (hno x hx)

/-- One page with the entry `a`, and the rows `a` and a null, which the statistics deny: the crate
tells a null count of 0, as it does where the footer has none. -/
def lyingWorld : World := dictWorld (fun _ => ["a"]) fun _ => Prim.ofContent [some 0, none]

def lyingSrc : Src := dictSrc [2] (some ⟨some 0, .other⟩)

theorem lyingWorld_read :
    ∃ t, Reads lyingWorld 1 1 (dictSet [2] (some ⟨some 0, .other⟩)) dictSel 0 1 true "pq_read"
        (fun _ => .g 0) (.ok t) ∧
      t.columns[0]? = some (.pair [⟨[97]⟩] .KG [.g 0, .g 1]) := by
  have hplan : codesPlan lyingWorld [lyingSrc] [⟨0, 0, 0, 2⟩] 0 "pq_read" =
      .ok (some ⟨[⟨[97]⟩], [([97], 0)], 1, .KG⟩) := by rfl
  have hlut : lutOf ⟨[⟨[97]⟩], [([97], 0)], 1, .KG⟩ [some "a"] = some [0] := by rfl
  obtain ⟨t, hread, hcol⟩ := dict_read (fun _ => ["a"]) (fun _ => Prim.ofContent [some 0, none]) 2
    (some ⟨some 0, .other⟩) rfl hplan (by decide) hlut
  refine ⟨t, hread, ?_⟩
  rw [hcol]
  have hcells : cells (run (fun _ => .g 0) (dictStores ⟨[⟨[97]⟩], [([97], 0)], 1, .KG⟩
      (Prim.ofContent [some 0, none]) [0])) 0 2 = [.g 0, .g 1] := by
    have hrow := fun i (x : Option Int) => run_fill_nulls (fun _ => Cell.g 0) (Prim.ofContent [some 0, none])
      0 0 (fun k => narrow .KG (([0][asUsizeKey k]?).getD 1)) (narrow .KG 1) (i := i) (x := x)
    rw [content_ofContent] at hrow
    have h0 := hrow 0 (some 0) rfl
    have h1 := hrow 1 none rfl
    simp only [cells, List.range, List.range.loop, List.map_cons, List.map_nil, dictStores]
    simp only [Nat.zero_add] at h0 h1
    rw [h0, h1]
    rfl
  exact congrArg (fun cs => some (Column.pair _ _ cs)) hcells

/-- The null gets the id 1, and the dictionary has one symbol. -/
theorem a_denied_null_is_out_of_range :
    ∃ t d lt cs, Reads lyingWorld 1 1 (dictSet [2] (some ⟨some 0, .other⟩)) dictSel 0 1 true "pq_read"
        (fun _ => .g 0) (.ok t) ∧
      t.columns[0]? = some (.pair d lt cs) ∧
      ∃ c ∈ cs, ∃ i, unsignedCode c = some i ∧ d.length ≤ i := by
  obtain ⟨t, hread, hcol⟩ := lyingWorld_read
  exact ⟨t, _, _, _, hread, hcol, .g 1, by simp, 1, rfl, le_rfl⟩

/-- The rows of the file of one row group. -/
def dictContent (pages : Nat → List String) (keys : Nat → Prim Int) : Content :=
  fun _ g _ => (dictColumn keys g 0).content (dictWorld pages keys).crate.heap

theorem dictWorld_brings {pages : Nat → List String} {keys : Nat → Prim Int} {s : Src} {g c : Nat}
    {ks : Prim Int} {values : ArrayId} (h : Brings (dictWorld pages keys) s g c ks values) :
    c = 0 ∧ ks = keys g ∧ values = g := by
  obtain ⟨roots, bs, b, hb, i, arr, hbs, hi, harr, hd⟩ := h
  have hone := Except.ok.inj hbs
  match bs with
  | [b'] =>
    rw [List.mem_singleton] at hb
    subst hb
    rw [← Except.ok.inj (List.cons.inj hone).1] at harr
    simp only [dictBatch, List.getElem?_map, hi, Option.map_some, Option.some.injEq] at harr
    subst harr
    unfold dictColumn at hd
    split at hd
    · rename_i hc
      cases hd
      exact ⟨hc, rfl, rfl⟩
    · cases hd

/-- The crates hand out what a file of one dictionary column holds. -/
theorem dictWorld_faithful (pages : Nat → List String) (keys : Nat → Prim Int) {src : Src}
    (hone : ∀ c lt, lTypeOf (typeAt src c) = .ok lt → c = 0)
    (hdict : typeAt src 0 = .dictionary .int32 .utf8)
    (hn : ∀ (g : Nat) n, src.rg_rows[g]? = some n → (keys g).values.length = asUsize n)
    (hkeys : ∀ g k, some k ∈ (keys g).content → asUsizeKey k < (pages g).length) :
    Faithful (dictWorld pages keys) [src] (dictContent pages keys) ∧
      CodedArrays (dictWorld pages keys) [src] fun _ => 0 := by
  have htyped : ∀ g, (dictColumn keys g 0).Typed (dictWorld pages keys).crate.heap := fun g => ⟨rfl, _, rfl⟩
  refine ⟨⟨safe_lawful _, ?rows, ?typed⟩, fun c s _ g ks values h => (dictWorld_brings h).1, ?inside⟩
  case rows =>
    intro s hs g n hg c
    cases List.mem_singleton.mp hs
    rw [← hn g n hg]
    exact (htyped g).length_content
  case typed =>
    intro s hs g n roots bs hg _ hlts hbs _ i c hc
    cases List.mem_singleton.mp hs
    obtain rfl : c = 0 := by
      obtain ⟨lt, hlt⟩ := hlts c (List.mem_of_getElem? hc)
      exact hone c lt hlt
    have hone := Except.ok.inj hbs
    match bs with
    | [b] =>
      have hb := Except.ok.inj (List.cons.inj hone).1
      have hcol : b.columns[i]? = some (dictColumn keys g 0) := by
        rw [← hb]
        simp only [dictBatch, List.getElem?_map, hc, Option.map_some]
      refine ⟨fun b' hb' => ⟨_, List.mem_singleton.mp hb' ▸ hcol, hdict.symm, htyped g⟩, ?_⟩
      rw [List.flatMap_singleton]
      unfold batchRows
      rw [hcol]
      rfl
  case inside =>
    intro c s _ g ks values h vs hvs k hk
    obtain ⟨_, rfl, rfl⟩ := dictWorld_brings h
    cases hvs
    rw [List.length_map]
    exact hkeys _ k hk

/-- A file of one symbol column has no other column. -/
theorem dictSrc_one {n : Int64} {st : Option Statistics} {c : Nat} {lt : LType}
    (h : lTypeOf (typeAt (dictSrc [n] st) c) = .ok lt) : c = 0 := by
  cases c with
  | zero => rfl
  | succ c => cases h

def lyingContent : Content := dictContent (fun _ => ["a"]) fun _ => Prim.ofContent [some 0, none]

theorem lyingWorld_faithful : Faithful lyingWorld [lyingSrc] lyingContent ∧
    CodedArrays lyingWorld [lyingSrc] fun _ => 0 := by
  refine dictWorld_faithful _ _ (fun _ _ => dictSrc_one) rfl (fun g n hg => ?_) fun g k hk => ?_
  · cases g with
    | zero =>
      cases hg
      rfl
    | succ g => cases hg
  · rw [content_ofContent] at hk
    simp at hk
    subst hk
    decide

theorem the_denied_null_reads_as_the_absent_symbol :
    ¬([] ∈ unionValues lyingWorld [lyingSrc] (layout [lyingSrc] 0 1).1 0 "pq_read" ∨
      ∀ x ∈ windowRows lyingContent [lyingSrc] 0 0 1, rowBytes x ≠ some []) := by
  have hset : agree [lyingSrc] "pq_read" = .ok (dictSet [2] (some ⟨some 0, .other⟩)) := rfl
  have hsel : select (dictSet [2] (some ⟨some 0, .other⟩)) none "pq_read" = .ok dictSel := rfl
  have hloaded : ∀ s ∈ [lyingSrc], Loaded s := by
    intro s hs
    cases List.mem_singleton.mp hs
    exact ⟨rfl, rfl, rfl⟩
  obtain ⟨hW, harr⟩ := lyingWorld_faithful
  obtain ⟨t, hread, hcol⟩ := lyingWorld_read
  intro hcond
  obtain ⟨i, hi, hlt⟩ := (codes_index_the_dictionary_iff_no_row_lacks_its_symbol hset hsel hloaded hW harr
    (show countedRows (windowCounts [lyingSrc] 0 1) < 2 ^ 64 by decide) Nat.one_pos hread hcol).mpr hcond
      (.g 1) (by simp)
  cases hi
  exact absurd hlt (by decide)

end parquet_interop.read
