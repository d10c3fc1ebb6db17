-- The dictionary of a pair: the order of its symbols, with pages that the hash
-- of their set skips, and the type of the codes that index it.
import ParquetInterop.DictPage
import ParquetInterop.Pairs
import ParquetInterop.SharedCursor
import ParquetInterop.Lib.FirstSeen

open parquet_interop.ffi parquet_interop.footer parquet_interop.par_map
open lib.firstseen

namespace parquet_interop.read

/-! ## The pages of a window -/

/-- The entries of a page, in its own order. -/
def DictBuf.entries (p : DictBuf) : List (List UInt8) := p.spans.map (entry p.buf)

/-- The hash and the entries of a page. -/
def DictBuf.page (p : DictBuf) : UInt64 × List (List UInt8) := (p.hash, p.entries)

/-- The dictionary pages of column `c`, in window order. -/
def windowPages (W : World) (srcs : List Src) (rgs : List Rg) (c : Nat) (who : String) :
    List (UInt64 × List (List UInt8)) :=
  rgs.filterMap fun r => (srcs[r.f]?).map fun s => ((dictPage W s r.g c who).map DictBuf.page).toOption.getD (0, [])

/-- Some chunk of the window has statistics that report a null, or that report no null count. -/
def anyNulls (srcs : List Src) (rgs : List Rg) (c : Nat) : Bool :=
  rgs.any fun r => ((srcs[r.f]?).map fun s => mayHoldNulls s r.g c).getD false

/-- The entries of the pages with later repeats removed, and the empty symbol behind them when it
is not there and a chunk may hold a null. -/
def firstSeen (W : World) (srcs : List Src) (rgs : List Rg) (c : Nat) (who : String) : List Sym :=
  let vs := (values (windowPages W srcs rgs c who)).eraseDups
  (vs ++ if [] ∉ vs ∧ anyNulls srcs rgs c then [[]] else []).map intern

/-- The value that nulls add behind the pages. -/
def emptyLast (srcs : List Src) (rgs : List Rg) (c : Nat) : List (List UInt8) :=
  if anyNulls srcs rgs c then [[]] else []

theorem firstSeen_eq (W : World) (srcs : List Src) (rgs : List Rg) (c : Nat) (who : String) :
    firstSeen W srcs rgs c who =
      (fresh [] (values (windowPages W srcs rgs c who) ++ emptyLast srcs rgs c)).map intern := by
  unfold firstSeen emptyLast
  rw [fresh_append, fresh_nil, List.nil_append]
  cases anyNulls srcs rgs c with
  | false => simp
  | true =>
    rw [if_pos rfl, fresh_singleton]
    by_cases h : ([] : List UInt8) ∈ values (windowPages W srcs rgs c who) <;> simp [h]

/-! ## The merge -/

/-- The union holds the values `vs`, in this order. -/
structure Union.Holds (u : Union) (vs : List (List UInt8)) : Prop where
  d : u.d = vs.map intern
  ix : ∀ v, (u.ix.lookup v).isSome = true ↔ v ∈ vs

theorem add_holds {u : Union} {vs : List (List UInt8)} (h : u.Holds vs) (v : List UInt8) :
    (u.add v).Holds (vs ++ fresh vs [v]) := by
  rw [fresh_singleton]
  unfold Union.add
  split
  · rename_i id hid
    have hv : v ∈ vs := (h.ix v).mp (by simp [hid])
    simpa [hv] using h
  · rename_i hnone
    have hv : v ∉ vs := fun hv => by simpa [hnone] using (h.ix v).mpr hv
    rw [if_neg hv]
    constructor
    case d => simp [h.d]
    case ix =>
      intro w
      simp only [List.lookup_cons, List.mem_append, List.mem_singleton]
      by_cases hw : w = v
      · simp [hw]
      · simp [beq_false_of_ne hw, hw, h.ix]

theorem foldl_add_holds {u : Union} {vs : List (List UInt8)} (h : u.Holds vs) (ws : List (List UInt8)) :
    (ws.foldl Union.add u).Holds (vs ++ fresh vs ws) := by
  induction ws generalizing u vs with
  | nil => simpa using h
  | cons w ws ih =>
    have hstep := ih (add_holds h w)
    have hseen := fresh_seen vs [w] ws
    rw [List.foldl_cons, show w :: ws = [w] ++ ws from rfl, fresh_append, ← List.append_assoc, ← hseen]
    exact hstep

/-- The merge takes the pages that are kept, and it is over at a page with no entry. -/
theorem mergePages_holds {ps : List (Except String DictBuf × Bool)} {u u' : Union}
    {vs : List (List UInt8)} (hu : u.Holds vs) (h : mergePages u ps = .ok (some u')) :
    ∃ qs : List DictBuf, ps.map Prod.fst = qs.map .ok ∧
      u'.Holds (vs ++ fresh vs (values (kept u.seen (qs.map DictBuf.page)))) ∧
      u'.nulls = (u.nulls || ps.any Prod.snd) := by
  induction ps generalizing u vs with
  | nil =>
    cases h
    exact ⟨[], rfl, by simpa [kept] using hu, by simp⟩
  | cons p ps ih =>
    obtain ⟨r, nulls⟩ := p
    cases r with
    | error e => cases h
    | ok p =>
      unfold mergePages at h
      split at h
      · cases h
      dsimp only at h
      rw [merge_nulls] at h
      unfold Union.merge at h
      by_cases hseen : p.hash ∈ u.seen
      · rw [if_pos hseen] at h
        obtain ⟨qs, hqs, hholds, hnulls⟩ := ih (u := { u with nulls := u.nulls || nulls }) ⟨hu.d, hu.ix⟩ h
        refine ⟨p :: qs, by simp [hqs], ?_, by simpa [Bool.or_assoc] using hnulls⟩
        rw [List.map_cons, kept_of_seen (by exact hseen)]
        exact hholds
      · rw [if_neg hseen] at h
        have hpage := foldl_add_holds hu p.entries
        obtain ⟨qs, hqs, hholds, hnulls⟩ := ih
          (u := { p.entries.foldl Union.add u with
            seen := p.hash :: u.seen, nulls := u.nulls || nulls }) ⟨hpage.d, hpage.ix⟩ h
        refine ⟨p :: qs, by simp [hqs], ?_, by simpa [Bool.or_assoc] using hnulls⟩
        rw [List.map_cons, kept_of_new (by exact hseen), values_cons, fresh_append, ← List.append_assoc]
        have hcongr : ∀ xs, fresh (vs ++ fresh vs p.entries) xs = fresh (vs ++ p.page.2) xs :=
          fresh_seen vs p.entries
        rw [← hcongr]
        exact hholds

/-- The values of a plan: those of the kept pages, and the empty one last when it joins. -/
def unionValues (W : World) (srcs : List Src) (rgs : List Rg) (c : Nat) (who : String) :
    List (List UInt8) :=
  values (kept [] (windowPages W srcs rgs c who)) ++ emptyLast srcs rgs c

/-- What the plan of a column is made of. -/
structure Codes.Of (cd : Codes) (vs : List (List UInt8)) : Prop where
  d : cd.d = (fresh [] vs).map intern
  ix : ∀ v, (cd.ix.lookup v).isSome = true ↔ v ∈ vs
  absent : [] ∉ vs → cd.empty = cd.d.length.toUInt32
  lt : cd.lt = width (max cd.d.length (cd.empty.toNat + 1))

theorem close_of {u : Union} {vs : List (List UInt8)} (h : u.Holds (fresh [] vs)) :
    u.close.Of (vs ++ if u.nulls then [[]] else []) := by
  unfold Union.close
  split
  · rename_i empty hempty
    have hin : ([] : List UInt8) ∈ vs := by simpa [hempty] using (h.ix []).mp (by simp [hempty])
    have hsame : fresh [] (vs ++ if u.nulls then [[]] else []) = fresh [] vs := by
      rw [fresh_append]
      cases u.nulls <;> simp [fresh_singleton, hin]
    constructor
    case d => rw [hsame, h.d]
    case ix =>
      intro v
      rw [h.ix]
      cases u.nulls with
      | false => simp
      | true =>
        simp
        rintro rfl
        exact hin
    case absent => exact fun hno => absurd (List.mem_append_left _ hin) hno
    case lt => rfl
  · rename_i hnone
    have hout : ([] : List UInt8) ∉ vs := fun hin => by simpa [hnone] using (h.ix []).mpr (by simpa using hin)
    cases hn : u.nulls with
    | false =>
      constructor
      case d => simp [h.d]
      case ix =>
        intro v
        simpa using h.ix v
      case absent => exact fun _ => rfl
      case lt => rfl
    | true =>
      constructor
      case d =>
        rw [fresh_append]
        simp [fresh_singleton, hout, h.d]
      case ix =>
        intro v
        simp only [if_true, List.lookup_cons, List.mem_append, List.mem_singleton]
        by_cases hv : v = []
        · simp [hv]
        · simpa [beq_false_of_ne hv, hv] using h.ix v
      case absent => simp
      case lt => rfl

/-- A plan holds the values of the kept pages of its window. -/
theorem codesPlan_of {W : World} {srcs : List Src} {rgs : List Rg} {c : Nat} {who : String}
    {cd : Codes} (h : codesPlan W srcs rgs c who = .ok (some cd)) :
    cd.Of (unionValues W srcs rgs c who) := by
  unfold codesPlan at h
  split at h
  · cases h
  dsimp only at h
  generalize hps : (rgs.filterMap fun r =>
    (srcs[r.f]?).map fun s => (dictPage W s r.g c who, mayHoldNulls s r.g c)) = ps at h
  rcases hm : mergePages ⟨[], [], false, []⟩ ps with e | _ | u
  · rw [hm] at h
    cases h
  · rw [hm] at h
    cases h
  rw [hm] at h
  cases h
  have hstart : (⟨[], [], false, []⟩ : Union).Holds [] := ⟨rfl, by simp⟩
  obtain ⟨qs, hqs, hholds, hnulls⟩ := mergePages_holds hstart hm
  have hpages : windowPages W srcs rgs c who = qs.map DictBuf.page := by
    have hmap : windowPages W srcs rgs c who =
        (ps.map Prod.fst).map fun r => (r.map DictBuf.page).toOption.getD (0, []) := by
      rw [← hps, List.map_map, List.map_filterMap]
      apply List.filterMap_congr
      intro r _
      cases srcs[r.f]? <;> rfl
    rw [hmap, hqs, List.map_map]
    rfl
  have hany : anyNulls srcs rgs c = u.nulls := by
    rw [hnulls, ← hps, Bool.false_or, anyNulls, List.any_filterMap]
    congr 1
    funext r
    cases srcs[r.f]? <;> rfl
  rw [List.nil_append, ← hpages] at hholds
  have hof := close_of hholds
  rw [← hany] at hof
  exact hof

/-! ## The parallel page reads -/

/-- The read of the page of row group `i` of the window. -/
def readPage (W : World) (srcs : List Src) (rgs : List Rg) (c : Nat) (who : String) (i : Nat) :
    Except String DictBuf :=
  match rgs[i]? with
  | none => .error "index out of bounds"
  | some r =>
    match srcs[r.f]? with
    | none => .error "index out of bounds"
    | some s => dictPage W s r.g c who

/-- The merge of the pages that came back, each with the statistics of its chunk. -/
def mergeOut (srcs : List Src) (rgs : List Rg) (c : Nat) (out : List (Except String DictBuf)) :
    Except String (Option Codes) :=
  (mergePages ⟨[], [], false, []⟩
    (out.zip (rgs.map fun r => ((srcs[r.f]?).map fun s => mayHoldNulls s r.g c).getD true))).map
      (·.map Union.close)

/-- `codes_plan` on the calling thread and `k` others: what it can answer when the page reads are
over, in whatever order they were taken and finished. -/
inductive PlansCodes (W : World) (srcs : List Src) (rgs : List Rg) (c : Nat) (who : String) (k : Nat) :
    Answer (Except String (Option Codes)) → Prop
  | plain : rgs = [] ∨ ¬allDict srcs rgs c → PlansCodes W srcs rgs c who k (.back (.ok none))
  | unwound {s} : rgs ≠ [] → allDict srcs rgs c →
      lib.runs.Reachable (lib.cursor.system (mapWork rgs.length (readPage W srcs rgs c who)) k ()) s →
      lib.cursor.Over s → MapAnswers rgs.length s .unwound → PlansCodes W srcs rgs c who k .unwound
  | panicked {s} : rgs ≠ [] → allDict srcs rgs c →
      lib.runs.Reachable (lib.cursor.system (mapWork rgs.length (readPage W srcs rgs c who)) k ()) s →
      lib.cursor.Over s → MapAnswers rgs.length s (.back none) →
      PlansCodes W srcs rgs c who k (.back (.error s!"{who}: dictionary panic"))
  | merged {s out} : rgs ≠ [] → allDict srcs rgs c →
      lib.runs.Reachable (lib.cursor.system (mapWork rgs.length (readPage W srcs rgs c who)) k ()) s →
      lib.cursor.Over s → MapAnswers rgs.length s (.back (some out)) →
      PlansCodes W srcs rgs c who k (.back (mergeOut srcs rgs c out))

/-- The order of the page reads does not reach the merge. -/
theorem plansCodes_eq {W : World} {srcs : List Src} {rgs : List Rg} {c : Nat} {who : String} {k : Nat}
    (hrgs : ∀ r ∈ rgs, r.f < srcs.length) {r : Except String (Option Codes)}
    (h : PlansCodes W srcs rgs c who k (.back r)) :
    r = codesPlan W srcs rgs c who ∨ r = .error s!"{who}: dictionary panic" := by
  generalize hans : Answer.back r = ans at h
  cases h with
  | plain hno =>
    cases hans
    left
    rw [codesPlan, if_pos hno]
  | unwound _ _ _ _ _ => cases hans
  | panicked _ _ _ _ _ =>
    cases hans
    exact Or.inr rfl
  | merged hne hall hreach _ hout =>
    cases hans
    left
    rw [codesPlan, if_neg (by simp [hne, hall]), (map_law hreach).answer _ hout, mergeOut]
    congr 2
    -- Slot `i` is the page of row group `i`.
    have hread : (List.range rgs.length).map (readPage W srcs rgs c who) =
        rgs.map fun r => ((srcs[r.f]?).map fun s => dictPage W s r.g c who).getD
          (.error "index out of bounds") := by
      apply List.ext_getElem?
      intro i
      rw [List.getElem?_map, List.getElem?_map]
      by_cases hi : i < rgs.length
      · rw [List.getElem?_range hi, List.getElem?_eq_getElem hi]
        simp only [Option.map_some, readPage, List.getElem?_eq_getElem hi]
        cases srcs[rgs[i].f]? <;> rfl
      · rw [List.getElem?_eq_none (by simpa using hi), List.getElem?_eq_none (by simpa using hi)]
        rfl
    rw [hread, List.zip_map', ← List.filterMap_eq_map]
    apply List.filterMap_congr
    intro r hr
    simp [List.getElem?_eq_getElem (hrgs r hr)]

/-! ## The pairs of an answer -/

/-- A second read takes plans away and brings none. -/
theorem rereads_cds {W : World} {set : FileSet} {sel : Sel} {rgs : List Rg} {gives : Nat → Bool}
    {who : String} {k : Nat} {ps : List Nat} {c c' : Cols}
    (h : Rereads W set sel rgs gives who k ps c (.ok c')) {p : Nat} {cd : Codes}
    (hcd : c'.cds p = some cd) : c.cds p = some cd := by
  generalize hr : (Except.ok c' : Except String Cols) = r at h
  induction h with
  | nil =>
    cases hr
    exact hcd
  | keep _ _ ih => exact ih hr
  | failed _ _ => cases hr
  | again _ _ _ ih =>
    have h := ih hr
    dsimp only at h
    split at h
    · cases h
    · exact h

/-- How a column comes back as a pair: it has a plan when the second reads are over. -/
theorem pair_cases {W : World} {nthreads k : Nat} {set : FileSet} {sel : Sel} {g0 g1 : Nat}
    {codes : Bool} {who : String} {m : lib.stores.Mem Nat Cell} {t : Table}
    (h : Reads W nthreads k set sel g0 g1 codes who m (.ok t)) {p : Nat} {d : List Sym} {lt : LType}
    {cs : List Cell} (hp : t.columns[p]? = some (.pair d lt cs)) :
    ∃ plan m' c cd, planOf W nthreads set sel g0 g1 codes who = .ok plan ∧
      Decodes W set sel plan.parts id (tasksOf plan.rgs plan.parts.length)
        (fun p => (plan.cds[p]?).join) who k ⟨m, fun _ => false⟩ m' (.ok ()) ∧
      Rereads W set sel plan.rgs m'.gives who k (List.range sel.out.length)
        ⟨m'.mem, fun p => (plan.cds[p]?).join, id⟩ (.ok c) ∧
      p < sel.out.length ∧ c.cds p = some cd ∧ d = cd.d ∧ lt = cd.lt ∧
      cs = cells c.mem (c.colv p) plan.total ∧ cd.d.length ≤ I32_MAX := by
  generalize hr : (Except.ok t : Except String Table) = r at h
  cases h with
  | refused _ => cases hr
  | failed _ _ => cases hr
  | @answered plan m' r hplan hd hre hshort =>
    cases r with
    | error e => cases hr
    | ok c =>
      cases hr
      have hlt : p < sel.out.length := by
        by_contra hge
        unfold tableOf at hp
        rw [List.getElem?_map, List.getElem?_eq_none (by simpa using hge)] at hp
        cases hp
      rw [tableOf_column set plan.total codes c hlt] at hp
      unfold columnOf at hp
      split at hp
      · rename_i cd hcd
        cases hp
        exact ⟨plan, m', c, cd, hplan, hd, hre, hlt, hcd, rfl, rfl, rfl, hshort c rfl p hlt cd hcd⟩
      · cases hp

/-- A column that comes back as a pair has a plan over its window, and the answer has the
dictionary and the type of the plan. -/
theorem pair_planned {W : World} {nthreads k : Nat} {set : FileSet} {sel : Sel} {g0 g1 : Nat}
    {codes : Bool} {who : String} {m : lib.stores.Mem Nat Cell} {t : Table}
    (h : Reads W nthreads k set sel g0 g1 codes who m (.ok t)) {p : Nat} {d : List Sym} {lt : LType}
    {cs : List Cell} (hp : t.columns[p]? = some (.pair d lt cs)) :
    ∃ cd, codesPlan W set.srcs (layout set.srcs g0 g1).1 (sel.col p) who = .ok (some cd) ∧
      d = cd.d ∧ lt = cd.lt ∧ d.length ≤ I32_MAX := by
  obtain ⟨plan, m', c, cd, hplan, _, hre, _, hcd, rfl, rfl, _, hlen⟩ := pair_cases h hp
  obtain ⟨hwindow, _, hcds, _⟩ := planOf_cases hplan
  rw [(window_ok hwindow).1]
  exact ⟨cd, (hcds.lt p cd (rereads_cds hre hcd)).2.2, rfl, rfl, hlen⟩

theorem layout_files {srcs : List Src} {g0 g1 : Nat} {r : Rg} (h : r ∈ (layout srcs g0 g1).1) :
    r.f < srcs.length := by
  obtain ⟨x, hx, hf, _⟩ := layoutFrom_mem g0 g1 0 0 h
  obtain ⟨s, hs, _⟩ := mem_groupsOf hx
  rw [hf]
  exact (List.getElem?_eq_some_iff.mp hs).1

/-- A read by one worker alone, when it gives no column up. -/
theorem read_alone {W : World} {nthreads : Nat} {set : FileSet} {sel : Sel} {g0 g1 : Nat} {codes : Bool}
    {who : String} {m : lib.stores.Mem Nat Cell} {plan : Plan} {m' : Shared}
    (hplan : planOf W nthreads set sel g0 g1 codes who = .ok plan)
    (hne : tasksOf plan.rgs plan.parts.length ≠ [])
    (hrun : lib.jobs.alone (decodeJobs W set sel plan.parts id (tasksOf plan.rgs plan.parts.length)
      (fun p => (plan.cds[p]?).join) who)
        (List.range (tasksOf plan.rgs plan.parts.length).length) SymCache.new ⟨m, fun _ => false⟩ =
          some m')
    (hgives : ∀ p < sel.out.length, m'.gives p = false)
    (hshort : ∀ p < sel.out.length, ∀ cd, (plan.cds[p]?).join = some cd → cd.d.length ≤ I32_MAX) :
    Reads W nthreads 1 set sel g0 g1 codes who m
      (.ok (tableOf set sel plan.total codes ⟨m'.mem, fun p => (plan.cds[p]?).join, id⟩)) := by
  obtain ⟨s, hfin, herr, hmem⟩ := lib.jobs.finishes_alone (J := decodeJobs W set sel plan.parts id
    (tasksOf plan.rgs plan.parts.length) (fun p => (plan.cds[p]?).join) who) hrun
  have hre : Rereads W set sel plan.rgs s.mem.gives who 1 (List.range sel.out.length)
      ⟨s.mem.mem, fun p => (plan.cds[p]?).join, id⟩
      (.ok ⟨s.mem.mem, fun p => (plan.cds[p]?).join, id⟩) :=
    rereads_kept fun p hp => by simp [hmem, hgives p (List.mem_range.mp hp)]
  have hread := Reads.answered hplan (.done hne hfin herr) hre fun c hc => by
    cases hc
    exact hshort
  rw [hmem] at hread
  exact hread

/-! ## Files of one symbol column -/

/-- A file of one symbol column, with row groups of `rows` rows and chunks of the statistics
`st`. -/
def dictSrc (rows : List Int64) (st : Option Statistics) : Src :=
  mk "dict" "dict"
    { fields := [⟨"s", .dictionary .int32 .utf8⟩], leaves := [⟨0, .BYTE_ARRAY, 1, 0⟩]
      row_groups := rows.map fun n => ⟨n, [⟨true, st⟩]⟩, num_rows := rows.foldl (· + ·) 0 } rows

def dictSet (rows : List Int64) (st : Option Statistics) : FileSet :=
  ⟨[dictSrc rows st], ["s"], [.ok .KS]⟩

def dictSel : Sel := ⟨[0], [.KS], [0], [none]⟩

/-- Keys without a null. -/
def keysOf (vs : List Int) : Prim Int := ⟨vs, none, fun _ h => by cases h⟩

/-- The page of these entries. -/
def pageOf (vs : List String) : Option Page :=
  let buf := plain (vs.map utf8Bytes)
  if h : buf.length < 2 ^ 31 then some (.dictionary buf vs.length.toUInt32 h) else none

def dictColumn (keys : Nat → Prim Int) (g c : Nat) : Arr :=
  if c = 0 then ⟨.dictionary .int32 .utf8, .dict (keys g) g⟩
  else ⟨.other "", .other (keys g).values.length⟩

def dictBatch (keys : Nat → Prim Int) (g : Nat) (roots : List Nat) : Batch where
  columns := roots.map (dictColumn keys g)
  num_rows := (keys g).values.length
  len_eq a ha := by
    obtain ⟨c, _, rfl⟩ := List.mem_map.mp ha
    unfold dictColumn
    split <;> rfl

/-- The page of row group `g` has the entries `pages g`, and its rows have the keys `keys g`. -/
def dictWorld (pages : Nat → List String) (keys : Nat → Prim Int) : World where
  crate := Crate.safe fun id => .ok ((pages id).map some)
  fopen _ := .ok ()
  tryClone _ := .ok ()
  firstPage _ g _ := .ok (pageOf (pages g))
  columnReader _ _ _ := .error "no reader"
  batches _ mask g := .ok [.ok (dictBatch keys g mask.roots)]

section
variable (pages : Nat → List String) (keys : Nat → Prim Int) (n : Int64) (st : Option Statistics)
  {cd : Codes} {lut : List UInt32}

/-- The stores of the batch of row group 0. -/
def dictStores (cd : Codes) (keys : Prim Int) (lut : List UInt32) : List Store :=
  lib.stores.fill 0 0 (keys.values.map fun k => narrow cd.lt ((lut[asUsizeKey k]?).getD cd.empty)) ++
    fillNulls keys.nulls 0 0 (narrow cd.lt cd.empty)

theorem dict_plan
    (hwindow : window [dictSrc [n] st] 0 1 "pq_read" =
      .ok ([⟨0, 0, 0, (keys 0).values.length⟩], (keys 0).values.length))
    (hplan : codesPlan (dictWorld pages keys) [dictSrc [n] st] [⟨0, 0, 0, (keys 0).values.length⟩] 0
      "pq_read" = .ok (some cd)) :
    planOf (dictWorld pages keys) 1 (dictSet [n] st) dictSel 0 1 true "pq_read" =
      .ok ⟨[⟨0, 0, 0, (keys 0).values.length⟩], (keys 0).values.length, [⟨[], [0], [0], [⟨[0]⟩]⟩],
        [some cd]⟩ := by
  have hcols : codesPlans (dictWorld pages keys) (dictSet [n] st) dictSel
      [⟨0, 0, 0, (keys 0).values.length⟩] "pq_read" (List.range dictSel.out.length) = .ok [some cd] := by
    have hlt : dictSel.lt 0 = .KS := rfl
    have hrange : List.range dictSel.out.length = [0] := rfl
    simp only [hrange, codesPlans, hlt, if_true]
    rw [show codesPlan _ (dictSet [n] st).srcs _ (dictSel.col 0) _ = .ok (some cd) from hplan]
    rfl
  have hparts : split (dictSet [n] st) dictSel (splitWays 1 1 dictSel) = [⟨[], [0], [0], [⟨[0]⟩]⟩] := rfl
  unfold planOf
  rw [show window (dictSet [n] st).srcs 0 1 "pq_read" = _ from hwindow]
  simp only [if_true, hcols, List.length_singleton, hparts]
  rfl

/-- Where every value of the page is in the union, the one task stores the codes of its rows. -/
theorem dict_job (hlut : lutOf cd ((pages 0).map some) = some lut) :
    ∃ sy, (decodeJobs (dictWorld pages keys) (dictSet [n] st) dictSel [⟨[], [0], [0], [⟨[0]⟩]⟩] id
        [⟨0, 0, 0, (keys 0).values.length, 0⟩] (fun p => ([some cd][p]?).join) "pq_read").job 0
          SymCache.new = ((dictStores cd (keys 0) lut).map .store, .ok (), sy) := by
  have hmemo : SymCache.new.lut (dictWorld pages keys).crate.heap 0 cd =
      (.ok (some lut), { SymCache.new with luts := memoInsert [] 0 (some lut) }) := by
    rw [← hlut]
    rfl
  have hfill : fillCodes (dictWorld pages keys).crate.heap (keys 0) 0 cd 0 0 0 SymCache.new =
      (.ok ((dictStores cd (keys 0) lut).map .store),
        { SymCache.new with luts := memoInsert [] 0 (some lut) }) := by
    rw [fillCodes, hmemo]
    rfl
  have hloop : arrowLoop (dictWorld pages keys) dictSel id "pq_read" (fun p => ([some cd][p]?).join)
      [(0, 0)] [.ok (dictBatch keys 0 [0])] 0 SymCache.new =
        (((dictStores cd (keys 0) lut).map .store, .ok (keys 0).values.length),
          { SymCache.new with luts := memoInsert [] 0 (some lut) }) := by
    simp [arrowLoop, batchColumns, arrowColumn, symCodes, dictBatch, dictColumn, isKeyType, hfill]
  have hpass : arrowPass (dictWorld pages keys) dictSel id "pq_read" (fun p => ([some cd][p]?).join)
      ⟨[], [0], [0], [⟨[0]⟩]⟩ (dictSrc [n] st) ⟨0, 0, 0, (keys 0).values.length, 0⟩ SymCache.new =
        (((dictStores cd (keys 0) lut).map .store, .ok ()),
          { SymCache.new with luts := memoInsert [] 0 (some lut) }) := by
    unfold arrowPass
    simp only [List.getElem?_cons_zero]
    rw [show (dictWorld pages keys).batches (dictSrc [n] st) ⟨[0]⟩ 0 = .ok [.ok (dictBatch keys 0 [0])] from rfl]
    simp only [List.zip_cons_cons, List.zip_nil_right]
    rw [hloop]
    simp
  refine ⟨{ SymCache.new with luts := memoInsert [] 0 (some lut) }, ?_⟩
  simp only [decodeJobs, List.getElem?_cons_zero, Option.bind_some, one]
  rw [show (dictSet [n] st).srcs[0]? = some (dictSrc [n] st) from rfl]
  simp only [show (dictWorld pages keys).fopen (dictSrc [n] st) = .ok () from rfl, if_true, hpass]

/-- A file of one row group whose values are all in the union comes back as the pair of its
plan. -/
theorem dict_read
    (hwindow : window [dictSrc [n] st] 0 1 "pq_read" =
      .ok ([⟨0, 0, 0, (keys 0).values.length⟩], (keys 0).values.length))
    (hplan : codesPlan (dictWorld pages keys) [dictSrc [n] st] [⟨0, 0, 0, (keys 0).values.length⟩] 0
      "pq_read" = .ok (some cd))
    (hlen : cd.d.length ≤ I32_MAX) (hlut : lutOf cd ((pages 0).map some) = some lut) :
    ∃ t, Reads (dictWorld pages keys) 1 1 (dictSet [n] st) dictSel 0 1 true "pq_read" (fun _ => .g 0)
        (.ok t) ∧
      t.columns[0]? = some (.pair cd.d cd.lt
        (cells (lib.stores.run (fun _ => .g 0) (dictStores cd (keys 0) lut)) 0 (keys 0).values.length)) := by
  obtain ⟨sy, hjob⟩ := dict_job pages keys n st hlut
  let acts := (dictStores cd (keys 0) lut).map Act.store
  have hrun : lib.jobs.alone (decodeJobs (dictWorld pages keys) (dictSet [n] st) dictSel
      [⟨[], [0], [0], [⟨[0]⟩]⟩] id [⟨0, 0, 0, (keys 0).values.length, 0⟩]
      (fun p => ([some cd][p]?).join) "pq_read") [0] SymCache.new ⟨fun _ => .g 0, fun _ => false⟩ =
        some (acts.foldl Act.exec ⟨fun _ => .g 0, fun _ => false⟩) := by
    simp only [lib.jobs.alone, hjob, lib.jobs.runs]
    rfl
  have hgives : ∀ p < dictSel.out.length,
      (acts.foldl Act.exec ⟨fun _ => .g 0, fun _ => false⟩).gives p = false := by
    intro p _
    rw [Bool.eq_false_iff, ne_eq, foldl_exec_gives]
    simp [acts]
  have hshort : ∀ p < dictSel.out.length, ∀ cd', (([some cd] : List (Option Codes))[p]?).join = some cd' →
      cd'.d.length ≤ I32_MAX := by
    intro p hp cd' hcd'
    cases Nat.lt_one_iff.mp hp
    cases hcd'
    exact hlen
  refine ⟨_, read_alone (dict_plan pages keys n st hwindow hplan) (by simp [tasksOf]) hrun hgives hshort, ?_⟩
  rw [tableOf_column _ _ _ _ Nat.one_pos, foldl_exec_mem, storesOf_stores]
  rfl

end

/-- The pages `a a`, `b b` and `c b`: in the first two the hashes of the entries cancel. -/
def cancelWorld : World :=
  dictWorld (fun g => if g = 0 then ["a", "a"] else if g = 1 then ["b", "b"] else ["c", "b"])
    fun _ => keysOf [0]

theorem cancelWorld_read :
    ∃ t cs, Reads cancelWorld 1 1 (dictSet [1, 1, 1] none) dictSel 0 3 true "pq_read" (fun _ => .g 0)
        (.ok t) ∧ t.columns[0]? = some (.pair [⟨[97]⟩, ⟨[99]⟩, ⟨[98]⟩, ⟨[]⟩] .KG cs) := by
  have hplan : planOf cancelWorld 1 (dictSet [1, 1, 1] none) dictSel 0 3 true "pq_read" =
      .ok ⟨[⟨0, 0, 0, 1⟩, ⟨0, 1, 1, 1⟩, ⟨0, 2, 2, 1⟩], 3, [⟨[], [0], [0], [⟨[0]⟩]⟩],
        [some ⟨[⟨[97]⟩, ⟨[99]⟩, ⟨[98]⟩, ⟨[]⟩], [([], 3), ([98], 2), ([99], 1), ([97], 0)], 3, .KG⟩]⟩ := by
    rfl
  have hread := read_alone (m := fun _ => .g 0) hplan (by decide) rfl (fun p hp => by
    cases Nat.lt_one_iff.mp hp
    rfl) (fun p hp cd hcd => by
    cases Nat.lt_one_iff.mp hp
    cases hcd
    decide)
  exact ⟨_, _, hread, rfl⟩

theorem cancelWorld_firstSeen :
    firstSeen cancelWorld [dictSrc [1, 1, 1] none] (layout [dictSrc [1, 1, 1] none] 0 3).1 0 "pq_read" =
      [⟨[97]⟩, ⟨[98]⟩, ⟨[99]⟩, ⟨[]⟩] := by rfl

/-! ## The order of the symbols -/

/-- The dictionary of a pair is the one of every schedule of the page reads. It is the first-seen
union if and only if no page that is skipped for its hash is missed. -/
theorem a_dictionary_is_first_seen_iff_no_skipped_page_is_missed {W : World} {nthreads k : Nat}
    {set : FileSet} {sel : Sel} {g0 g1 : Nat} {codes : Bool} {who : String}
    {m : lib.stores.Mem Nat Cell} {t : Table}
    (h : Reads W nthreads k set sel g0 g1 codes who m (.ok t)) {p : Nat} {d : List Sym} {lt : LType}
    {cs : List Cell} (hp : t.columns[p]? = some (.pair d lt cs)) :
    (∀ j plan, PlansCodes W set.srcs (layout set.srcs g0 g1).1 (sel.col p) who j (.back (.ok plan)) →
      ∃ cd, plan = some cd ∧ cd.d = d) ∧
    (d = firstSeen W set.srcs (layout set.srcs g0 g1).1 (sel.col p) who ↔
      Steady (windowPages W set.srcs (layout set.srcs g0 g1).1 (sel.col p) who)
        (emptyLast set.srcs (layout set.srcs g0 g1).1 (sel.col p))) := by
  obtain ⟨cd, hplan, rfl, rfl, _⟩ := pair_planned h hp
  constructor
  · intro j plan hj
    rcases plansCodes_eq (fun r => layout_files) hj with he | he
    · rw [hplan] at he
      cases he
      exact ⟨cd, rfl, rfl⟩
    · cases he
  · have hinj : Function.Injective intern := fun _ _ => Sym.mk.inj
    rw [(codesPlan_of hplan).d, firstSeen_eq, (List.map_injective_iff.mpr hinj).eq_iff, unionValues]
    exact kept_iff _ _

/-- The second page is skipped, so its `b` stands behind the `c` of the third. -/
theorem a_skipped_page_is_missed :
    ∃ t d lt cs, Reads cancelWorld 1 1 (dictSet [1, 1, 1] none) dictSel 0 3 true "pq_read"
        (fun _ => .g 0) (.ok t) ∧
      t.columns[0]? = some (.pair d lt cs) ∧
      d ≠ firstSeen cancelWorld [dictSrc [1, 1, 1] none] (layout [dictSrc [1, 1, 1] none] 0 3).1 0
        "pq_read" := by
  obtain ⟨t, cs, hread, hcol⟩ := cancelWorld_read
  refine ⟨t, _, _, cs, hread, hcol, ?_⟩
  rw [cancelWorld_firstSeen]
  decide

theorem the_pages_that_cancel_are_not_steady :
    ∃ t, Reads cancelWorld 1 1 (dictSet [1, 1, 1] none) dictSel 0 3 true "pq_read" (fun _ => .g 0)
        (.ok t) ∧
      ¬Steady (windowPages cancelWorld [dictSrc [1, 1, 1] none] (layout [dictSrc [1, 1, 1] none] 0 3).1 0
        "pq_read") (emptyLast [dictSrc [1, 1, 1] none] (layout [dictSrc [1, 1, 1] none] 0 3).1 0) := by
  obtain ⟨t, cs, hread, hcol⟩ := cancelWorld_read
  refine ⟨t, hread, fun hsteady => ?_⟩
  have hlaw := (a_dictionary_is_first_seen_iff_no_skipped_page_is_missed hread hcol).2.mpr hsteady
  rw [show dictSel.col 0 = 0 from rfl, show (dictSet [1, 1, 1] none).srcs = [dictSrc [1, 1, 1] none] from rfl,
    cancelWorld_firstSeen] at hlaw
  exact absurd hlaw (by decide)

/-! ## The type of the codes -/

/-- The L type is the narrowest one that indexes `n` entries, and each of their ids fits it. -/
structure Narrowest (lt : LType) (n : Nat) : Prop where
  kg : lt = .KG ↔ n ≤ 256
  kh : lt = .KH ↔ 256 < n ∧ n ≤ 32768
  ki : lt = .KI ↔ 32768 < n
  fits : ∀ id < n, codeIndex (narrow lt id.toUInt32) = some id

/-- A type for `n` or a few more entries indexes `n` of them. -/
theorem ids_fit {n k id : Nat} (hk : n ≤ k) (hn : n ≤ I32_MAX) (hid : id < n) :
    codeIndex (narrow (width k) id.toUInt32) = some id := by
  unfold I32_MAX at hn
  have hnat : id.toUInt32.toNat = id := by
    rw [Nat.toUInt32_eq, UInt32.toNat_ofNat']
    exact Nat.mod_eq_of_lt (by omega)
  have h : codeIndex (narrow (width k) id.toUInt32) = some id.toUInt32.toNat :=
    codeIndex_narrow (by omega) (by unfold I32_MAX; omega)
  rwa [hnat] at h

theorem width_narrowest {n : Nat} (hn : n ≤ I32_MAX) : Narrowest (width n) n := by
  constructor
  case fits => exact fun id hid => ids_fit le_rfl hn hid
  all_goals
    unfold width
    split
    · simp
      omega
    · split
      · simp
        omega
      · simp
        omega

/-- One entry more makes a difference at the two bounds only. -/
theorem width_succ_narrowest {n : Nat} (hn : n ≤ I32_MAX) :
    Narrowest (width (n + 1)) n ↔ n ≠ 256 ∧ n ≠ 32768 := by
  have hiff : Narrowest (width (n + 1)) n ↔ width (n + 1) = width n := by
    constructor
    · intro h
      obtain ⟨kg, kh, ki, -⟩ := h
      have hn := width_narrowest hn
      rcases Nat.lt_or_ge 32768 n with hlt | hle
      · rw [ki.mpr hlt, hn.ki.mpr hlt]
      · rcases Nat.lt_or_ge 256 n with hlt | hle'
        · rw [kh.mpr ⟨hlt, hle⟩, hn.kh.mpr ⟨hlt, hle⟩]
        · rw [kg.mpr hle', hn.kg.mpr hle']
    · intro h
      rw [h]
      exact width_narrowest hn
  rw [hiff]
  unfold width
  split <;> split <;> (try split) <;> (try split) <;> simp <;> omega

/-- The empty symbol has a place in the dictionary, or its id is the one behind it. -/
theorem Codes.Of.lt_eq {cd : Codes} {vs : List (List UInt8)} (h : cd.Of vs) (hsound : cd.Sound)
    (hlen : cd.d.length ≤ I32_MAX) :
    cd.lt = width (if [] ∈ vs then cd.d.length else cd.d.length + 1) := by
  unfold I32_MAX at hlen
  rw [h.lt]
  split
  · rename_i hin
    obtain ⟨id, hid⟩ := Option.isSome_iff_exists.mp ((h.ix []).mpr hin)
    have hget := hsound.fits (by omega) [] id hid
    have hlt := (List.getElem?_eq_some_iff.mp hget).1
    rw [hsound.closed id hid, Nat.max_eq_left (by omega)]
  · rename_i hout
    have hnat : cd.empty.toNat = cd.d.length := by
      rw [h.absent hout, Nat.toUInt32_eq, UInt32.toNat_ofNat']
      exact Nat.mod_eq_of_lt (by omega)
    rw [hnat, Nat.max_eq_right (by omega)]

/-- The codes have the narrowest type if and only if the union has the empty symbol, or has not
exactly as many entries as a type can index: without it, its id takes a place of its own. -/
theorem codes_are_narrow_iff_no_absent_symbol_widens_them {W : World} {nthreads k : Nat}
    {set : FileSet} {sel : Sel} {g0 g1 : Nat} {codes : Bool} {who : String}
    {m : lib.stores.Mem Nat Cell} {t : Table}
    (h : Reads W nthreads k set sel g0 g1 codes who m (.ok t)) {p : Nat} {d : List Sym} {lt : LType}
    {cs : List Cell} (hp : t.columns[p]? = some (.pair d lt cs)) :
    Narrowest lt d.length ↔
      [] ∈ unionValues W set.srcs (layout set.srcs g0 g1).1 (sel.col p) who ∨
        (unionValues W set.srcs (layout set.srcs g0 g1).1 (sel.col p) who).eraseDups.length ∉
          [256, 32768] := by
  obtain ⟨cd, hplan, rfl, rfl, hlen⟩ := pair_planned h hp
  have hof := codesPlan_of hplan
  have hd : cd.d.length = (unionValues W set.srcs (layout set.srcs g0 g1).1 (sel.col p) who).eraseDups.length := by
    rw [hof.d, List.length_map, fresh_nil]
  rw [hof.lt_eq (codesPlan_sound hplan).1 hlen, ← hd]
  split
  · rename_i hin
    exact ⟨fun _ => .inl hin, fun _ => width_narrowest hlen⟩
  · rename_i hout
    rw [width_succ_narrowest hlen]
    simp [hout]

theorem the_symbols_that_cancel_have_narrow_codes :
    ∃ t d lt cs, Reads cancelWorld 1 1 (dictSet [1, 1, 1] none) dictSel 0 3 true "pq_read"
        (fun _ => .g 0) (.ok t) ∧ t.columns[0]? = some (.pair d lt cs) ∧ Narrowest lt d.length := by
  obtain ⟨t, cs, hread, hcol⟩ := cancelWorld_read
  have hvalues : unionValues cancelWorld (dictSet [1, 1, 1] none).srcs
      (layout (dictSet [1, 1, 1] none).srcs 0 3).1 (dictSel.col 0) "pq_read" =
        [[97], [97], [99], [98], []] := by rfl
  refine ⟨t, _, _, cs, hread, hcol, (codes_are_narrow_iff_no_absent_symbol_widens_them hread hcol).mpr (.inl ?_)⟩
  rw [hvalues]
  decide

/-- `aa` to `pp`: 256 entries of two letters. -/
def letters (i : Nat) : List UInt8 := [UInt8.ofNat (97 + i / 16), UInt8.ofNat (97 + i % 16)]

def fullNames : List String :=
  (List.range 256).map fun i => String.ofList [Char.ofNat (97 + i / 16), Char.ofNat (97 + i % 16)]

theorem fullNames_bytes : fullNames.map utf8Bytes = (List.range 256).map letters := by
  have hall : ∀ a < 16, ∀ b < 16, utf8Bytes (String.ofList [Char.ofNat (97 + a), Char.ofNat (97 + b)]) =
      [UInt8.ofNat (97 + a), UInt8.ofNat (97 + b)] := by decide
  unfold fullNames
  rw [List.map_map]
  apply List.map_congr_left
  intro i hi
  rw [List.mem_range] at hi
  exact hall _ (by omega) _ (by omega)

theorem length_plain {w : Nat} {vs : List (List UInt8)} (h : ∀ v ∈ vs, v.length = w) :
    (plain vs).length = vs.length * (4 + w) := by
  induction vs with
  | nil => simp
  | cons v vs ih =>
    have hv := h v List.mem_cons_self
    have hrest := ih fun u hu => h u (List.mem_cons_of_mem v hu)
    rw [plain_cons, List.length_append, List.length_append, lib.bytes.length_little, hrest, hv,
      List.length_cons, Nat.add_mul]
    omega

theorem letters_nodup : ((List.range 256).map letters).Nodup := by
  rw [List.nodup_map_iff_inj_on List.nodup_range]
  intro i hi j hj he
  rw [List.mem_range] at hi hj
  simp only [letters, List.cons.injEq, and_true] at he
  have hhigh := congrArg UInt8.toNat he.1
  have hlow := congrArg UInt8.toNat he.2
  simp only [UInt8.toNat_ofNat'] at hhigh hlow
  omega

/-- The one page of these files has its entries, when they fit. -/
theorem dict_page (pages : Nat → List String) (keys : Nat → Prim Int) (n : Int64)
    (st : Option Statistics) (hsize : (plain ((pages 0).map utf8Bytes)).length < 2 ^ 31)
    (hcount : (pages 0).length < 2 ^ 32) :
    ∃ p, dictPage (dictWorld pages keys) (dictSrc [n] st) 0 0 "pq_read" = .ok p ∧
      p.entries = (pages 0).map utf8Bytes := by
  have hn : (pages 0).length.toUInt32.toNat = (pages 0).length := by
    rw [Nat.toUInt32_eq, UInt32.toNat_ofNat']
    exact Nat.mod_eq_of_lt hcount
  obtain ⟨spans, hspans, -, hplaced⟩ := parseLoop_ok (n := (pages 0).length.toUInt32.toNat)
    (by omega) (by rw [hn, List.length_map]) (List.prefix_refl (plain ((pages 0).map utf8Bytes)))
  have hpage : (dictWorld pages keys).firstPage (dictSrc [n] st) 0 0 =
      .ok (some (.dictionary (plain ((pages 0).map utf8Bytes)) (pages 0).length.toUInt32 hsize)) := by
    show Except.ok (pageOf (pages 0)) = _
    rw [pageOf, dif_pos hsize]
  refine ⟨⟨setHash (plain ((pages 0).map utf8Bytes)) spans, plain ((pages 0).map utf8Bytes), spans⟩, ?_,
    hplaced.bytes (Nat.lt_trans hsize (by decide))⟩
  have hchunk : (dictSrc [n] st).chunk 0 0 = some ⟨true, st⟩ := rfl
  rw [dictPage_page rfl hchunk hpage, hspans]
  rfl

/-- The plan of a file of one row group, when its chunk says that it holds no null. -/
theorem dict_codes (pages : Nat → List String) (keys : Nat → Prim Int) (n : Int64) (rows : Nat)
    (hsize : (plain ((pages 0).map utf8Bytes)).length < 2 ^ 31) (hcount : (pages 0).length < 2 ^ 32)
    (hne : pages 0 ≠ []) :
    ∃ cd, codesPlan (dictWorld pages keys) [dictSrc [n] (some ⟨some 0, .other⟩)] [⟨0, 0, 0, rows⟩] 0
        "pq_read" = .ok (some cd) ∧
      unionValues (dictWorld pages keys) [dictSrc [n] (some ⟨some 0, .other⟩)] [⟨0, 0, 0, rows⟩] 0
        "pq_read" = (pages 0).map utf8Bytes := by
  obtain ⟨p, hp, hentries⟩ := dict_page pages keys n (some ⟨some 0, .other⟩) hsize hcount
  have hspans : p.spans ≠ [] := by
    intro hnil
    rw [DictBuf.entries, hnil] at hentries
    exact hne (List.map_eq_nil_iff.mp hentries.symm)
  have hmerge : mergePages ⟨[], [], false, []⟩ [(.ok p, false)] =
      .ok (some { (Union.mk [] [] false []).merge p with
        nulls := ((Union.mk [] [] false []).merge p).nulls || false }) := by
    rw [mergePages, if_neg hspans]
    rfl
  refine ⟨({ (Union.mk [] [] false []).merge p with
    nulls := ((Union.mk [] [] false []).merge p).nulls || false } : Union).close, ?_, ?_⟩
  · have hall : allDict [dictSrc [n] (some ⟨some 0, .other⟩)] [⟨0, 0, 0, rows⟩] 0 = true := rfl
    have hnulls : mayHoldNulls (dictSrc [n] (some ⟨some 0, .other⟩)) 0 0 = false := rfl
    rw [codesPlan, if_neg (by simp [hall])]
    simp only [List.filterMap_cons, List.filterMap_nil, List.getElem?_cons_zero, Option.map_some, hp, hnulls,
      hmerge]
    rfl
  · have hnulls : anyNulls [dictSrc [n] (some ⟨some 0, .other⟩)] [⟨0, 0, 0, rows⟩] 0 = false := rfl
    simp only [unionValues, windowPages, List.filterMap_cons, List.filterMap_nil, List.getElem?_cons_zero,
      Option.map_some, hp, emptyLast, hnulls]
    simp [Except.map, Except.toOption, kept, DictBuf.page, hentries]

/-- A full byte of entries without the empty symbol gets two bytes for each code. -/
theorem a_full_byte_of_symbols_has_wide_codes :
    ∃ t d lt cs, Reads (dictWorld (fun _ => fullNames) fun _ => keysOf [0]) 1 1
        (dictSet [1] (some ⟨some 0, .other⟩)) dictSel 0 1 true "pq_read" (fun _ => .g 0) (.ok t) ∧
      t.columns[0]? = some (.pair d lt cs) ∧ d.length = 256 ∧ lt = .KH := by
  have hlen : fullNames.length = 256 := by simp [fullNames]
  have hsize : (plain (fullNames.map utf8Bytes)).length < 2 ^ 31 := by
    rw [fullNames_bytes, length_plain (w := 2), List.length_map, List.length_range]
    · decide
    · intro v hv
      obtain ⟨i, -, rfl⟩ := List.mem_map.mp hv
      rfl
  obtain ⟨cd, hplan, hvalues⟩ := dict_codes (fun _ => fullNames) (fun _ => keysOf [0]) 1 1 hsize
    (by omega) (List.ne_nil_of_length_pos (by omega))
  have hof := codesPlan_of hplan
  rw [hvalues, fullNames_bytes] at hof
  have hd : cd.d.length = 256 := by
    rw [hof.d, List.length_map, fresh_nil, eraseDups_of_nodup letters_nodup, List.length_map, List.length_range]
  have hlt : cd.lt = .KH := by
    rw [hof.lt_eq (codesPlan_sound hplan).1 (by rw [hd]; decide), if_neg (by simp [letters]), hd]
    rfl
  obtain ⟨lut, hlut⟩ : ∃ lut, lutOf cd (fullNames.map some) = some lut := by
    apply Option.ne_none_iff_exists'.mp
    intro hnone
    obtain ⟨v, hv, hno⟩ := lutOf_eq_none.mp hnone
    obtain ⟨name, hname, rfl⟩ := List.mem_map.mp hv
    rw [Option.map_some, Option.getD_some] at hno
    have hin : (cd.ix.lookup (utf8Bytes name)).isSome = true := by
      rw [hof.ix, ← fullNames_bytes]
      exact List.mem_map_of_mem hname
    rw [hno] at hin
    cases hin
  obtain ⟨t, hread, hcol⟩ := dict_read (fun _ => fullNames) (fun _ => keysOf [0]) 1
    (some ⟨some 0, .other⟩) rfl hplan (by rw [hd]; decide) hlut
  exact ⟨t, _, _, _, hread, hcol, hd, hlt⟩

end parquet_interop.read
