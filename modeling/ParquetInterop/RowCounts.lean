-- The rows that a row group holds against the rows that its footer claims: what
-- the zero-copy loop, the Arrow loop and the loop of a stream make of a
-- difference.
import ParquetInterop.Pairs
import ParquetInterop.StreamReplace

open parquet_interop.ffi parquet_interop.footer parquet_interop.native
open lib.jobs lib.stores lib.trees

namespace parquet_interop.read

/-! ## The zero-copy loop -/

section
variable {T : Type}

/-- A reader of `held` records. It answers as many as it is asked for, or all that are left, in the
place that it was given, and with their definition levels. -/
def RecordReader.Counts (rd : RecordReader T) (maxdef : Int16) (held : Nat) : Prop :=
  ∀ done want, done ≤ held → 0 < want → ∃ r, (rd.respond done want).out = .ok r ∧
    r.recs = min want (held - done) ∧ (rd.respond done want).moved = false ∧
    (rd.respond done want).buf.length ≤ want ∧
    (0 < maxdef → r.vals < r.recs → r.recs ≤ r.defs.length)

variable [ArrowNativeTypeOp T]

/-- The loop asks for no more than the footer claims, and ends early when nothing is left. -/
theorem rawLoop_counts {rd : RecordReader T} {maxdef : Int16} {held : Nat}
    (hrd : rd.Counts maxdef held) {nullv sh mul : T} {col off rows : Nat} {who : String} {done : Nat}
    (hdone : done ≤ min rows held) :
    (rawLoop rd maxdef nullv sh mul col off rows who done).2 = .ok (min rows held) := by
  have hbatch : 0 < BATCH_ROWS := by decide
  unfold rawLoop
  dsimp only
  split
  · have : min rows held = done := by omega
    rw [this]
  · rename_i hwant
    obtain ⟨r, hout, hrecs, hmoved, hlen, hlevels⟩ :=
      hrd done (min BATCH_ROWS (rows - done)) (by omega) (by omega)
    split
    · rename_i e he
      rw [hout] at he
      cases he
    · rename_i r' hr'
      obtain rfl : r = r' := Except.ok.inj (hout.symm.trans hr')
      rw [if_neg (by rw [hmoved, not_or, Nat.not_lt]; exact ⟨Bool.false_ne_true, hlen⟩), if_neg]
      · split
        · have : min rows held = done := by omega
          rw [this]
        · exact rawLoop_counts hrd (by omega)
      · rintro ⟨hmax, hvals, hshort⟩
        have := hlevels hmax hvals
        omega
termination_by rows - done

end

/-- The reader of a leaf of this physical type, over `held` records. -/
def ColumnReader.Counts (cr : ColumnReader) (pt : PhysType) (maxdef : Int16) (held : Nat) : Prop :=
  match pt, cr with
  | .INT32, .i32 rd => rd.Counts maxdef held
  | .INT64, .i64 rd => rd.Counts maxdef held
  | .FLOAT, .f32 rd => rd.Counts maxdef held
  | .DOUBLE, .f64 rd => rd.Counts maxdef held
  | _, _ => False

theorem rawCol_counts {cr : ColumnReader} {dt : DataType} {pt : PhysType} {rt : Raw} {maxdef : Int16}
    {held : Nat} (hrt : rawOf dt pt = some rt) (hcr : cr.Counts pt maxdef held) (lt : LType)
    (col off rows : Nat) (who : String) :
    (rawCol (.ok cr) maxdef rt lt col off rows who).2 = .ok (min rows held) := by
  unfold rawCol
  rcases rawOf_cases hrt with ⟨rfl, rfl, _⟩ | ⟨rfl, _, rfl⟩ | ⟨rfl, _, rfl, _⟩ | ⟨rfl, _, rfl⟩ |
    ⟨rfl, _, rfl⟩ <;> cases cr <;> first | exact rawLoop_counts hcr (Nat.zero_le _) | exact hcr.elim

/-! ## What the files hold -/

/-- The files open, and each chunk of row group `g` of a file `s` holds `held s g` rows, whatever
the footer claims. The Arrow reader yields all of them. -/
structure Holding (W : World) (srcs : List Src) (held : Src → Nat → Nat) : Prop where
  lawful : W.crate.Lawful
  fopen : ∀ s ∈ srcs, W.fopen s = .ok ()
  tryClone : ∀ s ∈ srcs, W.tryClone s = .ok ()
  readers : ∀ s ∈ srcs, ∀ (g : Nat) n, s.rg_rows[g]? = some n → ∀ (l : Nat) d,
    s.md.leaves[l]? = some d → d.max_rep_level = 0 →
    (rawOf (typeAt s d.root) d.physical_type).isSome = true →
    ∃ cr, W.columnReader s g l = .ok cr ∧ cr.Counts d.physical_type d.max_def_level (held s g)
  batches : ∀ s ∈ srcs, ∀ (g : Nat) n roots, s.rg_rows[g]? = some n → roots.Pairwise (· < ·) →
    (∀ c ∈ roots, ∃ lt, lTypeOf (typeAt s c) = .ok lt) →
    ∃ bs : List Batch, W.batches s ⟨roots⟩ g = .ok (bs.map .ok) ∧
      (bs.map (·.num_rows)).sum = held s g ∧
      ∀ (i : Nat) c, roots[i]? = some c → ∀ b ∈ bs, ∃ arr, b.columns[i]? = some arr ∧
        arr.data_type = typeAt s c ∧ arr.Typed W.crate.heap

/-- The columns of a read over files that hold `held`. -/
structure Ground.Holds (G : Ground) (set : FileSet) (held : Src → Nat → Nat) : Prop
    extends G.Planned where
  selected : Selected set G.sel
  loaded : ∀ s ∈ set.srcs, Loaded s
  holding : Holding G.W set.srcs held
  owned : ∀ q, G.cds q ≠ none → Owned G.W G.owner set.srcs (G.sel.col q)
  inside : ∀ q, G.cds q ≠ none → KeysInside G.W set.srcs (G.sel.col q)
  handles : ∀ p < G.sel.out.length, ∀ q < G.sel.out.length, G.cols p = G.cols q → p = q

/-- What a part makes of a row group that claims `rows` rows and holds `held`: a zero-copy column
takes as many as are claimed, and the Arrow columns take all. -/
def Part.Takes (part : Part) (rows held : Nat) : Prop :=
  (part.raw ≠ [] → rows ≤ held) ∧ (part.outs ≠ [] → rows = held)

section
variable {G : Ground} {set : FileSet} {held : Src → Nat → Nat} {cds : Nat → Option Codes} {who : String}

/-- A zero-copy task succeeds when there are at least as many rows as the footer claims. -/
theorem raw_takes (hG : G.Holds set held) {q : Nat} {rt : Raw} (hrt : G.sel.rawAt q = some rt)
    {t : Task} (ht : InSet set t) {src : Src} (hsrc : set.srcs[t.f]? = some src) (sy : SymCache) :
    ((one G.W G.sel G.cols who set ⟨[q], [], [], []⟩ cds t sy).1.2 = .ok () ↔
        t.rows ≤ held src t.g) ∧
      (one G.W G.sel G.cols who set ⟨[q], [], [], []⟩ cds t sy).2 = sy := by
  have hmem : src ∈ set.srcs := List.mem_of_getElem? hsrc
  obtain ⟨s, n, hs, hn, hrows⟩ := ht
  cases hsrc.symm.trans hs
  obtain ⟨_, hraw⟩ := hG.selected.raw q rt hrt
  obtain ⟨l, d, hl, hd, hof, hrep⟩ := hraw src hmem
  have hroot : d.root = G.sel.col q := by
    have hmap : (leafMap src.md)[G.sel.col q]? = some (some l) := by
      rw [← (hG.loaded src hmem).1]
      exact Option.join_eq_some_iff.mp hl
    obtain ⟨d', hd', hroot, _⟩ := leafMap_spec src.md hmap
    cases hd.symm.trans hd'
    exact hroot
  obtain ⟨cr, hcr, hcounts⟩ := hG.holding.readers src hmem t.g n hn l d hd hrep
    (by rw [hroot, hof]; rfl)
  have hcol := rawCol_counts hof hcounts (G.sel.lt q) (G.cols q) t.off t.rows who
  have hcolumn : (rawColumns G.W G.sel G.cols who src t [q]).2 = .ok () ↔ t.rows ≤ held src t.g := by
    unfold rawColumns rawColumn
    simp only [hl, hrt, hd, Option.map_some, Option.getD_some, hcr]
    rcases hcase : rawCol (.ok cr) d.max_def_level rt (G.sel.lt q) (G.cols q) t.off t.rows who with
      ⟨os, res⟩
    rw [hcase] at hcol
    dsimp only at hcol
    subst hcol
    dsimp only
    by_cases hle : t.rows ≤ held src t.g
    · simp [rawColumns, hle]
    · have hmin : min t.rows (held src t.g) ≠ t.rows := by omega
      simp [hmin, hle]
  unfold one
  simp only [hsrc, hG.holding.fopen src hmem, hG.holding.tryClone src hmem, reduceCtorEq, if_false]
  rw [← hcolumn]
  rcases rawColumns G.W G.sel G.cols who src t [q] with ⟨acts, e | u⟩ <;> simp

/-- An Arrow task succeeds when there are exactly as many rows as the footer claims. -/
theorem arrow_takes (hG : G.Holds set held) (hcds : G.Runs cds) {outs : List Nat} (hnd : outs.Nodup)
    (houts : ∀ q ∈ outs, q < G.sel.out.length) {t : Task} (ht : InSet set t) {src : Src}
    (hsrc : set.srcs[t.f]? = some src) {sy : SymCache} (hsy : (G.run cds).Sane sy) :
    ((one G.W G.sel G.cols who set (arrowPart set G.sel outs) cds t sy).1.2 = .ok () ↔
        t.rows = held src t.g) ∧
      (G.run cds).Sane (one G.W G.sel G.cols who set (arrowPart set G.sel outs) cds t sy).2 := by
  have hmem : src ∈ set.srcs := List.mem_of_getElem? hsrc
  obtain ⟨s, n, hs, hn, hrows⟩ := ht
  cases hsrc.symm.trans hs
  have hlts := roots_typed hG.selected houts hmem
  obtain ⟨bs, hbs, hsum, htyped⟩ := hG.holding.batches src hmem t.g n _ hn
    (arrowPart_roots hG.selected hnd houts) hlts
  have hbatched := G.batched_of hG.owned hG.inside hmem hbs htyped
  obtain ⟨acts, sy', hloop, hsy', _⟩ := arrow_stores hG.toPlanned hcds hG.selected hG.handles hnd houts
    hmem hbatched hsy t.off who
  have hmask : (arrowPart set G.sel outs).masks[t.f]? =
      some ⟨(outs.map G.sel.col).insertionSort (· ≤ ·)⟩ := by
    simp only [arrowPart, List.getElem?_map, hsrc, Option.map_some]
  have hraw : (arrowPart set G.sel outs).raw = [] := rfl
  unfold one arrowPass
  simp only [hsrc, hG.holding.fopen src hmem, hraw, if_true, hmask, hbs, hloop,
    Nat.add_sub_cancel_left, hsum]
  refine ⟨?_, hsy'⟩
  by_cases heq : held src t.g = t.rows
  · simp [heq]
  · simp [heq, Ne.symm heq]

/-- A task of a read, in whatever part. -/
theorem one_takes (hG : G.Holds set held) (hcds : G.Runs cds) {ways : Nat} {part : Part}
    (hpart : part ∈ split set G.sel ways) {t : Task} (ht : InSet set t) {src : Src}
    (hsrc : set.srcs[t.f]? = some src) {sy : SymCache} (hsy : (G.run cds).Sane sy) :
    ((one G.W G.sel G.cols who set part cds t sy).1.2 = .ok () ↔ part.Takes t.rows (held src t.g)) ∧
      (G.run cds).Sane (one G.W G.sel G.cols who set part cds t sy).2 := by
  rcases split_cases hpart with ⟨q, rt, rfl, _, hrt⟩ | ⟨outs, hne, rfl, hnd, houts⟩
  · obtain ⟨hok, hsame⟩ := @raw_takes G set held cds who hG q rt hrt t ht src hsrc sy
    refine ⟨hok.trans ?_, by rw [hsame]; exact hsy⟩
    simp [Part.Takes]
  · obtain ⟨hok, hsane⟩ := @arrow_takes G set held cds who hG hcds outs hnd
      (fun q hq => (houts q hq).1) t ht src hsrc sy hsy
    refine ⟨hok.trans ?_, hsane⟩
    simp [Part.Takes, arrowPart, hne]

/-- What a selection makes of a row group: each of its columns by its own loop. -/
def Sel.Takes (sel : Sel) (rows held : Nat) : Prop :=
  ∀ q < sel.out.length, if sel.rawAt q = none then rows = held else rows ≤ held

theorem parts_take (set : FileSet) (sel : Sel) (ways rows held : Nat) :
    (∀ part ∈ split set sel ways, part.Takes rows held) ↔ sel.Takes rows held := by
  refine ⟨fun h q hq => ?_, fun h part hpart => ?_⟩
  · obtain ⟨part, hpart, hin⟩ := List.mem_flatMap.mp ((split_flat set sel ways).2 q hq)
    have htakes := h part hpart
    rcases split_cases hpart with ⟨p, rt, rfl, _, hrt⟩ | ⟨outs, hne, rfl, _, houts⟩
    · obtain rfl : q = p := List.mem_singleton.mp hin
      rw [hrt, if_neg nofun]
      exact htakes.1 (by simp)
    · rw [if_pos (houts q hin).2]
      exact htakes.2 hne
  · rcases split_cases hpart with ⟨q, rt, rfl, hq, hrt⟩ | ⟨outs, hne, rfl, _, houts⟩
    · have hrow := h q hq
      rw [hrt, if_neg nofun] at hrow
      exact ⟨fun _ => hrow, fun hnil => absurd rfl hnil⟩
    · obtain ⟨q, hq⟩ := List.exists_mem_of_ne_nil outs hne
      have hrow := h q (houts q hq).1
      rw [if_pos (houts q hq).2] at hrow
      exact ⟨fun hnil => absurd rfl hnil, fun _ => hrow⟩

/-- The row groups of a window are taken, by every column of the selection. -/
def Taken (set : FileSet) (sel : Sel) (held : Src → Nat → Nat) (rgs : List Rg) : Prop :=
  ∀ r ∈ rgs, ∀ s, set.srcs[r.f]? = some s → sel.Takes r.rows (held s r.g)

/-- The decode of a window, under any schedule, ends without an error when all its row groups are
taken. -/
theorem decode_takes (hG : G.Holds set held) (hcds : G.Runs cds) {rgs : List Rg}
    (hin : ∀ r ∈ rgs, InSet set ⟨r.f, r.g, r.off, r.rows, 0⟩) {ways k : Nat} (hk : 0 < k)
    {m m' : Shared}
    {res : Except String Unit}
    (h : Decodes G.W set G.sel (split set G.sel ways) G.cols
      (tasksOf rgs (split set G.sel ways).length) cds who k m m' res) :
    res = .ok () ↔ Taken set G.sel held rgs := by
  have hjob : ∀ {i : Nat} {r : Rg} {p : Nat} {part : Part}, r ∈ rgs →
      (tasksOf rgs (split set G.sel ways).length)[i]? = some ⟨r.f, r.g, r.off, r.rows, p⟩ →
      (split set G.sel ways)[p]? = some part → ∃ s, set.srcs[r.f]? = some s ∧ ∀ sy, (G.run cds).Sane sy →
        (((decodeJobs G.W set G.sel (split set G.sel ways) G.cols
          (tasksOf rgs (split set G.sel ways).length) cds who).job i sy).2.1 = .ok () ↔
            part.Takes r.rows (held s r.g)) ∧
        (G.run cds).Sane ((decodeJobs G.W set G.sel (split set G.sel ways) G.cols
          (tasksOf rgs (split set G.sel ways).length) cds who).job i sy).2.2 := by
    intro i r p part hr ht hp
    obtain ⟨s, n, hs, hn, hrows⟩ := hin r hr
    refine ⟨s, hs, fun sy hsy => ?_⟩
    simp only [decodeJobs, ht, Option.bind_some, hp]
    exact one_takes (t := ⟨r.f, r.g, r.off, r.rows, p⟩) hG hcds (List.mem_of_getElem? hp)
      ⟨s, n, hs, hn, hrows⟩ hs hsy
  have hof : ∀ i < (tasksOf rgs (split set G.sel ways).length).length, ∃ r ∈ rgs, ∃ p part,
      (tasksOf rgs (split set G.sel ways).length)[i]? = some ⟨r.f, r.g, r.off, r.rows, p⟩ ∧
        (split set G.sel ways)[p]? = some part := by
    intro i hi
    have ht := List.getElem?_eq_getElem hi
    generalize (tasksOf rgs (split set G.sel ways).length)[i] = t at ht
    obtain ⟨r, hr, het, hp⟩ := mem_tasksOf (List.mem_of_getElem? ht)
    exact ⟨r, hr, t.p, _, ht.trans (congrArg some het), List.getElem?_eq_getElem hp⟩
  have hkeeps : ∀ i < (tasksOf rgs (split set G.sel ways).length).length, ∀ sy,
      (G.run cds).Sane sy → (G.run cds).Sane ((decodeJobs G.W set G.sel (split set G.sel ways) G.cols
        (tasksOf rgs (split set G.sel ways).length) cds who).job i sy).2.2 := by
    intro i hi sy hsy
    obtain ⟨r, hr, p, part, ht, hp⟩ := hof i hi
    obtain ⟨s, _, hboth⟩ := hjob hr ht hp
    exact (hboth sy hsy).2
  cases h with
  | idle hnil =>
    refine ⟨fun _ r hr s _ => ?_, fun _ => rfl⟩
    rw [← parts_take set G.sel ways]
    intro part hpart
    obtain ⟨p, hp⟩ := List.mem_iff_getElem?.mp hpart
    have hmem := task_mem hr hp
    rw [hnil] at hmem
    cases hmem
  | failed _ hfin herr =>
    refine ⟨fun hok => (by cases hok), fun htaken => ?_⟩
    have hnone := finishes_ok (I := (G.run cds).Sane) (fun i hi sy hsy => ⟨?_, hkeeps i hi sy hsy⟩)
      (G.run cds).sane_new
      hfin
    · rw [hnone] at herr
      cases herr
    · obtain ⟨r, hr, p, part, ht, hp⟩ := hof i hi
      obtain ⟨s, hs, hboth⟩ := hjob hr ht hp
      exact (hboth sy hsy).1.mpr ((parts_take set G.sel ways _ _).mpr (htaken r hr s hs) part
        (List.mem_of_getElem? hp))
  | done _ hfin herr =>
    refine ⟨fun _ r hr s hs => ?_, fun _ => rfl⟩
    have heach := finishes_each (I := (G.run cds).Sane) (fun i hi sy hsy _ => hkeeps i hi sy hsy) hk
      (G.run cds).sane_new hfin herr
    rw [← parts_take set G.sel ways]
    intro part hpart
    obtain ⟨p, hp⟩ := List.mem_iff_getElem?.mp hpart
    obtain ⟨i, hi⟩ := List.mem_iff_getElem?.mp (task_mem hr hp)
    obtain ⟨sy, hsy, hok⟩ := heach i (List.getElem?_eq_some_iff.mp hi).1
    obtain ⟨s', hs', hboth⟩ := hjob hr hi hp
    cases hs.symm.trans hs'
    exact (hboth sy hsy).1.mp hok

/-- A second read of a pair comes to its end when the rows of the window are the claimed ones. -/
theorem rereads_take {W : World} {sel : Sel} (hsel : Selected set sel)
    (hloaded : ∀ s ∈ set.srcs, Loaded s) (hW : Holding W set.srcs held) {rgs : List Rg}
    (hin : ∀ r ∈ rgs, InSet set ⟨r.f, r.g, r.off, r.rows, 0⟩) (htaken : Taken set sel held rgs)
    {gives : Nat → Bool} {k : Nat} (hk : 0 < k) {ps : List Nat} {c : Cols} {r : Except String Cols}
    (hps : ∀ p ∈ ps, p < sel.out.length) (hplain : ∀ p, c.cds p ≠ none → sel.rawAt p = none)
    (h : Rereads W set sel rgs gives who k ps c r) :
    ∃ c', r = .ok c' ∧ ∀ p cd, c'.cds p = some cd → c.cds p = some cd := by
  have hagain : ∀ {p : Nat} {m m' : Shared} {res : Except String Unit}, p < sel.out.length →
      sel.rawAt p = none → Decodes W set (oneSel sel p) (split set (oneSel sel p) 1)
        (fun _ => sel.out.length + p) (tasksOf rgs 1) (fun _ => none) who k m m' res → res = .ok () := by
    intro p m m' res hp hraw hd
    have hG : (Ground.plain W (oneSel sel p) fun _ => sel.out.length + p).Holds set held := by
      refine ⟨⟨hW.lawful, fun _ _ h => absurd rfl h, fun _ _ h => (by cases h),
        fun _ _ h => (by cases h), fun _ h => absurd rfl h⟩, oneSel_selected hsel hp, hloaded, hW,
        fun _ h => absurd rfl h, fun _ h => absurd rfl h, ?_⟩
      intro q hq q' hq' _
      simp only [Ground.plain, oneSel, List.length_singleton] at hq hq'
      omega
    have htakes := @decode_takes _ _ _ _ who hG (Ground.runs_self _) rgs hin 1 k hk m m' res
    simp only [Ground.plain, oneSel_parts] at htakes
    refine (htakes hd).mpr fun r hr s hs q hq => ?_
    have hrow := htaken r hr s hs p hp
    rw [if_pos hraw] at hrow
    rw [if_pos (oneSel_rawAt sel p q)]
    exact hrow
  induction h with
  | nil => exact ⟨_, rfl, fun _ _ h => h⟩
  | keep _ _ ih => exact ih (fun q hq => hps q (List.mem_cons_of_mem _ hq)) hplain
  | failed hgive hd =>
    have hraw := hplain _ (Option.isSome_iff_ne_none.mp hgive.1)
    cases hagain (hps _ List.mem_cons_self) hraw hd
  | again hgive hd _ ih =>
    obtain ⟨c', hc', hsub⟩ := ih (fun q hq => hps q (List.mem_cons_of_mem _ hq)) fun q hq => by
      dsimp only at hq
      split at hq
      · exact absurd rfl hq
      · exact hplain q hq
    refine ⟨c', hc', fun q cd hcd => ?_⟩
    have hq := hsub q cd hcd
    dsimp only at hq
    split at hq
    · cases hq
    · exact hq

/-- A read whose plan is made answers a table when all its row groups are taken. -/
theorem read_takes {W : World} {sel : Sel} (hsel : Selected set sel)
    (hloaded : ∀ s ∈ set.srcs, Loaded s) (hW : Holding W set.srcs held) {owner : ArrayId → Nat}
    (harr : CodedArrays W set.srcs owner) {nthreads k g0 g1 : Nat} (hk : 0 < k) {codes : Bool}
    {m : Mem Nat Cell} {plan : Plan}
    (hplan : planOf W nthreads set sel g0 g1 codes who = .ok plan)
    {res : Except String Table} (h : Reads W nthreads k set sel g0 g1 codes who m res) :
    (∃ t, res = .ok t) ↔ Taken set sel held plan.rgs := by
  obtain ⟨rgs, total, parts, cds⟩ := plan
  obtain ⟨hwindow, ⟨ways, hparts⟩, hcds, _⟩ := planOf_cases hplan
  dsimp only at hwindow hparts hcds ⊢
  subst hparts
  have hin : ∀ r ∈ rgs, InSet set ⟨r.f, r.g, r.off, r.rows, 0⟩ := by
    intro r hr
    have hrgs : rgs = (layout set.srcs g0 g1).1 := by rw [(window_ok hwindow).1]
    rw [hrgs] at hr
    obtain ⟨x, hx, hf, hg, hrows⟩ := layoutFrom_mem g0 g1 0 0 hr
    obtain ⟨s, hs, hn⟩ := mem_groupsOf hx
    exact ⟨s, x.rows, hf ▸ hs, hg ▸ hn, hrows⟩
  have hG : (Ground.pairs W sel owner cds).Holds set held :=
    ⟨pairs_planned hsel hW.lawful owner hcds, hsel, hloaded, hW, fun q _ => harr.owned _,
      fun q _ => harr.inside _, fun _ _ _ _ h => h⟩
  have hdecode : ∀ {m' : Shared} {r : Except String Unit},
      Decodes W set sel (split set sel ways) id (tasksOf rgs (split set sel ways).length)
        (fun p => (cds[p]?).join) who k ⟨m, fun _ => false⟩ m' r →
      (r = .ok () ↔ Taken set sel held rgs) := fun hd =>
    decode_takes hG (pairs_runs W sel owner cds) hin hk hd
  cases h with
  | refused he =>
    rw [hplan] at he
    cases he
  | failed hp hd =>
    rw [hplan] at hp
    cases hp
    have hnot := (hdecode hd).not.mp nofun
    exact ⟨fun ⟨t, ht⟩ => (by cases ht), fun htaken => absurd htaken hnot⟩
  | answered hp hd hre _ =>
    rw [hplan] at hp
    cases hp
    have htaken := (hdecode hd).mp rfl
    refine ⟨fun _ => htaken, fun _ => ?_⟩
    -- A pair is a symbol column, which the Arrow loop counts.
    have hplain : ∀ p, ((cds[p]?).join : Option Codes) ≠ none → sel.rawAt p = none := by
      intro p hp
      obtain ⟨cd, hcd⟩ := Option.ne_none_iff_exists'.mp hp
      by_contra hraw
      obtain ⟨rt, hrt⟩ := Option.ne_none_iff_exists'.mp hraw
      obtain ⟨_, hks, hcodes⟩ := hcds.lt p cd hcd
      obtain ⟨r, hr⟩ : ∃ r, r ∈ rgs := by
        apply List.exists_mem_of_ne_nil
        rintro rfl
        cases hcodes
      obtain ⟨s, _, hs, _⟩ := hin r hr
      exact hsel.raw_ne_sym hrt (List.mem_of_getElem? hs) hks
    obtain ⟨c', rfl, _⟩ := rereads_take hsel hloaded hW hin htaken hk
      (fun p => List.mem_range.mp) hplain hre
    exact ⟨_, rfl⟩

end

/-! ## Every read ends -/

/-- A decode comes to an end, with an error or without. -/
theorem decodes_end (W : World) (set : FileSet) (sel : Sel) (parts : List Part) (cols : Nat → Nat)
    (tasks : List Task) (cds : Nat → Option Codes) (who : String) (k : Nat) (m : Shared) :
    ∃ m' res, Decodes W set sel parts cols tasks cds who k m m' res := by
  by_cases hnil : tasks = []
  · exact ⟨m, .ok (), .idle hnil⟩
  · obtain ⟨s, hfin⟩ :=
      finishes_of_reachable (J := decodeJobs W set sel parts cols tasks cds who) (.start rfl)
    rcases herr : s.err with _ | e
    · exact ⟨s.mem, .ok (), .done hnil hfin herr⟩
    · exact ⟨s.mem, .error e, .failed hnil hfin herr⟩

theorem rereads_end (W : World) (set : FileSet) (sel : Sel) (rgs : List Rg) (gives : Nat → Bool)
    (who : String) (k : Nat) (ps : List Nat) (c : Cols) :
    ∃ r, Rereads W set sel rgs gives who k ps c r ∧
      ∀ c', r = .ok c' → ∀ p cd, c'.cds p = some cd → c.cds p = some cd := by
  induction ps generalizing c with
  | nil =>
    refine ⟨_, .nil, fun c' hc' => ?_⟩
    cases hc'
    exact fun _ _ h => h
  | cons p ps ih =>
    by_cases hgive : (c.cds p).isSome ∧ gives p
    · obtain ⟨m, res, hd⟩ := decodes_end W set (oneSel sel p) (split set (oneSel sel p) 1)
        (fun _ => sel.out.length + p) (tasksOf rgs 1) (fun _ => none) who k ⟨c.mem, fun _ => false⟩
      rcases res with e | u
      · exact ⟨_, .failed hgive hd, nofun⟩
      · obtain ⟨r, hr, hsub⟩ := ih ⟨m.mem, fun q => if q = p then none else c.cds q,
          fun q => if q = p then sel.out.length + p else c.colv q⟩
        refine ⟨r, .again hgive hd hr, fun c' hc' q cd hcd => ?_⟩
        have hq := hsub c' hc' q cd hcd
        dsimp only at hq
        split at hq
        · cases hq
        · exact hq
    · obtain ⟨r, hr, hsub⟩ := ih c
      exact ⟨r, .keep hgive hr, hsub⟩

/-- A read comes to an end, whatever the files hold, where the host has room for its
dictionaries. -/
theorem reads_end (W : World) (nthreads k : Nat) (set : FileSet) (sel : Sel) (g0 g1 : Nat)
    (codes : Bool) (who : String) (m : Mem Nat Cell)
    (hshort : ∀ plan, planOf W nthreads set sel g0 g1 codes who = .ok plan →
      ∀ (p : Nat) cd, (plan.cds[p]?).join = some cd → cd.d.length ≤ I32_MAX) :
    ∃ res, Reads W nthreads k set sel g0 g1 codes who m res := by
  rcases hplan : planOf W nthreads set sel g0 g1 codes who with e | plan
  · exact ⟨_, .refused hplan⟩
  · obtain ⟨m', res, hd⟩ := decodes_end W set sel plan.parts id (tasksOf plan.rgs plan.parts.length)
      (fun p => (plan.cds[p]?).join) who k ⟨m, fun _ => false⟩
    rcases res with e | u
    · exact ⟨_, .failed hplan hd⟩
    · obtain ⟨r, hr, hsub⟩ := rereads_end W set sel plan.rgs m'.gives who k
        (List.range sel.out.length) ⟨m'.mem, fun p => (plan.cds[p]?).join, id⟩
      exact ⟨_, .answered hplan hd hr fun c hc p _ cd hcd =>
        hshort plan hplan p cd (hsub c hc p cd hcd)⟩

/-- One column that is not paired. -/
theorem unpaired_short {W : World} {nthreads : Nat} {set : FileSet} {sel : Sel} {g0 g1 : Nat}
    {codes : Bool} {who : String} {plan : Plan}
    (h : planOf W nthreads set sel g0 g1 codes who = .ok plan) (hcds : plan.cds = [none]) :
    ∀ plan', planOf W nthreads set sel g0 g1 codes who = .ok plan' →
      ∀ (p : Nat) cd, (plan'.cds[p]?).join = some cd → cd.d.length ≤ I32_MAX := by
  intro plan' h' p cd hcd
  cases h.symm.trans h'
  rw [hcds] at hcd
  match p with
  | 0 | p + 1 => cases hcd

/-! ## What is caught -/

/-- Every row group holds as many rows as its footer claims. -/
def Honest (set : FileSet) (held : Src → Nat → Nat) (rgs : List Rg) : Prop :=
  ∀ r ∈ rgs, ∀ s, set.srcs[r.f]? = some s → held s r.g = r.rows

/-- A column of the read goes through Arrow, or some row group of the window holds fewer rows than
its footer claims, or none holds more. -/
def Caught (set : FileSet) (sel : Sel) (held : Src → Nat → Nat) (rgs : List Rg) : Prop :=
  arrowCols sel ≠ [] ∨ (∃ r ∈ rgs, ∃ s, set.srcs[r.f]? = some s ∧ held s r.g < r.rows) ∨
    ∀ r ∈ rgs, ∀ s, set.srcs[r.f]? = some s → held s r.g ≤ r.rows

theorem taken_honest_iff {set : FileSet} {sel : Sel} {held : Src → Nat → Nat} {rgs : List Rg}
    (hcols : 0 < sel.out.length) :
    (Taken set sel held rgs ↔ Honest set held rgs) ↔ Caught set sel held rgs := by
  have hhonest : Honest set held rgs → Taken set sel held rgs := fun h r hr s hs q _ => by
    have hrow := h r hr s hs
    split <;> omega
  by_cases harrow : arrowCols sel = []
  · have hraw : ∀ q < sel.out.length, sel.rawAt q ≠ none := fun q hq hnone => by
      have hmem := mem_arrowCols.mpr ⟨hq, hnone⟩
      rw [harrow] at hmem
      cases hmem
    have htaken : Taken set sel held rgs ↔
        ∀ r ∈ rgs, ∀ s, set.srcs[r.f]? = some s → r.rows ≤ held s r.g := by
      refine ⟨fun h r hr s hs => ?_, fun h r hr s hs q hq => ?_⟩
      · have hrow := h r hr s hs 0 hcols
        rwa [if_neg (hraw 0 hcols)] at hrow
      · rw [if_neg (hraw q hq)]
        exact h r hr s hs
    have hcaught : Caught set sel held rgs ↔
        (∃ r ∈ rgs, ∃ s, set.srcs[r.f]? = some s ∧ held s r.g < r.rows) ∨
          ∀ r ∈ rgs, ∀ s, set.srcs[r.f]? = some s → held s r.g ≤ r.rows := by
      unfold Caught
      simp [harrow]
    rw [hcaught]
    by_cases hfewer : ∃ r ∈ rgs, ∃ s, set.srcs[r.f]? = some s ∧ held s r.g < r.rows
    · obtain ⟨r, hr, s, hs, hlt⟩ := hfewer
      refine ⟨fun _ => .inl ⟨r, hr, s, hs, hlt⟩, fun _ => ⟨fun h => ?_, hhonest⟩⟩
      have := htaken.mp h r hr s hs
      omega
    · have hall : ∀ r ∈ rgs, ∀ s, set.srcs[r.f]? = some s → r.rows ≤ held s r.g :=
        fun r hr s hs => Nat.not_lt.mp fun hlt => hfewer ⟨r, hr, s, hs, hlt⟩
      refine ⟨fun h => .inr fun r hr s hs => ?_, fun h => ⟨fun _ r hr s hs => ?_, hhonest⟩⟩
      · exact Nat.le_of_eq (h.mp (htaken.mpr hall) r hr s hs)
      · have hle := (h.resolve_left hfewer) r hr s hs
        have hge := hall r hr s hs
        omega
  · obtain ⟨q, hq⟩ := List.exists_mem_of_ne_nil _ harrow
    obtain ⟨hlt, hnone⟩ := mem_arrowCols.mp hq
    refine ⟨fun _ => .inl harrow, fun _ => ⟨fun h r hr s hs => ?_, hhonest⟩⟩
    have hrow := h r hr s hs q hlt
    rw [if_pos hnone] at hrow
    exact hrow.symm

end parquet_interop.read

namespace parquet_interop.stream

open parquet_interop.read

/-- Every row group of a streamed file that claims rows holds as many. -/
def Source.Honest (src : Source) : Prop :=
  ∀ (g : Nat) (n : Int64), src.rg_rows[g]? = some n → 0 < n →
    ∃ bs, src.groups[g]? = some bs ∧ (bs.map (·.rows)).sum = asUsize n

/-- One column of ints, in a row group that claims one row and holds these. -/
def oneInt (xs : List Cell) : Source where
  names := ["x"]
  lts := [.KI]
  rg_rows := [1]
  groups := [[⟨xs.length, [xs], fun _ h => congrArg _ (List.mem_singleton.mp h)⟩]]
  lts_len := plainInts.lts_len
  cols_len := by
    intro g hg b hb
    rw [List.mem_singleton] at hg
    subst hg
    rw [List.mem_singleton] at hb
    subst hb
    rfl

/-- Nothing stops a stream over the old splay. -/
def sweeping : Fate := { Fate.good with rename := true, removed := fun _ => true }

theorem oneInt_swapped (xs : List Cell) :
    ¬(sweeping.refused = true ∨ Barred (oneInt xs) splayDst oldSplay) ∧
      Swapped sweeping (oneInt xs) splayDst (splayDst.scratch 7 0) oldSplay := by
  have hfiles : (oneInt xs).files = plainInts.files := rfl
  have hfree : ¬(sweeping.refused = true ∨ Barred (oneInt []) splayDst oldSplay) := by
    decide
  refine ⟨hfree, ⟨rfl, ?_, rfl, ?_⟩, rfl, fun _ _ _ => rfl, fun _ _ => rfl⟩
  · decide
  · rw [hfiles]
    decide

end parquet_interop.stream

namespace parquet_interop.read

open parquet_interop.stream

/-! ## The law -/

/-- A read fails on a wrong count, and only there, exactly when one of its loops comes to compare
that count. A stream never compares one. -/
theorem a_wrong_count_fails_the_call_iff_a_loop_compares_it {srcs : List Src} {who : String}
    {set : FileSet} (hset : agree srcs who = .ok set) {want : Option (List String)} {sel : Sel}
    (hsel : select set want who = .ok sel) (hcols : 0 < sel.out.length)
    (hloaded : ∀ s ∈ srcs, Loaded s) {W : World} {held : Src → Nat → Nat}
    (hW : Holding W srcs held) {owner : ArrayId → Nat} (harr : CodedArrays W srcs owner)
    {nthreads k g0 g1 : Nat} (hk : 0 < k) {codes : Bool} {m : Mem Nat Cell} {plan : Plan}
    (hplan : planOf W nthreads set sel g0 g1 codes who = .ok plan)
    {res : Except String Table} (h : Reads W nthreads k set sel g0 g1 codes who m res) {w : Fate}
    {src : Source} {D : Dst} {pid n : Nat} {t : Tree} (hb : ¬(w.refused = true ∨ Barred src D t))
    (hswap : Swapped w src D (D.scratch pid n) t) :
    (((∃ t, res = .ok t) ↔ Honest set held plan.rgs) ↔ Caught set sel held plan.rgs) ∧
      (((streamTable w src D pid n t).ok = true ↔ src.Honest) ↔ src.Honest) := by
  have hsrcs := (agree_cases hset).1
  subst hsrcs
  refine ⟨?_, ?_⟩
  · rw [read_takes (select_selected hset hsel) hloaded hW harr hk hplan h]
    exact taken_honest_iff hcols
  · have hok := (stream_ok_iff hb).mpr hswap
    simp only [hok, true_iff]

theorem ofRows_counts {T : Type} {maxdef : Int16} (xs : List (Option T)) :
    (RecordReader.ofRows maxdef xs).Counts maxdef xs.length := by
  intro done want hdone hwant
  have hlen : ((xs.drop done).take want).length = min want (xs.length - done) := by
    rw [List.length_take, List.length_drop]
  refine ⟨_, rfl, hlen, rfl, ?_, fun _ _ => ?_⟩
  · calc (packed ((xs.drop done).take want)).length
      _ ≤ ((xs.drop done).take want).length := length_packed_le _
      _ ≤ want := List.length_take_le _ _
  · exact Nat.le_of_eq (List.length_map _).symm

theorem stampWorld_holding (rows : Src → Nat → List (Option Int64)) (path : String) (u : TimeUnit)
    (counts : List Int64) :
    Holding (stampWorld rows) [stampFile path u counts] fun s g => (rows s g).length := by
  refine ⟨safe_lawful _, fun _ _ => rfl, fun _ _ => rfl, ?readers, ?batches⟩
  case readers =>
    intro s hs g n _ l d hd _ _
    cases List.mem_singleton.mp hs
    obtain rfl : d = ⟨0, .INT64, 1, 0⟩ := List.mem_singleton.mp (List.mem_of_getElem? hd)
    exact ⟨_, rfl, ofRows_counts (rows _ g)⟩
  case batches =>
    intro s hs g n roots _ _ hlts
    refine ⟨[stampBatch s roots (rows s g)], rfl, List.sum_singleton, fun i c hc b hb => ?_⟩
    cases List.mem_singleton.mp hs
    cases List.mem_singleton.mp hb
    refine ⟨⟨typeAt _ c, .i64 (Prim.ofContent (rows (stampFile path u counts) g))⟩, ?_, rfl, ?_⟩
    · simp only [stampBatch, List.getElem?_map, hc, Option.map_some]
    · obtain ⟨lt, hlt⟩ := hlts c (List.mem_of_getElem? hc)
      cases c with
      | zero => trivial
      | succ c => cases hlt

/-- Timestamps bring no symbols. -/
theorem stampWorld_symbols (rows : Src → Nat → List (Option Int64)) (srcs : List Src) :
    CodedArrays (stampWorld rows) srcs fun _ => 0 := by
  have hnone : ∀ {s : Src} {g c : Nat} {keys : Prim Int} {values : ArrayId},
      ¬Brings (stampWorld rows) s g c keys values := by
    rintro s g c keys values ⟨roots, bs, b, hb, i, arr, hbs, hi, harr, hd⟩
    rw [stampWorld_batches hbs, List.mem_singleton] at hb
    subst hb
    simp only [stampBatch, List.getElem?_map, hi, Option.map_some, Option.some.injEq] at harr
    subst harr
    cases hd
  exact ⟨fun _ _ _ _ _ _ h => absurd h hnone, fun _ _ _ _ _ _ h => absurd h hnone⟩

/-- A chunk of two timestamps, one of them null. -/
def twoStamps (_ : Src) (_ : Nat) : List (Option Int64) := [some 1000000000000000001, none]

/-- A file of one row group that claims `n` rows. -/
def claiming (n : Int64) : FileSet := ⟨[stampFile "p" .nanosecond [n]], ["t"], [.ok .KP]⟩

def stampSel : Sel := ⟨[0], [.KP], [0], [some (.I64 1)]⟩

/-- Two rows where two are claimed, and one where one is. -/
theorem a_true_count_is_read_and_streamed :
    ∃ res, Reads (stampWorld twoStamps) 1 1 (claiming 2) stampSel 0 1 false "pq_read"
        (fun _ => .j 0) res ∧
      (((∃ t, res = .ok t) ↔ Honest (claiming 2) (fun _ _ => 2) [⟨0, 0, 0, 2⟩]) ↔
        Caught (claiming 2) stampSel (fun _ _ => 2) [⟨0, 0, 0, 2⟩]) ∧
      (((streamTable sweeping (oneInt [.i 5]) splayDst 7 0 oldSplay).ok = true ↔
        (oneInt [.i 5]).Honest) ↔ (oneInt [.i 5]).Honest) := by
  have hset : agree [stampFile "p" .nanosecond [2]] "pq_read" = .ok (claiming 2) := rfl
  have hsel : select (claiming 2) none "pq_read" = .ok stampSel := rfl
  have hplan : planOf (stampWorld twoStamps) 1 (claiming 2) stampSel 0 1 false "pq_read" =
      .ok ⟨[⟨0, 0, 0, 2⟩], 2, [⟨[0], [], [], []⟩], [none]⟩ := rfl
  obtain ⟨res, hres⟩ := reads_end (stampWorld twoStamps) 1 1 (claiming 2) stampSel 0 1 false "pq_read"
    (fun _ => .j 0) (unpaired_short hplan rfl)
  obtain ⟨hfree, hswap⟩ := oneInt_swapped [.i 5]
  refine ⟨res, hres, a_wrong_count_fails_the_call_iff_a_loop_compares_it hset hsel (by decide)
    (fun s hs => ?_) (stampWorld_holding twoStamps "p" .nanosecond [2]) (stampWorld_symbols _ _)
    (by decide) hplan hres hfree hswap⟩
  cases List.mem_singleton.mp hs
  exact ⟨rfl, rfl, rfl⟩

/-- A read drops the second of two timestamps where the footer claims one, and a stream answers a
splay without rows. -/
theorem a_row_too_many_and_a_row_too_few_are_let_through :
    (∃ t, Reads (stampWorld twoStamps) 1 1 (claiming 1) stampSel 0 1 false "pq_read" (fun _ => .j 0)
        (.ok t)) ∧
      ¬Honest (claiming 1) (fun s g => (twoStamps s g).length) [⟨0, 0, 0, 1⟩] ∧
      (streamTable sweeping (oneInt []) splayDst 7 0 oldSplay).ok = true ∧ ¬(oneInt []).Honest := by
  have hset : agree [stampFile "p" .nanosecond [1]] "pq_read" = .ok (claiming 1) := rfl
  have hsel : select (claiming 1) none "pq_read" = .ok stampSel := rfl
  have hplan : planOf (stampWorld twoStamps) 1 (claiming 1) stampSel 0 1 false "pq_read" =
      .ok ⟨[⟨0, 0, 0, 1⟩], 1, [⟨[0], [], [], []⟩], [none]⟩ := rfl
  have hloaded : ∀ s ∈ (claiming 1).srcs, Loaded s := by
    intro s hs
    cases List.mem_singleton.mp hs
    exact ⟨rfl, rfl, rfl⟩
  refine ⟨?_, fun h => ?_, ?_, fun h => ?_⟩
  · obtain ⟨res, hres⟩ := reads_end (stampWorld twoStamps) 1 1 (claiming 1) stampSel 0 1 false
      "pq_read" (fun _ => .j 0) (unpaired_short hplan rfl)
    have htaken : Taken (claiming 1) stampSel (fun s g => (twoStamps s g).length) [⟨0, 0, 0, 1⟩] := by
      intro r hr s _ q hq
      cases List.mem_singleton.mp hr
      obtain rfl : q = 0 := Nat.lt_one_iff.mp hq
      exact Nat.le_succ 1
    obtain ⟨t, rfl⟩ := (read_takes (select_selected hset hsel) hloaded
      (stampWorld_holding twoStamps "p" .nanosecond [1]) (stampWorld_symbols _ _) (by decide) hplan
      hres).mpr htaken
    exact ⟨t, hres⟩
  · have hrow := h ⟨0, 0, 0, 1⟩ List.mem_cons_self _ rfl
    cases hrow
  · obtain ⟨hfree, hswap⟩ := oneInt_swapped []
    exact (stream_ok_iff hfree).mpr hswap
  · obtain ⟨bs, hbs, hsum⟩ := h 0 1 rfl (by decide)
    cases hbs
    cases hsum

end parquet_interop.read
