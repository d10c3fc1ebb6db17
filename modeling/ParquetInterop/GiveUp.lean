-- Which columns a decode gives up as a pair: the ones of which a worker meets
-- an array that is no dictionary, or a dictionary value outside the union.
import ParquetInterop.CodeRange

open parquet_interop.ffi parquet_interop.footer
open lib.jobs lib.stores

namespace parquet_interop.read

/-! ## One array -/

/-- The array is no dictionary, or one of its values has no id. -/
def Refuses (heap : Heap) (cd : Codes) (arr : Arr) : Prop :=
  ∀ keys values, arr.data = .dict keys values → ∀ vs, heap values = .ok vs → lutOf cd vs = none

section
variable {G : Ground} {cds : Nat → Option Codes} {dt : Nat → DataType}

/-- A column of a batch is given up exactly when its array refuses. -/
theorem arrowColumn_gives (hG : G.Planned) (hcds : G.Runs cds) {sy : SymCache}
    (hsy : (G.run cds).Sane sy) {q : Nat} {arr : Arr} (harr : G.Suits q (dt q) arr) (off : Nat) :
    ∃ acts sy', arrowColumn G.W G.sel G.cols cds q arr off sy = ((acts, .ok ()), sy') ∧
      (G.run cds).Sane sy' ∧ ∀ r, Act.give r ∈ acts ↔
        r = q ∧ ∃ cd, cds q = some cd ∧ Refuses G.W.crate.heap cd arr := by
  obtain ⟨acts, sy', hcol, hsy', _⟩ : ∃ acts sy',
      arrowColumn G.W G.sel G.cols cds q arr off sy = ((acts, .ok ()), sy') ∧ (G.run cds).Sane sy' ∧
        G.Lands acts [q] off arr.len dt fun _ => arr.content G.W.crate.heap :=
    arrowColumn_lands hG hcds hsy harr off rfl
  refine ⟨acts, sy', hcol, hsy', fun r => ?_⟩
  have hstores : ∀ {os : List Store}, Act.give r ∉ os.map Act.store := by simp
  have hsane : sy.Coherent G.W.crate.heap ∧ LutsFit G.W.crate.heap cds G.owner G.sel sy := hsy
  unfold arrowColumn at hcol
  rcases hcd : cds q with _ | cd
  · simp only [hcd] at hcol
    split at hcol
    · cases hcol
    · cases hcol
      simp
  simp only [hcd] at hcol
  rcases hsym : symCodes G.W.crate.heap arr cd q (G.cols q) off sy with ⟨e | acts', sy1⟩
  · rw [hsym] at hcol
    cases hcol
  rw [hsym] at hcol
  cases hcol
  obtain ⟨cd', hcd', -⟩ := hcds.under q cd hcd
  have hty := harr.typed
  have hkeyed := harr.keyed (by rw [hcd']; nofun)
  -- What is no dictionary is given up, and refuses.
  have hplain : acts = [.give q] → (∀ keys values, arr.data ≠ .dict keys values) →
      (Act.give r ∈ acts ↔ r = q ∧ ∃ cd', some cd = some cd' ∧ Refuses G.W.crate.heap cd' arr) := by
    rintro rfl hno
    have hrefuses : Refuses G.W.crate.heap cd arr := fun keys values h => absurd h (hno keys values)
    simp [hrefuses]
  obtain ⟨adt, data⟩ := arr
  unfold symCodes at hsym
  cases adt with
  | dictionary k v =>
    cases data with
    | dict keys values =>
      obtain ⟨hk, vs, hvs⟩ := hty
      obtain ⟨sy2, hlut, _⟩ := lut_spec hsane.1 hsane.2
        (fun p p' hp hp' => hG.inj p p' (hcds.pairs hp) (hcds.pairs hp')) hcd
        (hkeyed keys values rfl).1 hvs
      simp only [hk, if_true, fillCodes, hlut] at hsym
      rcases hlo : lutOf cd vs with _ | lut
      · rw [hlo] at hsym
        cases hsym
        have hrefuses : Refuses G.W.crate.heap cd ⟨.dictionary k v, .dict keys values⟩ := by
          rintro _ _ ⟨rfl, rfl⟩ us hus
          cases hvs.symm.trans hus
          exact hlo
        simp [hrefuses]
      · rw [hlo] at hsym
        cases hsym
        have htakes : ¬Refuses G.W.crate.heap cd ⟨.dictionary k v, .dict keys values⟩ := by
          intro h
          cases (h keys values rfl vs hvs).symm.trans hlo
        simp [htakes]
    | _ => exact hty.elim
  | _ =>
    cases hsym
    apply hplain rfl
    rintro keys values rfl
    exact hty.elim

/-- The positions that a batch gives up. -/
theorem batchColumns_gives (hG : G.Planned) (hcds : G.Runs cds) {b : Batch}
    {places : List (Nat × Nat)}
    (hb : ∀ x ∈ places, ∃ arr, b.columns[x.2]? = some arr ∧ G.Suits x.1 (dt x.1) arr)
    {sy : SymCache} (hsy : (G.run cds).Sane sy) (off : Nat) :
    ∃ acts sy', batchColumns G.W G.sel G.cols cds b off places sy = ((acts, .ok ()), sy') ∧
      (G.run cds).Sane sy' ∧ ∀ r, Act.give r ∈ acts ↔ ∃ i cd arr, (r, i) ∈ places ∧
        cds r = some cd ∧ b.columns[i]? = some arr ∧ Refuses G.W.crate.heap cd arr := by
  induction places generalizing sy with
  | nil => exact ⟨[], sy, rfl, hsy, by simp⟩
  | cons x places ih =>
    obtain ⟨q, i⟩ := x
    obtain ⟨arr, harr, hsuits⟩ := hb (q, i) List.mem_cons_self
    obtain ⟨acts, sy1, hacts, hsy1, hgives⟩ := arrowColumn_gives hG hcds hsy hsuits off
    obtain ⟨more, sy2, hmore, hsy2, hgives'⟩ := ih (fun y hy => hb y (List.mem_cons_of_mem _ hy)) hsy1
    refine ⟨acts ++ more, sy2, ?_, hsy2, fun r => ?_⟩
    · unfold batchColumns
      rw [harr]
      dsimp only
      rw [hacts]
      dsimp only
      rw [hmore]
    · rw [List.mem_append, hgives, hgives']
      constructor
      · rintro (⟨rfl, cd, hcd, href⟩ | ⟨j, cd, arr', hin, hrest⟩)
        · exact ⟨i, cd, arr, List.mem_cons_self, hcd, harr, href⟩
        · exact ⟨j, cd, arr', List.mem_cons_of_mem _ hin, hrest⟩
      · rintro ⟨j, cd, arr', hin, hcd, harr', href⟩
        rcases List.mem_cons.mp hin with he | hin
        · cases he
          cases harr.symm.trans harr'
          exact Or.inl ⟨rfl, cd, hcd, href⟩
        · exact Or.inr ⟨j, cd, arr', hin, hcd, harr', href⟩

variable (dt) in
/-- The positions that the batches of a row group give up. -/
theorem arrowLoop_gives (hG : G.Planned) (hcds : G.Runs cds) (who : String)
    {places : List (Nat × Nat)} {bs : List Batch}
    (hbs : ∀ b ∈ bs, ∀ x ∈ places, ∃ arr, b.columns[x.2]? = some arr ∧ G.Suits x.1 (dt x.1) arr)
    {sy : SymCache} (hsy : (G.run cds).Sane sy) (off : Nat) :
    ∃ acts fin sy', arrowLoop G.W G.sel G.cols who cds places (bs.map .ok) off sy =
        ((acts, .ok fin), sy') ∧ (G.run cds).Sane sy' ∧ ∀ r, Act.give r ∈ acts ↔
          ∃ b ∈ bs, ∃ i cd arr, (r, i) ∈ places ∧ cds r = some cd ∧ b.columns[i]? = some arr ∧
            Refuses G.W.crate.heap cd arr := by
  induction bs generalizing sy off with
  | nil => exact ⟨[], off, sy, rfl, hsy, by simp⟩
  | cons b bs ih =>
    obtain ⟨acts, sy1, hacts, hsy1, hgives⟩ :=
      batchColumns_gives hG hcds (hbs b List.mem_cons_self) hsy off
    obtain ⟨more, fin, sy2, hmore, hsy2, hgives'⟩ :=
      ih (fun b' hb' => hbs b' (List.mem_cons_of_mem _ hb')) hsy1 (off + b.num_rows)
    refine ⟨acts ++ more, fin, sy2, ?_, hsy2, fun r => ?_⟩
    · rw [List.map_cons]
      unfold arrowLoop
      rw [hacts]
      dsimp only
      rw [hmore]
    · rw [List.mem_append, hgives, hgives', List.exists_mem_cons_iff]

end

/-! ## One task -/

/-- The reader brings `arr` for position `q` of a part, from row group `g` of file `f`. -/
def MeetsArray (W : World) (set : FileSet) (sel : Sel) (part : Part) (f g q : Nat) (arr : Arr) : Prop :=
  q ∈ part.outs ∧ ∃ s mask, ∃ bs : List Batch, ∃ b ∈ bs, ∃ i : Nat, set.srcs[f]? = some s ∧
    part.masks[f]? = some mask ∧ W.batches s mask g = .ok (bs.map .ok) ∧
    mask.roots[i]? = some (sel.col q) ∧ b.columns[i]? = some arr

section
variable {G : Ground} {set : FileSet} {content : Content} {Q : Nat → Prop} {who : String}

/-- A task that succeeds gives up the positions of which it has met an array that refuses. -/
theorem one_gives (hG : G.Fits set content Q) {cds : Nat → Option Codes} (hcds : G.Runs cds) {k : Nat}
    {part : Part} (hpart : part ∈ split set G.sel k) {t : Task} (ht : InSet set t)
    {sy sy' : SymCache} (hsy : (G.run cds).Sane sy) {acts : List Act}
    (h : one G.W G.sel G.cols who set part cds t sy = ((acts, .ok ()), sy')) (r : Nat) :
    Act.give r ∈ acts ↔ ∃ cd arr, cds r = some cd ∧ MeetsArray G.W set G.sel part t.f t.g r arr ∧
      Refuses G.W.crate.heap cd arr := by
  rcases split_cases hpart with ⟨q, rt, rfl, _, _⟩ | ⟨outs, _, rfl, hnd, houts⟩
  · -- A zero-copy part stores, and has no Arrow column.
    obtain ⟨_, _, _, _, os, _, _, _, rfl, _⟩ := one_raw_ok h
    refine iff_of_false (by simp) ?_
    rintro ⟨_, _, _, ⟨hin, _⟩, _⟩
    cases hin
  have houts := fun q hq => (houts q hq).1
  obtain ⟨src, bs, hsrc, hbs, hsum, hloop⟩ := one_arrow_ok h
  have hmem : src ∈ set.srcs := List.mem_of_getElem? hsrc
  obtain ⟨hbatched, _⟩ := hG.batched hnd houts ht hsrc hbs hsum
  have hmask : (arrowPart set G.sel outs).masks[t.f]? = some ⟨rootsOf G.sel outs⟩ := by
    simp only [arrowPart, rootsOf, List.getElem?_map, hsrc, Option.map_some]
  have hsuits : ∀ b ∈ bs, ∀ x ∈ outs.map fun q => (q, (rootsOf G.sel outs).idxOf (G.sel.col q)),
      ∃ arr, b.columns[x.2]? = some arr ∧ G.Suits x.1 (typeAt src (G.sel.col x.1)) arr := by
    intro b hb x hx
    obtain ⟨q, hq, rfl⟩ := List.mem_map.mp hx
    exact hbatched.suits hG.selected houts hmem hb hq
  rw [arrow_places] at hloop
  obtain ⟨acts', fin, sy1, hloop', _, hgives⟩ := arrowLoop_gives (fun q => typeAt src (G.sel.col q))
    hG.toPlanned hcds who hsuits hsy t.off
  cases hloop.symm.trans hloop'
  rw [hgives]
  constructor
  · rintro ⟨b, hb, i, cd, arr, hin, hcd, harr, href⟩
    obtain ⟨q, hq, he⟩ := List.mem_map.mp hin
    cases he
    exact ⟨cd, arr, hcd, ⟨hq, src, _, bs, b, hb, _, hsrc, hmask, hbs, root_place hq, harr⟩, href⟩
  · rintro ⟨cd, arr, hcd, ⟨hq, s, mask, bs', b, hb, i, hs', hm, hbs', hi, harr⟩, href⟩
    cases hsrc.symm.trans hs'
    cases hmask.symm.trans hm
    have hsame : bs = bs' := List.map_injective_iff.mpr (fun _ _ h => Except.ok.inj h)
      (Except.ok.inj (hbs.symm.trans hbs'))
    subst hsame
    -- The projection has each column once.
    have hi' : i = (rootsOf G.sel outs).idxOf (G.sel.col r) := by
      obtain ⟨hlt, hget⟩ := List.getElem?_eq_some_iff.mp hi
      have hnodup : (rootsOf G.sel outs).Nodup :=
        (arrowPart_roots hG.selected hnd houts).imp fun h => Nat.ne_of_lt h
      rw [← hget, hnodup.idxOf_getElem]
    subst hi'
    exact ⟨b, hb, _, cd, arr, List.mem_map.mpr ⟨r, hq, rfl⟩, hcd, harr, href⟩

/-- A task that succeeds meets arrays of the type of the file, and the rows of the row group are in
them. -/
theorem one_met (hG : G.Fits set content Q) {cds : Nat → Option Codes} {k : Nat} {part : Part}
    (hpart : part ∈ split set G.sel k) {t : Task} (ht : InSet set t) {sy sy' : SymCache} {acts : List Act}
    (h : one G.W G.sel G.cols who set part cds t sy = ((acts, .ok ()), sy')) {q : Nat}
    (hq : q ∈ part.outs) :
    (∀ arr, MeetsArray G.W set G.sel part t.f t.g q arr → ∀ s, set.srcs[t.f]? = some s →
        arr.data_type = typeAt s (G.sel.col q) ∧ arr.Typed G.W.crate.heap) ∧
      (0 < t.rows → ∃ arr, MeetsArray G.W set G.sel part t.f t.g q arr) ∧
      ∀ s, set.srcs[t.f]? = some s → ∀ x ∈ content s t.g (G.sel.col q),
        ∃ arr, MeetsArray G.W set G.sel part t.f t.g q arr ∧ x ∈ arr.content G.W.crate.heap := by
  rcases split_cases hpart with ⟨q', rt, rfl, _, _⟩ | ⟨outs, _, rfl, hnd, houts⟩
  · cases hq
  have houts := fun q hq => (houts q hq).1
  obtain ⟨src, bs, hsrc, hbs, hsum, _⟩ := one_arrow_ok h
  obtain ⟨hbatched, hcontent⟩ := hG.batched hnd houts ht hsrc hbs hsum
  have hmask : (arrowPart set G.sel outs).masks[t.f]? = some ⟨rootsOf G.sel outs⟩ := by
    simp only [arrowPart, rootsOf, List.getElem?_map, hsrc, Option.map_some]
  refine ⟨?_, ?_, ?_⟩
  · rintro arr ⟨_, s', mask, bs', b, hb, i, hs', hm, hbs', hi, harr⟩ s hs
    cases hsrc.symm.trans hs
    cases hsrc.symm.trans hs'
    cases hmask.symm.trans hm
    have hsame : bs = bs' := List.map_injective_iff.mpr (fun _ _ h => Except.ok.inj h)
      (Except.ok.inj (hbs.symm.trans hbs'))
    subst hsame
    obtain ⟨arr', harr', hdt, hty⟩ := hbatched.typed i _ hi b hb
    cases harr.symm.trans harr'
    exact ⟨hdt, hty⟩
  · intro hrows
    cases bs with
    | nil =>
      rw [List.map_nil, List.sum_nil] at hsum
      omega
    | cons b bs =>
      obtain ⟨arr, harr, _⟩ :=
        hbatched.suits hG.selected houts (List.mem_of_getElem? hsrc) List.mem_cons_self hq
      exact ⟨arr, hq, src, _, b :: bs, b, List.mem_cons_self, _, hsrc, hmask, hbs, root_place hq, harr⟩
  · intro s hs x hx
    cases hsrc.symm.trans hs
    rw [← hcontent q hq] at hx
    obtain ⟨b, hb, hx⟩ := List.mem_flatMap.mp hx
    obtain ⟨arr, harr, _⟩ := hbatched.suits hG.selected houts (List.mem_of_getElem? hsrc) hb hq
    refine ⟨arr, ⟨hq, src, _, bs, b, hb, _, hsrc, hmask, hbs, root_place hq, harr⟩, ?_⟩
    unfold batchRows at hx
    rwa [harr] at hx

/-! ## A decode -/

/-- Some worker meets an array of position `q` that refuses. -/
def Refusing (W : World) (set : FileSet) (sel : Sel) (rgs : List Rg) (parts : List Part)
    (cds : Nat → Option Codes) (q : Nat) : Prop :=
  ∃ x ∈ rgs, ∃ part ∈ parts, ∃ cd arr, cds q = some cd ∧
    MeetsArray W set sel part x.f x.g q arr ∧ Refuses W.crate.heap cd arr

/-- After a decode without an error a column is given up exactly when a worker has met an array
that refuses, in whatever order the tasks were taken and whichever cache they met. -/
theorem decode_gives (hG : G.Fits set content Q) {cds : Nat → Option Codes} (hcds : G.Runs cds)
    {rgs : List Rg} (hrgs : LaidOut set rgs) {ways k : Nat} (hk : 0 < k) {m m' : Shared}
    (h : Decodes G.W set G.sel (split set G.sel ways) G.cols
      (tasksOf rgs (split set G.sel ways).length) cds who k m m' (.ok ())) {q : Nat}
    (hm : m.gives q = false) :
    m'.gives q = true ↔ Refusing G.W set G.sel rgs (split set G.sel ways) cds q := by
  cases h with
  | idle hnil =>
    refine iff_of_false (by simp [hm]) ?_
    rintro ⟨x, hx, part, hpart, _⟩
    obtain ⟨p, hp⟩ := List.mem_iff_getElem?.mp hpart
    have ht := task_mem hx hp
    rw [hnil] at ht
    cases ht
  | done _ hfin herr =>
    have hset := hrgs.tasks (n := (split set G.sel ways).length)
    have hkeeps := (decode_apart hG hcds hrgs.apart hset who (k := ways)).keeps
    have hgives : ∀ {i : Nat} {sy : SymCache}, (G.run cds).Sane sy →
        ((decodeJobs G.W set G.sel (split set G.sel ways) G.cols
          (tasksOf rgs (split set G.sel ways).length) cds who).job i sy).2.1 = .ok () →
        ∃ t part, (tasksOf rgs (split set G.sel ways).length)[i]? = some t ∧
          (split set G.sel ways)[t.p]? = some part ∧
          (Act.give q ∈ ((decodeJobs G.W set G.sel (split set G.sel ways) G.cols
            (tasksOf rgs (split set G.sel ways).length) cds who).job i sy).1 ↔
              ∃ cd arr, cds q = some cd ∧ MeetsArray G.W set G.sel part t.f t.g q arr ∧
                Refuses G.W.crate.heap cd arr) := by
      intro i sy hsy hok
      obtain ⟨t, part, ht, hp, hone⟩ := job_ok hok
      have hin := hset t (List.mem_of_getElem? ht)
      exact ⟨t, part, ht, hp, one_gives hG hcds (List.mem_of_getElem? hp) hin hsy hone q⟩
    constructor
    · -- A flag that is up was put up by a task, which has met the array.
      refine finishes_keeps_fine (P := fun m => m.gives q = true →
        Refusing G.W set G.sel rgs (split set G.sel ways) cds q) hkeeps ?_ (G.run cds).sane_new
        (fun hup => absurd (hm.symm.trans hup) Bool.false_ne_true) hfin herr
      intro i _ sy hsy hok o ho m hkept hup
      obtain ⟨t, part, ht, hp, hiff⟩ := hgives hsy hok
      cases o with
      | store o => exact hkept hup
      | give r =>
        by_cases hr : q = r
        · subst hr
          obtain ⟨x, hx, he, _⟩ := mem_tasksOf (List.mem_of_getElem? ht)
          obtain ⟨cd, arr, hcd, hmeets, href⟩ := hiff.mp ho
          rw [he] at hmeets
          exact ⟨x, hx, part, List.mem_of_getElem? hp, cd, arr, hcd, hmeets, href⟩
        · simp only [decodeJobs, Act.exec, hr, decide_false, Bool.false_or] at hup
          exact hkept hup
    · -- The task that meets the array puts the flag up, and no other takes it down.
      rintro ⟨x, hx, part, hpart, cd, arr, hcd, hmeets, href⟩
      obtain ⟨p, hp⟩ := List.mem_iff_getElem?.mp hpart
      obtain ⟨i, hi⟩ := List.mem_iff_getElem?.mp (task_mem hx hp)
      have hapart : Apart (decodeJobs G.W set G.sel (split set G.sel ways) G.cols
          (tasksOf rgs (split set G.sel ways).length) cds who) (G.run cds).Sane
          fun j m => j = i → m.gives q = true := by
        refine ⟨hkeeps, ?post, ?apart⟩
        case post =>
          rintro j _ sy hsy hok m rfl
          obtain ⟨t, part', ht', hp', hiff⟩ := hgives hsy hok
          cases hi.symm.trans ht'
          cases hp.symm.trans hp'
          exact (foldl_exec_gives m _ q).mpr (Or.inr (hiff.mpr ⟨cd, arr, hcd, hmeets, href⟩))
        case apart =>
          intro j _ _ _ _ _ _ _ _ _ _ rest _ a _ m hup hj
          have hup := (foldl_exec_gives m rest q).mp (hup hj)
          refine (foldl_exec_gives _ rest q).mpr (hup.imp_left fun hm => ?_)
          cases a with
          | store o => exact hm
          | give r => simp [decodeJobs, Act.exec, hm]
      exact finishes_post hapart hk (G.run cds).sane_new hfin herr i
        (List.getElem?_eq_some_iff.mp hi).1 rfl

/-- What a decode without an error has met of a position: arrays of its type, with the rows of the
files in them. -/
theorem decode_met (hG : G.Fits set content Q) {cds : Nat → Option Codes} (hcds : G.Runs cds)
    {rgs : List Rg} (hrgs : LaidOut set rgs) {ways k : Nat} (hk : 0 < k) {m m' : Shared}
    (h : Decodes G.W set G.sel (split set G.sel ways) G.cols
      (tasksOf rgs (split set G.sel ways).length) cds who k m m' (.ok ())) {x : Rg} (hx : x ∈ rgs)
    {part : Part} (hpart : part ∈ split set G.sel ways) {q : Nat} (hq : q ∈ part.outs) :
    (∀ arr, MeetsArray G.W set G.sel part x.f x.g q arr → ∀ s, set.srcs[x.f]? = some s →
        arr.data_type = typeAt s (G.sel.col q) ∧ arr.Typed G.W.crate.heap) ∧
      (0 < x.rows → ∃ arr, MeetsArray G.W set G.sel part x.f x.g q arr) ∧
      ∀ s, set.srcs[x.f]? = some s → ∀ y ∈ content s x.g (G.sel.col q),
        ∃ arr, MeetsArray G.W set G.sel part x.f x.g q arr ∧ y ∈ arr.content G.W.crate.heap := by
  obtain ⟨p, hp⟩ := List.mem_iff_getElem?.mp hpart
  have ht := task_mem hx hp
  cases h with
  | idle hnil =>
    rw [hnil] at ht
    cases ht
  | done _ hfin herr =>
    have hset := hrgs.tasks (n := (split set G.sel ways).length)
    obtain ⟨i, hi⟩ := List.mem_iff_getElem?.mp ht
    obtain ⟨sy, _, hok⟩ := finishes_each (decode_apart hG hcds hrgs.apart hset who (k := ways)).keeps hk
      (G.run cds).sane_new hfin herr i (List.getElem?_eq_some_iff.mp hi).1
    obtain ⟨t, part', ht', hp', hone⟩ := job_ok hok
    cases hi.symm.trans ht'
    cases hp.symm.trans hp'
    exact one_met hG hpart (hset _ ht) hone hq

end

/-! ## The plan of a column -/

/-- The chunk of some row group answers no entries, though its footer names a dictionary page. -/
def EmptyPage (W : World) (srcs : List Src) (rgs : List Rg) (c : Nat) (who : String) : Prop :=
  ∃ r ∈ rgs, ∃ s, srcs[r.f]? = some s ∧ ∃ p, dictPage W s r.g c who = .ok p ∧ p.spans = []

theorem mergePages_none {ps : List (Except String DictBuf × Bool)} {u : Union} {o : Option Union}
    (h : mergePages u ps = .ok o) : o = none ↔ ∃ x ∈ ps, ∃ p, x.1 = .ok p ∧ p.spans = [] := by
  induction ps generalizing u with
  | nil =>
    cases h
    simp
  | cons x ps ih =>
    obtain ⟨r, nulls⟩ := x
    cases r with
    | error e => cases h
    | ok p =>
      unfold mergePages at h
      rw [List.exists_mem_cons_iff]
      split at h
      · rename_i hempty
        cases h
        exact iff_of_true rfl (Or.inl ⟨p, rfl, hempty⟩)
      · rename_i hsome
        rw [ih h]
        simp [hsome]

/-- When a column has a plan. -/
theorem codesPlan_isSome {W : World} {srcs : List Src} {rgs : List Rg} {c : Nat} {who : String}
    {o : Option Codes} (h : codesPlan W srcs rgs c who = .ok o) :
    o.isSome ↔ rgs ≠ [] ∧ allDict srcs rgs c ∧ ¬EmptyPage W srcs rgs c who := by
  unfold codesPlan at h
  split at h
  · rename_i hno
    cases h
    refine iff_of_false (by simp) ?_
    rintro ⟨hne, hall, _⟩
    rcases hno with hno | hno
    · exact hne hno
    · exact hno hall
  rename_i hno
  have hyes : rgs ≠ [] ∧ allDict srcs rgs c := by simpa using hno
  dsimp only at h
  generalize hps : (rgs.filterMap fun r =>
    (srcs[r.f]?).map fun s => (dictPage W s r.g c who, mayHoldNulls s r.g c)) = ps at h
  rcases hm : mergePages ⟨[], [], false, []⟩ ps with e | u
  · rw [hm] at h
    cases h
  rw [hm] at h
  cases h
  have hempty : EmptyPage W srcs rgs c who ↔ ∃ x ∈ ps, ∃ p, x.1 = .ok p ∧ p.spans = [] := by
    rw [← hps]
    constructor
    · rintro ⟨r, hr, s, hs, p, hp, hspans⟩
      exact ⟨_, List.mem_filterMap.mpr ⟨r, hr, by rw [hs]; rfl⟩, p, hp, hspans⟩
    · rintro ⟨x, hx, p, hp, hspans⟩
      obtain ⟨r, hr, hmap⟩ := List.mem_filterMap.mp hx
      obtain ⟨s, hs, rfl⟩ := Option.map_eq_some_iff.mp hmap
      exact ⟨r, hr, s, hs, p, hp, hspans⟩
  rw [Option.isSome_map, hempty, ← mergePages_none hm]
  simp only [hyes.1, hyes.2, ne_eq, not_false_eq_true, true_and]
  cases u <;> simp

theorem codesPlans_get {W : World} {set : FileSet} {sel : Sel} {rgs : List Rg} {who : String}
    {ps : List Nat} {cds : List (Option Codes)} (h : codesPlans W set sel rgs who ps = .ok cds)
    {i p : Nat} (hp : ps[i]? = some p) (hks : sel.lt p = .KS) :
    codesPlan W set.srcs rgs (sel.col p) who = .ok (cds[i]?).join := by
  induction ps generalizing cds i with
  | nil => cases hp
  | cons q ps ih =>
    have hhead : ∀ {x : Option Codes}, (codesPlans W set sel rgs who ps).map (x :: ·) = .ok cds →
        (i = 0 → codesPlan W set.srcs rgs (sel.col p) who = .ok x) →
        codesPlan W set.srcs rgs (sel.col p) who = .ok (cds[i]?).join := by
      intro x hx hzero
      rcases hr : codesPlans W set sel rgs who ps with e | rest
      · rw [hr] at hx
        cases hx
      rw [hr] at hx
      cases hx
      cases i with
      | zero => exact hzero rfl
      | succ i => exact ih hr hp
    unfold codesPlans at h
    split at h
    · split at h
      · cases h
      rename_i x hx
      apply hhead h
      rintro rfl
      cases hp
      exact hx
    · rename_i hne
      apply hhead h
      rintro rfl
      cases hp
      exact absurd hks hne

/-- The plan of a symbol column in a read with codes. -/
theorem planOf_get {W : World} {nthreads : Nat} {set : FileSet} {sel : Sel} {g0 g1 : Nat}
    {who : String} {plan : Plan} (h : planOf W nthreads set sel g0 g1 true who = .ok plan) {p : Nat}
    (hp : p < sel.out.length) (hks : sel.lt p = .KS) :
    plan.parts = split set sel (splitWays nthreads plan.rgs.length sel) ∧
      codesPlan W set.srcs plan.rgs (sel.col p) who = .ok (plan.cds[p]?).join := by
  unfold planOf at h
  split at h
  · cases h
  simp only [if_true] at h
  rename_i rgs total _
  rcases hr : codesPlans W set sel rgs who (List.range sel.out.length) with e | cds
  · rw [hr] at h
    cases h
  rw [hr] at h
  cases h
  exact ⟨rfl, codesPlans_get hr (List.getElem?_range hp) hks⟩

/-- A column that is not given up keeps its plan through the second reads. -/
theorem rereads_stays {W : World} {set : FileSet} {sel : Sel} {rgs : List Rg} {gives : Nat → Bool}
    {who : String} {k : Nat} {ps : List Nat} {c c' : Cols}
    (h : Rereads W set sel rgs gives who k ps c (.ok c')) {p : Nat} (hgive : gives p = false) :
    c'.cds p = c.cds p := by
  generalize hr : (Except.ok c' : Except String Cols) = r at h
  induction h with
  | nil =>
    cases hr
    rfl
  | keep _ _ ih => exact ih hr
  | failed _ _ => cases hr
  | @again q ps c m r hgiven _ _ ih =>
    have hne : p ≠ q := by
      rintro rfl
      rw [hgive] at hgiven
      cases hgiven.2
    rw [ih hr]
    exact if_neg hne

/-! ## The pairs of a read -/

/-- Some row group of the window is of a file whose reader hands out strings for the column. -/
def Inflated (srcs : List Src) (rgs : List Rg) (c : Nat) : Prop :=
  ∃ r ∈ rgs, ∃ s, srcs[r.f]? = some s ∧ ∀ k v, typeAt s c ≠ .dictionary k v

/-- Some worker meets a dictionary with a value outside the union. -/
def Outside (W : World) (set : FileSet) (sel : Sel) (rgs : List Rg) (parts : List Part) (p : Nat)
    (who : String) : Prop :=
  ∃ x ∈ rgs, ∃ part ∈ parts, ∃ arr, MeetsArray W set sel part x.f x.g p arr ∧
    ∃ keys values vs, arr.data = .dict keys values ∧ W.crate.heap values = .ok vs ∧
      ∃ v ∈ vs, (v.map utf8Bytes).getD [] ∉ unionValues W set.srcs rgs (sel.col p) who

section
variable {W : World} {set : FileSet} {sel : Sel} {content : Content} {g0 g1 : Nat}
  {owner : ArrayId → Nat}

theorem layout_rows {srcs : List Src} {r : Rg} (h : r ∈ (layout srcs g0 g1).1) : 0 < r.rows := by
  have hfrom : ∀ (gs : List Group) (g total : Nat), r ∈ (layoutFrom g0 g1 gs g total).1 → 0 < r.rows := by
    intro gs
    induction gs with
    | nil =>
      intro g total h
      cases h
    | cons x gs ih =>
      intro g total h
      unfold layoutFrom at h
      split at h
      · rename_i hin
        rcases List.mem_cons.mp h with rfl | h
        · unfold asUsize
          dsimp only
          omega
        · exact ih _ _ h
      · exact ih _ _ h
  exact hfrom _ _ _ h

/-- A position that is read through Arrow is in a part. -/
theorem outs_of_sym (hsel : Selected set sel) {p : Nat} (hp : p < sel.out.length)
    (hks : sel.lt p = .KS) {s : Src} (hs : s ∈ set.srcs) (ways : Nat) :
    ∃ part ∈ split set sel ways, p ∈ part.outs := by
  obtain ⟨part, hpart, hin⟩ := List.mem_flatMap.mp ((split_flat set sel ways).2 p hp)
  refine ⟨part, hpart, ?_⟩
  rcases split_cases hpart with ⟨q, rt, rfl, _, hrt⟩ | ⟨outs, _, rfl, _, _⟩
  · obtain rfl : p = q := List.mem_singleton.mp hin
    exact absurd hks (hsel.raw_ne_sym hrt hs)
  · exact hin

/-- What a planned column is given up for: strings in the place of a dictionary, or a value that
the union does not have. -/
theorem refusing_iff (hsel : Selected set sel) (hloaded : ∀ s ∈ set.srcs, Loaded s)
    (hW : Faithful W set.srcs content) (harr : CodedArrays W set.srcs owner) {who : String}
    (hrows : countedRows (windowCounts set.srcs g0 g1) ≤ I32_MAX) {cds : List (Option Codes)}
    (hcds : PlanOk W set sel (layout set.srcs g0 g1).1 who cds) {ways k : Nat} (hk : 0 < k) {m m' : Shared}
    (h : Decodes W set sel (split set sel ways) id
      (tasksOf (layout set.srcs g0 g1).1 (split set sel ways).length) (fun q => (cds[q]?).join) who k m m'
        (.ok ())) {p : Nat} {cd : Codes} (hcd : (cds[p]?).join = some cd) :
    Refusing W set sel (layout set.srcs g0 g1).1 (split set sel ways) (fun q => (cds[q]?).join) p ↔
      Inflated set.srcs (layout set.srcs g0 g1).1 (sel.col p) ∨
        Outside W set sel (layout set.srcs g0 g1).1 (split set sel ways) p who := by
  have hG := pairs_fits hsel hloaded hW harr hcds
  obtain ⟨hp, hks, hplan⟩ := hcds.lt p cd hcd
  have hof := codesPlan_of hplan
  have hmet : ∀ {x : Rg}, x ∈ (layout set.srcs g0 g1).1 → ∀ {part : Part}, part ∈ split set sel ways →
      p ∈ part.outs →
      (∀ arr, MeetsArray W set sel part x.f x.g p arr → ∀ s, set.srcs[x.f]? = some s →
          arr.data_type = typeAt s (sel.col p) ∧ arr.Typed W.crate.heap) ∧
        (0 < x.rows → ∃ arr, MeetsArray W set sel part x.f x.g p arr) := fun hx _ hpart hq =>
    (decode_met hG (pairs_runs W sel owner cds) (window_laid_out hrows who).2.2 hk h hx hpart hq).imp_right
      And.left
  constructor
  · rintro ⟨x, hx, part, hpart, cd', arr, hcd', hmeets, href⟩
    cases hcd.symm.trans hcd'
    obtain ⟨s, hs⟩ : ∃ s, set.srcs[x.f]? = some s := ⟨_, List.getElem?_eq_getElem (layout_files hx)⟩
    obtain ⟨hdt, hty⟩ := (hmet hx hpart hmeets.1).1 arr hmeets s hs
    by_cases hdict : ∃ k v, typeAt s (sel.col p) = .dictionary k v
    · obtain ⟨k, v, hkv⟩ := hdict
      have hdt : arr.data_type = typeAt s (sel.col p) := hdt
      obtain ⟨adt, data⟩ := arr
      obtain rfl : adt = .dictionary k v := hdt.trans hkv
      cases data with
      | dict keys values =>
        obtain ⟨_, vs, hvs⟩ := hty
        obtain ⟨v, hv, hnone⟩ := lutOf_eq_none.mp (href keys values rfl vs hvs)
        refine Or.inr ⟨x, hx, part, hpart, _, hmeets, keys, values, vs, rfl, hvs, v, hv, ?_⟩
        rw [← hof.ix]
        simp [hnone]
      | _ => exact hty.elim
    · exact Or.inl ⟨x, hx, s, hs, fun k v hkv => hdict ⟨k, v, hkv⟩⟩
  · rintro (⟨x, hx, s, hs, hno⟩ | ⟨x, hx, part, hpart, arr, hmeets, keys, values, vs, hd, hvs, v, hv, hout⟩)
    · obtain ⟨part, hpart, hq⟩ := outs_of_sym hsel hp hks (List.mem_of_getElem? hs) ways
      obtain ⟨htyped, hsome⟩ := hmet hx hpart hq
      obtain ⟨arr, hmeets⟩ := hsome (layout_rows hx)
      refine ⟨x, hx, part, hpart, cd, arr, hcd, hmeets, fun keys values hd => ?_⟩
      -- A dictionary array would have a dictionary type, which the file does not have.
      obtain ⟨hdt, hty⟩ := htyped arr hmeets s hs
      have hdt : arr.data_type = typeAt s (sel.col p) := hdt
      obtain ⟨adt, data⟩ := arr
      cases hd
      cases adt with
      | dictionary k v => exact absurd hdt.symm (hno k v)
      | _ => exact hty.elim
    · refine ⟨x, hx, part, hpart, cd, arr, hcd, hmeets, ?_⟩
      rintro keys' values' hd' vs' hvs'
      cases hd.symm.trans hd'
      cases hvs.symm.trans hvs'
      refine lutOf_eq_none.mpr ⟨v, hv, ?_⟩
      rw [← hof.ix, Option.isSome_iff_ne_none, not_not] at hout
      exact hout

/-- When a symbol column of an answered read comes back as a pair. -/
theorem pair_iff (hsel : Selected set sel) (hloaded : ∀ s ∈ set.srcs, Loaded s)
    (hW : Faithful W set.srcs content) (harr : CodedArrays W set.srcs owner)
    (hfits : countedRows (windowCounts set.srcs g0 g1) < 2 ^ 64) {nthreads k : Nat} (hk : 0 < k)
    {who : String} {m : Mem Nat Cell} {t : Table}
    (h : Reads W nthreads k set sel g0 g1 true who m (.ok t)) {p : Nat} (hp : p < sel.out.length)
    (hks : sel.lt p = .KS) :
    (∃ d lt cs, t.columns[p]? = some (.pair d lt cs)) ↔
      ((layout set.srcs g0 g1).1 ≠ [] ∧ allDict set.srcs (layout set.srcs g0 g1).1 (sel.col p) ∧
        ¬EmptyPage W set.srcs (layout set.srcs g0 g1).1 (sel.col p) who) ∧
      ¬Inflated set.srcs (layout set.srcs g0 g1).1 (sel.col p) ∧
      ¬Outside W set sel (layout set.srcs g0 g1).1
        (split set sel (splitWays nthreads (layout set.srcs g0 g1).1.length sel)) p who := by
  generalize hr : (Except.ok t : Except String Table) = r at h
  cases h with
  | refused _ => cases hr
  | failed _ _ => cases hr
  | @answered plan m' r hplan hd hre _ =>
    obtain ⟨rgs, total, parts, cds⟩ := plan
    obtain ⟨hwindow, _, hcds, _⟩ := planOf_cases hplan
    obtain ⟨hparts, hget⟩ := planOf_get hplan hp hks
    dsimp only at hwindow hcds hparts hget hd hre hr
    have hlayout := (window_ok hwindow).1
    have hrows : countedRows (windowCounts set.srcs g0 g1) ≤ I32_MAX := by
      obtain ⟨heq, hle⟩ := rows_le_of_window hfits hwindow
      exact heq ▸ hle
    have hrgs : rgs = (layout set.srcs g0 g1).1 := by rw [hlayout]
    subst hparts hrgs
    cases r with
    | error e => cases hr
    | ok c =>
      cases hr
      have hcol := tableOf_column set total true c hp
      have hpair : (∃ d lt cs, (tableOf set sel total true c).columns[p]? = some (.pair d lt cs)) ↔
          (c.cds p).isSome := by
        rw [hcol]
        unfold columnOf
        cases c.cds p <;> simp
      refine hpair.trans ?_
      rw [← codesPlan_isSome hget]
      rcases hcd : (cds[p]?).join with _ | cd
      · -- A second read brings no plan.
        have hnone : c.cds p = none := by
          rcases hc : c.cds p with _ | cd
          · rfl
          · cases hcd.symm.trans (rereads_cds hre hc)
        simp [hnone]
      · have hrefusing := refusing_iff hsel hloaded hW harr hrows hcds hk hd hcd
        have hgives : m'.gives p = true ↔ Refusing W set sel (layout set.srcs g0 g1).1
            (split set sel (splitWays nthreads (layout set.srcs g0 g1).1.length sel))
            (fun q => (cds[q]?).join) p :=
          decode_gives (pairs_fits hsel hloaded hW harr hcds) (pairs_runs W sel owner cds)
            (window_laid_out hrows who).2.2 hk hd rfl
        rw [← not_or, ← hrefusing]
        cases hg : m'.gives p with
        | false =>
          rw [rereads_stays hre hg, ← hgives]
          simp [hcd, hg]
        | true =>
          refine iff_of_false (fun hsome => ?_) fun ⟨_, hno⟩ => hno (hgives.mp hg)
          obtain ⟨cd', hcd'⟩ := Option.isSome_iff_exists.mp hsome
          have hstays := (rereads_pair hre hcd' hp rfl).1 (List.mem_range.mpr hp)
          rw [hg] at hstays
          cases hstays

end

end parquet_interop.read
