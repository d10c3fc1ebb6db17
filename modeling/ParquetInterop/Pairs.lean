-- Symbol columns read as pairs: the union keeps its ids, and a column that does
-- not stay a pair is read again as plain symbols.
import ParquetInterop.Window

open parquet_interop.ffi parquet_interop.footer
open lib.blocks lib.jobs lib.stores

namespace parquet_interop.read

/-! ## The ids of the union -/

/-- Every id is the place of its value, as long as the ids do not wrap. -/
def IdsFit (d : List Sym) (ix : List (List UInt8 × UInt32)) : Prop :=
  d.length < 2 ^ 32 → ∀ v id, ix.lookup v = some id → d[id.toNat]? = some (intern v)

theorem idsFit_cons {d : List Sym} {ix : List (List UInt8 × UInt32)} (h : IdsFit d ix)
    (v : List UInt8) : IdsFit (d ++ [intern v]) ((v, d.length.toUInt32) :: ix) := by
  intro hlen w id hid
  rw [List.length_append, List.length_singleton] at hlen
  rw [List.lookup_cons] at hid
  by_cases hw : w = v
  · subst hw
    rw [beq_self_eq_true] at hid
    cases hid
    have hn : d.length.toUInt32.toNat = d.length := by
      rw [Nat.toUInt32_eq, UInt32.toNat_ofNat']
      exact Nat.mod_eq_of_lt (by omega)
    rw [hn, List.getElem?_concat_length]
  · rw [beq_false_of_ne hw] at hid
    have hold := h (by omega) w id hid
    rw [List.getElem?_append_left (List.getElem?_eq_some_iff.mp hold).1, hold]

theorem add_fits {u : Union} (h : IdsFit u.d u.ix) (v : List UInt8) :
    IdsFit (u.add v).d (u.add v).ix := by
  unfold Union.add
  split
  · exact h
  · exact idsFit_cons h v

theorem foldl_add_nulls (vs : List (List UInt8)) (u : Union) :
    (vs.foldl Union.add u).nulls = u.nulls := by
  induction vs generalizing u with
  | nil => rfl
  | cons v vs ih =>
    rw [List.foldl_cons, ih]
    unfold Union.add
    split <;> rfl

theorem merge_nulls (u : Union) (p : DictBuf) : (u.merge p).nulls = u.nulls := by
  unfold Union.merge
  split
  · rfl
  · exact foldl_add_nulls _ u

theorem merge_fits {u : Union} (h : IdsFit u.d u.ix) (p : DictBuf) :
    IdsFit (u.merge p).d (u.merge p).ix := by
  have hall : ∀ (vs : List (List UInt8)) (u : Union), IdsFit u.d u.ix →
      IdsFit (vs.foldl Union.add u).d (vs.foldl Union.add u).ix := by
    intro vs
    induction vs with
    | nil => exact fun _ h => h
    | cons v vs ih => exact fun u h => ih _ (add_fits h v)
  unfold Union.merge
  split
  · exact h
  · exact hall _ u h

/-- The merged union has its ids, and it knows of every chunk that may hold a null. -/
theorem mergePages_spec {ps : List (Except String DictBuf × Bool)} {u u' : Union}
    (hu : IdsFit u.d u.ix) (h : mergePages u ps = .ok (some u')) :
    IdsFit u'.d u'.ix ∧ (u.nulls = true → u'.nulls = true) ∧
      ∀ p ∈ ps, p.2 = true → u'.nulls = true := by
  induction ps generalizing u with
  | nil =>
    cases h
    exact ⟨hu, id, fun p hp => absurd hp List.not_mem_nil⟩
  | cons p ps ih =>
    obtain ⟨r, nulls⟩ := p
    cases r with
    | error e => cases h
    | ok p =>
      unfold mergePages at h
      split at h
      · cases h
      · obtain ⟨hfit, hkeep, hrest⟩ :=
          ih (u := { u.merge p with nulls := (u.merge p).nulls || nulls }) (merge_fits hu p) h
        dsimp only at hkeep
        rw [merge_nulls] at hkeep
        refine ⟨hfit, fun hn => hkeep (by rw [hn, Bool.true_or]), fun q hq hnull => ?_⟩
        rcases List.mem_cons.mp hq with rfl | hq
        · exact hkeep (by rw [show nulls = true from hnull, Bool.or_true])
        · exact hrest q hq hnull

/-- A plan whose codes index its dictionary. -/
structure Codes.Sound (cd : Codes) : Prop where
  fits : IdsFit cd.d cd.ix
  closed : cd.Closed
  width : ∃ n, cd.d.length ≤ n ∧ cd.lt = width n

/-- The empty symbol joins the union last, when it has to. -/
theorem close_sound {u : Union} (h : IdsFit u.d u.ix) :
    u.close.Sound ∧ (u.nulls = true → (u.close.ix.lookup []).isSome = true) := by
  unfold Union.close
  split
  · rename_i empty hempty
    refine ⟨⟨h, fun i hi => ?_, _, Nat.le_max_left _ _, rfl⟩, fun _ => by simp only [hempty]; rfl⟩
    exact Option.some.inj (hempty.symm.trans hi)
  · rename_i hnone
    cases hn : u.nulls with
    | false =>
      refine ⟨⟨h, fun i hi => ?_, _, Nat.le_max_left _ _, rfl⟩, fun hc => by cases hc⟩
      exact absurd (hnone.symm.trans hi) (by nofun)
    | true =>
      refine ⟨⟨idsFit_cons h [], fun i hi => ?_, _, Nat.le_max_left _ _, rfl⟩, fun _ => rfl⟩
      exact Option.some.inj hi

/-- A column that has a plan: its ids are sound, and where the union has no empty symbol every
chunk of the window says that it holds no null. -/
theorem codesPlan_sound {W : World} {srcs : List Src} {rgs : List Rg} {c : Nat} {who : String}
    {cd : Codes} (h : codesPlan W srcs rgs c who = .ok (some cd)) :
    cd.Sound ∧ ((cd.ix.lookup []).isSome = true ∨
      ∀ r ∈ rgs, ∀ s, srcs[r.f]? = some s → mayHoldNulls s r.g c = false) := by
  unfold codesPlan at h
  split at h
  · cases h
  dsimp only at h
  generalize hps : (rgs.filterMap fun r =>
    (srcs[r.f]?).map fun s => (dictPage W s r.g c who, mayHoldNulls s r.g c)) = ps at h
  rcases hm : mergePages ⟨[], [], false, []⟩ ps with e | _ | u
  · rw [hm] at h
    cases h
  · rw [hm] at h
    cases h
  rw [hm] at h
  cases h
  obtain ⟨hfit, _, hnulls⟩ := mergePages_spec (fun _ v id hv => by cases hv) hm
  obtain ⟨hsound, hempty⟩ := close_sound hfit
  refine ⟨hsound, ?_⟩
  by_cases hn : u.nulls = true
  · exact Or.inl (hempty hn)
  · refine Or.inr fun r hr s hs => ?_
    by_contra hmay
    refine hn (hnulls (dictPage W s r.g c who, mayHoldNulls s r.g c) ?_ (by simpa using hmay))
    rw [← hps, List.mem_filterMap]
    exact ⟨r, hr, by rw [hs]; rfl⟩

theorem codesPlans_spec {W : World} {set : FileSet} {sel : Sel} {rgs : List Rg} {who : String}
    {ps : List Nat} {cds : List (Option Codes)} (h : codesPlans W set sel rgs who ps = .ok cds) :
    cds.length = ps.length ∧ ∀ (i p : Nat) cd, ps[i]? = some p → cds[i]? = some (some cd) →
      sel.lt p = .KS ∧ codesPlan W set.srcs rgs (sel.col p) who = .ok (some cd) := by
  induction ps generalizing cds with
  | nil =>
    cases h
    exact ⟨rfl, fun i p cd hp => by cases hp⟩
  | cons p ps ih =>
    have hrest : ∀ {x : Option Codes} {rest}, codesPlans W set sel rgs who ps = .ok rest →
        (∀ cd, x = some cd → sel.lt p = .KS ∧ codesPlan W set.srcs rgs (sel.col p) who = .ok (some cd)) →
        (x :: rest).length = (p :: ps).length ∧ ∀ (i q : Nat) cd, (p :: ps)[i]? = some q →
          (x :: rest)[i]? = some (some cd) →
          sel.lt q = .KS ∧ codesPlan W set.srcs rgs (sel.col q) who = .ok (some cd) := by
      intro x rest hr hx
      obtain ⟨hlen, hget⟩ := ih hr
      refine ⟨congrArg (· + 1) hlen, fun i q cd hq hcd => ?_⟩
      cases i with
      | zero =>
        cases hq
        exact hx cd (Option.some.inj hcd)
      | succ i => exact hget i q cd hq hcd
    unfold codesPlans at h
    split at h
    · rename_i hks
      split at h
      · cases h
      rename_i x hx
      rcases hr : codesPlans W set sel rgs who ps with e | rest
      · rw [hr] at h
        cases h
      · rw [hr] at h
        cases h
        exact hrest hr fun cd hcd => ⟨hks, by rw [hx, hcd]⟩
    · rcases hr : codesPlans W set sel rgs who ps with e | rest
      · rw [hr] at h
        cases h
      · rw [hr] at h
        cases h
        exact hrest hr fun cd hcd => by cases hcd

/-! ## Indexing by a code -/

/-- The place that L reads a code as. -/
def codeIndex : Cell → Option Nat
  | .g x => some x.toNat
  | .h x => if 0 ≤ x.toInt then some x.toInt.toNat else none
  | .i x => if 0 ≤ x.toInt then some x.toInt.toNat else none
  | _ => none

/-- `D[c]`. -/
def indexed (d : List Sym) (c : Cell) : Option Sym := (codeIndex c).bind fun k => d[k]?

/-- A code of the width for `n` entries is the id that it narrows. -/
theorem codeIndex_narrow {n : Nat} {id : UInt32} (hid : id.toNat < n) (hmax : id.toNat ≤ I32_MAX) :
    codeIndex (narrow (width n) id) = some id.toNat := by
  unfold I32_MAX at hmax
  unfold width
  split
  · have h : id.toUInt8.toNat = id.toNat := by
      rw [UInt32.toNat_toUInt8]
      exact Nat.mod_eq_of_lt (by omega)
    exact congrArg some h
  · split
    · have hn : id.toUInt16.toBitVec.toNat = id.toNat := by
        show id.toUInt16.toNat = id.toNat
        rw [UInt32.toNat_toUInt16]
        exact Nat.mod_eq_of_lt (by omega)
      have h : id.toUInt16.toInt16.toInt = id.toNat := by
        rw [← hn]
        exact BitVec.toInt_eq_toNat_of_lt (by
          show 2 * id.toUInt16.toBitVec.toNat < 2 ^ 16
          omega)
      simp [narrow, codeIndex, h]
    · have h : id.toInt32.toInt = id.toNat := BitVec.toInt_eq_toNat_of_lt (by
        show 2 * id.toNat < 2 ^ 32
        omega)
      simp [narrow, codeIndex, h]

/-- The dictionary at an id is the value that has it. -/
theorem indexed_id {cd : Codes} (hcd : cd.Sound) (hlen : cd.d.length ≤ I32_MAX) {b : List UInt8}
    {id : UInt32} (hid : cd.ix.lookup b = some id) :
    indexed cd.d (narrow cd.lt id) = some (intern b) := by
  obtain ⟨n, hn, hlt⟩ := hcd.width
  have hd := hcd.fits (by unfold I32_MAX at hlen; omega) b id hid
  have hlt' := (List.getElem?_eq_some_iff.mp hd).1
  unfold indexed
  rw [hlt, codeIndex_narrow (by omega) (by omega), Option.bind_some, hd]

/-- The dictionary has no symbol at the id behind its last. -/
theorem indexed_behind {d : List Sym} (hlen : d.length ≤ I32_MAX) {id : UInt32}
    (hid : id.toNat = d.length) : indexed d (narrow (width (d.length + 1)) id) = none := by
  unfold indexed
  rw [codeIndex_narrow (by omega) (by omega), Option.bind_some, hid]
  exact List.getElem?_eq_none le_rfl

/-! ## What a decode leaves alone -/

/-- A decode stores in the vectors of its parts only. -/
theorem decode_frame {W : World} {set : FileSet} {sel : Sel} {parts : List Part} {cols : Nat → Nat}
    {tasks : List Task} {cds : Nat → Option Codes} {who : String} {k : Nat} {m m' : Shared}
    {r : Except String Unit} (h : Decodes W set sel parts cols tasks cds who k m m' r)
    {a : Addr Nat} (ha : ∀ part ∈ parts, ∀ p ∈ part.positions, cols p ≠ a.vec) :
    m'.mem a = m.mem a := by
  have hops : ∀ i < (decodeJobs W set sel parts cols tasks cds who).n, ∀ sy,
      ∀ o ∈ ((decodeJobs W set sel parts cols tasks cds who).job i sy).1, ∀ m'' : Shared,
      m''.mem a = m.mem a → (o.exec m'').mem a = m.mem a := by
    intro i _ sy o ho m'' hm
    cases o with
    | give p => exact hm
    | store o =>
      simp only [decodeJobs] at ho
      split at ho
      · rename_i t part ht hp
        simp only [Option.bind_eq_some_iff] at hp
        obtain ⟨t', ht', hp⟩ := hp
        obtain ⟨p, hin, hvec⟩ := one_vec o ho
        rw [show (Act.exec m'' (.store o)).mem = o.exec m''.mem from rfl,
          exec_frame fun he => ha part (List.mem_of_getElem? hp) p hin (hvec ▸ congrArg Addr.vec he), hm]
      · cases ho
  cases h with
  | idle _ => rfl
  | failed _ hfin _ => exact finishes_keeps hops rfl hfin
  | done _ hfin _ => exact finishes_keeps hops rfl hfin

/-! ## The second read of a column -/

theorem oneSel_selected {set : FileSet} {sel : Sel} (h : Selected set sel) {p : Nat}
    (hp : p < sel.out.length) : Selected set (oneSel sel p) := by
  constructor
  case nodup => exact List.nodup_singleton _
  case lt =>
    intro q hq s hs
    cases (Nat.lt_one_iff.mp hq)
    exact h.lt p hp s hs
  case raw =>
    intro q rt hrt
    cases q <;> cases hrt

section
variable {W : World} {set : FileSet} {sel : Sel} {content : Content} {g0 g1 : Nat}

/-- A column that is no pair is the one of the window. -/
def Cols.Right (content : Content) (set : FileSet) (sel : Sel) (g0 g1 : Nat) (c : Cols) (p : Nat) :
    Prop :=
  c.cds p = none → cells c.mem (c.colv p) (layout set.srcs g0 g1).2 =
    windowCells content set.srcs (sel.lt p) (sel.col p) g0 g1

theorem oneSel_rawAt (sel : Sel) (p q : Nat) : (oneSel sel p).rawAt q = none := by
  cases q <;> rfl

theorem oneSel_parts (set : FileSet) (sel : Sel) (p : Nat) :
    (split set (oneSel sel p) 1).length = 1 := by
  have harw : arrowCols (oneSel sel p) = [0] := rfl
  have hraw : rawParts (oneSel sel p) = [] := rfl
  unfold split arrowParts
  rw [harw, hraw]
  rfl

theorem reread_fits (hsel : Selected set sel) (hloaded : ∀ s ∈ set.srcs, Loaded s)
    (hW : Faithful W set.srcs content) {p : Nat} (hp : p < sel.out.length) :
    (Ground.plain W (oneSel sel p) fun _ => sel.out.length + p).Fits set content fun _ => True := by
  refine plain_fits (oneSel_selected hsel hp) hloaded hW (fun q rt _ hrt => ?_) fun a ha b hb _ => ?_
  · rw [oneSel_rawAt] at hrt
    cases hrt
  · have ha : a < 1 := ha
    have hb : b < 1 := hb
    omega

/-- A column that is read again, alone, is its plain column. -/
theorem reread_right (hsel : Selected set sel) (hloaded : ∀ s ∈ set.srcs, Loaded s)
    (hW : Faithful W set.srcs content) (hrows : countedRows (windowCounts set.srcs g0 g1) ≤ I32_MAX)
    {who : String} {k : Nat} (hk : 0 < k) {p : Nat} (hp : p < sel.out.length) {m m' : Shared}
    (h : Decodes W set (oneSel sel p) (split set (oneSel sel p) 1) (fun _ => sel.out.length + p)
      (tasksOf (layout set.srcs g0 g1).1 1) (fun _ => none) who k m m' (.ok ())) :
    cells m'.mem (sel.out.length + p) (layout set.srcs g0 g1).2 =
      windowCells content set.srcs (sel.lt p) (sel.col p) g0 g1 := by
  have hG := reread_fits hsel hloaded hW hp
  have hd : Decodes W set (oneSel sel p) (split set (oneSel sel p) 1) (fun _ => sel.out.length + p)
      (tasksOf (layout set.srcs g0 g1).1 (split set (oneSel sel p) 1).length) (fun _ => none) who k m m'
      (.ok ()) := by
    rw [oneSel_parts]
    exact h
  have hland := decode_landed hG (Ground.runs_self _) (window_laid_out hrows who).2.2 hk hd
  exact plain_cells hG hrows rfl fun r hr => hland r hr 0 Nat.one_pos trivial

/-- A column stays right, and one that is read again becomes it. -/
theorem rereads_right (hsel : Selected set sel) (hloaded : ∀ s ∈ set.srcs, Loaded s)
    (hW : Faithful W set.srcs content) (hrows : countedRows (windowCounts set.srcs g0 g1) ≤ I32_MAX)
    {who : String} {k : Nat} (hk : 0 < k) {gives : Nat → Bool} {ps : List Nat}
    (hps : ∀ p ∈ ps, p < sel.out.length) {c c' : Cols}
    (h : Rereads W set sel (layout set.srcs g0 g1).1 gives who k ps c (.ok c')) {q : Nat}
    (hq : q < sel.out.length) (hcolv : c.colv q = q ∨ c.colv q = sel.out.length + q)
    (hright : c.Right content set sel g0 g1 q) : c'.Right content set sel g0 g1 q := by
  generalize hr : (Except.ok c' : Except String Cols) = r at h
  induction h with
  | nil =>
    cases hr
    exact hright
  | keep _ _ ih => exact ih (fun p hp => hps p (List.mem_cons_of_mem _ hp)) hcolv hright hr
  | failed _ _ => cases hr
  | @again p ps c m r _ hd _ ih =>
    have hp := hps p List.mem_cons_self
    have hrest := fun p' hp' => hps p' (List.mem_cons_of_mem p hp')
    by_cases he : q = p
    · subst he
      refine ih hrest (Or.inr (if_pos rfl)) (fun _ => ?_) hr
      dsimp only
      rw [if_pos rfl]
      exact reread_right hsel hloaded hW hrows hk hp hd
    · refine ih hrest ?_ (fun hcd => ?_) hr
      · dsimp only
        rwa [if_neg he]
      · dsimp only at hcd ⊢
        rw [if_neg he] at hcd ⊢
        rw [← hright hcd]
        -- The second read of another column is into a vector of that one.
        apply List.map_congr_left
        intro i _
        refine decode_frame hd fun _ _ _ _ hvec => ?_
        dsimp only at hvec
        rcases hcolv with h | h <;> omega

/-! ## The first decode -/

/-- The plan, with the empty bytes in its index also when they are not in the dictionary. -/
def Codes.patched (cd : Codes) : Codes :=
  { cd with ix := if (cd.ix.lookup []).isSome then cd.ix else ([], cd.empty) :: cd.ix }

theorem patched_empty (cd : Codes) : (cd.patched.ix.lookup []).isSome = true := by
  unfold Codes.patched
  split
  · assumption
  · simp

theorem patched_closed {cd : Codes} (h : cd.Closed) : cd.patched.Closed := by
  intro id hid
  unfold Codes.patched at hid ⊢
  split at hid
  · exact h id hid
  · simpa [List.lookup_cons] using hid

theorem patched_lookup {cd : Codes} {b : List UInt8} (hb : b ≠ []) :
    cd.patched.ix.lookup b = cd.ix.lookup b := by
  unfold Codes.patched
  split
  · rfl
  · simp [List.lookup_cons, beq_false_of_ne hb]

theorem under_patched (cd : Codes) : cd.Under cd.patched := by
  refine ⟨rfl, rfl, fun b id hid => ?_⟩
  by_cases hb : b = []
  · subst hb
    unfold Codes.patched
    rw [if_pos (by simp [hid])]
    exact hid
  · rw [patched_lookup hb]
    exact hid

/-- The ground of a read: the plans of its symbol columns, in which a null has the id that the code
stores for it. -/
def Ground.pairs (W : World) (sel : Sel) (owner : ArrayId → Nat) (cds : List (Option Codes)) :
    Ground where
  W := W
  sel := sel
  cols := id
  cds p := ((cds[p]?).join).map Codes.patched
  owner := owner

theorem pairs_runs (W : World) (sel : Sel) (owner : ArrayId → Nat) (cds : List (Option Codes)) :
    (Ground.pairs W sel owner cds).Runs fun q => (cds[q]?).join := by
  constructor
  case plain =>
    intro q hq
    simp only [Ground.pairs, hq, Option.map_none]
  case under =>
    intro q cd hcd
    exact ⟨cd.patched, by simp only [Ground.pairs, hcd, Option.map_some], under_patched cd⟩

/-- What the plans of a read are: none, or the ones of its symbol columns. -/
structure PlanOk (W : World) (set : FileSet) (sel : Sel) (rgs : List Rg) (who : String)
    (cds : List (Option Codes)) : Prop where
  lt : ∀ (q : Nat) cd, (cds[q]?).join = some cd → q < sel.out.length ∧ sel.lt q = .KS ∧
    codesPlan W set.srcs rgs (sel.col q) who = .ok (some cd)

theorem planOf_cases {nthreads : Nat} {codes : Bool} {who : String} {plan : Plan}
    (h : planOf W nthreads set sel g0 g1 codes who = .ok plan) :
    window set.srcs g0 g1 who = .ok (plan.rgs, plan.total) ∧
      (∃ ways, plan.parts = split set sel ways) ∧ PlanOk W set sel plan.rgs who plan.cds ∧
      (codes = false → ∀ q : Nat, (plan.cds[q]?).join = none) := by
  unfold planOf at h
  split at h
  · cases h
  rename_i rgs total hw
  dsimp only at h
  cases codes with
  | false =>
    cases h
    have hnone : ∀ q : Nat, (((List.range sel.out.length).map fun _ => (none : Option Codes))[q]?).join =
        none := by
      intro q
      rw [List.getElem?_map]
      cases (List.range sel.out.length)[q]? <;> rfl
    exact ⟨hw, ⟨_, rfl⟩, ⟨fun q cd hcd => absurd ((hnone q).symm.trans hcd) (by nofun)⟩, fun _ => hnone⟩
  | true =>
    simp only [if_true] at h
    rcases hp : codesPlans W set sel rgs who (List.range sel.out.length) with e | cds
    · rw [hp] at h
      cases h
    rw [hp] at h
    cases h
    obtain ⟨hlen, hget⟩ := codesPlans_spec hp
    refine ⟨hw, ⟨_, rfl⟩, ⟨fun q cd hcd => ?_⟩, fun hc => by cases hc⟩
    have hcd := Option.join_eq_some_iff.mp hcd
    have hq := (List.getElem?_eq_some_iff.mp hcd).1
    rw [hlen, List.length_range] at hq
    exact ⟨hq, hget q q cd (List.getElem?_range hq) hcd⟩

/-- The dictionary arrays of the symbol columns, as the crates bring them: not shared between
columns, and with the keys of the rows that are not null inside. Nothing is asked of the
statistics. -/
structure CodedArrays (W : World) (srcs : List Src) (owner : ArrayId → Nat) : Prop where
  owned : ∀ c, Owned W owner srcs c
  inside : ∀ c, KeysInside W srcs c

theorem pairs_planned (hsel : Selected set sel) (hlawful : W.crate.Lawful) (owner : ArrayId → Nat)
    {rgs : List Rg} {who : String} {cds : List (Option Codes)} (hplan : PlanOk W set sel rgs who cds) :
    (Ground.pairs W sel owner cds).Planned := by
  have hsome : ∀ {q}, (Ground.pairs W sel owner cds).cds q ≠ none →
      ∃ cd, (cds[q]?).join = some cd := by
    intro q hq
    exact Option.ne_none_iff_exists'.mp fun hnone => hq (by simp only [Ground.pairs, hnone, Option.map_none])
  constructor
  case lawful => exact hlawful
  case inj =>
    intro q q' hq hq' he
    obtain ⟨cd, hcd⟩ := hsome hq
    obtain ⟨cd', hcd'⟩ := hsome hq'
    exact hsel.col_inj (hplan.lt q cd hcd).1 (hplan.lt q' cd' hcd').1 he
  case closed =>
    intro q cd hcd
    obtain ⟨cd', hcd', rfl⟩ := Option.map_eq_some_iff.mp hcd
    exact patched_closed (codesPlan_sound (hplan.lt q cd' hcd').2.2).1.closed
  case empty =>
    intro q cd hcd
    obtain ⟨cd', -, rfl⟩ := Option.map_eq_some_iff.mp hcd
    exact patched_empty cd'
  case sym =>
    intro q hq
    obtain ⟨cd, hcd⟩ := hsome hq
    exact (hplan.lt q cd hcd).2.1

theorem pairs_fits (hsel : Selected set sel) (hloaded : ∀ s ∈ set.srcs, Loaded s)
    (hW : Faithful W set.srcs content) {owner : ArrayId → Nat} (harr : CodedArrays W set.srcs owner)
    {rgs : List Rg} {who : String} {cds : List (Option Codes)} (hplan : PlanOk W set sel rgs who cds) :
    (Ground.pairs W sel owner cds).Fits set content fun q => sel.lt q = .KS := by
  refine ⟨pairs_planned hsel hW.lawful owner hplan, hsel, hloaded, hW, fun q _ => harr.owned _,
    fun q _ => harr.inside _, fun q rt hks hrt s hs => ?_, fun _ _ _ _ h => h⟩
  exact absurd hks (hsel.raw_ne_sym hrt hs)

theorem window_ok {who : String} {rgs : List Rg} {total : Nat}
    (h : window set.srcs g0 g1 who = .ok (rgs, total)) :
    layout set.srcs g0 g1 = (rgs, total) ∧ total ≤ I32_MAX := by
  unfold window at h
  dsimp only at h
  split at h
  · cases h
  · rename_i hle
    cases h
    exact ⟨rfl, Nat.not_lt.mp hle⟩

/-- The guard bounds the true rows of the window, as long as their count does not wrap. -/
theorem rows_le_of_window {who : String} {rgs : List Rg} {total : Nat}
    (hfits : countedRows (windowCounts set.srcs g0 g1) < 2 ^ 64)
    (h : window set.srcs g0 g1 who = .ok (rgs, total)) :
    countedRows (windowCounts set.srcs g0 g1) = total ∧ total ≤ I32_MAX := by
  obtain ⟨hlayout, hle⟩ := window_ok h
  have hfrom : 0 + countedRows (windowFrom g0 g1 (groupsOf set.srcs) 0) < 2 ^ 64 := by
    rw [Nat.zero_add]
    exact hfits
  have htotal := (layoutFrom_chain g0 g1 0 0 hfrom).2
  rw [Nat.zero_add] at htotal
  exact ⟨htotal.symm.trans (congrArg Prod.snd hlayout), hle⟩

theorem tableOf_column (set : FileSet) {sel : Sel} (total : Nat) (codes : Bool) (c : Cols) {p : Nat}
    (hp : p < sel.out.length) :
    (tableOf set sel total codes c).columns[p]? = some (columnOf sel total c p) := by
  unfold tableOf
  rw [List.getElem?_map, List.getElem?_range hp]
  rfl

/-- A symbol column of a read is a pair, or it is the column of the window, which it always is when
no pairs are asked for. -/
theorem read_right (hsel : Selected set sel) (hloaded : ∀ s ∈ set.srcs, Loaded s)
    (hW : Faithful W set.srcs content) {owner : ArrayId → Nat} (harr : CodedArrays W set.srcs owner)
    (hfits : countedRows (windowCounts set.srcs g0 g1) < 2 ^ 64) {nthreads k : Nat} (hk : 0 < k)
    {codes : Bool} {who : String} {m : Mem Nat Cell} {t : Table}
    (h : Reads W nthreads k set sel g0 g1 codes who m (.ok t)) {p : Nat} (hp : p < sel.out.length)
    (hks : sel.lt p = .KS) :
    codes = true ∧ (∃ d lt cs, t.columns[p]? = some (.pair d lt cs)) ∨
      t.columns[p]? = some (.vec .KS (windowCells content set.srcs .KS (sel.col p) g0 g1)) := by
  generalize hr : (Except.ok t : Except String Table) = r at h
  cases h with
  | refused _ => cases hr
  | failed _ _ => cases hr
  | @answered plan m' r hplan hd hre _ =>
    obtain ⟨rgs, total, parts, cds⟩ := plan
    obtain ⟨hwindow, ⟨ways, hparts⟩, hcds, hoff⟩ := planOf_cases hplan
    dsimp only at hwindow hparts hcds hoff hd hre hr
    subst hparts
    have hlayout := (window_ok hwindow).1
    have hrows : countedRows (windowCounts set.srcs g0 g1) ≤ I32_MAX := by
      obtain ⟨heq, hle⟩ := rows_le_of_window hfits hwindow
      exact heq ▸ hle
    have hrgs : rgs = (layout set.srcs g0 g1).1 := by rw [hlayout]
    have htotal : total = (layout set.srcs g0 g1).2 := by rw [hlayout]
    subst hrgs htotal
    cases r with
    | error e => cases hr
    | ok c =>
      cases hr
      have hG := pairs_fits hsel hloaded hW harr hcds
      have hland := decode_landed hG (pairs_runs W sel owner cds) (window_laid_out hrows who).2.2 hk hd
      have hright := rereads_right hsel hloaded hW hrows hk (fun p => List.mem_range.mp) hre hp
        (Or.inl rfl) fun hcd => plain_cells hG hrows (congrArg (Option.map Codes.patched) hcd)
          fun r hr => hland r hr p hp hks
      rw [tableOf_column set _ codes c hp]
      unfold columnOf
      rcases hcd : c.cds p with _ | cd
      · right
        dsimp only
        rw [hright hcd, hks]
      · refine Or.inl ⟨?_, _, _, _, rfl⟩
        by_contra hcodes
        have hnone := hoff (by simpa using hcodes)
        rw [rereads_plain hnone] at hre
        cases hre
        cases (hnone p).symm.trans hcd

/-- Over files that deliver their rows, what was given up can be read again. -/
theorem rereads_succeeds (hsel : Selected set sel) (hloaded : ∀ s ∈ set.srcs, Loaded s)
    (hW : Faithful W set.srcs content) (hD : Delivering W set.srcs)
    (hrows : countedRows (windowCounts set.srcs g0 g1) ≤ I32_MAX) {who : String} {k : Nat}
    (gives : Nat → Bool) {ps : List Nat} (hps : ∀ p ∈ ps, p < sel.out.length) (c : Cols) :
    ∃ c', Rereads W set sel (layout set.srcs g0 g1).1 gives who k ps c (.ok c') ∧
      ∀ p cd, c'.cds p = some cd → c.cds p = some cd := by
  induction ps generalizing c with
  | nil => exact ⟨c, .nil, fun _ _ h => h⟩
  | cons p ps ih =>
    have hrest := fun q hq => hps q (List.mem_cons_of_mem p hq)
    by_cases hgive : (c.cds p).isSome ∧ gives p
    · have hp := hps p List.mem_cons_self
      have hdecode := (decode_succeeds (reread_fits hsel hloaded hW hp) (Ground.runs_self _)
        (fun _ _ _ => trivial) hD (window_laid_out hrows who).2.2 1 k who ⟨c.mem, fun _ => false⟩).1
      simp only [Ground.plain, oneSel_parts] at hdecode
      obtain ⟨m, hm⟩ := hdecode
      obtain ⟨c', hc', hsub⟩ := ih hrest ⟨m.mem, fun q => if q = p then none else c.cds q,
        fun q => if q = p then sel.out.length + p else c.colv q⟩
      refine ⟨c', .again hgive hm hc', fun q cd hcd => ?_⟩
      have hq := hsub q cd hcd
      dsimp only at hq
      split at hq
      · cases hq
      · exact hq
    · obtain ⟨c', hc', hsub⟩ := ih hrest c
      exact ⟨c', .keep hgive hc', hsub⟩

/-- Over files that deliver their rows, a read with a plan answers. -/
theorem read_answers (hsel : Selected set sel) (hloaded : ∀ s ∈ set.srcs, Loaded s)
    (hW : Faithful W set.srcs content) (hD : Delivering W set.srcs) {owner : ArrayId → Nat}
    (harr : CodedArrays W set.srcs owner) (hraw : ∀ q rt, sel.rawAt q ≠ some rt)
    (hfits : countedRows (windowCounts set.srcs g0 g1) < 2 ^ 64) {nthreads : Nat} (k : Nat)
    {codes : Bool} {who : String} (m : Mem Nat Cell) {plan : Plan}
    (hplan : planOf W nthreads set sel g0 g1 codes who = .ok plan)
    (hshort : ∀ (p : Nat) cd, (plan.cds[p]?).join = some cd → cd.d.length ≤ I32_MAX) :
    ∃ t, Reads W nthreads k set sel g0 g1 codes who m (.ok t) := by
  obtain ⟨rgs, total, parts, cds⟩ := plan
  obtain ⟨hwindow, ⟨ways, hparts⟩, hcds, _⟩ := planOf_cases hplan
  dsimp only at hwindow hparts hcds hshort
  subst hparts
  have hlayout := (window_ok hwindow).1
  have hrows : countedRows (windowCounts set.srcs g0 g1) ≤ I32_MAX := by
    obtain ⟨heq, hle⟩ := rows_le_of_window hfits hwindow
    exact heq ▸ hle
  have hrgs : rgs = (layout set.srcs g0 g1).1 := by rw [hlayout]
  subst hrgs
  obtain ⟨m', hm'⟩ := (decode_succeeds (pairs_fits hsel hloaded hW harr hcds) (pairs_runs W sel owner cds)
    (fun q rt hrt => absurd hrt (hraw q rt)) hD (window_laid_out hrows who).2.2 ways k who
    ⟨m, fun _ => false⟩).1
  obtain ⟨c', hc', hsub⟩ := @rereads_succeeds _ _ _ _ _ _ hsel hloaded hW hD hrows who k m'.gives
    _ (fun p => List.mem_range.mp) ⟨m'.mem, fun p => (cds[p]?).join, id⟩
  refine ⟨_, .answered hplan hm' hc' fun c hc => ?_⟩
  cases hc
  exact fun p _ cd hcd => hshort p cd (hsub p cd hcd)

end

/-- The rows of a window, counted in its footers. -/
theorem length_windowCells {W : World} {srcs : List Src} {content : Content}
    (hW : Faithful W srcs content) (lt : LType) (c g0 g1 : Nat) :
    (windowCells content srcs lt c g0 g1).length = countedRows (windowCounts srcs g0 g1) := by
  have hlen : ∀ gs : List Group, (∀ x ∈ gs, x ∈ groupsOf srcs) →
      (gs.flatMap fun x => groupCells content srcs lt c x.f x.g).length =
        countedRows (gs.map (·.rows.toInt)) := by
    intro gs hgs
    induction gs with
    | nil => rfl
    | cons x gs ih =>
      obtain ⟨s, hs, hn⟩ := mem_groupsOf (hgs x List.mem_cons_self)
      have hx : (groupCells content srcs lt c x.f x.g).length = x.rows.toInt.toNat := by
        unfold groupCells
        rw [hs, Option.map_some, Option.getD_some, List.length_map,
          hW.rows s (List.mem_of_getElem? hs) x.g x.rows hn c]
        rfl
      rw [List.flatMap_cons, List.length_append, ih fun y hy => hgs y (List.mem_cons_of_mem x hy), hx]
      rfl
  rw [windowCounts_eq]
  exact hlen _ fun x hx => List.mem_of_mem_take (List.mem_of_mem_drop hx)

/-! ## The tags -/

/-- One symbol column in two row groups, each with a dictionary page of its own. -/
def tagSrc : Src :=
  mk "tags" "tags"
    { fields := [⟨"tag", .dictionary .int32 .utf8⟩], leaves := [⟨0, .BYTE_ARRAY, 1, 0⟩]
      row_groups := [⟨2, [⟨true, none⟩]⟩, ⟨1, [⟨true, none⟩]⟩], num_rows := 3 } [2, 1]

/-- The pages `a b` and `b a`. -/
def tagPage (g : Nat) : List UInt8 :=
  if g = 0 then [1, 0, 0, 0, 97, 1, 0, 0, 0, 98] else [1, 0, 0, 0, 98, 1, 0, 0, 0, 97]

/-- The rows `b`, a null and `b`. -/
def tagKeys (g : Nat) : Prim Int := Prim.ofContent (if g = 0 then [some 1, none] else [some 0])

def tagValues (g : Nat) : List (Option String) :=
  if g = 0 then [some "a", some "b"] else [some "b", some "a"]

def tagColumn (g c : Nat) : Arr :=
  if c = 0 then ⟨.dictionary .int32 .utf8, .dict (tagKeys g) g⟩
  else ⟨.other "", .other (tagKeys g).values.length⟩

theorem tagColumn_len (g c : Nat) : (tagColumn g c).len = (tagKeys g).values.length := by
  unfold tagColumn
  split <;> rfl

def tagBatch (g : Nat) (roots : List Nat) : Batch where
  columns := roots.map (tagColumn g)
  num_rows := (tagKeys g).values.length
  len_eq a ha := by
    obtain ⟨c, _, rfl⟩ := List.mem_map.mp ha
    exact tagColumn_len g c

def tagWorld : World where
  crate := Crate.safe fun id => .ok (tagValues id)
  fopen _ := .ok ()
  tryClone _ := .ok ()
  firstPage _ g _ := .ok (some (.dictionary (tagPage g) 2 (by unfold tagPage; split <;> decide)))
  columnReader _ _ _ := .error "no reader"
  batches _ mask g := .ok [.ok (tagBatch g mask.roots)]

def tagContent : Content := fun _ g _ => (tagColumn g 0).content tagWorld.crate.heap

theorem tagWorld_batches {s : Src} {g : Nat} {roots : List Nat} {bs : List Batch}
    (h : tagWorld.batches s ⟨roots⟩ g = .ok (bs.map .ok)) : bs = [tagBatch g roots] := by
  have h := Except.ok.inj h
  match bs with
  | [b] => exact congrArg (fun b => [b]) (Except.ok.inj (List.cons.inj h).1).symm

theorem tagWorld_brings {s : Src} {g c : Nat} {keys : Prim Int} {values : ArrayId}
    (h : Brings tagWorld s g c keys values) : c = 0 ∧ keys = tagKeys g ∧ values = g := by
  obtain ⟨roots, bs, b, hb, i, arr, hbs, hi, harr, hd⟩ := h
  rw [tagWorld_batches hbs, List.mem_singleton] at hb
  subst hb
  simp only [tagBatch, List.getElem?_map, hi, Option.map_some, Option.some.injEq] at harr
  subst harr
  unfold tagColumn at hd
  split at hd
  · rename_i hc
    cases hd
    exact ⟨hc, rfl, rfl⟩
  · cases hd

theorem tagWorld_faithful : Faithful tagWorld [tagSrc] tagContent ∧ Delivering tagWorld [tagSrc] ∧
    CodedArrays tagWorld [tagSrc] fun _ => 0 := by
  have hcount : ∀ s ∈ [tagSrc], ∀ (g : Nat) n, s.rg_rows[g]? = some n →
      (tagKeys g).values.length = asUsize n := by
    intro s hs g n hn
    cases List.mem_singleton.mp hs
    rcases g with _ | _ | g <;> cases hn <;> rfl
  have htyped : ∀ g, (tagColumn g 0).Typed tagWorld.crate.heap := fun g => ⟨rfl, tagValues g, rfl⟩
  refine ⟨⟨safe_lawful _, ?rows, ?typed⟩, ⟨fun _ _ => rfl, fun _ _ => rfl, ?batches⟩,
    ⟨fun c s _ g keys values h => (tagWorld_brings h).1, ?inside⟩⟩
  case rows =>
    intro s hs g n hn c
    rw [← hcount s hs g n hn, ← tagColumn_len g 0]
    exact (htyped g).length_content
  case typed =>
    intro s hs g n roots bs hn _ hlts hbs _ i c hc
    have hzero : c = 0 := by
      obtain ⟨lt, hlt⟩ := hlts c (List.mem_of_getElem? hc)
      cases List.mem_singleton.mp hs
      cases c with
      | zero => rfl
      | succ c => cases hlt
    subst hzero
    rw [tagWorld_batches hbs]
    have hcol : (tagBatch g roots).columns[i]? = some (tagColumn g 0) := by
      simp only [tagBatch, List.getElem?_map, hc, Option.map_some]
    refine ⟨fun b hb => ⟨_, List.mem_singleton.mp hb ▸ hcol, ?_, htyped g⟩, ?_⟩
    · cases List.mem_singleton.mp hs
      rfl
    · rw [List.flatMap_singleton]
      unfold batchRows
      rw [hcol]
      rfl
  case batches =>
    intro s hs g n roots hn _ _
    exact ⟨[tagBatch g roots], rfl, by simp [tagBatch, hcount s hs g n hn]⟩
  case inside =>
    intro c s hs g keys values h vs hvs k hk
    obtain ⟨_, rfl, rfl⟩ := tagWorld_brings h
    cases hvs
    unfold tagKeys at hk
    rw [content_ofContent] at hk
    unfold tagValues
    split at hk <;> rename_i hg
    · rw [if_pos hg]
      simp only [List.mem_cons, Option.some.injEq, reduceCtorEq, List.not_mem_nil, or_false] at hk
      subst hk
      decide
    · rw [if_neg hg]
      simp only [List.mem_cons, Option.some.injEq, List.not_mem_nil, or_false] at hk
      subst hk
      decide

/-- The read of the tags: two row groups on one part, and the union with the empty symbol. -/
theorem tags_plan : planOf tagWorld 2 ⟨[tagSrc], ["tag"], [.ok .KS]⟩ ⟨[0], [.KS], [0], [none]⟩ 0 2 true
    "pq_read" = .ok ⟨[⟨0, 0, 0, 2⟩, ⟨0, 1, 2, 1⟩], 3, [⟨[], [0], [0], [⟨[0]⟩]⟩],
      [some ⟨[⟨[97]⟩, ⟨[98]⟩, ⟨[]⟩], [([], 2), ([98], 1), ([97], 0)], 2, .KG⟩]⟩ := by
  rfl

end parquet_interop.read
