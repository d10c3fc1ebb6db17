-- Runs of a read beside a write. As long as the new file is not put in place
-- between two openings of the read, all of them find one file or nothing, and
-- a table that the read answers is a table of that file.
import ParquetInterop.Versions

open lib.jobs lib.runs lib.stores
open parquet_interop.ffi parquet_interop.footer parquet_interop.read

namespace parquet_interop.versions

/-! ## A read that finds one file or none -/

/-- `V` is what opening the file of `W` gives, or there was no file to open. -/
def Meets (W V : World) : Prop := V = W ∨ ∀ src, ∃ e, V.fopen src = .error e

section
variable {W : World} {set : FileSet} {sel : Sel} {who : String}

/-- A task that finds no file fails. -/
theorem one_unopened {V : World} (hV : ∀ src, ∃ e, V.fopen src = .error e) (cols : Nat → Nat)
    (part : Part) (cds : Nat → Option Codes) (t : Task) (sy : SymCache) :
    (one V sel cols who set part cds t sy).1.2 ≠ .ok () := by
  unfold one
  split
  · nofun
  · rename_i src _
    obtain ⟨e, he⟩ := hV src
    rw [he]
    nofun

theorem decodes_one {Ws : Nat → World} (hWs : ∀ i, Meets W (Ws i)) {parts : List Part}
    {cols : Nat → Nat} {tasks : List Task} {cds : Nat → Option Codes} {k : Nat} {m m' : Shared}
    (h : DecodesAt set sel who Ws parts cols tasks cds k m m' (.ok ())) :
    Decodes W set sel parts cols tasks cds who k m m' (.ok ()) := by
  generalize hr : (Except.ok () : Except String Unit) = r at h
  cases h with
  | idle hnil => exact .idle hnil
  | failed _ _ _ => cases hr
  | done hne hfin herr =>
    refine .done hne (finishes_agree ?_ ?_ (fun i sy => ?_) hfin herr) herr
    · rfl
    · rfl
    rcases hWs i with hsame | hgone
    · left
      unfold jobsAt
      dsimp only
      rw [hsame]
    · right
      unfold jobsAt decodeJobs
      dsimp only
      split
      · rename_i part _ _
        exact one_unopened hgone cols part cds _ sy
      · nofun

/-- The pages that the merge comes to are those of one file. -/
theorem mergePages_one {ps qs : List (Except String DictBuf × Bool)}
    (h : List.Forall₂ (fun p q => p = q ∨ ∃ e, p.1 = .error e) ps qs) {u : Union} {r : Option Union}
    (hm : mergePages u ps = .ok r) : mergePages u qs = .ok r := by
  induction h generalizing u with
  | nil => exact hm
  | @cons p q ps qs hpq _ ih =>
    rcases hpq with rfl | ⟨e, he⟩
    · obtain ⟨page, nulls⟩ := p
      cases page with
      | error e => cases hm
      | ok page =>
        unfold mergePages at hm ⊢
        split
        · rename_i hspans
          rw [if_pos hspans] at hm
          exact hm
        · rename_i hspans
          rw [if_neg hspans] at hm
          exact ih hm
    · obtain ⟨page, nulls⟩ := p
      dsimp only at he
      subst he
      cases hm

theorem dictPage_unopened {V : World} (hV : ∀ src, ∃ e, V.fopen src = .error e) (s : Src)
    (g c : Nat) : ∃ e, dictPage V s g c who = .error e := by
  obtain ⟨e, he⟩ := hV s
  unfold dictPage
  rw [he]
  exact ⟨_, rfl⟩

theorem codesPlan_one {Ws : Nat → World} (hWs : ∀ i, Meets W (Ws i)) {rgs : List Rg} {c : Nat}
    {cd : Option Codes} (h : codesPlanAt set who Ws rgs c = .ok cd) :
    codesPlan W set.srcs rgs c who = .ok cd := by
  unfold codesPlanAt at h
  unfold codesPlan
  split
  · rename_i hno
    rw [if_pos hno] at h
    exact h
  · rename_i hno
    rw [if_neg hno] at h
    dsimp only at h ⊢
    have hpages : ∀ n, List.Forall₂ (fun p q => p = q ∨ ∃ e, p.1 = Except.error e)
        ((rgs.zipIdx n).filterMap fun x => (set.srcs[x.1.f]?).map fun s =>
          (dictPage (Ws x.2) s x.1.g c who, mayHoldNulls s x.1.g c))
        (rgs.filterMap fun r => (set.srcs[r.f]?).map fun s =>
          (dictPage W s r.g c who, mayHoldNulls s r.g c)) := by
      intro n
      clear h hno
      induction rgs generalizing n with
      | nil => exact .nil
      | cons r rgs ih =>
        rw [List.zipIdx_cons, List.filterMap_cons, List.filterMap_cons]
        cases hs : set.srcs[r.f]? with
        | none => simpa [hs] using ih (n + 1)
        | some s =>
          simp only [Option.map_some]
          refine .cons ?_ (ih (n + 1))
          rcases hWs n with hsame | hgone
          · exact .inl (by rw [hsame])
          · exact .inr (dictPage_unopened hgone s r.g c)
    unfold Except.map at h
    split at h
    · cases h
    · rename_i hm
      rw [mergePages_one (hpages 0) hm]
      exact h

theorem codesPlans_one {Ws : Opening → World} (hWs : ∀ o, Meets W (Ws o)) {rgs : List Rg}
    {ps : List Nat} {cds : List (Option Codes)} (h : codesPlansAt set sel who Ws rgs ps = .ok cds) :
    codesPlans W set sel rgs who ps = .ok cds := by
  induction ps generalizing cds with
  | nil => exact h
  | cons p ps ih =>
    unfold codesPlansAt at h
    unfold codesPlans
    have hrest : ∀ {cd : Option Codes}, (codesPlansAt set sel who Ws rgs ps).map (cd :: ·) = .ok cds →
        (codesPlans W set sel rgs who ps).map (cd :: ·) = .ok cds := fun {cd} h => by
      rcases hr : codesPlansAt set sel who Ws rgs ps with e | rest
      · rw [hr] at h
        cases h
      · rw [hr] at h
        rw [ih hr]
        exact h
    split
    · rename_i hks
      rw [if_pos hks] at h
      rcases hc : codesPlanAt set who (fun i => Ws (.page p i)) rgs (sel.col p) with e | cd
      · rw [hc] at h
        cases h
      · rw [hc] at h
        rw [codesPlan_one (fun i => hWs _) hc]
        exact hrest h
    · rename_i hks
      rw [if_neg hks] at h
      exact hrest h

theorem plan_one {Ws : Opening → World} (hWs : ∀ o, Meets W (Ws o)) {nthreads g0 g1 : Nat}
    {codes : Bool} {plan : Plan} (h : planAt set sel who Ws nthreads g0 g1 codes = .ok plan) :
    planOf W nthreads set sel g0 g1 codes who = .ok plan := by
  unfold planAt at h
  unfold planOf
  rcases hw : window set.srcs g0 g1 who with e | ⟨rgs, total⟩
  · rw [hw] at h
    cases h
  · rw [hw] at h
    dsimp only at h ⊢
    cases codes with
    | false => exact h
    | true =>
      simp only [if_true] at h ⊢
      rcases hc : codesPlansAt set sel who Ws rgs (List.range sel.out.length) with e | cds
      · rw [hc] at h
        cases h
      · rw [hc] at h
        rw [codesPlans_one hWs hc]
        exact h

theorem rereads_one {Ws : Opening → World} (hWs : ∀ o, Meets W (Ws o)) {rgs : List Rg}
    {gives : Nat → Bool} {k : Nat} {ps : List Nat} {c c' : Cols}
    (h : RereadsAt set sel who Ws rgs gives k ps c (.ok c')) :
    Rereads W set sel rgs gives who k ps c (.ok c') := by
  generalize hr : (Except.ok c' : Except String Cols) = r at h
  induction h with
  | nil => exact .nil
  | keep hno _ ih => exact .keep hno (ih hr)
  | failed _ _ => cases hr
  | again hgive hd _ ih => exact .again hgive (decodes_one (fun i => hWs _) hd) (ih hr)

/-- A read whose openings all find one file, where they find any, answers as a read of it does. -/
theorem reads_one {Ws : Opening → World} (hWs : ∀ o, Meets W (Ws o)) {nthreads k g0 g1 : Nat}
    {codes : Bool} {m : Mem Nat Cell} {t : Table}
    (h : ReadsAt set sel who Ws nthreads k g0 g1 codes m (.ok t)) :
    Reads W nthreads k set sel g0 g1 codes who m (.ok t) := by
  generalize hr : (Except.ok t : Except String Table) = r at h
  cases h with
  | refused _ => cases hr
  | failed _ _ => cases hr
  | @answered plan m' r hplan hd hre hshort =>
    cases r with
    | error e => cases hr
    | ok c =>
      exact .answered (plan_one hWs hplan) (decodes_one (fun i => hWs _) hd) (rereads_one hWs hre)
        hshort

end

/-! ## What stands at the path -/

variable {H : Host} {A : Args} {w : replace.Call} {f0 : List Char → Option (List UInt8)} {s s' : St}

/-- The path is absent, or has the file that was there, or the complete new one. -/
theorem told_path {T : replace.Target} {c : Nat} {tmp : List Char} {ds : List replace.Does}
    {d : replace.St} (h : replace.Told T c f0 tmp ds d) :
    d.files T.path = none ∨ d.files T.path = f0 T.path ∨ d.files T.path = some (T.calls c).file := by
  have hmissing : replace.Missing T f0 ds d → d.files T.path = none ∨ d.files T.path = f0 T.path := by
    intro hm
    unfold replace.Missing at hm
    rw [hm]
    split
    · exact .inl rfl
    · exact .inr rfl
  unfold replace.Told at h
  split at h
  · exact .inr (.inl (congrFun h.2.1 _))
  · exact .inr (.inl (congrFun h.2.2 _))
  · exact .inr (.inl h.2.2.2.2.2.1)
  · rw [h.2.2.2.2.1]
    split
    · exact .inl rfl
    · exact .inr (.inl rfl)
  · exact (hmissing h.2.2.1).imp_right .inl
  · exact .inr (.inl (congrFun h.2.2 _))
  · exact .inr (.inr h.2.2.2.1)
  · exact (hmissing h.2.1).imp_right .inl

/-- Only the rename puts another file at the path. -/
theorem moved_path {T : replace.Target} {c : Nat} {d : replace.Does} {t t' : replace.St}
    {tmp : List Char} {ds : List replace.Does} (hne : T.path ≠ tmp)
    (ht : replace.Told T c f0 tmp ds t) (hm : replace.Moved T t c d t') (hd : d ≠ .rename true) :
    t'.files T.path = t.files T.path ∨ t'.files T.path = none := by
  cases hm with
  | rename _ _ _ => exact absurd rfl hd
  | unlink _ _ => exact .inr (by simp)
  | create u hat =>
    simp only [replace.Told, hat] at ht
    left
    rw [replace.St.move_files, replace.St.put_of_ne _ _ (ht.1 ▸ hne)]
  | write u done bytes hat _ =>
    simp only [replace.Told, hat] at ht
    left
    rw [replace.St.move_files, replace.St.put_of_ne _ _ (ht.1 ▸ hne)]
  | fail u done left hat =>
    simp only [replace.Told, hat] at ht
    left
    rw [replace.St.move_files, replace.St.put_of_ne _ _ (ht.1 ▸ hne)]
  | drop u hat =>
    simp only [replace.Told, hat] at ht
    left
    rw [replace.St.move_files, replace.St.put_of_ne _ _ (ht.1 ▸ hne)]
  | refuse _ => exact .inl rfl
  | new _ => exact .inl rfl
  | createFailed _ _ => exact .inl rfl
  | unlinkFailed _ _ => exact .inl rfl
  | renameFailed _ _ => exact .inl rfl
  | dropFailed _ _ => exact .inl rfl

/-! ## The runs -/

/-- The write stands where its answers have brought it. -/
def Written (A : Args) (w : replace.Call) (f0 : List Char → Option (List UInt8)) (s : St) : Prop :=
  ∃ tmp ds, A.path.toList ≠ tmp ∧ replace.Told (target A w) 0 f0 tmp ds s.disk

/-- The footer was opened in the file `v`, and whatever was opened since, is open in it or was not
there. -/
structure Held (H : Host) (A : Args) (w : replace.Call) (f0 : List Char → Option (List UInt8))
    (s : St) (v : Option (List UInt8)) : Prop where
  head : s.log.head? = some (.footer, v)
  found : ∀ x ∈ s.log, x.2 = none ∨ x.2 = v
  stands : s.ended = false → s.disk.files A.path.toList = none ∨ s.disk.files A.path.toList = v
  known : v = none ∨ v = f0 A.path.toList ∨ v = some w.file
  fresh : ∀ b, v = some b → Fresh A.cache A.path (H.file b)

theorem start_written (h : Start f0 s) : Written A w f0 s := by
  obtain ⟨hfiles, hidle, _⟩ := h
  refine ⟨_, [], (scratch.name_ne A.path.toList w.pid (s.disk.n w.pid)).symm, ?_⟩
  simp only [replace.Told, hidle]
  exact ⟨trivial, hfiles, rfl⟩

variable {v : Option (List UInt8)}

theorem held_write (h : Held H A w f0 s v) {disk : replace.St}
    (hd : s.ended = false → disk.files A.path.toList = s.disk.files A.path.toList ∨
      disk.files A.path.toList = none) : Held H A w f0 { s with disk } v := by
  refine ⟨h.head, h.found, fun hover => ?_, h.known, h.fresh⟩
  rcases hd hover with hsame | hnone
  · rw [hsame]
    exact h.stands hover
  · exact .inl hnone

theorem written_step {e : Ev} (h : Written A w f0 s) (hs : step A w s e = some s') :
    Written A w f0 s' := by
  obtain ⟨tmp, ds, hne, htold⟩ := h
  cases e with
  | write d =>
    obtain ⟨disk, hd, rfl⟩ := Option.map_eq_some_iff.mp hs
    exact ⟨tmp, ds ++ [d], hne, replace.told_step hne htold (replace.callStep_moved hd)⟩
  | opens o =>
    simp only [step, Option.ite_none_right_eq_some, Option.some.injEq] at hs
    exact hs.2 ▸ ⟨tmp, ds, hne, htold⟩
  | last =>
    simp only [step, Option.ite_none_left_eq_some, Option.some.injEq] at hs
    exact hs.2 ▸ ⟨tmp, ds, hne, htold⟩

/-- The first opening finds a file that it goes on with. -/
theorem held_first (hw : Written A w f0 s) (hnil : s.log = [])
    (hfresh : ∀ b, s.disk.files A.path.toList = some b → Fresh A.cache A.path (H.file b)) :
    Held H A w f0 { s with log := s.log ++ [(.footer, s.disk.files A.path.toList)] }
      (s.disk.files A.path.toList) := by
  obtain ⟨_, _, _, htold⟩ := hw
  constructor
  case head =>
    rw [hnil]
    rfl
  case found =>
    intro x hx
    rw [hnil] at hx
    exact .inr (congrArg Prod.snd (List.mem_singleton.mp hx))
  case stands => exact fun _ => .inr rfl
  case known => exact told_path htold
  case fresh => exact hfresh

theorem held_opens (h : Held H A w f0 s v) (hover : s.ended = false) (o : Opening) :
    Held H A w f0 { s with log := s.log ++ [(o, s.disk.files A.path.toList)] } v := by
  refine ⟨?_, fun x hx => ?_, h.stands, h.known, h.fresh⟩
  · rw [List.head?_append, h.head]
    rfl
  · rcases List.mem_append.mp hx with hx | hx
    · exact h.found x hx
    · rw [List.mem_singleton.mp hx]
      exact h.stands hover

/-- Nothing is opened yet, or one file is held. -/
def Single (H : Host) (A : Args) (w : replace.Call) (f0 : List Char → Option (List UInt8)) (s : St) :
    Prop :=
  Written A w f0 s ∧ (s.log = [] ∨ ∃ v, Held H A w f0 s v)

theorem single_step {e : Ev} (h : Single H A w f0 s) (hok : Undisturbed H A s e)
    (hs : step A w s e = some s') : Single H A w f0 s' := by
  obtain ⟨hw, hlog⟩ := h
  refine ⟨written_step hw hs, ?_⟩
  cases e with
  | write d =>
    obtain ⟨disk, hd, rfl⟩ := Option.map_eq_some_iff.mp hs
    refine hlog.imp_right fun ⟨v, hv⟩ => ⟨v, held_write hv fun hover => ?_⟩
    obtain ⟨tmp, ds, hne, htold⟩ := hw
    apply moved_path hne htold (replace.callStep_moved hd)
    rintro rfl
    have hopen : s.log ≠ [] := fun hnil => by
      have := hv.head
      rw [hnil] at this
      cases this
    exact hok ⟨hopen, hover⟩
  | opens o =>
    simp only [step, Option.ite_none_right_eq_some, Option.some.injEq] at hs
    obtain ⟨⟨hover, hfirst, _, _⟩, rfl⟩ := hs
    right
    rcases hlog with hnil | ⟨v, hv⟩
    · obtain rfl := hfirst.mp hnil
      exact ⟨_, held_first hw hnil hok⟩
    · exact ⟨v, held_opens hv hover o⟩
  | last =>
    simp only [step, Option.ite_none_left_eq_some, Option.some.injEq] at hs
    obtain ⟨_, rfl⟩ := hs
    exact hlog.imp_right fun ⟨v, hv⟩ => ⟨v, hv.head, hv.found, nofun, hv.known, hv.fresh⟩

theorem single_reach (h : Reach (beside A w f0) (Undisturbed H A) s) : Single H A w f0 s :=
  h.invariant (fun _ h0 => ⟨start_written h0, .inl h0.2.2.1⟩)
    fun _ _ _ _ hs hok hst => single_step hs hok hst

/-! ## The law -/

theorem seen_held (h : Held H A w f0 s v) (o : Opening) : s.seen o = none ∨ s.seen o = v := by
  unfold St.seen
  rcases hl : s.log.lookup o with _ | x
  · exact .inl rfl
  · obtain ⟨l₁, l₂, hsplit, _⟩ := List.lookup_eq_some_iff.mp hl
    exact h.found (o, x) (hsplit ▸ List.mem_append_right _ List.mem_cons_self)

theorem seen_footer (h : Held H A w f0 s v) : s.seen .footer = v := by
  unfold St.seen
  obtain ⟨rest, hrest⟩ := List.head?_eq_some_iff.mp h.head
  rw [hrest]
  rfl

/-- A footer out of a fresh cache is the one that would be parsed. -/
theorem chosen_fresh {cache : List Entry} {f : OpenFile} (hf : Fresh cache A.path f) :
    chosen A cache (.ok f) = chosen A [] (.ok f) := by
  have hload : (load cache A.orig A.path (.ok f) "pq_read").1 =
      (load [] A.orig A.path (.ok f) "pq_read").1 := by
    have hmiss : lookup [] f.key = none := rfl
    unfold load
    simp only [hmiss]
    rcases hl : lookup cache f.key with _ | ⟨e, c⟩
    · rcases parse f A.path "pq_read" with _ | _ <;> rfl
    · simp only [hf e c hl]
  unfold chosen
  rw [hload]

/-- A read answers a table of the file that was there before the write, or of the one that the
write put there, when this one is not put in place between two openings of the read and the cache
has no other file's footer for the one that is opened. -/
theorem a_read_answers_from_one_version_if_no_rename_falls_into_it
    (h : Reach (beside A w f0) (Undisturbed H A) s) {t : Table} (hr : Read H A s.seen (.ok t)) :
    ∃ b, (f0 A.path.toList = some b ∨ w.file = b) ∧ TableOf H A b t := by
  have hunopened : ∀ {set sel}, s.seen .footer = none →
      chosen A A.cache (H.fopen (s.seen .footer)) ≠ .ok (set, sel) := fun hnone => by
    rw [hnone]
    nofun
  generalize hrt : (Except.ok t : Except String Table) = r at hr
  cases hr with
  | refused _ => cases hrt
  | went hchosen hreads =>
    subst hrt
    rcases (single_reach h).2 with hnil | ⟨v, hv⟩
    · refine absurd hchosen (hunopened ?_)
      unfold St.seen
      rw [hnil]
      rfl
    rcases v with _ | b
    · exact absurd hchosen (hunopened (seen_footer hv))
    refine ⟨b, ?_, _, _, ?_, reads_one (fun o => ?_) hreads⟩
    · rcases hv.known with hno | hold | hnew
      · cases hno
      · exact .inl hold.symm
      · exact .inr (Option.some.inj hnew).symm
    · rw [seen_footer hv] at hchosen
      exact (chosen_fresh (hv.fresh b rfl)).symm.trans hchosen
    · rcases seen_held hv o with hnone | hsome
      · rw [hnone]
        exact .inr fun _ => ⟨_, rfl⟩
      · rw [hsome]
        exact .inl rfl

/-! ## A mixture -/

/-- A plain read whose tasks all do what they do in `W` answers what a read in `W` answers. -/
theorem reads_mixed {W : World} {Ws : Opening → World} {set : FileSet} {sel : Sel} {who : String}
    {nthreads k g0 g1 : Nat} {m : Mem Nat Cell} {t : Table}
    (hjobs : ∀ plan, planOf W nthreads set sel g0 g1 false who = .ok plan → ∀ i,
      (decodeJobs (Ws (.task i)) set sel plan.parts id (tasksOf plan.rgs plan.parts.length)
          (fun _ => none) who).job i =
        (decodeJobs W set sel plan.parts id (tasksOf plan.rgs plan.parts.length)
          (fun _ => none) who).job i)
    (h : Reads W nthreads k set sel g0 g1 false who m (.ok t)) :
    ReadsAt set sel who Ws nthreads k g0 g1 false m (.ok t) := by
  generalize hr : (Except.ok t : Except String Table) = r at h
  cases h with
  | refused _ => cases hr
  | failed _ _ => cases hr
  | @answered plan m' r hplan hd hre hshort =>
    have hplain : (fun p : Nat => (plan.cds[p]?).join) = fun _ => none := by
      funext p
      exact (planOf_cases hplan).2.2.2 rfl p
    have hsame : jobsAt set sel who (fun i => Ws (.task i)) plan.parts id
        (tasksOf plan.rgs plan.parts.length) (fun _ => none) =
          decodeJobs W set sel plan.parts id (tasksOf plan.rgs plan.parts.length) (fun _ => none)
            who :=
      congrArg (Jobs.mk _ _) (funext (hjobs plan hplan))
    have hkeep : ∀ ps c, RereadsAt set sel who Ws plan.rgs m'.gives k ps
        (⟨c, fun _ => none, id⟩ : Cols) (.ok ⟨c, fun _ => none, id⟩) := fun ps c => by
      induction ps with
      | nil => exact .nil
      | cons p ps ih => exact .keep (by simp) ih
    rw [hplain] at hd hre
    rw [rereads_plain fun _ => rfl] at hre
    subst hre
    have hagain : RereadsAt set sel who Ws plan.rgs m'.gives k (List.range sel.out.length)
        ⟨m'.mem, fun p => (plan.cds[p]?).join, id⟩ (.ok ⟨m'.mem, fun _ => none, id⟩) := by
      rw [hplain]
      exact hkeep _ _
    refine .answered hplan ?_ hagain hshort
    rw [hplain]
    generalize hres : (Except.ok () : Except String Unit) = res at hd
    cases hd with
    | idle hnil => exact .idle hnil
    | failed _ _ _ => cases hres
    | done hne hfin herr => exact .done hne (hsame ▸ hfin) herr

/-- The rows of a file that has a row group for each byte, with one timestamp in it. -/
def byteRows (b : List UInt8) (_ : Src) (g : Nat) : List (Option Int64) :=
  ((b[g]?).map fun x => some (Int64.ofNat x.toNat)).toList

def byteHost : Host where
  world b := stampWorld (byteRows b)
  file b :=
    { key := ⟨"p", 1, b.head?.elim 0 UInt8.toNat, b.length, (0, 0)⟩
      parsed := .ok (stampFile "p" .nanosecond (b.map fun _ => 1)).md
      tryNew := fun _ => none }

/-- A read of the whole file `p`, by one worker, with nothing cached. -/
def byteArgs : Args where
  orig := "p"
  path := "p"
  want := none
  codes := false
  nthreads := 1
  k := 1
  mem _ := .j 0
  cache := []

def oldBytes : List Char → Option (List UInt8) :=
  Function.update (fun _ => none) "p".toList (some [1, 2])

def newBytes : replace.Call := ⟨7, [[3], [4]]⟩

/-- Neither has begun. -/
def atFirst : St where
  disk := ⟨oldBytes, fun _ => 0, fun _ => 0, fun _ => .idle⟩
  log := []
  ended := false

def byteSrc : Src := stampFile "p" .nanosecond [1, 1]

def byteSet : FileSet := ⟨[byteSrc], ["t"], [.ok .KP]⟩

def byteSel : Sel := ⟨[0], [.KP], [0], [rawDecision 0 [byteSrc] true none]⟩

theorem byte_whole (rows : Src → Nat → List (Option Int64))
    (hrows : ∀ g < 2, (rows byteSrc g).length = 1) :
    Whole (stampWorld rows) byteSet.srcs fun s g _ => (rows s g).map (·.map Val.i64) := by
  refine stampWorld_whole fun s hs => ?_
  cases List.mem_singleton.mp hs
  refine ⟨_, _, _, rfl, fun g n hn => ?_⟩
  match g with
  | 0 | 1 =>
    cases hn
    exact hrows _ (by decide)

/-- What a read of two row groups answers, whatever the rows are. -/
theorem byte_read (rows : Src → Nat → List (Option Int64))
    (hrows : ∀ g < 2, (rows byteSrc g).length = 1) :
    Answers (stampWorld rows) byteSet byteSel 0 2 "pq_read"
      (windowTable (fun s g _ => (rows s g).map (·.map Val.i64)) byteSet byteSel 0 2) := by
  have hset : agree [byteSrc] "pq_read" = .ok byteSet := rfl
  have hsel : select byteSet none "pq_read" = .ok byteSel := rfl
  refine read_plain (select_selected hset hsel) (fun s hs => ?_) (byte_whole rows hrows) (by decide) _
  cases List.mem_singleton.mp hs
  exact ⟨rfl, rfl, rfl⟩

/-- A table of a file of two bytes has these two rows. -/
theorem byte_table {x y : UInt8} {t : Table} (h : TableOf byteHost byteArgs [x, y] t) :
    t = windowTable (fun s g _ => (byteRows [x, y] s g).map (·.map Val.i64)) byteSet byteSel 0 2 := by
  obtain ⟨set, sel, hchosen, hread⟩ := h
  have hfile : chosen byteArgs [] (.ok (byteHost.file [x, y])) = .ok (byteSet, byteSel) := rfl
  rw [hfile] at hchosen
  cases hchosen
  have hanswer := (byte_read (byteRows [x, y]) fun g hg => ?_).answer 1 1 _ _ (by decide) hread
  · exact Except.ok.inj hanswer
  · match g with
    | 0 | 1 => rfl

/-- A read of the two row groups, when the footer can be parsed and the tasks find the rows. -/
theorem byte_reads {seen : Opening → Option (List UInt8)} {rows : Src → Nat → List (Option Int64)}
    (hrows : ∀ g < 2, (rows byteSrc g).length = 1)
    (hfooter : chosen byteArgs [] (byteHost.fopen (seen .footer)) = .ok (byteSet, byteSel))
    (hjobs : ∀ plan, planOf (stampWorld rows) 1 byteSet byteSel 0 2 false "pq_read" = .ok plan → ∀ i,
      (decodeJobs (byteHost.at (seen (.task i))) byteSet byteSel plan.parts id
          (tasksOf plan.rgs plan.parts.length) (fun _ => none) "pq_read").job i =
        (decodeJobs (stampWorld rows) byteSet byteSel plan.parts id
          (tasksOf plan.rgs plan.parts.length) (fun _ => none) "pq_read").job i) :
    Read byteHost byteArgs seen
      (.ok (windowTable (fun s g _ => (rows s g).map (·.map Val.i64)) byteSet byteSel 0 2)) := by
  have hanswers := byte_read rows hrows
  obtain ⟨r, hr⟩ := hanswers.returns 1 1 byteArgs.mem
  rw [hanswers.answer 1 1 _ _ (by decide) hr] at hr
  exact .went hfooter (reads_mixed hjobs hr)

/-- The path is unlinked while the read opens its tasks, and the new file comes after the last one. -/
theorem a_read_that_opened_its_tasks_has_the_old_file :
    ∃ (s : St) (t : Table), s.disk.files byteArgs.path.toList = some [3, 4] ∧
      Read byteHost byteArgs s.seen (.ok t) ∧
      ∃ b, (oldBytes byteArgs.path.toList = some b ∨ newBytes.file = b) ∧
        TableOf byteHost byteArgs b t := by
  have hreach : ∃ s, Reach (beside byteArgs newBytes oldBytes) (Undisturbed byteHost byteArgs) s ∧
      s.disk.files byteArgs.path.toList = some [3, 4] ∧ s.seen .footer = some [1, 2] ∧
      s.seen (.task 0) = some [1, 2] ∧ s.seen (.task 1) = some [1, 2] := by
    have hfirst : Reach (beside byteArgs newBytes oldBytes) (Undisturbed byteHost byteArgs) atFirst :=
      .start ⟨rfl, rfl, rfl, rfl⟩
    have hfresh : Undisturbed byteHost byteArgs atFirst (.opens .footer) := fun _ _ _ _ h => nomatch h
    have hfooter := hfirst.next hfresh rfl
    have htask := hfooter.next (a := Ev.opens (.task 0)) trivial rfl
    have hnamed := htask.next (a := Ev.write .new) trivial rfl
    have hcreated := hnamed.next (a := Ev.write (.create true)) trivial rfl
    have hwritten := hcreated.next (a := Ev.write .write) trivial rfl
    have hfilled := hwritten.next (a := Ev.write .write) trivial rfl
    have hopened := hfilled.next (a := Ev.opens (.task 1)) trivial rfl
    have hunlinked := hopened.next (a := Ev.write (.unlink true)) trivial rfl
    have hlast := hunlinked.next (a := Ev.last) trivial rfl
    refine ⟨_, hlast.next (a := Ev.write (.rename true)) ?_ rfl, rfl, rfl, rfl, rfl⟩
    exact fun h => nomatch h.2
  obtain ⟨s, hs, hnew, hfooter, h0, h1⟩ := hreach
  have hread := @byte_reads s.seen (byteRows [1, 2]) (fun g hg => by
    match g with
    | 0 | 1 => rfl) (hfooter ▸ rfl) fun plan hplan i => by
    cases hplan
    match i with
    | 0 =>
      rw [h0]
      rfl
    | 1 =>
      rw [h1]
      rfl
    | i + 2 => rfl
  exact ⟨s, _, hnew, hread, a_read_answers_from_one_version_if_no_rename_falls_into_it hs hread⟩

/-- The vector of a column. -/
def elements : Column → List Cell
  | .vec _ xs => xs
  | .pair _ _ xs => xs

/-- The rows of the mixture: the first row group of the old file, the second one of the new. -/
def mixedRows (s : Src) (g : Nat) : List (Option Int64) :=
  byteRows (if g = 0 then [1, 2] else [3, 4]) s g

/-- The rename falls between the openings of the two tasks, and the table has a row of each file. -/
theorem a_rename_between_two_tasks_mixes_the_files :
    ∃ s t, exec (beside byteArgs newBytes oldBytes) atFirst [.opens .footer, .opens (.task 0),
        .write .new, .write (.create true), .write .write, .write .write, .write (.unlink true),
        .write (.rename true), .opens (.task 1), .last] = some s ∧
      Start oldBytes atFirst ∧ Read byteHost byteArgs s.seen (.ok t) ∧
      ¬∃ b, (oldBytes byteArgs.path.toList = some b ∨ newBytes.file = b) ∧
        TableOf byteHost byteArgs b t := by
  refine ⟨_, windowTable (fun s g _ => (mixedRows s g).map (·.map Val.i64)) byteSet byteSel 0 2, rfl,
    ⟨rfl, rfl, rfl, rfl⟩, byte_reads (fun g hg => ?_) rfl fun plan hplan i => ?_, ?_⟩
  · match g with
    | 0 | 1 => rfl
  · cases hplan
    match i with
    | 0 | 1 => rfl
    | i + 2 => rfl
  · rintro ⟨b, hold | hnew, ht⟩
    · obtain rfl : b = [1, 2] := (Option.some.inj hold).symm
      exact absurd (congrArg (fun t : Table => t.columns.map elements) (byte_table ht)) (by decide)
    · obtain rfl : b = [3, 4] := hnew.symm
      exact absurd (congrArg (fun t : Table => t.columns.map elements) (byte_table ht)) (by decide)

end parquet_interop.versions
