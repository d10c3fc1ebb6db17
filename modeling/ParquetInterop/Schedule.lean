-- The decode under any schedule: the tasks keep apart, so when every worker
-- has returned without an error every row of the window has landed.
import ParquetInterop.Landing

open parquet_interop.ffi parquet_interop.footer
open lib.jobs lib.stores

namespace parquet_interop.read

/-! ## The tasks of a window -/

theorem mem_tasksOf {rgs : List Rg} {n : Nat} {t : Task} (h : t ∈ tasksOf rgs n) :
    ∃ r ∈ rgs, t = ⟨r.f, r.g, r.off, r.rows, t.p⟩ ∧ t.p < n := by
  unfold tasksOf at h
  simp only [List.mem_flatMap, List.mem_map, List.mem_range] at h
  obtain ⟨r, hr, p, hp, rfl⟩ := h
  exact ⟨r, hr, rfl, hp⟩

theorem task_mem {rgs : List Rg} {parts : List Part} {r : Rg} (hr : r ∈ rgs) {p : Nat} {part : Part}
    (hp : parts[p]? = some part) :
    (⟨r.f, r.g, r.off, r.rows, p⟩ : Task) ∈ tasksOf rgs parts.length := by
  unfold tasksOf
  apply List.mem_flatMap.mpr
  exact ⟨r, hr, List.mem_map_of_mem (List.mem_range.mpr (List.getElem?_eq_some_iff.mp hp).1)⟩

/-- Two tasks are of different parts, or of row groups that do not meet. -/
def Task.Apart (a b : Task) : Prop := a.p ≠ b.p ∨ a.off + a.rows ≤ b.off ∨ b.off + b.rows ≤ a.off

theorem tasks_apart {rgs : List Rg} (hrgs : rgs.Pairwise fun a b => a.off + a.rows ≤ b.off)
    (n : Nat) : (tasksOf rgs n).Pairwise Task.Apart := by
  unfold tasksOf
  rw [List.pairwise_flatMap]
  constructor
  · intro r _
    rw [List.pairwise_map]
    exact List.nodup_range.imp fun hne => Or.inl hne
  · refine hrgs.imp fun hle a ha b hb => ?_
    simp only [List.mem_map] at ha hb
    obtain ⟨_, _, rfl⟩ := ha
    obtain ⟨_, _, rfl⟩ := hb
    exact Or.inr (Or.inl hle)

theorem apart_of_ne {rgs : List Rg} (hrgs : rgs.Pairwise fun a b => a.off + a.rows ≤ b.off) {n : Nat}
    {i j : Nat} (hij : i ≠ j) {a b : Task} (ha : (tasksOf rgs n)[i]? = some a)
    (hb : (tasksOf rgs n)[j]? = some b) : a.Apart b := by
  have hpair := List.pairwise_iff_getElem.mp (tasks_apart hrgs n)
  obtain ⟨hi, rfl⟩ := List.getElem?_eq_some_iff.mp ha
  obtain ⟨hj, rfl⟩ := List.getElem?_eq_some_iff.mp hb
  rcases Nat.lt_or_gt_of_ne hij with h | h
  · exact hpair i j hi hj h
  · rcases hpair j i hj hi h with h1 | h1 | h1
    · exact Or.inl (Ne.symm h1)
    · exact Or.inr (Or.inr h1)
    · exact Or.inr (Or.inl h1)

/-- No result position is in two parts. -/
theorem parts_apart {set : FileSet} {sel : Sel} {k p p' : Nat} (hne : p ≠ p') {a b : Part}
    (ha : (split set sel k)[p]? = some a) (hb : (split set sel k)[p']? = some b) :
    ∀ q ∈ a.positions, q ∉ b.positions := by
  have hpair := List.pairwise_iff_getElem.mp
    (List.nodup_flatMap.mp (split_flat set sel k).1).2
  obtain ⟨hi, rfl⟩ := List.getElem?_eq_some_iff.mp ha
  obtain ⟨hj, rfl⟩ := List.getElem?_eq_some_iff.mp hb
  intro q hq hq'
  rcases Nat.lt_or_gt_of_ne hne with h | h
  · exact hpair p p' hi hj h hq hq'
  · exact hpair p' p hj hi h hq' hq

theorem positions_lt {set : FileSet} {sel : Sel} {k : Nat} {part : Part}
    (h : part ∈ split set sel k) : ∀ q ∈ part.positions, q < sel.out.length := by
  rcases split_cases h with ⟨q, rt, rfl, hq, _⟩ | ⟨outs, _, rfl, _, houts⟩
  · intro p hp
    rw [List.mem_singleton.mp hp]
    exact hq
  · exact fun p hp => (houts p hp).1

section
variable {G : Ground} {set : FileSet} {content : Content} {Q : Nat → Prop}

/-- The places of two tasks that are apart do not meet. -/
theorem foot_apart (hG : G.Fits set content Q) {k : Nat} {a b : Task} (hab : a.Apart b)
    {pa pb : Part} (hpa : (split set G.sel k)[a.p]? = some pa)
    (hpb : (split set G.sel k)[b.p]? = some pb) {x : Addr Nat} (hx : G.Foot pa a x) :
    ¬G.Foot pb b x := by
  rintro ⟨q', hq', hvec', hlo', hhi'⟩
  obtain ⟨q, hq, hvec, hlo, hhi⟩ := hx
  have hqq : q = q' := hG.handles q (positions_lt (List.mem_of_getElem? hpa) q hq) q'
    (positions_lt (List.mem_of_getElem? hpb) q' hq') (hvec.symm.trans hvec')
  subst hqq
  rcases hab with hne | hle | hle
  · exact parts_apart hne hpa hpb q hq hq'
  · omega
  · omega

/-- What task `i` is to leave: each of its positions that something is known of. -/
def Ground.Post (G : Ground) (set : FileSet) (content : Content) (Q : Nat → Prop)
    (parts : List Part) (tasks : List Task) (i : Nat) (m : Shared) : Prop :=
  ∀ t part, tasks[i]? = some t → parts[t.p]? = some part → ∀ q ∈ part.positions, Q q →
    G.Landed set content t q m

/-- An act of another task does not spoil what the rest of a task is going to leave. -/
theorem landed_keeps (hG : G.Fits set content Q) {t : Task} {part : Part} {q : Nat}
    (hq : q ∈ part.positions) {acts rest : List Act} (hrest : rest <:+ acts)
    (hin : ∀ o ∈ storesOf acts, o.Within (G.Foot part t)) (hset : InSet set t) {a : Act}
    (ha : ∀ o, a = .store o → ¬G.Foot part t o.dst) {m : Shared}
    (h : G.Landed set content t q (rest.foldl Act.exec m)) :
    G.Landed set content t q (rest.foldl Act.exec (a.exec m)) := by
  unfold Ground.Landed at h ⊢
  rw [foldl_exec_gives, foldl_exec_mem] at h ⊢
  rcases h with ⟨hcd, hg⟩ | h
  · refine Or.inl ⟨hcd, hg.imp_left fun hm => ?_⟩
    cases a with
    | store o => exact hm
    | give p => simp [Act.exec, hm]
  · refine Or.inr fun s hs j x hx => ?_
    have hsub : ∀ o ∈ storesOf rest, o.Within (G.Foot part t) := fun o ho =>
      hin o (mem_storesOf.mpr (hrest.subset (mem_storesOf.mp ho)))
    have hfoot : G.Foot part t ⟨G.cols q, t.off + j⟩ := by
      obtain ⟨s', n, hs', hn, hrows⟩ := hset
      cases hs.symm.trans hs'
      have hlt := (List.getElem?_eq_some_iff.mp hx).1
      rw [hG.faithful.rows s (List.mem_of_getElem? hs) t.g n hn] at hlt
      exact ⟨q, hq, rfl, Nat.le_add_right _ _, by simp only; omega⟩
    have hsame : ∀ x, G.Foot part t x → m.mem x = (a.exec m).mem x := by
      intro x hx
      cases a with
      | store o => exact (exec_frame fun he => ha o rfl (he ▸ hx)).symm
      | give p => rfl
    rw [← run_congr hsub hsame _ hfoot]
    exact h s hs j x hx

/-- A job that does not fail is a task that succeeds. -/
theorem job_ok {W : World} {sel : Sel} {parts : List Part} {cols : Nat → Nat} {tasks : List Task}
    {cds : Nat → Option Codes} {who : String} {i : Nat} {sy : SymCache}
    (h : ((decodeJobs W set sel parts cols tasks cds who).job i sy).2.1 = .ok ()) :
    ∃ t part, tasks[i]? = some t ∧ parts[t.p]? = some part ∧
      one W sel cols who set part cds t sy =
        ((((decodeJobs W set sel parts cols tasks cds who).job i sy).1, .ok ()),
          ((decodeJobs W set sel parts cols tasks cds who).job i sy).2.2) := by
  simp only [decodeJobs] at h ⊢
  rcases ht : tasks[i]? with _ | t
  · rw [ht] at h
    cases h
  rw [ht] at h
  rcases hp : parts[t.p]? with _ | part
  · simp only [Option.bind_some, hp, reduceCtorEq] at h
  simp only [Option.bind_some, hp] at h ⊢
  refine ⟨t, part, rfl, hp, ?_⟩
  rcases hone : one W sel cols who set part cds t sy with ⟨⟨acts, r⟩, sy'⟩
  rw [hone] at h
  cases h
  rfl

/-- The jobs of a window keep apart. -/
theorem decode_apart (hG : G.Fits set content Q) {cds : Nat → Option Codes} (hcds : G.Runs cds)
    {k : Nat} {rgs : List Rg}
    (hrgs : rgs.Pairwise fun a b => a.off + a.rows ≤ b.off) {n : Nat}
    (hset : ∀ t ∈ tasksOf rgs n, InSet set t) (who : String) :
    Apart (decodeJobs G.W set G.sel (split set G.sel k) G.cols (tasksOf rgs n) cds who)
      (G.run cds).Sane
      (G.Post set content Q (split set G.sel k) (tasksOf rgs n)) := by
  have hdone : ∀ {i : Nat} {sy : SymCache} {t : Task} {part : Part} {acts : List Act}
      {sy' : SymCache}, (G.run cds).Sane sy → (tasksOf rgs n)[i]? = some t →
      (split set G.sel k)[t.p]? = some part →
      one G.W G.sel G.cols who set part cds t sy = ((acts, .ok ()), sy') →
      (G.run cds).Sane sy' ∧ G.Done set content Q part t acts := fun hsy ht hp hone =>
    one_done hG hcds (List.mem_of_getElem? hp) (hset _ (List.mem_of_getElem? ht)) hsy hone
  constructor
  case keeps =>
    intro i _ sy hsy hok
    obtain ⟨t, part, ht, hp, hone⟩ := job_ok hok
    exact (hdone hsy ht hp hone).1
  case post =>
    intro i _ sy hsy hok m t' part' ht' hp' q hq hQ
    obtain ⟨t, part, ht, hp, hone⟩ := job_ok hok
    cases ht.symm.trans ht'
    cases hp.symm.trans hp'
    exact (hdone hsy ht hp hone).2.landed q hq hQ m
  case apart =>
    intro i _ j _ hij li lj hli hlj hoki hokj rest hrest a ha m hpost t' part' ht' hp' q hq hQ
    obtain ⟨t, part, ht, hp, hone⟩ := job_ok hoki
    cases ht.symm.trans ht'
    cases hp.symm.trans hp'
    obtain ⟨u, other, hu, ho, hother⟩ := job_ok hokj
    have hi := (hdone hli ht hp hone).2
    have hj := (hdone hlj hu ho hother).2
    refine landed_keeps hG hq hrest (hi.within ⟨q, hq, hQ⟩) (hset _ (List.mem_of_getElem? ht)) ?_
      (hpost _ _ ht hp q hq hQ)
    intro o he hfoot
    subst he
    exact foot_apart hG (apart_of_ne hrgs hij ht hu) hp ho hfoot
      (hj.dst o (mem_storesOf.mpr ha))

/-- The row groups of a window: rows of the set, laid out apart. -/
structure LaidOut (set : FileSet) (rgs : List Rg) : Prop where
  apart : rgs.Pairwise fun a b => a.off + a.rows ≤ b.off
  inSet : ∀ r ∈ rgs, InSet set ⟨r.f, r.g, r.off, r.rows, 0⟩

theorem LaidOut.tasks {rgs : List Rg} (h : LaidOut set rgs) {n : Nat} :
    ∀ t ∈ tasksOf rgs n, InSet set t := by
  intro t ht
  obtain ⟨r, hr, he, _⟩ := mem_tasksOf ht
  rw [he]
  exact h.inSet r hr

theorem Ground.sane_new (G : Ground) : G.Sane SymCache.new :=
  ⟨coherent_new _, fun _ _ h => absurd h List.not_mem_nil⟩

/-- A decode without an error, in whatever order the workers took its tasks: every row group of
the window has landed in every column. -/
theorem decode_landed (hG : G.Fits set content Q) {cds : Nat → Option Codes} (hcds : G.Runs cds)
    {rgs : List Rg} (hrgs : LaidOut set rgs) {ways k : Nat} (hk : 0 < k) {who : String} {m m' : Shared}
    (h : Decodes G.W set G.sel (split set G.sel ways) G.cols
      (tasksOf rgs (split set G.sel ways).length) cds who k m m' (.ok ())) :
    ∀ r ∈ rgs, ∀ q < G.sel.out.length, Q q →
      G.Landed set content ⟨r.f, r.g, r.off, r.rows, 0⟩ q m' := by
  intro r hr q hq hQ
  obtain ⟨part, hpart, hin⟩ := List.mem_flatMap.mp ((split_flat set G.sel ways).2 q hq)
  obtain ⟨p, hp⟩ := List.mem_iff_getElem?.mp hpart
  have ht := task_mem hr hp
  obtain ⟨i, hi⟩ := List.mem_iff_getElem?.mp ht
  cases h with
  | idle hnil =>
    rw [hnil] at ht
    cases ht
  | done _ hfin herr =>
    have hpost := finishes_post (decode_apart hG hcds hrgs.apart hrgs.tasks who) hk
      (G.run cds).sane_new hfin herr i
      (List.getElem?_eq_some_iff.mp hi).1
    exact hpost _ part hi hp q hin hQ

/-- Over files that deliver their rows, no schedule answers an error, and there is one that
answers. -/
theorem decode_succeeds (hG : G.Fits set content Q) {cds : Nat → Option Codes} (hcds : G.Runs cds)
    (hQ : ∀ q rt, G.sel.rawAt q = some rt → Q q) (hD : Delivering G.W set.srcs)
    {rgs : List Rg} (hrgs : LaidOut set rgs) (ways k : Nat) (who : String) (m : Shared) :
    (∃ m', Decodes G.W set G.sel (split set G.sel ways) G.cols
      (tasksOf rgs (split set G.sel ways).length) cds who k m m' (.ok ())) ∧
    ∀ m' r, Decodes G.W set G.sel (split set G.sel ways) G.cols
      (tasksOf rgs (split set G.sel ways).length) cds who k m m' r → r = .ok () := by
  have hok : ∀ i < (tasksOf rgs (split set G.sel ways).length).length, ∀ sy, (G.run cds).Sane sy →
      ((decodeJobs G.W set G.sel (split set G.sel ways) G.cols
        (tasksOf rgs (split set G.sel ways).length) cds who).job i sy).2.1 = .ok () := by
    intro i hi sy hsy
    have ht := List.getElem?_eq_getElem hi
    generalize (tasksOf rgs (split set G.sel ways).length)[i] = t at ht
    have hmem := List.mem_of_getElem? ht
    obtain ⟨_, _, _, hp⟩ := mem_tasksOf hmem
    have hpart := List.getElem?_eq_getElem hp
    obtain ⟨acts, sy', hone⟩ := one_succeeds hG hcds hQ hD (List.mem_of_getElem? hpart)
      (hrgs.tasks _ hmem) hsy who
    simp only [decodeJobs, ht, Option.bind_some, hpart, hone]
  have hsane : ∀ {s}, Finishes (decodeJobs G.W set G.sel (split set G.sel ways) G.cols
      (tasksOf rgs (split set G.sel ways).length) cds who) k SymCache.new m s → s.err = none :=
    fun hfin => finishes_ok (I := (G.run cds).Sane) (fun i hi sy hsy => ⟨hok i hi sy hsy,
      (decode_apart hG hcds hrgs.apart hrgs.tasks who).keeps i hi sy hsy (hok i hi sy hsy)⟩)
      (G.run cds).sane_new hfin
  constructor
  · by_cases hnil : tasksOf rgs (split set G.sel ways).length = []
    · exact ⟨m, .idle hnil⟩
    · obtain ⟨s, hfin⟩ := finishes_of_reachable (.start rfl)
      exact ⟨s.mem, .done hnil hfin (hsane hfin)⟩
  · intro m' r h
    cases h with
    | idle _ => rfl
    | failed _ hfin herr =>
      rw [hsane hfin] at herr
      cases herr
    | done _ _ _ => rfl

end

end parquet_interop.read
