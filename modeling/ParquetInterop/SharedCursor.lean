-- The two loops that share a cursor among the calling thread and the workers:
-- `par_map` over the indices, and `decode` over the tasks of a read.
import ParquetInterop.Lib.Cursor
import ParquetInterop.Window

open lib.runs lib.cursor

namespace parquet_interop.par_map

/-- What a call answers: it comes back with a value, or it unwinds. -/
inductive Answer (T : Type) where
  | back (r : T)
  | unwound

/-- No thread has panicked, in a call or over a spawn. -/
def Calm {L V E : Type} (s : lib.cursor.St L V E) : Prop := ¬s.unwound ∧ ¬s.workerPanicked

/-! ## `par_map` -/

variable {T : Type}

/-- The calls of `par_map`. None of them fails, so the flag that stops a loop is never set. -/
def mapWork (n : Nat) (f : Nat → T) : Work Unit T Empty where
  n := n
  job i _ := (.ok (f i), ())

/-- What `par_map` answers when `run` has come back: nothing after a panic of a worker, and else
the slots in order, if each of them has been written. -/
inductive MapAnswers (n : Nat) (s : lib.cursor.St Unit T Empty) : Answer (Option (List T)) → Prop
  | unwound : s.unwound → MapAnswers n s .unwound
  | panicked : ¬s.unwound → s.workerPanicked → MapAnswers n s (.back none)
  | collected : ¬s.unwound → ¬s.workerPanicked → MapAnswers n s (.back ((List.range n).mapM s.out))

/-- What is collected is the values of the function, in order, as soon as each slot that is
written holds its value. -/
theorem collect_eq {n : Nat} {f : Nat → T} {out : Nat → Option T}
    (hslot : ∀ i v, out i = some v → v = f i) {l : List T} (h : (List.range n).mapM out = some l) :
    l = (List.range n).map f := by
  have hall : ∀ (is : List Nat) (l : List T), is.mapM out = some l → l = is.map f := by
    intro is
    induction is with
    | nil =>
      intro l h
      cases h
      rfl
    | cons i is ih =>
      intro l h
      rw [List.mapM_cons] at h
      simp only [Option.bind_eq_bind, Option.bind_eq_some_iff] at h
      obtain ⟨v, hv, vs, hvs, hl⟩ := h
      cases hl
      rw [List.map_cons, hslot i v hv, ih vs hvs]
  exact hall _ _ h

theorem collect_some {n : Nat} {f : Nat → T} {out : Nat → Option T} (h : ∀ i < n, out i = some (f i)) :
    (List.range n).mapM out = some ((List.range n).map f) := by
  have hall : ∀ is : List Nat, (∀ i ∈ is, out i = some (f i)) → is.mapM out = some (is.map f) := by
    intro is
    induction is with
    | nil => exact fun _ => rfl
    | cons i is ih =>
      intro hi
      rw [List.mapM_cons, hi i List.mem_cons_self, ih fun j hj => hi j (List.mem_cons_of_mem i hj)]
      rfl
  exact hall _ fun i hi => h i (List.mem_range.mp hi)

/-- What the threads have stored in a slot is the value of the function. -/
theorem map_slot {n : Nat} {f : Nat → T} {s : lib.cursor.St Unit T Empty}
    (h : Sound (mapWork n f) s) {i : Nat} {v : T} (hv : s.out i = some v) : v = f i := by
  obtain ⟨_, hl⟩ := h.told.ended i _ ((h.told.slot i v).mp hv)
  cases hl
  rfl

/-- `par_map`, over every schedule: what it calls, and what it answers. -/
structure MapLaw (n : Nat) (f : Nat → T) (s : lib.cursor.St Unit T Empty) : Prop where
  atMostOnce : ∀ i, s.calls i ≤ 1 ∧ (0 < s.calls i → i < n)
  calm : Over s → Calm s → (∀ i < n, s.calls i = 1) ∧
    ∀ ans, MapAnswers n s ans → ans = .back (some ((List.range n).map f))
  answer : ∀ l, MapAnswers n s (.back (some l)) → l = (List.range n).map f
  panicked : s.threw ≠ [] → ∀ ans, MapAnswers n s ans → ans = .back none ∨ ans = .unwound
  answers : ∃ ans, MapAnswers n s ans

theorem calm_iff {L V E : Type} {J : Work L V E} {s : lib.cursor.St L V E} (h : Sound J s) :
    Calm s ↔ s.threw = [] ∧ s.refused = false := by
  unfold Calm
  rw [← not_or, h.panicked, not_or, not_not, Bool.not_eq_true]

theorem map_law {n : Nat} {f : Nat → T} {k : Nat} {s : lib.cursor.St Unit T Empty}
    (h : Reachable (system (mapWork n f) k ()) s) : MapLaw n f s := by
  have hsound := reachable_sound h
  have hcalm := calm_iff hsound
  constructor
  case atMostOnce => exact hsound.atMostOnce
  case calm =>
    intro hover hquiet
    obtain ⟨hthrew, hrefused⟩ := hcalm.mp hquiet
    have hall := fun i (hi : i < n) =>
      hsound.all (i := i) hover hthrew hrefused (fun _ e => e.elim) hi
    refine ⟨fun i hi => (hall i hi).1, fun ans hans => ?_⟩
    cases hans with
    | unwound hu => exact absurd hu hquiet.1
    | panicked _ hw => exact absurd hw hquiet.2
    | collected _ _ =>
      rw [collect_some fun i hi => ?_]
      obtain ⟨-, v, hv, -⟩ := hall i hi
      rw [hv, map_slot hsound hv]
  case answer =>
    intro l hans
    generalize he : Answer.back (some l) = ans at hans
    cases hans with
    | unwound _ => cases he
    | panicked _ _ => cases he
    | collected _ _ =>
      exact collect_eq (fun i v => map_slot hsound) (Answer.back.inj he).symm
  case panicked =>
    intro hthrew ans hans
    have hsome := hsound.panicked.mpr (.inl hthrew)
    cases hans with
    | unwound _ => exact .inr rfl
    | panicked _ _ => exact .inl rfl
    | collected hu hw => exact absurd hsome (not_or.mpr ⟨hu, hw⟩)
  case answers =>
    by_cases hu : s.unwound
    · exact ⟨_, .unwound hu⟩
    · by_cases hw : s.workerPanicked
      · exact ⟨_, .panicked hu hw⟩
      · exact ⟨_, .collected hu hw⟩

end parquet_interop.par_map

namespace parquet_interop.read

open parquet_interop.ffi parquet_interop.footer parquet_interop.par_map

/-! ## `decode` -/

/-- The calls of `one`, each on the cache of the thread that makes it. -/
def decodeWork (W : World) (set : FileSet) (sel : Sel) (parts : List Part) (cols : Nat → Nat)
    (tasks : List Task) (cds : Nat → Option Codes) (who : String) : Work SymCache Unit String :=
  ofJobs (decodeJobs W set sel parts cols tasks cds who)

/-- What `decode` answers when `run` has come back: the error that was stored, and else the text
of a panic of a worker. With no task there is nothing to run. -/
inductive DecodeAnswers (tasks : List Task) (who : String) (s : lib.cursor.St SymCache Unit String) :
    Answer (Except String Unit) → Prop
  | idle : tasks = [] → DecodeAnswers tasks who s (.back (.ok ()))
  | unwound : tasks ≠ [] → s.unwound → DecodeAnswers tasks who s .unwound
  | failed {e : String} : tasks ≠ [] → ¬s.unwound → s.err = some e →
      DecodeAnswers tasks who s (.back (.error e))
  | panicked : tasks ≠ [] → ¬s.unwound → s.err = none → s.workerPanicked →
      DecodeAnswers tasks who s (.back (.error s!"{who}: worker panic"))
  | done : tasks ≠ [] → ¬s.unwound → s.err = none → ¬s.workerPanicked →
      DecodeAnswers tasks who s (.back (.ok ()))

section
variable (W : World) (set : FileSet) (sel : Sel) (parts : List Part) (cols : Nat → Nat)
  (tasks : List Task) (cds : Nat → Option Codes) (who : String)

/-- What `one` can answer on task `i`, on the cache that a worker has by then. -/
def OneGives (i : Nat) (r : Except String Unit) : Prop :=
  ∃ t part sy, tasks[i]? = some t ∧ parts[t.p]? = some part ∧
    (one W sel cols who set part cds t sy).1.2 = r

/-- `decode`, over every schedule: what it calls, and what it answers. -/
structure DecodeLaw (s : lib.cursor.St SymCache Unit String) : Prop where
  atMostOnce : ∀ i, s.calls i ≤ 1 ∧ (0 < s.calls i → i < tasks.length)
  real : ∀ i r, (i, r) ∈ s.ended → OneGives W set sel parts cols tasks cds who i r
  ok : Over s → DecodeAnswers tasks who s (.back (.ok ())) → ∀ i < tasks.length,
    s.calls i = 1 ∧ (i, .ok ()) ∈ s.ended
  bad : Over s → (∃ i e, (i, .error e) ∈ s.ended) ∨ s.threw ≠ [] →
    ∀ ans, DecodeAnswers tasks who s ans → ans = .unwound ∨ ∃ e, ans = .back (.error e)
  error : ∀ e, DecodeAnswers tasks who s (.back (.error e)) →
    (∃ i, (i, .error e) ∈ s.ended) ∨ (e = s!"{who}: worker panic" ∧ s.threw ≠ [])
  answers : ∃ ans, DecodeAnswers tasks who s ans

variable {W set sel parts cols tasks cds who}

/-- A job of a task that names a part is the call of `one`. -/
theorem job_one {i : Nat} {t : Task} {part : Part} (ht : tasks[i]? = some t)
    (hp : parts[t.p]? = some part) (sy : SymCache) :
    ((decodeWork W set sel parts cols tasks cds who).job i sy).1 =
      (one W sel cols who set part cds t sy).1.2 := by
  simp only [decodeWork, ofJobs, decodeJobs, ht, hp, Option.bind_some]

theorem decode_law (hparts : ∀ t ∈ tasks, t.p < parts.length) {k : Nat}
    {s : lib.cursor.St SymCache Unit String}
    (h : Reachable (system (decodeWork W set sel parts cols tasks cds who) k SymCache.new) s) :
    DecodeLaw W set sel parts cols tasks cds who s := by
  have hsound := reachable_sound h
  have hcalm := calm_iff hsound
  have hcalled : ∀ {i}, (∃ r, (i, r) ∈ s.ended) ∨ i ∈ s.threw → i < tasks.length := hsound.called
  constructor
  case atMostOnce => exact hsound.atMostOnce
  case real =>
    intro i r hi
    have hlt := hcalled (.inl ⟨r, hi⟩)
    have hpart := hparts tasks[i] (List.getElem_mem hlt)
    obtain ⟨sy, hsy⟩ := hsound.told.ended i r hi
    rw [job_one (List.getElem?_eq_getElem hlt) (List.getElem?_eq_getElem hpart)] at hsy
    exact ⟨_, _, sy, List.getElem?_eq_getElem hlt, List.getElem?_eq_getElem hpart, hsy⟩
  case ok =>
    intro hover hans i hi
    generalize he : Answer.back (Except.ok ()) = ans at hans
    cases hans with
    | idle hnil =>
      rw [hnil] at hi
      exact absurd hi (Nat.not_lt_zero i)
    | unwound _ _ => cases he
    | failed _ _ _ => cases he
    | panicked _ _ _ _ => cases he
    | done _ hu herr hw =>
      obtain ⟨hthrew, hrefused⟩ := hcalm.mp ⟨hu, hw⟩
      have hnone : ∀ i e, (i, .error e) ∉ s.ended :=
        fun i e hie => (hsound.err hover).2 i e hie herr
      obtain ⟨hone, v, -, hv⟩ := hsound.all hover hthrew hrefused hnone hi
      exact ⟨hone, hv⟩
  case bad =>
    intro hover hbad ans hans
    cases hans with
    | idle hnil =>
      exfalso
      rw [hnil] at hcalled
      rcases hbad with ⟨i, e, hie⟩ | hthrew
      · exact Nat.not_lt_zero i (hcalled (.inl ⟨_, hie⟩))
      · obtain ⟨i, hi⟩ := List.exists_mem_of_ne_nil _ hthrew
        exact Nat.not_lt_zero i (hcalled (.inr hi))
    | unwound _ _ => exact .inl rfl
    | failed _ _ _ => exact .inr ⟨_, rfl⟩
    | panicked _ _ _ _ => exact .inr ⟨_, rfl⟩
    | done _ hu herr hw =>
      exfalso
      rcases hbad with ⟨i, e, hie⟩ | hthrew
      · exact (hsound.err hover).2 i e hie herr
      · exact hthrew (hcalm.mp ⟨hu, hw⟩).1
  case error =>
    intro e hans
    generalize he : Answer.back (Except.error e) = ans at hans
    cases hans with
    | idle _ => cases he
    | unwound _ _ => cases he
    | failed _ _ herr =>
      cases he
      exact .inl (hsound.told.err e herr)
    | panicked _ hu _ hw =>
      cases he
      refine .inr ⟨rfl, ?_⟩
      rcases hsound.panicked.mp (.inr hw) with hthrew | hrefused
      · exact hthrew
      · exact absurd (hsound.told.refused hrefused) hu
    | done _ _ _ _ => cases he
  case answers =>
    by_cases hnil : tasks = []
    · exact ⟨_, .idle hnil⟩
    by_cases hu : s.unwound
    · exact ⟨_, .unwound hnil hu⟩
    rcases herr : s.err with _ | e
    · by_cases hw : s.workerPanicked
      · exact ⟨_, .panicked hnil hu herr hw⟩
      · exact ⟨_, .done hnil hu herr hw⟩
    · exact ⟨_, .failed hnil hu herr⟩

/-- The decode that the reads above are made of, which has no panics, is among these runs. -/
theorem decode_is_a_run {k : Nat} {m m' : Shared} {r : Except String Unit}
    (h : Decodes W set sel parts cols tasks cds who (k + 1) m m' r) :
    ∃ s, Reachable (system (decodeWork W set sel parts cols tasks cds who) k SymCache.new) s ∧
      Calm s ∧ (tasks ≠ [] → Over s) ∧ DecodeAnswers tasks who s (.back r) := by
  have hrun : ∀ {j : lib.jobs.St Shared read.Act SymCache String},
      lib.jobs.Finishes (decodeJobs W set sel parts cols tasks cds who) (k + 1) SymCache.new m j →
      ∃ s, Reachable (system (decodeWork W set sel parts cols tasks cds who) k SymCache.new) s ∧
        Calm s ∧ Over s ∧ s.err = j.err := by
    rintro j ⟨hreach, hover⟩
    obtain ⟨s, hs, hfollows⟩ := run_of_jobs hreach
    refine ⟨s, hs, (calm_iff (reachable_sound hs)).mpr hfollows.calm, fun t ht => ?_, hfollows.err⟩
    rw [hfollows.ts] at ht
    obtain ⟨x, hx, rfl⟩ := List.mem_map.mp ht
    show (ofPc x.pc).isOver = true
    rw [hover x hx]
    rfl
  cases h with
  | idle hnil =>
    have hstart : Reachable (system (decodeWork W set sel parts cols tasks cds who) k SymCache.new)
        (start k SymCache.new) := .start rfl
    exact ⟨_, hstart, (calm_iff (reachable_sound hstart)).mpr ⟨rfl, rfl⟩, fun hne => absurd hnil hne,
      .idle hnil⟩
  | failed hne hfin herr =>
    obtain ⟨s, hs, hcalm, hover, he⟩ := hrun hfin
    exact ⟨s, hs, hcalm, fun _ => hover, .failed hne hcalm.1 (he.trans herr)⟩
  | done hne hfin herr =>
    obtain ⟨s, hs, hcalm, hover, he⟩ := hrun hfin
    exact ⟨s, hs, hcalm, fun _ => hover, .done hne hcalm.1 (he.trans herr) hcalm.2⟩

end

/-- Over every schedule of the calling thread and `k` others, with any of their calls panicking:
`par_map` calls the function once for each index and answers the values in order, or nothing, or
unwinds; `decode` calls `one` once for each task and answers ok only when each has succeeded. Both
come to an end. -/
theorem every_index_and_every_task_is_taken_once (T : Type) (n k : Nat) (f : Nat → T) :
    (∀ s, Reachable (system (mapWork n f) k ()) s → MapLaw n f s) ∧
    (∀ as s, exec (system (mapWork n f) k ()) (start k ()) as = some s →
      as.length ≤ 4 * n + 3 * (k + 1) ∧ ((∀ a, step (mapWork n f) s a = none) → Over s)) ∧
    ∀ (W : World) (set : FileSet) (sel : Sel) (parts : List Part) (cols : Nat → Nat)
      (tasks : List Task) (cds : Nat → Option Codes) (who : String),
      (∀ t ∈ tasks, t.p < parts.length) →
      (∀ s, Reachable (system (decodeWork W set sel parts cols tasks cds who) k SymCache.new) s →
        DecodeLaw W set sel parts cols tasks cds who s) ∧
      ∀ as s, exec (system (decodeWork W set sel parts cols tasks cds who) k SymCache.new)
          (start k SymCache.new) as = some s →
        as.length ≤ 4 * tasks.length + 3 * (k + 1) ∧
          ((∀ a, step (decodeWork W set sel parts cols tasks cds who) s a = none) → Over s) :=
  ⟨fun _ h => map_law h, fun _ _ h => run_ends _ h, fun _ _ _ _ _ _ _ _ hparts =>
    ⟨fun _ h => decode_law hparts h, fun _ _ h => run_ends _ h⟩⟩

/-- Two threads over three indices: the worker takes the second one. -/
def threeIndices : List lib.cursor.Act :=
  [.go 0, .go 0, .go 0, .go 1, .go 1, .go 1, .go 0, .go 0, .go 0, .go 1, .go 1, .go 1, .go 0, .go 0, .go 0]

/-- Crates that find no file. -/
def absentWorld : World := { stampWorld (fun _ _ => []) with fopen := fun _ => .error "not found" }

/-- One task, of a part with no column. -/
def absentWork : Work SymCache Unit String :=
  decodeWork absentWorld ⟨[stampFile "a" .nanosecond [1]], ["t"], [.ok .KP]⟩ ⟨[0], [.KP], [0], [none]⟩
    [⟨[], [], [], []⟩] id [⟨0, 0, 0, 1, 0⟩] (fun _ => none) "pq_read"

theorem three_indices_are_mapped_in_order :
    (∃ s : lib.cursor.St Unit Nat Empty,
      exec (system (mapWork 3 (· * 10)) 1 ()) (start 1 ()) threeIndices = some s ∧
      ∀ ans, MapAnswers 3 s ans → ans = .back (some [0, 10, 20])) ∧
    ∃ s : lib.cursor.St SymCache Unit String,
      exec (system absentWork 0 SymCache.new) (start 0 SymCache.new)
        [.go 0, .go 0, .go 0, .go 0, .go 0] = some s ∧ s.err = some "pq_read: a: not found" ∧
      ∀ ans, DecodeAnswers [⟨0, 0, 0, 1, 0⟩] "pq_read" s ans →
        ans = .unwound ∨ ∃ e, ans = .back (.error e) := by
  have hlaw := fun k => every_index_and_every_task_is_taken_once Nat 3 k (· * 10)
  constructor
  · obtain ⟨s, hs⟩ : ∃ s, exec (system (mapWork 3 (· * 10)) 1 ()) (start 1 ()) threeIndices = some s :=
      Option.isSome_iff_exists.mp (by decide)
    have hover : (exec (system (mapWork 3 (· * 10)) 1 ()) (start 1 ()) threeIndices).map
        (fun s => (s.ts.all (·.pc.isOver), s.threw, s.refused)) = some (true, [], false) := by
      decide
    rw [hs] at hover
    simp only [Option.map_some, Option.some.injEq, Prod.mk.injEq, List.all_eq_true] at hover
    have hreach : Reachable (system (mapWork 3 (· * 10)) 1 ()) s := Reachable.exec (.start rfl) _ hs
    refine ⟨s, hs, ?_⟩
    exact (((hlaw 1).1 s hreach).calm hover.1 ((calm_iff (reachable_sound hreach)).mpr hover.2)).2
  · obtain ⟨s, hs⟩ : ∃ s, exec (system absentWork 0 SymCache.new) (start 0 SymCache.new)
        [.go 0, .go 0, .go 0, .go 0, .go 0] = some s := ⟨_, rfl⟩
    have hend : (exec (system absentWork 0 SymCache.new) (start 0 SymCache.new)
        [.go 0, .go 0, .go 0, .go 0, .go 0]).map
          (fun s => (s.err, s.ended, s.ts.all (·.pc.isOver))) =
        some (some "pq_read: a: not found", [(0, .error "pq_read: a: not found")], true) := rfl
    rw [hs] at hend
    simp only [Option.map_some, Option.some.injEq, Prod.mk.injEq, List.all_eq_true] at hend
    obtain ⟨herr, hended, hover⟩ := hend
    have hdecode := ((hlaw 0).2.2 absentWorld ⟨[stampFile "a" .nanosecond [1]], ["t"], [.ok .KP]⟩
      ⟨[0], [.KP], [0], [none]⟩ [⟨[], [], [], []⟩] id [⟨0, 0, 0, 1, 0⟩] (fun _ => none) "pq_read"
      (by decide)).1 s (Reachable.exec (.start rfl) _ hs)
    refine ⟨s, hs, herr, ?_⟩
    exact hdecode.bad hover (.inl ⟨0, _, hended ▸ List.mem_singleton_self _⟩)

end parquet_interop.read
