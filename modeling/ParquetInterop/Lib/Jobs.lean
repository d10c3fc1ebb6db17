-- Workers that claim jobs from one cursor and run each by small operations on
-- a shared state: what holds when all of them have returned, under any schedule.
import Mathlib.Algebra.Ring.Nat
import Mathlib.Algebra.Ring.Int.Defs
import Mathlib.Order.WellFounded
import Mathlib.Data.Prod.Lex
import Mathlib.Algebra.BigOperators.Group.List.Basic
import ParquetInterop.Lib.Runs
import ParquetInterop.Lib.Parking

open lib.runs

namespace lib.jobs

/-- `n` jobs over a shared state. What a job does depends on the worker's own data, which it
may change: its operations in order, and whether it fails in the end. -/
structure Jobs (M O L E : Type) where
  n : Nat
  exec : M → O → M
  job : Nat → L → List O × Except E Unit × L

inductive Pc (O E : Type) where
  | top
  | claim
  | busy (i : Nat) (rest : List O) (res : Except E Unit)
  | failed (e : E)
  | done

structure Worker (O L E : Type) where
  pc : Pc O E
  loc : L

structure St (M O L E : Type) where
  mem : M
  next : Nat
  stop : Bool
  err : Option E
  ws : List (Worker O L E)

variable {M O L E : Type}

/-- Every worker at the top of its loop. -/
def start (k : Nat) (l : L) (m : M) : St M O L E :=
  { mem := m, next := 0, stop := false, err := none, ws := List.replicate k ⟨.top, l⟩ }

/-- One step of worker `w`: look at the stop flag, claim, run one operation, or report. The
first error is the one that stays. -/
def step (J : Jobs M O L E) (s : St M O L E) (w : Nat) : Option (St M O L E) :=
  match s.ws[w]? with
  | none => none
  | some ⟨pc, loc⟩ =>
    match pc with
    | .top => some { s with ws := s.ws.set w ⟨if s.stop then .done else .claim, loc⟩ }
    | .claim =>
      if s.next < J.n then
        let r := J.job s.next loc
        some { s with next := s.next + 1, ws := s.ws.set w ⟨.busy s.next r.1 r.2.1, r.2.2⟩ }
      else some { s with next := s.next + 1, ws := s.ws.set w ⟨.done, loc⟩ }
    | .busy i (o :: rest) res =>
      some { s with mem := J.exec s.mem o, ws := s.ws.set w ⟨.busy i rest res, loc⟩ }
    | .busy _ [] (.ok ()) => some { s with ws := s.ws.set w ⟨.top, loc⟩ }
    | .busy _ [] (.error e) => some { s with stop := true, ws := s.ws.set w ⟨.failed e, loc⟩ }
    | .failed e => some { s with err := s.err.or (some e), ws := s.ws.set w ⟨.done, loc⟩ }
    | .done => none

/-- `k` workers over the jobs, from a shared state `m`. -/
def system (J : Jobs M O L E) (k : Nat) (l : L) (m : M) : System (St M O L E) Nat where
  init s := s = start k l m
  step := step J

/-- Every worker has returned. -/
def Over (s : St M O L E) : Prop := ∀ x ∈ s.ws, x.pc = .done

/-- A complete run of `k` workers ends in `s`. -/
def Finishes (J : Jobs M O L E) (k : Nat) (l : L) (m : M) (s : St M O L E) : Prop :=
  Reachable (system J k l m) s ∧ Over s

/-- All that a step can do. -/
theorem step_cases {J : Jobs M O L E} {s t : St M O L E} {w : Nat} (h : step J s w = some t) :
    ∃ pc loc, s.ws[w]? = some ⟨pc, loc⟩ ∧
      ((pc = .top ∧
          t = { s with ws := s.ws.set w ⟨if s.stop then .done else .claim, loc⟩ }) ∨
        (pc = .claim ∧ s.next < J.n ∧
          t = { s with
            next := s.next + 1
            ws := s.ws.set w ⟨.busy s.next (J.job s.next loc).1 (J.job s.next loc).2.1,
              (J.job s.next loc).2.2⟩ }) ∨
        (pc = .claim ∧ J.n ≤ s.next ∧
          t = { s with next := s.next + 1, ws := s.ws.set w ⟨.done, loc⟩ }) ∨
        (∃ i o rest res, pc = .busy i (o :: rest) res ∧
          t = { s with mem := J.exec s.mem o, ws := s.ws.set w ⟨.busy i rest res, loc⟩ }) ∨
        (∃ i, pc = .busy i [] (.ok ()) ∧ t = { s with ws := s.ws.set w ⟨.top, loc⟩ }) ∨
        (∃ i e, pc = .busy i [] (.error e) ∧
          t = { s with stop := true, ws := s.ws.set w ⟨.failed e, loc⟩ }) ∨
        ∃ e, pc = .failed e ∧
          t = { s with err := s.err.or (some e), ws := s.ws.set w ⟨.done, loc⟩ }) := by
  unfold step at h
  split at h
  · cases h
  rename_i pc loc hw
  refine ⟨pc, loc, hw, ?_⟩
  split at h
  · exact Or.inl ⟨rfl, (Option.some.inj h).symm⟩
  · split at h
    · rename_i hn
      exact Or.inr (Or.inl ⟨rfl, hn, (Option.some.inj h).symm⟩)
    · rename_i hn
      exact Or.inr (Or.inr (Or.inl ⟨rfl, Nat.not_lt.mp hn, (Option.some.inj h).symm⟩))
  · exact Or.inr (Or.inr (Or.inr (Or.inl ⟨_, _, _, _, rfl, (Option.some.inj h).symm⟩)))
  · exact Or.inr (Or.inr (Or.inr (Or.inr (Or.inl ⟨_, rfl, (Option.some.inj h).symm⟩))))
  · exact Or.inr (Or.inr (Or.inr (Or.inr (Or.inr (Or.inl ⟨_, _, rfl, (Option.some.inj h).symm⟩)))))
  · exact Or.inr (Or.inr (Or.inr (Or.inr (Or.inr (Or.inr ⟨_, rfl, (Option.some.inj h).symm⟩)))))
  · cases h

/-! ## Every run ends -/

/-- The operations that a worker has left, and one for each look at a flag. -/
def Pc.left : Pc O E → Nat
  | .top => 1
  | .claim => 0
  | .busy _ rest _ => rest.length + 2
  | .failed _ => 1
  | .done => 0

def Pc.alive : Pc O E → Nat
  | .done => 0
  | _ => 1

/-- The claims and the returns to come, then the operations to come. -/
def rank (J : Jobs M O L E) (s : St M O L E) : Nat ×ₗ Nat :=
  toLex ((J.n - s.next) + (s.ws.map (·.pc.alive)).sum, (s.ws.map (·.pc.left)).sum)

theorem step_rank {J : Jobs M O L E} {s t : St M O L E} {w : Nat} (h : step J s w = some t) :
    rank J t < rank J s := by
  obtain ⟨pc, loc, hw, hcases⟩ := step_cases h
  have halive := fun y => lib.parking.total_set (fun x : Worker O L E => x.pc.alive) y hw
  have hleft := fun y => lib.parking.total_set (fun x : Worker O L E => x.pc.left) y hw
  unfold rank
  rw [Prod.Lex.toLex_lt_toLex]
  rcases hcases with ⟨rfl, rfl⟩ | ⟨rfl, hn, rfl⟩ | ⟨rfl, hn, rfl⟩ | ⟨i, o, rest, res, rfl, rfl⟩ |
    ⟨i, rfl, rfl⟩ | ⟨i, e, rfl, rfl⟩ | ⟨e, rfl, rfl⟩
  · have ha := halive ⟨if s.stop then .done else .claim, loc⟩
    have hl := hleft ⟨if s.stop then .done else .claim, loc⟩
    cases hs : s.stop <;> simp only [hs, if_true, if_false, Bool.false_eq_true, Pc.alive, Pc.left]
      at ha hl ⊢ <;> omega
  · have ha := halive ⟨.busy s.next (J.job s.next loc).1 (J.job s.next loc).2.1,
      (J.job s.next loc).2.2⟩
    simp only [Pc.alive] at ha ⊢
    omega
  · have ha := halive ⟨.done, loc⟩
    simp only [Pc.alive] at ha ⊢
    omega
  · have ha := halive ⟨.busy i rest res, loc⟩
    have hl := hleft ⟨.busy i rest res, loc⟩
    simp only [Pc.alive, Pc.left, List.length_cons] at ha hl ⊢
    omega
  · have ha := halive ⟨.top, loc⟩
    have hl := hleft ⟨.top, loc⟩
    simp only [Pc.alive, Pc.left, List.length_nil] at ha hl ⊢
    omega
  · have ha := halive ⟨.failed e, loc⟩
    have hl := hleft ⟨.failed e, loc⟩
    simp only [Pc.alive, Pc.left, List.length_nil] at ha hl ⊢
    omega
  · have ha := halive ⟨.done, loc⟩
    simp only [Pc.alive] at ha ⊢
    omega

/-- No run goes on for ever. -/
theorem terminates (J : Jobs M O L E) :
    WellFounded fun t s : St M O L E => ∃ w, step J s w = some t :=
  Subrelation.wf (fun ⟨_, h⟩ => step_rank h) (InvImage.wf (rank J) wellFounded_lt)

/-- A worker that has not returned can go on. -/
theorem step_of_alive {J : Jobs M O L E} {s : St M O L E} {w : Nat} {x : Worker O L E}
    (hw : s.ws[w]? = some x) (hx : x.pc ≠ .done) : ∃ t, step J s w = some t := by
  obtain ⟨pc, loc⟩ := x
  unfold step
  rw [hw]
  dsimp only
  split
  · exact ⟨_, rfl⟩
  · split <;> exact ⟨_, rfl⟩
  · exact ⟨_, rfl⟩
  · exact ⟨_, rfl⟩
  · exact ⟨_, rfl⟩
  · exact ⟨_, rfl⟩
  · exact absurd rfl hx

/-- From every state of a run, the run can be completed. -/
theorem finishes_of_reachable {J : Jobs M O L E} {k : Nat} {l : L} {m : M} {s : St M O L E}
    (h : Reachable (system J k l m) s) : ∃ t, Finishes J k l m t := by
  induction s using (terminates J).induction with
  | _ s ih =>
    by_cases hover : Over s
    · exact ⟨s, h, hover⟩
    · obtain ⟨x, hx, hpc⟩ : ∃ x ∈ s.ws, x.pc ≠ .done := by
        unfold Over at hover
        simpa using hover
      obtain ⟨w, hw⟩ := List.mem_iff_getElem?.mp hx
      obtain ⟨t, ht⟩ := step_of_alive (J := J) hw hpc
      exact ih t ⟨w, ht⟩ (.next h trivial ht)

/-! ## What the jobs leave -/

/-- The operations one after the other. -/
def runs (J : Jobs M O L E) (m : M) (os : List O) : M := os.foldl J.exec m

/-- Jobs that keep apart. A job that does not fail makes its own `Post`, from whatever the shared
state is, and an operation of another one does not spoil it, also half-way. -/
structure Apart (J : Jobs M O L E) (I : L → Prop) (Post : Nat → M → Prop) : Prop where
  keeps : ∀ i < J.n, ∀ l, I l → (J.job i l).2.1 = .ok () → I (J.job i l).2.2
  post : ∀ i < J.n, ∀ l, I l → (J.job i l).2.1 = .ok () → ∀ m, Post i (runs J m (J.job i l).1)
  apart : ∀ i < J.n, ∀ j < J.n, i ≠ j → ∀ li lj, I li → I lj → (J.job i li).2.1 = .ok () →
    (J.job j lj).2.1 = .ok () → ∀ rest, rest <:+ (J.job i li).1 → ∀ o ∈ (J.job j lj).1, ∀ m,
      Post i (runs J m rest) → Post i (runs J (J.exec m o) rest)

/-- A worker on its way to report an error. -/
def Pc.Bad : Pc O E → Prop
  | .busy _ _ res => res ≠ .ok ()
  | .failed _ => True
  | _ => False

/-- An error is reported, or is going to be. -/
def Doomed (s : St M O L E) : Prop := s.err ≠ none ∨ ∃ x ∈ s.ws, x.pc.Bad

/-- Job `i` is in the hands of worker `w`. -/
def HeldBy (s : St M O L E) (i w : Nat) : Prop :=
  ∃ rest res loc, s.ws[w]? = some (⟨.busy i rest res, loc⟩ : Worker O L E)

/-- The state of the workers while no job has failed. -/
structure Fine (J : Jobs M O L E) (I : L → Prop) (Post : Nat → M → Prop) (s : St M O L E) :
    Prop where
  stop : s.stop = false
  loc : ∀ x ∈ s.ws, I x.loc
  busy : ∀ (w : Nat) i rest res loc, s.ws[w]? = some ⟨.busy i rest res, loc⟩ →
    i < J.n ∧ i < s.next ∧ Post i (runs J s.mem rest) ∧
      ∃ l, I l ∧ rest <:+ (J.job i l).1 ∧ (J.job i l).2.1 = .ok ()
  once : ∀ i w w', HeldBy s i w → HeldBy s i w' → w = w'
  finished : ∀ i < J.n, i < s.next → (∀ w, ¬HeldBy s i w) →
    Post i s.mem ∧ ∃ l, I l ∧ (J.job i l).2.1 = .ok ()
  returned : ∀ x ∈ s.ws, x.pc = .done → J.n ≤ s.next

/-- Every other worker stands where it stood. -/
theorem mem_set_of_ne {T : Type} {l : List T} {v w : Nat} {x y : T} (hv : l[v]? = some x)
    (hne : v ≠ w) : x ∈ l.set w y := by
  apply List.mem_iff_getElem?.mpr
  exact ⟨v, by rw [List.getElem?_set_ne (Ne.symm hne), hv]⟩

theorem forall_mem_set {T : Type} {P : T → Prop} {l : List T} {w : Nat} {y : T}
    (h : ∀ x ∈ l, P x) (hy : P y) : ∀ x ∈ l.set w y, P x := by
  intro x hx
  rcases List.mem_or_eq_of_mem_set hx with hx | rfl
  · exact h x hx
  · exact hy

/-- A step does not save a run that is doomed. -/
theorem step_doomed {J : Jobs M O L E} {s t : St M O L E} {w : Nat} (h : step J s w = some t)
    (hd : Doomed s) : Doomed t := by
  obtain ⟨pc, loc, hw, hcases⟩ := step_cases h
  have hself : ∀ y : Worker O L E, y ∈ s.ws.set w y := by
    intro y
    exact List.mem_iff_getElem?.mpr
      ⟨w, List.getElem?_set_self (List.getElem?_eq_some_iff.mp hw).1⟩
  rcases hd with herr | ⟨x, hx, hbad⟩
  · left
    rcases hcases with ⟨rfl, rfl⟩ | ⟨rfl, hn, rfl⟩ | ⟨rfl, hn, rfl⟩ | ⟨i, o, rest, res, rfl, rfl⟩ |
      ⟨i, rfl, rfl⟩ | ⟨i, e, rfl, rfl⟩ | ⟨e, rfl, rfl⟩ <;> first | exact herr | skip
    simp
  · obtain ⟨v, hv⟩ := List.mem_iff_getElem?.mp hx
    by_cases hvw : v = w
    · subst hvw
      have hxe : x = ⟨pc, loc⟩ := Option.some.inj (hv.symm.trans hw)
      subst hxe
      rcases hcases with ⟨rfl, rfl⟩ | ⟨rfl, hn, rfl⟩ | ⟨rfl, hn, rfl⟩ |
        ⟨i, o, rest, res, rfl, rfl⟩ | ⟨i, rfl, rfl⟩ | ⟨i, e, rfl, rfl⟩ | ⟨e, rfl, rfl⟩
      · exact hbad.elim
      · exact hbad.elim
      · exact hbad.elim
      · exact Or.inr ⟨_, hself _, hbad⟩
      · exact absurd rfl hbad
      · exact Or.inr ⟨_, hself _, trivial⟩
      · exact Or.inl (by simp)
    · right
      refine ⟨x, ?_, hbad⟩
      rcases hcases with ⟨rfl, rfl⟩ | ⟨rfl, hn, rfl⟩ | ⟨rfl, hn, rfl⟩ |
        ⟨i, o, rest, res, rfl, rfl⟩ | ⟨i, rfl, rfl⟩ | ⟨i, e, rfl, rfl⟩ | ⟨e, rfl, rfl⟩ <;>
        exact mem_set_of_ne hv hvw

section
variable {J : Jobs M O L E} {I : L → Prop} {Post : Nat → M → Prop}

/-- Nothing has been claimed. -/
theorem start_fine {k : Nat} {l : L} {m : M} (hl : I l) : Fine J I Post (start k l m) := by
  have hws : ∀ x ∈ (start k l m : St M O L E).ws, x = ⟨.top, l⟩ := fun x hx =>
    List.eq_of_mem_replicate hx
  constructor
  case stop => rfl
  case loc => exact fun x hx => (hws x hx) ▸ hl
  case busy =>
    intro w i rest res loc h
    have := hws _ (List.mem_of_getElem? h)
    cases this
  case once =>
    rintro i w w' ⟨rest, res, loc, h⟩
    have := hws _ (List.mem_of_getElem? h)
    cases this
  case finished => exact fun i _ hi => absurd hi (Nat.not_lt_zero i)
  case returned =>
    intro x hx hpc
    rw [hws x hx] at hpc
    cases hpc

/-- A worker that lets go of its job at the end of it, or that held none. -/
theorem fine_idle {s : St M O L E} {w next : Nat} {x y : Worker O L E} (hs : Fine J I Post s)
    (hw : s.ws[w]? = some x) (hx : ∀ i rest res, x.pc = .busy i rest res → rest = [])
    (hy : ∀ i rest res, y.pc ≠ .busy i rest res) (hI : I y.loc)
    (hnext : s.next ≤ next ∧ (s.next < next → J.n ≤ s.next))
    (hdone : y.pc = .done → J.n ≤ next) :
    Fine J I Post { s with next := next, ws := s.ws.set w y } := by
  have hlen := (List.getElem?_eq_some_iff.mp hw).1
  have hold : ∀ {v i rest res loc}, (s.ws.set w y)[v]? = some ⟨.busy i rest res, loc⟩ →
      v ≠ w ∧ s.ws[v]? = some ⟨.busy i rest res, loc⟩ := by
    intro v i rest res loc h
    by_cases hv : v = w
    · subst hv
      rw [List.getElem?_set_self hlen] at h
      cases h
      exact absurd rfl (hy i rest res)
    · rw [List.getElem?_set_ne (Ne.symm hv)] at h
      exact ⟨hv, h⟩
  constructor
  case stop => exact hs.stop
  case loc =>
    intro z hz
    rcases List.mem_or_eq_of_mem_set hz with hz | rfl
    · exact hs.loc z hz
    · exact hI
  case busy =>
    intro v i rest res loc h
    obtain ⟨h1, h2, h3⟩ := hs.busy v i rest res loc (hold h).2
    exact ⟨h1, Nat.lt_of_lt_of_le h2 hnext.1, h3⟩
  case once =>
    rintro i v v' ⟨rest, res, loc, h⟩ ⟨rest', res', loc', h'⟩
    exact hs.once i v v' ⟨_, _, _, (hold h).2⟩ ⟨_, _, _, (hold h').2⟩
  case finished =>
    intro i hi hlt hfree
    have hin : i < s.next := by
      have := hnext.2
      simp only at hlt
      omega
    by_cases hheld : ∃ v, HeldBy s i v
    · obtain ⟨v, rest, res, loc, hv⟩ := hheld
      have hvw : v = w := by
        by_contra hne
        exact hfree v ⟨rest, res, loc, by
          show (s.ws.set w y)[v]? = _
          rw [List.getElem?_set_ne (Ne.symm hne), hv]⟩
      subst hvw
      obtain ⟨_, _, hpost, l, hl, _, hok⟩ := hs.busy v i rest res loc hv
      have hxe : x = ⟨.busy i rest res, loc⟩ := Option.some.inj (hw.symm.trans hv)
      have hnil : rest = [] := hx i rest res (by rw [hxe])
      subst hnil
      exact ⟨hpost, l, hl, hok⟩
    · exact hs.finished i hi hin fun v hv => hheld ⟨v, hv⟩
  case returned =>
    intro z hz hpc
    rcases List.mem_or_eq_of_mem_set hz with hz | rfl
    · exact Nat.le_trans (hs.returned z hz hpc) hnext.1
    · exact hdone hpc

/-- The claim of the next job. -/
theorem fine_claim (hJ : Apart J I Post) {s : St M O L E} {w : Nat} {loc : L}
    (hs : Fine J I Post s) (hw : s.ws[w]? = some ⟨.claim, loc⟩) (hn : s.next < J.n)
    (hok : (J.job s.next loc).2.1 = .ok ()) :
    Fine J I Post { s with
      next := s.next + 1
      ws := s.ws.set w ⟨.busy s.next (J.job s.next loc).1 (J.job s.next loc).2.1,
        (J.job s.next loc).2.2⟩ } := by
  have hlen := (List.getElem?_eq_some_iff.mp hw).1
  have hI : I loc := hs.loc _ (List.mem_of_getElem? hw)
  have hold : ∀ {v i rest res loc'},
      (s.ws.set w ⟨.busy s.next (J.job s.next loc).1 (J.job s.next loc).2.1,
        (J.job s.next loc).2.2⟩)[v]? = some ⟨.busy i rest res, loc'⟩ →
      v = w ∧ i = s.next ∧ rest = (J.job s.next loc).1 ∨
        v ≠ w ∧ s.ws[v]? = some ⟨.busy i rest res, loc'⟩ := by
    intro v i rest res loc' h
    by_cases hv : v = w
    · subst hv
      rw [List.getElem?_set_self hlen] at h
      cases h
      exact Or.inl ⟨rfl, rfl, rfl⟩
    · rw [List.getElem?_set_ne (Ne.symm hv)] at h
      exact Or.inr ⟨hv, h⟩
  constructor
  case stop => exact hs.stop
  case loc =>
    intro z hz
    rcases List.mem_or_eq_of_mem_set hz with hz | rfl
    · exact hs.loc z hz
    · exact hJ.keeps s.next hn loc hI hok
  case busy =>
    intro v i rest res loc' h
    rcases hold h with ⟨_, rfl, rfl⟩ | ⟨_, h⟩
    · exact ⟨hn, Nat.lt_succ_self _, hJ.post _ hn loc hI hok s.mem, loc, hI, List.suffix_rfl, hok⟩
    · obtain ⟨h1, h2, h3⟩ := hs.busy v i rest res loc' h
      exact ⟨h1, Nat.lt_succ_of_lt h2, h3⟩
  case once =>
    rintro i v v' ⟨rest, res, loc1, h⟩ ⟨rest', res', loc2, h'⟩
    rcases hold h with ⟨hv, hi, _⟩ | ⟨hv, h⟩ <;> rcases hold h' with ⟨hv', hi', _⟩ | ⟨hv', h'⟩
    · rw [hv, hv']
    · have := (hs.busy v' i rest' res' loc2 h').2.1
      omega
    · have := (hs.busy v i rest res loc1 h).2.1
      omega
    · exact hs.once i v v' ⟨_, _, _, h⟩ ⟨_, _, _, h'⟩
  case finished =>
    intro i hi hlt hfree
    have hne : i ≠ s.next := by
      rintro rfl
      exact hfree w ⟨_, _, _, List.getElem?_set_self hlen⟩
    refine hs.finished i hi (by simp only at hlt; omega) fun v hv => ?_
    obtain ⟨rest, res, loc', hv⟩ := hv
    have hvw : v ≠ w := by
      rintro rfl
      rw [hw] at hv
      cases hv
    exact hfree v ⟨rest, res, loc', by
      show (s.ws.set w _)[v]? = _
      rw [List.getElem?_set_ne (Ne.symm hvw), hv]⟩
  case returned =>
    intro z hz hpc
    rcases List.mem_or_eq_of_mem_set hz with hz | rfl
    · exact Nat.le_succ_of_le (hs.returned z hz hpc)
    · cases hpc

/-- One operation of a job: the others keep apart from it. -/
theorem fine_exec (hJ : Apart J I Post) {s : St M O L E} {w i : Nat} {o : O} {rest : List O}
    {res : Except E Unit} {loc : L} (hs : Fine J I Post s)
    (hw : s.ws[w]? = some ⟨.busy i (o :: rest) res, loc⟩) :
    Fine J I Post { s with mem := J.exec s.mem o, ws := s.ws.set w ⟨.busy i rest res, loc⟩ } := by
  have hlen := (List.getElem?_eq_some_iff.mp hw).1
  obtain ⟨hi, hnext, hpost, l, hl, hsuf, hok⟩ := hs.busy w i (o :: rest) res loc hw
  have ho : o ∈ (J.job i l).1 := hsuf.mem List.mem_cons_self
  have hold : ∀ {v j us res' loc'}, (s.ws.set w ⟨.busy i rest res, loc⟩)[v]? =
      some ⟨.busy j us res', loc'⟩ →
      v = w ∧ j = i ∧ us = rest ∨ v ≠ w ∧ j ≠ i ∧ s.ws[v]? = some ⟨.busy j us res', loc'⟩ := by
    intro v j us res' loc' h
    by_cases hv : v = w
    · subst hv
      rw [List.getElem?_set_self hlen] at h
      cases h
      exact Or.inl ⟨rfl, rfl, rfl⟩
    · rw [List.getElem?_set_ne (Ne.symm hv)] at h
      refine Or.inr ⟨hv, ?_, h⟩
      rintro rfl
      exact hv (hs.once j v w ⟨_, _, _, h⟩ ⟨_, _, _, hw⟩)
  have hheld : ∀ v j, HeldBy s j v →
      HeldBy { s with mem := J.exec s.mem o, ws := s.ws.set w ⟨.busy i rest res, loc⟩ } j v := by
    rintro v j ⟨us, res', loc', hv⟩
    by_cases hvw : v = w
    · subst hvw
      rw [hw] at hv
      cases hv
      exact ⟨_, _, _, List.getElem?_set_self hlen⟩
    · exact ⟨us, res', loc', by
        show (s.ws.set w _)[v]? = _
        rw [List.getElem?_set_ne (Ne.symm hvw), hv]⟩
  constructor
  case stop => exact hs.stop
  case loc =>
    intro z hz
    rcases List.mem_or_eq_of_mem_set hz with hz | rfl
    · exact hs.loc z hz
    · exact hs.loc ⟨.busy i (o :: rest) res, loc⟩ (List.mem_of_getElem? hw)
  case busy =>
    intro v j us res' loc' h
    rcases hold h with ⟨_, rfl, rfl⟩ | ⟨_, hji, h⟩
    · exact ⟨hi, hnext, hpost, l, hl, (List.suffix_cons o us).trans hsuf, hok⟩
    · obtain ⟨h1, h2, h3, lj, hlj, hsj, hokj⟩ := hs.busy v j us res' loc' h
      exact ⟨h1, h2, hJ.apart j h1 i hi hji lj l hlj hl hokj hok us hsj o ho _ h3, lj, hlj, hsj, hokj⟩
  case once =>
    rintro j v v' ⟨us, res1, loc1, h⟩ ⟨us', res2, loc2, h'⟩
    rcases hold h with ⟨hv, hj, _⟩ | ⟨hv, hj, h⟩ <;>
      rcases hold h' with ⟨hv', hj', _⟩ | ⟨hv', hj', h'⟩
    · rw [hv, hv']
    · exact absurd hj hj'
    · exact absurd hj' hj
    · exact hs.once j v v' ⟨_, _, _, h⟩ ⟨_, _, _, h'⟩
  case finished =>
    intro j hj hlt hfree
    obtain ⟨hp, lj, hlj, hokj⟩ := hs.finished j hj hlt fun v hv => hfree v (hheld v j hv)
    have hji : j ≠ i := by
      rintro rfl
      exact hfree w (hheld w j ⟨_, _, _, hw⟩)
    exact ⟨hJ.apart j hj i hi hji lj l hlj hl hokj hok [] (List.nil_suffix) o ho _ hp, lj, hlj, hokj⟩
  case returned =>
    intro z hz hpc
    rcases List.mem_or_eq_of_mem_set hz with hz | rfl
    · exact hs.returned z hz hpc
    · cases hpc

/-- A step keeps the workers fine, or is the claim of a job that fails. -/
theorem step_fine (hJ : Apart J I Post) {s t : St M O L E} {w : Nat} (h : step J s w = some t)
    (hs : Fine J I Post s) : Doomed t ∨ Fine J I Post t := by
  obtain ⟨pc, loc, hw, hcases⟩ := step_cases h
  have hself : ∀ y : Worker O L E, y ∈ s.ws.set w y := fun y =>
    List.mem_iff_getElem?.mpr ⟨w, List.getElem?_set_self (List.getElem?_eq_some_iff.mp hw).1⟩
  have hI : I loc := hs.loc _ (List.mem_of_getElem? hw)
  rcases hcases with ⟨rfl, rfl⟩ | ⟨rfl, hn, rfl⟩ | ⟨rfl, hn, rfl⟩ | ⟨i, o, rest, res, rfl, rfl⟩ |
    ⟨i, rfl, rfl⟩ | ⟨i, e, rfl, rfl⟩ | ⟨e, rfl, rfl⟩
  · have hgo : (if s.stop then Pc.done else Pc.claim : Pc O E) = .claim := by rw [hs.stop]; rfl
    rw [hgo]
    exact Or.inr (fine_idle hs hw (fun _ _ _ hc => by cases hc) (fun _ _ _ hc => by cases hc) hI
      ⟨Nat.le_refl _, fun hc => absurd hc (Nat.lt_irrefl _)⟩ fun hc => by cases hc)
  · by_cases hok : (J.job s.next loc).2.1 = .ok ()
    · exact Or.inr (fine_claim hJ hs hw hn hok)
    · exact Or.inl (Or.inr ⟨_, hself _, hok⟩)
  · exact Or.inr (fine_idle hs hw (fun _ _ _ hc => by cases hc) (fun _ _ _ hc => by cases hc) hI
      ⟨Nat.le_succ _, fun _ => hn⟩ fun _ => Nat.le_succ_of_le hn)
  · exact Or.inr (fine_exec hJ hs hw)
  · exact Or.inr (fine_idle hs hw (fun _ _ _ hc => by cases hc; rfl) (fun _ _ _ hc => by cases hc) hI
      ⟨Nat.le_refl _, fun hc => absurd hc (Nat.lt_irrefl _)⟩ fun hc => by cases hc)
  · exact Or.inl (Or.inr ⟨_, hself _, trivial⟩)
  · exact Or.inl (Or.inl (by simp))

theorem reachable_fine (hJ : Apart J I Post) {k : Nat} {l : L} {m : M} {s : St M O L E} (hl : I l)
    (h : Reachable (system J k l m) s) : Doomed s ∨ Fine J I Post s := by
  induction h with
  | start h0 => exact Or.inr (h0 ▸ start_fine hl)
  | next _ _ hst ih =>
    rcases ih with hd | hf
    · exact Or.inl (step_doomed hst hd)
    · exact step_fine hJ hst hf

theorem length_workers {k : Nat} {l : L} {m : M} {s : St M O L E}
    (h : Reachable (system J k l m) s) : s.ws.length = k := by
  induction h with
  | start h0 =>
    rw [h0]
    exact List.length_replicate
  | next _ _ hst ih =>
    obtain ⟨_, _, _, hcases⟩ := step_cases hst
    rcases hcases with ⟨_, rfl⟩ | ⟨_, _, rfl⟩ | ⟨_, _, rfl⟩ | ⟨_, _, _, _, _, rfl⟩ | ⟨_, _, rfl⟩ |
      ⟨_, _, _, rfl⟩ | ⟨_, _, rfl⟩ <;> exact (List.length_set).trans ih

/-- When every worker has returned and none has reported an error, every job has made its
`Post`, in whatever order they were claimed and finished. -/
theorem finishes_post (hJ : Apart J I Post) {k : Nat} (hk : 0 < k) {l : L} (hl : I l) {m : M}
    {s : St M O L E} (h : Finishes J k l m s) (herr : s.err = none) : ∀ i < J.n, Post i s.mem := by
  obtain ⟨hreach, hover⟩ := h
  have hidle : ∀ w i, ¬HeldBy s i w := by
    rintro w i ⟨rest, res, loc, hw⟩
    cases hover _ (List.mem_of_getElem? hw)
  rcases reachable_fine hJ hl hreach with (hd | ⟨x, hx, hbad⟩) | hf
  · exact absurd herr hd
  · rw [hover x hx] at hbad
    exact hbad.elim
  · have hlen := length_workers hreach
    obtain ⟨x, hx⟩ : ∃ x, x ∈ s.ws := List.exists_mem_of_length_pos (by omega)
    have hall := hf.returned x hx (hover x hx)
    exact fun i hi => (hf.finished i hi (by omega) fun w => hidle w i).1

/-- When every worker has returned and none has reported an error, every job was run without
one. -/
theorem finishes_each
    (hkeeps : ∀ i < J.n, ∀ l, I l → (J.job i l).2.1 = .ok () → I (J.job i l).2.2) {k : Nat}
    (hk : 0 < k) {l : L} (hl : I l) {m : M} {s : St M O L E} (h : Finishes J k l m s)
    (herr : s.err = none) : ∀ i < J.n, ∃ l, I l ∧ (J.job i l).2.1 = .ok () := by
  have hJ : Apart J I fun i _ => ∃ l, I l ∧ (J.job i l).2.1 = .ok () :=
    ⟨hkeeps, fun _ _ l hl hok _ => ⟨l, hl, hok⟩, fun _ _ _ _ _ _ _ _ _ _ _ _ _ _ _ _ hpost => hpost⟩
  exact finishes_post hJ hk hl h herr

/-- Jobs that do not fail report no error. -/
theorem finishes_ok (hok : ∀ i < J.n, ∀ l, I l → (J.job i l).2.1 = .ok () ∧ I (J.job i l).2.2)
    {k : Nat} {l : L} (hl : I l) {m : M} {s : St M O L E} (h : Finishes J k l m s) :
    s.err = none := by
  have hinv : s.err = none ∧ ∀ x ∈ s.ws, I x.loc ∧ ¬x.pc.Bad := by
    refine Reach.invariant (I := fun s => s.err = none ∧ ∀ x ∈ s.ws, I x.loc ∧ ¬x.pc.Bad) h.1 ?_ ?_
    · intro s h0
      rw [h0]
      refine ⟨rfl, fun x hx => ?_⟩
      rw [List.eq_of_mem_replicate hx]
      exact ⟨hl, id⟩
    · rintro s w t _ ⟨herr, hws⟩ _ hst
      obtain ⟨pc, loc, hw, hcases⟩ := step_cases hst
      obtain ⟨hI, hbad⟩ := hws _ (List.mem_of_getElem? hw)
      have hset := fun {y : Worker O L E} hy => forall_mem_set (w := w) (y := y) hws hy
      rcases hcases with ⟨rfl, rfl⟩ | ⟨rfl, hn, rfl⟩ | ⟨rfl, hn, rfl⟩ |
        ⟨i, o, rest, res, rfl, rfl⟩ | ⟨i, rfl, rfl⟩ | ⟨i, e, rfl, rfl⟩ | ⟨e, rfl, rfl⟩
      · exact ⟨herr, hset ⟨hI, by cases s.stop <;> exact id⟩⟩
      · obtain ⟨h1, h2⟩ := hok s.next hn loc hI
        exact ⟨herr, hset ⟨h2, not_not_intro h1⟩⟩
      · exact ⟨herr, hset ⟨hI, id⟩⟩
      · exact ⟨herr, hset ⟨hI, hbad⟩⟩
      · exact ⟨herr, hset ⟨hI, id⟩⟩
      · exact absurd (by intro hc; cases hc) hbad
      · exact absurd trivial hbad
  exact hinv.1

/-- What every operation keeps is kept, whether or not the jobs fail. -/
theorem finishes_keeps {P : M → Prop}
    (hops : ∀ i < J.n, ∀ l, ∀ o ∈ (J.job i l).1, ∀ m, P m → P (J.exec m o)) {k : Nat} {l : L} {m : M}
    (hm : P m) {s : St M O L E} (h : Finishes J k l m s) : P s.mem := by
  have hinv : P s.mem ∧ ∀ x ∈ s.ws, ∀ i rest res, x.pc = .busy i rest res →
      ∀ o ∈ rest, ∀ m, P m → P (J.exec m o) := by
    refine Reach.invariant (I := fun s => P s.mem ∧ ∀ x ∈ s.ws, ∀ i rest res,
      x.pc = .busy i rest res → ∀ o ∈ rest, ∀ m, P m → P (J.exec m o)) h.1 ?_ ?_
    · intro s h0
      rw [h0]
      refine ⟨hm, fun x hx i rest res hpc => ?_⟩
      rw [List.eq_of_mem_replicate hx] at hpc
      cases hpc
    · rintro s w t _ ⟨hmem, hws⟩ _ hst
      obtain ⟨pc, loc, hw, hcases⟩ := step_cases hst
      have hset := fun {y : Worker O L E} hy => forall_mem_set (w := w) (y := y) hws hy
      rcases hcases with ⟨rfl, rfl⟩ | ⟨rfl, hn, rfl⟩ | ⟨rfl, hn, rfl⟩ |
        ⟨i, o, rest, res, rfl, rfl⟩ | ⟨i, rfl, rfl⟩ | ⟨i, e, rfl, rfl⟩ | ⟨e, rfl, rfl⟩
      · refine ⟨hmem, hset fun i rest res hpc => ?_⟩
        dsimp only at hpc
        split at hpc <;> cases hpc
      · refine ⟨hmem, hset fun i rest res hpc => ?_⟩
        cases hpc
        exact hops _ hn loc
      · exact ⟨hmem, hset fun i rest res hpc => by cases hpc⟩
      · have hrest := hws _ (List.mem_of_getElem? hw) i _ res rfl
        refine ⟨hrest o List.mem_cons_self _ hmem, hset fun j us res' hpc => ?_⟩
        cases hpc
        exact fun o' ho' => hrest o' (List.mem_cons_of_mem o ho')
      · exact ⟨hmem, hset fun i rest res hpc => by cases hpc⟩
      · exact ⟨hmem, hset fun i rest res hpc => by cases hpc⟩
      · exact ⟨hmem, hset fun i rest res hpc => by cases hpc⟩
  exact hinv.1

/-- What every operation of a job that does not fail keeps is kept, when no error is reported. The
jobs start from what the ones before them leave to their worker. -/
theorem finishes_keeps_fine {P : M → Prop}
    (hkeeps : ∀ i < J.n, ∀ l, I l → (J.job i l).2.1 = .ok () → I (J.job i l).2.2)
    (hops : ∀ i < J.n, ∀ l, I l → (J.job i l).2.1 = .ok () → ∀ o ∈ (J.job i l).1, ∀ m, P m →
      P (J.exec m o)) {k : Nat} {l : L} (hl : I l) {m : M} (hm : P m) {s : St M O L E}
    (h : Finishes J k l m s) (herr : s.err = none) : P s.mem := by
  have hJ : Apart J I fun _ _ => True :=
    ⟨hkeeps, fun _ _ _ _ _ _ => trivial, fun _ _ _ _ _ _ _ _ _ _ _ _ _ _ _ _ _ => trivial⟩
  have hinv : Doomed s ∨ Fine J I (fun _ _ => True) s ∧ P s.mem := by
    refine Reach.invariant (I := fun s => Doomed s ∨ Fine J I (fun _ _ => True) s ∧ P s.mem) h.1 ?_ ?_
    · intro s h0
      rw [h0]
      exact Or.inr ⟨start_fine hl, hm⟩
    · rintro s w t _ (hd | ⟨hf, hP⟩) _ hst
      · exact Or.inl (step_doomed hst hd)
      · apply (step_fine hJ hst hf).imp_right
        intro hft
        refine ⟨hft, ?_⟩
        obtain ⟨pc, loc, hw, hcases⟩ := step_cases hst
        rcases hcases with ⟨rfl, rfl⟩ | ⟨rfl, hn, rfl⟩ | ⟨rfl, hn, rfl⟩ |
          ⟨i, o, rest, res, rfl, rfl⟩ | ⟨i, rfl, rfl⟩ | ⟨i, e, rfl, rfl⟩ | ⟨e, rfl, rfl⟩ <;>
          first | exact hP | skip
        obtain ⟨hi, _, _, l, hIl, hsuf, hok⟩ := hf.busy w i (o :: rest) res loc hw
        exact hops i hi l hIl hok o (hsuf.mem List.mem_cons_self) s.mem hP
  rcases hinv with (hd | ⟨x, hx, hbad⟩) | ⟨_, hP⟩
  · exact absurd herr hd
  · rw [h.2 x hx] at hbad
    exact hbad.elim
  · exact hP

/-- A run that reports no error is a run of all jobs that do the same wherever these do not
fail. -/
theorem finishes_agree {J' : Jobs M O L E} (hn : J'.n = J.n) (hexec : J'.exec = J.exec)
    (hjob : ∀ i l, J'.job i l = J.job i l ∨ (J.job i l).2.1 ≠ .ok ()) {k : Nat} {l : L} {m : M}
    {s : St M O L E} (h : Finishes J k l m s) (herr : s.err = none) : Finishes J' k l m s := by
  have hsame : Reachable (system J' k l m) s ∨ Doomed s := by
    refine Reach.invariant (I := fun s => Reachable (system J' k l m) s ∨ Doomed s) h.1 ?_ ?_
    · exact fun s h0 => Or.inl (.start h0)
    · rintro s w t _ hs _ hst
      rcases hs with hs | hd
      · by_cases hdoom : Doomed t
        · exact Or.inr hdoom
        left
        suffices hstep : step J' s w = step J s w from .next hs trivial (hstep.trans hst)
        obtain ⟨pc, loc, hw, hcases⟩ := step_cases hst
        have hself : ∀ y : Worker O L E, y ∈ s.ws.set w y := fun y => List.mem_iff_getElem?.mpr
          ⟨w, List.getElem?_set_self (List.getElem?_eq_some_iff.mp hw).1⟩
        unfold step
        rw [hw, hn, hexec]
        cases pc with
        | claim =>
          -- A job that fails dooms the run, and the other ones are the same.
          by_cases hlt : s.next < J.n
          · rcases hjob s.next loc with hsame | hbad
            · simp only [hlt, hsame]
            · rcases hcases with ⟨hpc, _⟩ | ⟨_, _, rfl⟩ | ⟨_, hle, _⟩ | ⟨_, _, _, _, hpc, _⟩ |
                ⟨_, hpc, _⟩ | ⟨_, _, hpc, _⟩ | ⟨_, hpc, _⟩
              · cases hpc
              · exact absurd (Or.inr ⟨_, hself _, hbad⟩) hdoom
              · omega
              · cases hpc
              · cases hpc
              · cases hpc
              · cases hpc
          · simp only [hlt, if_false]
        | top => rfl
        | busy i rest res =>
          rcases rest with _ | ⟨o, rest⟩
          · rcases res with e | _ <;> rfl
          · rfl
        | failed e => rfl
        | done => rfl
      · exact Or.inr (step_doomed hst hd)
  refine ⟨hsame.resolve_right ?_, h.2⟩
  rintro (hd | ⟨x, hx, hbad⟩)
  · exact hd herr
  · rw [h.2 x hx] at hbad
    exact hbad

end

/-! ## One worker alone -/

/-- The jobs in order, as long as none of them fails. -/
def alone (J : Jobs M O L E) : List Nat → L → M → Option M
  | [], _, m => some m
  | i :: is, l, m =>
    match (J.job i l).2.1 with
    | .ok () => alone J is (J.job i l).2.2 (runs J m (J.job i l).1)
    | .error _ => none

/-- The operations of a job, one step each. -/
theorem reachable_ops {J : Jobs M O L E} {k : Nat} {l0 l : L} {m0 m : M} {next i : Nat} {os : List O}
    {res : Except E Unit}
    (h : Reachable (system J k l0 m0) ⟨m, next, false, none, [⟨.busy i os res, l⟩]⟩) :
    Reachable (system J k l0 m0) ⟨runs J m os, next, false, none, [⟨.busy i [] res, l⟩]⟩ := by
  induction os generalizing m with
  | nil => exact h
  | cons o os ih => exact ih (.next (a := 0) h trivial rfl)

theorem alone_from {J : Jobs M O L E} {l0 : L} {m0 m' : M} {k i : Nat} {l : L} {m : M}
    (hk : i + k = J.n) (hs : Reachable (system J 1 l0 m0) ⟨m, i, false, none, [⟨.top, l⟩]⟩)
    (h : alone J (List.range' i k) l m = some m') :
    ∃ s, Finishes J 1 l0 m0 s ∧ s.err = none ∧ s.mem = m' := by
  have hclaim : Reachable (system J 1 l0 m0) ⟨m, i, false, none, [⟨.claim, l⟩]⟩ :=
    .next (a := 0) hs trivial rfl
  induction k generalizing i l m with
  | zero =>
    have hend : Reachable (system J 1 l0 m0) ⟨m, i + 1, false, none, [⟨.done, l⟩]⟩ :=
      .next (a := 0) hclaim trivial (by simp [system, step, show ¬i < J.n by omega])
    refine ⟨_, ⟨hend, by simp [Over]⟩, rfl, ?_⟩
    simpa [alone] using h
  | succ k ih =>
    rw [List.range'_succ, alone] at h
    split at h
    · rename_i hok
      have hbusy : Reachable (system J 1 l0 m0)
          ⟨m, i + 1, false, none, [⟨.busy i (J.job i l).1 (.ok ()), (J.job i l).2.2⟩]⟩ :=
        .next (a := 0) hclaim trivial (by simp [system, step, show i < J.n by omega, hok])
      have htop : Reachable (system J 1 l0 m0)
          ⟨runs J m (J.job i l).1, i + 1, false, none, [⟨.top, (J.job i l).2.2⟩]⟩ :=
        .next (a := 0) (reachable_ops hbusy) trivial rfl
      exact ih (by omega) htop h (.next (a := 0) htop trivial rfl)
    · cases h

/-- One worker alone comes to the end of the jobs. -/
theorem finishes_alone {J : Jobs M O L E} {l : L} {m m' : M}
    (h : alone J (List.range J.n) l m = some m') :
    ∃ s, Finishes J 1 l m s ∧ s.err = none ∧ s.mem = m' := by
  rw [List.range_eq_range'] at h
  exact alone_from (Nat.zero_add _) (.start rfl) h

end lib.jobs
