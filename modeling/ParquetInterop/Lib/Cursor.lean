-- Threads that claim jobs from one counter, where a job may give a value, fail,
-- or panic: what is known when every thread is over, under any schedule.
import Mathlib.Algebra.Ring.Nat
import Mathlib.Algebra.Ring.Int.Defs
import Mathlib.Algebra.BigOperators.Group.List.Basic
import ParquetInterop.Lib.Runs
import ParquetInterop.Lib.Parking
import ParquetInterop.Lib.Jobs

open lib.runs lib.parking

namespace lib.cursor

/-- `n` jobs. What a job gives depends on the data of the thread that runs it, which it may
change. Any call of a job may panic instead. -/
structure Work (L V E : Type) where
  n : Nat
  job : Nat → L → Except E V × L

/-- Where a thread stands. It has begun or not; in its loop it looks at the stop flag, claims, is
inside of a job, or is about to store an error. -/
inductive Pc (V E : Type) where
  | entry
  | top
  | claim
  | busy (i : Nat) (res : Except E V)
  | failed (e : E)
  | done
  | panicked

structure Thread (L V E : Type) where
  pc : Pc V E
  loc : L

/-- The calling thread is the first of `ts`. `out` has a slot for each job. `ended`, `threw` and
`refused` are a record: the calls that came back, the calls that panicked, and whether a thread
could not be spawned. -/
structure St (L V E : Type) where
  next : Nat
  stop : Bool
  err : Option E
  out : Nat → Option V
  ts : List (Thread L V E)
  ended : List (Nat × Except E V)
  threw : List Nat
  refused : Bool

variable {L V E : Type}

/-- The calling thread and `k` more, with nothing claimed. -/
def start (k : Nat) (l : L) : St L V E where
  next := 0
  stop := false
  err := none
  out _ := none
  ts := List.replicate (k + 1) ⟨.entry, l⟩
  ended := []
  threw := []
  refused := false

/-- `refuse j`: thread `j` cannot be spawned, and the calling thread panics over it. -/
inductive Act where
  | go (w : Nat)
  | panic (w : Nat)
  | refuse (j : Nat)
  deriving DecidableEq

def St.put (s : St L V E) (w : Nat) (t : Thread L V E) : St L V E := { s with ts := s.ts.set w t }

/-- The next step of a thread. -/
def goStep (J : Work L V E) (s : St L V E) (w : Nat) : Option (St L V E) :=
  match s.ts[w]? with
  | none => none
  | some ⟨pc, loc⟩ =>
    match pc with
    | .entry => some (s.put w ⟨.top, loc⟩)
    | .top => some (s.put w ⟨if s.stop then .done else .claim, loc⟩)
    | .claim =>
      if s.next < J.n then
        let r := J.job s.next loc
        some { s.put w ⟨.busy s.next r.1, r.2⟩ with next := s.next + 1 }
      else some { s.put w ⟨.done, loc⟩ with next := s.next + 1 }
    | .busy i (.ok v) =>
      some { s.put w ⟨.top, loc⟩ with
        out := fun j => if j = i then some v else s.out j, ended := (i, .ok v) :: s.ended }
    | .busy i (.error e) =>
      some { s.put w ⟨.failed e, loc⟩ with stop := true, ended := (i, .error e) :: s.ended }
    | .failed e => some { s.put w ⟨.done, loc⟩ with err := s.err.or (some e) }
    | .done => none
    | .panicked => none

/-- A call of a job panics, and unwinds its thread. -/
def panicStep (s : St L V E) (w : Nat) : Option (St L V E) :=
  match s.ts[w]? with
  | some ⟨.busy i _, loc⟩ => some { s.put w ⟨.panicked, loc⟩ with threw := i :: s.threw }
  | _ => none

/-- A thread that has not been spawned never runs. -/
def Thread.cancel (t : Thread L V E) : Thread L V E :=
  match t.pc with
  | .entry => { t with pc := .done }
  | _ => t

/-- The spawn of thread `j` fails: the calling thread, which has not begun its own share, panics,
and the threads from `j` on are never there. -/
def refuseStep (s : St L V E) (j : Nat) : Option (St L V E) :=
  match s.ts with
  | ⟨.entry, loc⟩ :: ts =>
    some { s with
      ts := ⟨.panicked, loc⟩ :: (ts.take j ++ (ts.drop j).map Thread.cancel), refused := true }
  | _ => none

def step (J : Work L V E) (s : St L V E) : Act → Option (St L V E)
  | .go w => goStep J s w
  | .panic w => panicStep s w
  | .refuse j => refuseStep s j

/-- `k` threads beside the calling one, whose data is `l` at first. -/
def system (J : Work L V E) (k : Nat) (l : L) : System (St L V E) Act where
  init s := s = start k l
  step := step J

def Pc.isOver : Pc V E → Bool
  | .done | .panicked => true
  | _ => false

/-- Every thread has returned or unwound. -/
def Over (s : St L V E) : Prop := ∀ t ∈ s.ts, t.pc.isOver = true

/-- The calling thread unwound. -/
def St.unwound (s : St L V E) : Prop := ∃ t, s.ts[0]? = some t ∧ t.pc = .panicked

/-- One of the other threads panicked. -/
def St.workerPanicked (s : St L V E) : Prop := ∃ w t, s.ts[w + 1]? = some t ∧ t.pc = .panicked

/-! ## What a step can do -/

/-- Every way a step can change the state, with what it has checked. -/
inductive Moved (J : Work L V E) (s : St L V E) : St L V E → Prop
  | enter {w : Nat} {l : L} : s.ts[w]? = some ⟨.entry, l⟩ → Moved J s (s.put w ⟨.top, l⟩)
  | look {w : Nat} {l : L} : s.ts[w]? = some ⟨.top, l⟩ → s.stop = false →
      Moved J s (s.put w ⟨.claim, l⟩)
  | stopped {w : Nat} {l : L} : s.ts[w]? = some ⟨.top, l⟩ → s.stop = true →
      Moved J s (s.put w ⟨.done, l⟩)
  | claim {w : Nat} {l : L} : s.ts[w]? = some ⟨.claim, l⟩ → s.next < J.n →
      Moved J s { s.put w ⟨.busy s.next (J.job s.next l).1, (J.job s.next l).2⟩ with
        next := s.next + 1 }
  | drained {w : Nat} {l : L} : s.ts[w]? = some ⟨.claim, l⟩ → J.n ≤ s.next →
      Moved J s { s.put w ⟨.done, l⟩ with next := s.next + 1 }
  | gave {w i : Nat} {v : V} {l : L} : s.ts[w]? = some ⟨.busy i (.ok v), l⟩ →
      Moved J s { s.put w ⟨.top, l⟩ with
        out := fun j => if j = i then some v else s.out j, ended := (i, .ok v) :: s.ended }
  | failed {w i : Nat} {e : E} {l : L} : s.ts[w]? = some ⟨.busy i (.error e), l⟩ →
      Moved J s { s.put w ⟨.failed e, l⟩ with stop := true, ended := (i, .error e) :: s.ended }
  | report {w : Nat} {e : E} {l : L} : s.ts[w]? = some ⟨.failed e, l⟩ →
      Moved J s { s.put w ⟨.done, l⟩ with err := s.err.or (some e) }
  | panic {w i : Nat} {res : Except E V} {l : L} : s.ts[w]? = some ⟨.busy i res, l⟩ →
      Moved J s { s.put w ⟨.panicked, l⟩ with threw := i :: s.threw }
  | refuse {j : Nat} {l : L} {ts : List (Thread L V E)} : s.ts = ⟨.entry, l⟩ :: ts →
      Moved J s { s with
        ts := ⟨.panicked, l⟩ :: (ts.take j ++ (ts.drop j).map Thread.cancel), refused := true }

theorem goStep_moved {J : Work L V E} {s t : St L V E} {w : Nat} (h : goStep J s w = some t) :
    Moved J s t := by
  unfold goStep at h
  split at h
  · cases h
  rename_i pc loc hw
  split at h
  · cases h
    exact .enter hw
  · cases h
    cases hs : s.stop with
    | false => exact .look hw hs
    | true => exact .stopped hw hs
  · split at h
    · rename_i hn
      cases h
      exact .claim hw hn
    · rename_i hn
      cases h
      exact .drained hw (Nat.not_lt.mp hn)
  · cases h
    exact .gave hw
  · cases h
    exact .failed hw
  · cases h
    exact .report hw
  · cases h
  · cases h

theorem step_moved {J : Work L V E} {s t : St L V E} {a : Act} (h : step J s a = some t) :
    Moved J s t := by
  cases a with
  | go w => exact goStep_moved h
  | panic w =>
    simp only [step, panicStep] at h
    split at h
    · rename_i hw
      cases h
      exact .panic hw
    · cases h
  | refuse j =>
    simp only [step, refuseStep] at h
    split at h
    · rename_i hts
      cases h
      exact .refuse hts
    · cases h

/-! ## Each job is called once -/

def Pc.holds (i : Nat) : Pc V E → Nat
  | .busy j _ => if j = i then 1 else 0
  | _ => 0

/-- The threads that are in job `i`. -/
def held (ts : List (Thread L V E)) (i : Nat) : Nat := (ts.map (·.pc.holds i)).sum

def came (ended : List (Nat × Except E V)) (i : Nat) : Nat := (ended.map (·.1)).count i

/-- How often job `i` has been called: the calls that came back, those that panicked, and those
that a thread is in. -/
def St.calls (s : St L V E) (i : Nat) : Nat := came s.ended i + s.threw.count i + held s.ts i

/-- A job is called once it is claimed, and never again. -/
def Once (J : Work L V E) (s : St L V E) : Prop :=
  ∀ i, s.calls i = if i < J.n ∧ i < s.next then 1 else 0

theorem start_once (J : Work L V E) (k : Nat) (l : L) : Once J (start k l) := by
  intro i
  simp [St.calls, start, came, held, Pc.holds]

theorem came_cons (i j : Nat) (res : Except E V) (ended : List (Nat × Except E V)) :
    came ((j, res) :: ended) i = came ended i + if j = i then 1 else 0 := by
  simp [came, List.count_cons]

/-- A thread that moves takes a call on, or hands it over. -/
theorem held_put {ts : List (Thread L V E)} {w : Nat} {x : Thread L V E} (hx : ts[w]? = some x)
    (y : Thread L V E) (i : Nat) :
    held (ts.set w y) i + x.pc.holds i = held ts i + y.pc.holds i :=
  total_set (fun t : Thread L V E => t.pc.holds i) y hx

/-- A thread that moves outside of the jobs. -/
theorem once_aside {J : Work L V E} {s : St L V E} (h : Once J s) {w : Nat} {x y : Thread L V E}
    (hx : s.ts[w]? = some x) (hxy : ∀ i, x.pc.holds i = y.pc.holds i) (next : Nat)
    (hnext : ∀ i < J.n, i < next ↔ i < s.next) (err : Option E) :
    Once J { s.put w y with next, err } := by
  intro i
  have hput := held_put hx y i
  have hiff : (i < J.n ∧ i < next) ↔ (i < J.n ∧ i < s.next) := and_congr_right (hnext i)
  have hold : came s.ended i + s.threw.count i + held s.ts i = _ := h i
  have hsame := hxy i
  show came s.ended i + s.threw.count i + held (s.ts.set w y) i = if i < J.n ∧ i < next then 1 else 0
  simp only [hiff]
  omega

theorem held_cancel (ts : List (Thread L V E)) (i : Nat) : held (ts.map Thread.cancel) i = held ts i := by
  unfold held
  rw [List.map_map]
  congr 1
  apply List.map_congr_left
  rintro ⟨pc, loc⟩ _
  cases pc <;> rfl

theorem held_append (ts us : List (Thread L V E)) (i : Nat) : held (ts ++ us) i = held ts i + held us i := by
  simp [held]

theorem moved_once {J : Work L V E} {s t : St L V E} (h : Once J s) (hm : Moved J s t) :
    Once J t := by
  have hold : ∀ i, came s.ended i + s.threw.count i + held s.ts i =
      if i < J.n ∧ i < s.next then 1 else 0 := h
  cases hm with
  | @enter w l hw =>
    exact once_aside (y := ⟨.top, l⟩) h hw (fun _ => rfl) s.next (fun _ _ => Iff.rfl) s.err
  | @look w l hw _ =>
    exact once_aside (y := ⟨.claim, l⟩) h hw (fun _ => rfl) s.next (fun _ _ => Iff.rfl) s.err
  | @stopped w l hw _ =>
    exact once_aside (y := ⟨.done, l⟩) h hw (fun _ => rfl) s.next (fun _ _ => Iff.rfl) s.err
  | @drained w l hw hn =>
    exact once_aside (y := ⟨.done, l⟩) h hw (fun _ => rfl) (s.next + 1) (fun i hi => by omega) s.err
  | @report w e l hw =>
    exact once_aside (y := ⟨.done, l⟩) h hw (fun _ => rfl) s.next (fun _ _ => Iff.rfl) (s.err.or (some e))
  | @claim w l hw hn =>
    intro i
    have hput := held_put hw ⟨.busy s.next (J.job s.next l).1, (J.job s.next l).2⟩ i
    simp only [Pc.holds] at hput
    show came s.ended i + s.threw.count i + held (s.ts.set w _) i = if i < J.n ∧ i < s.next + 1 then 1 else 0
    rw [Nat.add_zero] at hput
    rw [hput, ← Nat.add_assoc, hold i]
    by_cases hi : s.next = i
    · subst hi
      rw [if_neg (by omega), if_pos rfl, if_pos ⟨hn, Nat.lt_succ_self _⟩]
    · have hiff : (i < J.n ∧ i < s.next + 1) ↔ (i < J.n ∧ i < s.next) := by omega
      rw [if_neg hi, Nat.add_zero]
      simp only [hiff]
  | @gave w j v l hw =>
    intro i
    have hput := held_put hw ⟨.top, l⟩ i
    have hcame := came_cons i j (.ok v : Except E V) s.ended
    simp only [Pc.holds] at hput
    refine Eq.trans ?_ (hold i)
    show came ((j, .ok v) :: s.ended) i + s.threw.count i + held (s.ts.set w _) i = _
    omega
  | @failed w j e l hw =>
    intro i
    have hput := held_put hw ⟨.failed e, l⟩ i
    have hcame := came_cons i j (.error e : Except E V) s.ended
    simp only [Pc.holds] at hput
    refine Eq.trans ?_ (hold i)
    show came ((j, .error e) :: s.ended) i + s.threw.count i + held (s.ts.set w _) i = _
    omega
  | @panic w j res l hw =>
    intro i
    have hput := held_put hw ⟨.panicked, l⟩ i
    have hcount : (j :: s.threw).count i = s.threw.count i + if j = i then 1 else 0 := by
      simp [List.count_cons]
    simp only [Pc.holds] at hput
    refine Eq.trans ?_ (hold i)
    show came s.ended i + (j :: s.threw).count i + held (s.ts.set w _) i = _
    omega
  | @refuse j l ts hts =>
    intro i
    have hold := h i
    unfold St.calls at hold ⊢
    rw [hts] at hold
    have hhead : ∀ pc : Pc V E, pc.holds i = 0 → ∀ us, held (⟨pc, l⟩ :: us) i = held us i := by
      intro pc hpc us
      simp [held, hpc]
    rw [hhead _ rfl] at hold
    dsimp only
    rw [hhead _ rfl, held_append, held_cancel, ← held_append, List.take_append_drop]
    exact hold

/-! ## What the calls left behind -/

structure Told (J : Work L V E) (s : St L V E) : Prop where
  real : ∀ t ∈ s.ts, ∀ i res, t.pc = .busy i res → ∃ l, (J.job i l).1 = res
  ended : ∀ i res, (i, res) ∈ s.ended → ∃ l, (J.job i l).1 = res
  slot : ∀ i v, s.out i = some v ↔ (i, .ok v) ∈ s.ended
  err : ∀ e, s.err = some e → ∃ i, (i, .error e) ∈ s.ended
  failed : ∀ t ∈ s.ts, ∀ e, t.pc = .failed e → ∃ i, (i, .error e) ∈ s.ended
  kept : ∀ i e, (i, .error e) ∈ s.ended → s.err ≠ none ∨ ∃ t ∈ s.ts, ∃ e, t.pc = .failed e
  stopped : s.stop = true ↔ ∃ i e, (i, .error e) ∈ s.ended
  threw : s.threw ≠ [] → ∃ t ∈ s.ts, t.pc = .panicked
  panicked : ∀ t ∈ s.ts, t.pc = .panicked → s.threw ≠ [] ∨ s.refused = true
  refused : s.refused = true → s.unwound
  done : ∀ t ∈ s.ts, t.pc = .done → J.n ≤ s.next ∨ s.stop = true ∨ s.refused = true

theorem start_told (J : Work L V E) (k : Nat) (l : L) : Told J (start k l) := by
  have hts : ∀ t ∈ (start k l : St L V E).ts, t.pc = .entry :=
    fun t ht => by rw [List.eq_of_mem_replicate ht]
  constructor
  case real =>
    intro t ht i res hpc
    rw [hts t ht] at hpc
    cases hpc
  case ended => exact fun i res h => absurd h List.not_mem_nil
  case slot => exact fun i v => ⟨nofun, fun h => absurd h List.not_mem_nil⟩
  case err => exact nofun
  case failed =>
    intro t ht e hpc
    rw [hts t ht] at hpc
    cases hpc
  case kept => exact fun i e h => absurd h List.not_mem_nil
  case stopped => exact ⟨nofun, fun ⟨_, _, h⟩ => absurd h List.not_mem_nil⟩
  case threw => exact fun h => absurd rfl h
  case panicked =>
    intro t ht hpc
    rw [hts t ht] at hpc
    cases hpc
  case refused => exact nofun
  case done =>
    intro t ht hpc
    rw [hts t ht] at hpc
    cases hpc

/-- A thread that stands somewhere still does when another one moves. -/
theorem exists_set {ts : List (Thread L V E)} {w : Nat} {x : Thread L V E} (hx : ts[w]? = some x)
    (y : Thread L V E) {P : Pc V E → Prop} (hP : ¬P x.pc) (h : ∃ t ∈ ts, P t.pc) :
    ∃ t ∈ ts.set w y, P t.pc := by
  obtain ⟨t, ht, hpt⟩ := h
  obtain ⟨v, hv⟩ := List.mem_iff_getElem?.mp ht
  have hvw : v ≠ w := by
    rintro rfl
    cases hx.symm.trans hv
    exact hP hpt
  exact ⟨t, lib.jobs.mem_set_of_ne hv hvw, hpt⟩

theorem unwound_put {s : St L V E} {w : Nat} {x : Thread L V E} (hx : s.ts[w]? = some x)
    (y : Thread L V E) (hpc : x.pc ≠ .panicked) (h : s.unwound) : (s.put w y).unwound := by
  obtain ⟨t, ht, hp⟩ := h
  have hw : w ≠ 0 := by
    rintro rfl
    cases hx.symm.trans ht
    exact hpc hp
  exact ⟨t, (List.getElem?_set_ne hw).trans ht, hp⟩

/-- A thread moves, and nothing comes back. -/
theorem told_aside {J : Work L V E} {s : St L V E} (h : Told J s) {w : Nat} {x y : Thread L V E}
    (hx : s.ts[w]? = some x) (hxf : ∀ e, x.pc ≠ .failed e) (hxp : x.pc ≠ .panicked)
    (hbusy : ∀ i res, y.pc = .busy i res → ∃ l, (J.job i l).1 = res)
    (hyf : ∀ e, y.pc ≠ .failed e) (hyp : y.pc ≠ .panicked) {next : Nat} (hnext : s.next ≤ next)
    (hdone : y.pc = .done → J.n ≤ next ∨ s.stop = true ∨ s.refused = true) :
    Told J { s.put w y with next } where
  real := lib.jobs.forall_mem_set h.real hbusy
  ended := h.ended
  slot := h.slot
  err := h.err
  failed := lib.jobs.forall_mem_set h.failed fun e hpc => absurd hpc (hyf e)
  kept i e hi := by
    refine (h.kept i e hi).imp_right fun hex => ?_
    exact exists_set hx y (P := fun pc => ∃ e, pc = .failed e) (fun ⟨e, he⟩ => hxf e he) hex
  stopped := h.stopped
  threw ht := exists_set hx y (P := fun pc => pc = .panicked) hxp (h.threw ht)
  panicked := lib.jobs.forall_mem_set h.panicked fun hpc => absurd hpc hyp
  refused hr := unwound_put hx y hxp (h.refused hr)
  done := lib.jobs.forall_mem_set
    (fun t ht hpc => (h.done t ht hpc).imp_left fun hn => Nat.le_trans hn hnext) hdone

/-- The call that a thread is in has not come back yet. -/
theorem busy_unended {J : Work L V E} {s : St L V E} (h : Once J s) {w i : Nat} {res : Except E V}
    {l : L} (hw : s.ts[w]? = some ⟨.busy i res, l⟩) (res' : Except E V) : (i, res') ∉ s.ended := by
  intro hmem
  have hheld : 0 < held s.ts i := by
    have hput := held_put hw ⟨.top, l⟩ i
    simp only [Pc.holds, if_true] at hput
    omega
  have hcame : 0 < came s.ended i :=
    List.count_pos_iff.mpr (List.mem_map_of_mem (f := Prod.fst) hmem)
  have honce : came s.ended i + s.threw.count i + held s.ts i = _ := h i
  split at honce <;> omega

theorem moved_told {J : Work L V E} {s t : St L V E} (honce : Once J s) (h : Told J s)
    (hm : Moved J s t) : Told J t := by
  cases hm with
  | @enter w l hw =>
    exact told_aside (y := ⟨.top, l⟩) h hw nofun nofun nofun nofun nofun (Nat.le_refl s.next) nofun
  | @look w l hw _ =>
    exact told_aside (y := ⟨.claim, l⟩) h hw nofun nofun nofun nofun nofun (Nat.le_refl s.next) nofun
  | @stopped w l hw hs =>
    exact told_aside (y := ⟨.done, l⟩) h hw nofun nofun nofun nofun nofun (Nat.le_refl s.next)
      fun _ => .inr (.inl hs)
  | @claim w l hw hn =>
    refine told_aside (y := ⟨.busy s.next (J.job s.next l).1, (J.job s.next l).2⟩) h hw nofun nofun
      (fun i res hpc => ?_) nofun nofun (Nat.le_succ s.next) nofun
    cases hpc
    exact ⟨l, rfl⟩
  | @drained w l hw hn =>
    exact told_aside (y := ⟨.done, l⟩) h hw nofun nofun nofun nofun nofun (Nat.le_succ s.next)
      fun _ => .inl (Nat.le_succ_of_le hn)
  | @gave w i v l hw =>
    have hold := told_aside (y := ⟨.top, l⟩) h hw nofun nofun nofun nofun nofun (Nat.le_refl s.next) nofun
    have hreal := h.real _ (List.mem_of_getElem? hw) i (.ok v) rfl
    refine { hold with
      ended := fun j res hj => ?_
      slot := fun j u => ?_
      err := fun e he => ?_
      failed := fun t ht e hpc => ?_
      kept := fun j e hj => ?_
      stopped := ?_ }
    · rcases List.mem_cons.mp hj with hj | hj
      · cases hj
        exact hreal
      · exact h.ended j res hj
    · show (if j = i then some v else s.out j) = some u ↔ (j, .ok u) ∈ (i, .ok v) :: s.ended
      by_cases hji : j = i
      · subst hji
        have hno := busy_unended honce hw (.ok u)
        rw [if_pos rfl, List.mem_cons, or_iff_left hno]
        constructor
        · intro he
          cases he
          rfl
        · intro he
          cases he
          rfl
      · rw [if_neg hji, h.slot, List.mem_cons]
        refine ⟨.inr, fun hor => hor.resolve_left fun he => ?_⟩
        cases he
        exact hji rfl
    · obtain ⟨j, hj⟩ := h.err e he
      exact ⟨j, List.mem_cons_of_mem _ hj⟩
    · obtain ⟨j, hj⟩ := hold.failed t ht e hpc
      exact ⟨j, List.mem_cons_of_mem _ hj⟩
    · rcases List.mem_cons.mp hj with hj | hj
      · cases hj
      · exact hold.kept j e hj
    · refine h.stopped.trans ⟨fun ⟨j, e, hj⟩ => ⟨j, e, List.mem_cons_of_mem _ hj⟩, ?_⟩
      rintro ⟨j, e, hj⟩
      rcases List.mem_cons.mp hj with hj | hj
      · cases hj
      · exact ⟨j, e, hj⟩
  | @failed w i e l hw =>
    have hself : (⟨.failed e, l⟩ : Thread L V E) ∈ s.ts.set w ⟨.failed e, l⟩ :=
      List.mem_iff_getElem?.mpr ⟨w, List.getElem?_set_self (List.getElem?_eq_some_iff.mp hw).1⟩
    have hreal := h.real _ (List.mem_of_getElem? hw) i (.error e) rfl
    constructor
    case real => exact lib.jobs.forall_mem_set h.real nofun
    case ended =>
      intro j res hj
      rcases List.mem_cons.mp hj with hj | hj
      · cases hj
        exact hreal
      · exact h.ended j res hj
    case slot =>
      intro j v
      show s.out j = some v ↔ (j, .ok v) ∈ (i, .error e) :: s.ended
      rw [h.slot, List.mem_cons]
      refine ⟨.inr, fun hor => hor.resolve_left fun he => ?_⟩
      cases he
    case err =>
      intro e' he
      obtain ⟨j, hj⟩ := h.err e' he
      exact ⟨j, List.mem_cons_of_mem _ hj⟩
    case failed =>
      refine lib.jobs.forall_mem_set (fun t ht e' hpc => ?_) fun e' hpc => ?_
      · obtain ⟨j, hj⟩ := h.failed t ht e' hpc
        exact ⟨j, List.mem_cons_of_mem _ hj⟩
      · cases hpc
        exact ⟨i, List.mem_cons_self⟩
    case kept => exact fun _ _ _ => .inr ⟨_, hself, e, rfl⟩
    case stopped => exact ⟨fun _ => ⟨i, e, List.mem_cons_self⟩, fun _ => rfl⟩
    case threw => exact fun ht => exists_set hw _ (P := fun pc => pc = .panicked) nofun (h.threw ht)
    case panicked => exact lib.jobs.forall_mem_set h.panicked nofun
    case refused => exact fun hr => unwound_put hw _ nofun (h.refused hr)
    case done => exact lib.jobs.forall_mem_set (fun _ _ _ => .inr (.inl rfl)) nofun
  | @report w e l hw =>
    have hfailed := h.failed _ (List.mem_of_getElem? hw) e rfl
    have hsome : s.err.or (some e) ≠ none := by cases s.err <;> nofun
    constructor
    case real => exact lib.jobs.forall_mem_set h.real nofun
    case ended => exact h.ended
    case slot => exact h.slot
    case err =>
      intro e' he
      have he : s.err.or (some e) = some e' := he
      rcases Option.or_eq_some_iff.mp he with he | ⟨-, he⟩
      · exact h.err e' he
      · cases he
        exact hfailed
    case failed => exact lib.jobs.forall_mem_set h.failed nofun
    case kept => exact fun _ _ _ => .inl hsome
    case stopped => exact h.stopped
    case threw => exact fun ht => exists_set hw _ (P := fun pc => pc = .panicked) nofun (h.threw ht)
    case panicked => exact lib.jobs.forall_mem_set h.panicked nofun
    case refused => exact fun hr => unwound_put hw _ nofun (h.refused hr)
    case done =>
      obtain ⟨i, hi⟩ := hfailed
      exact lib.jobs.forall_mem_set h.done fun _ => .inr (.inl (h.stopped.mpr ⟨i, e, hi⟩))
  | @panic w i res l hw =>
    have hself : (⟨.panicked, l⟩ : Thread L V E) ∈ s.ts.set w ⟨.panicked, l⟩ :=
      List.mem_iff_getElem?.mpr ⟨w, List.getElem?_set_self (List.getElem?_eq_some_iff.mp hw).1⟩
    constructor
    case real => exact lib.jobs.forall_mem_set h.real nofun
    case ended => exact h.ended
    case slot => exact h.slot
    case err => exact h.err
    case failed => exact lib.jobs.forall_mem_set h.failed nofun
    case kept =>
      intro j e hj
      refine (h.kept j e hj).imp_right fun hex => ?_
      exact exists_set hw _ (P := fun pc => ∃ e, pc = .failed e) (fun ⟨_, he⟩ => (by cases he)) hex
    case stopped => exact h.stopped
    case threw => exact fun _ => ⟨_, hself, rfl⟩
    case panicked => exact fun _ _ _ => .inl (List.cons_ne_nil i s.threw)
    case refused => exact fun hr => unwound_put hw _ nofun (h.refused hr)
    case done => exact lib.jobs.forall_mem_set h.done nofun
  | @refuse j l ts hts =>
    -- What the other threads do is what they did, or they never begin.
    have hmem : ∀ t ∈ ts.take j ++ (ts.drop j).map Thread.cancel, t ∈ s.ts ∨ t.pc = .done := by
      intro t ht
      rcases List.mem_append.mp ht with ht | ht
      · exact .inl (hts ▸ List.mem_cons_of_mem _ (List.mem_of_mem_take ht))
      · obtain ⟨u, hu, rfl⟩ := List.mem_map.mp ht
        have hin : u ∈ s.ts := hts ▸ List.mem_cons_of_mem _ (List.mem_of_mem_drop hu)
        obtain ⟨pc, loc⟩ := u
        cases pc <;> first | exact .inl hin | exact .inr rfl
    have hkeep : ∀ t ∈ s.ts, t.pc ≠ .entry → t ∈ ts.take j ++ (ts.drop j).map Thread.cancel := by
      intro t ht hpc
      rw [hts] at ht
      rcases List.mem_cons.mp ht with rfl | ht
      · exact absurd rfl hpc
      rw [← List.take_append_drop j ts] at ht
      rcases List.mem_append.mp ht with ht | ht
      · exact List.mem_append_left _ ht
      · refine List.mem_append_right _ (List.mem_map.mpr ⟨t, ht, ?_⟩)
        obtain ⟨pc, loc⟩ := t
        cases pc <;> first | rfl | exact absurd rfl hpc
    have hall : ∀ {P : Thread L V E → Prop}, (∀ t ∈ s.ts, P t) → (∀ t, t.pc = .done → P t) →
        P ⟨.panicked, l⟩ →
        ∀ t ∈ (⟨.panicked, l⟩ :: (ts.take j ++ (ts.drop j).map Thread.cancel) : List (Thread L V E)), P t := by
      intro P hold hdone hhead t ht
      rcases List.mem_cons.mp ht with rfl | ht
      · exact hhead
      · rcases hmem t ht with ht | hpc
        · exact hold t ht
        · exact hdone t hpc
    constructor
    case real => exact hall h.real (fun t hpc i res hb => (by rw [hpc] at hb; cases hb)) nofun
    case ended => exact h.ended
    case slot => exact h.slot
    case err => exact h.err
    case failed => exact hall h.failed (fun t hpc e hb => (by rw [hpc] at hb; cases hb)) nofun
    case kept =>
      intro i e hi
      refine (h.kept i e hi).imp_right ?_
      rintro ⟨t, ht, e', hpc⟩
      exact ⟨t, List.mem_cons_of_mem _ (hkeep t ht (by rw [hpc]; nofun)), e', hpc⟩
    case stopped => exact h.stopped
    case threw => exact fun _ => ⟨_, List.mem_cons_self, rfl⟩
    case panicked => exact fun _ _ _ => .inr rfl
    case refused => exact fun _ => ⟨_, rfl, rfl⟩
    case done => exact fun _ _ _ => .inr (.inr rfl)

theorem moved_length {J : Work L V E} {s t : St L V E} (hm : Moved J s t) :
    t.ts.length = s.ts.length := by
  cases hm with
  | @refuse j l ts hts =>
    have hlen : (ts.take j ++ (ts.drop j).map Thread.cancel).length = ts.length := by
      rw [List.length_append, List.length_map, ← List.length_append, List.take_append_drop]
    rw [hts, List.length_cons, List.length_cons, hlen]
  | _ => exact List.length_set

/-! ## Every run ends -/

def Pc.left : Pc V E → Nat
  | .entry => 3
  | .top => 2
  | .claim => 1
  | .busy _ _ => 3
  | .failed _ => 1
  | .done | .panicked => 0

/-- The steps that are still to come: four for each job, and those of the threads. -/
def St.left (J : Work L V E) (s : St L V E) : Nat := 4 * (J.n - s.next) + (s.ts.map (·.pc.left)).sum

/-- A thread that moves, when it is nearer to its end or has claimed a job. -/
theorem left_put {J : Work L V E} {s : St L V E} {w : Nat} {x : Thread L V E}
    (hx : s.ts[w]? = some x) (y : Thread L V E) {next : Nat}
    (h : 4 * (J.n - next) + y.pc.left < 4 * (J.n - s.next) + x.pc.left) :
    4 * (J.n - next) + ((s.ts.set w y).map (·.pc.left)).sum < s.left J := by
  have hput := total_set (fun t : Thread L V E => t.pc.left) y hx
  unfold St.left
  omega

theorem left_cancel (t : Thread L V E) : t.cancel.pc.left ≤ t.pc.left := by
  obtain ⟨pc, loc⟩ := t
  cases pc <;> first | exact Nat.le_refl _ | exact Nat.zero_le _

theorem moved_left {J : Work L V E} {s t : St L V E} (hm : Moved J s t) : t.left J < s.left J := by
  cases hm with
  | enter hw => exact left_put hw _ (Nat.lt_succ_self _)
  | look hw _ => exact left_put hw _ (Nat.lt_succ_self _)
  | stopped hw _ => exact left_put hw _ (Nat.add_lt_add_left Nat.two_pos _)
  | claim hw hn =>
    apply left_put hw
    simp only [Pc.left]
    omega
  | drained hw hn =>
    apply left_put hw
    simp only [Pc.left]
    omega
  | gave hw => exact left_put hw _ (Nat.lt_succ_self _)
  | failed hw => exact left_put hw _ (Nat.add_lt_add_left (show 1 < 3 by decide) _)
  | report hw => exact left_put hw _ (Nat.lt_succ_self _)
  | panic hw => exact left_put hw _ (Nat.add_lt_add_left (show 0 < 3 by decide) _)
  | @refuse j l ts hts =>
    have hle : ∀ us : List (Thread L V E),
        ((us.map Thread.cancel).map (·.pc.left)).sum ≤ (us.map (·.pc.left)).sum := by
      intro us
      induction us with
      | nil => exact Nat.le_refl _
      | cons u us ih =>
        have hu := left_cancel u
        simp only [List.map_cons, List.sum_cons] at ih ⊢
        omega
    have hdrop := hle (ts.drop j)
    have hsplit := congrArg (fun us : List (Thread L V E) => (us.map (·.pc.left)).sum)
      (List.take_append_drop j ts)
    unfold St.left
    rw [hts]
    simp only [List.map_append, List.map_cons, List.sum_append, List.sum_cons, Pc.left] at hsplit hdrop ⊢
    omega

/-- A thread that is not over can go on. -/
theorem go_of_alive {J : Work L V E} {s : St L V E} {w : Nat} {t : Thread L V E}
    (hw : s.ts[w]? = some t) (ht : t.pc.isOver = false) : ∃ u, goStep J s w = some u := by
  obtain ⟨pc, loc⟩ := t
  unfold goStep
  rw [hw]
  dsimp only
  split
  · exact ⟨_, rfl⟩
  · exact ⟨_, rfl⟩
  · split <;> exact ⟨_, rfl⟩
  · exact ⟨_, rfl⟩
  · exact ⟨_, rfl⟩
  · exact ⟨_, rfl⟩
  · cases ht
  · cases ht

/-- No run is longer than the steps to come, and one that cannot go on has every thread over. -/
theorem run_ends (J : Work L V E) {k : Nat} {l : L} {s : St L V E} {as : List Act}
    (h : exec (system J k l) (start k l) as = some s) :
    as.length ≤ 4 * J.n + 3 * (k + 1) ∧ ((∀ a, step J s a = none) → Over s) := by
  constructor
  · have hle := exec_length_le (S := system J k l) (I := fun _ => True) (μ := St.left J)
      (fun _ _ _ _ hst => ⟨trivial, moved_left (step_moved hst)⟩) trivial h
    have hstart : (start k l : St L V E).left J = 4 * J.n + 3 * (k + 1) := by
      simp only [St.left, start, Pc.left, List.map_replicate, List.sum_replicate_nat, Nat.sub_zero,
        Nat.mul_comm]
    omega
  · intro hstuck t ht
    cases hover : t.pc.isOver with
    | true => rfl
    | false =>
      obtain ⟨w, hw⟩ := List.mem_iff_getElem?.mp ht
      obtain ⟨u, hu⟩ := go_of_alive (J := J) hw hover
      have hnone : goStep J s w = none := hstuck (.go w)
      rw [hnone] at hu
      cases hu

/-! ## When every thread is over -/

/-- What holds in every state of a run. -/
structure Sound (J : Work L V E) (s : St L V E) : Prop where
  once : Once J s
  told : Told J s
  caller : 0 < s.ts.length

theorem reachable_sound {J : Work L V E} {k : Nat} {l : L} {s : St L V E}
    (h : Reachable (system J k l) s) : Sound J s := by
  refine Reach.invariant (I := Sound J) h ?_ ?_
  · rintro s rfl
    exact ⟨start_once J k l, start_told J k l, by simp [start]⟩
  · intro s a t _ hold _ hst
    have hm := step_moved hst
    exact ⟨moved_once hold.once hm, moved_told hold.once hold.told hm, moved_length hm ▸ hold.caller⟩

theorem Sound.atMostOnce {J : Work L V E} {s : St L V E} (h : Sound J s) (i : Nat) :
    s.calls i ≤ 1 ∧ (0 < s.calls i → i < J.n) := by
  rw [h.once i]
  split
  · rename_i hi
    exact ⟨Nat.le_refl _, fun _ => hi.1⟩
  · exact ⟨Nat.zero_le _, fun hpos => absurd hpos (Nat.lt_irrefl 0)⟩

/-- What came back or panicked was called. -/
theorem Sound.called {J : Work L V E} {s : St L V E} (h : Sound J s) {i : Nat}
    (hi : (∃ r, (i, r) ∈ s.ended) ∨ i ∈ s.threw) : i < J.n := by
  refine (h.atMostOnce i).2 ?_
  unfold St.calls
  rcases hi with ⟨r, hr⟩ | hi
  · have hcame : 0 < came s.ended i :=
      List.count_pos_iff.mpr (List.mem_map_of_mem (f := Prod.fst) hr)
    omega
  · have hcount := List.count_pos_iff.mpr hi
    omega

/-- A call panicked, or a thread could not be spawned: then some thread panicked, and only then. -/
theorem Sound.panicked {J : Work L V E} {s : St L V E} (h : Sound J s) :
    (s.unwound ∨ s.workerPanicked) ↔ s.threw ≠ [] ∨ s.refused = true := by
  constructor
  · rintro (⟨t, ht, hpc⟩ | ⟨w, t, ht, hpc⟩)
    · exact h.told.panicked t (List.mem_of_getElem? ht) hpc
    · exact h.told.panicked t (List.mem_of_getElem? ht) hpc
  · rintro (hthrew | hrefused)
    · obtain ⟨t, ht, hpc⟩ := h.told.threw hthrew
      obtain ⟨w, hw⟩ := List.mem_iff_getElem?.mp ht
      cases w with
      | zero => exact .inl ⟨t, hw, hpc⟩
      | succ w => exact .inr ⟨w, t, hw, hpc⟩
    · exact .inl (h.told.refused hrefused)

/-- The error that is stored is one that a call gave, and there is one if any call gave one. -/
theorem Sound.err {J : Work L V E} {s : St L V E} (h : Sound J s) (hover : Over s) :
    (∀ e, s.err = some e → ∃ i, (i, .error e) ∈ s.ended) ∧
      ∀ i e, (i, .error e) ∈ s.ended → s.err ≠ none := by
  refine ⟨h.told.err, fun i e hi => ?_⟩
  rcases h.told.kept i e hi with herr | ⟨t, ht, e', hpc⟩
  · exact herr
  · have hdone := hover t ht
    rw [hpc] at hdone
    cases hdone

/-- With no panic and no error, every job gave its value in one call. -/
theorem Sound.all {J : Work L V E} {s : St L V E} (h : Sound J s) (hover : Over s)
    (hthrew : s.threw = []) (hrefused : s.refused = false)
    (herr : ∀ i e, (i, .error e) ∉ s.ended) {i : Nat} (hi : i < J.n) :
    s.calls i = 1 ∧ ∃ v, s.out i = some v ∧ (i, .ok v) ∈ s.ended := by
  have hnopanic : ∀ t ∈ s.ts, t.pc = .done := by
    intro t ht
    have hdone := hover t ht
    cases hpc : t.pc with
    | done => rfl
    | panicked =>
      rcases h.told.panicked t ht hpc with hne | hr
      · exact absurd hthrew hne
      · rw [hrefused] at hr
        cases hr
    | _ =>
      rw [hpc] at hdone
      cases hdone
  have hnext : J.n ≤ s.next := by
    have hmem := List.getElem_mem h.caller
    rcases h.told.done _ hmem (hnopanic _ hmem) with hn | hstop | hr
    · exact hn
    · obtain ⟨j, e, hj⟩ := h.told.stopped.mp hstop
      exact absurd hj (herr j e)
    · rw [hrefused] at hr
      cases hr
  have hone : s.calls i = 1 := (h.once i).trans (if_pos ⟨hi, Nat.lt_of_lt_of_le hi hnext⟩)
  refine ⟨hone, ?_⟩
  have hheld : held s.ts i = 0 := by
    unfold held
    apply List.sum_eq_zero
    intro x hx
    obtain ⟨t, ht, rfl⟩ := List.mem_map.mp hx
    rw [hnopanic t ht]
    rfl
  have hcame : came s.ended i = 1 := by
    have hsum : came s.ended i + s.threw.count i + held s.ts i = 1 := hone
    rw [hthrew, hheld] at hsum
    exact hsum
  obtain ⟨⟨j, res⟩, hmem, hj⟩ := List.mem_map.mp (List.count_pos_iff.mp (hcame.symm ▸ Nat.one_pos))
  cases hj
  cases res with
  | error e => exact absurd hmem (herr _ e)
  | ok v => exact ⟨v, (h.told.slot _ v).mpr hmem, hmem⟩

/-! ## Runs without a panic -/

section
variable {M O : Type}

/-- Jobs that work on a shared state by small operations, with only their ends in sight. -/
def ofJobs (J : lib.jobs.Jobs M O L E) : Work L Unit E where
  n := J.n
  job i l := (J.job i l).2

def ofPc : lib.jobs.Pc O E → Pc Unit E
  | .top => .top
  | .claim => .claim
  | .busy i _ res => .busy i res
  | .failed e => .failed e
  | .done => .done

def ofWorker (x : lib.jobs.Worker O L E) : Thread L Unit E := ⟨ofPc x.pc, x.loc⟩

/-- The threads stand where the workers stand, and none has panicked. -/
structure Follows (j : lib.jobs.St M O L E) (s : St L Unit E) : Prop where
  next : s.next = j.next
  stop : s.stop = j.stop
  err : s.err = j.err
  ts : s.ts = j.ws.map ofWorker
  calm : s.threw = [] ∧ s.refused = false

theorem Follows.put {j : lib.jobs.St M O L E} {s : St L Unit E} (h : Follows j s) (w : Nat)
    (y : lib.jobs.Worker O L E) : s.ts.set w (ofWorker y) = (j.ws.set w y).map ofWorker := by
  rw [h.ts, List.map_set]

/-- An operation on the shared state is out of sight, and every other step is one step. -/
theorem follows_step {J : lib.jobs.Jobs M O L E} {j j' : lib.jobs.St M O L E} {s : St L Unit E}
    {w : Nat} (h : Follows j s) (hst : lib.jobs.step J j w = some j') :
    Follows j' s ∨ ∃ s', goStep (ofJobs J) s w = some s' ∧ Follows j' s' := by
  obtain ⟨pc, loc, hw, hcases⟩ := lib.jobs.step_cases hst
  have hat : s.ts[w]? = some (ofWorker ⟨pc, loc⟩) := by
    rw [h.ts, List.getElem?_map, hw]
    rfl
  have hput := h.put w
  rcases hcases with ⟨rfl, rfl⟩ | ⟨rfl, hn, rfl⟩ | ⟨rfl, hn, rfl⟩ | ⟨i, o, rest, res, rfl, rfl⟩ |
    ⟨i, rfl, rfl⟩ | ⟨i, e, rfl, rfl⟩ | ⟨e, rfl, rfl⟩
  · refine .inr ⟨s.put w ⟨if s.stop then .done else .claim, loc⟩, by simp only [goStep, hat]; rfl, ?_⟩
    refine ⟨h.next, h.stop, h.err, ?_, h.calm⟩
    rw [St.put, h.stop, ← hput]
    cases j.stop <;> rfl
  · refine .inr ⟨{ s.put w ⟨.busy s.next (J.job s.next loc).2.1, (J.job s.next loc).2.2⟩ with
      next := s.next + 1 }, ?_, ?_⟩
    · simp only [goStep, hat, ofWorker, ofPc, ofJobs, h.next, if_pos hn]
    · refine ⟨congrArg (· + 1) h.next, h.stop, h.err, ?_, h.calm⟩
      show s.ts.set w _ = _
      rw [h.next, ← hput]
      rfl
  · refine .inr ⟨{ s.put w ⟨.done, loc⟩ with next := s.next + 1 }, ?_, ?_⟩
    · simp only [goStep, hat, ofWorker, ofPc, ofJobs, h.next, if_neg (Nat.not_lt.mpr hn)]
    · exact ⟨congrArg (· + 1) h.next, h.stop, h.err, hput ⟨.done, loc⟩, h.calm⟩
  · refine .inl ⟨h.next, h.stop, h.err, ?_, h.calm⟩
    rw [← hput]
    refine Eq.symm (List.ext_getElem? fun v => ?_)
    by_cases hv : w = v
    · subst hv
      rw [List.getElem?_set_self (List.getElem?_eq_some_iff.mp hat).1, hat]
      rfl
    · rw [List.getElem?_set_ne hv]
  · refine .inr ⟨_, by simp only [goStep, hat, ofWorker, ofPc]; rfl, ?_⟩
    exact ⟨h.next, h.stop, h.err, hput ⟨.top, loc⟩, h.calm⟩
  · refine .inr ⟨_, by simp only [goStep, hat, ofWorker, ofPc]; rfl, ?_⟩
    exact ⟨h.next, rfl, h.err, hput ⟨.failed e, loc⟩, h.calm⟩
  · refine .inr ⟨_, by simp only [goStep, hat, ofWorker, ofPc]; rfl, ?_⟩
    exact ⟨h.next, h.stop, congrArg (Option.or · (some e)) h.err, hput ⟨.done, loc⟩, h.calm⟩

/-- The threads begin one after the other. -/
theorem all_begun (J : Work L V E) (k : Nat) (l : L) {m : Nat} (hm : m ≤ k + 1) :
    Reachable (system J k l) { (start k l : St L V E) with
      ts := List.replicate m ⟨.top, l⟩ ++ List.replicate (k + 1 - m) ⟨.entry, l⟩ } := by
  induction m with
  | zero => exact .start rfl
  | succ m ih =>
    refine .next (a := .go m) (ih (by omega)) trivial ?_
    have hsplit : List.replicate (k + 1 - m) (⟨.entry, l⟩ : Thread L V E) =
        ⟨.entry, l⟩ :: List.replicate (k + 1 - (m + 1)) ⟨.entry, l⟩ := by
      rw [← List.replicate_succ]
      congr 1
      omega
    have hset : ∀ es : List (Thread L V E), (List.replicate m (⟨.top, l⟩ : Thread L V E) ++
        (⟨.entry, l⟩ : Thread L V E) :: es).set m ⟨.top, l⟩ = List.replicate (m + 1) ⟨.top, l⟩ ++ es := by
      intro es
      rw [List.set_append_right _ _ (by simp), List.length_replicate, Nat.sub_self, List.set_cons_zero,
        List.replicate_succ', List.append_assoc]
      rfl
    show goStep J _ m = _
    simp only [hsplit, goStep, List.length_replicate, Nat.le_refl, List.getElem?_append_right,
      Nat.sub_self, List.getElem?_cons_zero, St.put, hset]

/-- A run of jobs none of which panics is a run here, of the calling thread and `k` more. -/
theorem run_of_jobs {J : lib.jobs.Jobs M O L E} {k : Nat} {l : L} {m : M} {j : lib.jobs.St M O L E}
    (h : Reachable (lib.jobs.system J (k + 1) l m) j) :
    ∃ s, Reachable (system (ofJobs J) k l) s ∧ Follows j s := by
  induction h with
  | start hj =>
    subst hj
    refine ⟨_, all_begun (ofJobs J) k l (Nat.le_refl _), rfl, rfl, rfl, ?_, rfl, rfl⟩
    simp [lib.jobs.start, ofWorker, ofPc]
  | next _ _ hst ih =>
    obtain ⟨s, hs, hfollows⟩ := ih
    rcases follows_step hfollows hst with hsame | ⟨s', hgo, hnext⟩
    · exact ⟨s, hs, hsame⟩
    · exact ⟨s', .next (a := .go _) hs trivial hgo, hnext⟩

end

end lib.cursor
