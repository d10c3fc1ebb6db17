-- The thread pool: one set of workers that park between the jobs, and calls
-- of `run` that lend a job to the first `n` of them, one call at a time. One
-- action is one critical section, one wake, or one end of a closure.
import ParquetInterop.Lib.Runs
import ParquetInterop.Lib.Parking

open lib.runs lib.parking

namespace parquet_interop.pool

/-! ## The state -/

/-- What `build` fixes: the threads that the pool will have, and the process that made it.
`self` is the process that runs. -/
structure Pool where
  n : Nat
  pid : Nat
  self : Nat
  n_lt : n < 2 ^ 64

/-- Where a worker of the pool stands. `seen` is the generation it last saw, and `c` the call
that lent the job. A woken worker is back at `look`: it takes the lock and compares again. -/
inductive WorkerAt where
  | starting
  | look (seen : Nat)
  | parked (seen : Nat)
  | run (seen c : Nat)
  | finish (seen c : Nat) (bad : Bool)
  deriving DecidableEq

/-- Where a call of `run` stands. `fresh` is the fallback: the threads that are still to be
spawned, the ones that run, the ones that panicked, and how `me` ended. From `send` to `leave`
the call holds the busy lock, and from `me` to `parked` the workers have its job. -/
inductive CallAt where
  | idle
  | alone
  | load (n : Nat)
  | tryLock (n : Nat)
  | fresh (todo live bad : Nat) (me : Option Bool)
  | warm (bad : Bool)
  | send (n : Nat)
  | me (n : Nat)
  | look (n : Nat) (ok : Bool)
  | parked (n : Nat) (ok : Bool)
  | leave (n : Nat) (ok bad : Bool)
  | back (n : Option Nat) (bad : Bool)
  | unwound (n : Option Nat)
  deriving DecidableEq

/-- The mutex `busy`. A guard that is dropped by unwinding leaves it poisoned. -/
inductive Busy where
  | free
  | held (c : Nat)
  | poisoned
  deriving DecidableEq

/-- The whole state. `job` to `panics` are `State` in the source, with the call that lent the
job for the pointer. `sent`, `took` and `threw` are a record for the proofs: the dispatches, each
job that a worker of the pool took, and each run of a job that panicked. -/
structure St where
  job : Option Nat
  gen : Nat
  want : Nat
  left : Nat
  panics : Nat
  busy : Busy
  ready : Nat
  started : Bool
  building : Bool
  ws : List WorkerAt
  calls : Nat → CallAt
  sent : Nat
  took : List (Nat × Nat)
  threw : List (Nat × Option Nat)

def start : St where
  job := none
  gen := 0
  want := 0
  left := 0
  panics := 0
  busy := .free
  ready := 0
  started := false
  building := false
  ws := []
  calls _ := .idle
  sent := 0
  took := []
  threw := []

/-! ## The actions -/

/-- `v` is the value that the relaxed load reads, and `ok` and `bad` say how a spawn or a
closure ends. -/
inductive Act where
  | call (c n : Nat)
  | load (c v : Nat)
  | tryLock (c : Nat)
  | spawnFresh (c : Nat) (ok : Bool)
  | freshEnd (c : Nat) (bad : Bool)
  | meEnd (c : Nat) (ok : Bool)
  | joined (c : Nat)
  | warm (c : Nat) (ok : Bool)
  | send (c : Nat)
  | wait (c : Nat)
  | spuriousDone (c : Nat)
  | leave (c : Nat)
  | spawn (ok : Bool)
  | start (j : Nat)
  | take (j : Nat)
  | spurious (j : Nat)
  | ended (j : Nat) (bad : Bool)
  | finish (j : Nat)
  deriving DecidableEq

/-- The condition variable `work`. -/
def work : CondVar WorkerAt where
  parked
    | .parked _ => true
    | _ => false
  wake
    | .parked seen => .look seen
    | w => w
  wake_parked w _ := by cases w <;> rfl

/-- The condition variable `done`: a call that waits there goes back to `look`. -/
def CallAt.notify : CallAt → CallAt
  | .parked n ok => .look n ok
  | c => c

def St.setCall (s : St) (c : Nat) (x : CallAt) : St :=
  { s with calls := fun d => if d = c then x else s.calls d }

def St.setWorker (s : St) (j : Nat) (w : WorkerAt) : St := { s with ws := s.ws.set j w }

/-- The pool belongs to this process, and enough of its workers have started. -/
def up (p : Pool) (v n : Nat) : Bool := p.pid = p.self ∧ n ≤ v

/-- `s.gen += 1` in `u64`. -/
def bump (gen : Nat) : Nat := (gen + 1) % 2 ^ 64

/-- `s.left -= 1` in `usize`. -/
def dec (left : Nat) : Nat := (left + (2 ^ 64 - 1)) % 2 ^ 64

/-- The end of `spawned`: it gives `me`'s value back and starts to build the pool, or goes on
unwinding. -/
def joinedStep (s : St) (c : Nat) : Option St :=
  match s.calls c with
  | .fresh 0 0 bad (some true) => some (s.setCall c (.warm (decide (0 < bad))))
  | .fresh 0 0 _ (some false) => some (s.setCall c (.unwound none))
  | _ => none

/-- The end of `me`. -/
def meEndStep (s : St) (c : Nat) (ok : Bool) : Option St :=
  match s.calls c with
  | .alone => some (s.setCall c (if ok then .back none false else .unwound none))
  | .fresh 0 live bad none => some (s.setCall c (.fresh 0 live bad (some ok)))
  | .me n => some (s.setCall c (.look n ok))
  | _ => none

/-- The spawn of one fresh thread. A failed spawn panics, and the scope waits for the threads
that run. -/
def spawnFreshStep (s : St) (c : Nat) (ok : Bool) : Option St :=
  match s.calls c with
  | .fresh (todo + 1) live bad none =>
    some (s.setCall c (if ok then .fresh todo (live + 1) bad none else .fresh 0 live bad (some false)))
  | _ => none

def freshEndStep (s : St) (c : Nat) (bad : Bool) : Option St :=
  match s.calls c with
  | .fresh todo (live + 1) k me =>
    let s' := s.setCall c (.fresh todo live (k + bad.toNat) me)
    some { s' with threw := if bad then (c, none) :: s.threw else s.threw }
  | _ => none

/-- `try_lock().ok()`: a held lock and a poisoned one are the same refusal. -/
def tryLockStep (p : Pool) (s : St) (c : Nat) : Option St :=
  match s.calls c with
  | .tryLock n =>
    match s.busy with
    | .free => some { s.setCall c (.send (min n p.n)) with busy := .held c }
    | _ => some (s.setCall c (.fresh n 0 0 none))
  | _ => none

/-- The dispatch: the job, the counts and the generation, then the wake. -/
def sendStep (s : St) (c : Nat) : Option St :=
  match s.calls c with
  | .send n =>
    some { s.setCall c (.me n) with
      job := some c, want := n, left := n, panics := 0, gen := bump s.gen
      ws := notifyAll work s.ws, sent := s.sent + 1 }
  | _ => none

/-- The wait of the call, when it has the lock. -/
def waitStep (s : St) (c : Nat) : Option St :=
  match s.calls c with
  | .look n ok =>
    if 0 < s.left then some (s.setCall c (.parked n ok))
    else some { s.setCall c (.leave n ok (decide (0 < s.panics))) with job := none }
  | _ => none

/-- The guard of `busy` goes: by a return, or by unwinding. -/
def leaveStep (s : St) (c : Nat) : Option St :=
  match s.calls c with
  | .leave n true bad => some { s.setCall c (.back (some n) bad) with busy := .free }
  | .leave n false _ => some { s.setCall c (.unwound (some n)) with busy := .poisoned }
  | _ => none

/-- `warm` builds once: the builder thread starts, or it does not. -/
def warmStep (s : St) (c : Nat) (ok : Bool) : Option St :=
  match s.calls c with
  | .warm bad =>
    let s' := s.setCall c (.back none bad)
    if s.started then some s' else some { s' with started := true, building := ok }
  | _ => none

/-- The builder spawns the workers in order of their index, and stops at a failure. -/
def spawnStep (p : Pool) (s : St) (ok : Bool) : Option St :=
  if s.building ∧ s.ws.length < p.n then
    if ok then some { s with ws := s.ws ++ [.starting] } else some { s with building := false }
  else none

/-- A worker has the lock and compares the generations. A job that does not want it, and no
job, send it round the loop again. -/
def takeStep (s : St) (j : Nat) : Option St :=
  match s.ws[j]? with
  | some (.look seen) =>
    if s.gen = seen then some (s.setWorker j (.parked seen))
    else
      match s.job with
      | some c =>
        if j < s.want then some { s.setWorker j (.run s.gen c) with took := (c, j) :: s.took }
        else some (s.setWorker j (.look s.gen))
      | none => some (s.setWorker j (.look s.gen))
  | _ => none

/-- The end of a job. The unwinding stops at the worker. -/
def endedStep (s : St) (j : Nat) (bad : Bool) : Option St :=
  match s.ws[j]? with
  | some (.run seen c) =>
    some { s.setWorker j (.finish seen c bad) with
      threw := if bad then (c, some j) :: s.threw else s.threw }
  | _ => none

/-- A worker counts itself out, and the last one wakes the call. -/
def finishStep (s : St) (j : Nat) : Option St :=
  match s.ws[j]? with
  | some (.finish seen _ bad) =>
    let left := dec s.left
    some { s.setWorker j (.look seen) with
      panics := s.panics + bad.toNat, left
      calls := if left = 0 then fun d => (s.calls d).notify else s.calls }
  | _ => none

def step (p : Pool) (s : St) : Act → Option St
  | .call c n =>
    if s.calls c = .idle then some (s.setCall c (if n = 0 then .alone else .load n)) else none
  | .load c v =>
    match s.calls c with
    | .load n =>
      if v ≤ s.ready then some (s.setCall c (if up p v n then .tryLock n else .fresh n 0 0 none))
      else none
    | _ => none
  | .tryLock c => tryLockStep p s c
  | .spawnFresh c ok => spawnFreshStep s c ok
  | .freshEnd c bad => freshEndStep s c bad
  | .meEnd c ok => meEndStep s c ok
  | .joined c => joinedStep s c
  | .warm c ok => warmStep s c ok
  | .send c => sendStep s c
  | .wait c => waitStep s c
  | .spuriousDone c =>
    match s.calls c with
    | .parked n ok => some (s.setCall c (.look n ok))
    | _ => none
  | .leave c => leaveStep s c
  | .spawn ok => spawnStep p s ok
  | .start j =>
    if s.ws[j]? = some .starting then some { s.setWorker j (.look 0) with ready := s.ready + 1 }
    else none
  | .take j => takeStep s j
  | .spurious j => (lib.parking.spurious work s.ws j).map fun ws => { s with ws }
  | .ended j bad => endedStep s j bad
  | .finish j => finishStep s j

/-- The pool as a system of states and actions. -/
def threads (p : Pool) : System St Act where
  init s := s = start
  step := step p

/-! ## What a step can do -/

/-- The moves of a call that change nothing else. -/
inductive Quiet (p : Pool) (s : St) : CallAt → CallAt → Prop
  | alone : Quiet p s .idle .alone
  | load {n : Nat} : 0 < n → Quiet p s .idle (.load n)
  | up {n : Nat} : p.pid = p.self → n ≤ s.ready → Quiet p s (.load n) (.tryLock n)
  | down {n : Nat} : Quiet p s (.load n) (.fresh n 0 0 none)
  | refused {n : Nat} : s.busy ≠ .free → Quiet p s (.tryLock n) (.fresh n 0 0 none)
  | spawnFresh {todo live bad : Nat} :
      Quiet p s (.fresh (todo + 1) live bad none) (.fresh todo (live + 1) bad none)
  | spawnFailed {todo live bad : Nat} :
      Quiet p s (.fresh (todo + 1) live bad none) (.fresh 0 live bad (some false))
  | meFresh {live bad : Nat} {ok : Bool} : Quiet p s (.fresh 0 live bad none) (.fresh 0 live bad (some ok))
  | meAlone : Quiet p s .alone (.back none false)
  | meAloneUnwound : Quiet p s .alone (.unwound none)
  | joined {bad : Nat} : Quiet p s (.fresh 0 0 bad (some true)) (.warm (decide (0 < bad)))
  | joinedUnwound {bad : Nat} : Quiet p s (.fresh 0 0 bad (some false)) (.unwound none)
  | warm {bad : Bool} : s.started = true → Quiet p s (.warm bad) (.back none bad)
  | me {n : Nat} {ok : Bool} : Quiet p s (.me n) (.look n ok)
  | park {n : Nat} {ok : Bool} : 0 < s.left → Quiet p s (.look n ok) (.parked n ok)
  | spurious {n : Nat} {ok : Bool} : Quiet p s (.parked n ok) (.look n ok)

/-- Every way a step can change the state, with what it has checked. -/
inductive Moved (p : Pool) (s : St) : St → Prop
  | quiet {c : Nat} {x y : CallAt} : s.calls c = x → Quiet p s x y → Moved p s (s.setCall c y)
  | freshEnd {c todo live k : Nat} {me : Option Bool} (bad : Bool) :
      s.calls c = .fresh todo (live + 1) k me →
      Moved p s { s.setCall c (.fresh todo live (k + bad.toNat) me) with
        threw := if bad then (c, none) :: s.threw else s.threw }
  | warm {c : Nat} {bad : Bool} (ok : Bool) : s.calls c = .warm bad → s.started = false →
      Moved p s { s.setCall c (.back none bad) with started := true, building := ok }
  | lock {c n : Nat} : s.calls c = .tryLock n → s.busy = .free →
      Moved p s { s.setCall c (.send (min n p.n)) with busy := .held c }
  | send {c n : Nat} : s.calls c = .send n →
      Moved p s { s.setCall c (.me n) with
        job := some c, want := n, left := n, panics := 0, gen := bump s.gen
        ws := notifyAll work s.ws, sent := s.sent + 1 }
  | collect {c n : Nat} {ok : Bool} : s.calls c = .look n ok → s.left = 0 →
      Moved p s { s.setCall c (.leave n ok (decide (0 < s.panics))) with job := none }
  | leave {c n : Nat} {bad : Bool} : s.calls c = .leave n true bad →
      Moved p s { s.setCall c (.back (some n) bad) with busy := .free }
  | unwind {c n : Nat} {bad : Bool} : s.calls c = .leave n false bad →
      Moved p s { s.setCall c (.unwound (some n)) with busy := .poisoned }
  | spawn : s.building = true → s.ws.length < p.n → Moved p s { s with ws := s.ws ++ [.starting] }
  | spawnFailed : s.building = true → Moved p s { s with building := false }
  | start {j : Nat} : s.ws[j]? = some .starting →
      Moved p s { s.setWorker j (.look 0) with ready := s.ready + 1 }
  | park {j seen : Nat} : s.ws[j]? = some (.look seen) → s.gen = seen →
      Moved p s (s.setWorker j (.parked seen))
  | skip {j seen : Nat} : s.ws[j]? = some (.look seen) → s.gen ≠ seen → s.job = none ∨ s.want ≤ j →
      Moved p s (s.setWorker j (.look s.gen))
  | take {j seen c : Nat} : s.ws[j]? = some (.look seen) → s.gen ≠ seen → s.job = some c → j < s.want →
      Moved p s { s.setWorker j (.run s.gen c) with took := (c, j) :: s.took }
  | spurious {j seen : Nat} : s.ws[j]? = some (.parked seen) → Moved p s (s.setWorker j (.look seen))
  | ended {j seen c : Nat} (bad : Bool) : s.ws[j]? = some (.run seen c) →
      Moved p s { s.setWorker j (.finish seen c bad) with
        threw := if bad then (c, some j) :: s.threw else s.threw }
  | finish {j seen c : Nat} {bad : Bool} : s.ws[j]? = some (.finish seen c bad) →
      Moved p s { s.setWorker j (.look seen) with
        panics := s.panics + bad.toNat, left := dec s.left
        calls := if dec s.left = 0 then fun d => (s.calls d).notify else s.calls }

theorem meEndStep_moved {p : Pool} {s t : St} {c : Nat} {ok : Bool} (h : meEndStep s c ok = some t) :
    Moved p s t := by
  unfold meEndStep at h
  split at h
  · rename_i hc
    cases h
    cases ok with
    | true => exact .quiet hc .meAlone
    | false => exact .quiet hc .meAloneUnwound
  · rename_i hc
    cases h
    exact .quiet hc .meFresh
  · rename_i hc
    cases h
    exact .quiet hc .me
  · cases h

theorem tryLockStep_moved {p : Pool} {s t : St} {c : Nat} (h : tryLockStep p s c = some t) :
    Moved p s t := by
  unfold tryLockStep at h
  split at h
  · rename_i n hc
    split at h
    · rename_i hb
      cases h
      exact .lock hc hb
    · rename_i hb
      cases h
      exact .quiet hc (.refused hb)
  · cases h

theorem waitStep_moved {p : Pool} {s t : St} {c : Nat} (h : waitStep s c = some t) : Moved p s t := by
  unfold waitStep at h
  split at h
  · rename_i n ok hc
    split at h
    · rename_i hl
      cases h
      exact .quiet hc (.park hl)
    · rename_i hl
      cases h
      exact .collect hc (Nat.eq_zero_of_not_pos hl)
  · cases h

theorem takeStep_moved {p : Pool} {s t : St} {j : Nat} (h : takeStep s j = some t) : Moved p s t := by
  unfold takeStep at h
  split at h
  · rename_i seen hj
    split at h
    · rename_i hg
      cases h
      exact .park hj hg
    rename_i hg
    split at h
    · rename_i c hc
      split at h
      · rename_i hw
        cases h
        exact .take hj hg hc hw
      · rename_i hw
        cases h
        exact .skip hj hg (Or.inr (Nat.not_lt.mp hw))
    · rename_i hc
      cases h
      exact .skip hj hg (Or.inl hc)
  · cases h

/-- The steps of the fallback. -/
theorem fresh_moved {p : Pool} {s t : St} {c : Nat} :
    (∀ ok, spawnFreshStep s c ok = some t → Moved p s t) ∧
      (∀ bad, freshEndStep s c bad = some t → Moved p s t) ∧
      (joinedStep s c = some t → Moved p s t) ∧ ∀ ok, warmStep s c ok = some t → Moved p s t := by
  refine ⟨fun ok h => ?_, fun bad h => ?_, fun h => ?_, fun ok h => ?_⟩
  · unfold spawnFreshStep at h
    split at h
    · rename_i hc
      cases h
      cases ok with
      | true => exact .quiet hc .spawnFresh
      | false => exact .quiet hc .spawnFailed
    · cases h
  · unfold freshEndStep at h
    split at h
    · rename_i hc
      cases h
      exact .freshEnd bad hc
    · cases h
  · unfold joinedStep at h
    split at h
    · rename_i hc
      cases h
      exact .quiet hc .joined
    · rename_i hc
      cases h
      exact .quiet hc .joinedUnwound
    · cases h
  · unfold warmStep at h
    split at h
    · rename_i hc
      dsimp only at h
      split at h
      · rename_i hs
        cases h
        exact .quiet hc (.warm hs)
      · rename_i hs
        cases h
        exact .warm ok hc (Bool.not_eq_true _ ▸ hs)
    · cases h

/-- A step is one of the moves. Every invariant below is a case analysis on them. -/
theorem step_moved {p : Pool} {s t : St} {a : Act} (h : step p s a = some t) : Moved p s t := by
  cases a with
  | call c n =>
    simp only [step] at h
    split at h
    · rename_i hc
      cases h
      split
      · exact .quiet hc .alone
      · rename_i hn
        exact .quiet hc (.load (Nat.pos_of_ne_zero hn))
    · cases h
  | load c v =>
    simp only [step] at h
    split at h
    · rename_i n hc
      split at h
      · rename_i hv
        cases h
        split
        · rename_i hup
          obtain ⟨hpid, hn⟩ := of_decide_eq_true hup
          exact .quiet hc (.up hpid (Nat.le_trans hn hv))
        · exact .quiet hc .down
      · cases h
    · cases h
  | tryLock c => exact tryLockStep_moved h
  | spawnFresh c ok => exact fresh_moved.1 ok h
  | freshEnd c bad => exact fresh_moved.2.1 bad h
  | meEnd c ok => exact meEndStep_moved h
  | joined c => exact fresh_moved.2.2.1 h
  | warm c ok => exact fresh_moved.2.2.2 ok h
  | send c =>
    simp only [step, sendStep] at h
    split at h
    · rename_i hc
      cases h
      exact .send hc
    · cases h
  | wait c => exact waitStep_moved h
  | spuriousDone c =>
    simp only [step] at h
    split at h
    · rename_i hc
      cases h
      exact .quiet hc .spurious
    · cases h
  | leave c =>
    simp only [step, leaveStep] at h
    split at h
    · rename_i hc
      cases h
      exact .leave hc
    · rename_i hc
      cases h
      exact .unwind hc
    · cases h
  | spawn ok =>
    simp only [step, spawnStep] at h
    split at h
    · rename_i hb
      split at h
      · cases h
        exact .spawn hb.1 hb.2
      · cases h
        exact .spawnFailed hb.1
    · cases h
  | start j =>
    simp only [step] at h
    split at h
    · rename_i hj
      cases h
      exact .start hj
    · cases h
  | take j => exact takeStep_moved h
  | spurious j =>
    simp only [step, lib.parking.spurious, notifyOne, Option.map_eq_some_iff] at h
    obtain ⟨ws, hws, rfl⟩ := h
    split at hws
    · rename_i w hw
      split at hws
      · rename_i hp
        cases hws
        cases w with
        | parked seen => exact .spurious hw
        | starting => cases hp
        | look seen => cases hp
        | run seen c => cases hp
        | finish seen c bad => cases hp
      · cases hws
    · cases hws
  | ended j bad =>
    simp only [step, endedStep] at h
    split at h
    · rename_i hj
      cases h
      exact .ended bad hj
    · cases h
  | finish j =>
    simp only [step, finishStep] at h
    split at h
    · rename_i hj
      cases h
      exact .finish hj
    · cases h

end parquet_interop.pool
