-- The work queue of `write_table`: the workers claim `row group × column`
-- tasks in order and encode them outside the lock, and the master appends
-- the finished chunks in the same order. One action is one critical section,
-- or one wake, or one call of the arrow and parquet crates.
import ParquetInterop.Lib.Runs
import ParquetInterop.Lib.Parking

open lib.runs lib.parking

namespace parquet_interop.write_queue

/-! ## The tasks -/

/-- `usize::div_ceil`. -/
def divCeil (n d : Nat) : Nat := if n % d = 0 then n / d else n / d + 1

/-- What `write_table` fixes before the queue starts. `parse_opts` refuses a row group
of no rows, the window and the thread count end in `.max(1)`, and a table of no column
counts no row. -/
structure Plan where
  nc : Nat
  nrows : Nat
  rg : Nat
  window : Nat
  nthreads : Nat
  rg_pos : 0 < rg
  window_pos : 0 < window
  nthreads_pos : 0 < nthreads
  no_column : nc = 0 → nrows = 0

def Plan.nrg (p : Plan) : Nat := divCeil p.nrows p.rg

def Plan.ntasks (p : Plan) : Nat := p.nrg * p.nc

/-- The in-flight window that `write_table` computes from the widest column. -/
def windowOf (nthreads nc rg nrows width : Nat) : Nat :=
  let per := max (min rg nrows * width) 1
  max (min (nthreads + nc) (max (512 * 2 ^ 20 / per) nthreads)) 1

/-- A column writer: the call of `get_column_writers` that made it, and its column. -/
structure Writer where
  set : Nat
  col : Nat
  deriving DecidableEq

/-- What a worker holds after a claim: the task, its row group and column, the writer. -/
structure Claim where
  i : Nat
  g : Nat
  c : Nat
  w : Writer
  deriving DecidableEq

/-- A finished chunk: its task, and the rows `[off, off + len)` of column `col`. -/
structure Chunk where
  task : Nat
  col : Nat
  off : Nat
  len : Nat
  deriving DecidableEq

/-- The chunk that a worker encodes for a claim. -/
def encodeOf (p : Plan) (k : Claim) : Chunk :=
  let off := k.g * p.rg
  { task := k.i, col := k.c, off, len := min p.rg (p.nrows - off) }

/-! ## The state -/

/-- `Q` in the source. A missing key of `wr` or `done` is `none`. -/
structure Q where
  next : Nat
  head : Nat
  wr : Nat → Option (List (Option Writer))
  done : Nat → Option Chunk
  err : Option String

/-- Where a worker stands. A woken worker is back at `look`: it takes the lock and makes
the same checks as at the top of its loop. -/
inductive WorkerAt where
  | unborn
  | look
  | parked
  | encode (k : Claim)
  | fail (e : String)
  | failWork
  | failMaster
  | gone
  deriving DecidableEq

/-- Where the calling thread stands: it starts the workers, runs `master`, and leaves it by
a return or by unwinding. Then it waits for the workers, and `closing` is the call of
`fw.close()`. -/
inductive MasterAt where
  | spawn (k : Nat)
  | rowGroup (g : Nat)
  | look (g c : Nat)
  | parked (g c : Nat)
  | append (g c : Nat) (ch : Chunk)
  | close (g : Nat)
  | fail (e : String)
  | failWork (e : String)
  | failMaster (e : String)
  | returned (r : Except String Unit)
  | unwound
  | closing
  | erred (e : String)
  | raised
  deriving DecidableEq

/-- The whole state. `file` and `cur` are the row groups in the file and the open one.
`sets` and `claims` are a record for the proofs: the row group of each call of
`get_column_writers`, and each claimed task with the writer it got. -/
structure St where
  q : Q
  ws : List WorkerAt
  m : MasterAt
  file : List (List Chunk)
  cur : List Chunk
  sets : List Nat
  claims : List (Nat × Option Writer)

/-- Every chunk that the master appended, in order. -/
def St.appended (s : St) : List Chunk := s.file.flatten ++ s.cur

/-- `write_table` builds no queue when there is no task, and goes on to `fw.close()`. -/
def start (p : Plan) : St where
  q := { next := 0, head := 0, wr := fun _ => none, done := fun _ => none, err := none }
  ws := List.replicate p.nthreads .unborn
  m := if 0 < p.ntasks then .spawn 0 else .closing
  file := []
  cur := []
  sets := []
  claims := []

/-! ## The actions -/

/-- How a call of the crates ends. -/
inductive Outcome where
  | ok
  | err (e : String)
  | panic
  deriving DecidableEq

/-- How `get_column_writers` ends: with `n` writers, or not. -/
inductive Made where
  | ok (n : Nat)
  | err (e : String)
  | panic
  deriving DecidableEq

inductive Act where
  | dispatch
  | spawn (ok : Bool)
  | look (j : Nat) (made : Made)
  | encoded (j : Nat) (r : Outcome)
  | fail (j : Nat)
  | spurious (j : Nat)
  | master (r : Outcome) (k : Option Nat)
  | masterSpurious
  | join
  deriving DecidableEq

/-- A wait that ends with no wake. -/
def Act.isSpurious : Act → Bool
  | .spurious _ | .masterSpurious => true
  | _ => false

/-- The condition variable `work`: a parked worker goes back to `look`. -/
def work : CondVar WorkerAt where
  parked w := w == .parked
  wake _ := .look
  wake_parked _ _ := rfl

/-- The condition variable `master`. Only the master waits there, so one wake and a wake of
all are the same. -/
def MasterAt.notify : MasterAt → MasterAt
  | .parked g c => .look g c
  | m => m

def St.setWorker (s : St) (j : Nat) (w : WorkerAt) : St := { s with ws := s.ws.set j w }

/-- `err.get_or_insert(e)`: the first error stays. -/
def St.recordErr (s : St) (e : String) : St :=
  { s with q := { s.q with err := some (s.q.err.getD e) } }

/-- The first column of a row group opens the writers of the row group. -/
def openWriters (p : Plan) (s : St) (n : Nat) : St :=
  let g := s.q.next / p.nc
  if s.q.next % p.nc = 0 then
    let v := (List.range n).map fun c => some { set := s.sets.length, col := c }
    { s with q := { s.q with wr := fun g' => if g' = g then some v else s.q.wr g' },
             sets := s.sets ++ [g] }
  else s

/-- `q.wr.get_mut(&g).and_then(|v| v.get_mut(c)?.take())`. -/
def writerAt (s : St) (g c : Nat) : Option Writer := (s.q.wr g).bind fun v => (v[c]?).join

/-- Where a worker goes with the writer it took, or with none. -/
def withWriter (i g c : Nat) : Option Writer → WorkerAt
  | some w => .encode ⟨i, g, c, w⟩
  | none => .fail "pq_write: writer lost"

/-- The end of a claim: take the writer, and drop the row group's writers with its last
column. -/
def takeTask (p : Plan) (s : St) (j : Nat) : St :=
  let i := s.q.next
  let g := i / p.nc
  let c := i % p.nc
  let w := writerAt s g c
  let left := if c + 1 = p.nc then none else (s.q.wr g).map (·.set c none)
  { s with q := { s.q with next := i + 1, wr := fun g' => if g' = g then left else s.q.wr g' },
           ws := s.ws.set j (withWriter i g c w),
           claims := s.claims ++ [(i, w)] }

/-- A worker takes the lock and looks for a task. -/
def lookStep (p : Plan) (s : St) (j : Nat) (made : Made) : St :=
  if s.q.err.isSome ∨ p.ntasks ≤ s.q.next then s.setWorker j .gone
  else if s.q.next < s.q.head + p.window then
    if s.q.next % p.nc = 0 then
      match made with
      | .ok n => takeTask p (openWriters p s n) j
      | .err e => s.setWorker j (.fail s!"pq_write: {e}")
      | .panic => s.setWorker j (.fail "pq_write: worker panic")
    else takeTask p s j
  else s.setWorker j .parked

/-- A worker ends the encoding of its claim. A finished chunk goes to `done` and wakes the
master, under one lock. -/
def encodedStep (p : Plan) (s : St) (j : Nat) (k : Claim) : Outcome → St
  | .ok =>
    { s with q := { s.q with done := fun i => if i = k.i then some (encodeOf p k) else s.q.done i },
             ws := s.ws.set j .look, m := s.m.notify }
  | .err e => s.setWorker j (.fail e)
  | .panic => s.setWorker j (.fail "pq_write: worker panic")

/-- The steps of `Shared::fail` in a worker: the error, then the two wakes. Then the worker
is done. -/
def failStep (s : St) (j : Nat) : Option St :=
  match s.ws[j]? with
  | some (.fail e) => some ((s.recordErr e).setWorker j .failWork)
  | some .failWork => some { s with ws := (notifyAll work s.ws).set j .failMaster }
  | some .failMaster => some { s with ws := s.ws.set j .gone, m := s.m.notify }
  | _ => none

/-- A call of the crates in `master`: an error goes through `stop`, a panic unwinds. -/
def crateCall (s : St) (r : Outcome) (ok : St) : St :=
  match r with
  | .ok => ok
  | .err e => { s with m := .fail s!"pq_write: {e}" }
  | .panic => { s with m := .unwound }

/-- The steps of `master`. `k` is the worker that `notify_one` wakes. -/
def masterStep (p : Plan) (s : St) (r : Outcome) (k : Option Nat) : Option St :=
  match s.m with
  | .rowGroup g =>
    if g < p.nrg then some (crateCall s r { s with m := .look g 0 })
    else some { s with ws := notifyAll work s.ws, m := .returned (.ok ()) }
  | .look g c =>
    let i := g * p.nc + c
    match s.q.done i with
    | some ch =>
      (notifyOne work s.ws k).map fun ws =>
        { s with q := { s.q with head := i + 1, done := fun i' => if i' = i then none else s.q.done i' },
                 ws, m := .append g c ch }
    | none =>
      match s.q.err with
      | some e => some { s with m := .returned (.error e) }
      | none => some { s with m := .parked g c }
  | .append g c ch =>
    some (crateCall s r { s with
      cur := s.cur ++ [ch], m := if c + 1 < p.nc then .look g (c + 1) else .close g })
  | .close g =>
    some (crateCall s r { s with file := s.file ++ [s.cur], cur := [], m := .rowGroup (g + 1) })
  | .fail e => some { s.recordErr e with m := .failWork e }
  | .failWork e => some { s with ws := notifyAll work s.ws, m := .failMaster e }
  | .failMaster e => some { s with m := .returned (.error e) }
  | _ => none

/-- The start of the workers: a parked pool takes the job as one, and fresh threads start one
by one. A failed spawn unwinds before `master` runs. -/
def spawnStep (p : Plan) (s : St) (ok : Bool) : Option St :=
  match s.m with
  | .spawn k =>
    if k < p.nthreads then
      if ok then some { s with ws := s.ws.set k .look, m := .spawn (k + 1) }
      else some { s with m := .unwound }
    else some { s with m := .rowGroup 0 }
  | _ => none

def dispatchStep (p : Plan) (s : St) : Option St :=
  if s.m = .spawn 0 then
    some { s with ws := List.replicate p.nthreads .look, m := .rowGroup 0 }
  else none

/-- No worker is still in the job. -/
def St.idle (s : St) : Bool := s.ws.all fun w => w == .gone || w == .unborn

/-- The end of `pool::run`: it waits for every worker, then gives `master`'s value back or
goes on unwinding. -/
def joinStep (s : St) : Option St :=
  if s.idle then
    match s.m with
    | .returned (.ok _) => some { s with m := .closing }
    | .returned (.error e) => some { s with m := .erred e }
    | .unwound => some { s with m := .raised }
    | _ => none
  else none

def step (p : Plan) (s : St) : Act → Option St
  | .dispatch => dispatchStep p s
  | .spawn ok => spawnStep p s ok
  | .look j made => if s.ws[j]? = some .look then some (lookStep p s j made) else none
  | .encoded j r =>
    match s.ws[j]? with
    | some (.encode k) => some (encodedStep p s j k r)
    | _ => none
  | .fail j => failStep s j
  | .spurious j => (spurious work s.ws j).map fun ws => { s with ws }
  | .master r k => masterStep p s r k
  | .masterSpurious =>
    match s.m with
    | .parked g c => some { s with m := .look g c }
    | _ => none
  | .join => joinStep s

/-- The queue as a system of states and actions. -/
def queue (p : Plan) : System St Act where
  init s := s = start p
  step := step p

/-! ## What a step can do -/

/-- The master is about to call the crates. -/
def MasterAt.callsCrate (p : Plan) : MasterAt → Bool
  | .rowGroup g => g < p.nrg
  | .append _ _ _ | .close _ => true
  | _ => false

/-- A worker at `look` that finds room for the next task. -/
structure Room (p : Plan) (s : St) (j : Nat) : Prop where
  at_look : s.ws[j]? = some .look
  no_err : s.q.err = none
  more : s.q.next < p.ntasks
  room : s.q.next < s.q.head + p.window

/-- Every way a step can change the state, with what it has checked. -/
inductive Moved (p : Plan) (s : St) : St → Prop
  | dispatch : s.m = .spawn 0 →
      Moved p s { s with ws := List.replicate p.nthreads .look, m := .rowGroup 0 }
  | spawn {k : Nat} : s.m = .spawn k → k < p.nthreads →
      Moved p s { s with ws := s.ws.set k .look, m := .spawn (k + 1) }
  | spawnFailed {k : Nat} : s.m = .spawn k → k < p.nthreads → Moved p s { s with m := .unwound }
  | spawned {k : Nat} : s.m = .spawn k → p.nthreads ≤ k → Moved p s { s with m := .rowGroup 0 }
  | gone {j : Nat} : s.ws[j]? = some .look → s.q.err.isSome ∨ p.ntasks ≤ s.q.next →
      Moved p s (s.setWorker j .gone)
  | park {j : Nat} : s.ws[j]? = some .look → s.q.err = none → s.q.next < p.ntasks →
      s.q.head + p.window ≤ s.q.next → Moved p s (s.setWorker j .parked)
  | claim {j : Nat} (n : Nat) : Room p s j → Moved p s (takeTask p (openWriters p s n) j)
  | noWriters {j : Nat} {e : String} : Room p s j → Moved p s (s.setWorker j (.fail e))
  | finish {j : Nat} {k : Claim} : s.ws[j]? = some (.encode k) →
      Moved p s (encodedStep p s j k .ok)
  | encodeFailed {j : Nat} {k : Claim} {e : String} : s.ws[j]? = some (.encode k) →
      Moved p s (s.setWorker j (.fail e))
  | failErr {j : Nat} {e : String} : s.ws[j]? = some (.fail e) →
      Moved p s ((s.recordErr e).setWorker j .failWork)
  | failWork {j : Nat} : s.ws[j]? = some .failWork →
      Moved p s { s with ws := (notifyAll work s.ws).set j .failMaster }
  | failMaster {j : Nat} : s.ws[j]? = some .failMaster →
      Moved p s { s with ws := s.ws.set j .gone, m := s.m.notify }
  | spurious {j : Nat} : s.ws[j]? = some .parked → Moved p s (s.setWorker j .look)
  | rowGroup {g : Nat} : s.m = .rowGroup g → g < p.nrg → Moved p s { s with m := .look g 0 }
  | lastWake {g : Nat} : s.m = .rowGroup g → p.nrg ≤ g →
      Moved p s { s with ws := notifyAll work s.ws, m := .returned (.ok ()) }
  | take {g c : Nat} {ch : Chunk} {k : Option Nat} {ws : List WorkerAt} : s.m = .look g c →
      s.q.done (g * p.nc + c) = some ch → notifyOne work s.ws k = some ws →
      Moved p s { s with
        q := { s.q with
          head := g * p.nc + c + 1,
          done := fun i => if i = g * p.nc + c then none else s.q.done i }
        ws, m := .append g c ch }
  | sawErr {g c : Nat} {e : String} : s.m = .look g c → s.q.done (g * p.nc + c) = none →
      s.q.err = some e → Moved p s { s with m := .returned (.error e) }
  | masterPark {g c : Nat} : s.m = .look g c → s.q.done (g * p.nc + c) = none →
      s.q.err = none → Moved p s { s with m := .parked g c }
  | append {g c : Nat} {ch : Chunk} : s.m = .append g c ch →
      Moved p s { s with cur := s.cur ++ [ch], m := if c + 1 < p.nc then .look g (c + 1) else .close g }
  | close {g : Nat} : s.m = .close g →
      Moved p s { s with file := s.file ++ [s.cur], cur := [], m := .rowGroup (g + 1) }
  | crateErr {e : String} : s.m.callsCrate p = true → Moved p s { s with m := .fail e }
  | cratePanic : s.m.callsCrate p = true → Moved p s { s with m := .unwound }
  | masterFail {e : String} : s.m = .fail e → Moved p s { s.recordErr e with m := .failWork e }
  | masterFailWork {e : String} : s.m = .failWork e →
      Moved p s { s with ws := notifyAll work s.ws, m := .failMaster e }
  | masterFailMaster {e : String} : s.m = .failMaster e →
      Moved p s { s with m := .returned (.error e) }
  | masterSpurious {g c : Nat} : s.m = .parked g c → Moved p s { s with m := .look g c }
  | joinOk {u : Unit} : s.idle = true → s.m = .returned (.ok u) → Moved p s { s with m := .closing }
  | joinErr {e : String} : s.idle = true → s.m = .returned (.error e) →
      Moved p s { s with m := .erred e }
  | joinRaised : s.idle = true → s.m = .unwound → Moved p s { s with m := .raised }

theorem openWriters_of_ne {p : Plan} {s : St} (n : Nat) (h : s.q.next % p.nc ≠ 0) :
    openWriters p s n = s := by
  simp [openWriters, h]

theorem lookStep_moved {p : Plan} {s : St} {j : Nat} (made : Made) (hj : s.ws[j]? = some .look) :
    Moved p s (lookStep p s j made) := by
  unfold lookStep
  split
  · rename_i h
    exact .gone hj h
  rename_i h
  simp only [not_or, Option.isSome_iff_ne_none, ne_eq, Decidable.not_not, Nat.not_le] at h
  split
  · rename_i hroom
    have hr : Room p s j := ⟨hj, h.1, h.2, hroom⟩
    split
    · cases made with
      | ok n => exact .claim n hr
      | err e => exact .noWriters hr
      | panic => exact .noWriters hr
    · rename_i hc
      have := Moved.claim 0 hr
      rwa [openWriters_of_ne 0 hc] at this
  · exact .park hj h.1 h.2 (by omega)

theorem crateCall_moved {p : Plan} {s ok : St} (r : Outcome) (h : s.m.callsCrate p = true)
    (hok : Moved p s ok) : Moved p s (crateCall s r ok) := by
  cases r with
  | ok => exact hok
  | err e => exact .crateErr h
  | panic => exact .cratePanic h

theorem masterStep_moved {p : Plan} {s t : St} {r : Outcome} {k : Option Nat}
    (h : masterStep p s r k = some t) : Moved p s t := by
  unfold masterStep at h
  split at h
  · rename_i g hm
    split at h
    · rename_i hg
      cases h
      exact crateCall_moved r (by simp [hm, MasterAt.callsCrate, hg]) (.rowGroup hm hg)
    · cases h
      exact .lastWake hm (by omega)
  · rename_i g c hm
    simp only at h
    split at h
    · rename_i ch hch
      simp only [Option.map_eq_some_iff] at h
      obtain ⟨ws, hws, rfl⟩ := h
      exact .take hm hch hws
    · rename_i hd
      split at h
      · rename_i e he
        cases h
        exact .sawErr hm hd he
      · rename_i he
        cases h
        exact .masterPark hm hd he
  · rename_i g c ch hm
    cases h
    exact crateCall_moved r (by simp [hm, MasterAt.callsCrate]) (.append hm)
  · rename_i g hm
    cases h
    exact crateCall_moved r (by simp [hm, MasterAt.callsCrate]) (.close hm)
  · rename_i e hm
    cases h
    exact .masterFail hm
  · rename_i e hm
    cases h
    exact .masterFailWork hm
  · rename_i e hm
    cases h
    exact .masterFailMaster hm
  · cases h

theorem spawnStep_moved {p : Plan} {s t : St} {ok : Bool} (h : spawnStep p s ok = some t) :
    Moved p s t := by
  unfold spawnStep at h
  split at h
  · rename_i k hm
    split at h
    · rename_i hk
      split at h
      · cases h
        exact .spawn hm hk
      · cases h
        exact .spawnFailed hm hk
    · cases h
      exact .spawned hm (by omega)
  · cases h

theorem joinStep_moved {p : Plan} {s t : St} (h : joinStep s = some t) : Moved p s t := by
  unfold joinStep at h
  split at h
  · rename_i hi
    split at h
    · rename_i hm
      cases h
      exact .joinOk hi hm
    · rename_i hm
      cases h
      exact .joinErr hi hm
    · rename_i hm
      cases h
      exact .joinRaised hi hm
    · cases h
  · cases h

theorem failStep_moved {p : Plan} {s t : St} {j : Nat} (h : failStep s j = some t) :
    Moved p s t := by
  unfold failStep at h
  split at h
  · rename_i hj
    cases h
    exact .failErr hj
  · rename_i hj
    cases h
    exact .failWork hj
  · rename_i hj
    cases h
    exact .failMaster hj
  · cases h

/-- A step is one of the moves. Every invariant below is a case analysis on them. -/
theorem step_moved {p : Plan} {s t : St} {a : Act} (h : step p s a = some t) : Moved p s t := by
  cases a with
  | dispatch =>
    simp only [step, dispatchStep] at h
    split at h
    · rename_i hm
      cases h
      exact .dispatch hm
    · cases h
  | spawn ok => exact spawnStep_moved h
  | look j made =>
    simp only [step] at h
    split at h
    · rename_i hj
      cases h
      exact lookStep_moved made hj
    · cases h
  | encoded j r =>
    simp only [step] at h
    split at h
    · rename_i k hj
      cases h
      cases r with
      | ok => exact .finish hj
      | err e => exact .encodeFailed hj
      | panic => exact .encodeFailed hj
    · cases h
  | fail j => exact failStep_moved h
  | spurious j =>
    simp only [step, spurious, notifyOne, Option.map_eq_some_iff] at h
    obtain ⟨ws, hws, rfl⟩ := h
    split at hws
    · rename_i w hw
      split at hws
      · rename_i hp
        cases hws
        simp only [work, beq_iff_eq] at hp
        exact .spurious (hp ▸ hw)
      · cases hws
    · cases hws
  | master r k => exact masterStep_moved h
  | masterSpurious =>
    simp only [step] at h
    split at h
    · rename_i hm
      cases h
      exact .masterSpurious hm
    · cases h
  | join => exact joinStep_moved h

end parquet_interop.write_queue
