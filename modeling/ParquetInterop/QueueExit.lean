-- The exits of the calling thread. A return from `master` sets the error or
-- leaves no task, and wakes every worker, so the wait for them ends. A thread
-- that unwinds does neither, and a worker that is parked stays parked.
import ParquetInterop.QueueWake

open lib.runs lib.parking

namespace parquet_interop.write_queue

/-! ## The work that is left -/

/-- How many steps a worker can take before it is gone, when nobody claims a task. -/
def WorkerAt.weight : WorkerAt → Nat
  | .parked | .encode _ => 6
  | .look => 5
  | .fail _ => 4
  | .failWork => 3
  | .failMaster => 2
  | .gone | .unborn => 0

/-- The wait for the workers is over. -/
def MasterAt.joined : MasterAt → Bool
  | .closing | .erred _ | .raised => true
  | _ => false

def totalWeight (ws : List WorkerAt) : Nat := (ws.map WorkerAt.weight).sum

def MasterAt.weight (m : MasterAt) : Nat := if m.joined then 0 else 1

/-- A bound on the steps that are left once the calling thread is out of `master`. -/
def stepsLeft (p : Plan) (s : St) : Nat :=
  totalWeight s.ws + 8 * (p.ntasks - s.q.next) + s.m.weight

theorem totalWeight_set {ws : List WorkerAt} {j : Nat} {v : WorkerAt} (u : WorkerAt)
    (h : ws[j]? = some v) : totalWeight (ws.set j u) + v.weight = totalWeight ws + u.weight :=
  total_set WorkerAt.weight u h

theorem totalWeight_notifyAll (ws : List WorkerAt) :
    totalWeight (notifyAll work ws) ≤ totalWeight ws := by
  apply total_notifyAll_le
  intro w hw
  obtain rfl : w = .parked := by simpa [work] using hw
  decide

theorem notify_of_left {m : MasterAt} (h : m.left = true) : m.notify = m := by
  cases m with
  | parked g c => cases h
  | _ => rfl

/-! ## Nobody waits for a wake -/

/-- No worker will ever need a wake of the calling thread: the error is set, or the window
covers the tasks that are left and nobody is parked, or no worker was started. -/
def Settled (p : Plan) (s : St) : Prop :=
  s.q.err.isSome ∨ (.parked ∉ s.ws ∧ p.ntasks ≤ s.q.head + p.window) ∨ ∀ w ∈ s.ws, w = .unborn

/-- The calling thread is out of `master` and nobody needs it. -/
structure Home (p : Plan) (s : St) : Prop where
  left : s.m.left = true
  settled : Settled p s

theorem settled_turn {p : Plan} {s t : St} {j : Nat} {v u : WorkerAt} (h : Settled p s)
    (hv : s.ws[j]? = some v) (hne : v ≠ .unborn) (hu : u ≠ .parked)
    (hws : t.ws = s.ws.set j u) (herr : t.q.err = s.q.err) (hhead : t.q.head = s.q.head) :
    Settled p t := by
  unfold Settled
  rw [hws, herr, hhead]
  rcases h with he | ⟨hp, hn⟩ | hun
  · exact Or.inl he
  · refine Or.inr (Or.inl ⟨fun hm => ?_, hn⟩)
    exact hp ((turned_set u hv).was hm hu.symm)
  · exact absurd (hun v (List.mem_of_getElem? hv)) hne

/-- A worker that turns to a place of less weight brings the end nearer. -/
theorem home_setWorker {p : Plan} {s : St} {j : Nat} {v u : WorkerAt} (h : Home p s)
    (hv : s.ws[j]? = some v) (hne : v ≠ .unborn) (hu : u ≠ .parked) (hlt : u.weight < v.weight) :
    Home p (s.setWorker j u) ∧ stepsLeft p (s.setWorker j u) < stepsLeft p s := by
  refine ⟨⟨h.left, settled_turn h.settled hv hne hu rfl rfl rfl⟩, ?_⟩
  have hw := totalWeight_set u hv
  simp only [stepsLeft, St.setWorker]
  omega

theorem home_claim {p : Plan} {s : St} {j : Nat} (n : Nat) (h : Home p s) (hr : Room p s j) :
    Home p (takeTask p (openWriters p s n) j) ∧
      stepsLeft p (takeTask p (openWriters p s n) j) < stepsLeft p s := by
  obtain ⟨_, h2, _, _, _, h6, h7, _, h9⟩ := openWriters_fields p s n
  obtain ⟨w, hws, hcase⟩ := claim_turns p s j n
  have hm : (takeTask p (openWriters p s n) j).m = s.m := h2
  have hne : w ≠ .parked ∧ w.weight ≤ 6 := by
    rcases hcase with ⟨k, rfl, _⟩ | ⟨e, rfl⟩ <;> simp [WorkerAt.weight]
  refine ⟨⟨hm ▸ h.left, settled_turn h.settled hr.at_look (by simp) hne.1 hws h9 h7⟩, ?_⟩
  have hw := totalWeight_set w hr.at_look
  have hmore := hr.more
  have hle := hne.2
  have hlook : WorkerAt.look.weight = 5 := rfl
  have hnext : (takeTask p (openWriters p s n) j).q.next = s.q.next + 1 := by
    simp only [takeTask, h6]
  simp only [stepsLeft, hws, hm, hnext]
  omega

theorem home_failWork {p : Plan} {s : St} {j : Nat} (ha : Alive p s) (h : Home p s)
    (hj : s.ws[j]? = some .failWork) :
    Home p { s with ws := (notifyAll work s.ws).set j .failMaster } ∧
      stepsLeft p { s with ws := (notifyAll work s.ws).set j .failMaster } < stepsLeft p s := by
  have herr := ha.woken (Or.inl (List.mem_of_getElem? hj))
  refine ⟨⟨h.left, Or.inl herr⟩, ?_⟩
  have hj' : (notifyAll work s.ws)[j]? = some .failWork := by
    rw [notifyAll_getElem?, hj]
    rfl
  have hw := totalWeight_set .failMaster hj'
  have hle := totalWeight_notifyAll s.ws
  have h3 : WorkerAt.failWork.weight = 3 := rfl
  have h2 : WorkerAt.failMaster.weight = 2 := rfl
  simp only [stepsLeft]
  omega

/-- Once the calling thread is out of `master`, every step of the workers and the join itself
brings the end nearer, a spurious wake too. -/
theorem home_moved {p : Plan} {s t : St} (ha : Alive p s) (h : Home p s) (hm : Moved p s t) :
    Home p t ∧ stepsLeft p t < stepsLeft p s := by
  have hleft := h.left
  cases hm with
  | gone hj _ => exact home_setWorker h hj (by simp) (by simp) (by decide)
  | park hj hnone hmore hfull =>
    -- A settled queue gives nobody a reason to park.
    rcases h.settled with he | ⟨_, hn⟩ | hun
    · rw [hnone] at he
      cases he
    · omega
    · cases hun _ (List.mem_of_getElem? hj)
  | claim n hr => exact home_claim n h hr
  | noWriters hr => exact home_setWorker h hr.at_look (by simp) (by simp) (by simp [WorkerAt.weight])
  | @finish j k hj =>
    have hset := home_setWorker h hj (by simp) (u := .look) (by simp) (by simp [WorkerAt.weight])
    have hnot := notify_of_left hleft
    refine ⟨⟨?_, hset.1.settled⟩, ?_⟩
    · simp only [encodedStep, hnot]
      exact hleft
    · simp only [stepsLeft, encodedStep, hnot]
      exact hset.2
  | encodeFailed hj => exact home_setWorker h hj (by simp) (by simp) (by simp [WorkerAt.weight])
  | @failErr j e hj =>
    have hset := home_setWorker h hj (by simp) (u := .failWork) (by simp) (by simp [WorkerAt.weight])
    exact ⟨⟨hleft, Or.inl (recordErr_isSome s e)⟩, hset.2⟩
  | failWork hj => exact home_failWork ha h hj
  | @failMaster j hj =>
    have hset := home_setWorker h hj (by simp) (u := .gone) (by simp) (by simp [WorkerAt.weight])
    have hnot := notify_of_left hleft
    refine ⟨⟨?_, hset.1.settled⟩, ?_⟩
    · simp only [hnot]
      exact hleft
    · simp only [stepsLeft, hnot]
      exact hset.2
  | spurious hj => exact home_setWorker h hj (by simp) (by simp) (by decide)
  | joinOk _ hs => exact ⟨⟨rfl, h.settled⟩, by simp [stepsLeft, MasterAt.weight, MasterAt.joined, hs]⟩
  | joinErr _ hs => exact ⟨⟨rfl, h.settled⟩, by simp [stepsLeft, MasterAt.weight, MasterAt.joined, hs]⟩
  | joinRaised _ hs => exact ⟨⟨rfl, h.settled⟩, by simp [stepsLeft, MasterAt.weight, MasterAt.joined, hs]⟩
  | crateErr hs => cases hsm : s.m <;> simp_all [MasterAt.callsCrate, MasterAt.left]
  | cratePanic hs => cases hsm : s.m <;> simp_all [MasterAt.callsCrate, MasterAt.left]
  | dispatch hs | spawn hs _ | spawnFailed hs _ | spawned hs _ | rowGroup hs _ | lastWake hs _
  | take hs _ _ | sawErr hs _ _ | masterPark hs _ _ | append hs | close hs | masterFail hs
  | masterFailWork hs | masterFailMaster hs | masterSpurious hs =>
    rw [hs] at hleft
    cases hleft

/-- A settled queue that no step but a spurious wake moves is over: no worker is in the job,
and the wait for them has ended. -/
theorem home_stuck {p : Plan} {s : St} (ha : Alive p s) (h : Home p s)
    (hstuck : ∀ a t, step p s a = some t → a.isSpurious = true) :
    s.m.joined = true ∧ ∀ w ∈ s.ws, w = .gone ∨ w = .unborn := by
  have hnone : ¬SomeActive s := by
    intro hact
    obtain ⟨a, t, hns, hst⟩ := active_steps (p := p) hact
    rw [hstuck a t hst] at hns
    cases hns
  have hparked : .parked ∉ s.ws := by
    intro hp
    rcases h.settled with he | ⟨hnp, _⟩ | hun
    · rcases ha.err_wakes he hp with hw | hf
      · exact hnone ⟨_, hw, rfl⟩
      · have hleft := h.left
        cases hsm : s.m <;> simp_all [MasterAt.failing, MasterAt.left]
    · exact hnp hp
    · cases hun _ hp
  have hhome : ∀ w ∈ s.ws, w = .gone ∨ w = .unborn := by
    intro w hw
    cases w with
    | gone => exact Or.inl rfl
    | unborn => exact Or.inr rfl
    | parked => exact absurd hw hparked
    | _ => exact absurd ⟨_, hw, rfl⟩ hnone
  refine ⟨?_, hhome⟩
  have hidle : s.idle = true := by
    simp only [St.idle, List.all_eq_true, Bool.or_eq_true, beq_iff_eq]
    exact hhome
  have hjoin : joinStep s = none := by
    cases hj : joinStep s with
    | none => rfl
    | some t => cases hstuck .join t hj
  have hleft := h.left
  simp only [joinStep, hidle, if_true] at hjoin
  cases hm : s.m <;> simp_all [MasterAt.left, MasterAt.joined]
  rename_i r
  cases r <;> simp_all

/-! ## The ways out -/

/-- The action makes the calling thread unwind: a start of a worker that fails, or a panic in
a call of the crates. -/
def unwinds (p : Plan) (s : St) : Act → Prop
  | .spawn false => ∃ k, s.m = .spawn k ∧ k < p.nthreads
  | .master .panic _ => s.m.callsCrate p = true
  | _ => False

/-- The calling thread unwinds only from a settled queue. -/
def SettledUnwind (p : Plan) (s : St) (a : Act) : Prop := unwinds p s a → Settled p s

theorem crateCall_unwound {p : Plan} {s ok : St} {r : Outcome} {k : Option Nat}
    (hc : s.m.callsCrate p = true) (hok : ok.m ≠ .unwound)
    (h : (crateCall s r ok).m = .unwound) : unwinds p s (.master r k) := by
  cases r with
  | ok => exact absurd h hok
  | err e => cases h
  | panic => exact hc

theorem notify_unwound {m : MasterAt} : m.notify = .unwound ↔ m = .unwound := by
  cases m <;> simp [MasterAt.notify]

theorem lookStep_m (p : Plan) (s : St) (j : Nat) (made : Made) :
    (lookStep p s j made).m = s.m := by
  unfold lookStep
  split
  · rfl
  · split
    · split
      · cases made with
        | ok n => exact (openWriters_fields p s n).2.1
        | _ => rfl
      · rfl
    · rfl

theorem masterStep_unwinds {p : Plan} {s t : St} {r : Outcome} {k : Option Nat}
    (h : masterStep p s r k = some t) (ht : t.m = .unwound) : unwinds p s (.master r k) := by
  unfold masterStep at h
  split at h
  · rename_i g hm
    split at h
    · rename_i hg
      cases h
      exact crateCall_unwound (by simp [hm, MasterAt.callsCrate, hg]) (by simp) ht
    · cases h
      cases ht
  · dsimp only at h
    split at h
    · simp only [Option.map_eq_some_iff] at h
      obtain ⟨ws, _, rfl⟩ := h
      cases ht
    · split at h <;> cases h <;> cases ht
  · rename_i g c ch hm
    cases h
    refine crateCall_unwound (by simp [hm, MasterAt.callsCrate]) ?_ ht
    dsimp only
    split <;> simp
  · rename_i g hm
    cases h
    exact crateCall_unwound (by simp [hm, MasterAt.callsCrate]) (by simp) ht
  · cases h
    cases ht
  · cases h
    cases ht
  · cases h
    cases ht
  · cases h

/-- The calling thread comes to unwind by no other action. -/
theorem step_unwinds {p : Plan} {s t : St} {a : Act} (h : step p s a = some t)
    (hs : s.m ≠ .unwound) (ht : t.m = .unwound) : unwinds p s a := by
  cases a with
  | dispatch =>
    simp only [step, dispatchStep] at h
    split at h <;> cases h
    cases ht
  | spawn ok =>
    simp only [step, spawnStep] at h
    split at h
    · rename_i k hk
      split at h
      · rename_i hlt
        cases ok with
        | true =>
          cases h
          cases ht
        | false => exact ⟨k, hk, hlt⟩
      · cases h
        cases ht
    · cases h
  | look j made =>
    simp only [step] at h
    split at h
    · cases h
      exact absurd ((lookStep_m p s j made).symm.trans ht) hs
    · cases h
  | encoded j r =>
    simp only [step] at h
    split at h
    · cases h
      cases r with
      | ok => exact absurd (notify_unwound.mp ht) hs
      | err e => exact absurd ht hs
      | panic => exact absurd ht hs
    · cases h
  | fail j =>
    simp only [step, failStep] at h
    split at h
    · cases h
      exact absurd ht hs
    · cases h
      exact absurd ht hs
    · cases h
      exact absurd (notify_unwound.mp ht) hs
    · cases h
  | spurious j =>
    simp only [step, Option.map_eq_some_iff] at h
    obtain ⟨ws, _, rfl⟩ := h
    exact absurd ht hs
  | master r k => exact masterStep_unwinds h ht
  | masterSpurious =>
    simp only [step] at h
    split at h <;> cases h
    cases ht
  | join =>
    simp only [step, joinStep] at h
    split at h
    · split at h <;> cases h <;> cases ht
    · cases h

/-- On its way out by an error, the master has set it, and once it is out the queue is
settled. -/
structure Exits (p : Plan) (s : St) : Prop where
  failing : ∀ e, s.m = .failWork e ∨ s.m = .failMaster e → s.q.err.isSome
  settled : s.m.left = true → Settled p s

/-- A move that leaves the place of the calling thread, or wakes it, and keeps an error. -/
theorem exits_notify {p : Plan} {s t : St} (h : Exits p s) (hleft : s.m.left = false)
    (hm : t.m = s.m ∨ t.m = s.m.notify) (herr : s.q.err.isSome → t.q.err.isSome) : Exits p t := by
  have hcase : ∀ e, (t.m = .failWork e → s.m = .failWork e) ∧ (t.m = .failMaster e → s.m = .failMaster e) := by
    intro e
    rcases hm with hm | hm <;> rw [hm]
    · exact ⟨id, id⟩
    · cases s.m <;> simp [MasterAt.notify]
  constructor
  · rintro e (he | he)
    · exact herr (h.failing e (Or.inl ((hcase e).1 he)))
    · exact herr (h.failing e (Or.inr ((hcase e).2 he)))
  · intro hl
    have : t.m.left = s.m.left := by
      rcases hm with hm | hm <;> rw [hm]
      exact notify_left s.m
    rw [this, hleft] at hl
    cases hl

theorem exits_moved {p : Plan} {s t : St} (hg : Good p s) (h : Exits p s)
    (hleft : s.m.left = false) (hunw : t.m = .unwound → Settled p s) (hm : Moved p s t) :
    Exits p t := by
  have hplace := hg.place
  cases hm with
  | dispatch hs => exact ⟨by simp, by simp [MasterAt.left]⟩
  | spawn hs hk => exact ⟨by simp, by simp [MasterAt.left]⟩
  | spawnFailed hs hk => exact ⟨by simp, fun _ => hunw rfl⟩
  | spawned hs hk => exact ⟨by simp, by simp [MasterAt.left]⟩
  | gone hj _ => exact exits_notify h hleft (Or.inl rfl) id
  | park hj _ _ _ => exact exits_notify h hleft (Or.inl rfl) id
  | claim n hr =>
    obtain ⟨_, h2, _, _, _, _, _, _, h9⟩ := openWriters_fields p s n
    refine exits_notify h hleft (Or.inl h2) ?_
    simp only [takeTask, h9]
    exact id
  | noWriters hr => exact exits_notify h hleft (Or.inl rfl) id
  | finish hj => exact exits_notify h hleft (Or.inr rfl) id
  | encodeFailed hj => exact exits_notify h hleft (Or.inl rfl) id
  | failErr hj => exact exits_notify h hleft (Or.inl rfl) fun _ => rfl
  | failWork hj => exact exits_notify h hleft (Or.inl rfl) id
  | failMaster hj => exact exits_notify h hleft (Or.inr rfl) id
  | spurious hj => exact exits_notify h hleft (Or.inl rfl) id
  | rowGroup hs hlt => exact ⟨by simp, by simp [MasterAt.left]⟩
  | lastWake hs hle =>
    -- Every task is consumed and nobody is parked.
    rw [hs] at hplace
    obtain ⟨hhead, hgr, _⟩ := hplace
    obtain rfl := Nat.le_antisymm hgr hle
    refine ⟨by simp, fun _ => Or.inr (Or.inl ⟨parked_notifyAll s.ws, ?_⟩)⟩
    show p.ntasks ≤ s.q.head + p.window
    rw [hhead, ← ntasks_eq]
    exact Nat.le_add_right _ _
  | take hs _ _ => exact ⟨by simp, by simp [MasterAt.left]⟩
  | @sawErr g c e hs hd he =>
    refine ⟨by simp, fun _ => Or.inl ?_⟩
    show s.q.err.isSome = true
    rw [he]
    rfl
  | masterPark hs hd hnone => exact ⟨by simp, by simp [MasterAt.left]⟩
  | append hs => constructor <;> dsimp only <;> split <;> simp [MasterAt.left]
  | close hs => exact ⟨by simp, by simp [MasterAt.left]⟩
  | crateErr hs => exact ⟨by simp, by simp [MasterAt.left]⟩
  | cratePanic hs => exact ⟨by simp, fun _ => hunw rfl⟩
  | @masterFail e hs => exact ⟨fun _ _ => recordErr_isSome s e, by simp [MasterAt.left]⟩
  | @masterFailWork e hs =>
    exact ⟨fun _ _ => h.failing e (Or.inl hs), by simp [MasterAt.left]⟩
  | @masterFailMaster e hs =>
    exact ⟨by simp, fun _ => Or.inl (h.failing e (Or.inr hs))⟩
  | masterSpurious hs => exact ⟨by simp, by simp [MasterAt.left]⟩
  | joinOk _ hs | joinErr _ hs | joinRaised _ hs =>
    rw [hs] at hleft
    cases hleft

theorem exits_start (p : Plan) : Exits p (start p) := by
  constructor
  · intro e he
    simp only [start] at he
    split at he <;> simp at he
  · exact fun _ => Or.inr (Or.inr fun w hw => List.eq_of_mem_replicate hw)

theorem left_failing {m : MasterAt} (h : m.left = true) (e : String) :
    ¬(m = .failWork e ∨ m = .failMaster e) := by
  rintro (rfl | rfl) <;> cases h

theorem exits_reach {p : Plan} {s : St} (h : Reach (queue p) (SettledUnwind p) s) : Exits p s := by
  refine h.invariant (fun _ h0 => h0 ▸ exits_start p) ?_
  intro s a t hr hx hok hst
  have hreach := hr.reachable
  cases hl : s.m.left with
  | true =>
    obtain ⟨hhome, _⟩ := home_moved (alive_reachable hreach) ⟨hl, hx.settled hl⟩ (step_moved hst)
    exact ⟨fun e he => absurd he (left_failing hhome.left e), fun _ => hhome.settled⟩
  | false =>
    refine exits_moved (good_reachable hreach) hx hl (fun ht => hok (step_unwinds hst ?_ ht)) (step_moved hst)
    intro hs
    rw [hs] at hl
    cases hl

/-! ## The laws -/

/-- From `s` on every worker comes home and the wait for them ends: there is a bound on the
steps that are left, and a run that nothing but a spurious wake can prolong is past the wait,
with no worker in the job. -/
def Released (p : Plan) (s : St) : Prop :=
  (∃ n, ∀ as t, exec (queue p) s as = some t → as.length ≤ n) ∧
    ∀ as t, exec (queue p) s as = some t → (∀ a u, step p t a = some u → a.isSpurious = true) →
      t.m.joined = true ∧ ∀ w ∈ t.ws, w = .gone ∨ w = .unborn

theorem home_released {p : Plan} {s : St} (hr : Reachable (queue p) s) (h : Home p s) :
    Released p s := by
  have hstep : ∀ s a t, Reachable (queue p) s ∧ Home p s → (queue p).step s a = some t →
      (Reachable (queue p) t ∧ Home p t) ∧ stepsLeft p t < stepsLeft p s := by
    intro s a t hs hst
    obtain ⟨hhome, hlt⟩ := home_moved (alive_reachable hs.1) hs.2 (step_moved hst)
    exact ⟨⟨.next hs.1 trivial hst, hhome⟩, hlt⟩
  constructor
  · refine ⟨stepsLeft p s, fun as t he => ?_⟩
    have := exec_length_le hstep ⟨hr, h⟩ he
    omega
  · intro as t he hstuck
    obtain ⟨hrt, hht⟩ := exec_invariant (fun s a t hs hst => (hstep s a t hs hst).1) ⟨hr, h⟩ he
    exact home_stuck (alive_reachable hrt) hht hstuck

/-- In every run in which the calling thread unwinds only from a settled queue, every way out
of `master` releases the workers: the return of `Ok`, the return of a recorded error or of an
error of the crates, and the unwinding. -/
theorem an_exit_from_a_settled_queue_releases_the_workers (p : Plan) (s : St)
    (h : Reach (queue p) (SettledUnwind p) s) (hl : s.m.left = true) : Released p s :=
  home_released h.reachable ⟨hl, (exits_reach h).settled hl⟩

/-- The window of `smallPlan` covers the table, so even a panic releases the worker. -/
theorem a_panic_over_a_free_window_releases_the_worker :
    ∃ s, exec (queue smallPlan) (start smallPlan) [.dispatch, .master .panic none] = some s ∧
      s.m = .unwound ∧ Released smallPlan s := by
  refine ⟨_, rfl, rfl, ?_⟩
  refine an_exit_from_a_settled_queue_releases_the_workers smallPlan _ ?_ rfl
  have hstart : Reach (queue smallPlan) (SettledUnwind smallPlan) (start smallPlan) := .start rfl
  refine .next (.next hstart (a := .dispatch) (fun hu => hu.elim) rfl) (a := .master .panic none) ?_ rfl
  exact fun _ => Or.inr (Or.inl ⟨by decide, by decide⟩)

/-- One column of three rows, one row to a row group, one worker: two chunks may wait. -/
def widePlan : Plan :=
  ⟨1, 3, 1, windowOf 1 1 1 3 8, 1, Nat.one_pos, by decide, Nat.one_pos, smallPlan.no_column⟩

/-- The worker encodes two chunks and parks, and then the call that opens the first row group
panics. -/
def panicRun : List Act :=
  [.dispatch, .look 0 (.ok 1), .encoded 0 .ok, .look 0 (.ok 1), .encoded 0 .ok, .look 0 (.ok 1),
    .master .panic none]

/-- The workers of `panicRun` wait for good: the worker is parked, no error is set, and only a
spurious wake can move anything. -/
theorem a_panic_with_a_parked_worker_hangs :
    ¬ ∀ (p : Plan) (s : St), Reachable (queue p) s → s.m.left = true → Released p s := by
  intro hall
  obtain ⟨s, hs, hws, hm, herr⟩ : ∃ s, exec (queue widePlan) (start widePlan) panicRun = some s ∧
      s.ws = [.parked] ∧ s.m = .unwound ∧ s.q.err = none := ⟨_, rfl, rfl, rfl, rfl⟩
  have hreach : Reachable (queue widePlan) s := Reachable.exec (.start rfl) panicRun hs
  have hstuck : ∀ a t, step widePlan s a = some t → a.isSpurious = true := by
    intro a t h
    have hlook : ∀ (j : Nat) (w : WorkerAt), s.ws[j]? = some w → w = .parked := by
      intro j w hw
      rw [hws] at hw
      simpa using List.mem_of_getElem? hw
    cases a with
    | dispatch => simp [step, dispatchStep, hm] at h
    | spawn ok => simp [step, spawnStep, hm] at h
    | look j made =>
      simp only [step] at h
      split at h
      · rename_i hj
        cases hlook j _ hj
      · cases h
    | encoded j r =>
      simp only [step] at h
      split at h
      · rename_i hj
        cases hlook j _ hj
      · cases h
    | fail j =>
      simp only [step, failStep] at h
      split at h
      · rename_i hj
        cases hlook j _ hj
      · rename_i hj
        cases hlook j _ hj
      · rename_i hj
        cases hlook j _ hj
      · cases h
    | spurious j => rfl
    | master r k => simp [step, masterStep, hm] at h
    | masterSpurious => rfl
    | join => simp [step, joinStep, St.idle, hws] at h
  have hrel := (hall widePlan s hreach (by rw [hm]; rfl)).2 [] s rfl hstuck
  rw [hm] at hrel
  cases hrel.1

end parquet_interop.write_queue
