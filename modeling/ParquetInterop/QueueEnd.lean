-- The end of every run of the write queue. A measure falls with every step that
-- is no spurious wake, so a run is bounded; and a run in which no call fails
-- ends with every chunk in the file.
import ParquetInterop.QueueExit

open lib.runs lib.parking

namespace parquet_interop.write_queue

/-! ## The measure -/

/-- The steps that a worker can take, beside its claims, among `n` workers. A failure pays for the
workers that it wakes, and a finished chunk for the master. -/
def WorkerAt.cost (n : Nat) : WorkerAt → Nat
  | .gone => 0
  | .failMaster => 2
  | .failWork => n + 3
  | .fail _ => n + 4
  | .parked => n + 5
  | .look => n + 6
  | .unborn => n + 7
  | .encode _ => n + 8

/-- The tasks and row groups that are left from task `i` of row group `g` on. -/
def Plan.ahead (p : Plan) (g i : Nat) : Nat := 5 * (p.ntasks - i) + 2 * (p.nrg - g)

/-- The steps that the calling thread can take. -/
def MasterAt.cost (p : Plan) : MasterAt → Nat
  | .spawn k => p.ahead 0 0 + (p.nthreads - k) + p.nthreads + 10
  | .rowGroup g => p.ahead g (g * p.nc) + p.nthreads + 9
  | .look g c => p.ahead g (g * p.nc + c) + p.nthreads + 8
  | .parked g c => p.ahead g (g * p.nc + c) + p.nthreads + 7
  | .append g c _ => p.ahead g (g * p.nc + c) + p.nthreads + 5
  | .close g => p.ahead g (g * p.nc + p.nc) + p.nthreads + 8
  | .fail _ => p.nthreads + 4
  | .failWork _ => p.nthreads + 3
  | .failMaster _ => 2
  | .returned _ | .unwound => 1
  | .closing | .erred _ | .raised => 0

def cost (p : Plan) (s : St) : Nat :=
  (s.ws.map (WorkerAt.cost p.nthreads)).sum + 3 * (p.ntasks - s.q.next) + s.m.cost p

section
variable {p : Plan} {s t : St}

theorem cost_set {ws : List WorkerAt} {j : Nat} {v : WorkerAt} (n : Nat) (u : WorkerAt)
    (h : ws[j]? = some v) : ((ws.set j u).map (WorkerAt.cost n)).sum + v.cost n =
      (ws.map (WorkerAt.cost n)).sum + u.cost n :=
  total_set (WorkerAt.cost n) u h

/-- A wake of all costs one for each worker. -/
theorem cost_notifyAll (n : Nat) (ws : List WorkerAt) :
    ((notifyAll work ws).map (WorkerAt.cost n)).sum ≤ (ws.map (WorkerAt.cost n)).sum + ws.length := by
  induction ws with
  | nil => exact Nat.le_refl _
  | cons w ws ih =>
    have hw : (if work.parked w then work.wake w else w).cost n ≤ w.cost n + 1 := by
      cases w <;> simp [work, WorkerAt.cost]
    simp only [notifyAll, List.map_cons, List.sum_cons, List.length_cons] at ih ⊢
    omega

theorem cost_notifyOne {ws us : List WorkerAt} {k : Option Nat} (n : Nat)
    (h : notifyOne work ws k = some us) :
    (us.map (WorkerAt.cost n)).sum ≤ (ws.map (WorkerAt.cost n)).sum + 1 := by
  rcases notifyOne_cases work h with ⟨rfl, _⟩ | ⟨j, w, hw, hp, rfl⟩
  · omega
  · obtain rfl : w = .parked := by simpa [work] using hp
    have hset := cost_set n (work.wake .parked) hw
    simp only [work, WorkerAt.cost] at hset ⊢
    omega

/-- A wake of the master costs one. -/
theorem cost_notify (p : Plan) (m : MasterAt) : m.notify.cost p ≤ m.cost p + 1 := by
  cases m <;> simp [MasterAt.notify, MasterAt.cost]

theorem cost_setWorker {j : Nat} {v u : WorkerAt} (hv : s.ws[j]? = some v)
    (hlt : u.cost p.nthreads < v.cost p.nthreads) : cost p (s.setWorker j u) < cost p s := by
  have hset := cost_set p.nthreads u hv
  simp only [cost, St.setWorker]
  omega

theorem cost_claim {j : Nat} (n : Nat) (hr : Room p s j) :
    cost p (takeTask p (openWriters p s n) j) < cost p s := by
  obtain ⟨_, h2, _, _, _, h6, _, _, _⟩ := openWriters_fields p s n
  obtain ⟨w, hws, hcase⟩ := claim_turns p s j n
  have hm : (takeTask p (openWriters p s n) j).m = s.m := h2
  have hnext : (takeTask p (openWriters p s n) j).q.next = s.q.next + 1 := by
    simp only [takeTask, h6]
  have hle : w.cost p.nthreads ≤ p.nthreads + 8 := by
    rcases hcase with ⟨k, rfl, _⟩ | ⟨e, rfl⟩ <;> simp [WorkerAt.cost]
  have hset := cost_set p.nthreads w hr.at_look
  have hmore := hr.more
  have hlook : WorkerAt.look.cost p.nthreads = p.nthreads + 6 := rfl
  simp only [cost, hws, hm, hnext]
  omega

/-- The calling thread alone goes on. -/
theorem cost_master {m : MasterAt} (hm : m.cost p < s.m.cost p) : cost p { s with m } < cost p s := by
  simp only [cost]
  omega

/-- The calling thread goes on and wakes all the workers. -/
theorem cost_wakes {m : MasterAt} (hg : Good p s) (hm : m.cost p + p.nthreads < s.m.cost p) :
    cost p { s with ws := notifyAll work s.ws, m } < cost p s := by
  have hle := cost_notifyAll p.nthreads s.ws
  have hlen := hg.len
  simp only [cost]
  omega

theorem ahead_step {g c : Nat} (hg : g < p.nrg) (hc : c < p.nc) :
    p.ahead g (g * p.nc + (c + 1)) + 5 = p.ahead g (g * p.nc + c) := by
  have hlt := task_lt hg hc
  simp only [Plan.ahead]
  omega

theorem ahead_close {g : Nat} (hg : g < p.nrg) :
    p.ahead (g + 1) ((g + 1) * p.nc) + 2 = p.ahead g (g * p.nc + p.nc) := by
  have hsucc : (g + 1) * p.nc = g * p.nc + p.nc := Nat.succ_mul g p.nc
  simp only [Plan.ahead, hsucc]
  omega

/-- A wait that ends with no wake. -/
def Woke (s t : St) : Prop :=
  (∃ j, s.ws[j]? = some .parked ∧ t = s.setWorker j .look) ∨
    ∃ g c, s.m = .parked g c ∧ t = { s with m := .look g c }

theorem cost_woke (h : Woke s t) : cost p t = cost p s + 1 := by
  rcases h with ⟨j, hj, rfl⟩ | ⟨g, c, hm, rfl⟩
  · have hset := cost_set p.nthreads .look hj
    simp only [WorkerAt.cost] at hset
    simp only [cost, St.setWorker]
    omega
  · simp only [cost, hm, MasterAt.cost]
    omega

theorem cost_dispatch (hg : Good p s) (hst : Started s) (hs : s.m = .spawn 0) :
    cost p { s with ws := List.replicate p.nthreads .look, m := .rowGroup 0 } < cost p s := by
  have hws : s.ws = List.replicate p.nthreads .unborn :=
    List.eq_replicate_iff.mpr ⟨hg.len, unborn_at_start hst hs⟩
  have hle : p.nthreads * (p.nthreads + 6) ≤ p.nthreads * (p.nthreads + 7) :=
    Nat.mul_le_mul_left _ (by omega)
  simp only [cost, hs, hws, List.map_replicate, List.sum_replicate_nat, WorkerAt.cost,
    MasterAt.cost, Nat.zero_mul]
  omega

theorem cost_spawn {k : Nat} (hg : Good p s) (hst : Started s) (hs : s.m = .spawn k)
    (hk : k < p.nthreads) : cost p { s with ws := s.ws.set k .look, m := .spawn (k + 1) } < cost p s := by
  have hlt : k < s.ws.length := hg.len.symm ▸ hk
  have hget := List.getElem?_eq_getElem hlt
  rw [hst.ahead k hs k _ (Nat.le_refl k) hget] at hget
  have hset := cost_set p.nthreads .look hget
  simp only [WorkerAt.cost] at hset
  simp only [cost, hs, MasterAt.cost]
  omega

theorem cost_take {g c : Nat} {ch : Chunk} {k : Option Nat} {ws : List WorkerAt} {q : Q}
    (hs : s.m = .look g c) (hws : notifyOne work s.ws k = some ws) (hq : q.next = s.q.next) :
    cost p { s with q, ws, m := .append g c ch } < cost p s := by
  have hle := cost_notifyOne p.nthreads hws
  simp only [cost, hs, hq, MasterAt.cost]
  omega

theorem cost_append {g c : Nat} {ch : Chunk} {cur : List Chunk} (hg : Good p s)
    (hs : s.m = .append g c ch) :
    cost p { s with cur, m := if c + 1 < p.nc then .look g (c + 1) else .close g } < cost p s := by
  have hplace := hg.place
  rw [hs] at hplace
  obtain ⟨_, hgr, hc, _⟩ := hplace
  have hstep := ahead_step hgr hc
  simp only [cost, hs]
  split
  · simp only [MasterAt.cost]
    omega
  · have hlast : c + 1 = p.nc := by omega
    rw [hlast] at hstep
    simp only [MasterAt.cost]
    omega

theorem cost_close {g : Nat} {file : List (List Chunk)} (hg : Good p s) (hs : s.m = .close g) :
    cost p { s with file, cur := [], m := .rowGroup (g + 1) } < cost p s := by
  have hplace := hg.place
  rw [hs] at hplace
  have hclose := ahead_close hplace.2.1
  simp only [cost, hs, MasterAt.cost]
  omega

/-- A call of the crates leaves more to do than a failure of it. -/
theorem cost_callsCrate (hc : s.m.callsCrate p = true) (hg : Good p s) :
    p.nthreads + 4 < s.m.cost p := by
  have hplace := hg.place
  cases hm : s.m with
  | rowGroup g =>
    simp only [MasterAt.cost]
    omega
  | append g c ch =>
    rw [hm] at hplace
    have hstep := ahead_step hplace.2.1 hplace.2.2.1
    simp only [MasterAt.cost]
    omega
  | close g =>
    simp only [MasterAt.cost]
    omega
  | _ =>
    rw [hm] at hc
    cases hc

/-- Every move but a wait that ends with no wake brings the end nearer. -/
theorem cost_moved (hg : Good p s) (hst : Started s) (hm : Moved p s t) :
    cost p t < cost p s ∨ Woke s t := by
  cases hm with
  | dispatch hs => exact .inl (cost_dispatch hg hst hs)
  | spawn hs hk => exact .inl (cost_spawn hg hst hs hk)
  | spawnFailed hs _ => exact .inl (cost_master (by simp [hs, MasterAt.cost]))
  | spawned hs _ =>
    refine .inl (cost_master ?_)
    simp only [hs, MasterAt.cost, Nat.zero_mul]
    omega
  | gone hj _ => exact .inl (cost_setWorker hj (by simp [WorkerAt.cost]))
  | park hj _ _ _ => exact .inl (cost_setWorker hj (by simp [WorkerAt.cost]))
  | claim n hr => exact .inl (cost_claim n hr)
  | noWriters hr => exact .inl (cost_setWorker hr.at_look (by simp [WorkerAt.cost]))
  | @finish j k hj =>
    have hset := cost_set p.nthreads .look hj
    have hwake := cost_notify p s.m
    left
    simp only [WorkerAt.cost] at hset
    simp only [cost, encodedStep]
    omega
  | encodeFailed hj => exact .inl (cost_setWorker hj (by simp [WorkerAt.cost]))
  | failErr hj => exact .inl (cost_setWorker (s := s.recordErr _) hj (by simp [WorkerAt.cost]))
  | @failWork j hj =>
    have hj' : (notifyAll work s.ws)[j]? = some .failWork := by
      rw [notifyAll_getElem?, hj]
      rfl
    have hset := cost_set p.nthreads .failMaster hj'
    have hall := cost_notifyAll p.nthreads s.ws
    have hlen := hg.len
    left
    simp only [WorkerAt.cost] at hset
    simp only [cost]
    omega
  | @failMaster j hj =>
    have hset := cost_set p.nthreads .gone hj
    have hwake := cost_notify p s.m
    left
    simp only [WorkerAt.cost] at hset
    simp only [cost]
    omega
  | spurious hj => exact .inr (.inl ⟨_, hj, rfl⟩)
  | rowGroup hs _ => exact .inl (cost_master (by simp [hs, MasterAt.cost]))
  | lastWake hs _ =>
    refine .inl (cost_wakes hg ?_)
    simp only [hs, MasterAt.cost]
    omega
  | take hs _ hws => exact .inl (cost_take hs hws rfl)
  | sawErr hs _ _ =>
    refine .inl (cost_master ?_)
    simp only [hs, MasterAt.cost]
    omega
  | masterPark hs _ _ => exact .inl (cost_master (by simp [hs, MasterAt.cost]))
  | append hs => exact .inl (cost_append hg hs)
  | close hs => exact .inl (cost_close hg hs)
  | crateErr hs => exact .inl (cost_master (cost_callsCrate hs hg))
  | cratePanic hs =>
    have hcall := cost_callsCrate hs hg
    refine .inl (cost_master ?_)
    show 1 < s.m.cost p
    omega
  | masterFail hs => exact .inl (cost_master (s := s.recordErr _) (by simp [St.recordErr, hs, MasterAt.cost]))
  | masterFailWork hs =>
    refine .inl (cost_wakes hg ?_)
    simp only [hs, MasterAt.cost]
    omega
  | masterFailMaster hs => exact .inl (cost_master (by simp [hs, MasterAt.cost]))
  | masterSpurious hs => exact .inr (.inr ⟨_, _, hs, rfl⟩)
  | joinOk _ hs => exact .inl (cost_master (by simp [hs, MasterAt.cost]))
  | joinErr _ hs => exact .inl (cost_master (by simp [hs, MasterAt.cost]))
  | joinRaised _ hs => exact .inl (cost_master (by simp [hs, MasterAt.cost]))

/-! ## Which steps are wakes -/

theorem woke_keeps (h : Woke s t) : (t.m = s.m ∨ s.m.runnable = false) ∧
    ∀ (i : Nat) v, s.ws[i]? = some v → v ≠ .parked → t.ws[i]? = some v := by
  rcases h with ⟨j, hj, rfl⟩ | ⟨g, c, hm, rfl⟩
  · refine ⟨.inl rfl, fun i v hi hv => ?_⟩
    have hij : j ≠ i := by
      rintro rfl
      exact hv (Option.some.inj (hi.symm.trans hj))
    show (s.ws.set j .look)[i]? = some v
    rw [List.getElem?_set_ne hij]
    exact hi
  · exact ⟨.inr (by rw [hm]; rfl), fun i v hi _ => hi⟩

theorem set_leaves {ws : List WorkerAt} {j : Nat} {v u : WorkerAt} (hv : ws[j]? = some v)
    (hne : u ≠ v) : (ws.set j u)[j]? ≠ some v := by
  rw [List.getElem?_set_self (List.getElem?_eq_some_iff.mp hv).1]
  exact fun h => hne (Option.some.inj h)

theorem takeTask_leaves {j : Nat} (n : Nat) (hj : s.ws[j]? = some .look) :
    (takeTask p (openWriters p s n) j).ws[j]? ≠ some .look := by
  obtain ⟨w, hws, hcase⟩ := claim_turns p s j n
  rw [hws]
  apply set_leaves hj
  rcases hcase with ⟨k, rfl, _⟩ | ⟨e, rfl⟩ <;> simp

theorem lookStep_leaves {j : Nat} (made : Made) (hj : s.ws[j]? = some .look) :
    (lookStep p s j made).ws[j]? ≠ some .look := by
  unfold lookStep
  split
  · exact set_leaves hj (by simp)
  · split
    · split
      · cases made with
        | ok n => exact takeTask_leaves n hj
        | err e => exact set_leaves hj (by simp)
        | panic => exact set_leaves hj (by simp)
      · rename_i hc
        have htake := takeTask_leaves (p := p) 0 hj
        rwa [openWriters_of_ne 0 hc] at htake
    · exact set_leaves hj (by simp)

theorem crateCall_leaves {r : Outcome} {ok : St} (hc : s.m.callsCrate p = true) (hok : ok.m ≠ s.m) :
    (crateCall s r ok).m ≠ s.m := by
  cases r with
  | ok => exact hok
  | err e =>
    intro h
    rw [← h] at hc
    cases hc
  | panic =>
    intro h
    rw [← h] at hc
    cases hc

theorem masterStep_leaves {r : Outcome} {k : Option Nat} (h : masterStep p s r k = some t) :
    t.m ≠ s.m ∧ s.m.runnable = true := by
  unfold masterStep at h
  split at h
  · rename_i g hm
    split at h
    · rename_i hg
      cases h
      exact ⟨crateCall_leaves (p := p) (by simp [hm, MasterAt.callsCrate, hg]) (by simp [hm]), by rw [hm]; rfl⟩
    · cases h
      exact ⟨by simp [hm], by rw [hm]; rfl⟩
  · rename_i g c hm
    dsimp only at h
    refine ⟨?_, by rw [hm]; rfl⟩
    split at h
    · simp only [Option.map_eq_some_iff] at h
      obtain ⟨ws, _, rfl⟩ := h
      simp [hm]
    · split at h <;> cases h <;> simp [hm]
  · rename_i g c ch hm
    cases h
    refine ⟨crateCall_leaves (p := p) (by simp [hm, MasterAt.callsCrate]) ?_, by rw [hm]; rfl⟩
    dsimp only
    split <;> simp [hm]
  · rename_i g hm
    cases h
    exact ⟨crateCall_leaves (p := p) (by simp [hm, MasterAt.callsCrate]) (by simp [hm]), by rw [hm]; rfl⟩
  · rename_i e hm
    cases h
    exact ⟨by simp [hm], by rw [hm]; rfl⟩
  · rename_i e hm
    cases h
    exact ⟨by simp [hm], by rw [hm]; rfl⟩
  · rename_i e hm
    cases h
    exact ⟨by simp [hm], by rw [hm]; rfl⟩
  · cases h

theorem spawnStep_leaves {ok : Bool} (h : spawnStep p s ok = some t) :
    t.m ≠ s.m ∧ s.m.runnable = true := by
  unfold spawnStep at h
  split at h
  · rename_i k hm
    refine ⟨?_, by rw [hm]; rfl⟩
    split at h
    · split at h <;> cases h <;> simp [hm]
    · cases h
      simp [hm]
  · cases h

theorem joinStep_leaves (h : joinStep s = some t) : t.m ≠ s.m ∧ s.m.runnable = true := by
  unfold joinStep at h
  split at h
  · split at h
    all_goals first | (rename_i hm; cases h; exact ⟨by simp [hm], by rw [hm]; rfl⟩) | cases h
  · cases h

theorem failStep_leaves {j : Nat} (h : failStep s j = some t) :
    ∃ v, s.ws[j]? = some v ∧ v ≠ .parked ∧ t.ws[j]? ≠ some v := by
  unfold failStep at h
  split at h
  · rename_i e hj
    cases h
    exact ⟨_, hj, by simp, set_leaves hj (by simp)⟩
  · rename_i hj
    cases h
    refine ⟨_, hj, by simp, ?_⟩
    have hj' : (notifyAll work s.ws)[j]? = some .failWork := by
      rw [notifyAll_getElem?, hj]
      rfl
    exact set_leaves hj' (by simp)
  · rename_i hj
    cases h
    exact ⟨_, hj, by simp, set_leaves hj (by simp)⟩
  · cases h

/-- Only a spurious wake takes a thread out of its wait and changes nothing else. -/
theorem woke_spurious {a : Act} (h : step p s a = some t) (hw : Woke s t) : a.isSpurious = true := by
  obtain ⟨hm, hkeep⟩ := woke_keeps hw
  have hmaster : ¬(t.m ≠ s.m ∧ s.m.runnable = true) := by
    rintro ⟨hne, hrun⟩
    rcases hm with hm | hm
    · exact hne hm
    · rw [hm] at hrun
      cases hrun
  cases a with
  | spurious j => rfl
  | masterSpurious => rfl
  | dispatch =>
    exfalso
    simp only [step, dispatchStep] at h
    split at h
    · rename_i hs
      cases h
      exact hmaster ⟨by simp [hs], by rw [hs]; rfl⟩
    · cases h
  | spawn ok => exact absurd (spawnStep_leaves h) hmaster
  | master r k => exact absurd (masterStep_leaves h) hmaster
  | join => exact absurd (joinStep_leaves h) hmaster
  | look j made =>
    exfalso
    simp only [step] at h
    split at h
    · rename_i hj
      cases h
      exact lookStep_leaves made hj (hkeep j _ hj (by simp))
    · cases h
  | encoded j r =>
    exfalso
    simp only [step] at h
    split at h
    · rename_i k hj
      cases h
      have hat := hkeep j _ hj (by simp)
      cases r with
      | ok => exact set_leaves hj (by simp) hat
      | err e => exact set_leaves hj (by simp) hat
      | panic => exact set_leaves hj (by simp) hat
    · cases h
  | fail j =>
    obtain ⟨v, hv, hne, hleave⟩ := failStep_leaves h
    exact absurd (hkeep j v hv hne) hleave

/-! ## The run -/

theorem cost_step {a : Act} (hr : Reachable (queue p) s) (h : step p s a = some t) :
    cost p t + 1 ≤ cost p s + if a.isSpurious then 2 else 0 := by
  rcases cost_moved (good_reachable hr) (started_reachable hr) (step_moved h) with hlt | hw
  · omega
  · rw [woke_spurious h hw, cost_woke hw, if_pos rfl]

/-- A run is no longer than what the queue costs at its start and twice its spurious wakes. -/
theorem run_bounded {as : List Act} (h : exec (queue p) (start p) as = some t) :
    as.length ≤ cost p (start p) + 2 * as.countP Act.isSpurious := by
  have hstep : ∀ s a t, Reachable (queue p) s → (queue p).step s a = some t →
      Reachable (queue p) t ∧ cost p t + 1 ≤ cost p s + if a.isSpurious then 2 else 0 :=
    fun s a t hr hst => ⟨.next hr trivial hst, cost_step hr hst⟩
  have hle := exec_length_le_free hstep (.start rfl) h
  omega

theorem cost_start (p : Plan) :
    cost p (start p) ≤ p.nthreads * (p.nthreads + 9) + 8 * p.ntasks + 2 * p.nrg + 10 := by
  have hm : (start p).m.cost p ≤ 5 * p.ntasks + 2 * p.nrg + 2 * p.nthreads + 10 := by
    unfold start
    dsimp only
    split
    · simp only [MasterAt.cost, Plan.ahead]
      omega
    · simp only [MasterAt.cost]
      omega
  have hws : ((start p).ws.map (WorkerAt.cost p.nthreads)).sum = p.nthreads * (p.nthreads + 7) := by
    simp only [start, List.map_replicate, List.sum_replicate_nat, WorkerAt.cost]
  have hmul : p.nthreads * (p.nthreads + 9) = p.nthreads * (p.nthreads + 7) + 2 * p.nthreads := by
    rw [Nat.mul_comm 2, ← Nat.mul_add]
  have hnext : (start p).q.next = 0 := rfl
  unfold cost
  rw [hws, hmul, hnext]
  omega

/-! ## Where a run can stop -/

/-- Nothing but a spurious wake can happen. -/
def Stuck (p : Plan) (s : St) : Prop := ∀ a t, step p s a = some t → a.isSpurious = true

theorem stuck_inactive (h : Stuck p s) : ¬SomeActive s := by
  intro hact
  obtain ⟨a, t, hns, hst⟩ := active_steps (p := p) hact
  rw [h a t hst] at hns
  cases hns

theorem stuck_left (hr : Reachable (queue p) s) (h : Stuck p s) : s.m.left = true := by
  by_contra hl
  have hl : s.m.left = false := Bool.eq_false_iff.mpr hl
  have hrun : s.m.runnable = true := by
    cases hm : s.m with
    | parked g c =>
      exact absurd (waiting_master_has_a_worker (good_reachable hr) (started_reachable hr)
        (alive_reachable hr) hm) (stuck_inactive h)
    | _ => rfl
  obtain ⟨a, t, hns, hst⟩ := master_steps (p := p) hl hrun
  rw [h a t hst] at hns
  cases hns

theorem unwinds_unwound {a : Act} (hu : unwinds p s a) (h : step p s a = some t) :
    t.m = .unwound := by
  have hcall : ∀ {ok : St}, (crateCall s .panic ok).m = .unwound := rfl
  cases a with
  | spawn ok =>
    cases ok with
    | true => exact hu.elim
    | false =>
      obtain ⟨k, hm, hk⟩ := hu
      simp only [step, spawnStep, hm, hk, if_true, Bool.false_eq_true, if_false] at h
      cases h
      rfl
  | master r k =>
    cases r with
    | ok => exact hu.elim
    | err e => exact hu.elim
    | panic =>
      have hc : s.m.callsCrate p = true := hu
      simp only [step, masterStep] at h
      cases hm : s.m with
      | rowGroup g =>
        rw [hm] at hc h
        simp only [MasterAt.callsCrate, decide_eq_true_eq] at hc
        simp only [hc, if_true] at h
        cases h
        exact hcall
      | append g c ch =>
        rw [hm] at h
        cases h
        exact hcall
      | close g =>
        rw [hm] at h
        cases h
        exact hcall
      | _ =>
        rw [hm] at hc
        cases hc
  | _ => exact hu.elim

/-- Every run that has not unwound kept to settled queues. -/
theorem reach_settled (hr : Reachable (queue p) s) :
    s.m = .unwound ∨ s.m = .raised ∨ Reach (queue p) (SettledUnwind p) s := by
  refine hr.invariant (I := fun s => s.m = .unwound ∨ s.m = .raised ∨ Reach (queue p) (SettledUnwind p) s)
    (fun s h0 => .inr (.inr (.start h0))) ?_
  intro s a t _ ih _ hst
  rcases ih with hm | hm | ih
  · have hmoved := step_moved hst
    have hnotify : s.m.notify = .unwound := by rw [hm]; rfl
    cases hmoved with
    | joinRaised => exact .inr (.inl rfl)
    | gone | park | noWriters | encodeFailed | failErr | failWork | spurious => exact .inl hm
    | claim n => exact .inl ((openWriters_fields p s n).2.1.trans hm)
    | finish => exact .inl hnotify
    | failMaster => exact .inl hnotify
    | crateErr hc | cratePanic hc =>
      rw [hm] at hc
      cases hc
    | dispatch hs | spawn hs _ | spawnFailed hs _ | spawned hs _ | rowGroup hs _ | lastWake hs _
    | take hs _ _ | sawErr hs _ _ | masterPark hs _ _ | append hs | close hs | masterFail hs
    | masterFailWork hs | masterFailMaster hs | masterSpurious hs | joinOk _ hs | joinErr _ hs =>
      rw [hm] at hs
      cases hs
  · have hmoved := step_moved hst
    have hnotify : s.m.notify = .raised := by rw [hm]; rfl
    cases hmoved with
    | gone | park | noWriters | encodeFailed | failErr | failWork | spurious => exact .inr (.inl hm)
    | claim n => exact .inr (.inl ((openWriters_fields p s n).2.1.trans hm))
    | finish => exact .inr (.inl hnotify)
    | failMaster => exact .inr (.inl hnotify)
    | crateErr hc | cratePanic hc =>
      rw [hm] at hc
      cases hc
    | dispatch hs | spawn hs _ | spawnFailed hs _ | spawned hs _ | rowGroup hs _ | lastWake hs _
    | take hs _ _ | sawErr hs _ _ | masterPark hs _ _ | append hs | close hs | masterFail hs
    | masterFailWork hs | masterFailMaster hs | masterSpurious hs | joinOk _ hs | joinErr _ hs
    | joinRaised _ hs =>
      rw [hm] at hs
      cases hs
  · by_cases hu : unwinds p s a
    · exact .inl (unwinds_unwound hu hst)
    · exact .inr (.inr (.next ih (fun h => absurd h hu) hst))

/-- The workers that nobody wakes any more: a worker is parked, no error is set, and the calling
thread waits for it. -/
structure Hung (s : St) : Prop where
  unwound : s.m = .unwound
  parked : .parked ∈ s.ws
  no_err : s.q.err = none
  still : ∀ w ∈ s.ws, w = .parked ∨ w = .gone ∨ w = .unborn

/-- The wait for the workers is over, and they are all gone. -/
def Over (s : St) : Prop := s.m.joined = true ∧ ∀ w ∈ s.ws, w = .gone ∨ w = .unborn

theorem stuck_still (h : Stuck p s) : ∀ w ∈ s.ws, w = .parked ∨ w = .gone ∨ w = .unborn := by
  intro w hw
  cases w with
  | parked => exact .inl rfl
  | gone => exact .inr (.inl rfl)
  | unborn => exact .inr (.inr rfl)
  | _ => exact absurd ⟨_, hw, rfl⟩ (stuck_inactive h)

/-- Once the wait for the workers is over, every worker is gone, or was never started. -/
theorem joined_home (hr : Reachable (queue p) s) (hj : s.m.joined = true) :
    ∀ w ∈ s.ws, w = .gone ∨ w = .unborn := by
  refine hr.invariant (I := fun s => s.m.joined = true → ∀ w ∈ s.ws, w = .gone ∨ w = .unborn)
    (fun s h0 _ w hw => ?_) ?_ hj
  · subst h0
    exact .inr (List.eq_of_mem_replicate hw)
  intro s a t _ ih _ hst hjt
  have hidle : s.idle = true → ∀ w ∈ s.ws, w = .gone ∨ w = .unborn := fun hi w hw => by
    simp only [St.idle, List.all_eq_true, Bool.or_eq_true, beq_iff_eq] at hi
    exact hi w hw
  have hmove : ∀ {j : Nat} {v : WorkerAt}, s.ws[j]? = some v → v ≠ .gone → v ≠ .unborn →
      s.m.joined = true → False := by
    intro j v hv hg hu hm
    rcases ih hm v (List.mem_of_getElem? hv) with h | h
    · exact hg h
    · exact hu h
  have hnotify : s.m.notify.joined = true → s.m.joined = true := by
    cases s.m <;> exact id
  cases step_moved hst with
  | joinOk hi _ => exact hidle hi
  | joinErr hi _ => exact hidle hi
  | joinRaised hi _ => exact hidle hi
  | gone hj _ => exact (hmove hj (by simp) (by simp) hjt).elim
  | park hj _ _ _ => exact (hmove hj (by simp) (by simp) hjt).elim
  | @claim j n hr =>
    have hm : (takeTask p (openWriters p s n) j).m = s.m := (openWriters_fields p s n).2.1
    exact (hmove hr.at_look (by simp) (by simp) (hm ▸ hjt)).elim
  | noWriters hr => exact (hmove hr.at_look (by simp) (by simp) hjt).elim
  | finish hj => exact (hmove hj (by simp) (by simp) (hnotify hjt)).elim
  | encodeFailed hj => exact (hmove hj (by simp) (by simp) hjt).elim
  | failErr hj => exact (hmove hj (by simp) (by simp) hjt).elim
  | failWork hj => exact (hmove hj (by simp) (by simp) hjt).elim
  | failMaster hj => exact (hmove hj (by simp) (by simp) (hnotify hjt)).elim
  | spurious hj => exact (hmove hj (by simp) (by simp) hjt).elim
  | append hs =>
    dsimp only at hjt
    split at hjt <;> cases hjt
  | dispatch hs | spawn hs _ | spawnFailed hs _ | spawned hs _ | rowGroup hs _ | lastWake hs _
  | take hs _ _ | sawErr hs _ _ | masterPark hs _ _ | close hs | crateErr hs | cratePanic hs
  | masterFail hs | masterFailWork hs | masterFailMaster hs | masterSpurious hs => cases hjt

theorem stuck_unwound (hr : Reachable (queue p) s) (h : Stuck p s) (hm : s.m = .unwound) :
    Hung s := by
  have hstill := stuck_still h
  have hparked : .parked ∈ s.ws := by
    by_contra hno
    have hidle : s.idle = true := by
      simp only [St.idle, List.all_eq_true, Bool.or_eq_true, beq_iff_eq]
      intro w hw
      rcases hstill w hw with rfl | hw
      · exact absurd hw hno
      · exact hw
    have hjoin : step p s .join = some { s with m := .raised } := by
      simp only [step, joinStep, hidle, hm, if_true]
    cases h .join _ hjoin
  refine ⟨hm, hparked, ?_, hstill⟩
  by_contra hne
  have herr : s.q.err.isSome = true := Option.isSome_iff_ne_none.mpr hne
  rcases (alive_reachable hr).err_wakes herr hparked with hw | hf
  · exact stuck_inactive h ⟨_, hw, rfl⟩
  · rw [hm] at hf
    cases hf

/-- Out of `master`, with no worker that can take a step, only the join is left. -/
theorem left_stuck (hm : s.m.left = true)
    (hstill : ∀ w ∈ s.ws, w = .parked ∨ w = .gone ∨ w = .unborn)
    (hjoin : joinStep s = none) : Stuck p s := by
  intro a t h
  have hat : ∀ {j : Nat} {w : WorkerAt}, s.ws[j]? = some w → w ≠ .parked → w ≠ .gone →
      w ≠ .unborn → False := by
    intro j w hw hp hg hu
    rcases hstill w (List.mem_of_getElem? hw) with h | h | h
    · exact hp h
    · exact hg h
    · exact hu h
  have hmaster : s.m ≠ .spawn 0 ∧ ∀ k, s.m ≠ .spawn k := by
    constructor
    · intro hs
      rw [hs] at hm
      cases hm
    · intro k hs
      rw [hs] at hm
      cases hm
  cases a with
  | spurious j => rfl
  | masterSpurious => rfl
  | dispatch =>
    rw [step, dispatchStep, if_neg hmaster.1] at h
    cases h
  | spawn ok =>
    simp only [step, spawnStep] at h
    split at h
    · rename_i k hs
      exact absurd hs (hmaster.2 k)
    · cases h
  | look j made =>
    simp only [step] at h
    split at h
    · rename_i hj
      exact (hat hj (by simp) (by simp) (by simp)).elim
    · cases h
  | encoded j r =>
    simp only [step] at h
    split at h
    · rename_i hj
      exact (hat hj (by simp) (by simp) (by simp)).elim
    · cases h
  | fail j =>
    obtain ⟨v, hv, hne, hleave⟩ := failStep_leaves h
    simp only [step, failStep] at h
    split at h
    · rename_i hj
      exact (hat hj (by simp) (by simp) (by simp)).elim
    · rename_i hj
      exact (hat hj (by simp) (by simp) (by simp)).elim
    · rename_i hj
      exact (hat hj (by simp) (by simp) (by simp)).elim
    · cases h
  | master r k =>
    simp only [step, masterStep] at h
    cases hs : s.m with
    | returned r => simp [hs] at h
    | unwound => simp [hs] at h
    | closing => simp [hs] at h
    | erred e => simp [hs] at h
    | raised => simp [hs] at h
    | _ =>
      rw [hs] at hm
      cases hm
  | join =>
    rw [step, hjoin] at h
    cases h

theorem over_stuck (h : Over s) : Stuck p s := by
  apply left_stuck
  · cases hs : s.m <;> first | rfl | (rw [Over, hs] at h; cases h.1)
  · exact fun w hw => .inr (h.2 w hw)
  · unfold joinStep
    split
    · cases hs : s.m <;> first | rfl | (rw [Over, hs] at h; cases h.1)
    · rfl

theorem hung_stuck (h : Hung s) : Stuck p s := by
  refine left_stuck (by rw [h.unwound]; rfl) h.still ?_
  have hidle : s.idle = false := by
    apply Bool.eq_false_iff.mpr
    intro hi
    simp only [St.idle, List.all_eq_true, Bool.or_eq_true, beq_iff_eq] at hi
    rcases hi _ h.parked with hw | hw <;> cases hw
  rw [joinStep, hidle]
  rfl

/-- A run that only a spurious wake can prolong is over, or it hangs after an unwinding. -/
theorem stuck_iff (hr : Reachable (queue p) s) : Stuck p s ↔ Over s ∨ Hung s := by
  constructor
  · intro h
    rcases reach_settled hr with hm | hm | hreach
    · exact .inr (stuck_unwound hr h hm)
    · exact .inl ⟨by rw [hm]; rfl, joined_home hr (by rw [hm]; rfl)⟩
    · have hleft := stuck_left hr h
      exact .inl (home_stuck (alive_reachable hr) ⟨hleft, (exits_reach hreach).settled hleft⟩ h)
  · rintro (h | h)
    · exact over_stuck h
    · exact hung_stuck h

/-! ## A run in which no call fails -/

/-- No thread fails to start, and every call of the crates succeeds. A call of
`get_column_writers` that succeeds gives a writer for each column. -/
def Act.sound (p : Plan) : Act → Prop
  | .spawn ok => ok = true
  | .look _ made => made = .ok p.nc
  | .encoded _ r | .master r _ => r = .ok
  | _ => True

def WorkerAt.sound : WorkerAt → Bool
  | .fail _ | .failWork | .failMaster => false
  | _ => true

def MasterAt.sound : MasterAt → Bool
  | .fail _ | .failWork _ | .failMaster _ | .returned (.error _) | .unwound | .erred _ | .raised => false
  | _ => true

/-- Every column of the row group that is still to be claimed has its writer. -/
def HasWriters (p : Plan) (s : St) : Prop :=
  ∀ c, s.q.next % p.nc ≤ c → c < p.nc → ∃ w, writerAt s (s.q.next / p.nc) c = some w

structure Clean (p : Plan) (s : St) : Prop where
  no_err : s.q.err = none
  workers : ∀ w ∈ s.ws, w.sound = true
  master : s.m.sound = true
  writers : s.q.next % p.nc ≠ 0 → HasWriters p s

theorem clean_start (p : Plan) : Clean p (start p) := by
  refine ⟨rfl, ?_, ?_, fun hne => absurd (Nat.zero_mod _) hne⟩
  · intro w hw
    rw [List.eq_of_mem_replicate hw]
    rfl
  · unfold start
    dsimp only
    split <;> rfl

/-- What leaves the queue alone keeps the rest clean. -/
theorem clean_turn {ws : List WorkerAt} {m : MasterAt} {file : List (List Chunk)}
    {cur : List Chunk} (h : Clean p s) (hw : ∀ w ∈ ws, w.sound = true) (hm : m.sound = true) :
    Clean p { s with ws, m, file, cur } :=
  ⟨h.no_err, hw, hm, h.writers⟩

theorem sound_set {ws : List WorkerAt} (h : ∀ w ∈ ws, w.sound = true) (j : Nat) {u : WorkerAt}
    (hu : u.sound = true) : ∀ w ∈ ws.set j u, w.sound = true := by
  intro w hw
  rcases List.mem_or_eq_of_mem_set hw with hw | rfl
  · exact h w hw
  · exact hu

theorem sound_notifyAll {ws : List WorkerAt} (h : ∀ w ∈ ws, w.sound = true) :
    ∀ w ∈ notifyAll work ws, w.sound = true := by
  intro w hw
  obtain ⟨v, hv, rfl⟩ := List.mem_map.mp hw
  split
  · rfl
  · exact h v hv

theorem sound_notifyOne {ws us : List WorkerAt} {k : Option Nat} (h : ∀ w ∈ ws, w.sound = true)
    (hn : notifyOne work ws k = some us) : ∀ w ∈ us, w.sound = true := by
  rcases notifyOne_cases work hn with ⟨rfl, _⟩ | ⟨j, v, _, _, rfl⟩
  · exact h
  · exact sound_set h j rfl

theorem sound_notify {m : MasterAt} (h : m.sound = true) : m.notify.sound = true := by
  cases m <;> first | rfl | exact h

/-- The writers of a row group are all there when its first column opens them. -/
theorem openWriters_hasWriters (h : s.q.next % p.nc ≠ 0 → HasWriters p s) :
    HasWriters p (openWriters p s p.nc) := by
  unfold openWriters
  by_cases hc : s.q.next % p.nc = 0
  · intro c _ hlt
    refine ⟨⟨s.sets.length, c⟩, ?_⟩
    simp [hc, writerAt, hlt]
  · simp only [hc, if_false]
    exact h hc

/-- A claim takes the writer of its own column and leaves the others. -/
theorem takeTask_writerAt (j : Nat) {c : Nat} (hlast : s.q.next % p.nc + 1 ≠ p.nc)
    (hne : s.q.next % p.nc ≠ c) : writerAt (takeTask p s j) (s.q.next / p.nc) c =
      writerAt s (s.q.next / p.nc) c := by
  simp only [writerAt, takeTask, if_true, if_neg hlast]
  cases s.q.wr (s.q.next / p.nc) with
  | none => rfl
  | some v =>
    simp only [Option.map_some, Option.bind_some]
    rw [List.getElem?_set_ne hne]

theorem takeTask_hasWriters (hpos : 0 < p.nc) (h : HasWriters p s) (j : Nat)
    (hne : (takeTask p s j).q.next % p.nc ≠ 0) : HasWriters p (takeTask p s j) := by
  have hnext : (takeTask p s j).q.next = s.q.next + 1 := rfl
  have hlast : s.q.next % p.nc + 1 ≠ p.nc := by
    intro hlast
    have hdm := Nat.div_add_mod s.q.next p.nc
    have hsucc : s.q.next + 1 = p.nc * (s.q.next / p.nc + 1) := by
      rw [Nat.mul_add, Nat.mul_one]
      omega
    rw [hnext, hsucc, Nat.mul_mod_right] at hne
    exact hne rfl
  have hlt := Nat.mod_lt s.q.next hpos
  obtain ⟨hdiv, hmod⟩ := div_mod_succ (n := s.q.next) (d := p.nc) (by omega)
  intro c hle hc
  rw [hnext, hmod] at hle
  rw [hnext, hdiv, takeTask_writerAt j hlast (by omega)]
  exact h c (by omega) hc

/-- A claim finds its writer, so the worker goes on to encode. -/
theorem clean_claim {j : Nat} (h : Clean p s) (hr : Room p s j) :
    Clean p (takeTask p (openWriters p s p.nc) j) := by
  obtain ⟨hws, hm, _, _, _, _, _, _, herr⟩ := openWriters_fields p s p.nc
  have hmore := hr.more
  rw [ntasks_eq] at hmore
  have hpos : 0 < p.nc := Nat.pos_of_mul_pos_left (Nat.lt_of_le_of_lt (Nat.zero_le _) hmore)
  have hopen := openWriters_hasWriters h.writers
  obtain ⟨w, hw⟩ := hopen _ (Nat.le_refl _) (Nat.mod_lt _ hpos)
  refine ⟨herr.trans h.no_err, ?_, hm ▸ h.master, takeTask_hasWriters hpos hopen j⟩
  apply sound_set (hws ▸ h.workers) j
  rw [hw]
  rfl

theorem clean_look {j : Nat} (h : Clean p s) (hj : s.ws[j]? = some .look) :
    Clean p (lookStep p s j (.ok p.nc)) := by
  unfold lookStep
  split
  · exact clean_turn h (sound_set h.workers j rfl) h.master
  rename_i hgo
  simp only [not_or, Option.isSome_iff_ne_none, ne_eq, Decidable.not_not, Nat.not_le] at hgo
  split
  · rename_i hroom
    have hclaim := clean_claim h ⟨hj, hgo.1, hgo.2, hroom⟩
    split
    · exact hclaim
    · rename_i hc
      rwa [openWriters_of_ne p.nc hc] at hclaim
  · exact clean_turn h (sound_set h.workers j rfl) h.master

theorem clean_master {k : Option Nat} (h : Clean p s) (hst : masterStep p s .ok k = some t) :
    Clean p t := by
  have hm := h.master
  unfold masterStep at hst
  split at hst
  · split at hst
    · cases hst
      exact clean_turn h h.workers rfl
    · cases hst
      exact clean_turn h (sound_notifyAll h.workers) rfl
  · dsimp only at hst
    split at hst
    · simp only [Option.map_eq_some_iff] at hst
      obtain ⟨ws, hws, rfl⟩ := hst
      exact ⟨h.no_err, sound_notifyOne h.workers hws, rfl, h.writers⟩
    · rw [h.no_err] at hst
      cases hst
      exact clean_turn h h.workers rfl
  · cases hst
    refine clean_turn h h.workers ?_
    split <;> rfl
  · cases hst
    exact clean_turn h h.workers rfl
  · rename_i hs
    rw [hs] at hm
    cases hm
  · rename_i hs
    rw [hs] at hm
    cases hm
  · rename_i hs
    rw [hs] at hm
    cases hm
  · cases hst

theorem clean_join (h : Clean p s) (hst : joinStep s = some t) : Clean p t := by
  have hm := h.master
  unfold joinStep at hst
  split at hst
  · split at hst
    · cases hst
      exact clean_turn h h.workers rfl
    · rename_i hs
      rw [hs] at hm
      cases hm
    · rename_i hs
      rw [hs] at hm
      cases hm
    · cases hst
  · cases hst

theorem clean_step {a : Act} (h : Clean p s) (ha : a.sound p) (hst : step p s a = some t) :
    Clean p t := by
  cases a with
  | dispatch =>
    simp only [step, dispatchStep] at hst
    split at hst
    · cases hst
      refine clean_turn h ?_ rfl
      intro w hw
      rw [List.eq_of_mem_replicate hw]
      rfl
    · cases hst
  | spawn ok =>
    simp only [step, spawnStep] at hst
    split at hst
    · split at hst
      · rw [if_pos (show ok = true from ha)] at hst
        cases hst
        exact clean_turn h (sound_set h.workers _ rfl) rfl
      · cases hst
        exact clean_turn h h.workers rfl
    · cases hst
  | look j made =>
    simp only [step] at hst
    split at hst
    · rename_i hj
      cases hst
      rw [show made = .ok p.nc from ha]
      exact clean_look h hj
    · cases hst
  | encoded j r =>
    simp only [step] at hst
    split at hst
    · cases hst
      rw [show r = .ok from ha]
      exact ⟨h.no_err, sound_set h.workers j rfl, sound_notify h.master, h.writers⟩
    · cases hst
  | fail j =>
    simp only [step, failStep] at hst
    split at hst
    all_goals first
      | cases hst
        done
      | rename_i hj
        cases h.workers _ (List.mem_of_getElem? hj)
  | spurious j =>
    simp only [step, spurious, Option.map_eq_some_iff] at hst
    obtain ⟨ws, hws, rfl⟩ := hst
    exact clean_turn h (sound_notifyOne h.workers hws) h.master
  | master r k =>
    rw [show r = .ok from ha] at hst
    exact clean_master h hst
  | masterSpurious =>
    simp only [step] at hst
    split at hst
    · cases hst
      exact clean_turn h h.workers rfl
    · cases hst
  | join => exact clean_join h hst

/-- Which steps of `master` there are does not depend on what the crates answer. -/
theorem masterStep_ok {r : Outcome} {k : Option Nat} (h : masterStep p s r k = some t) :
    ∃ u, masterStep p s .ok k = some u := by
  unfold masterStep at h ⊢
  cases hm : s.m with
  | rowGroup g =>
    by_cases hg : g < p.nrg <;> simp only [hg, if_true, if_false] <;> exact ⟨_, rfl⟩
  | look g c =>
    rw [hm] at h
    dsimp only at h ⊢
    split at h
    · simp only [Option.map_eq_some_iff] at h
      obtain ⟨ws, hws, _⟩ := h
      rw [hws]
      exact ⟨_, rfl⟩
    · split at h <;> exact ⟨_, rfl⟩
  | append g c ch => exact ⟨_, rfl⟩
  | close g => exact ⟨_, rfl⟩
  | fail e => exact ⟨_, rfl⟩
  | failWork e => exact ⟨_, rfl⟩
  | failMaster e => exact ⟨_, rfl⟩
  | _ =>
    rw [hm] at h
    cases h

/-- Where a step with a failure can be taken, the same step can be taken without one. -/
theorem sound_twin {a : Act} (h : step p s a = some t) :
    ∃ b u, b.sound p ∧ b.isSpurious = a.isSpurious ∧ step p s b = some u := by
  cases a with
  | dispatch => exact ⟨.dispatch, t, trivial, rfl, h⟩
  | spawn ok =>
    simp only [step, spawnStep] at h
    split at h
    · rename_i k hm
      have hstep : ∃ u, step p s (.spawn true) = some u := by
        simp only [step, spawnStep, hm, if_true]
        split <;> exact ⟨_, rfl⟩
      obtain ⟨u, hu⟩ := hstep
      exact ⟨.spawn true, u, rfl, rfl, hu⟩
    · cases h
  | look j made =>
    simp only [step] at h
    split at h
    · rename_i hj
      exact ⟨.look j (.ok p.nc), _, rfl, rfl, step_look _ hj⟩
    · cases h
  | encoded j r =>
    simp only [step] at h
    split at h
    · rename_i k hj
      refine ⟨.encoded j .ok, encodedStep p s j k .ok, rfl, rfl, ?_⟩
      simp only [step, hj]
    · cases h
  | fail j => exact ⟨.fail j, t, trivial, rfl, h⟩
  | spurious j => exact ⟨.spurious j, t, trivial, rfl, h⟩
  | master r k =>
    obtain ⟨u, hu⟩ := masterStep_ok h
    exact ⟨.master .ok k, u, rfl, rfl, hu⟩
  | masterSpurious => exact ⟨.masterSpurious, t, trivial, rfl, h⟩
  | join => exact ⟨.join, t, trivial, rfl, h⟩

theorem clean_joined (h : Clean p s) (hj : s.m.joined = true) : s.m = .closing := by
  have hm := h.master
  cases hs : s.m with
  | closing => rfl
  | erred e =>
    rw [hs] at hm
    cases hm
  | raised =>
    rw [hs] at hm
    cases hm
  | _ =>
    rw [hs] at hj
    cases hj

theorem closing_groups (hg : Good p s) (hm : s.m = .closing) :
    s.file = (List.range p.nrg).map (groupOf p) := by
  have hplace := hg.place
  rw [hm] at hplace
  obtain ⟨hfile, _⟩ := hplace.2
  exact hfile

/-! ## The laws -/

/-- Every run of the queue ends, and where it ends is known. A run has no more steps than a bound
from the threads, the tasks and the row groups, and two for each spurious wake. It stops, but for
such a wake, exactly where the wait for the workers has ended with no worker in the job, or where
the calling thread unwound and waits for workers that are parked, with no error set. -/
theorem every_run_of_the_queue_ends (p : Plan) (as : List Act) (s : St)
    (h : exec (queue p) (start p) as = some s) :
    as.length ≤ p.nthreads * (p.nthreads + 9) + 8 * p.ntasks + 2 * p.nrg + 10 +
      2 * as.countP Act.isSpurious ∧
    (Stuck p s ↔ Over s ∨ Hung s) := by
  have hreach : Reachable (queue p) s := Reachable.exec (.start rfl) as h
  constructor
  · have hrun := run_bounded h
    have hcost := cost_start p
    omega
  · exact stuck_iff hreach

/-- The run of `panicRun` stops where the worker is parked. -/
theorem a_panic_run_stops : ∃ s, exec (queue widePlan) (start widePlan) panicRun = some s ∧
    Stuck widePlan s ∧ s.ws = [.parked] := by
  obtain ⟨s, hs, hws, hm, herr⟩ : ∃ s, exec (queue widePlan) (start widePlan) panicRun = some s ∧
      s.ws = [.parked] ∧ s.m = .unwound ∧ s.q.err = none := ⟨_, rfl, rfl, rfl, rfl⟩
  have hends := (every_run_of_the_queue_ends widePlan panicRun s hs).2
  have hhung : Hung s := by
    refine ⟨hm, by rw [hws]; exact List.mem_singleton.mpr rfl, herr, fun w hw => ?_⟩
    rw [hws, List.mem_singleton] at hw
    exact .inl hw
  exact ⟨s, hs, hends.mpr (.inr hhung), hws⟩

/-- When no thread fails to start and every call of the crates succeeds, the queue writes the
table. However the threads take turns, a run that only a spurious wake or a failure can prolong has
reached `fw.close()` with every row group in the file, each with the chunks of its columns in
order, and no worker is in the job. -/
theorem a_run_without_a_failure_writes_every_row_group (p : Plan) (as : List Act) (s : St)
    (hsound : ∀ a ∈ as, a.sound p) (h : exec (queue p) (start p) as = some s)
    (hstuck : ∀ a t, a.sound p → step p s a = some t → a.isSpurious = true) :
    s.m = .closing ∧ s.file = (List.range p.nrg).map (groupOf p) ∧ s.q.err = none ∧
      ∀ w ∈ s.ws, w = .gone ∨ w = .unborn := by
  have hrun : Reach (queue p) (fun _ a => a.sound p) s :=
    Reach.exec (.start rfl) as (fun a ha _ => hsound a ha) h
  have hreach := hrun.reachable
  have hclean : Clean p s := hrun.invariant (fun _ h0 => h0 ▸ clean_start p)
    fun _ _ _ _ hc ha hst => clean_step hc ha hst
  have hstop : Stuck p s := by
    intro a t hst
    obtain ⟨b, u, hb, hsame, hu⟩ := sound_twin hst
    rw [← hsame]
    exact hstuck b u hb hu
  rcases (stuck_iff hreach).mp hstop with ⟨hjoined, hhome⟩ | hhung
  · have hclosing := clean_joined hclean hjoined
    exact ⟨hclosing, closing_groups (good_reachable hreach) hclosing, hclean.no_err, hhome⟩
  · have hm := hclean.master
    rw [hhung.unwound] at hm
    cases hm

/-- Two row groups of one column, of two rows and of one. -/
theorem a_small_table_is_written_whole :
    ∃ s, exec (queue smallPlan) (start smallPlan) smallRun = some s ∧
      s.m = .closing ∧ s.file = [[⟨0, 0, 0, 2⟩], [⟨1, 0, 2, 1⟩]] := by
  obtain ⟨s, hs, hws, hm⟩ : ∃ s, exec (queue smallPlan) (start smallPlan) smallRun = some s ∧
      s.ws = [.gone] ∧ s.m = .closing := ⟨_, rfl, rfl, rfl⟩
  have hover : Over s := by
    refine ⟨by rw [hm]; rfl, fun w hw => ?_⟩
    rw [hws, List.mem_singleton] at hw
    exact .inl hw
  obtain ⟨hclosing, hfile, _⟩ := a_run_without_a_failure_writes_every_row_group smallPlan smallRun s
    (by simp [smallRun, smallPlan, Act.sound]) hs fun a t _ hst => over_stuck hover a t hst
  exact ⟨s, hs, hclosing, hfile⟩

end

end parquet_interop.write_queue
