-- The laws of the thread pool: the workers below the count run a job once
-- each while its call waits, and no wait is stuck as long as the generations
-- do not run out.
import ParquetInterop.PoolSafety

open lib.runs lib.parking

namespace parquet_interop.pool

/-! ## The way to the end of a wait -/

/-- The actions of worker `j` itself. -/
def Act.by (j : Nat) : Act → Bool
  | .start i | .take i | .ended i _ | .finish i => i = j
  | _ => false

/-- The steps that a worker is away from having counted itself out. -/
def rank (gen : Nat) : WorkerAt → Nat
  | .starting => 4
  | .look seen | .parked seen => if seen = gen then 0 else 3
  | .run _ _ => 2
  | .finish _ _ _ => 1

/-- The steps that the workers of the job owe. -/
def St.owing (s : St) : Nat := weigh (rank s.gen) s.want s.ws

theorem rank_eq_zero {gen : Nat} {w : WorkerAt} : rank gen w = 0 ↔ debt gen w = 0 := by
  cases w <;> simp [rank, debt]

theorem owing_set {s : St} {j : Nat} {v u : WorkerAt} (h : s.ws[j]? = some v)
    (hle : rank s.gen u ≤ rank s.gen v) :
    weigh (rank s.gen) s.want (s.ws.set j u) ≤ s.owing ∧
      (j < s.want → rank s.gen u < rank s.gen v →
        weigh (rank s.gen) s.want (s.ws.set j u) < s.owing) := by
  unfold St.owing
  by_cases hj : j < s.want
  · have := weigh_set (rank s.gen) u h hj
    exact ⟨by omega, fun _ hlt => by omega⟩
  · rw [weigh_set_ge _ _ _ (Nat.not_lt.mp hj)]
    exact ⟨Nat.le_refl _, fun hlt => absurd hlt hj⟩

/-- While a job is out, no step puts the end of its wait further away. -/
theorem owing_le {p : Pool} {s t : St} (h : Good p s) {c : Nat} (hc : s.job = some c)
    (hm : Moved p s t) : t.owing ≤ s.owing := by
  cases hm with
  | quiet _ _ => exact Nat.le_refl _
  | freshEnd _ _ => exact Nat.le_refl _
  | warm _ _ _ => exact Nat.le_refl _
  | lock _ _ => exact Nat.le_refl _
  | send hd =>
    rw [job_none h hd] at hc
    cases hc
  | collect _ _ => exact Nat.le_refl _
  | leave _ => exact Nat.le_refl _
  | unwind _ => exact Nat.le_refl _
  | spawn _ _ => exact Nat.le_of_eq (weigh_append _ _ h.want)
  | spawnFailed _ => exact Nat.le_refl _
  | start hj =>
    apply (owing_set hj _).1
    simp only [rank]
    split <;> omega
  | park hj hg =>
    apply (owing_set hj _).1
    exact Nat.le_refl _
  | skip hj hg _ =>
    apply (owing_set hj _).1
    simp [rank]
  | take hj hg _ _ =>
    apply (owing_set hj _).1
    simp [rank, Ne.symm hg]
  | spurious hj =>
    apply (owing_set hj _).1
    exact Nat.le_refl _
  | ended bad hj =>
    apply (owing_set hj _).1
    simp [rank]
  | @finish j seen _ _ hj =>
    have hseen : seen = s.gen := h.saw _ (List.mem_of_getElem? hj)
    apply (owing_set hj _).1
    simp [rank, hseen]

/-- Each step of a worker that owes the job brings the end nearer. -/
theorem owing_lt {p : Pool} {s t : St} (h : Good p s) {c j : Nat} (hc : s.job = some c)
    (hj : j < s.want) {w : WorkerAt} (hw : s.ws[j]? = some w) (hdebt : debt s.gen w ≠ 0) {a : Act}
    (ha : a.by j = true) (hst : step p s a = some t) : t.owing < s.owing := by
  cases a with
  | start i =>
    have hij : i = j := of_decide_eq_true ha
    subst hij
    simp only [step] at hst
    split at hst
    · rename_i hv
      cases hst
      apply (owing_set hv _).2 hj
      · simp only [rank]
        split <;> omega
      · simp only [rank]
        split <;> omega
    · cases hst
  | take i =>
    have hij : i = j := of_decide_eq_true ha
    subst hij
    simp only [step, takeStep] at hst
    split at hst
    · rename_i seen hv
      rw [hw] at hv
      cases hv
      have hgen : ¬s.gen = seen := by
        rintro rfl
        simp [debt] at hdebt
      rw [if_neg hgen, hc] at hst
      simp only [hj, if_true, Option.some.injEq] at hst
      subst hst
      apply (owing_set hw _).2 hj <;> simp [rank, Ne.symm hgen]
    · cases hst
  | ended i bad =>
    have hij : i = j := of_decide_eq_true ha
    subst hij
    simp only [step, endedStep] at hst
    split at hst
    · rename_i hv
      cases hst
      apply (owing_set hv _).2 hj <;> simp [rank]
    · cases hst
  | finish i =>
    have hij : i = j := of_decide_eq_true ha
    subst hij
    simp only [step, finishStep] at hst
    split at hst
    · rename_i seen _ _ hv
      have hseen : seen = s.gen := h.saw _ (List.mem_of_getElem? hv)
      cases hst
      apply (owing_set hv _).2 hj <;> simp [rank, hseen]
    · cases hst
  | call _ _ => cases ha
  | load _ _ => cases ha
  | tryLock _ => cases ha
  | spawnFresh _ _ => cases ha
  | freshEnd _ _ => cases ha
  | meEnd _ _ => cases ha
  | joined _ => cases ha
  | warm _ _ => cases ha
  | send _ => cases ha
  | wait _ => cases ha
  | spuriousDone _ => cases ha
  | leave _ => cases ha
  | spawn _ => cases ha
  | spurious _ => cases ha

/-- Worker `j` takes one step of its own, to `u`, and the rest of the workers stay. -/
structure OwnStep (p : Pool) (s : St) (j : Nat) (u : WorkerAt) (t : St) : Prop where
  act : ∃ a, a.by j = true ∧ step p s a = some t
  ws : t.ws = s.ws.set j u
  gen : t.gen = s.gen
  want : t.want = s.want
  job : t.job = s.job
  sent : t.sent = s.sent

/-- A worker that owes the job can go on: it starts, takes the job, ends it, counts itself
out. -/
theorem own_step {p : Pool} {s : St} (h : Good p s) {c j : Nat} (hc : s.job = some c)
    (hj : j < s.want) {w : WorkerAt} (hw : s.ws[j]? = some w) (hdebt : debt s.gen w ≠ 0) :
    ∃ u t, OwnStep p s j u t ∧ rank s.gen u < rank s.gen w := by
  have hsaw := h.saw w (List.mem_of_getElem? hw)
  have hby : ∀ i : Nat, decide (i = i) = true := fun i => decide_eq_true rfl
  cases w with
  | starting =>
    refine ⟨.look 0, { s.setWorker j (.look 0) with ready := s.ready + 1 },
      ⟨⟨.start j, hby j, ?_⟩, rfl, rfl, rfl, rfl, rfl⟩, ?_⟩
    · simp only [step, hw, if_true]
    · simp only [rank]
      split <;> omega
  | look seen =>
    have hgen : ¬s.gen = seen := by
      rintro rfl
      simp [debt] at hdebt
    refine ⟨.run s.gen c, { s.setWorker j (.run s.gen c) with took := (c, j) :: s.took },
      ⟨⟨.take j, hby j, ?_⟩, rfl, rfl, rfl, rfl, rfl⟩, ?_⟩
    · simp only [step, takeStep, hw, hgen, if_false, hc, hj, if_true]
    · simp [rank, Ne.symm hgen]
  | parked seen =>
    have hgen : seen = s.gen := hsaw
    simp [debt, hgen] at hdebt
  | run seen d =>
    refine ⟨.finish seen d false, { s.setWorker j (.finish seen d false) with threw := s.threw },
      ⟨⟨.ended j false, hby j, ?_⟩, rfl, rfl, rfl, rfl, rfl⟩, ?_⟩
    · simp only [step, endedStep, hw, Bool.false_eq_true, if_false]
    · simp [rank]
  | finish seen d bad =>
    have hseen : seen = s.gen := hsaw
    refine ⟨.look seen, { s.setWorker j (.look seen) with
        panics := s.panics + bad.toNat, left := dec s.left
        calls := if dec s.left = 0 then fun d => (s.calls d).notify else s.calls },
      ⟨⟨.finish j, hby j, ?_⟩, rfl, rfl, rfl, rfl, rfl⟩, ?_⟩
    · simp only [step, finishStep, hw]
    · simp [rank, hseen]

/-- A worker that owes nothing has had the job once, and is out of it. -/
theorem taken_once {p : Pool} {s : St} (h : Good p s) {c j : Nat} (hc : s.job = some c)
    (hj : j < s.want) {w : WorkerAt} (hw : s.ws[j]? = some w) (hdebt : debt s.gen w = 0) :
    s.took.count (c, j) = 1 ∧ w.job = none := by
  have htook : w.took s.gen = true ∧ w.job = none := by
    cases w <;> simp_all [debt, WorkerAt.took, WorkerAt.job]
  refine ⟨?_, htook.2⟩
  rw [h.took c j]
  unfold turns
  rw [h.job c hc, hw]
  simp [hj, htook.1]

/-- By its own steps alone, a worker of the job comes to owe nothing. -/
theorem worker_takes {p : Pool} {s : St} (h : Good p s) (hfits : s.sent < 2 ^ 64) {c j : Nat}
    (hc : s.job = some c) (hj : j < s.want) :
    ∃ as t w, (∀ a ∈ as, a.by j = true) ∧ exec (threads p) s as = some t ∧
      t.took.count (c, j) = 1 ∧ t.ws[j]? = some w ∧ w.job = none := by
  have hlt : j < s.ws.length := Nat.lt_of_lt_of_le hj h.want
  obtain ⟨w, hw⟩ : ∃ w, s.ws[j]? = some w := ⟨_, List.getElem?_eq_getElem hlt⟩
  generalize hr : rank s.gen w = r
  induction r using Nat.strongRecOn generalizing s w with
  | ind r ih =>
    by_cases hdebt : debt s.gen w = 0
    · obtain ⟨honce, hout⟩ := taken_once h hc hj hw hdebt
      exact ⟨[], s, w, nofun, rfl, honce, hw, hout⟩
    · obtain ⟨u, t, hown, hrank⟩ := own_step h hc hj hw hdebt
      obtain ⟨a, ha, hst⟩ := hown.act
      have hgood : Good p t := good_moved h (step_moved hst) (hown.sent ▸ hfits)
      have hu : t.ws[j]? = some u := by rw [hown.ws, List.getElem?_set_self hlt]
      obtain ⟨as, t', w', has, he, hdone⟩ := ih (rank t.gen u) (by rw [hown.gen, ← hr]; exact hrank) hgood
        (hown.sent ▸ hfits) (hown.job ▸ hc) (hown.want ▸ hj)
        (Nat.lt_of_lt_of_le (hown.want ▸ hj) hgood.want) u hu rfl
      refine ⟨a :: as, t', w', ?_, ?_, hdone⟩
      · intro b hb
        rcases List.mem_cons.mp hb with rfl | hb
        · exact ha
        · exact has b hb
      · show (step p s a).bind (exec (threads p) · as) = some t'
        rw [hst]
        exact he

/-! ## The laws -/

/-- What a call of the pool may count on, wherever it stands. -/
structure Dispatched (p : Pool) (s : St) : Prop where
  exists_n : ∀ c n, (s.calls c).asks = some n ∨ (s.calls c).lends = some n → n ≤ s.ws.length
  once : ∀ c n, (s.calls c).over = some n → ∀ j, s.took.count (c, j) = if j < n then 1 else 0
  at_most : ∀ c n, (s.calls c).lends = some n → ∀ j, s.took.count (c, j) ≤ if j < n then 1 else 0
  nobody : ∀ c, (s.calls c).lends = none → (s.calls c).over = none → ∀ j, (c, j) ∉ s.took
  left : ∀ (j : Nat) seen c bad, s.ws[j]? = some (.finish seen c bad) → 0 < s.left
  alive : ∀ (j : Nat) w c, s.ws[j]? = some w → w.job = some c →
    s.job = some c ∧ ∃ n, (s.calls c).lends = some n ∧ j < n
  told : ∀ c n bad, s.calls c = .back n bad → (bad = true ↔ ∃ w, (c, w) ∈ s.threw)
  takes : ∀ c n, (s.calls c).lends = some n → ∀ j < n, ∃ as t w, (∀ a ∈ as, a.by j = true) ∧
    exec (threads p) s as = some t ∧ t.took.count (c, j) = 1 ∧ t.ws[j]? = some w ∧ w.job = none
  nearer : ∀ c n, (s.calls c).lends = some n → ∀ a t, step p s a = some t → t.owing ≤ s.owing ∧
    ∀ j < n, ∀ w, s.ws[j]? = some w → debt s.gen w ≠ 0 → a.by j = true → t.owing < s.owing
  waits : ∀ c n ok, s.calls c = .parked n ok → ∃ j < n, ∃ w, s.ws[j]? = some w ∧ debt s.gen w ≠ 0
  ends : ∀ c n ok, s.calls c = .look n ok → s.owing = 0 →
    ∃ t bad, step p s (.wait c) = some t ∧ t.calls c = .leave n ok bad

/-- A worker of the job still owes it when somebody is left. -/
theorem owes_of_left {p : Pool} {s : St} (h : Good p s) (hleft : 0 < s.left) :
    ∃ j < s.want, ∃ w, s.ws[j]? = some w ∧ debt s.gen w ≠ 0 := by
  by_contra hno
  have hall : ∀ w ∈ (s.ws.take s.want), debt s.gen w = 0 := by
    intro w hw
    obtain ⟨j, hj⟩ := List.mem_iff_getElem?.mp hw
    by_contra hdebt
    have hlt := (List.getElem?_eq_some_iff.mp hj).1
    rw [List.length_take] at hlt
    have hjw : j < s.want := by omega
    rw [List.getElem?_take_of_lt hjw] at hj
    exact hno ⟨j, hjw, w, hj, hdebt⟩
  have hzero : weigh (debt s.gen) s.want s.ws = 0 := by
    unfold weigh
    rw [List.map_congr_left hall, List.map_const', List.sum_replicate_nat, Nat.mul_zero]
  have := h.left
  omega

theorem left_of_owing {p : Pool} {s : St} (h : Good p s) (howing : s.owing = 0) : s.left = 0 := by
  by_contra hleft
  obtain ⟨j, hj, w, hw, hdebt⟩ := owes_of_left h (Nat.pos_of_ne_zero hleft)
  have hle := le_weigh (f := rank s.gen) hw hj
  have hrank := mt rank_eq_zero.mp hdebt
  unfold St.owing at howing
  omega

/-- As long as the generations have not run out, the workers below the count have the job of a
call once each, while the call waits, and the wait comes to an end. -/
theorem the_workers_below_the_count_have_the_job_once {p : Pool} {s : St}
    (h : Reachable (threads p) s) (hfits : s.sent < 2 ^ 64) : Dispatched p s := by
  have hgood := reachable_good h hfits
  constructor
  case exists_n =>
    rintro c n (hn | hn)
    · exact hgood.asks c n hn
    · rw [← (hgood.lent c n hn).2]
      exact hgood.want
  case once =>
    intro c n hn j
    rw [hgood.took c j]
    unfold turns
    have hl : (s.calls c).lends = none := by
      generalize s.calls c = x at hn
      cases x <;> first | rfl | cases hn
    rw [hl, hn]
  case at_most =>
    intro c n hn j
    rw [hgood.took c j]
    unfold turns
    rw [hn]
    dsimp only
    split <;> rename_i hj
    · simp [hj.1]
    · exact Nat.zero_le _
  case nobody =>
    intro c hl ho j hmem
    have hpos := List.count_pos_iff.mpr hmem
    rw [hgood.took c j] at hpos
    unfold turns at hpos
    rw [hl, ho] at hpos
    exact absurd hpos (Nat.lt_irrefl 0)
  case left => exact fun j seen c bad hj => left_pos hgood hj rfl
  case alive =>
    intro j w c hj hw
    obtain ⟨hjob, hlt⟩ := hgood.doing j w c hj hw
    exact ⟨hjob, _, hgood.job c hjob, hlt⟩
  case told =>
    intro c n bad hc
    have ht := hgood.told c
    rw [hc] at ht
    refine Iff.trans ht ?_
    unfold thrown
    rw [List.countP_pos_iff]
    constructor
    · rintro ⟨⟨d, w⟩, hmem, hd⟩
      cases of_decide_eq_true hd
      exact ⟨w, hmem⟩
    · rintro ⟨w, hmem⟩
      exact ⟨(c, w), hmem, decide_eq_true rfl⟩
  case takes =>
    intro c n hn j hj
    obtain ⟨hjob, hwant⟩ := hgood.lent c n hn
    exact worker_takes hgood hfits hjob (hwant ▸ hj)
  case nearer =>
    intro c n hn a t hst
    obtain ⟨hjob, hwant⟩ := hgood.lent c n hn
    refine ⟨owing_le hgood hjob (step_moved hst), fun j hj w hw hdebt ha => ?_⟩
    exact owing_lt hgood hjob (hwant ▸ hj) hw hdebt ha hst
  case waits =>
    intro c n ok hc
    rw [← (hgood.lent c n (by rw [hc]; rfl)).2]
    exact owes_of_left hgood (hgood.waits c n ok hc)
  case ends =>
    intro c n ok hc howing
    have hleft := left_of_owing hgood howing
    refine ⟨{ s.setCall c (.leave n ok (decide (0 < s.panics))) with job := none },
      decide (0 < s.panics), by simp only [step, waitStep, hc, hleft, Nat.lt_irrefl, if_false], ?_⟩
    show (if c = c then CallAt.leave n ok (decide (0 < s.panics)) else s.calls c) = _
    rw [if_pos rfl]

def twoThreads : Pool := ⟨2, 0, 0, by decide⟩

/-- The first call falls back to a fresh thread and builds the pool. -/
def warmUp : List Act :=
  [.call 0 1, .load 0 0, .spawnFresh 0 true, .freshEnd 0 false, .meEnd 0 true, .joined 0, .warm 0 true,
    .spawn true, .spawn true, .start 0, .start 1]

/-- Call `c` lends its job to the first worker, and returns. -/
def oneRound (c : Nat) : List Act :=
  [.call c 1, .load c 2, .tryLock c, .send c, .take 0, .ended 0 false, .finish 0, .meEnd c true,
    .wait c, .leave c]

/-- Call `c` lends its job to both workers. -/
def bothSent (c : Nat) : List Act := [.call c 2, .load c 2, .tryLock c, .send c]

/-- A call that has lent its job to both workers. -/
theorem the_workers_have_a_job :
    ∃ s, exec (threads twoThreads) start (warmUp ++ bothSent 1) = some s ∧ s.calls 1 = .me 2 ∧
      Dispatched twoThreads s := by
  obtain ⟨s, hs⟩ : ∃ s, exec (threads twoThreads) start (warmUp ++ bothSent 1) = some s :=
    Option.isSome_iff_exists.mp (by decide)
  have hme : (exec (threads twoThreads) start (warmUp ++ bothSent 1)).map (·.calls 1) = some (.me 2) := by
    decide
  have hsent : (exec (threads twoThreads) start (warmUp ++ bothSent 1)).map (·.sent) = some 1 := by decide
  rw [hs] at hme hsent
  have hreach : Reachable (threads twoThreads) s := Reachable.exec (.start rfl) _ hs
  have hone : s.sent = 1 := Option.some.inj hsent
  refine ⟨s, hs, Option.some.inj hme, the_workers_below_the_count_have_the_job_once hreach ?_⟩
  rw [hone]
  decide

/-! ## The generations run out -/

/-- Both workers have started, and the second one has seen no generation. -/
def scene (gen want sent : Nat) (calls : Nat → CallAt) (took : List (Nat × Nat)) : St where
  job := none
  gen := gen
  want := want
  left := 0
  panics := 0
  busy := .free
  ready := 2
  started := true
  building := true
  ws := [.look gen, .look 0]
  calls := calls
  sent := sent
  took := took
  threw := []

def put (calls : Nat → CallAt) (c : Nat) (x : CallAt) : Nat → CallAt :=
  fun d => if d = c then x else calls d

@[simp] theorem put_self (calls : Nat → CallAt) (c : Nat) (x : CallAt) : put calls c x c = x :=
  if_pos rfl

@[simp] theorem put_put (calls : Nat → CallAt) (c : Nat) (x y : CallAt) :
    put (put calls c x) c y = put calls c y := by
  funext d
  unfold put
  split <;> rfl

theorem setCall_eq (s : St) (c : Nat) (x : CallAt) : s.setCall c x = { s with calls := put s.calls c x } :=
  rfl

theorem exec_warmUp : exec (threads twoThreads) start warmUp =
    some (scene 0 0 0 (put (fun _ => .idle) 0 (.back none false)) []) := by
  simp [exec, threads, warmUp, step, start, setCall_eq, up, twoThreads, spawnFreshStep, freshEndStep,
    meEndStep, joinedStep, warmStep, spawnStep, St.setWorker, scene]

theorem put_notify (calls : Nat → CallAt) (c : Nat) (x : CallAt) :
    (fun d => (put calls c x d).notify) = put (fun d => (calls d).notify) c x.notify := by
  funext d
  unfold put
  split <;> rfl

theorem exec_oneRound {g want sent c : Nat} {calls : Nat → CallAt} {took : List (Nat × Nat)}
    (hc : calls c = .idle) (hn : (fun d => (calls d).notify) = calls) (hg : ¬bump g = g) :
    exec (threads twoThreads) (scene g want sent calls took) (oneRound c) =
      some (scene (bump g) 1 (sent + 1) (put calls c (.back (some 1) false)) ((c, 0) :: took)) := by
  have hdec : dec 1 = 0 := by decide
  have hme : (CallAt.me 1).notify = .me 1 := rfl
  simp [exec, threads, oneRound, step, scene, hc, setCall_eq, up, twoThreads, tryLockStep,
    sendStep, takeStep, endedStep, finishStep, meEndStep, waitStep, leaveStep, hg, notifyAll,
    work, St.setWorker, hdec, put_notify, hn, hme]

/-- Call `k` is the next one, and every one before it had the first worker alone. -/
def Asleep (k : Nat) (s : St) : Prop :=
  ∃ want calls took, s = scene (k % 2 ^ 64) want k calls took ∧
    (fun d => (calls d).notify) = calls ∧ (∀ c, k < c → calls c = .idle) ∧ ∀ x ∈ took, x.1 ≤ k

theorem reachable_asleep (k : Nat) : ∃ s, Reachable (threads twoThreads) s ∧ Asleep k s := by
  induction k with
  | zero =>
    refine ⟨_, Reachable.exec (.start rfl) warmUp exec_warmUp, 0, _, [], rfl, ?_, fun c hc => ?_, nofun⟩
    · exact put_notify _ _ _
    · exact if_neg (by omega)
  | succ k ih =>
    obtain ⟨_, hr, want, calls, took, rfl, hn, hidle, hle⟩ := ih
    have hbump : bump (k % 2 ^ 64) = (k + 1) % 2 ^ 64 := by
      unfold bump
      omega
    have hround := @exec_oneRound (k % 2 ^ 64) want k (k + 1) calls took
      (hidle (k + 1) (Nat.lt_succ_self k)) hn (by omega)
    refine ⟨_, hr.exec _ hround, 1, _, _, by rw [hbump], ?_, fun c hc => ?_, fun x hx => ?_⟩
    · rw [put_notify, hn]
      rfl
    · unfold put
      rw [if_neg (by omega)]
      exact hidle c (by omega)
    · rcases List.mem_cons.mp hx with rfl | hx
      · exact Nat.le_refl _
      · exact Nat.le_succ_of_le (hle x hx)

/-- A worker that has seen the generation can only park. -/
theorem sleeper_stays {s t : St} {j : Nat}
    (hw : s.ws[j]? = some (.look s.gen) ∨ s.ws[j]? = some (.parked s.gen)) {as : List Act}
    (has : ∀ a ∈ as, a.by j = true) {p : Pool} (h : exec (threads p) s as = some t) :
    t.took = s.took := by
  induction as generalizing s with
  | nil =>
    cases h
    rfl
  | cons a as ih =>
    simp only [exec, Option.bind_eq_some_iff] at h
    obtain ⟨u, hu, hrest⟩ := h
    have hby := has a List.mem_cons_self
    have hwhere : ∀ w, s.ws[j]? = some w → w = .look s.gen ∨ w = .parked s.gen := by
      intro w hv
      rcases hw with hw | hw
      · exact Or.inl (Option.some.inj (hv.symm.trans hw))
      · exact Or.inr (Option.some.inj (hv.symm.trans hw))
    have hstep : a = .take j ∧ s.ws[j]? = some (.look s.gen) := by
      cases a <;> first | cases hby | cases of_decide_eq_true hby
      case start =>
        simp only [threads, step] at hu
        split at hu
        · rename_i hv
          rcases hwhere _ hv with h | h <;> cases h
        · cases hu
      case take =>
        refine ⟨rfl, hw.resolve_right fun hv => ?_⟩
        simp only [threads, step, takeStep, hv] at hu
        cases hu
      case ended =>
        simp only [threads, step, endedStep] at hu
        split at hu
        · rename_i hv
          rcases hwhere _ hv with h | h <;> cases h
        · cases hu
      case finish =>
        simp only [threads, step, finishStep] at hu
        split at hu
        · rename_i hv
          rcases hwhere _ hv with h | h <;> cases h
        · cases hu
    obtain ⟨rfl, hlook⟩ := hstep
    simp only [threads, step, takeStep, hlook, if_true, Option.some.injEq] at hu
    subst hu
    have hlt := (List.getElem?_eq_some_iff.mp hlook).1
    have hparked : (s.setWorker j (.parked s.gen)).ws[j]? = some (.parked s.gen) :=
      List.getElem?_set_self hlt
    exact ih (s := s.setWorker j (.parked s.gen)) (Or.inr hparked)
      (fun b hb => has b (List.mem_cons_of_mem _ hb)) hrest

/-- At dispatch `2^64` the generation is 0 again. The second worker has seen 0, so it parks
instead of taking the job, and the call waits for it. -/
theorem a_worker_sleeps_through_the_generations :
    ¬ ∀ (p : Pool) (s : St), Reachable (threads p) s → Dispatched p s := by
  intro h
  obtain ⟨_, hr, want, calls, took, rfl, hn, hidle, hle⟩ := reachable_asleep (2 ^ 64 - 1)
  have hc := hidle (2 ^ 64) (by omega)
  have hgen : (2 ^ 64 - 1) % 2 ^ 64 = 2 ^ 64 - 1 := Nat.mod_eq_of_lt (by omega)
  have hbump : bump (2 ^ 64 - 1) = 0 := by decide
  generalize hk : 2 ^ 64 - 1 = k at *
  generalize hl : 2 ^ 64 = l at *
  have hsent : exec (threads twoThreads) (scene k want k calls took) (bothSent l) =
      some { scene k want k calls took with
        job := some l, gen := 0, want := 2, left := 2, busy := .held l
        calls := put calls l (.me 2), sent := k + 1 } := by
    simp [exec, threads, bothSent, step, scene, hc, setCall_eq, up, twoThreads, tryLockStep, sendStep,
      notifyAll, work, hbump]
  have hlends : (put calls l (.me 2) l).lends = some 2 := by rw [put_self]; rfl
  obtain ⟨as, t, w, has, he, honce, _⟩ :=
    (h twoThreads _ ((hgen ▸ hr).exec _ hsent)).takes l 2 hlends 1 (by decide)
  have hsame : t.took = took := sleeper_stays (Or.inl rfl) has he
  rw [hsame] at honce
  have hmem := List.count_pos_iff.mp (honce ▸ Nat.zero_lt_one)
  have := hle _ hmem
  omega

end parquet_interop.pool
