-- The waits of the write queue. No wake is lost while the master runs, and
-- when the calling thread returns from the master every worker comes home.
-- A calling thread that unwinds sets no error and wakes nobody.
import ParquetInterop.QueueSafety

open lib.runs lib.parking

namespace parquet_interop.write_queue

/-! ## Who can move -/

/-- The worker runs, or it has a wake on its way. -/
def WorkerAt.active : WorkerAt → Bool
  | .unborn | .parked | .gone => false
  | _ => true

/-- The calling thread runs, or it has a wake on its way. -/
def MasterAt.runnable : MasterAt → Bool
  | .parked _ _ => false
  | _ => true

/-- The calling thread has left `master`, or never came to it. -/
def MasterAt.left : MasterAt → Bool
  | .returned _ | .unwound | .closing | .erred _ | .raised => true
  | _ => false

/-- The master is between the error of its own `fail` and the wake of the workers. -/
def MasterAt.failing : MasterAt → Bool
  | .failWork _ => true
  | _ => false

def SomeActive (s : St) : Prop := ∃ w ∈ s.ws, w.active = true

/-- The state of the waits. A task is never dropped without an error on its way, a worker
parks only on a full window, and every error has its two wakes on their way. -/
structure Alive (p : Plan) (s : St) : Prop where
  pending : ∀ i, s.q.head ≤ i → i < s.q.next → (∃ ch, s.q.done i = some ch) ∨
    (∃ k, .encode k ∈ s.ws ∧ k.i = i) ∨ s.q.err.isSome ∨ ∃ e, .fail e ∈ s.ws
  master_waits : ∀ g c, s.m = .parked g c → s.q.done (g * p.nc + c) = none ∧
    (s.q.err = none ∨ .failWork ∈ s.ws ∨ .failMaster ∈ s.ws)
  parked_full : .parked ∈ s.ws → s.q.next < s.q.head + p.window → s.q.next < p.ntasks →
    s.q.err = none → SomeActive s
  gone_done : .gone ∈ s.ws → s.q.err.isSome ∨ p.ntasks ≤ s.q.next
  woken : .failWork ∈ s.ws ∨ .failMaster ∈ s.ws → s.q.err.isSome
  err_wakes : s.q.err.isSome → .parked ∈ s.ws → .failWork ∈ s.ws ∨ s.m.failing = true

/-! ## Turns of one worker -/

/-- One worker goes from `v` to `u`, and the others stay. -/
structure Turned (ws us : List WorkerAt) (v u : WorkerAt) : Prop where
  there : u ∈ us
  kept : ∀ w ∈ ws, w = v ∨ w ∈ us
  came : ∀ w ∈ us, w = u ∨ w ∈ ws

theorem turned_set {ws : List WorkerAt} {j : Nat} {v : WorkerAt} (u : WorkerAt)
    (h : ws[j]? = some v) : Turned ws (ws.set j u) v u := by
  have hlt := (List.getElem?_eq_some_iff.mp h).1
  refine ⟨List.mem_set hlt u, ?_, ?_⟩
  · intro w hw
    obtain ⟨i, hi⟩ := List.mem_iff_getElem?.mp hw
    by_cases hij : j = i
    · subst hij
      exact Or.inl (Option.some.inj (hi.symm.trans h))
    · exact Or.inr (List.mem_iff_getElem?.mpr ⟨i, by rw [List.getElem?_set_ne hij]; exact hi⟩)
  · intro w hw
    rcases List.mem_or_eq_of_mem_set hw with hw | hw
    · exact Or.inr hw
    · exact Or.inl hw

theorem Turned.keeps {ws us : List WorkerAt} {v u w : WorkerAt} (h : Turned ws us v u)
    (hw : w ∈ ws) (hne : w ≠ v) : w ∈ us :=
  (h.kept w hw).resolve_left hne

theorem Turned.was {ws us : List WorkerAt} {v u w : WorkerAt} (h : Turned ws us v u)
    (hw : w ∈ us) (hne : w ≠ u) : w ∈ ws :=
  (h.came w hw).resolve_left hne

/-- After a wake of all, a worker that was not parked is where it was. -/
theorem mem_notifyAll {ws : List WorkerAt} {w : WorkerAt} (hne : w ≠ .look) :
    w ∈ notifyAll work ws ↔ w ∈ ws ∧ w ≠ .parked := by
  simp only [notifyAll, work, List.mem_map]
  constructor
  · rintro ⟨v, hv, rfl⟩
    by_cases hp : v = .parked
    · simp [hp] at hne
    · simp [hp, hv]
  · rintro ⟨hw, hp⟩
    exact ⟨w, hw, by simp [hp]⟩

theorem parked_notifyAll (ws : List WorkerAt) : .parked ∉ notifyAll work ws := by
  intro h
  exact ((mem_notifyAll (by simp)).mp h).2 rfl

/-- A turn that drops no claim and no error on its way, and that parks only on a full
window, keeps the waits alive. -/
theorem alive_setWorker {p : Plan} {s : St} {j : Nat} {v u : WorkerAt} (h : Alive p s)
    (hv : s.ws[j]? = some v)
    (hlost : v = .look ∨ v = .parked ∨ (∃ k, v = .encode k) ∧ ∃ e, u = .fail e)
    (hwake : u ≠ .failWork ∧ u ≠ .failMaster)
    (hpark : u = .parked → s.q.err = none ∧ s.q.head + p.window ≤ s.q.next)
    (hgone : u = .gone → s.q.err.isSome ∨ p.ntasks ≤ s.q.next)
    (hrest : u.active = true ∨ u = .parked ∨ u = .gone) : Alive p (s.setWorker j u) := by
  have ht := turned_set u hv
  have hact : v = .look ∨ v = .parked → ∀ w, w = .failWork ∨ w = .failMaster ∨ (∃ e, w = .fail e) ∨
      (∃ k, w = .encode k) → w ≠ v := by
    rintro (rfl | rfl) w (rfl | rfl | ⟨e, rfl⟩ | ⟨k, rfl⟩) <;> simp
  have hkeep : ∀ w, w = .failWork ∨ w = .failMaster ∨ (∃ e, w = .fail e) → w ≠ v := by
    rcases hlost with hl | hl | ⟨⟨k, rfl⟩, _⟩
    · exact fun w hw => hact (Or.inl hl) w (hw.imp_right (Or.imp_right Or.inl))
    · exact fun w hw => hact (Or.inr hl) w (hw.imp_right (Or.imp_right Or.inl))
    · rintro w (rfl | rfl | ⟨e, rfl⟩) <;> simp
  constructor
  case pending =>
    intro i hi hn
    rcases h.pending i hi hn with hd | ⟨k, hk, hki⟩ | he | ⟨e, he⟩
    · exact Or.inl hd
    · rcases hlost with hl | hl | ⟨_, e, rfl⟩
      · exact Or.inr (Or.inl ⟨k, ht.keeps hk (hact (Or.inl hl) _ (by simp)), hki⟩)
      · exact Or.inr (Or.inl ⟨k, ht.keeps hk (hact (Or.inr hl) _ (by simp)), hki⟩)
      · exact Or.inr (Or.inr (Or.inr ⟨e, ht.there⟩))
    · exact Or.inr (Or.inr (Or.inl he))
    · exact Or.inr (Or.inr (Or.inr ⟨e, ht.keeps he (hkeep _ (by simp))⟩))
  case master_waits =>
    intro g c hm
    obtain ⟨hd, hw⟩ := h.master_waits g c hm
    refine ⟨hd, ?_⟩
    rcases hw with he | hw | hw
    · exact Or.inl he
    · exact Or.inr (Or.inl (ht.keeps hw (hkeep _ (by simp))))
    · exact Or.inr (Or.inr (ht.keeps hw (hkeep _ (by simp))))
  case parked_full =>
    intro _ hroom hmore herr
    rcases hrest with hu | hu | hu
    · exact ⟨u, ht.there, hu⟩
    · have := (hpark hu).2
      exact absurd hroom (Nat.not_lt.mpr this)
    · rcases hgone hu with he | hn
      · rw [show s.q.err = none from herr] at he
        cases he
      · exact absurd hmore (Nat.not_lt.mpr hn)
  case gone_done =>
    intro hg
    rcases ht.came _ hg with rfl | hg
    · exact hgone rfl
    · exact h.gone_done hg
  case woken =>
    rintro (hw | hw)
    · exact h.woken (Or.inl (ht.was hw hwake.1.symm))
    · exact h.woken (Or.inr (ht.was hw hwake.2.symm))
  case err_wakes =>
    intro he hp
    rcases ht.came _ hp with rfl | hp
    · have he' : s.q.err.isSome = true := he
      rw [(hpark rfl).1] at he'
      cases he'
    · rcases h.err_wakes he hp with hw | hm
      · exact Or.inl (ht.keeps hw (hkeep _ (by simp)))
      · exact Or.inr hm

/-! ## The other moves -/

/-- A move of the calling thread alone. -/
theorem alive_master {p : Plan} {s t : St} (h : Alive p s) (hq : t.q = s.q) (hws : t.ws = s.ws)
    (hpark : ∀ g c, t.m = .parked g c → s.q.done (g * p.nc + c) = none ∧ s.q.err = none)
    (hfail : s.m.failing = true → t.m.failing = true) : Alive p t := by
  constructor
  case pending => rw [hq, hws]; exact h.pending
  case master_waits =>
    intro g c hm
    rw [hq]
    exact ⟨(hpark g c hm).1, Or.inl (hpark g c hm).2⟩
  case parked_full =>
    unfold SomeActive
    rw [hq, hws]
    exact h.parked_full
  case gone_done => rw [hq, hws]; exact h.gone_done
  case woken => rw [hq, hws]; exact h.woken
  case err_wakes =>
    rw [hq, hws]
    exact fun he hp => (h.err_wakes he hp).imp_right hfail

/-- A wake of all the workers. -/
theorem alive_notifyAll {p : Plan} {s : St} {m : MasterAt} (h : Alive p s)
    (hm : m.runnable = true) : Alive p { s with ws := notifyAll work s.ws, m } := by
  constructor
  case pending =>
    intro i hi hn
    rcases h.pending i hi hn with hd | ⟨k, hk, hki⟩ | he | ⟨e, he⟩
    · exact Or.inl hd
    · exact Or.inr (Or.inl ⟨k, (mem_notifyAll (by simp)).mpr ⟨hk, by simp⟩, hki⟩)
    · exact Or.inr (Or.inr (Or.inl he))
    · exact Or.inr (Or.inr (Or.inr ⟨e, (mem_notifyAll (by simp)).mpr ⟨he, by simp⟩⟩))
  case master_waits =>
    rintro g c rfl
    cases hm
  case parked_full =>
    intro hp
    exact absurd hp (parked_notifyAll s.ws)
  case gone_done =>
    intro hg
    exact h.gone_done ((mem_notifyAll (by simp)).mp hg).1
  case woken =>
    rintro (hw | hw)
    · exact h.woken (Or.inl ((mem_notifyAll (by simp)).mp hw).1)
    · exact h.woken (Or.inr ((mem_notifyAll (by simp)).mp hw).1)
  case err_wakes =>
    intro _ hp
    exact absurd hp (parked_notifyAll s.ws)

theorem notify_parked {m : MasterAt} {g c : Nat} : m.notify ≠ .parked g c := by
  cases m <;> simp [MasterAt.notify]

theorem notify_failing (m : MasterAt) : m.notify.failing = m.failing := by
  cases m <;> rfl

/-- A finished chunk reaches `done` before its worker looks again, and the master wakes. -/
theorem alive_finish {p : Plan} {s : St} {j : Nat} {k : Claim} (h : Alive p s)
    (hj : s.ws[j]? = some (.encode k)) : Alive p (encodedStep p s j k .ok) := by
  have ht := turned_set .look hj
  constructor
  case pending =>
    intro i hi hn
    by_cases hik : i = k.i
    · exact Or.inl ⟨encodeOf p k, by simp [encodedStep, hik]⟩
    rcases h.pending i hi hn with hd | ⟨k', hk', hki⟩ | he | ⟨e, he⟩
    · exact Or.inl (by simpa [encodedStep, hik] using hd)
    · refine Or.inr (Or.inl ⟨k', ht.keeps hk' ?_, hki⟩)
      rintro hkk
      cases hkk
      exact hik hki.symm
    · exact Or.inr (Or.inr (Or.inl he))
    · exact Or.inr (Or.inr (Or.inr ⟨e, ht.keeps he (by simp)⟩))
  case master_waits =>
    intro g c hm
    exact absurd hm notify_parked
  case parked_full =>
    intro _ _ _ _
    exact ⟨.look, ht.there, rfl⟩
  case gone_done =>
    intro hg
    exact h.gone_done (ht.was hg (by simp))
  case woken =>
    rintro (hw | hw)
    · exact h.woken (Or.inl (ht.was hw (by simp)))
    · exact h.woken (Or.inr (ht.was hw (by simp)))
  case err_wakes =>
    intro he hp
    rcases h.err_wakes he (ht.was hp (by simp)) with hw | hm
    · exact Or.inl (ht.keeps hw (by simp))
    · exact Or.inr ((notify_failing s.m).trans hm)

/-- A claim moves its worker on to the encoding, or to the error of a lost writer. -/
theorem claim_turns (p : Plan) (s : St) (j n : Nat) : ∃ w,
    (takeTask p (openWriters p s n) j).ws = s.ws.set j w ∧
      ((∃ k, w = .encode k ∧ k.i = s.q.next) ∨ ∃ e, w = .fail e) := by
  obtain ⟨h1, _, _, _, _, h6, _⟩ := openWriters_fields p s n
  simp only [takeTask, h1, h6]
  refine ⟨_, rfl, ?_⟩
  rcases writerAt (openWriters p s n) (s.q.next / p.nc) (s.q.next % p.nc) with _ | wr
  · exact Or.inr ⟨_, rfl⟩
  · exact Or.inl ⟨_, rfl, rfl⟩

theorem alive_claim {p : Plan} {s : St} {j : Nat} (n : Nat) (h : Alive p s) (hr : Room p s j) :
    Alive p (takeTask p (openWriters p s n) j) := by
  obtain ⟨_, h2, _, _, _, h6, h7, h8, h9⟩ := openWriters_fields p s n
  obtain ⟨w, hws, hcase⟩ := claim_turns p s j n
  have ht := turned_set w hr.at_look
  have hact : w.active = true := by rcases hcase with ⟨k, rfl, _⟩ | ⟨e, rfl⟩ <;> rfl
  have hne : ∀ v : WorkerAt, v = .gone ∨ v = .parked ∨ v = .failWork ∨ v = .failMaster → v ≠ w := by
    rintro v (rfl | rfl | rfl | rfl) <;> rcases hcase with ⟨k, rfl, _⟩ | ⟨e, rfl⟩ <;> simp
  constructor
  case pending =>
    simp only [hws]
    simp only [takeTask, h6, h7, h8, h9]
    intro i hi hn
    by_cases hin : i = s.q.next
    · rcases hcase with ⟨k, rfl, hk⟩ | ⟨e, rfl⟩
      · exact Or.inr (Or.inl ⟨k, ht.there, hk.trans hin.symm⟩)
      · exact Or.inr (Or.inr (Or.inr ⟨e, ht.there⟩))
    rcases h.pending i hi (by omega) with hd | ⟨k, hk, hki⟩ | he | ⟨e, he⟩
    · exact Or.inl hd
    · exact Or.inr (Or.inl ⟨k, ht.keeps hk (by simp), hki⟩)
    · exact Or.inr (Or.inr (Or.inl he))
    · exact Or.inr (Or.inr (Or.inr ⟨e, ht.keeps he (by simp)⟩))
  case master_waits =>
    simp only [hws]
    simp only [takeTask, h2, h8, h9]
    intro g c hm
    exact ⟨(h.master_waits g c hm).1, Or.inl hr.no_err⟩
  case parked_full =>
    intro _ _ _ _
    exact ⟨w, hws ▸ ht.there, hact⟩
  case gone_done =>
    intro hg
    rw [hws] at hg
    rcases h.gone_done (ht.was hg (hne _ (by simp))) with he | hn
    · rw [hr.no_err] at he
      cases he
    · exact absurd hr.more (Nat.not_lt.mpr hn)
  case woken =>
    simp only [hws]
    simp only [takeTask, h9]
    rintro (hg | hg)
    · exact h.woken (Or.inl (ht.was hg (hne _ (by simp))))
    · exact h.woken (Or.inr (ht.was hg (hne _ (by simp))))
  case err_wakes =>
    intro he
    simp only [takeTask, h9, hr.no_err] at he
    cases he

theorem recordErr_isSome (s : St) (e : String) : (s.recordErr e).q.err.isSome = true := rfl

/-- The first step of `fail`: the error is set, and the two wakes are still to come. -/
theorem alive_failErr {p : Plan} {s : St} {j : Nat} {e : String} (h : Alive p s)
    (hj : s.ws[j]? = some (.fail e)) : Alive p ((s.recordErr e).setWorker j .failWork) := by
  have ht := turned_set .failWork hj
  constructor
  case pending => exact fun _ _ _ => Or.inr (Or.inr (Or.inl (recordErr_isSome s e)))
  case master_waits =>
    intro g c hm
    exact ⟨(h.master_waits g c hm).1, Or.inr (Or.inl ht.there)⟩
  case parked_full => exact fun _ _ _ _ => ⟨.failWork, ht.there, rfl⟩
  case gone_done => exact fun _ => Or.inl (recordErr_isSome s e)
  case woken => exact fun _ => recordErr_isSome s e
  case err_wakes => exact fun _ _ => Or.inl ht.there

/-- The second step of `fail`: the parked workers wake. -/
theorem alive_failWork {p : Plan} {s : St} {j : Nat} (h : Alive p s)
    (hj : s.ws[j]? = some .failWork) :
    Alive p { s with ws := (notifyAll work s.ws).set j .failMaster } := by
  have herr := h.woken (Or.inl (List.mem_of_getElem? hj))
  have hj' : (notifyAll work s.ws)[j]? = some .failWork := by
    rw [notifyAll_getElem?, hj]
    rfl
  have ht := turned_set .failMaster hj'
  constructor
  case pending => exact fun _ _ _ => Or.inr (Or.inr (Or.inl herr))
  case master_waits =>
    intro g c hm
    exact ⟨(h.master_waits g c hm).1, Or.inr (Or.inr ht.there)⟩
  case parked_full => exact fun _ _ _ _ => ⟨.failMaster, ht.there, rfl⟩
  case gone_done => exact fun _ => Or.inl herr
  case woken => exact fun _ => herr
  case err_wakes =>
    intro _ hp
    exact absurd (ht.was hp (by simp)) (parked_notifyAll s.ws)

/-- The last step of `fail`: the master wakes, and the worker is done. -/
theorem alive_failMaster {p : Plan} {s : St} {j : Nat} (h : Alive p s)
    (hj : s.ws[j]? = some .failMaster) :
    Alive p { s with ws := s.ws.set j .gone, m := s.m.notify } := by
  have herr := h.woken (Or.inr (List.mem_of_getElem? hj))
  have ht := turned_set .gone hj
  constructor
  case pending => exact fun _ _ _ => Or.inr (Or.inr (Or.inl herr))
  case master_waits =>
    intro g c hm
    exact absurd hm notify_parked
  case parked_full =>
    intro _ _ _ hnone
    rw [show s.q.err = none from hnone] at herr
    cases herr
  case gone_done => exact fun _ => Or.inl herr
  case woken => exact fun _ => herr
  case err_wakes =>
    intro he hp
    rcases h.err_wakes he (ht.was hp (by simp)) with hw | hm
    · exact Or.inl (ht.keeps hw (by simp))
    · exact Or.inr ((notify_failing s.m).trans hm)

/-- The master takes its chunk, frees one slot of the window and wakes one worker. -/
theorem alive_take {p : Plan} {s : St} {g c : Nat} {ch : Chunk} {k : Option Nat}
    {ws : List WorkerAt} (h : Alive p s) (hm : s.m = .look g c)
    (hhead : s.q.head = g * p.nc + c) (hws : notifyOne work s.ws k = some ws) :
    Alive p { s with
      q := { s.q with
        head := g * p.nc + c + 1,
        done := fun i => if i = g * p.nc + c then none else s.q.done i }
      ws, m := .append g c ch } := by
  have hsame : ∀ w, w ≠ .look → w ≠ .parked → (w ∈ ws ↔ w ∈ s.ws) := by
    intro w hl hp
    rcases notifyOne_cases work hws with ⟨rfl, _⟩ | ⟨j, v, hj, hv, rfl⟩
    · rfl
    · have hv' : v = .parked := by simpa [work] using hv
      have ht := turned_set .look hj
      exact ⟨fun hw => ht.was hw hl, fun hw => ht.keeps hw (hv' ▸ hp)⟩
  have hpark : .parked ∈ ws → SomeActive { s with ws } ∧ .parked ∈ s.ws := by
    intro hp
    rcases notifyOne_cases work hws with ⟨rfl, hnone⟩ | ⟨j, v, hj, _, rfl⟩
    · have := hnone _ hp
      simp [work] at this
    · have ht := turned_set .look hj
      exact ⟨⟨.look, ht.there, rfl⟩, ht.was hp (by simp)⟩
  constructor
  case pending =>
    intro i hi hn
    have hi' : g * p.nc + c + 1 ≤ i := hi
    rcases h.pending i (by omega) hn with hd | ⟨k, hk, hki⟩ | he | ⟨e, he⟩
    · have hne : i ≠ g * p.nc + c := by omega
      exact Or.inl (by simpa [hne] using hd)
    · exact Or.inr (Or.inl ⟨k, (hsame _ (by simp) (by simp)).mpr hk, hki⟩)
    · exact Or.inr (Or.inr (Or.inl he))
    · exact Or.inr (Or.inr (Or.inr ⟨e, (hsame _ (by simp) (by simp)).mpr he⟩))
  case master_waits =>
    intro g' c' hm'
    cases hm'
  case parked_full => exact fun hp _ _ _ => (hpark hp).1
  case gone_done => exact fun hg => h.gone_done ((hsame _ (by simp) (by simp)).mp hg)
  case woken =>
    rintro (hw | hw)
    · exact h.woken (Or.inl ((hsame _ (by simp) (by simp)).mp hw))
    · exact h.woken (Or.inr ((hsame _ (by simp) (by simp)).mp hw))
  case err_wakes =>
    intro he hp
    rcases h.err_wakes he (hpark hp).2 with hw | hf
    · exact Or.inl ((hsame _ (by simp) (by simp)).mpr hw)
    · rw [hm] at hf
      cases hf

/-! ## The start of the workers -/

/-- While the calling thread starts worker `k`, no worker from `k` on runs, and outside the
start every worker was started. -/
structure Started (s : St) : Prop where
  ahead : ∀ k, s.m = .spawn k → ∀ (j : Nat) v, k ≤ j → s.ws[j]? = some v → v = .unborn
  born : ∀ j : Nat, s.ws[j]? = some .unborn → s.m.left = true ∨ ∃ k, s.m = .spawn k ∧ k ≤ j

theorem notify_spawn {m : MasterAt} {k : Nat} : m.notify = .spawn k ↔ m = .spawn k := by
  cases m <;> simp [MasterAt.notify]

theorem notify_left (m : MasterAt) : m.notify.left = m.left := by
  cases m <;> rfl

theorem started_setWorker {s : St} {j : Nat} {v u : WorkerAt} (h : Started s)
    (hv : s.ws[j]? = some v) (hne : v ≠ .unborn) (hu : u ≠ .unborn) :
    Started (s.setWorker j u) := by
  constructor
  · intro k hk i w hki hw
    simp only [St.setWorker, List.getElem?_set] at hw
    split at hw
    · rename_i hij
      exact absurd (h.ahead k hk j v (by omega) hv) hne
    · exact h.ahead k hk i w hki hw
  · intro i hi
    simp only [St.setWorker, List.getElem?_set] at hi
    split at hi
    · split at hi
      · exact absurd (Option.some.inj hi) hu
      · cases hi
    · exact h.born i hi

/-- Past the start, a move that starts nobody anew. -/
theorem started_past {s t : St} (h : Started s) (hs : ∀ k, s.m ≠ .spawn k)
    (ht : ∀ k, t.m ≠ .spawn k) (hleft : s.m.left = true → t.m.left = true)
    (hws : ∀ j : Nat, t.ws[j]? = some .unborn → s.ws[j]? = some .unborn) : Started t := by
  constructor
  · intro k hk
    exact absurd hk (ht k)
  · intro j hj
    rcases h.born j (hws j hj) with hl | ⟨k, hk, _⟩
    · exact Or.inl (hleft hl)
    · exact absurd hk (hs k)

theorem unborn_notifyAll {ws : List WorkerAt} {j : Nat} (h : (notifyAll work ws)[j]? = some .unborn) :
    ws[j]? = some .unborn := by
  rw [notifyAll_getElem?, Option.map_eq_some_iff] at h
  obtain ⟨w, hw, hwu⟩ := h
  split at hwu
  · cases hwu
  · exact hwu ▸ hw

theorem unborn_notifyOne {ws us : List WorkerAt} {k : Option Nat} {j : Nat}
    (h : notifyOne work ws k = some us) (hj : us[j]? = some .unborn) : ws[j]? = some .unborn := by
  rcases notifyOne_cases work h with ⟨rfl, _⟩ | ⟨i, v, _, _, rfl⟩
  · exact hj
  · rw [List.getElem?_set] at hj
    split at hj
    · split at hj <;> simp [work] at hj
    · exact hj

theorem started_notify {s t : St} (h : Started s) (hws : t.ws = s.ws) (hm : t.m = s.m.notify) :
    Started t := by
  constructor
  · intro k hk
    rw [hm, notify_spawn] at hk
    exact hws ▸ h.ahead k hk
  · intro j hj
    rw [hm, notify_left]
    simp only [notify_spawn]
    exact h.born j (hws ▸ hj)

theorem started_failWork {s : St} {j : Nat} (h : Started s) (hj : s.ws[j]? = some .failWork) :
    Started { s with ws := (notifyAll work s.ws).set j .failMaster } := by
  have hall : Started { s with ws := notifyAll work s.ws } := by
    refine ⟨?_, fun i hi => h.born i (unborn_notifyAll hi)⟩
    intro k hk i v hki hv
    rw [notifyAll_getElem?, Option.map_eq_some_iff] at hv
    obtain ⟨w, hw, rfl⟩ := hv
    rw [h.ahead k hk i w hki hw]
    rfl
  have hj' : (notifyAll work s.ws)[j]? = some .failWork := by
    rw [notifyAll_getElem?, hj]
    rfl
  exact started_setWorker hall hj' (by simp) (by simp)

theorem started_claim {p : Plan} {s : St} {j : Nat} (n : Nat) (h : Started s) (hr : Room p s j) :
    Started (takeTask p (openWriters p s n) j) := by
  obtain ⟨w, hws, hcase⟩ := claim_turns p s j n
  have hm : (takeTask p (openWriters p s n) j).m = s.m := (openWriters_fields p s n).2.1
  have hne : w ≠ .unborn := by rcases hcase with ⟨k, rfl, _⟩ | ⟨e, rfl⟩ <;> simp
  have hset := started_setWorker h hr.at_look (by simp) hne
  constructor
  · rw [hm, hws]
    exact hset.ahead
  · rw [hm, hws]
    exact hset.born

theorem started_moved {p : Plan} {s t : St} (hg : Good p s) (h : Started s) (hm : Moved p s t) :
    Started t := by
  cases hm with
  | dispatch hs =>
    refine ⟨fun k hk => (by cases hk), fun j hj => ?_⟩
    rw [List.getElem?_replicate] at hj
    split at hj <;> cases hj
  | @spawn k hs hk =>
    constructor
    · intro k' hk' j v hkj hv
      cases hk'
      rw [List.getElem?_set_ne (by omega)] at hv
      exact h.ahead k hs j v (by omega) hv
    · intro j hj
      rw [List.getElem?_set] at hj
      split at hj
      · split at hj <;> cases hj
      · rename_i hkj
        rcases h.born j hj with hl | ⟨k', hk', hle⟩
        · rw [hs] at hl
          cases hl
        · rw [hs] at hk'
          cases hk'
          exact Or.inr ⟨k + 1, rfl, by omega⟩
  | spawnFailed hs hk => exact ⟨fun k hk => (by cases hk), fun _ _ => Or.inl rfl⟩
  | spawned hs hk =>
    refine ⟨fun k hk => (by cases hk), fun j hj => ?_⟩
    have hlt := (List.getElem?_eq_some_iff.mp hj).1
    have hlen := hg.len
    rcases h.born j hj with hl | ⟨k', hk', hle⟩
    · rw [hs] at hl
      cases hl
    · rw [hs] at hk'
      cases hk'
      change j < s.ws.length at hlt
      omega
  | gone hj _ => exact started_setWorker h hj (by simp) (by simp)
  | park hj _ _ _ => exact started_setWorker h hj (by simp) (by simp)
  | claim n hr => exact started_claim n h hr
  | noWriters hr => exact started_setWorker h hr.at_look (by simp) (by simp)
  | finish hj => exact started_notify (started_setWorker h hj (by simp) (u := .look) (by simp)) rfl rfl
  | encodeFailed hj => exact started_setWorker h hj (by simp) (by simp)
  | @failErr j e hj =>
    have hrec : Started (s.recordErr e) := ⟨h.ahead, h.born⟩
    exact started_setWorker hrec hj (by simp) (by simp)
  | failWork hj => exact started_failWork h hj
  | failMaster hj => exact started_notify (started_setWorker h hj (by simp) (u := .gone) (by simp)) rfl rfl
  | spurious hj => exact started_setWorker h hj (by simp) (by simp)
  | rowGroup hs _ => exact started_past h (by simp [hs]) (by simp) (by simp [hs, MasterAt.left]) fun _ hj => hj
  | lastWake hs _ =>
    exact started_past h (by simp [hs]) (by simp) (by simp [hs, MasterAt.left]) fun _ => unborn_notifyAll
  | take hs _ hws =>
    exact started_past h (by simp [hs]) (by simp) (by simp [hs, MasterAt.left]) fun _ => unborn_notifyOne hws
  | sawErr hs _ _ => exact started_past h (by simp [hs]) (by simp) (by simp [hs, MasterAt.left]) fun _ hj => hj
  | masterPark hs _ _ => exact started_past h (by simp [hs]) (by simp) (by simp [hs, MasterAt.left]) fun _ hj => hj
  | append hs =>
    refine started_past h (by simp [hs]) ?_ (by simp [hs, MasterAt.left]) fun _ hj => hj
    intro k
    dsimp only
    split <;> simp
  | close hs => exact started_past h (by simp [hs]) (by simp) (by simp [hs, MasterAt.left]) fun _ hj => hj
  | crateErr hs =>
    refine started_past h ?_ (by simp) ?_ fun _ hj => hj <;> intro hk <;>
      cases hsm : s.m <;> simp_all [MasterAt.callsCrate, MasterAt.left]
  | cratePanic hs =>
    refine started_past h ?_ (by simp) (by simp [MasterAt.left]) fun _ hj => hj
    intro k hk
    simp [hk, MasterAt.callsCrate] at hs
  | masterFail hs => exact started_past h (by simp [hs]) (by simp) (by simp [hs, MasterAt.left]) fun _ hj => hj
  | masterFailWork hs =>
    exact started_past h (by simp [hs]) (by simp) (by simp [hs, MasterAt.left]) fun _ => unborn_notifyAll
  | masterFailMaster hs => exact started_past h (by simp [hs]) (by simp) (by simp [hs, MasterAt.left]) fun _ hj => hj
  | masterSpurious hs => exact started_past h (by simp [hs]) (by simp) (by simp [hs, MasterAt.left]) fun _ hj => hj
  | joinOk _ hs => exact started_past h (by simp [hs]) (by simp) (by simp [MasterAt.left]) fun _ hj => hj
  | joinErr _ hs => exact started_past h (by simp [hs]) (by simp) (by simp [MasterAt.left]) fun _ hj => hj
  | joinRaised _ hs => exact started_past h (by simp [hs]) (by simp) (by simp [MasterAt.left]) fun _ hj => hj

/-! ## The invariant of the waits -/

theorem unborn_at_start {s : St} (h : Started s) (hs : s.m = .spawn 0) :
    ∀ w ∈ s.ws, w = .unborn := by
  intro w hw
  obtain ⟨j, hj⟩ := List.mem_iff_getElem?.mp hw
  exact h.ahead 0 hs j w (Nat.zero_le _) hj

theorem alive_dispatch {p : Plan} {s : St} (h : Alive p s) (hstart : Started s)
    (hs : s.m = .spawn 0) :
    Alive p { s with ws := List.replicate p.nthreads .look, m := .rowGroup 0 } := by
  have hun := unborn_at_start hstart hs
  have hnot : ∀ w, w ≠ .look → w ∉ List.replicate p.nthreads WorkerAt.look :=
    fun w hw hm => hw (List.eq_of_mem_replicate hm)
  constructor
  case pending =>
    intro i hi hn
    rcases h.pending i hi hn with hd | ⟨k, hk, _⟩ | he | ⟨e, he⟩
    · exact Or.inl hd
    · cases hun _ hk
    · exact Or.inr (Or.inr (Or.inl he))
    · cases hun _ he
  case master_waits => exact fun g c hm => (by cases hm)
  case parked_full => exact fun hp => absurd hp (hnot _ (by simp))
  case gone_done => exact fun hg => absurd hg (hnot _ (by simp))
  case woken => exact fun hw => absurd hw (not_or.mpr ⟨hnot _ (by simp), hnot _ (by simp)⟩)
  case err_wakes => exact fun _ hp => absurd hp (hnot _ (by simp))

/-- A worker that starts was unborn, so nothing is lost with it. -/
theorem alive_spawn {p : Plan} {s : St} {k : Nat} (hg : Good p s) (h : Alive p s)
    (hstart : Started s) (hs : s.m = .spawn k) (hk : k < p.nthreads) :
    Alive p { s with ws := s.ws.set k .look, m := .spawn (k + 1) } := by
  have hlt : k < s.ws.length := by rw [hg.len]; exact hk
  have hj : s.ws[k]? = some .unborn := by
    rw [← hstart.ahead k hs k s.ws[k] (Nat.le_refl _) (List.getElem?_eq_getElem hlt)]
    exact List.getElem?_eq_getElem hlt
  have ht := turned_set .look hj
  constructor
  case pending =>
    intro i hi hn
    rcases h.pending i hi hn with hd | ⟨k, hk, hki⟩ | he | ⟨e, he⟩
    · exact Or.inl hd
    · exact Or.inr (Or.inl ⟨k, ht.keeps hk (by simp), hki⟩)
    · exact Or.inr (Or.inr (Or.inl he))
    · exact Or.inr (Or.inr (Or.inr ⟨e, ht.keeps he (by simp)⟩))
  case master_waits => exact fun g c hm => (by cases hm)
  case parked_full => exact fun _ _ _ _ => ⟨.look, ht.there, rfl⟩
  case gone_done => exact fun hgone => h.gone_done (ht.was hgone (by simp))
  case woken =>
    rintro (hw | hw)
    · exact h.woken (Or.inl (ht.was hw (by simp)))
    · exact h.woken (Or.inr (ht.was hw (by simp)))
  case err_wakes =>
    intro he hp
    rcases h.err_wakes he (ht.was hp (by simp)) with hw | hf
    · exact Or.inl (ht.keeps hw (by simp))
    · rw [hs] at hf
      cases hf

theorem alive_moved {p : Plan} {s t : St} (hg : Good p s) (hstart : Started s) (h : Alive p s)
    (hm : Moved p s t) : Alive p t := by
  have hplace := hg.place
  cases hm with
  | dispatch hs => exact alive_dispatch h hstart hs
  | spawn hs hk => exact alive_spawn hg h hstart hs hk
  | spawnFailed hs hk => exact alive_master h rfl rfl (by simp) (by simp [hs, MasterAt.failing])
  | spawned hs hk => exact alive_master h rfl rfl (by simp) (by simp [hs, MasterAt.failing])
  | gone hj hend => exact alive_setWorker h hj (by simp) (by simp) (by simp) (fun _ => hend) (by simp)
  | park hj hnone hmore hfull =>
    exact alive_setWorker h hj (by simp) (by simp) (fun _ => ⟨hnone, hfull⟩) (by simp) (by simp)
  | claim n hr => exact alive_claim n h hr
  | noWriters hr =>
    exact alive_setWorker h hr.at_look (by simp) (by simp) (by simp) (by simp)
      (by simp [WorkerAt.active])
  | finish hj => exact alive_finish h hj
  | encodeFailed hj =>
    exact alive_setWorker h hj (by simp) (by simp) (by simp) (by simp) (by simp [WorkerAt.active])
  | failErr hj => exact alive_failErr h hj
  | failWork hj => exact alive_failWork h hj
  | failMaster hj => exact alive_failMaster h hj
  | spurious hj =>
    exact alive_setWorker h hj (by simp) (by simp) (by simp) (by simp) (by simp [WorkerAt.active])
  | rowGroup hs _ => exact alive_master h rfl rfl (by simp) (by simp [hs, MasterAt.failing])
  | lastWake hs _ => exact alive_notifyAll h rfl
  | take hs hch hws =>
    rw [hs] at hplace
    exact alive_take h hs hplace.1 hws
  | sawErr hs _ _ => exact alive_master h rfl rfl (by simp) (by simp [hs, MasterAt.failing])
  | @masterPark g c hs hd hnone =>
    refine alive_master h rfl rfl ?_ (by simp [hs, MasterAt.failing])
    rintro g' c' hm
    cases hm
    exact ⟨hd, hnone⟩
  | append hs =>
    refine alive_master h rfl rfl ?_ (by simp [hs, MasterAt.failing])
    intro g' c' hm
    dsimp only at hm
    split at hm <;> cases hm
  | close hs => exact alive_master h rfl rfl (by simp) (by simp [hs, MasterAt.failing])
  | crateErr hs =>
    refine alive_master h rfl rfl (by simp) ?_
    intro hf
    cases hsm : s.m <;> simp_all [MasterAt.callsCrate, MasterAt.failing]
  | cratePanic hs =>
    refine alive_master h rfl rfl (by simp) ?_
    intro hf
    cases hsm : s.m <;> simp_all [MasterAt.callsCrate, MasterAt.failing]
  | @masterFail e hs =>
    have herr := recordErr_isSome s e
    exact {
      pending := fun _ _ _ => Or.inr (Or.inr (Or.inl herr))
      master_waits := fun g c hm => by cases hm
      parked_full := fun _ _ _ hnone => by cases hnone
      gone_done := fun _ => Or.inl herr
      woken := fun _ => herr
      err_wakes := fun _ _ => Or.inr rfl }
  | masterFailWork hs => exact alive_notifyAll h rfl
  | masterFailMaster hs => exact alive_master h rfl rfl (by simp) (by simp [hs, MasterAt.failing])
  | masterSpurious hs => exact alive_master h rfl rfl (by simp) (by simp [hs, MasterAt.failing])
  | joinOk _ hs => exact alive_master h rfl rfl (by simp) (by simp [hs, MasterAt.failing])
  | joinErr _ hs => exact alive_master h rfl rfl (by simp) (by simp [hs, MasterAt.failing])
  | joinRaised _ hs => exact alive_master h rfl rfl (by simp) (by simp [hs, MasterAt.failing])

theorem started_start (p : Plan) : Started (start p) := by
  constructor
  · intro k hk j v _ hv
    simp only [start, List.getElem?_replicate] at hv
    split at hv
    · exact (Option.some.inj hv).symm
    · cases hv
  · intro j _
    simp only [start]
    split
    · exact Or.inr ⟨0, rfl, Nat.zero_le _⟩
    · exact Or.inl rfl

theorem alive_start (p : Plan) : Alive p (start p) := by
  have hnot : ∀ w, w ≠ .unborn → w ∉ (start p).ws :=
    fun w hw hm => hw (List.eq_of_mem_replicate hm)
  constructor
  case pending => exact fun i _ hn => absurd hn (Nat.not_lt_zero i)
  case master_waits =>
    intro g c hm
    simp only [start] at hm
    split at hm <;> cases hm
  case parked_full => exact fun hp => absurd hp (hnot _ (by simp))
  case gone_done => exact fun hp => absurd hp (hnot _ (by simp))
  case woken => exact fun hw => absurd hw (not_or.mpr ⟨hnot _ (by simp), hnot _ (by simp)⟩)
  case err_wakes => exact fun _ hp => absurd hp (hnot _ (by simp))

theorem started_reachable {p : Plan} {s : St} (h : Reachable (queue p) s) : Started s :=
  h.invariant (fun _ h0 => h0 ▸ started_start p) fun _ _ _ hr hs _ hst =>
    started_moved (good_reachable hr.reachable) hs (step_moved hst)

theorem alive_reachable {p : Plan} {s : St} (h : Reachable (queue p) s) : Alive p s :=
  h.invariant (fun _ h0 => h0 ▸ alive_start p) fun _ _ _ hr ha _ hst =>
    alive_moved (good_reachable hr.reachable) (started_reachable hr.reachable) ha (step_moved hst)

/-! ## No wake is lost -/

theorem step_look {p : Plan} {s : St} {j : Nat} (made : Made) (h : s.ws[j]? = some .look) :
    step p s (.look j made) = some (lookStep p s j made) := by
  simp [step, h]

/-- A worker that runs can take its next step. -/
theorem active_steps {p : Plan} {s : St} (h : SomeActive s) :
    ∃ a t, a.isSpurious = false ∧ step p s a = some t := by
  obtain ⟨w, hw, hact⟩ := h
  obtain ⟨j, hj⟩ := List.mem_iff_getElem?.mp hw
  cases w with
  | unborn => cases hact
  | parked => cases hact
  | gone => cases hact
  | look => exact ⟨.look j .panic, _, rfl, step_look .panic hj⟩
  | encode k => exact ⟨.encoded j .ok, encodedStep p s j k .ok, rfl, by simp [step, hj]⟩
  | fail e => exact ⟨.fail j, _, rfl, by simp [step, failStep, hj]; rfl⟩
  | failWork => exact ⟨.fail j, _, rfl, by simp [step, failStep, hj]; rfl⟩
  | failMaster => exact ⟨.fail j, _, rfl, by simp [step, failStep, hj]; rfl⟩

/-- A calling thread that runs can take its next step, whatever the crates answer. -/
theorem master_steps {p : Plan} {s : St} (hl : s.m.left = false) (hr : s.m.runnable = true) :
    ∃ a t, a.isSpurious = false ∧ step p s a = some t := by
  cases hm : s.m with
  | spawn k =>
    refine ⟨.spawn true, ?_⟩
    by_cases hk : k < p.nthreads <;> simp [Act.isSpurious, step, spawnStep, hm, hk]
  | rowGroup g =>
    refine ⟨.master .ok none, ?_⟩
    by_cases hg : g < p.nrg <;> simp [Act.isSpurious, step, masterStep, hm, hg]
  | look g c =>
    obtain ⟨k, ws, hk⟩ := notifyOne_enabled work s.ws
    refine ⟨.master .ok k, ?_⟩
    simp only [Act.isSpurious, step, masterStep, hm, hk, true_and]
    split
    · exact ⟨_, rfl⟩
    · split <;> exact ⟨_, rfl⟩
  | parked g c => simp [hm, MasterAt.runnable] at hr
  | append g c ch => exact ⟨.master .ok none, by simp [Act.isSpurious, step, masterStep, hm]⟩
  | close g => exact ⟨.master .ok none, by simp [Act.isSpurious, step, masterStep, hm]⟩
  | fail e => exact ⟨.master .ok none, by simp [Act.isSpurious, step, masterStep, hm]⟩
  | failWork e => exact ⟨.master .ok none, by simp [Act.isSpurious, step, masterStep, hm]⟩
  | failMaster e => exact ⟨.master .ok none, by simp [Act.isSpurious, step, masterStep, hm]⟩
  | returned r => simp [hm, MasterAt.left] at hl
  | unwound => simp [hm, MasterAt.left] at hl
  | closing => simp [hm, MasterAt.left] at hl
  | erred e => simp [hm, MasterAt.left] at hl
  | raised => simp [hm, MasterAt.left] at hl

/-- While the master waits for a chunk, some worker has it, or has a wake on its way. -/
theorem waiting_master_has_a_worker {p : Plan} {s : St} (hg : Good p s) (hst : Started s)
    (h : Alive p s) {g c : Nat} (hm : s.m = .parked g c) : SomeActive s := by
  obtain ⟨hdone, hwaits⟩ := h.master_waits g c hm
  have hplace := hg.place
  rw [hm] at hplace
  obtain ⟨hhead, hgr, hc, _⟩ := hplace
  rcases hwaits with hnone | hw | hw
  · have hmore := task_lt hgr hc
    by_cases hnext : s.q.head < s.q.next
    · -- The chunk is claimed, so it is being encoded or its error is on its way.
      rcases h.pending s.q.head (Nat.le_refl _) hnext with ⟨ch, hd⟩ | ⟨k, hk, _⟩ | he | ⟨e, he⟩
      · rw [hhead, hdone] at hd
        cases hd
      · exact ⟨_, hk, rfl⟩
      · rw [hnone] at he
        cases he
      · exact ⟨_, he, rfl⟩
    · -- Nobody claimed it, so the whole window is free and no worker may be parked.
      have hle := hg.head_le
      have hwin := p.window_pos
      have hlt : 0 < s.ws.length := by
        rw [hg.len]
        exact p.nthreads_pos
      have hmem : s.ws[0] ∈ s.ws := List.getElem_mem hlt
      have hget : s.ws[0]? = some s.ws[0] := List.getElem?_eq_getElem hlt
      rcases hw0 : s.ws[0] with _ | _ | _ | k | e | _ | _ | _ <;> rw [hw0] at hmem hget
      · rcases hst.born 0 hget with hl | ⟨k, hk, _⟩
        · simp [hm, MasterAt.left] at hl
        · rw [hm] at hk
          cases hk
      · exact ⟨_, hmem, rfl⟩
      · exact h.parked_full hmem (by omega) (by omega) hnone
      · exact ⟨_, hmem, rfl⟩
      · exact ⟨_, hmem, rfl⟩
      · exact ⟨_, hmem, rfl⟩
      · exact ⟨_, hmem, rfl⟩
      · rcases h.gone_done hmem with he | hn
        · rw [hnone] at he
          cases he
        · omega
  · exact ⟨_, hw, rfl⟩
  · exact ⟨_, hw, rfl⟩

/-- In every state of the queue in which the master has not returned, the master runs or has
a wake on its way, or some worker does: no state waits for a wake that is lost. So some step
that is not a spurious wake can happen. -/
theorem no_wake_is_lost_while_the_master_runs (p : Plan) (s : St) (h : Reachable (queue p) s)
    (hl : s.m.left = false) :
    (s.m.runnable = true ∨ ∃ w ∈ s.ws, w.active = true) ∧
      ∃ a t, a.isSpurious = false ∧ step p s a = some t := by
  have hact : s.m.runnable = true ∨ SomeActive s := by
    cases hm : s.m with
    | parked g c =>
      exact Or.inr (waiting_master_has_a_worker (good_reachable h) (started_reachable h)
        (alive_reachable h) hm)
    | _ => exact Or.inl rfl
  refine ⟨hact, ?_⟩
  rcases hact with hr | ha
  · exact master_steps hl hr
  · exact active_steps ha

/-- The master waits for the first chunk while the worker encodes it. -/
theorem the_master_waits_for_the_first_chunk :
    ∃ s, exec (queue smallPlan) (start smallPlan)
        [.dispatch, .look 0 (.ok 1), .master .ok none, .master .ok none] = some s ∧
      s.m = .parked 0 0 ∧ ∃ a t, a.isSpurious = false ∧ step smallPlan s a = some t := by
  refine ⟨_, rfl, rfl, ?_⟩
  exact (no_wake_is_lost_while_the_master_runs smallPlan _
    (Reachable.exec (.start rfl) [.dispatch, .look 0 (.ok 1), .master .ok none, .master .ok none] rfl)
    rfl).2

end parquet_interop.write_queue
