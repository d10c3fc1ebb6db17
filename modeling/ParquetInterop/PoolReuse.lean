-- The pool between the calls: nothing of a call stays behind, except that the
-- lock of a call that unwound is never free again.
import ParquetInterop.PoolRuns

open lib.runs lib.parking

namespace parquet_interop.pool

/-! ## What a call leaves behind -/

/-- The call had the busy lock when it unwound. -/
def CallAt.spoils : CallAt → Bool
  | .unwound (some _) => true
  | _ => false

/-- The call has begun and has not ended. -/
def CallAt.active : CallAt → Bool
  | .idle | .back _ _ | .unwound _ => false
  | _ => true

/-- What holds however many generations there were. A generation that comes again may leave a
worker asleep, so `left` is only bounded from below. -/
structure Tidy (p : Pool) (s : St) : Prop where
  holds : ∀ c, (s.calls c).holds = true ↔ s.busy = .held c
  poisoned : s.busy = .poisoned ↔ ∃ c, (s.calls c).spoils = true
  lent : ∀ c n, (s.calls c).lends = some n → s.job = some c ∧ s.want = n
  job : ∀ c, s.job = some c → (s.calls c).lends = some s.want
  doing : ∀ (j : Nat) w c, s.ws[j]? = some w → w.job = some c →
    s.job = some c ∧ j < s.want ∧ w.Saw s.gen
  owed : weigh (debt s.gen) s.want s.ws + (s.want - s.ws.length) ≤ s.left
  fits : s.left ≤ p.n
  rest : s.job = none → s.left = 0
  sends : ∀ c n, s.calls c = .send n → n ≤ p.n

theorem tidy_start (p : Pool) : Tidy p start where
  holds _ := ⟨nofun, nofun⟩
  poisoned := ⟨nofun, nofun⟩
  lent _ _ h := nomatch h
  job _ h := nomatch h
  doing _ _ _ h := nomatch h
  owed := Nat.le_refl 0
  fits := Nat.zero_le _
  rest _ := rfl
  sends _ _ h := nomatch h

/-! ## Moves of a call -/

/-- A call that is put elsewhere and lends what it lent. -/
theorem tidy_call {p : Pool} {s : St} (h : Tidy p s) {c : Nat} {y : CallAt} (busy : Busy)
    (hholds : ∀ d, ((s.setCall c y).calls d).holds = true ↔ busy = .held d)
    (hpoisoned : busy = .poisoned ↔ ∃ d, ((s.setCall c y).calls d).spoils = true)
    (hlends : y.lends = (s.calls c).lends) (hsend : ∀ n, y = .send n → n ≤ p.n)
    (threw : List (Nat × Option Nat)) (started building : Bool) :
    Tidy p { s.setCall c y with busy, threw, started, building } := by
  have hl : ∀ d, (if d = c then y else s.calls d).lends = (s.calls d).lends := by
    intro d
    split
    · rename_i hd
      rw [hlends, hd]
    · rfl
  exact { h with
    holds := hholds
    poisoned := hpoisoned
    lent := fun d n hd => h.lent d n (hl d ▸ hd)
    job := fun d hd => (hl d).trans (h.job d hd)
    sends := forall_setCall (P := fun _ x => ∀ n, x = .send n → n ≤ p.n) hsend fun d _ => h.sends d }

theorem holds_put {s : St} {c : Nat} {y : CallAt} (hy : y.holds = (s.calls c).holds) (d : Nat) :
    ((s.setCall c y).calls d).holds = (s.calls d).holds := by
  unfold St.setCall
  dsimp only
  split
  · rename_i hd
    rw [hy, hd]
  · rfl

theorem spoils_put {s : St} {c : Nat} {y : CallAt} (hy : y.spoils = (s.calls c).spoils) (d : Nat) :
    ((s.setCall c y).calls d).spoils = (s.calls d).spoils := by
  unfold St.setCall
  dsimp only
  split
  · rename_i hd
    rw [hy, hd]
  · rfl

/-- A move that takes no lock and gives none up. -/
theorem tidy_aside {p : Pool} {s : St} (h : Tidy p s) {c : Nat} {x y : CallAt} (hc : s.calls c = x)
    (hholds : y.holds = x.holds) (hspoils : y.spoils = x.spoils) (hlends : y.lends = x.lends)
    (hsend : ∀ n, y ≠ .send n) (threw : List (Nat × Option Nat)) (started building : Bool) :
    Tidy p { s.setCall c y with threw, started, building } := by
  subst hc
  refine tidy_call h s.busy (fun d => ?_) ?_ hlends (fun n hn => absurd hn (hsend n)) ..
  · rw [holds_put hholds]
    exact h.holds d
  · simp only [spoils_put hspoils]
    exact h.poisoned

theorem tidy_lock {p : Pool} {s : St} (h : Tidy p s) {c n : Nat} (hc : s.calls c = .tryLock n)
    (hb : s.busy = .free) : Tidy p { s.setCall c (.send (min n p.n)) with busy := .held c } := by
  have hnone : ∀ d, (s.calls d).holds = false := by
    intro d
    cases hd : (s.calls d).holds with
    | false => rfl
    | true =>
      have hheld := (h.holds d).mp hd
      rw [hb] at hheld
      cases hheld
  have hclean : ∀ d, (s.calls d).spoils = false := by
    intro d
    cases hd : (s.calls d).spoils with
    | false => rfl
    | true =>
      have hbad := h.poisoned.mpr ⟨d, hd⟩
      rw [hb] at hbad
      cases hbad
  refine tidy_call h (.held c) (fun d => ?_) ⟨nofun, ?_⟩ (by rw [hc]; rfl) (fun m hm => ?_) ..
  · unfold St.setCall
    dsimp only
    split
    · rename_i hd
      subst hd
      exact ⟨fun _ => rfl, fun _ => rfl⟩
    · rename_i hd
      rw [hnone d]
      exact ⟨nofun, fun he => absurd (Busy.held.inj he).symm hd⟩
  · rintro ⟨d, hd⟩
    rw [spoils_put (by rw [hc]; rfl), hclean] at hd
    cases hd
  · cases hm
    exact Nat.min_le_right _ _

/-- The lock goes with the call that holds it: free after a return, poisoned after a panic. -/
theorem tidy_release {p : Pool} {s : St} (h : Tidy p s) {c n : Nat} {ok bad : Bool}
    (hc : s.calls c = .leave n ok bad) {y : CallAt} {busy : Busy} (hy : y.holds = false)
    (hlends : y.lends = none) (hsend : ∀ n, y ≠ .send n)
    (hbusy : (busy = .free ∧ y.spoils = false) ∨ (busy = .poisoned ∧ y.spoils = true)) :
    Tidy p { s.setCall c y with busy } := by
  have hheld : s.busy = .held c := (h.holds c).mp (by rw [hc]; rfl)
  have hclean : ∀ d, (s.calls d).spoils = false := by
    intro d
    cases hd : (s.calls d).spoils with
    | false => rfl
    | true =>
      have hbad := h.poisoned.mpr ⟨d, hd⟩
      rw [hheld] at hbad
      cases hbad
  have hnone : ∀ d, ((s.setCall c y).calls d).holds = false := by
    intro d
    unfold St.setCall
    dsimp only
    split
    · exact hy
    · rename_i hd
      cases hh : (s.calls d).holds with
      | false => rfl
      | true =>
        have he := ((h.holds d).mp hh).symm.trans hheld
        exact absurd (Busy.held.inj he) hd
  have hself : (s.setCall c y).calls c = y := if_pos rfl
  refine tidy_call h busy (fun d => ?_) ?_ (by rw [hc, hlends]; rfl) (fun m hm => absurd hm (hsend m)) ..
  · rw [hnone d]
    rcases hbusy with ⟨rfl, _⟩ | ⟨rfl, _⟩ <;> exact ⟨nofun, nofun⟩
  · rcases hbusy with ⟨rfl, hsp⟩ | ⟨rfl, hsp⟩
    · refine ⟨nofun, fun ⟨d, hd⟩ => ?_⟩
      rw [spoils_put (by rw [hsp, hclean]), hclean] at hd
      cases hd
    · exact ⟨fun _ => ⟨c, by rw [hself, hsp]⟩, fun _ => rfl⟩

theorem quiet_spoils {p : Pool} {s : St} {x y : CallAt} (h : Quiet p s x y) :
    y.spoils = x.spoils ∧ ∀ n, y ≠ .send n := by
  cases h <;> exact ⟨rfl, nofun⟩

/-! ## Moves of a worker -/

/-- A worker that moves. What it owes less of, `left` may be short of. -/
theorem tidy_worker {p : Pool} {s : St} (h : Tidy p s) {j : Nat} {v u : WorkerAt}
    (hv : s.ws[j]? = some v) {left : Nat}
    (hjob : ∀ c, u.job = some c → s.job = some c ∧ j < s.want ∧ u.Saw s.gen)
    (hless : j < s.want → s.left + debt s.gen u ≤ left + debt s.gen v)
    (hout : s.want ≤ j → s.left ≤ left) (hfits : left ≤ p.n) (hrest : s.job = none → left = 0)
    (ready panics : Nat) (took : List (Nat × Nat)) (threw : List (Nat × Option Nat)) :
    Tidy p { s.setWorker j u with ready, left, panics, took, threw } := by
  refine { h with
    doing := fun i w c hi hw => ?_
    owed := ?_
    fits := hfits
    rest := hrest }
  · rcases set_cases hi with ⟨rfl, rfl⟩ | ⟨_, hi⟩
    · exact hjob c hw
    · exact h.doing i w c hi hw
  · have hold := h.owed
    show weigh (debt s.gen) s.want (s.ws.set j u) + (s.want - (s.ws.set j u).length) ≤ left
    rw [List.length_set]
    by_cases hlt : j < s.want
    · have hset := weigh_set (debt s.gen) u hv hlt
      have hle := hless hlt
      have hpos := le_weigh (f := debt s.gen) hv hlt
      omega
    · have hge := Nat.not_lt.mp hlt
      have hle := hout hge
      rw [weigh_set_ge _ _ _ hge]
      omega

/-- A worker that moves, and `left` stays. -/
theorem tidy_step {p : Pool} {s : St} (h : Tidy p s) {j : Nat} {v u : WorkerAt}
    (hv : s.ws[j]? = some v)
    (hjob : ∀ c, u.job = some c → s.job = some c ∧ j < s.want ∧ u.Saw s.gen)
    (hless : debt s.gen u ≤ debt s.gen v) (ready : Nat) (took : List (Nat × Nat))
    (threw : List (Nat × Option Nat)) : Tidy p { s.setWorker j u with ready, took, threw } :=
  tidy_worker h hv hjob (fun _ => Nat.add_le_add_left hless _) (fun _ => Nat.le_refl _) h.fits h.rest
    ready s.panics took threw

theorem tidy_notify {p : Pool} {s : St} (h : Tidy p s) :
    Tidy p { s with calls := fun d => (s.calls d).notify } := by
  have hholds : ∀ x : CallAt, x.notify.holds = x.holds := fun x => by cases x <;> rfl
  have hspoils : ∀ x : CallAt, x.notify.spoils = x.spoils := fun x => by cases x <;> rfl
  have hlends : ∀ x : CallAt, x.notify.lends = x.lends := fun x => by cases x <;> rfl
  have hsend : ∀ (x : CallAt) (n : Nat), x.notify = .send n → x = .send n :=
    fun x n hx => by cases x <;> first | exact hx | cases hx
  refine { h with
    holds := fun c => ?_
    poisoned := ?_
    lent := fun c n hc => h.lent c n ((hlends _).symm.trans hc)
    job := fun c hc => (hlends _).trans (h.job c hc)
    sends := fun c n hc => h.sends c n (hsend _ n hc) }
  · rw [hholds]
    exact h.holds c
  · simp only [hspoils]
    exact h.poisoned

/-- A worker counts itself out: it is one of those that `left` counts. -/
theorem tidy_finish {p : Pool} {s : St} (h : Tidy p s) {j seen c : Nat} {bad : Bool}
    (hv : s.ws[j]? = some (.finish seen c bad)) :
    Tidy p { s.setWorker j (.look seen) with
      panics := s.panics + bad.toNat, left := dec s.left
      calls := if dec s.left = 0 then fun d => (s.calls d).notify else s.calls } := by
  obtain ⟨hjob, hlt, hsaw⟩ := h.doing j _ c hv rfl
  have hseen : seen = s.gen := hsaw
  have hdebt : debt s.gen (.look seen) = 0 := by simp [debt, hseen]
  have hone : debt s.gen (.finish seen c bad) = 1 := rfl
  have hpos := le_weigh (f := debt s.gen) hv hlt
  have howed := h.owed
  have hfits := h.fits
  have hn := p.n_lt
  have hdec : dec s.left = s.left - 1 := dec_of_pos (by omega) (by omega)
  have hmove : ∀ {calls : Nat → CallAt}, Tidy p { s with calls } →
      Tidy p { s.setWorker j (.look seen) with
        panics := s.panics + bad.toNat, left := dec s.left, calls } := by
    intro calls htidy
    refine tidy_worker htidy hv (fun d hd => (by cases hd)) (fun _ => ?_) (fun hge => ?_) ?_ (fun hnone => ?_) ..
    · show s.left + debt s.gen (.look seen) ≤ dec s.left + debt s.gen (.finish seen c bad)
      omega
    · exact absurd hlt (Nat.not_lt.mpr hge)
    · omega
    · rw [show s.job = none from hnone] at hjob
      cases hjob
  split
  · exact hmove (tidy_notify h)
  · exact hmove h

/-! ## The dispatch and the end of it -/

theorem tidy_send {p : Pool} {s : St} (h : Tidy p s) {c n : Nat} (hc : s.calls c = .send n) :
    Tidy p { s.setCall c (.me n) with
      job := some c, want := n, left := n, panics := 0, gen := bump s.gen
      ws := notifyAll work s.ws, sent := s.sent + 1 } := by
  have hheld : s.busy = .held c := (h.holds c).mp (by rw [hc]; rfl)
  have halone : ∀ d ≠ c, (s.calls d).lends = none := by
    intro d hd
    cases hl : (s.calls d).lends with
    | none => rfl
    | some m =>
      have hholds : (s.calls d).holds = true := by
        generalize s.calls d = x at hl
        cases x <;> first | rfl | cases hl
      have he := ((h.holds d).mp hholds).symm.trans hheld
      exact absurd (Busy.held.inj he) hd
  have hnone : s.job = none := by
    cases hj : s.job with
    | none => rfl
    | some d =>
      have hl := h.job d hj
      by_cases hd : d = c
      · rw [hd, hc] at hl
        cases hl
      · rw [halone d hd] at hl
        cases hl
  have hidle : ∀ w ∈ notifyAll work s.ws, w.job = none := by
    intro w hw
    obtain ⟨v, hv, rfl⟩ := List.mem_map.mp hw
    obtain ⟨j, hj⟩ := List.mem_iff_getElem?.mp hv
    cases hjob : v.job with
    | none => cases v <;> first | rfl | cases hjob
    | some d =>
      have hout := (h.doing j v d hj hjob).1
      rw [hnone] at hout
      cases hout
  refine {
    holds := fun d => ?_
    poisoned := ?_
    lent := ?_
    job := fun d hd => ?_
    doing := fun j w d hj hw => ?_
    owed := ?_
    fits := h.sends c n hc
    rest := fun hn => (by cases hn)
    sends := ?_ }
  · show ((s.setCall c (.me n)).calls d).holds = true ↔ s.busy = .held d
    rw [holds_put (by rw [hc]; rfl)]
    exact h.holds d
  · show s.busy = .poisoned ↔ ∃ d, ((s.setCall c (.me n)).calls d).spoils = true
    simp only [spoils_put (show (CallAt.me n).spoils = (s.calls c).spoils by rw [hc]; rfl)]
    exact h.poisoned
  · refine forall_setCall (P := fun d x => ∀ m, x.lends = some m → some c = some d ∧ n = m) ?_ ?_
    · exact fun m hm => ⟨rfl, Option.some.inj hm⟩
    · intro d hd m hm
      rw [halone d hd] at hm
      cases hm
  · cases hd
    show (if c = c then CallAt.me n else s.calls c).lends = some n
    rw [if_pos rfl]
    rfl
  · rw [hidle w (List.mem_of_getElem? hj)] at hw
    cases hw
  · exact weigh_debt_le (bump s.gen) n (notifyAll work s.ws)
  · exact forall_setCall (P := fun _ x => ∀ m, x = .send m → m ≤ p.n) (fun _ hm => nomatch hm)
      fun d _ => h.sends d

/-- The call takes its job back: nobody works on it any more. -/
theorem tidy_collect {p : Pool} {s : St} (h : Tidy p s) {c n : Nat} {ok : Bool}
    (hc : s.calls c = .look n ok) (hleft : s.left = 0) :
    Tidy p { s.setCall c (.leave n ok (decide (0 < s.panics))) with job := none } := by
  have hjob : s.job = some c := (h.lent c n (by rw [hc]; rfl)).1
  have hrested : ∀ (j : Nat) w d, s.ws[j]? = some w → w.job = some d → False := by
    intro j w d hj hw
    have hpos := le_weigh (f := debt s.gen) hj (h.doing j w d hj hw).2.1
    have hone : debt s.gen w = 1 := by cases w <;> first | rfl | cases hw
    have howed := h.owed
    omega
  refine { h with
    holds := fun d => ?_
    poisoned := ?_
    lent := ?_
    job := fun d hd => (by cases hd)
    doing := fun j w d hj hw => (hrested j w d hj hw).elim
    rest := fun _ => hleft
    sends := ?_ }
  · show ((s.setCall c (.leave n ok (decide (0 < s.panics)))).calls d).holds = true ↔ s.busy = .held d
    rw [holds_put (by rw [hc]; rfl)]
    exact h.holds d
  · show s.busy = .poisoned ↔
      ∃ d, ((s.setCall c (.leave n ok (decide (0 < s.panics)))).calls d).spoils = true
    have hsame : (CallAt.leave n ok (decide (0 < s.panics))).spoils = (s.calls c).spoils := by
      rw [hc]
      rfl
    simp only [spoils_put hsame]
    exact h.poisoned
  · refine forall_setCall (P := fun d x => ∀ m, x.lends = some m → none = some d ∧ s.want = m) ?_ ?_
    · exact fun m hm => (by cases hm)
    · intro d hd m hm
      have hout := (h.lent d m hm).1
      rw [hjob] at hout
      exact absurd (Option.some.inj hout).symm hd
  · exact forall_setCall (P := fun _ x => ∀ m, x = .send m → m ≤ p.n) (fun _ hm => nomatch hm)
      fun d _ => h.sends d

theorem tidy_spawn {p : Pool} {s : St} (h : Tidy p s) :
    Tidy p { s with ws := s.ws ++ [.starting] } := by
  refine { h with
    doing := fun j w c hj hw => ?_
    owed := ?_ }
  · rcases snoc_cases hj with hj | ⟨rfl, rfl⟩
    · exact h.doing j w c hj hw
    · cases hw
  · have howed := h.owed
    show weigh (debt s.gen) s.want (s.ws ++ [.starting]) +
      (s.want - (s.ws ++ [WorkerAt.starting]).length) ≤ s.left
    rw [List.length_append, List.length_singleton]
    by_cases hlt : s.ws.length < s.want
    · have htake : ∀ ws : List WorkerAt, ws.length ≤ s.want →
          weigh (debt s.gen) s.want ws = weigh (debt s.gen) ws.length ws := by
        intro ws hws
        unfold weigh
        rw [List.take_of_length_le hws, List.take_length]
      have hsnoc := weigh_snoc (debt s.gen) s.ws .starting
      have hone := debt_le s.gen .starting
      have hnew := htake (s.ws ++ [.starting]) (by rw [List.length_append, List.length_singleton]; omega)
      have hold := htake s.ws (by omega)
      omega
    · rw [weigh_append _ _ (Nat.not_lt.mp hlt)]
      omega

/-- Every step keeps the pool tidy. -/
theorem tidy_moved {p : Pool} {s t : St} (h : Tidy p s) (hm : Moved p s t) : Tidy p t := by
  cases hm with
  | quiet hc hq =>
    obtain ⟨hholds, hlends, -⟩ := quiet_same hq
    obtain ⟨hspoils, hsend⟩ := quiet_spoils hq
    exact tidy_aside h hc hholds hspoils hlends hsend s.threw s.started s.building
  | @freshEnd c todo live k me bad hc =>
    exact tidy_aside (y := .fresh todo live (k + bad.toNat) me) h hc rfl rfl rfl nofun
      (if bad then (c, none) :: s.threw else s.threw) s.started s.building
  | @warm c bad ok hc _ =>
    exact tidy_aside (y := .back none bad) h hc rfl rfl rfl nofun s.threw true ok
  | lock hc hb => exact tidy_lock h hc hb
  | send hc => exact tidy_send h hc
  | collect hc hl => exact tidy_collect h hc hl
  | leave hc => exact tidy_release h hc rfl rfl nofun (.inl ⟨rfl, rfl⟩)
  | unwind hc => exact tidy_release h hc rfl rfl nofun (.inr ⟨rfl, rfl⟩)
  | spawn _ _ => exact tidy_spawn h
  | spawnFailed _ => exact { h with }
  | start hj => exact tidy_step h hj (fun _ hc => (by cases hc)) (debt_le _ _) _ s.took s.threw
  | park hj hg =>
    refine tidy_step h hj (fun _ hc => (by cases hc)) ?_ s.ready s.took s.threw
    exact Nat.le_refl _
  | @skip j seen hj hg _ =>
    refine tidy_step h hj (fun _ hc => (by cases hc)) ?_ s.ready s.took s.threw
    simp [debt]
  | @take j seen c hj hg hc hw =>
    refine tidy_step h hj (fun d hd => ?_) ?_ s.ready _ s.threw
    · cases hd
      exact ⟨hc, hw, rfl⟩
    · simp [debt, Ne.symm hg]
  | spurious hj =>
    refine tidy_step h hj (fun _ hc => (by cases hc)) ?_ s.ready s.took s.threw
    exact Nat.le_refl _
  | @ended j seen c bad hj =>
    refine tidy_step h hj (fun d hd => ?_) ?_ s.ready s.took _
    · cases hd
      obtain ⟨hjob, hlt, hsaw⟩ := h.doing j _ c hj rfl
      exact ⟨hjob, hlt, hsaw⟩
    · exact Nat.le_refl _
  | finish hj => exact tidy_finish h hj

theorem reachable_tidy {p : Pool} {s : St} (h : Reachable (threads p) s) : Tidy p s :=
  Reach.invariant (I := Tidy p) h (fun _ hs => hs ▸ tidy_start p)
    fun _ _ _ _ hold _ hst => tidy_moved hold (step_moved hst)

/-! ## The pool after a panic -/

/-- No job is stored, nobody is waited for, and `try_lock` gets the lock. -/
structure Idle (s : St) : Prop where
  job : s.job = none
  left : s.left = 0
  busy : s.busy = .free

theorem active_of_lends {x : CallAt} {n : Nat} (h : x.lends = some n) : x.active = true := by
  cases x <;> first | rfl | cases h

theorem active_of_holds {x : CallAt} (h : x.holds = true) : x.active = true := by
  cases x <;> first | rfl | cases h

/-- No call that had the workers of the pool has unwound. -/
def Unspoiled (s : St) : Prop := ∀ c n, s.calls c ≠ .unwound (some n)

theorem spoils_eq {x : CallAt} : x.spoils = true ↔ ∃ n, x = .unwound (some n) := by
  constructor
  · intro h
    cases x with
    | unwound n =>
      cases n with
      | none => cases h
      | some n => exact ⟨n, rfl⟩
    | _ => cases h
  · rintro ⟨n, rfl⟩
    rfl

theorem tidy_unspoiled {p : Pool} {s : St} (h : Tidy p s) : Unspoiled s ↔ s.busy ≠ .poisoned := by
  rw [Ne, h.poisoned]
  simp only [spoils_eq]
  unfold Unspoiled
  constructor
  · rintro hno ⟨c, n, hc⟩
    exact hno c n hc
  · intro hno c n hc
    exact hno ⟨c, n, hc⟩

/-- With every other call over, the lock is free or poisoned. -/
theorem tidy_free {p : Pool} {s : St} (h : Tidy p s)
    (hover : ∀ c, (s.calls c).holds = true → (s.calls c).active = false) :
    s.busy = .free ↔ Unspoiled s := by
  rw [tidy_unspoiled h]
  cases hb : s.busy with
  | free => exact ⟨nofun, fun _ => rfl⟩
  | poisoned => exact ⟨nofun, fun hne => absurd rfl hne⟩
  | held c =>
    have hholds := (h.holds c).mpr hb
    have hact := hover c hholds
    rw [active_of_holds hholds] at hact
    cases hact

theorem tidy_idle {p : Pool} {s : St} (h : Tidy p s) (hover : ∀ c, (s.calls c).active = false) :
    Idle s ↔ Unspoiled s := by
  have hnone : s.job = none := by
    cases hj : s.job with
    | none => rfl
    | some c =>
      have hact := hover c
      rw [active_of_lends (h.job c hj)] at hact
      cases hact
  have hfree := tidy_free h fun c _ => hover c
  exact ⟨fun hidle => hfree.mp hidle.busy, fun hclean => ⟨hnone, h.rest hnone, hfree.mpr hclean⟩⟩

/-- Call `c`, next in turn at the lock, gets it and lends its job to the workers of the pool. -/
def Pooled (p : Pool) (s : St) (before : List Act) (c n : Nat) : Prop :=
  ∃ t, exec (threads p) s (before ++ [.tryLock c, .send c]) = some t ∧ t.calls c = .me (min n p.n) ∧
    t.job = some c ∧ t.want = min n p.n

theorem send_step {p : Pool} {s : St} {c m : Nat} (hc : s.calls c = .send m) :
    ∃ t, step p s (.send c) = some t ∧ t.calls c = .me m ∧ t.job = some c ∧ t.want = m := by
  refine ⟨{ s.setCall c (.me m) with
    job := some c, want := m, left := m, panics := 0, gen := bump s.gen
    ws := notifyAll work s.ws, sent := s.sent + 1 }, ?_, if_pos rfl, rfl, rfl⟩
  simp only [step, sendStep, hc]

/-- At the lock: the workers of the pool if it is free, fresh threads if it is not. -/
theorem tryLock_pooled {p : Pool} {s : St} {c n : Nat} (hc : s.calls c = .tryLock n) :
    (s.busy = .free → Pooled p s [] c n) ∧
      (s.busy ≠ .free → step p s (.tryLock c) = some (s.setCall c (.fresh n 0 0 none)) ∧
        ¬Pooled p s [] c n) := by
  have hself : ∀ x : CallAt, (s.setCall c x).calls c = x := fun x => if_pos rfl
  constructor
  · intro hb
    have hlock : step p s (.tryLock c) =
        some { s.setCall c (.send (min n p.n)) with busy := .held c } := by
      simp only [step, tryLockStep, hc, hb]
    obtain ⟨t, hsend, hme⟩ := send_step (p := p)
      (s := { s.setCall c (.send (min n p.n)) with busy := .held c }) (hself _)
    refine ⟨t, ?_, hme⟩
    show (step p s (.tryLock c)).bind (exec (threads p) · [.send c]) = some t
    rw [hlock, Option.bind_some]
    show (step p _ (.send c)).bind (exec (threads p) · []) = some t
    rw [hsend]
    rfl
  · intro hb
    have hstep : step p s (.tryLock c) = some (s.setCall c (.fresh n 0 0 none)) := by
      cases hbusy : s.busy with
      | free => exact absurd hbusy hb
      | held d => simp only [step, tryLockStep, hc, hbusy]
      | poisoned => simp only [step, tryLockStep, hc, hbusy]
    refine ⟨hstep, ?_⟩
    rintro ⟨t, ht, -⟩
    have hexec : exec (threads p) s [.tryLock c, .send c] =
        exec (threads p) (s.setCall c (.fresh n 0 0 none)) [.send c] := by
      show (step p s (.tryLock c)).bind _ = _
      rw [hstep]
      rfl
    rw [List.nil_append, hexec] at ht
    simp only [exec, threads, step, sendStep, hself] at ht
    cases ht

/-- After any run of the pool: once every call is over, it is idle again if and only if no call
that had its workers has unwound. The next call, alone, has its workers on the same condition,
and spawns fresh threads on no other. -/
theorem the_pool_is_idle_again_iff_no_pooled_call_unwound {p : Pool} {s : St}
    (h : Reachable (threads p) s) :
    ((∀ c, (s.calls c).active = false) →
      (Idle s ↔ Unspoiled s) ∧
      ∀ c n v, s.calls c = .idle → 0 < n → p.pid = p.self → n ≤ v → v ≤ s.ready →
        (Pooled p s [.call c n, .load c v] c n ↔ Unspoiled s)) ∧
    ∀ c n, s.calls c = .tryLock n → (∀ d ≠ c, (s.calls d).active = false) →
      (Unspoiled s → Pooled p s [] c n) ∧
      (¬Unspoiled s → step p s (.tryLock c) = some (s.setCall c (.fresh n 0 0 none)) ∧
        ¬Pooled p s [] c n) := by
  have hturn : ∀ {s : St}, Tidy p s → ∀ c n, s.calls c = .tryLock n →
      (∀ d ≠ c, (s.calls d).active = false) →
      (Unspoiled s → Pooled p s [] c n) ∧
      (¬Unspoiled s → step p s (.tryLock c) = some (s.setCall c (.fresh n 0 0 none)) ∧
        ¬Pooled p s [] c n) := by
    intro s htidy c n hc hover
    have hfree : s.busy = .free ↔ Unspoiled s := by
      apply tidy_free htidy
      intro d hd
      by_cases hdc : d = c
      · rw [hdc, hc] at hd
        cases hd
      · exact hover d hdc
    obtain ⟨hpool, hfresh⟩ := tryLock_pooled (p := p) hc
    exact ⟨fun hclean => hpool (hfree.mpr hclean), fun hno => hfresh fun hb => hno (hfree.mp hb)⟩
  have htidy := reachable_tidy h
  refine ⟨fun hover => ⟨tidy_idle htidy hover, fun c n v hc hn hpid hnv hv => ?_⟩, hturn htidy⟩
  have hself : ∀ (s : St) (x : CallAt), (s.setCall c x).calls c = x := fun s x => if_pos rfl
  have hcall : step p s (.call c n) = some (s.setCall c (.load n)) := by
    simp only [step, hc, if_true, Nat.pos_iff_ne_zero.mp hn, if_false]
  have hload : step p (s.setCall c (.load n)) (.load c v) =
      some ((s.setCall c (.load n)).setCall c (.tryLock n)) := by
    have hup : up p v n = true := decide_eq_true ⟨hpid, hnv⟩
    simp only [step, hself]
    rw [if_pos (show v ≤ (s.setCall c (.load n)).ready from hv), if_pos hup]
  have hexec : ∀ as, exec (threads p) s (.call c n :: .load c v :: as) =
      exec (threads p) ((s.setCall c (.load n)).setCall c (.tryLock n)) as := by
    intro as
    show (step p s (.call c n)).bind (fun t => (step p t (.load c v)).bind (exec (threads p) · as)) = _
    rw [hcall, Option.bind_some, hload, Option.bind_some]
  have htwo : ((s.setCall c (.load n)).setCall c (.tryLock n)) = s.setCall c (.tryLock n) := by
    simp only [setCall_eq, put_put]
  have hsame : Unspoiled (s.setCall c (.tryLock n)) ↔ Unspoiled s := by
    simp only [Unspoiled, ← not_exists, ← spoils_eq]
    simp only [spoils_put (show (CallAt.tryLock n).spoils = (s.calls c).spoils by rw [hc]; rfl)]
  have hthere : Tidy p (s.setCall c (.tryLock n)) :=
    tidy_aside (y := .tryLock n) htidy hc rfl rfl rfl (fun _ hy => (by cases hy)) s.threw s.started
      s.building
  have hothers : ∀ d ≠ c, ((s.setCall c (.tryLock n)).calls d).active = false := by
    intro d hd
    show (if d = c then CallAt.tryLock n else s.calls d).active = false
    rw [if_neg hd]
    exact hover d
  obtain ⟨hyes, hno⟩ := hturn hthere c n (hself _ _) hothers
  have hpooled : Pooled p s [.call c n, .load c v] c n ↔ Pooled p (s.setCall c (.tryLock n)) [] c n := by
    unfold Pooled
    simp only [List.cons_append, List.nil_append, hexec, htwo]
  rw [hpooled, ← hsame]
  exact ⟨fun hp => by_contra fun hn => (hno hn).2 hp, hyes⟩

/-- A round of call 1 with the first worker, in which `me` panics. -/
def panickedRound : List Act :=
  [.call 1 1, .load 1 2, .tryLock 1, .send 1, .take 0, .ended 0 false, .finish 0, .meEnd 1 false,
    .wait 1, .leave 1]

theorem the_pool_is_used_again :
    ∃ s, exec (threads twoThreads) start (warmUp ++ oneRound 1) = some s ∧
      Idle s ∧ Pooled twoThreads s [.call 2 1, .load 2 2] 2 1 := by
  have hexec : exec (threads twoThreads) start (warmUp ++ oneRound 1) = some (scene 1 1 1
      (put (put (fun _ => .idle) 0 (.back none false)) 1 (.back (some 1) false)) [(1, 0)]) := by
    rw [exec_append, exec_warmUp, Option.bind_some]
    apply exec_oneRound
    · rfl
    · rw [put_notify]
      rfl
    · decide
  have hcalls : ∀ c, (put (put (fun _ => CallAt.idle) 0 (.back none false)) 1 (.back (some 1) false) c).active
      = false ∧ ∀ n, put (put (fun _ => CallAt.idle) 0 (.back none false)) 1 (.back (some 1) false) c ≠
        .unwound (some n) := by
    intro c
    unfold put
    split
    · exact ⟨rfl, nofun⟩
    · split
      · exact ⟨rfl, nofun⟩
      · exact ⟨rfl, nofun⟩
  obtain ⟨hidle, hnext⟩ := (the_pool_is_idle_again_iff_no_pooled_call_unwound
    (Reachable.exec (.start rfl) _ hexec)).1 fun c => (hcalls c).1
  have hclean : Unspoiled (scene 1 1 1
      (put (put (fun _ => .idle) 0 (.back none false)) 1 (.back (some 1) false)) [(1, 0)]) :=
    fun c => (hcalls c).2
  exact ⟨_, hexec, hidle.mpr hclean,
    (hnext 2 1 2 rfl Nat.one_pos rfl (by decide) (by decide)).mpr hclean⟩

/-- One panic of the calling thread, and every later call spawns its own threads. -/
theorem a_panicked_call_spoils_the_pool :
    ∃ s, exec (threads twoThreads) start (warmUp ++ panickedRound) = some s ∧
      (∀ c, (s.calls c).active = false) ∧ s.ready = 2 ∧ s.job = none ∧ s.left = 0 ∧
      s.busy = .poisoned ∧ ∀ c, s.calls c = .idle →
        (exec (threads twoThreads) s [.call c 1, .load c 2, .tryLock c]).map (·.calls c) =
          some (.fresh 1 0 0 none) := by
  have hexec : exec (threads twoThreads) start (warmUp ++ panickedRound) = some { scene 1 1 1
      (put (put (fun _ => .idle) 0 (.back none false)) 1 (.unwound (some 1))) [(1, 0)] with
        busy := .poisoned } := by
    have hdec : dec 1 = 0 := by decide
    have hone : bump 0 = 1 := by decide
    have hme : (CallAt.me 1).notify = .me 1 := rfl
    have hidle : put (fun _ => CallAt.idle) 0 (.back none false) 1 = .idle := rfl
    rw [exec_append, exec_warmUp, Option.bind_some]
    simp [exec, threads, panickedRound, step, scene, hidle, setCall_eq, up, twoThreads, tryLockStep,
      sendStep, takeStep, endedStep, finishStep, meEndStep, waitStep, leaveStep, notifyAll,
      work, St.setWorker, hdec, put_notify, hme, hone]
    rfl
  refine ⟨_, hexec, fun c => ?_, rfl, rfl, rfl, rfl, fun c hc => ?_⟩
  · show (put (put (fun _ => CallAt.idle) 0 (.back none false)) 1 (.unwound (some 1)) c).active = false
    unfold put
    split
    · rfl
    · split <;> rfl
  · have hidle : put (put (fun _ => CallAt.idle) 0 (.back none false)) 1 (.unwound (some 1)) c = .idle := hc
    simp [exec, threads, step, scene, hidle, setCall_eq, up, twoThreads, tryLockStep]

end parquet_interop.pool
