-- The invariant of the thread pool: one call at a time lends its job, and
-- `left` is the number of the first `want` workers that still owe it.
import ParquetInterop.Pool

open lib.runs lib.parking

namespace parquet_interop.pool

/-! ## Where a call and a worker stand -/

/-- The call has the busy lock. -/
def CallAt.holds : CallAt → Bool
  | .send _ | .me _ | .look _ _ | .parked _ _ | .leave _ _ _ => true
  | _ => false

/-- The workers that the call asks the pool for. -/
def CallAt.asks : CallAt → Option Nat
  | .tryLock n | .send n => some n
  | _ => none

/-- The workers that have the job of the call. -/
def CallAt.lends : CallAt → Option Nat
  | .me n | .look n _ | .parked n _ => some n
  | _ => none

/-- The workers that had the job of a call, when the call is done with them. -/
def CallAt.over : CallAt → Option Nat
  | .leave n _ _ | .back (some n) _ | .unwound (some n) => some n
  | _ => none

/-- The call that a worker has the job of. -/
def WorkerAt.job : WorkerAt → Option Nat
  | .run _ c | .finish _ c _ => some c
  | _ => none

/-- A worker has seen no generation that is still to come, and one that is parked or in a job
has seen the last. -/
def WorkerAt.Saw (gen : Nat) : WorkerAt → Prop
  | .starting => True
  | .look seen => seen ≤ gen
  | .parked seen | .run seen _ | .finish seen _ _ => seen = gen

/-- The worker has taken what the last dispatch has for it. -/
def WorkerAt.took (gen : Nat) : WorkerAt → Bool
  | .starting => false
  | .look seen | .parked seen => seen = gen
  | .run _ _ | .finish _ _ _ => true

/-- A worker that is wanted owes a job until it has counted itself out. -/
def debt (gen : Nat) : WorkerAt → Nat
  | .starting | .run _ _ | .finish _ _ _ => 1
  | .look seen | .parked seen => if seen = gen then 0 else 1

/-- A panic that is still to be counted. -/
def uncounted : WorkerAt → Nat
  | .finish _ _ bad => bad.toNat
  | _ => 0

def unborn : WorkerAt → Nat
  | .starting => 1
  | _ => 0

/-! ## Weights of the first workers -/

/-- The weight of the first `n` workers. -/
def weigh (f : WorkerAt → Nat) (n : Nat) (ws : List WorkerAt) : Nat := ((ws.take n).map f).sum

theorem weigh_set (f : WorkerAt → Nat) {n j : Nat} {ws : List WorkerAt} {v : WorkerAt}
    (u : WorkerAt) (h : ws[j]? = some v) (hj : j < n) :
    weigh f n (ws.set j u) + f v = weigh f n ws + f u := by
  unfold weigh
  rw [List.take_set]
  apply total_set f u
  rw [List.getElem?_take_of_lt hj, h]

theorem weigh_set_ge (f : WorkerAt → Nat) {n j : Nat} (ws : List WorkerAt) (u : WorkerAt)
    (hj : n ≤ j) : weigh f n (ws.set j u) = weigh f n ws := by
  unfold weigh
  rw [List.take_set, List.set_eq_of_length_le]
  rw [List.length_take]
  omega

/-- A change that the weight does not see. -/
theorem weigh_set_same (f : WorkerAt → Nat) {n j : Nat} {ws : List WorkerAt} {v u : WorkerAt}
    (h : ws[j]? = some v) (he : j < n → f u = f v) : weigh f n (ws.set j u) = weigh f n ws := by
  by_cases hj : j < n
  · have := weigh_set f u h hj
    rw [he hj] at this
    omega
  · exact weigh_set_ge f ws u (Nat.not_lt.mp hj)

theorem weigh_append (f : WorkerAt → Nat) {n : Nat} {ws : List WorkerAt} (vs : List WorkerAt)
    (h : n ≤ ws.length) : weigh f n (ws ++ vs) = weigh f n ws := by
  unfold weigh
  rw [List.take_append_of_le_length h]

theorem weigh_const {f : WorkerAt → Nat} {n k : Nat} {ws : List WorkerAt} (h : ∀ w ∈ ws, f w = k)
    (hn : n ≤ ws.length) : weigh f n ws = n * k := by
  unfold weigh
  have hmap : (ws.take n).map f = List.replicate n k := by
    rw [List.eq_replicate_iff, List.length_map, List.length_take]
    refine ⟨by omega, fun x hx => ?_⟩
    obtain ⟨w, hw, rfl⟩ := List.mem_map.mp hx
    exact h w (List.mem_of_mem_take hw)
  rw [hmap, List.sum_replicate_nat]

theorem le_weigh {f : WorkerAt → Nat} {n j : Nat} {ws : List WorkerAt} {w : WorkerAt}
    (h : ws[j]? = some w) (hj : j < n) : f w ≤ weigh f n ws := by
  have hmem : w ∈ ws.take n := by
    apply List.mem_of_getElem? (i := j)
    rw [List.getElem?_take_of_lt hj, h]
  obtain ⟨pre, post, hsplit⟩ := List.append_of_mem hmem
  unfold weigh
  rw [hsplit, List.map_append, List.sum_append, List.map_cons, List.sum_cons]
  omega

theorem weigh_snoc (f : WorkerAt → Nat) (ws : List WorkerAt) (u : WorkerAt) :
    weigh f (ws ++ [u]).length (ws ++ [u]) = weigh f ws.length ws + f u := by
  unfold weigh
  rw [List.take_length, List.take_length, List.map_append, List.sum_append]
  simp

/-- A wake of all changes no weight that is blind to it. -/
theorem weigh_notifyAll {f : WorkerAt → Nat} (hf : ∀ seen, f (.look seen) = f (.parked seen)) (n : Nat)
    (ws : List WorkerAt) : weigh f n (notifyAll work ws) = weigh f n ws := by
  unfold weigh notifyAll
  rw [← List.map_take, List.map_map]
  congr 1
  apply List.map_congr_left
  intro w _
  cases w <;> first | rfl | exact hf _

/-! ## The invariant -/

/-- The runs of the job of call `c` that panicked. -/
def thrown (threw : List (Nat × Option Nat)) (c : Nat) : Nat := threw.countP (·.1 = c)

/-- The panics in the workers of the pool since the last dispatch, counted or not. -/
def St.bad (s : St) : Nat := s.panics + weigh uncounted s.ws.length s.ws

/-- How often worker `j` has had the job of a call that stands at `x`. -/
def turns (gen : Nat) (ws : List WorkerAt) (j : Nat) (x : CallAt) : Nat :=
  match x.lends, x.over with
  | some n, _ => if j < n ∧ ((ws[j]?).map (·.took gen)).getD false = true then 1 else 0
  | none, some n => if j < n then 1 else 0
  | none, none => 0

/-- A call that stands at `x` knows of the `k` runs of its job that panicked. -/
def Told (k bad : Nat) : CallAt → Prop
  | .me _ | .look _ _ | .parked _ _ => k = bad
  | .leave _ _ b | .back _ b | .warm b => b = true ↔ 0 < k
  | .fresh _ _ b _ => k = b
  | .unwound _ => True
  | _ => k = 0

structure Good (p : Pool) (s : St) : Prop where
  len : s.ws.length ≤ p.n
  ready : s.ready + weigh unborn s.ws.length s.ws = s.ws.length
  asks : ∀ c n, (s.calls c).asks = some n → n ≤ s.ws.length
  holder : ∀ c, (s.calls c).holds = true → s.busy = .held c
  lent : ∀ c n, (s.calls c).lends = some n → s.job = some c ∧ s.want = n
  job : ∀ c, s.job = some c → (s.calls c).lends = some s.want
  gen : s.gen = s.sent
  saw : ∀ w ∈ s.ws, w.Saw s.gen
  doing : ∀ (j : Nat) w c, s.ws[j]? = some w → w.job = some c → s.job = some c ∧ j < s.want
  want : s.want ≤ s.ws.length
  begun : 0 < s.want → 0 < s.sent
  left : s.left = weigh (debt s.gen) s.want s.ws
  rest : s.job = none → s.left = 0
  waits : ∀ c n ok, s.calls c = .parked n ok → 0 < s.left
  took : ∀ c j, s.took.count (c, j) = turns s.gen s.ws j (s.calls c)
  told : ∀ c, Told (thrown s.threw c) s.bad (s.calls c)

/-! ## Moves of a call -/

theorem quiet_same {p : Pool} {s : St} {x y : CallAt} (h : Quiet p s x y) :
    y.holds = x.holds ∧ y.lends = x.lends ∧ y.over = x.over := by
  cases h <;> exact ⟨rfl, rfl, rfl⟩

theorem quiet_told {p : Pool} {s : St} {x y : CallAt} (h : Quiet p s x y) {k bad : Nat}
    (ht : Told k bad x) : Told k bad y := by
  cases h with
  | meAlone =>
    have hk : k = 0 := ht
    simp [Told, hk]
  | joined =>
    have hk : k = _ := ht
    simp [Told, hk]
  | meAloneUnwound => trivial
  | joinedUnwound => trivial
  | warm _ => exact ht
  | alone => exact ht
  | load _ => exact ht
  | up _ _ => exact ht
  | down => exact ht
  | refused _ => exact ht
  | spawnFresh => exact ht
  | spawnFailed => exact ht
  | meFresh => exact ht
  | me => exact ht
  | park _ => exact ht
  | spurious => exact ht

theorem turns_congr {gen : Nat} {ws : List WorkerAt} {j : Nat} {x y : CallAt}
    (hl : y.lends = x.lends) (ho : y.over = x.over) : turns gen ws j y = turns gen ws j x := by
  unfold turns
  rw [hl, ho]

/-- The turns of a call that lends nothing have nothing to do with the workers. -/
theorem turns_idle {gen gen' : Nat} {ws ws' : List WorkerAt} {j : Nat} {x : CallAt}
    (hx : x.lends = none) : turns gen ws j x = turns gen' ws' j x := by
  unfold turns
  rw [hx]
  cases x.over <;> rfl

/-- What holds of every call, when one of them is put elsewhere. -/
theorem forall_setCall {P : Nat → CallAt → Prop} {calls : Nat → CallAt} {c : Nat} {y : CallAt}
    (hy : P c y) (hold : ∀ d ≠ c, P d (calls d)) (d : Nat) : P d (if d = c then y else calls d) := by
  split
  · rename_i hd
    exact hd ▸ hy
  · rename_i hd
    exact hold d hd

theorem holds_setCall {s : St} {c : Nat} {y : CallAt} (hy : y.holds = true → (s.calls c).holds = true)
    {d : Nat} (hd : ((s.setCall c y).calls d).holds = true) : (s.calls d).holds = true := by
  unfold St.setCall at hd
  dsimp only at hd
  split at hd
  · rename_i hdc
    exact hdc ▸ hy hd
  · exact hd

/-- A call that is put elsewhere, where it counts for the same. -/
theorem good_call {p : Pool} {s : St} (h : Good p s) {c : Nat} {y : CallAt} (busy : Busy)
    (threw : List (Nat × Option Nat)) (hasks : ∀ n, y.asks = some n → n ≤ s.ws.length)
    (hbusy : ∀ d, ((s.setCall c y).calls d).holds = true → busy = .held d)
    (hlends : y.lends = (s.calls c).lends) (hwait : ∀ n ok, y = .parked n ok → 0 < s.left)
    (hturns : ∀ j, turns s.gen s.ws j y = turns s.gen s.ws j (s.calls c))
    (hother : ∀ d ≠ c, thrown threw d = thrown s.threw d) (htold : Told (thrown threw c) s.bad y) :
    Good p { s.setCall c y with busy, threw } := by
  have hl : ∀ d, (if d = c then y else s.calls d).lends = (s.calls d).lends := by
    intro d
    split
    · rename_i hd
      rw [hlends, hd]
    · rfl
  refine { h with
    asks := forall_setCall (P := fun _ x => ∀ n, x.asks = some n → n ≤ s.ws.length) hasks fun d _ => h.asks d
    holder := hbusy
    lent := fun d n hd => h.lent d n (hl d ▸ hd)
    job := fun d hd => (hl d).trans (h.job d hd)
    waits := forall_setCall (P := fun _ x => ∀ n ok, x = .parked n ok → 0 < s.left) hwait fun d _ => h.waits d
    took := forall_setCall (P := fun d x => ∀ j, s.took.count (d, j) = turns s.gen s.ws j x) ?_
      fun d _ => h.took d
    told := forall_setCall (P := fun d x => Told (thrown threw d) s.bad x) htold fun d hd => ?_ }
  · intro j
    rw [hturns]
    exact h.took c j
  · rw [hother d hd]
    exact h.told d

theorem good_quiet {p : Pool} {s : St} (h : Good p s) {c : Nat} {x y : CallAt} (hx : s.calls c = x)
    (hq : Quiet p s x y) : Good p (s.setCall c y) := by
  obtain ⟨hholds, hlends, hover⟩ := quiet_same hq
  subst hx
  refine good_call h s.busy s.threw (fun n hn => ?_) (fun d hd => ?_) hlends
    (fun n ok hy => ?_) (fun j => turns_congr hlends hover) (fun _ _ => rfl) (quiet_told hq (h.told c))
  · generalize s.calls c = x at hq
    cases hq <;> cases hn
    rename_i _ hready
    have := h.ready
    omega
  · exact h.holder d (holds_setCall (fun hy => hholds ▸ hy) hd)
  · subst hy
    generalize s.calls c = x at hq
    cases hq
    assumption

theorem thrown_cons (threw : List (Nat × Option Nat)) (c d : Nat) (w : Option Nat) (bad : Bool) :
    thrown (if bad then (c, w) :: threw else threw) d =
      thrown threw d + if c = d then bad.toNat else 0 := by
  unfold thrown
  cases bad with
  | false => simp
  | true => simp [List.countP_cons]

theorem good_freshEnd {p : Pool} {s : St} (h : Good p s) {c todo live k : Nat} {me : Option Bool}
    (bad : Bool) (hc : s.calls c = .fresh todo (live + 1) k me) :
    Good p { s.setCall c (.fresh todo live (k + bad.toNat) me) with
      threw := if bad then (c, none) :: s.threw else s.threw } := by
  refine good_call h s.busy _ (fun n hn => nomatch hn) (fun d hd => ?_) (by rw [hc]; rfl)
    (fun n ok hy => nomatch hy) (fun j => by rw [hc]; rfl) (fun d hd => ?_) ?_
  · exact h.holder d (holds_setCall (fun hy => by cases hy) hd)
  · rw [thrown_cons, if_neg (Ne.symm hd), Nat.add_zero]
  · have ht := h.told c
    rw [hc] at ht
    have hk : thrown s.threw c = k := ht
    show thrown _ c = k + bad.toNat
    rw [thrown_cons, if_pos rfl, hk]

/-- Another call that holds the lock is this one. -/
theorem good_holder {p : Pool} {s : St} (h : Good p s) {c d : Nat} (hc : (s.calls c).holds = true)
    (hd : (s.calls d).holds = true) : d = c := by
  have heq := (h.holder d hd).symm.trans (h.holder c hc)
  cases heq
  rfl

theorem good_warm {p : Pool} {s : St} (h : Good p s) {c : Nat} {bad : Bool} (ok : Bool)
    (hc : s.calls c = .warm bad) :
    Good p { s.setCall c (.back none bad) with started := true, building := ok } := by
  have hgood : Good p (s.setCall c (.back none bad)) := by
    refine good_call h s.busy s.threw (fun n hn => nomatch hn) (fun d hd => ?_)
      (by rw [hc]; rfl) (fun n ok hy => nomatch hy) (fun j => by rw [hc]; rfl) (fun _ _ => rfl) ?_
    · exact h.holder d (holds_setCall (fun hy => by cases hy) hd)
    · have ht := h.told c
      rw [hc] at ht
      exact ht
  exact { hgood with }

theorem good_lock {p : Pool} {s : St} (h : Good p s) {c n : Nat} (hc : s.calls c = .tryLock n)
    (hb : s.busy = .free) : Good p { s.setCall c (.send (min n p.n)) with busy := .held c } := by
  have hasks := h.asks c n (by rw [hc]; rfl)
  refine good_call h _ s.threw (fun m hm => ?_) (fun d hd => ?_) (by rw [hc]; rfl)
    (fun n ok hy => nomatch hy) (fun j => by rw [hc]; rfl) (fun _ _ => rfl) ?_
  · cases hm
    exact Nat.le_trans (Nat.min_le_left _ _) hasks
  · unfold St.setCall at hd
    dsimp only at hd
    split at hd
    · rename_i hdc
      rw [hdc]
    · have := h.holder d hd
      rw [hb] at this
      cases this
  · have ht := h.told c
    rw [hc] at ht
    exact ht

/-- The lock goes with the call that holds it. -/
theorem good_release {p : Pool} {s : St} (h : Good p s) {c n : Nat} {ok bad : Bool}
    (hc : s.calls c = .leave n ok bad) {y : CallAt} (busy : Busy) (hholds : y.holds = false)
    (hasks : y.asks = none) (hlends : y.lends = none) (hover : y.over = some n)
    (hpark : ∀ n ok, y ≠ .parked n ok) (htold : Told (thrown s.threw c) s.bad y) :
    Good p { s.setCall c y with busy } := by
  refine good_call h _ s.threw (fun m hm => ?_) (fun d hd => ?_) (by rw [hc, hlends]; rfl)
    (fun n ok hy => absurd hy (hpark n ok)) (fun j => ?_) (fun _ _ => rfl) htold
  · rw [hasks] at hm
    cases hm
  · unfold St.setCall at hd
    dsimp only at hd
    split at hd
    · rw [hholds] at hd
      cases hd
    · rename_i hdc
      exact absurd (good_holder h (by rw [hc]; rfl) hd) hdc
  · exact turns_congr (by rw [hc, hlends]; rfl) (by rw [hc, hover]; rfl)

/-! ## Moves of a worker -/

theorem set_cases {ws : List WorkerAt} {i j : Nat} {u w : WorkerAt}
    (h : (ws.set j u)[i]? = some w) : i = j ∧ w = u ∨ i ≠ j ∧ ws[i]? = some w := by
  by_cases hij : j = i
  · subst hij
    rw [List.getElem?_set_self (List.length_set ▸ (List.getElem?_eq_some_iff.mp h).1)] at h
    exact Or.inl ⟨rfl, (Option.some.inj h).symm⟩
  · rw [List.getElem?_set_ne hij] at h
    exact Or.inr ⟨Ne.symm hij, h⟩

theorem saw_set {gen j : Nat} {ws : List WorkerAt} {u : WorkerAt} (h : ∀ w ∈ ws, w.Saw gen)
    (hu : u.Saw gen) : ∀ w ∈ ws.set j u, w.Saw gen := by
  intro w hw
  rcases List.mem_or_eq_of_mem_set hw with hw | rfl
  · exact h w hw
  · exact hu

/-- A worker that is put elsewhere changes the turns of no call in which it counts for the same. -/
theorem turns_set {gen j : Nat} {ws : List WorkerAt} {v u : WorkerAt} (hv : ws[j]? = some v)
    {x : CallAt} (hu : ∀ n, x.lends = some n → j < n → u.took gen = v.took gen) (i : Nat) :
    turns gen (ws.set j u) i x = turns gen ws i x := by
  unfold turns
  split
  · rename_i n hn
    by_cases hi : i < n
    · by_cases hij : j = i
      · subst hij
        rw [List.getElem?_set_self (List.getElem?_eq_some_iff.mp hv).1, hv]
        simp only [Option.map_some, Option.getD_some, hu n hn hi]
      · rw [List.getElem?_set_ne hij]
    · simp only [hi, false_and, if_false]
  · rfl
  · rfl

/-- A worker moves, and the counts move with it. -/
theorem good_move {p : Pool} {s : St} (h : Good p s) {j : Nat} {v u : WorkerAt}
    (hv : s.ws[j]? = some v) {ready left panics : Nat} {took : List (Nat × Nat)}
    {threw : List (Nat × Option Nat)} (hready : ready + unborn u = s.ready + unborn v)
    (hsaw : u.Saw s.gen) (hjob : ∀ c, u.job = some c → s.job = some c ∧ j < s.want)
    (hleft : left = weigh (debt s.gen) s.want (s.ws.set j u)) (hrest : s.job = none → left = 0)
    (hwaits : ∀ c n ok, s.calls c = .parked n ok → 0 < left)
    (htook : ∀ c i, took.count (c, i) = turns s.gen (s.ws.set j u) i (s.calls c))
    (htold : ∀ c bad, bad + s.panics + uncounted v = s.bad + panics + uncounted u →
      Told (thrown threw c) bad (s.calls c)) :
    Good p { s.setWorker j u with ready, left, panics, took, threw } := by
  have hj := (List.getElem?_eq_some_iff.mp hv).1
  have hlen : (s.ws.set j u).length = s.ws.length := List.length_set
  refine { h with
    len := hlen ▸ h.len
    ready := ?_
    asks := fun c n hc => hlen ▸ h.asks c n hc
    saw := saw_set h.saw hsaw
    doing := fun i w c hi hw => ?_
    want := hlen ▸ h.want
    left := hleft
    rest := hrest
    waits := hwaits
    took := htook
    told := fun c => htold c _ ?_ }
  · show ready + weigh unborn (s.ws.set j u).length (s.ws.set j u) = (s.ws.set j u).length
    have hset := weigh_set unborn u hv hj
    have hold := h.ready
    rw [hlen]
    omega
  · rcases set_cases hi with ⟨rfl, rfl⟩ | ⟨_, hi⟩
    · exact hjob c hw
    · exact h.doing i w c hi hw
  · show panics + weigh uncounted (s.ws.set j u).length (s.ws.set j u) + s.panics + uncounted v =
      s.panics + weigh uncounted s.ws.length s.ws + panics + uncounted u
    have hset := weigh_set uncounted u hv hj
    rw [hlen]
    omega

/-- A worker that moves outside of a job, and owes what it owed. -/
theorem good_worker {p : Pool} {s : St} (h : Good p s) {j : Nat} {v u : WorkerAt}
    (hv : s.ws[j]? = some v) {ready : Nat} (hready : ready + unborn u = s.ready + unborn v)
    (hsaw : u.Saw s.gen) (hjob : u.job = none) (hbad : uncounted u = uncounted v)
    (hsame : j < s.want → debt s.gen u = debt s.gen v ∧ u.took s.gen = v.took s.gen) :
    Good p { s.setWorker j u with ready } := by
  refine good_move h hv hready hsaw (fun c hc => ?_) ?_ h.rest h.waits (fun c i => ?_) fun c bad he => ?_
  · rw [hjob] at hc
    cases hc
  · exact h.left.trans (weigh_set_same _ hv fun hlt => (hsame hlt).1).symm
  · refine (h.took c i).trans (turns_set hv (fun n hn hlt => ?_) i).symm
    rw [← (h.lent c n hn).2] at hlt
    exact (hsame hlt).2
  · have he : bad + s.panics + uncounted v = s.bad + s.panics + uncounted u := he
    have hsame : bad = s.bad := by omega
    exact hsame ▸ h.told c

/-! ## Moves inside a job -/

theorem told_congr {k bad bad' : Nat} {x : CallAt} (hx : x.lends = none) (h : Told k bad x) :
    Told k bad' x := by
  cases x <;> first | exact h | cases hx

theorem told_lends {k bad n : Nat} {x : CallAt} (hx : x.lends = some n) : Told k bad x ↔ k = bad := by
  cases x <;> first | exact Iff.rfl | cases hx

/-- The call of a job that is out is the only one that lends. -/
theorem lends_only {p : Pool} {s : St} (h : Good p s) {c : Nat} (hc : s.job = some c) {d : Nat}
    (hd : d ≠ c) : (s.calls d).lends = none := by
  rcases hl : (s.calls d).lends with _ | n
  · rfl
  · have hjob := (h.lent d n hl).1
    rw [hc] at hjob
    exact absurd (Option.some.inj hjob).symm hd

theorem good_take {p : Pool} {s : St} (h : Good p s) {j seen c : Nat}
    (hv : s.ws[j]? = some (.look seen)) (hseen : s.gen ≠ seen) (hc : s.job = some c)
    (hj : j < s.want) :
    Good p { s.setWorker j (.run s.gen c) with took := (c, j) :: s.took } := by
  have hlt := (List.getElem?_eq_some_iff.mp hv).1
  refine good_move h hv rfl rfl (fun d hd => ?_) ?_ h.rest h.waits (fun d i => ?_) fun d bad he => ?_
  · cases hd
    exact ⟨hc, hj⟩
  · refine h.left.trans (weigh_set_same _ hv fun _ => ?_).symm
    simp [debt, Ne.symm hseen]
  · have hold := h.took d i
    by_cases hdc : d = c
    · subst hdc
      have hlends := h.job d hc
      by_cases hij : i = j
      · subst hij
        rw [List.count_cons_self, hold]
        unfold turns
        rw [hlends, List.getElem?_set_self hlt, hv]
        simp [WorkerAt.took, hj, Ne.symm hseen]
      · have hne : ((d, j) == (d, i)) = false := by simp [Ne.symm hij]
        rw [List.count_cons, hne, if_neg Bool.false_ne_true, Nat.add_zero, hold]
        unfold turns
        rw [List.getElem?_set_ne (Ne.symm hij)]
    · have hne : ((c, j) == (d, i)) = false := by simp [Ne.symm hdc]
      rw [List.count_cons, hne, if_neg Bool.false_ne_true, Nat.add_zero, hold]
      refine (turns_set hv (fun n hn _ => ?_) i).symm
      rw [lends_only h hc hdc] at hn
      cases hn
  · have he : bad + s.panics + 0 = s.bad + s.panics + 0 := he
    have hsame : bad = s.bad := by omega
    exact hsame ▸ h.told d

/-- The end of a job: a panic is thrown, and is still to be counted. -/
theorem good_ended {p : Pool} {s : St} (h : Good p s) {j seen c : Nat} (bad : Bool)
    (hv : s.ws[j]? = some (.run seen c)) :
    Good p { s.setWorker j (.finish seen c bad) with
      threw := if bad then (c, some j) :: s.threw else s.threw } := by
  have hjob := h.doing j _ c hv rfl
  have hseen : seen = s.gen := h.saw _ (List.mem_of_getElem? hv)
  refine good_move h hv rfl hseen (fun d hd => ?_) ?_ h.rest h.waits (fun d i => ?_) fun d k he => ?_
  · cases hd
    exact hjob
  · exact h.left.trans (weigh_set_same (u := .finish seen c bad) _ hv fun _ => rfl).symm
  · exact (h.took d i).trans (turns_set (u := .finish seen c bad) hv (fun _ _ _ => rfl) i).symm
  · have hold := h.told d
    rw [thrown_cons]
    by_cases hdc : d = c
    · subst hdc
      have hlends := h.job d hjob.1
      have he : k + s.panics + 0 = s.bad + s.panics + bad.toNat := he
      rw [told_lends hlends] at hold ⊢
      rw [if_pos rfl]
      omega
    · rw [if_neg (Ne.symm hdc), Nat.add_zero]
      exact told_congr (lends_only h hjob.1 hdc) hold

theorem notify_ne (x : CallAt) (n : Nat) (ok : Bool) : x.notify ≠ .parked n ok := by
  cases x <;> nofun

/-- A wake of every call that waits. -/
theorem good_notify {p : Pool} {s : St} (h : Good p s) :
    Good p { s with calls := fun d => (s.calls d).notify } := by
  have hasks : ∀ x : CallAt, x.notify.asks = x.asks := fun x => by cases x <;> rfl
  have hholds : ∀ x : CallAt, x.notify.holds = x.holds := fun x => by cases x <;> rfl
  have hlends : ∀ x : CallAt, x.notify.lends = x.lends := fun x => by cases x <;> rfl
  have hover : ∀ x : CallAt, x.notify.over = x.over := fun x => by cases x <;> rfl
  refine { h with
    asks := fun c n hc => h.asks c n ((hasks _).symm.trans hc)
    holder := fun c hc => h.holder c ((hholds _).symm.trans hc)
    lent := fun c n hc => h.lent c n ((hlends _).symm.trans hc)
    job := fun c hc => (hlends _).trans (h.job c hc)
    waits := fun c n ok hc => ?_
    took := fun c j => (h.took c j).trans (turns_congr (hlends _) (hover _)).symm
    told := fun c => ?_ }
  · exact absurd hc (notify_ne _ n ok)
  · have hold := h.told c
    show Told (thrown s.threw c) s.bad (s.calls c).notify
    generalize s.calls c = x at hold
    cases x <;> exact hold

theorem dec_of_pos {left : Nat} (hpos : 0 < left) (hlt : left < 2 ^ 64) : dec left = left - 1 := by
  unfold dec
  omega

/-- A worker that is still in a job is counted. -/
theorem left_pos {p : Pool} {s : St} (h : Good p s) {j : Nat} {w : WorkerAt}
    (hw : s.ws[j]? = some w) {c : Nat} (hc : w.job = some c) : 0 < s.left := by
  have hdebt : debt s.gen w = 1 := by cases w <;> first | rfl | cases hc
  have hle := le_weigh (f := debt s.gen) hw (h.doing j w c hw hc).2
  rw [h.left]
  omega

theorem debt_le (gen : Nat) (w : WorkerAt) : debt gen w ≤ 1 := by
  cases w <;> simp only [debt] <;> first | omega | (split <;> omega)

/-- No more is owed than one run of the job for each worker that is wanted. -/
theorem weigh_debt_le (gen n : Nat) (ws : List WorkerAt) :
    weigh (debt gen) n ws + (n - ws.length) ≤ n := by
  have hsum : ∀ vs : List WorkerAt, (vs.map (debt gen)).sum ≤ vs.length := by
    intro vs
    induction vs with
    | nil => exact Nat.le_refl 0
    | cons w vs ih =>
      have hw := debt_le gen w
      rw [List.map_cons, List.sum_cons, List.length_cons]
      omega
  have hle := hsum (ws.take n)
  rw [List.length_take] at hle
  unfold weigh
  omega

theorem left_lt {p : Pool} {s : St} (h : Good p s) : s.left < 2 ^ 64 := by
  have hle := weigh_debt_le s.gen s.want s.ws
  have hlen := h.len
  have hwant := h.want
  have hn := p.n_lt
  rw [h.left]
  omega

/-- A worker counts itself out. -/
theorem good_finish {p : Pool} {s : St} (h : Good p s) {j seen c : Nat} {bad : Bool}
    (hv : s.ws[j]? = some (.finish seen c bad)) :
    Good p { s.setWorker j (.look seen) with
      panics := s.panics + bad.toNat, left := dec s.left
      calls := if dec s.left = 0 then fun d => (s.calls d).notify else s.calls } := by
  have hjob := h.doing j _ c hv rfl
  have hseen : seen = s.gen := h.saw _ (List.mem_of_getElem? hv)
  have hdec := dec_of_pos (left_pos h hv rfl) (left_lt h)
  have hset := weigh_set (debt s.gen) (.look seen) hv hjob.2
  have hone : debt s.gen (.finish seen c bad) = 1 := rfl
  have hzero : debt s.gen (.look seen) = 0 := by simp [debt, hseen]
  have hleft : dec s.left = weigh (debt s.gen) s.want (s.ws.set j (.look seen)) := by
    have := h.left
    omega
  have hmove : ∀ {calls : Nat → CallAt}, Good p { s with calls } →
      (∀ d n ok, calls d = .parked n ok → 0 < dec s.left) →
      Good p { s.setWorker j (.look seen) with
        panics := s.panics + bad.toNat, left := dec s.left, calls } := by
    intro calls hgood hwaits
    refine good_move hgood (v := .finish seen c bad) hv rfl (Nat.le_of_eq hseen) (fun d hd => nomatch hd) hleft
      (fun hnone => ?_) hwaits (fun d i => ?_) fun d k he => ?_
    · rw [show s.job = none from hnone] at hjob
      cases hjob.1
    · refine (hgood.took d i).trans (turns_set (v := .finish seen c bad) hv (fun n hn _ => ?_) i).symm
      simp [WorkerAt.took, hseen]
    · have hold := hgood.told d
      have hk : k = St.bad { s with calls } := by
        simp only [uncounted] at he
        omega
      exact hk ▸ hold
  by_cases hd : dec s.left = 0
  · rw [if_pos hd]
    exact hmove (good_notify h) fun d n ok hp => absurd hp (notify_ne _ n ok)
  · rw [if_neg hd]
    exact hmove h fun _ _ _ _ => Nat.pos_of_ne_zero hd

/-! ## The dispatch and the end of it -/

/-- No job is out when a call is about to lend one. -/
theorem job_none {p : Pool} {s : St} (h : Good p s) {c n : Nat} (hc : s.calls c = .send n) :
    s.job = none := by
  rcases hj : s.job with _ | d
  · rfl
  · have hl := h.job d hj
    have hholds : (s.calls d).holds = true := by
      generalize s.calls d = x at hl
      cases x <;> first | rfl | cases hl
    have hdc := good_holder h (c := c) (by rw [hc]; rfl) hholds
    rw [hdc, hc] at hl
    cases hl

theorem good_send {p : Pool} {s : St} (h : Good p s) {c n : Nat} (hc : s.calls c = .send n)
    (hfits : s.sent + 1 < 2 ^ 64) :
    Good p { s.setCall c (.me n) with
      job := some c, want := n, left := n, panics := 0, gen := bump s.gen
      ws := notifyAll work s.ws, sent := s.sent + 1 } := by
  have hnone := job_none h hc
  have hn : n ≤ s.ws.length := h.asks c n (by rw [hc]; rfl)
  have hgen : bump s.gen = s.sent + 1 := by
    have := h.gen
    unfold bump
    omega
  have hlen : (notifyAll work s.ws).length = s.ws.length := notifyAll_length work s.ws
  -- Every worker is on its way to the loop, and has not seen the new generation.
  have hfree : ∀ w ∈ notifyAll work s.ws, w = .starting ∨ ∃ seen, w = .look seen ∧ seen ≤ s.gen := by
    intro w hw
    obtain ⟨v, hv, rfl⟩ := List.mem_map.mp hw
    obtain ⟨j, hj⟩ := List.mem_iff_getElem?.mp hv
    have hsaw := h.saw v hv
    have hdo : ∀ d, v.job = some d → False := by
      intro d hd
      have := (h.doing j v d hj hd).1
      rw [hnone] at this
      cases this
    cases v with
    | starting => exact Or.inl rfl
    | look seen => exact Or.inr ⟨seen, rfl, hsaw⟩
    | parked seen => exact Or.inr ⟨seen, rfl, Nat.le_of_eq hsaw⟩
    | run seen d => exact (hdo d rfl).elim
    | finish seen d bad => exact (hdo d rfl).elim
  have hlate : ∀ seen ≤ s.gen, seen ≠ bump s.gen := by
    intro seen hs
    have := h.gen
    omega
  have hother : ∀ d ≠ c, (s.calls d).lends = none := by
    intro d hd
    rcases hl : (s.calls d).lends with _ | m
    · rfl
    · have hjob := (h.lent d m hl).1
      rw [hnone] at hjob
      cases hjob
  have hzero : weigh uncounted (notifyAll work s.ws).length (notifyAll work s.ws) = 0 := by
    have := weigh_const (f := uncounted) (k := 0) (fun w hw => ?_) (Nat.le_refl (notifyAll work s.ws).length)
    · omega
    · rcases hfree w hw with rfl | ⟨seen, rfl, _⟩ <;> rfl
  constructor
  case len => exact hlen ▸ h.len
  case ready =>
    show s.ready + weigh unborn (notifyAll work s.ws).length (notifyAll work s.ws) =
      (notifyAll work s.ws).length
    rw [weigh_notifyAll (fun _ => rfl), hlen]
    exact h.ready
  case asks =>
    exact forall_setCall (P := fun _ x => ∀ m, x.asks = some m → m ≤ (notifyAll work s.ws).length) nofun
      fun d _ m hm => hlen ▸ h.asks d m hm
  case holder =>
    exact fun d hd => h.holder d (holds_setCall (y := .me n) (fun _ => by rw [hc]; rfl) hd)
  case lent =>
    refine forall_setCall (P := fun d x => ∀ m, x.lends = some m → some c = some d ∧ n = m) ?_ ?_
    · rintro m hm
      cases hm
      exact ⟨rfl, rfl⟩
    · intro d hd m hm
      rw [hother d hd] at hm
      cases hm
  case job =>
    intro d hd
    cases hd
    show (if c = c then CallAt.me n else s.calls c).lends = some n
    rw [if_pos rfl]
    rfl
  case gen => exact hgen
  case saw =>
    intro w hw
    rcases hfree w hw with rfl | ⟨seen, rfl, hs⟩
    · trivial
    · show seen ≤ bump s.gen
      have := h.gen
      omega
  case doing =>
    intro j w d hj hd
    rcases hfree w (List.mem_of_getElem? hj) with rfl | ⟨seen, rfl, _⟩ <;> cases hd
  case want => exact hlen ▸ hn
  case begun => exact fun _ => Nat.succ_pos _
  case left =>
    have := weigh_const (f := debt (bump s.gen)) (k := 1) (fun w hw => ?_) (hlen ▸ hn)
    · show n = weigh (debt (bump s.gen)) n (notifyAll work s.ws)
      omega
    · rcases hfree w hw with rfl | ⟨seen, rfl, hs⟩
      · rfl
      · simp [debt, hlate seen hs]
  case rest => exact nofun
  case waits =>
    refine forall_setCall (P := fun _ x => ∀ m ok, x = .parked m ok → 0 < n) nofun fun d hd m ok hp => ?_
    have hnl := hother d hd
    rw [hp] at hnl
    cases hnl
  case took =>
    refine forall_setCall (P := fun d x => ∀ j, s.took.count (d, j) =
      turns (bump s.gen) (notifyAll work s.ws) j x) (fun j => ?_) fun d hd j => ?_
    · have hnot : ((notifyAll work s.ws)[j]?.map (·.took (bump s.gen))).getD false = false := by
        rcases hw : (notifyAll work s.ws)[j]? with _ | w
        · rfl
        · rcases hfree w (List.mem_of_getElem? hw) with rfl | ⟨seen, rfl, hs⟩
          · rfl
          · simp [WorkerAt.took, hlate seen hs]
      rw [h.took c j, hc]
      unfold turns
      simp only [CallAt.lends, CallAt.over, hnot, Bool.false_eq_true, and_false, if_false]
    · exact (h.took d j).trans (turns_idle (hother d hd))
  case told =>
    refine forall_setCall (P := fun d x => Told (thrown s.threw d) (0 + weigh uncounted
      (notifyAll work s.ws).length (notifyAll work s.ws)) x) ?_ fun d hd => ?_
    · have ht := h.told c
      rw [hc] at ht
      rw [hzero]
      exact ht
    · exact told_congr (hother d hd) (h.told d)

/-- The call finds that nobody is left. -/
theorem good_collect {p : Pool} {s : St} (h : Good p s) {c n : Nat} {ok : Bool}
    (hc : s.calls c = .look n ok) (hleft : s.left = 0) :
    Good p { s.setCall c (.leave n ok (decide (0 < s.panics))) with job := none } := by
  obtain ⟨hjob, hwant⟩ := h.lent c n (by rw [hc]; rfl)
  have hout : ∀ (j : Nat) w d, s.ws[j]? = some w → w.job = some d → False := by
    intro j w d hj hd
    have := left_pos h hj hd
    omega
  have hzero : weigh uncounted s.ws.length s.ws = 0 := by
    have := weigh_const (f := uncounted) (k := 0) (fun w hw => ?_) (Nat.le_refl s.ws.length)
    · omega
    · obtain ⟨j, hj⟩ := List.mem_iff_getElem?.mp hw
      cases w with
      | finish seen d bad => exact (hout j _ d hj rfl).elim
      | starting => rfl
      | look seen => rfl
      | parked seen => rfl
      | run seen d => rfl
  have hother : ∀ d, (if d = c then CallAt.leave n ok (decide (0 < s.panics)) else s.calls d).lends =
      none := by
    apply forall_setCall (P := fun _ x => x.lends = none) rfl
    exact fun d hd => lends_only h hjob hd
  refine { h with
    asks := forall_setCall (P := fun _ x => ∀ m, x.asks = some m → m ≤ s.ws.length) nofun
      fun d _ => h.asks d
    holder := fun d hd => h.holder d
      (holds_setCall (y := .leave n ok (decide (0 < s.panics))) (fun _ => by rw [hc]; rfl) hd)
    lent := fun d m hd => absurd ((hother d).symm.trans hd) nofun
    job := fun d hd => nomatch hd
    doing := fun j w d hj hd => (hout j w d hj hd).elim
    rest := fun _ => hleft
    waits := fun d m ok hp => absurd ((hother d).symm.trans (congrArg CallAt.lends hp)) nofun
    took := forall_setCall (P := fun d x => ∀ j, s.took.count (d, j) = turns s.gen s.ws j x) ?_
      fun d _ => h.took d
    told := forall_setCall (P := fun d x => Told (thrown s.threw d) s.bad x) ?_ fun d _ => h.told d }
  · intro j
    rw [h.took c j, hc]
    unfold turns
    simp only [CallAt.lends, CallAt.over]
    by_cases hj : j < n
    · -- Nobody owes the job, so every worker that it is for has had it.
      have hlt : j < s.ws.length := Nat.lt_of_lt_of_le hj (hwant ▸ h.want)
      have hw : s.ws[j]? = some s.ws[j] := List.getElem?_eq_getElem hlt
      have hdebt : debt s.gen s.ws[j] = 0 := by
        have := le_weigh (f := debt s.gen) hw (hwant.symm ▸ hj)
        have := h.left
        omega
      have htook : s.ws[j].took s.gen = true := by
        generalize s.ws[j] = w at hdebt
        cases w <;> simp_all [debt, WorkerAt.took]
      rw [hw]
      simp only [Option.map_some, Option.getD_some, htook, hj, and_self, if_true]
    · simp only [hj, false_and, if_false]
  · have ht := h.told c
    rw [hc, told_lends rfl] at ht
    unfold St.bad at ht
    show decide (0 < s.panics) = true ↔ 0 < thrown s.threw c
    rw [decide_eq_true_iff]
    omega

theorem snoc_cases {ws : List WorkerAt} {u w : WorkerAt} {j : Nat} (h : (ws ++ [u])[j]? = some w) :
    ws[j]? = some w ∨ j = ws.length ∧ w = u := by
  by_cases hj : j < ws.length
  · rw [List.getElem?_append_left hj] at h
    exact Or.inl h
  · have hlt := (List.getElem?_eq_some_iff.mp h).1
    rw [List.getElem?_append_right (Nat.not_lt.mp hj)] at h
    rw [List.length_append, List.length_singleton] at hlt
    exact Or.inr ⟨by omega, List.mem_singleton.mp (List.mem_of_getElem? h)⟩

theorem good_spawn {p : Pool} {s : St} (h : Good p s) (hlt : s.ws.length < p.n) :
    Good p { s with ws := s.ws ++ [.starting] } := by
  have hlen : (s.ws ++ [WorkerAt.starting]).length = s.ws.length + 1 := List.length_append
  refine { h with
    len := hlen ▸ hlt
    ready := ?_
    asks := fun c n hc => hlen ▸ Nat.le_succ_of_le (h.asks c n hc)
    saw := fun w hw => ?_
    doing := fun j w c hj hw => ?_
    want := hlen ▸ Nat.le_succ_of_le h.want
    left := h.left.trans (weigh_append _ _ h.want).symm
    took := fun c j => ?_
    told := fun c => ?_ }
  · show s.ready + weigh unborn (s.ws ++ [WorkerAt.starting]).length (s.ws ++ [WorkerAt.starting]) =
      (s.ws ++ [WorkerAt.starting]).length
    have hone : unborn .starting = 1 := rfl
    have := h.ready
    rw [weigh_snoc, hlen]
    omega
  · rcases List.mem_append.mp hw with hw | hw
    · exact h.saw w hw
    · cases List.mem_singleton.mp hw
      trivial
  · rcases snoc_cases hj with hj | ⟨_, rfl⟩
    · exact h.doing j w c hj hw
    · cases hw
  · refine (h.took c j).trans ?_
    have hsame : ((s.ws[j]?).map (·.took s.gen)).getD false =
        (((s.ws ++ [WorkerAt.starting])[j]?).map (·.took s.gen)).getD false := by
      by_cases hj : j < s.ws.length
      · rw [List.getElem?_append_left hj]
      · rw [List.getElem?_eq_none (Nat.not_lt.mp hj)]
        rcases hw : (s.ws ++ [WorkerAt.starting])[j]? with _ | w
        · rfl
        · rcases snoc_cases hw with hw | ⟨_, rfl⟩
          · exact absurd (List.getElem?_eq_some_iff.mp hw).1 hj
          · rfl
    unfold turns
    rw [hsame]
  · have ht := h.told c
    unfold St.bad at ht ⊢
    show Told (thrown s.threw c) (s.panics + weigh uncounted (s.ws ++ [WorkerAt.starting]).length
      (s.ws ++ [WorkerAt.starting])) (s.calls c)
    rw [weigh_snoc]
    exact ht

/-! ## Every move -/

theorem good_start (p : Pool) : Good p start where
  len := Nat.zero_le _
  ready := rfl
  asks _ _ h := nomatch h
  holder _ h := nomatch h
  lent _ _ h := nomatch h
  job _ h := nomatch h
  gen := rfl
  saw _ h := nomatch h
  doing _ _ _ h := nomatch h
  want := Nat.le_refl 0
  begun h := h
  left := rfl
  rest _ := rfl
  waits _ _ _ h := nomatch h
  took _ _ := rfl
  told _ := rfl

theorem sent_le {p : Pool} {s t : St} (h : Moved p s t) : s.sent ≤ t.sent := by
  cases h <;> first | exact Nat.le_refl _ | exact Nat.le_succ _

theorem good_moved {p : Pool} {s t : St} (h : Good p s) (hm : Moved p s t)
    (hfits : t.sent < 2 ^ 64) : Good p t := by
  cases hm with
  | quiet hc hq => exact good_quiet h hc hq
  | freshEnd bad hc => exact good_freshEnd h bad hc
  | warm ok hc _ => exact good_warm h ok hc
  | lock hc hb => exact good_lock h hc hb
  | send hc => exact good_send h hc hfits
  | collect hc hl => exact good_collect h hc hl
  | @leave c n bad hc =>
    have ht := h.told c
    rw [hc] at ht
    exact good_release h hc .free rfl rfl rfl rfl nofun ht
  | unwind hc => exact good_release h hc .poisoned rfl rfl rfl rfl nofun trivial
  | spawn _ hlt => exact good_spawn h hlt
  | spawnFailed _ => exact { h with }
  | start hj =>
    refine good_worker h hj rfl (Nat.zero_le _) rfl rfl fun hlt => ?_
    -- A worker that is wanted starts behind the first dispatch.
    have hgen : ¬0 = s.gen := by
      have := h.begun (by omega)
      have := h.gen
      omega
    simp [debt, WorkerAt.took, hgen]
  | park hj hg =>
    refine good_worker h hj rfl hg.symm rfl rfl fun _ => ?_
    exact ⟨rfl, rfl⟩
  | @skip j seen hj hg hout =>
    refine good_worker h hj rfl (Nat.le_refl _) rfl rfl fun hlt => ?_
    rcases hout with hnone | hge
    · have hle := le_weigh (f := debt s.gen) hj hlt
      have hone : debt s.gen (.look seen) = 1 := by simp [debt, Ne.symm hg]
      have := h.rest hnone
      have := h.left
      omega
    · omega
  | take hj hg hc hw => exact good_take h hj hg hc hw
  | spurious hj =>
    have hseen := h.saw _ (List.mem_of_getElem? hj)
    refine good_worker h hj rfl (Nat.le_of_eq hseen) rfl rfl fun _ => ?_
    exact ⟨rfl, rfl⟩
  | ended bad hj => exact good_ended h bad hj
  | finish hj => exact good_finish h hj

/-- Before the generations run out, every state that is reached is a good one. -/
theorem reachable_good {p : Pool} {s : St} (h : Reachable (threads p) s) (hfits : s.sent < 2 ^ 64) :
    Good p s := by
  have hall : s.sent < 2 ^ 64 → Good p s := by
    refine Reach.invariant (I := fun s => s.sent < 2 ^ 64 → Good p s) h ?_ ?_
    · rintro s rfl _
      exact good_start p
    · intro s a t _ hold _ hst hlt
      have hm := step_moved hst
      have := sent_le hm
      exact good_moved (hold (by omega)) hm hlt
  exact hall hfits

end parquet_interop.pool
