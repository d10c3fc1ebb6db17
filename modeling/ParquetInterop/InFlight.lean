-- The in-flight window of `write_table`: how many bytes of the table are on their way
-- between a claim and the file, and when a worker has to wait.
import ParquetInterop.QueueWake
import ParquetInterop.RoundTrip

open lib.runs lib.parking
open parquet_interop.write

namespace parquet_interop.write_queue

/-! ## The queue of a table -/

def INFLIGHT_BYTES : Nat := 512 * 2 ^ 20

/-- The bytes of a row of the widest column. -/
def widest (T : LTable) : Nat := T.cols.foldl (fun width col => max width (ffi.width col.lt)) 0

/-- The most bytes that one chunk stands for. -/
def per (T : LTable) (o : Opts) : Nat := max (min o.rg T.nrows * widest T) 1

theorem nrows_of_no_column (T : LTable) (h : T.names.length = 0) : T.nrows = 0 := by
  have hcols : T.cols = [] := List.length_eq_zero_iff.mp (T.len_eq.trans h)
  simp [LTable.nrows, hcols]

/-- What `write_table` fixes before the queue starts, when the pool has `threads` threads. -/
def planOf (T : LTable) (o : Opts) (threads : Nat) : Plan :=
  let nc := T.names.length
  let nthreads := max (min threads (divCeil T.nrows o.rg * nc)) 1
  { nc, nrows := T.nrows, rg := o.rg, nthreads
    window := windowOf nthreads nc o.rg T.nrows (widest T)
    rg_pos := o.rg_pos
    window_pos := Nat.le_max_right _ _
    nthreads_pos := Nat.le_max_right _ _
    no_column := nrows_of_no_column T }

/-! ## What is in flight -/

def WorkerAt.task : WorkerAt → Option Nat
  | .encode k => some k.i
  | _ => none

def WorkerAt.chunk (p : Plan) : WorkerAt → Option Chunk
  | .encode k => some (encodeOf p k)
  | _ => none

def MasterAt.chunk : MasterAt → Option Chunk
  | .append _ _ ch => some ch
  | _ => none

/-- The chunks that are claimed and not in the file: the one that the master appends, those that
are done, and those that the workers encode. -/
def St.inFlight (p : Plan) (s : St) : List Chunk :=
  s.m.chunk.toList ++ (List.range p.ntasks).filterMap s.q.done ++ s.ws.filterMap (WorkerAt.chunk p)

/-- The bytes of the table that a chunk stands for. -/
def payload (T : LTable) (ch : Chunk) : Nat :=
  ((T.cols[ch.col]?).map fun col => ch.len * ffi.width col.lt).getD 0

/-! ## Every task is in one place -/

/-- No two workers have one task, and what they have and what is done is not consumed. -/
structure Afloat (q : Q) (ws : List WorkerAt) : Prop where
  apart : ∀ (i j : Nat) k l, ws[i]? = some (.encode k) → ws[j]? = some (.encode l) → k.i = l.i → i = j
  ahead : ∀ (j : Nat) k, ws[j]? = some (.encode k) → q.head ≤ k.i ∧ q.done k.i = none
  waiting : ∀ i ch, q.done i = some ch → q.head ≤ i

/-- Who encodes in the new workers does so in the old ones. -/
def Since (old new : List WorkerAt) : Prop :=
  ∀ (j : Nat) k, new[j]? = some (.encode k) → old[j]? = some (.encode k)

theorem since_refl (ws : List WorkerAt) : Since ws ws := fun _ _ h => h

theorem since_set {ws : List WorkerAt} {j : Nat} {w : WorkerAt} (h : ∀ k, w ≠ .encode k) :
    Since ws (ws.set j w) := by
  intro i k hi
  rw [List.getElem?_set] at hi
  split at hi
  · split at hi
    · cases hi
      exact absurd rfl (h k)
    · cases hi
  · exact hi

theorem since_notifyAll (ws : List WorkerAt) : Since ws (notifyAll work ws) := by
  intro i k hi
  rw [notifyAll_getElem?, Option.map_eq_some_iff] at hi
  obtain ⟨w, hw, hwk⟩ := hi
  split at hwk
  · cases hwk
  · exact hwk ▸ hw

theorem since_notifyOne {ws us : List WorkerAt} {k : Option Nat} (h : notifyOne work ws k = some us) :
    Since ws us := by
  rcases notifyOne_cases work h with ⟨rfl, _⟩ | ⟨j, w, _, _, rfl⟩
  · exact since_refl _
  · exact since_set (by simp [work])

theorem Afloat.since {q : Q} {ws us : List WorkerAt} (h : Afloat q ws) (hs : Since ws us) : Afloat q us where
  apart i j k l hi hj := h.apart i j k l (hs i k hi) (hs j l hj)
  ahead j k hj := h.ahead j k (hs j k hj)
  waiting := h.waiting

theorem afloat_takeTask {p : Plan} {s : St} {j : Nat} (hg : Good p s) (h : Afloat s.q s.ws) :
    Afloat (takeTask p s j).q (takeTask p s j).ws := by
  have hset : ∀ (i : Nat) k, (takeTask p s j).ws[i]? = some (.encode k) →
      (i = j ∧ k.i = s.q.next) ∨ s.ws[i]? = some (.encode k) := by
    intro i k hi
    simp only [takeTask, List.getElem?_set] at hi
    split at hi
    · rename_i hji
      split at hi
      · rcases hw : writerAt s (s.q.next / p.nc) (s.q.next % p.nc) with _ | w
        · simp [hw, withWriter] at hi
        · simp only [hw, withWriter, Option.some.injEq, WorkerAt.encode.injEq] at hi
          subst hi
          exact .inl ⟨hji.symm, rfl⟩
      · cases hi
    · exact .inr hi
  have hlt : ∀ (i : Nat) k, s.ws[i]? = some (.encode k) → k.i < s.q.next :=
    fun i k hi => (hg.encoding i k hi).2.2.1
  constructor
  case apart =>
    intro i i' k l hi hi' hkl
    rcases hset i k hi with ⟨hij, hk⟩ | hk
    · rcases hset i' l hi' with ⟨hij', _⟩ | hl
      · rw [hij, hij']
      · have := hlt i' l hl
        omega
    · rcases hset i' l hi' with ⟨_, hl⟩ | hl
      · have := hlt i k hk
        omega
      · exact h.apart i i' k l hk hl hkl
  case ahead =>
    intro i k hi
    rcases hset i k hi with ⟨_, hk⟩ | hk
    · rw [hk]
      refine ⟨hg.head_le, Option.eq_none_iff_forall_ne_some.mpr fun ch hch => ?_⟩
      exact absurd (hg.finished _ ch hch).1 (Nat.lt_irrefl _)
    · exact h.ahead i k hk
  case waiting => exact h.waiting

theorem afloat_finish {p : Plan} {s : St} {j : Nat} {k : Claim} (h : Afloat s.q s.ws)
    (hj : s.ws[j]? = some (.encode k)) :
    Afloat (encodedStep p s j k .ok).q (encodedStep p s j k .ok).ws := by
  have hsince : Since s.ws (s.ws.set j .look) := since_set (by simp)
  have hother : ∀ (i : Nat) l, (s.ws.set j .look)[i]? = some (.encode l) → l.i ≠ k.i := by
    intro i l hi heq
    obtain rfl := h.apart i j l k (hsince i l hi) hj heq
    have hlt := (List.getElem?_eq_some_iff.mp hj).1
    rw [List.getElem?_set_self hlt] at hi
    cases hi
  constructor
  case apart => exact (h.since hsince).apart
  case ahead =>
    intro i l hi
    obtain ⟨hhead, hdone⟩ := h.ahead i l (hsince i l hi)
    exact ⟨hhead, (if_neg (hother i l hi)).trans hdone⟩
  case waiting =>
    intro i ch hi
    change (if i = k.i then some (encodeOf p k) else s.q.done i) = some ch at hi
    split at hi
    · rename_i hik
      exact hik ▸ (h.ahead j k hj).1
    · exact h.waiting i ch hi

theorem afloat_take {s : St} {i : Nat} {ch : Chunk} (h : Afloat s.q s.ws) (hhead : s.q.head = i)
    (hch : s.q.done i = some ch) :
    Afloat { s.q with head := i + 1, done := fun i' => if i' = i then none else s.q.done i' } s.ws := by
  constructor
  case apart => exact h.apart
  case ahead =>
    intro j k hj
    obtain ⟨hle, hdone⟩ := h.ahead j k hj
    have hne : k.i ≠ i := by
      rintro rfl
      rw [hdone] at hch
      cases hch
    exact ⟨show i + 1 ≤ k.i by omega, (if_neg hne).trans hdone⟩
  case waiting =>
    intro i' ch' hi'
    change (if i' = i then none else s.q.done i') = some ch' at hi'
    split at hi'
    · cases hi'
    · have := h.waiting i' ch' hi'
      exact show i + 1 ≤ i' by omega

theorem afloat_moved {p : Plan} {s t : St} (hg : Good p s) (h : Afloat s.q s.ws) (hm : Moved p s t) :
    Afloat t.q t.ws := by
  cases hm with
  | dispatch hs =>
    refine ⟨fun i j k l hi => ?_, fun j k hj => ?_, h.waiting⟩
    · cases List.eq_of_mem_replicate (List.mem_of_getElem? hi)
    · cases List.eq_of_mem_replicate (List.mem_of_getElem? hj)
  | spawn hs hk => exact h.since (since_set (by simp))
  | gone hj _ => exact h.since (since_set (by simp))
  | park hj _ _ _ => exact h.since (since_set (by simp))
  | claim n hr =>
    obtain ⟨h1, _, _, _, _, _, h7, h8, _⟩ := openWriters_fields p s n
    refine afloat_takeTask (good_openWriters n hg) ⟨?_, ?_, ?_⟩
    · exact h1 ▸ h.apart
    · rw [h1, h7, h8]
      exact h.ahead
    · rw [h7, h8]
      exact h.waiting
  | noWriters hr => exact h.since (since_set (by simp))
  | finish hj => exact afloat_finish h hj
  | encodeFailed hj => exact h.since (since_set (by simp))
  | failErr hj =>
    refine ⟨(h.since (since_set ?_)).apart, (h.since (since_set ?_)).ahead, h.waiting⟩
    · simp
    · simp
  | failWork hj =>
    have hall := h.since (since_notifyAll s.ws)
    exact hall.since (since_set (by simp))
  | failMaster hj => exact h.since (since_set (by simp))
  | spurious hj => exact h.since (since_set (by simp))
  | lastWake hs hg => exact h.since (since_notifyAll s.ws)
  | @take g c ch k ws hs hch hws =>
    have hplace := hg.place
    rw [hs] at hplace
    exact (afloat_take h hplace.1 hch).since (since_notifyOne hws)
  | masterFail hs => exact ⟨h.apart, h.ahead, h.waiting⟩
  | masterFailWork hs => exact h.since (since_notifyAll s.ws)
  | _ => exact h

theorem afloat_reachable {p : Plan} {s : St} (h : Reachable (queue p) s) : Afloat s.q s.ws := by
  refine h.invariant (I := fun s => Afloat s.q s.ws) ?_ ?_
  · rintro s rfl
    refine ⟨fun i j k l hi => ?_, fun j k hj => ?_, nofun⟩
    · cases List.eq_of_mem_replicate (List.mem_of_getElem? hi)
    · cases List.eq_of_mem_replicate (List.mem_of_getElem? hj)
  · intro s a t hr ha _ hst
    exact afloat_moved (good_reachable hr.reachable) ha (step_moved hst)

/-! ## How many there are -/

/-- What a list gives is without repetition, when no value comes from two of its places. -/
theorem filterMap_nodup {α β : Type} {f : α → Option β} {l : List α}
    (h : ∀ (i j : Nat) a b x, l[i]? = some a → l[j]? = some b → f a = some x → f b = some x → i = j) :
    (l.filterMap f).Nodup := by
  induction l with
  | nil => exact List.nodup_nil
  | cons a l ih =>
    have htail : (l.filterMap f).Nodup := by
      refine ih fun i j b c x hi hj hb hc => ?_
      exact Nat.succ.inj (h (i + 1) (j + 1) b c x hi hj hb hc)
    cases hfa : f a with
    | none => rwa [List.filterMap_cons_none hfa]
    | some x =>
      rw [List.filterMap_cons_some hfa, List.nodup_cons]
      refine ⟨fun hx => ?_, htail⟩
      obtain ⟨b, hb, hfb⟩ := List.mem_filterMap.mp hx
      obtain ⟨j, hj⟩ := List.mem_iff_getElem?.mp hb
      exact absurd (h 0 (j + 1) a b x rfl hj hfa hfb) (Nat.succ_ne_zero j).symm

theorem task_eq {w : WorkerAt} {i : Nat} : w.task = some i ↔ ∃ k, w = .encode k ∧ k.i = i := by
  cases w <;> simp [WorkerAt.task]

theorem tasks_nodup {q : Q} {ws : List WorkerAt} (h : Afloat q ws) : (ws.filterMap WorkerAt.task).Nodup := by
  refine filterMap_nodup fun i j a b x hi hj ha hb => ?_
  obtain ⟨k, rfl, hk⟩ := task_eq.mp ha
  obtain ⟨l, rfl, hl⟩ := task_eq.mp hb
  exact h.apart i j k l hi hj (hk.trans hl.symm)

theorem mem_tasks {ws : List WorkerAt} {i : Nat} (h : i ∈ ws.filterMap WorkerAt.task) :
    ∃ (j : Nat) (k : Claim), ws[j]? = some (.encode k) ∧ k.i = i := by
  obtain ⟨w, hw, hi⟩ := List.mem_filterMap.mp h
  obtain ⟨k, rfl, hk⟩ := task_eq.mp hi
  obtain ⟨j, hj⟩ := List.mem_iff_getElem?.mp hw
  exact ⟨j, k, hj, hk⟩

/-- The tasks that are encoded or done are of the window. -/
theorem inFlight_length {p : Plan} {s : St} (hg : Good p s) (h : Afloat s.q s.ws) :
    (s.inFlight p).length ≤ p.window + 1 := by
  let tasks := (List.range p.ntasks).filter (fun i => (s.q.done i).isSome) ++ s.ws.filterMap WorkerAt.task
  have hnodup : tasks.Nodup := by
    refine List.nodup_append.mpr ⟨List.nodup_range.filter _, tasks_nodup h, fun i hi j hj hij => ?_⟩
    subst hij
    obtain ⟨j, k, hjk, rfl⟩ := mem_tasks hj
    have hdone := (List.mem_filter.mp hi).2
    rw [(h.ahead j k hjk).2] at hdone
    cases hdone
  have hsub : tasks ⊆ List.range' s.q.head (s.q.next - s.q.head) := by
    intro i hi
    rw [List.mem_range'_1]
    rcases List.mem_append.mp hi with hi | hi
    · obtain ⟨ch, hch⟩ := Option.isSome_iff_exists.mp (List.mem_filter.mp hi).2
      have hhead := h.waiting i ch hch
      have hnext := (hg.finished i ch hch).1
      omega
    · obtain ⟨j, k, hjk, rfl⟩ := mem_tasks hi
      have hhead := (h.ahead j k hjk).1
      have hnext := (hg.encoding j k hjk).2.2.1
      omega
  have hlen : tasks.length ≤ s.q.next - s.q.head := by
    have := hnodup.length_le_of_subset hsub
    rwa [List.length_range'] at this
  have hchunks : ((List.range p.ntasks).filterMap s.q.done ++ s.ws.filterMap (WorkerAt.chunk p)).length =
      tasks.length := by
    have hchunk : (fun w : WorkerAt => (w.chunk p).isSome) = fun w => w.task.isSome := by
      funext w
      cases w <;> rfl
    rw [List.length_append, List.length_append, List.length_filterMap_eq_countP,
      List.length_filterMap_eq_countP, List.length_filterMap_eq_countP, hchunk, List.countP_eq_length_filter]
  have hmaster : s.m.chunk.toList.length ≤ 1 := by
    cases s.m.chunk <;> simp
  have hwindow := hg.in_window
  rw [St.inFlight, List.append_assoc, List.length_append, hchunks]
  omega

/-! ## How large they are -/

theorem le_foldl_max {α : Type} (f : α → Nat) (l : List α) (m : Nat) :
    m ≤ l.foldl (fun m x => max m (f x)) m ∧ ∀ x ∈ l, f x ≤ l.foldl (fun m x => max m (f x)) m := by
  induction l generalizing m with
  | nil => exact ⟨Nat.le_refl m, nofun⟩
  | cons a l ih =>
    obtain ⟨hm, hl⟩ := ih (max m (f a))
    refine ⟨Nat.le_trans (Nat.le_max_left m (f a)) hm, fun x hx => ?_⟩
    rcases List.mem_cons.mp hx with rfl | hx
    · exact Nat.le_trans (Nat.le_max_right m (f x)) hm
    · exact hl x hx

theorem width_le_widest {T : LTable} {col : LVec} (h : col ∈ T.cols) : ffi.width col.lt ≤ widest T :=
  (le_foldl_max (fun col : LVec => ffi.width col.lt) T.cols 0).2 col h

theorem payload_le (T : LTable) (o : Opts) (threads i : Nat) :
    payload T (chunkOf (planOf T o threads) i) ≤ per T o := by
  unfold payload
  cases hcol : T.cols[(chunkOf (planOf T o threads) i).col]? with
  | none => exact Nat.zero_le _
  | some col =>
    have hwidth := width_le_widest (List.mem_of_getElem? hcol)
    have hlen : (chunkOf (planOf T o threads) i).len ≤ min o.rg T.nrows :=
      Nat.le_min.mpr ⟨Nat.min_le_left _ _, Nat.le_trans (Nat.min_le_right _ _) (Nat.sub_le _ _)⟩
    exact Nat.le_trans (Nat.mul_le_mul hlen hwidth) (Nat.le_max_left _ _)

theorem mem_inFlight {p : Plan} {s : St} (hg : Good p s) {ch : Chunk} (h : ch ∈ s.inFlight p) :
    ∃ i, ch = chunkOf p i := by
  rcases List.mem_append.mp h with h | h
  · rcases List.mem_append.mp h with h | h
    · have hm : s.m.chunk = some ch := Option.mem_toList.mp h
      have hplace := hg.place
      cases hs : s.m with
      | append g c ch' =>
        rw [hs] at hm hplace
        cases hm
        exact ⟨_, hplace.2.2.2.1⟩
      | _ =>
        rw [hs] at hm
        cases hm
    · obtain ⟨i, _, hi⟩ := List.mem_filterMap.mp h
      exact ⟨i, (hg.finished i ch hi).2⟩
  · obtain ⟨w, hw, hch⟩ := List.mem_filterMap.mp h
    cases w with
    | encode k =>
      obtain ⟨j, hj⟩ := List.mem_iff_getElem?.mp hw
      obtain ⟨hgk, hck, _⟩ := hg.encoding j k hj
      cases hch
      exact ⟨k.i, encodeOf_eq hgk hck⟩
    | _ => cases hch

/-- The window of so many bytes. -/
theorem windowOf_bytes {nthreads : Nat} (nc rg nrows width : Nat) (h : 0 < nthreads) :
    nthreads ≤ windowOf nthreads nc rg nrows width ∧
      windowOf nthreads nc rg nrows width * max (min rg nrows * width) 1 ≤
        max INFLIGHT_BYTES (nthreads * max (min rg nrows * width) 1) := by
  have hwindowOf : windowOf nthreads nc rg nrows width = max (min (nthreads + nc)
      (max (INFLIGHT_BYTES / max (min rg nrows * width) 1) nthreads)) 1 := rfl
  rw [hwindowOf]
  generalize max (min rg nrows * width) 1 = per
  have hdiv : INFLIGHT_BYTES / per * per ≤ INFLIGHT_BYTES := Nat.div_mul_le_self _ _
  have hwindow : max (min (nthreads + nc) (max (INFLIGHT_BYTES / per) nthreads)) 1 ≤
      max (INFLIGHT_BYTES / per) nthreads := by omega
  refine ⟨by omega, Nat.le_trans (Nat.mul_le_mul_right per hwindow) ?_⟩
  rcases Nat.le_total nthreads (INFLIGHT_BYTES / per) with hle | hle
  · rw [Nat.max_eq_left hle]
    exact Nat.le_trans hdiv (Nat.le_max_left _ _)
  · rw [Nat.max_eq_right hle]
    exact Nat.le_max_right _ _

/-! ## The law of the window -/

/-- Where a worker parks. -/
theorem lookStep_parked {p : Plan} {s : St} {j : Nat} {made : Made} (hj : s.ws[j]? = some .look)
    (h : (lookStep p s j made).ws[j]? = some .parked) :
    s.q.err = none ∧ s.q.head + p.window ≤ s.q.next := by
  have hlt := (List.getElem?_eq_some_iff.mp hj).1
  have hset : ∀ w, (s.setWorker j w).ws[j]? = some w := fun w => List.getElem?_set_self hlt
  have htake : ∀ u : St, u.ws = s.ws → (takeTask p u j).ws[j]? ≠ some .parked := by
    intro u hu hparked
    rw [takeTask, hu, List.getElem?_set_self hlt] at hparked
    cases hw : writerAt u (u.q.next / p.nc) (u.q.next % p.nc) <;> rw [hw] at hparked <;> cases hparked
  unfold lookStep at h
  split at h
  · rw [hset] at h
    cases h
  rename_i hgo
  simp only [not_or, Option.isSome_iff_ne_none, ne_eq, Decidable.not_not] at hgo
  split at h
  · split at h
    · cases made with
      | ok n => exact absurd h (htake _ (openWriters_fields p s n).1)
      | err e =>
        rw [hset] at h
        cases h
      | panic =>
        rw [hset] at h
        cases h
    · exact absurd h (htake s rfl)
  · exact ⟨hgo.1, by omega⟩

/-- A worker that finds the window full finds a chunk that is done, when none has failed. -/
theorem parks_behind_a_chunk {p : Plan} {s : St} (hg : Good p s) (ha : Alive p s)
    (hwindow : p.nthreads ≤ p.window) {j : Nat} (hj : s.ws[j]? = some .look) (herr : s.q.err = none)
    (hfull : s.q.head + p.window ≤ s.q.next) :
    (∃ i ch, s.q.done i = some ch) ∨ ∃ (j : Nat) (e : String), s.ws[j]? = some (.fail e) := by
  by_contra hnone
  obtain ⟨hdone, hfail⟩ := not_or.mp hnone
  have hsub : List.range' s.q.head (s.q.next - s.q.head) ⊆ s.ws.filterMap WorkerAt.task := by
    intro i hi
    rw [List.mem_range'_1] at hi
    rcases ha.pending i hi.1 (by omega) with hd | ⟨k, hk, rfl⟩ | he | ⟨e, he⟩
    · exact absurd ⟨i, hd⟩ hdone
    · exact List.mem_filterMap.mpr ⟨_, hk, rfl⟩
    · rw [herr] at he
      cases he
    · obtain ⟨j, hje⟩ := List.mem_iff_getElem?.mp he
      exact absurd ⟨j, e, hje⟩ hfail
  have hlen := (List.nodup_range' (s := s.q.head) (n := s.q.next - s.q.head)).length_le_of_subset hsub
  have hlt : (s.ws.filterMap WorkerAt.task).length < s.ws.length :=
    List.length_filterMap_lt_length_iff_exists.mpr ⟨.look, List.mem_of_getElem? hj, rfl⟩
  rw [List.length_range'] at hlen
  have := hg.len
  omega

/-- Whatever the order of the steps, the chunks on their way to the file stand for no more bytes than
the cap, or than one chunk for each worker, and the one that is appended. And no worker waits for
nothing: where one finds the window full, a chunk is done that the master has not taken, or a worker
has failed. A `KZ`, which is none of the columns here, is as wide as a `KF`. -/
theorem the_window_bounds_what_is_in_flight (T : LTable) (o : Opts) (threads : Nat) {s : St}
    (h : Reachable (queue (planOf T o threads)) s) :
    ((s.inFlight (planOf T o threads)).map (payload T)).sum ≤
      max INFLIGHT_BYTES ((planOf T o threads).nthreads * per T o) + per T o ∧
    ∀ j made t, step (planOf T o threads) s (.look j made) = some t → t.ws[j]? = some .parked →
      (∃ i ch, s.q.done i = some ch) ∨ ∃ (j : Nat) (e : String), s.ws[j]? = some (.fail e) := by
  have hg := good_reachable h
  have hafloat := afloat_reachable h
  obtain ⟨hthreads, hbytes⟩ := windowOf_bytes T.names.length o.rg T.nrows (widest T)
    (planOf T o threads).nthreads_pos
  constructor
  · have hsum : ((s.inFlight (planOf T o threads)).map (payload T)).sum ≤
        (s.inFlight (planOf T o threads)).length * per T o := by
      have hle := List.sum_le_card_nsmul ((s.inFlight (planOf T o threads)).map (payload T)) (per T o) ?_
      · rw [List.length_map] at hle
        exact hle
      · intro x hx
        obtain ⟨ch, hch, rfl⟩ := List.mem_map.mp hx
        obtain ⟨i, rfl⟩ := mem_inFlight hg hch
        exact payload_le T o threads i
    calc ((s.inFlight (planOf T o threads)).map (payload T)).sum
        ≤ (s.inFlight (planOf T o threads)).length * per T o := hsum
      _ ≤ ((planOf T o threads).window + 1) * per T o :=
          Nat.mul_le_mul_right _ (inFlight_length hg hafloat)
      _ = (planOf T o threads).window * per T o + per T o := Nat.succ_mul _ _
      _ ≤ max INFLIGHT_BYTES ((planOf T o threads).nthreads * per T o) + per T o :=
          Nat.add_le_add_right hbytes _
  · intro j made t hst hparked
    simp only [step] at hst
    split at hst
    · rename_i hj
      cases hst
      obtain ⟨herr, hfull⟩ := lookStep_parked hj hparked
      exact parks_behind_a_chunk hg (alive_reachable h) hthreads hj herr hfull
    · cases hst

/-- One row to a row group. -/
def oneByOne : Opts := ⟨.SNAPPY, 1, true, true, Nat.one_pos⟩

/-- The one worker fills the window while the master has not begun. -/
def fillingRun : List Act :=
  [.dispatch, .look 0 (.ok 1), .encoded 0 .ok, .look 0 (.ok 1), .encoded 0 .ok]

theorem a_worker_waits_behind_two_stamps : ∃ s t,
    exec (queue (planOf threeStamps oneByOne 1)) (start (planOf threeStamps oneByOne 1)) fillingRun = some s ∧
      step (planOf threeStamps oneByOne 1) s (.look 0 (.ok 1)) = some t ∧ t.ws = [.parked] ∧
      ((s.inFlight (planOf threeStamps oneByOne 1)).map (payload threeStamps)).sum = 16 ∧
      16 ≤ max INFLIGHT_BYTES (1 * 8) + 8 ∧
      ((∃ i ch, s.q.done i = some ch) ∨ ∃ (j : Nat) (e : String), s.ws[j]? = some (.fail e)) := by
  refine ⟨_, _, rfl, rfl, rfl, rfl, ?_⟩
  have hlaw := the_window_bounds_what_is_in_flight threeStamps oneByOne 1
    (Reachable.exec (.start rfl) fillingRun rfl)
  exact ⟨hlaw.1, hlaw.2 0 (.ok 1) _ rfl rfl⟩

end parquet_interop.write_queue
