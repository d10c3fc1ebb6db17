-- The safety laws of the write queue: tasks are claimed once and in order,
-- each with the writer of its own row group and column, never more than the
-- window ahead, and the file gets every chunk once and in order.
import ParquetInterop.WriteQueue

open lib.runs lib.parking

namespace parquet_interop.write_queue

/-! ## The chunks in order -/

/-- The chunk of task `i`. -/
def chunkOf (p : Plan) (i : Nat) : Chunk :=
  { task := i, col := i % p.nc, off := i / p.nc * p.rg,
    len := min p.rg (p.nrows - i / p.nc * p.rg) }

/-- The chunks of one row group. -/
def groupOf (p : Plan) (g : Nat) : List Chunk :=
  (List.range p.nc).map fun c => chunkOf p (g * p.nc + c)

/-- The file holds `g` whole row groups, and the open one holds `c` chunks. -/
def Wrote (p : Plan) (file : List (List Chunk)) (cur : List Chunk) (g c : Nat) : Prop :=
  file = (List.range g).map (groupOf p) ∧
    cur = (List.range c).map fun c => chunkOf p (g * p.nc + c)

theorem groups_flatten (p : Plan) (g : Nat) :
    ((List.range g).map (groupOf p)).flatten = (List.range (g * p.nc)).map (chunkOf p) := by
  induction g with
  | zero => simp
  | succ g ih =>
    have hsucc : (g + 1) * p.nc = g * p.nc + p.nc := Nat.succ_mul g p.nc
    rw [List.range_succ, List.map_append, List.flatten_append, ih, hsucc, List.range_add,
      List.map_append]
    simp [groupOf]

theorem wrote_appended {p : Plan} {s : St} {g c : Nat} (h : Wrote p s.file s.cur g c) :
    s.appended = (List.range (g * p.nc + c)).map (chunkOf p) := by
  unfold St.appended
  rw [h.1, h.2, groups_flatten, List.range_add, List.map_append, List.map_map]
  rfl

theorem wrote_snoc {p : Plan} {file : List (List Chunk)} {cur : List Chunk} {g c : Nat}
    (h : Wrote p file cur g c) : Wrote p file (cur ++ [chunkOf p (g * p.nc + c)]) g (c + 1) :=
  ⟨h.1, by rw [h.2, List.range_succ, List.map_append]; rfl⟩

theorem wrote_close {p : Plan} {file : List (List Chunk)} {cur : List Chunk} {g : Nat}
    (h : Wrote p file cur g p.nc) : Wrote p (file ++ [cur]) [] (g + 1) 0 :=
  ⟨by rw [h.1, h.2, List.range_succ, List.map_append]; rfl, rfl⟩

theorem divCeil_mul_lt {n d g : Nat} (hd : 0 < d) (h : g < divCeil n d) : g * d < n := by
  unfold divCeil at h
  have hn := Nat.div_add_mod n d
  split at h
  · have : g * d + d ≤ n / d * d := by
      have := Nat.mul_le_mul_right d (show g + 1 ≤ n / d by omega)
      rwa [Nat.add_mul, Nat.one_mul] at this
    rw [Nat.mul_comm] at hn
    omega
  · have : g * d ≤ n / d * d := Nat.mul_le_mul_right d (by omega)
    rw [Nat.mul_comm] at hn
    omega

theorem ntasks_eq (p : Plan) : p.ntasks = p.nrg * p.nc := rfl

/-- The task after the head is in the table. -/
theorem task_lt {p : Plan} {g c : Nat} (hg : g < p.nrg) (hc : c < p.nc) :
    g * p.nc + c < p.ntasks := by
  have : g * p.nc + p.nc ≤ p.nrg * p.nc := by
    have := Nat.mul_le_mul_right p.nc (show g + 1 ≤ p.nrg by omega)
    rwa [Nat.add_mul, Nat.one_mul] at this
  rw [ntasks_eq]
  omega

/-- A chunk carries the rows of its row group, and the last row group stops at the end of
the table. -/
theorem chunkOf_rows (p : Plan) (g c : Nat) (hg : g < p.nrg) (hc : c < p.nc) :
    chunkOf p (g * p.nc + c) =
      { task := g * p.nc + c, col := c, off := g * p.rg,
        len := min ((g + 1) * p.rg) p.nrows - g * p.rg } := by
  have hdiv : (g * p.nc + c) / p.nc = g := by
    rw [Nat.mul_comm, Nat.mul_add_div (by omega), Nat.div_eq_of_lt hc, Nat.add_zero]
  have hmod : (g * p.nc + c) % p.nc = c := by
    rw [Nat.mul_comm, Nat.mul_add_mod, Nat.mod_eq_of_lt hc]
  have hlt := divCeil_mul_lt p.rg_pos hg
  have hsucc : (g + 1) * p.rg = g * p.rg + p.rg := Nat.succ_mul g p.rg
  simp only [chunkOf, hdiv, hmod, hsucc, Chunk.mk.injEq, true_and]
  omega

/-! ## The invariant -/

/-- Where the master stands, what it has consumed and what is in the file. -/
def Place (p : Plan) (head : Nat) (file : List (List Chunk)) (cur : List Chunk) :
    MasterAt → Prop
  | .spawn k => head = 0 ∧ k ≤ p.nthreads ∧ 0 < p.ntasks ∧ Wrote p file cur 0 0
  | .rowGroup g => head = g * p.nc ∧ g ≤ p.nrg ∧ 0 < p.nc ∧ Wrote p file cur g 0
  | .look g c | .parked g c =>
    head = g * p.nc + c ∧ g < p.nrg ∧ c < p.nc ∧ Wrote p file cur g c
  | .append g c ch => head = g * p.nc + c + 1 ∧ g < p.nrg ∧ c < p.nc ∧
    ch = chunkOf p (g * p.nc + c) ∧ Wrote p file cur g c
  | .close g => head = g * p.nc + p.nc ∧ g < p.nrg ∧ 0 < p.nc ∧ Wrote p file cur g p.nc
  | .returned (.ok _) | .closing => head = p.ntasks ∧ Wrote p file cur p.nrg 0
  | _ => ∃ g c, g * p.nc + c ≤ p.ntasks ∧ Wrote p file cur g c

structure Good (p : Plan) (s : St) : Prop where
  len : s.ws.length = p.nthreads
  head_le : s.q.head ≤ s.q.next
  next_le : s.q.next ≤ p.ntasks
  in_window : s.q.next ≤ s.q.head + p.window
  claimed : s.claims.map (·.1) = List.range s.q.next
  encoding : ∀ (j : Nat) (k : Claim), s.ws[j]? = some (.encode k) →
    k.g = k.i / p.nc ∧ k.c = k.i % p.nc ∧ k.i < s.q.next ∧ (k.i, some k.w) ∈ s.claims
  finished : ∀ i ch, s.q.done i = some ch → i < s.q.next ∧ ch = chunkOf p i
  place : Place p s.q.head s.file s.cur s.m

theorem encodeOf_eq {p : Plan} {k : Claim} (hg : k.g = k.i / p.nc) (hc : k.c = k.i % p.nc) :
    encodeOf p k = chunkOf p k.i := by
  simp [encodeOf, chunkOf, hg, hc]

/-- A wake of the master moves it, and nothing else. -/
theorem place_notify {p : Plan} {head : Nat} {file : List (List Chunk)} {cur : List Chunk}
    {m : MasterAt} (h : Place p head file cur m) : Place p head file cur m.notify := by
  cases m <;> exact h

/-- Wherever the master stands, the file holds the chunks up to some task. -/
theorem place_wrote {p : Plan} {head : Nat} {file : List (List Chunk)} {cur : List Chunk}
    {m : MasterAt} (h : Place p head file cur m) :
    ∃ g c, g * p.nc + c ≤ p.ntasks ∧ Wrote p file cur g c := by
  cases m with
  | spawn k => exact ⟨0, 0, by simp, h.2.2.2⟩
  | rowGroup g => exact ⟨g, 0, Nat.mul_le_mul_right _ h.2.1, h.2.2.2⟩
  | look g c => exact ⟨g, c, Nat.le_of_lt (task_lt h.2.1 h.2.2.1), h.2.2.2⟩
  | parked g c => exact ⟨g, c, Nat.le_of_lt (task_lt h.2.1 h.2.2.1), h.2.2.2⟩
  | append g c ch => exact ⟨g, c, Nat.le_of_lt (task_lt h.2.1 h.2.2.1), h.2.2.2.2⟩
  | close g =>
    refine ⟨g, p.nc, ?_, h.2.2.2⟩
    rw [← Nat.succ_mul]
    exact Nat.mul_le_mul_right _ h.2.1
  | returned r =>
    cases r with
    | ok u => exact ⟨p.nrg, 0, Nat.le_refl _, h.2⟩
    | error e => exact h
  | closing => exact ⟨p.nrg, 0, Nat.le_refl _, h.2⟩
  | fail e => exact h
  | failWork e => exact h
  | failMaster e => exact h
  | unwound => exact h
  | erred e => exact h
  | raised => exact h

/-- A set of workers in which nobody new encodes. -/
def NoNewEncode (old new : List WorkerAt) : Prop :=
  ∀ (j : Nat) (k : Claim), new[j]? = some (.encode k) → ∃ j' : Nat, old[j']? = some (.encode k)

theorem noNew_set {ws : List WorkerAt} {j : Nat} {w : WorkerAt} (h : ∀ k, w ≠ .encode k) :
    NoNewEncode ws (ws.set j w) := by
  intro i k hi
  rw [List.getElem?_set] at hi
  split at hi
  · split at hi
    · cases hi
      exact absurd rfl (h k)
    · cases hi
  · exact ⟨i, hi⟩

theorem noNew_notifyAll (ws : List WorkerAt) : NoNewEncode ws (notifyAll work ws) := by
  intro i k hi
  rw [notifyAll_getElem?, Option.map_eq_some_iff] at hi
  obtain ⟨w, hw, hwk⟩ := hi
  split at hwk
  · cases hwk
  · exact ⟨i, hwk ▸ hw⟩

theorem noNew_notifyOne {ws us : List WorkerAt} {k : Option Nat}
    (h : notifyOne work ws k = some us) : NoNewEncode ws us := by
  rcases notifyOne_cases work h with ⟨rfl, _⟩ | ⟨j, w, _, _, rfl⟩
  · exact fun i k hi => ⟨i, hi⟩
  · exact noNew_set (by simp [work])

theorem notifyOne_length {ws us : List WorkerAt} {k : Option Nat}
    (h : notifyOne work ws k = some us) : us.length = ws.length := by
  rcases notifyOne_cases work h with ⟨rfl, _⟩ | ⟨j, w, _, _, rfl⟩ <;> simp

/-- A change of the workers in which nobody new encodes, with any fitting place of the
master, keeps the invariant. -/
theorem good_workers {p : Plan} {s : St} {ws : List WorkerAt} {m : MasterAt} (h : Good p s)
    (hlen : ws.length = s.ws.length) (hnew : NoNewEncode s.ws ws)
    (hm : Place p s.q.head s.file s.cur m) : Good p { s with ws, m } := by
  refine { h with len := by rw [← h.len]; exact hlen, encoding := ?_, place := hm }
  intro j k hj
  obtain ⟨j', hj'⟩ := hnew j k hj
  exact h.encoding j' k hj'

theorem good_setWorker {p : Plan} {s : St} {j : Nat} {w : WorkerAt} (h : Good p s)
    (hw : ∀ k, w ≠ .encode k) : Good p (s.setWorker j w) :=
  good_workers h (by simp) (noNew_set hw) h.place

theorem good_recordErr {p : Plan} {s : St} (e : String) (h : Good p s) : Good p (s.recordErr e) :=
  { h with }

theorem openWriters_fields (p : Plan) (s : St) (n : Nat) :
    (openWriters p s n).ws = s.ws ∧ (openWriters p s n).m = s.m ∧
      (openWriters p s n).file = s.file ∧ (openWriters p s n).cur = s.cur ∧
      (openWriters p s n).claims = s.claims ∧ (openWriters p s n).q.next = s.q.next ∧
      (openWriters p s n).q.head = s.q.head ∧ (openWriters p s n).q.done = s.q.done ∧
      (openWriters p s n).q.err = s.q.err := by
  unfold openWriters
  split <;> simp

theorem good_openWriters {p : Plan} {s : St} (n : Nat) (h : Good p s) :
    Good p (openWriters p s n) := by
  obtain ⟨h1, h2, h3, h4, h5, h6, h7, h8, _⟩ := openWriters_fields p s n
  exact {
    len := h1 ▸ h.len
    head_le := by rw [h6, h7]; exact h.head_le
    next_le := by rw [h6]; exact h.next_le
    in_window := by rw [h6, h7]; exact h.in_window
    claimed := by rw [h5, h6]; exact h.claimed
    encoding := by rw [h1, h5, h6]; exact h.encoding
    finished := by rw [h6, h8]; exact h.finished
    place := by rw [h2, h3, h4, h7]; exact h.place }

theorem good_takeTask {p : Plan} {s : St} {j : Nat} (h : Good p s) (hr : Room p s j) :
    Good p (takeTask p s j) := by
  have hmore := hr.more
  have hroom := hr.room
  have hhead := h.head_le
  constructor
  case len => simpa [takeTask] using h.len
  case head_le => simp only [takeTask]; omega
  case next_le => simp only [takeTask]; omega
  case in_window => simp only [takeTask]; omega
  case claimed =>
    simp only [takeTask, List.map_append, h.claimed, List.range_succ, List.map_cons, List.map_nil]
  case place => exact h.place
  case finished =>
    intro i ch hi
    obtain ⟨h1, h2⟩ := h.finished i ch hi
    exact ⟨Nat.lt_succ_of_lt h1, h2⟩
  case encoding =>
    intro j' k hj'
    simp only [takeTask, List.getElem?_set] at hj' ⊢
    split at hj'
    · split at hj'
      · rcases hw : writerAt s (s.q.next / p.nc) (s.q.next % p.nc) with _ | w
        · simp [hw, withWriter] at hj'
        · simp only [hw, withWriter, Option.some.injEq, WorkerAt.encode.injEq] at hj'
          subst hj'
          exact ⟨rfl, rfl, Nat.lt_succ_self _, by simp⟩
      · cases hj'
    · obtain ⟨h1, h2, h3, h4⟩ := h.encoding j' k hj'
      exact ⟨h1, h2, Nat.lt_succ_of_lt h3, List.mem_append_left _ h4⟩

theorem room_openWriters {p : Plan} {s : St} {j : Nat} (n : Nat) (h : Room p s j) :
    Room p (openWriters p s n) j := by
  obtain ⟨h1, _, _, _, _, h6, h7, _, h9⟩ := openWriters_fields p s n
  exact ⟨h1 ▸ h.at_look, h9 ▸ h.no_err, h6 ▸ h.more, by rw [h6, h7]; exact h.room⟩

theorem good_moved {p : Plan} {s t : St} (h : Good p s) (hm : Moved p s t) : Good p t := by
  have hplace := h.place
  cases hm with
  | dispatch hs =>
    rw [hs] at hplace
    have hpos : 0 < p.nc := Nat.pos_of_mul_pos_left (ntasks_eq p ▸ hplace.2.2.1)
    refine good_workers h (by simp [h.len]) ?_ ⟨by simp [hplace.1], Nat.zero_le _, hpos, hplace.2.2.2⟩
    intro j k hj
    rw [List.getElem?_replicate] at hj
    split at hj <;> cases hj
  | spawn hs hk =>
    rw [hs] at hplace
    exact good_workers h (by simp) (noNew_set (by simp)) ⟨hplace.1, hk, hplace.2.2⟩
  | spawnFailed hs hk => exact { h with place := place_wrote hplace }
  | spawned hs hk =>
    rw [hs] at hplace
    have hpos : 0 < p.nc := Nat.pos_of_mul_pos_left (ntasks_eq p ▸ hplace.2.2.1)
    exact { h with place := ⟨by simp [hplace.1], Nat.zero_le _, hpos, hplace.2.2.2⟩ }
  | gone hj _ => exact good_setWorker h (by simp)
  | park hj _ _ _ => exact good_setWorker h (by simp)
  | claim n hr => exact good_takeTask (good_openWriters n h) (room_openWriters n hr)
  | noWriters hr => exact good_setWorker h (by simp)
  | @finish j k hj =>
    obtain ⟨hg, hc, hlt, _⟩ := h.encoding j k hj
    have hnew : NoNewEncode s.ws (s.ws.set j .look) := noNew_set (by simp)
    have hgood := good_workers h (by simp) hnew (place_notify hplace)
    refine { hgood with finished := ?_ }
    intro i ch hi
    change (if i = k.i then some (encodeOf p k) else s.q.done i) = some ch at hi
    split at hi
    · rename_i hik
      cases hi
      exact ⟨hik ▸ hlt, hik ▸ encodeOf_eq hg hc⟩
    · exact h.finished i ch hi
  | encodeFailed hj => exact good_setWorker h (by simp)
  | failErr hj => exact good_setWorker (good_recordErr _ h) (by simp)
  | failWork hj =>
    refine good_workers h (by simp) ?_ hplace
    intro i k hi
    obtain ⟨j', hj'⟩ := noNew_set (by simp) i k hi
    exact noNew_notifyAll s.ws j' k hj'
  | failMaster hj => exact good_workers h (by simp) (noNew_set (by simp)) (place_notify hplace)
  | spurious hj => exact good_setWorker h (by simp)
  | rowGroup hs hg =>
    rw [hs] at hplace
    exact { h with place := ⟨by simp [hplace.1], hg, hplace.2.2.1, hplace.2.2.2⟩ }
  | lastWake hs hg =>
    rw [hs] at hplace
    obtain ⟨h1, h2, _, h4⟩ := hplace
    obtain rfl := Nat.le_antisymm h2 hg
    exact good_workers h (by simp) (noNew_notifyAll s.ws) ⟨h1, h4⟩
  | @take g c ch k ws hs hch hws =>
    rw [hs] at hplace
    obtain ⟨hhead, hg, hc, hw⟩ := hplace
    obtain ⟨hlt, rfl⟩ := h.finished _ _ hch
    have hgood := good_workers h (notifyOne_length hws) (noNew_notifyOne hws) h.place
    have hwin := h.in_window
    refine { hgood with head_le := hlt, in_window := ?_, finished := ?_,
                        place := ⟨rfl, hg, hc, rfl, hw⟩ }
    · show s.q.next ≤ g * p.nc + c + 1 + p.window
      omega
    · intro i ch hi
      change (if i = g * p.nc + c then none else s.q.done i) = some ch at hi
      split at hi
      · cases hi
      · exact h.finished i ch hi
  | sawErr hs _ _ => exact { h with place := place_wrote hplace }
  | masterPark hs _ _ =>
    rw [hs] at hplace
    exact { h with place := hplace }
  | @append g c ch hs =>
    rw [hs] at hplace
    obtain ⟨hhead, hg, hc, rfl, hw⟩ := hplace
    refine { h with place := ?_ }
    show Place p s.q.head s.file (s.cur ++ [chunkOf p (g * p.nc + c)])
      (if c + 1 < p.nc then .look g (c + 1) else .close g)
    split
    · rename_i hlt
      exact ⟨by omega, hg, hlt, wrote_snoc hw⟩
    · have hceq : c + 1 = p.nc := by omega
      exact ⟨by omega, hg, by omega, hceq ▸ wrote_snoc hw⟩
  | close hs =>
    rw [hs] at hplace
    obtain ⟨hhead, hg, hpos, hw⟩ := hplace
    refine { h with place := ⟨?_, hg, hpos, wrote_close hw⟩ }
    rw [hhead, Nat.succ_mul]
  | crateErr hs => exact { h with place := place_wrote hplace }
  | cratePanic hs => exact { h with place := place_wrote hplace }
  | masterFail hs => exact { good_recordErr _ h with place := place_wrote hplace }
  | masterFailWork hs => exact good_workers h (by simp) (noNew_notifyAll s.ws) (place_wrote hplace)
  | masterFailMaster hs => exact { h with place := place_wrote hplace }
  | masterSpurious hs =>
    rw [hs] at hplace
    exact { h with place := hplace }
  | joinOk _ hs =>
    rw [hs] at hplace
    exact { h with place := hplace }
  | joinErr _ hs => exact { h with place := place_wrote hplace }
  | joinRaised _ hs => exact { h with place := place_wrote hplace }

theorem divCeil_zero (d : Nat) : divCeil 0 d = 0 := by
  simp [divCeil]

theorem good_start (p : Plan) : Good p (start p) := by
  refine ⟨by simp [start], Nat.le_refl _, Nat.zero_le _, Nat.zero_le _, rfl, ?_, ?_, ?_⟩
  · intro j k hj
    simp only [start, List.getElem?_replicate] at hj
    split at hj <;> cases hj
  · intro i ch hi
    cases hi
  · by_cases ht : 0 < p.ntasks
    · simp only [start, ht, if_true]
      exact ⟨rfl, Nat.zero_le _, ht, rfl, rfl⟩
    · have hnrg : p.nrg = 0 := by
        rcases Nat.eq_zero_or_pos p.nc with hc | hc
        · rw [Plan.nrg, p.no_column hc, divCeil_zero]
        · rw [ntasks_eq] at ht
          rcases Nat.eq_zero_or_pos p.nrg with h0 | h0
          · exact h0
          · exact absurd (Nat.mul_pos h0 hc) ht
      simp only [start, ht, if_false]
      exact ⟨by simp [ntasks_eq, hnrg], by simp [hnrg], rfl⟩

theorem good_reachable {p : Plan} {s : St} (h : Reachable (queue p) s) : Good p s :=
  h.invariant (fun _ h0 => h0 ▸ good_start p) fun _ _ _ _ hg _ hst => good_moved hg (step_moved hst)

/-! ## The writers -/

/-- The writers that are left, and the writers that were handed out. -/
structure Writers (p : Plan) (s : St) : Prop where
  opened : ∀ g v, s.q.wr g = some v → s.q.next % p.nc ≠ 0 ∧ g = s.q.next / p.nc ∧
    ∃ id, s.sets[id]? = some g ∧ (∀ (c : Nat) w, v[c]? = some (some w) → w = ⟨id, c⟩) ∧
      ∀ i w, (i, some w) ∈ s.claims → i / p.nc = g → w.set = id
  got : ∀ i w, (i, some w) ∈ s.claims → w.col = i % p.nc ∧ s.sets[w.set]? = some (i / p.nc)
  same : ∀ i w i' w', (i, some w) ∈ s.claims → (i', some w') ∈ s.claims →
    i / p.nc = i' / p.nc → w.set = w'.set

theorem writers_congr {p : Plan} {s t : St} (h : Writers p s) (hwr : t.q.wr = s.q.wr)
    (hnext : t.q.next = s.q.next) (hsets : t.sets = s.sets) (hclaims : t.claims = s.claims) :
    Writers p t := by
  constructor
  · rw [hwr, hnext, hsets, hclaims]
    exact h.opened
  · rw [hsets, hclaims]
    exact h.got
  · rw [hclaims]
    exact h.same

theorem claimed_lt {p : Plan} {s : St} (h : Good p s) {i : Nat} {w : Option Writer}
    (hi : (i, w) ∈ s.claims) : i < s.q.next := by
  have : i ∈ s.claims.map (·.1) := List.mem_map_of_mem (f := Prod.fst) hi
  rw [h.claimed] at this
  exact List.mem_range.mp this

/-- The writers of the row group of the next task, once its first column opened them. -/
structure Opened (p : Plan) (s : St) : Prop where
  only : ∀ g v, s.q.wr g = some v → g = s.q.next / p.nc
  own : ∀ v, s.q.wr (s.q.next / p.nc) = some v →
    ∃ id, s.sets[id]? = some (s.q.next / p.nc) ∧
      (∀ (c : Nat) w, v[c]? = some (some w) → w = ⟨id, c⟩) ∧
      ∀ i w, (i, some w) ∈ s.claims → i / p.nc = s.q.next / p.nc → w.set = id
  got : ∀ i w, (i, some w) ∈ s.claims → w.col = i % p.nc ∧ s.sets[w.set]? = some (i / p.nc)
  same : ∀ i w i' w', (i, some w) ∈ s.claims → (i', some w') ∈ s.claims →
    i / p.nc = i' / p.nc → w.set = w'.set

theorem opened_openWriters {p : Plan} {s : St} (n : Nat) (hg : Good p s) (h : Writers p s) :
    Opened p (openWriters p s n) := by
  unfold openWriters
  by_cases hc : s.q.next % p.nc = 0
  · simp only [hc, if_true]
    constructor
    case only =>
      intro g v hv
      simp only at hv ⊢
      by_contra hne
      rw [if_neg hne] at hv
      exact (h.opened g v hv).1 hc
    case own =>
      intro v hv
      simp only [if_true, Option.some.injEq] at hv
      refine ⟨s.sets.length, by simp, ?_, ?_⟩
      · intro c w hw
        rw [← hv, List.getElem?_map, Option.map_eq_some_iff] at hw
        obtain ⟨c', hc', hw⟩ := hw
        obtain ⟨_, rfl⟩ := List.getElem?_eq_some_iff.mp hc'
        rw [List.getElem_range] at hw
        exact (Option.some.inj hw).symm
      · intro i w hi hdiv
        have hlt := claimed_lt hg hi
        have h1 := Nat.div_add_mod s.q.next p.nc
        have h2 := Nat.div_mul_le_self i p.nc
        simp only at hdiv
        rw [hdiv, Nat.mul_comm] at h2
        omega
    case got =>
      intro i w hi
      obtain ⟨h1, h2⟩ := h.got i w hi
      exact ⟨h1, by rw [List.getElem?_append_left (List.getElem?_eq_some_iff.mp h2).1]; exact h2⟩
    case same => exact h.same
  · simp only [hc, if_false]
    exact ⟨fun g v hv => (h.opened g v hv).2.1, fun v hv => (h.opened _ v hv).2.2, h.got, h.same⟩

theorem div_mod_succ {n d : Nat} (h : n % d + 1 < d) :
    (n + 1) / d = n / d ∧ (n + 1) % d = n % d + 1 := by
  have hn := Nat.div_add_mod n d
  have hsucc : n + 1 = d * (n / d) + (n % d + 1) := by omega
  constructor
  · rw [hsucc, Nat.mul_add_div (by omega), Nat.div_eq_of_lt h, Nat.add_zero]
  · rw [hsucc, Nat.mul_add_mod, Nat.mod_eq_of_lt h]

theorem writers_takeTask {p : Plan} {s : St} {j : Nat} (hpos : 0 < p.nc) (h : Opened p s) :
    Writers p (takeTask p s j) := by
  have hlt := Nat.mod_lt s.q.next hpos
  -- The new claim has a writer of the open set, and every older claim of the row group too.
  have hnew : ∀ w, writerAt s (s.q.next / p.nc) (s.q.next % p.nc) = some w →
      w.col = s.q.next % p.nc ∧ s.sets[w.set]? = some (s.q.next / p.nc) ∧
      ∀ i w', (i, some w') ∈ s.claims → i / p.nc = s.q.next / p.nc → w'.set = w.set := by
    intro w hw
    simp only [writerAt, Option.bind_eq_some_iff, Option.join_eq_some_iff] at hw
    obtain ⟨v, hv, hvw⟩ := hw
    obtain ⟨id, hid, hcol, hset⟩ := h.own v hv
    rw [hcol _ _ hvw]
    exact ⟨rfl, hid, hset⟩
  constructor
  case opened =>
    intro g v hv
    simp only [takeTask] at hv ⊢
    by_cases hg : g = s.q.next / p.nc
    · rw [if_pos hg] at hv
      split at hv
      · cases hv
      · rename_i hc
        obtain ⟨hdiv, hmod⟩ := div_mod_succ (by omega : s.q.next % p.nc + 1 < p.nc)
        refine ⟨by omega, hg.trans hdiv.symm, ?_⟩
        simp only [Option.map_eq_some_iff] at hv
        obtain ⟨v₀, hv₀, rfl⟩ := hv
        rw [hg]
        obtain ⟨id, hid, hcol, hset⟩ := h.own v₀ hv₀
        refine ⟨id, hid, ?_, ?_⟩
        · intro c w hw
          rw [List.getElem?_set] at hw
          split at hw
          · split at hw <;> cases hw
          · exact hcol c w hw
        · intro i w hi hig
          rcases List.mem_append.mp hi with hi | hi
          · exact hset i w hi hig
          · simp only [List.mem_singleton, Prod.mk.injEq] at hi
            obtain ⟨rfl, hw⟩ := hi
            have hw' := hw.symm
            simp only [writerAt, hv₀, Option.bind_some, Option.join_eq_some_iff] at hw'
            rw [hcol _ _ hw']
    · rw [if_neg hg] at hv
      exact absurd (h.only g v hv) hg
  case got =>
    intro i w hi
    rcases List.mem_append.mp hi with hi | hi
    · exact h.got i w hi
    · simp only [List.mem_singleton, Prod.mk.injEq] at hi
      obtain ⟨rfl, hw⟩ := hi
      obtain ⟨h1, h2, _⟩ := hnew w hw.symm
      exact ⟨h1, h2⟩
  case same =>
    intro i w i' w' hi hi' hdiv
    rcases List.mem_append.mp hi with hi | hi <;> rcases List.mem_append.mp hi' with hi' | hi'
    · exact h.same i w i' w' hi hi' hdiv
    · simp only [List.mem_singleton, Prod.mk.injEq] at hi'
      obtain ⟨rfl, hw'⟩ := hi'
      exact (hnew w' hw'.symm).2.2 i w hi hdiv
    · simp only [List.mem_singleton, Prod.mk.injEq] at hi
      obtain ⟨rfl, hw⟩ := hi
      exact ((hnew w hw.symm).2.2 i' w' hi' hdiv.symm).symm
    · simp only [List.mem_singleton, Prod.mk.injEq] at hi hi'
      obtain ⟨_, hw⟩ := hi
      obtain ⟨_, hw'⟩ := hi'
      exact congrArg Writer.set (Option.some.inj (hw.trans hw'.symm))

theorem writers_moved {p : Plan} {s t : St} (hg : Good p s) (h : Writers p s)
    (hm : Moved p s t) : Writers p t := by
  cases hm with
  | claim n hr =>
    have hpos : 0 < p.nc := by
      have := hr.more
      rw [ntasks_eq] at this
      exact Nat.pos_of_mul_pos_left (Nat.lt_of_le_of_lt (Nat.zero_le _) this)
    exact writers_takeTask hpos (opened_openWriters n hg h)
  | _ => exact writers_congr h rfl rfl rfl rfl

theorem writers_start (p : Plan) : Writers p (start p) := by
  constructor
  case opened => intro g v hv; cases hv
  case got => intro i w hi; cases hi
  case same => intro i w i' w' hi; cases hi

theorem writers_reachable {p : Plan} {s : St} (h : Reachable (queue p) s) : Writers p s :=
  h.invariant (fun _ h0 => h0 ▸ writers_start p) fun _ _ _ hr hw _ hst =>
    writers_moved (good_reachable hr.reachable) hw (step_moved hst)

/-! ## The laws -/

theorem appended_of_wrote {p : Plan} {s : St} {g c : Nat} (hle : g * p.nc + c ≤ p.ntasks)
    (h : Wrote p s.file s.cur g c) :
    s.appended.map (·.task) = List.range s.appended.length ∧
      ∀ ch ∈ s.appended, ch.col = ch.task % p.nc ∧ ch.off = ch.task / p.nc * p.rg ∧
        ch.off + ch.len = min ((ch.task / p.nc + 1) * p.rg) p.nrows := by
  rw [wrote_appended h]
  refine ⟨by simp [chunkOf, Function.comp_def], ?_⟩
  intro ch hch
  simp only [List.mem_map, List.mem_range] at hch
  obtain ⟨i, hi, rfl⟩ := hch
  have hlt : i < p.nrg * p.nc := by rw [← ntasks_eq]; omega
  have hg : i / p.nc < p.nrg := Nat.div_lt_of_lt_mul (by rwa [Nat.mul_comm])
  have hrow := divCeil_mul_lt p.rg_pos hg
  have hsucc : (i / p.nc + 1) * p.rg = i / p.nc * p.rg + p.rg := Nat.succ_mul _ _
  simp only [chunkOf, hsucc, true_and]
  omega

/-- In every state of the queue, with any number of workers, any window, and any failed or
panicked call: the claimed tasks are `0, 1, 2, ...`, each once. A claim of task `g*nc + c`
gets writer `c` of the one set that was made for row group `g`, and no other claim gets it.
At most `window` claimed tasks are not consumed yet. The chunks in the file are the tasks
`0, 1, 2, ...`, each with the rows of its row group. And `fw.close()` is reached only with
every chunk in the file. -/
theorem the_queue_keeps_the_order_of_the_tasks (p : Plan) (s : St)
    (h : Reachable (queue p) s) :
    s.claims.map (·.1) = List.range s.q.next ∧
    (∀ (j : Nat) k, s.ws[j]? = some (.encode k) →
      (k.i, some k.w) ∈ s.claims ∧ k.g = k.i / p.nc ∧ k.c = k.i % p.nc) ∧
    (∀ i w, (i, some w) ∈ s.claims → w.col = i % p.nc ∧ s.sets[w.set]? = some (i / p.nc)) ∧
    (∀ i w i' w', (i, some w) ∈ s.claims → (i', some w') ∈ s.claims →
      (i / p.nc = i' / p.nc → w.set = w'.set) ∧ (w = w' → i = i')) ∧
    s.q.next ≤ s.q.head + p.window ∧
    (s.claims.filter fun x => s.q.head ≤ x.1).length ≤ p.window ∧
    s.appended.map (·.task) = List.range s.appended.length ∧
    (∀ ch ∈ s.appended, ch.col = ch.task % p.nc ∧ ch.off = ch.task / p.nc * p.rg ∧
      ch.off + ch.len = min ((ch.task / p.nc + 1) * p.rg) p.nrows) ∧
    (s.m = .closing → s.appended.length = p.nrg * p.nc) := by
  have hg := good_reachable h
  have hw := writers_reachable h
  obtain ⟨g, c, hle, hwrote⟩ := place_wrote hg.place
  obtain ⟨htasks, hrows⟩ := appended_of_wrote hle hwrote
  refine ⟨hg.claimed, ?_, hw.got, ?_, hg.in_window, ?_, htasks, hrows, ?_⟩
  · intro j k hj
    obtain ⟨h1, h2, _, h4⟩ := hg.encoding j k hj
    exact ⟨h4, h1, h2⟩
  · intro i w i' w' hi hi'
    refine ⟨hw.same i w i' w' hi hi', ?_⟩
    rintro rfl
    obtain ⟨hc, hs⟩ := hw.got i w hi
    obtain ⟨hc', hs'⟩ := hw.got i' w hi'
    have hdiv : i / p.nc = i' / p.nc := Option.some.inj (hs.symm.trans hs')
    rw [← Nat.div_add_mod i p.nc, ← Nat.div_add_mod i' p.nc, hdiv, ← hc, ← hc']
  · have hlen : (s.claims.filter fun x => s.q.head ≤ x.1).length =
        ((List.range s.q.next).filter fun i => s.q.head ≤ i).length := by
      rw [← hg.claimed, List.filter_map, List.length_map]
      rfl
    have hwin := hg.in_window
    have hhead := hg.head_le
    obtain ⟨k, hk⟩ := Nat.exists_eq_add_of_le hhead
    rw [hlen, hk, List.range_add, List.filter_append, List.length_append]
    have hnone : (List.range s.q.head).filter (fun i => s.q.head ≤ i) = [] := by
      simp only [List.filter_eq_nil_iff, List.mem_range, decide_eq_true_eq]
      omega
    have hrest := List.length_filter_le (fun i => decide (s.q.head ≤ i))
      ((List.range k).map (s.q.head + ·))
    rw [List.length_map, List.length_range] at hrest
    rw [hnone, List.length_nil]
    omega
  · intro hm
    have hplace := hg.place
    rw [hm] at hplace
    rw [wrote_appended hplace.2]
    simp

/-- One column of three rows, two rows to a row group, one worker. -/
def smallPlan : Plan := ⟨1, 3, 2, 2, 1, by decide, by decide, by decide, by decide⟩

/-- A whole run: the worker encodes both chunks, and the file is closed. -/
def smallRun : List Act :=
  [.dispatch, .look 0 (.ok 1), .master .ok none, .encoded 0 .ok, .look 0 (.ok 1),
    .master .ok none, .master .ok none, .master .ok none, .master .ok none, .master .ok none,
    .encoded 0 .ok, .master .ok none, .master .ok none, .master .ok none, .master .ok none,
    .look 0 (.ok 1), .join]

theorem a_small_table_is_written_in_order :
    ∃ s, exec (queue smallPlan) (start smallPlan) smallRun = some s ∧
      s.appended = [⟨0, 0, 0, 2⟩, ⟨1, 0, 2, 1⟩] ∧ s.appended.length = 2 := by
  refine ⟨_, rfl, rfl, ?_⟩
  exact (the_queue_keeps_the_order_of_the_tasks smallPlan _
    (Reachable.exec (.start rfl) smallRun rfl)).2.2.2.2.2.2.2.2 rfl

end parquet_interop.write_queue
