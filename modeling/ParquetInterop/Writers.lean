-- Any number of writers of one path, in any order of their calls into the
-- file system. The names keep their scratches apart, and whoever renames last
-- leaves a complete file.
import ParquetInterop.Replace

open lib.runs parquet_interop.scratch

namespace parquet_interop.replace

/-! ## The runs -/

/-- The file system did what was asked. Unlinking an absent file is an error that is ignored. -/
def Succeeds (T : Target) (s : St) : Act → Prop
  | .call _ .new | .call _ (.create true) | .call _ .write | .call _ (.rename true) => True
  | .call _ (.unlink ok) => ok = true ∨ s.files T.path = none
  | .call _ _ => False
  | .elsewhere _ => True

/-- The writers, with the files `f0` to begin with. -/
def writersFrom (T : Target) (f0 : List Char → Option (List UInt8)) : System St Act where
  init s := Start s ∧ s.files = f0
  step := step T

variable {T : Target} {f0 : List Char → Option (List UInt8)} {s s' : St} {c : Nat}

/-! ## What holds at every moment -/

/-- What the scratch of a call holds where the call stands. -/
def Holds (T : Target) (s : St) (c : Nat) : Prop :=
  match s.calls c with
  | .idle | .named _ => True
  | .filling tmp done => s.files tmp = some ((T.calls c).writes.take done).flatten
  | .unlinked tmp => s.files tmp = some (T.calls c).file
  | .failing _ => False
  | .returned none _ => False
  | .returned (some tmp) ok => ok = true ∧ s.files tmp = none

/-- What the path holds: the original file until the first unlink, nothing while the call that
unlinked it has not renamed, and from a rename on the file of the call. -/
inductive Shown (T : Target) (f0 : List Char → Option (List UInt8)) (s : St) : Prop
  | original : s.files T.path = f0 T.path → (∀ c tmp, s.calls c ≠ .unlinked tmp) →
      (∀ c tmp ok, s.calls c ≠ .returned tmp ok) → Shown T f0 s
  | between (c : Nat) (tmp : List Char) : s.files T.path = none → s.calls c = .unlinked tmp →
      Shown T f0 s
  | renamed (c : Nat) (tmp : Option (List Char)) : s.calls c = .returned tmp true →
      s.files T.path = some (T.calls c).file → Shown T f0 s

/-- The invariant of the writers, as long as no process has given more than `2 ^ 64` names. -/
structure Apart (T : Target) (f0 : List Char → Option (List UInt8)) (s : St) : Prop where
  counter : ∀ p, s.n p = s.taken p % 2 ^ 64
  named : ∀ c tmp, (s.calls c).tmp = some tmp →
    ∃ k, k < s.taken (T.calls c).pid ∧ tmp = name T.path (T.calls c).pid k
  apart : ∀ c c' tmp, (s.calls c).tmp = some tmp → (s.calls c').tmp = some tmp → c = c'
  holds : ∀ c, Holds T s c
  shown : Shown T f0 s

theorem Apart.ne (h : Apart T f0 s) {tmp : List Char} (hc : (s.calls c).tmp = some tmp) :
    T.path ≠ tmp := by
  obtain ⟨k, _, hk⟩ := h.named c tmp hc
  exact fun heq => name_ne _ _ _ (hk.symm.trans heq.symm)

/-- What holds of the other calls is not changed by a call that moves and writes its own scratch
and the path. -/
theorem holds_other (h : Apart T f0 s) {x : Nat} {tmp : List Char} (hx : x ≠ c)
    (htmp : (s.calls c).tmp = some tmp) (hcalls : s'.calls x = s.calls x)
    (hfiles : ∀ y, y ≠ tmp → y ≠ T.path → s'.files y = s.files y) : Holds T s' x := by
  have hsame : ∀ y, (s.calls x).tmp = some y → s'.files y = s.files y := fun y hy =>
    hfiles y (fun heq => hx (h.apart x c tmp (heq ▸ hy) htmp)) (h.ne hy).symm
  have hold := h.holds x
  unfold Holds at hold ⊢
  rw [hcalls]
  rcases hat : s.calls x with _ | _ | ⟨t, done⟩ | t | _ | ⟨_ | t, ok⟩ <;> rw [hat] at hold hsame
  · trivial
  · trivial
  · exact (hsame t rfl).trans hold
  · exact (hsame t rfl).trans hold
  · exact hold
  · exact hold
  · exact ⟨hold.1, (hsame t rfl).trans hold.2⟩

/-- A step that leaves the path alone and neither comes to nor leaves the last two places keeps
what is shown. -/
theorem shown_same {place : At} (h : Shown T f0 s) (hpath : s'.files T.path = s.files T.path)
    (hcalls : s'.calls = s.calls) (hu : ∀ tmp, place ≠ .unlinked tmp)
    (hr : ∀ tmp ok, place ≠ .returned tmp ok) (hu' : ∀ tmp, s.calls c ≠ .unlinked tmp)
    (hr' : ∀ tmp ok, s.calls c ≠ .returned tmp ok) : Shown T f0 (s'.move c place) := by
  have hat : ∀ x, (s'.move c place).calls x = if x = c then place else s.calls x := fun x =>
    hcalls ▸ Function.update_apply ..
  have hpath : (s'.move c place).files T.path = s.files T.path := hpath
  cases h with
  | original hold hnu hnr =>
    apply Shown.original (hpath.trans hold)
    · intro x tmp
      rw [hat]
      split
      · exact hu tmp
      · exact hnu x tmp
    · intro x tmp ok
      rw [hat]
      split
      · exact hr tmp ok
      · exact hnr x tmp ok
  | between x tmp hnone hx =>
    have hxc : x ≠ c := fun heq => hu' tmp (heq ▸ hx)
    exact .between x tmp (hpath.trans hnone) (by rw [hat, if_neg hxc, hx])
  | renamed x tmp hx hfile =>
    have hxc : x ≠ c := fun heq => hr' tmp true (heq ▸ hx)
    exact .renamed x tmp (by rw [hat, if_neg hxc, hx]) (hpath.trans hfile)

/-- The step of a call that keeps its name. -/
theorem apart_keep {place : At} {tmp : List Char} (h : Apart T f0 s)
    (htmp : (s.calls c).tmp = some tmp) (hplace : place.tmp = some tmp)
    (hn : s'.n = s.n) (htaken : s'.taken = s.taken) (hcalls : s'.calls = s.calls)
    (hfiles : ∀ y, y ≠ tmp → y ≠ T.path → s'.files y = s.files y)
    (hholds : Holds T (s'.move c place) c) (hshown : Shown T f0 (s'.move c place)) :
    Apart T f0 (s'.move c place) := by
  have hname : ∀ x, ((s'.move c place).calls x).tmp = (s.calls x).tmp := fun x => by
    by_cases hx : x = c
    · subst hx
      rw [St.move_at, hplace, htmp]
    · rw [St.move_of_ne _ _ hx, hcalls]
  refine ⟨fun p => ?_, fun x y hx => ?_, fun x x' y hx hx' => ?_, fun x => ?_, hshown⟩
  · simp only [St.move, hn, htaken]
    exact h.counter p
  · rw [hname] at hx
    simp only [St.move, htaken]
    exact h.named x y hx
  · rw [hname] at hx hx'
    exact h.apart x x' y hx hx'
  · by_cases hx : x = c
    · exact hx ▸ hholds
    · exact holds_other h hx htmp (by rw [St.move_of_ne _ _ hx, hcalls]) hfiles

/-- A new name carries a count that no name of the process has yet. -/
theorem apart_new (h : Apart T f0 s) (hat : s.calls c = .idle)
    (hlt : s.taken (T.calls c).pid < 2 ^ 64) :
    Apart T f0 ((s.count (T.calls c).pid).move c
      (.named (name T.path (T.calls c).pid (s.n (T.calls c).pid)))) := by
  have hn : s.n (T.calls c).pid = s.taken (T.calls c).pid := by
    rw [h.counter, Nat.mod_eq_of_lt hlt]
  rw [hn]
  generalize hp : (T.calls c).pid = p at *
  have hfresh : ∀ x, (s.calls x).tmp ≠ some (name T.path p (s.taken p)) := fun x hx => by
    obtain ⟨k, hk, hname⟩ := h.named x _ hx
    obtain ⟨hpid, hcount⟩ := name_inj hname
    rw [← hpid, ← hcount] at hk
    exact absurd hk (Nat.lt_irrefl _)
  have htmp : ∀ x y, (((s.count p).move c (.named (name T.path p (s.taken p)))).calls x).tmp =
      some y → x = c ∧ y = name T.path p (s.taken p) ∨ x ≠ c ∧ (s.calls x).tmp = some y :=
    fun x y hx => by
      by_cases hxc : x = c
      · rw [hxc, St.move_at] at hx
        exact .inl ⟨hxc, (Option.some.inj hx).symm⟩
      · rw [St.move_of_ne _ _ hxc] at hx
        exact .inr ⟨hxc, hx⟩
  have htaken : ∀ q, s.taken q ≤ (s.count p).taken q := fun q => by
    by_cases hq : q = p
    · subst hq
      simp [St.count]
    · simp [St.count, Function.update_of_ne hq]
  refine ⟨fun q => ?_, fun x y hx => ?_, fun x x' y hx hx' => ?_, fun x => ?_, ?_⟩
  · by_cases hq : q = p
    · subst hq
      have := h.counter q
      simp only [St.move, St.count, Function.update_self, bumped]
      omega
    · simp only [St.move, St.count, Function.update_of_ne hq]
      exact h.counter q
  · rcases htmp x y hx with ⟨rfl, rfl⟩ | ⟨_, hx⟩
    · refine ⟨s.taken p, ?_, by rw [hp]⟩
      simp [St.move, St.count, hp]
    · obtain ⟨k, hk, hname⟩ := h.named x y hx
      exact ⟨k, Nat.lt_of_lt_of_le hk (htaken _), hname⟩
  · rcases htmp x y hx with ⟨hxc, hy⟩ | ⟨_, hx⟩ <;>
      rcases htmp x' y hx' with ⟨hxc', hy'⟩ | ⟨_, hx'⟩
    · exact hxc.trans hxc'.symm
    · exact absurd (hy ▸ hx') (hfresh x')
    · exact absurd (hy' ▸ hx) (hfresh x)
    · exact h.apart x x' y hx hx'
  · by_cases hxc : x = c
    · subst hxc
      simp [Holds]
    · have := h.holds x
      unfold Holds at this ⊢
      rwa [St.move_of_ne _ _ hxc]
  · refine @shown_same T f0 s (s.count p) c _ h.shown rfl rfl ?_ ?_ ?_ ?_
    all_goals simp [hat]

theorem apart_moved (h : Apart T f0 s) {d : Does} (hd : Succeeds T s (.call c d))
    (hlt : s'.taken (T.calls c).pid ≤ 2 ^ 64) (hm : Moved T s c d s') : Apart T f0 s' := by
  cases hm with
  | new hat =>
    apply apart_new h hat
    simp only [St.move, St.count, Function.update_self] at hlt
    omega
  | create tmp hat =>
    have htmp : (s.calls c).tmp = some tmp := by rw [hat, At.tmp]
    refine apart_keep h htmp rfl rfl rfl rfl (fun y hy _ => St.put_of_ne _ _ hy) ?_ ?_
    · simp [Holds]
    · apply shown_same h.shown (St.put_of_ne _ _ (h.ne htmp)) rfl
      all_goals simp [hat]
  | write tmp done bytes hat hbytes =>
    have htmp : (s.calls c).tmp = some tmp := by rw [hat, At.tmp]
    have hold := h.holds c
    simp only [Holds, hat] at hold
    refine apart_keep h htmp rfl rfl rfl rfl (fun y hy _ => St.put_of_ne _ _ hy) ?_ ?_
    · simp [Holds, hold, List.take_add_one, hbytes]
    · apply shown_same h.shown (St.put_of_ne _ _ (h.ne htmp)) rfl
      all_goals simp [hat]
  | unlink tmp hat =>
    have htmp : (s.calls c).tmp = some tmp := by rw [hat, At.tmp]
    have hold := h.holds c
    simp only [Holds, hat, List.take_length] at hold
    refine apart_keep h htmp rfl rfl rfl rfl (fun y _ hy => St.put_of_ne _ _ hy) ?_ ?_
    · simp [Holds, St.put_of_ne _ _ (h.ne htmp).symm, hold, Call.file]
    · exact .between c tmp (St.put_self ..) (St.move_at ..)
  | unlinkFailed tmp hat =>
    have htmp : (s.calls c).tmp = some tmp := by rw [hat, At.tmp]
    have hold := h.holds c
    simp only [Holds, hat, List.take_length] at hold
    have hnone : s.files T.path = none := hd.resolve_left (by simp)
    refine apart_keep h htmp rfl rfl rfl rfl (fun _ _ _ => rfl) ?_ ?_
    · simp [Holds, hold, Call.file]
    · exact .between c tmp hnone (St.move_at ..)
  | rename tmp bytes hat hbytes =>
    have htmp : (s.calls c).tmp = some tmp := by rw [hat, At.tmp]
    have hold := h.holds c
    simp only [Holds, hat] at hold
    have hfile : bytes = (T.calls c).file := Option.some.inj (hbytes.symm.trans hold)
    refine apart_keep h htmp rfl rfl rfl rfl (fun y hy hy' => ?_) ?_ ?_
    · rw [St.put_of_ne _ _ hy', St.put_of_ne _ _ hy]
    · simp [Holds, St.put_of_ne _ _ (h.ne htmp).symm]
    · refine .renamed c (some tmp) (St.move_at ..) ?_
      rw [St.move_files, St.put_self, hfile]
  | refuse _ | createFailed _ _ | fail _ _ _ _ | renameFailed _ _ | drop _ _ | dropFailed _ _ =>
    exact absurd hd id

theorem apart_elsewhere (h : Apart T f0 s) (p : Nat) : Apart T f0 (s.count p) := by
  refine ⟨fun q => ?_, fun x y hx => ?_, h.apart, h.holds, ?_⟩
  · by_cases hq : q = p
    · subst hq
      have := h.counter q
      simp only [St.count, Function.update_self, bumped]
      omega
    · simp only [St.count, Function.update_of_ne hq]
      exact h.counter q
  · obtain ⟨k, hk, hname⟩ := h.named x y hx
    refine ⟨k, Nat.lt_of_lt_of_le hk ?_, hname⟩
    by_cases hq : (T.calls x).pid = p
    · simp [St.count, hq]
    · simp [St.count, Function.update_of_ne hq]
  · cases h.shown with
    | original hold hu hr => exact .original hold hu hr
    | between x tmp hnone hx => exact .between x tmp hnone hx
    | renamed x tmp hx hfile => exact .renamed x tmp hx hfile

theorem apart_start (h : Start s) (hf : s.files = f0) : Apart T f0 s := by
  obtain ⟨hidle, hn, htaken⟩ := h
  refine ⟨fun p => ?_, fun x y hx => ?_, fun x x' y hx => ?_, fun x => ?_, ?_⟩
  · rw [hn, htaken, Nat.zero_mod]
  · simp [hidle, At.tmp] at hx
  · simp [hidle, At.tmp] at hx
  · simp [Holds, hidle]
  · apply Shown.original
    · rw [hf]
    · simp [hidle]
    · simp [hidle]

/-- The count of the names of a process only grows. -/
theorem taken_le {a : Act} (h : step T s a = some s') (p : Nat) : s.taken p ≤ s'.taken p := by
  have hcount : ∀ q, s.taken p ≤ (s.count q).taken p := fun q => by
    by_cases hq : p = q
    · simp [St.count, hq]
    · simp [St.count, Function.update_of_ne hq]
  cases a with
  | elsewhere q => exact Option.some.inj h ▸ hcount q
  | call c d =>
    cases callStep_moved h with
    | new _ => exact hcount _
    | _ => exact Nat.le_refl _

theorem reach_apart (hr : Reach (writersFrom T f0) (Succeeds T) s)
    (hn : ∀ p, s.taken p ≤ 2 ^ 64) : Apart T f0 s := by
  induction hr with
  | start h => exact apart_start h.1 h.2
  | @next s s' a _ hok hstep ih =>
    have h := ih fun p => (taken_le hstep p).trans (hn p)
    cases a with
    | call c d => exact apart_moved h hok (hn _) (callStep_moved hstep)
    | elsewhere p => exact Option.some.inj hstep ▸ apart_elsewhere h p

/-! ## The laws -/

/-- No two calls use one scratch name. -/
def NamesApart (s : St) : Prop :=
  ∀ c c' tmp, (s.calls c).tmp = some tmp → (s.calls c').tmp = some tmp → c = c'

/-- The path is absent, or holds the original file or the complete file of a call. -/
def NeverPartial (T : Target) (f0 : List Char → Option (List UInt8)) (s : St) : Prop :=
  s.files T.path = none ∨ s.files T.path = f0 T.path ∨
    ∃ c tmp, s.calls c = .returned tmp true ∧ s.files T.path = some (T.calls c).file

/-- Every call that began has returned. -/
def AllBack (s : St) : Prop :=
  (∃ c, s.calls c ≠ .idle) ∧ ∀ c, s.calls c = .idle ∨ ∃ tmp ok, s.calls c = .returned tmp ok

/-- The path holds the complete file of a call, and no call left its scratch. -/
def OneFile (T : Target) (s : St) : Prop :=
  (∃ c tmp, s.calls c = .returned tmp true ∧ s.files T.path = some (T.calls c).file) ∧
    ∀ c tmp, (s.calls c).tmp = some tmp → s.files tmp = none

/-- Writers of one path keep their scratches apart and leave one complete file, as long as no
process gives a name twice, which a counter of 64 bits does after `2 ^ 64` names. -/
theorem the_writers_of_a_path_leave_one_complete_file
    (hr : Reach (writersFrom T f0) (Succeeds T) s) (hn : ∀ p, s.taken p ≤ 2 ^ 64) :
    NamesApart s ∧ NeverPartial T f0 s ∧ (AllBack s → OneFile T s) := by
  have h := reach_apart hr hn
  refine ⟨h.apart, ?_, fun ⟨⟨x, hx⟩, hback⟩ => ⟨?_, fun c tmp hc => ?_⟩⟩
  · cases h.shown with
    | original hold _ _ => exact .inr (.inl hold)
    | between _ _ hnone _ => exact .inl hnone
    | renamed c tmp hc hfile => exact .inr (.inr ⟨c, tmp, hc, hfile⟩)
  · cases h.shown with
    | original _ _ hnr =>
      obtain ⟨tmp, ok, hret⟩ := (hback x).resolve_left hx
      exact absurd hret (hnr x tmp ok)
    | between c tmp _ hc =>
      rcases hback c with hidle | ⟨t, ok, hret⟩
      · cases hc.symm.trans hidle
      · cases hc.symm.trans hret
    | renamed c tmp hc hfile => exact ⟨c, tmp, hc, hfile⟩
  · have hold := h.holds c
    rcases hback c with hidle | ⟨t, ok, hret⟩
    · rw [hidle] at hc
      cases hc
    · rw [hret] at hc
      have ht : t = some tmp := hc
      subst ht
      simp only [Holds, hret] at hold
      exact hold.2

/-- Call `c` runs in the process `2 * c + 7`, and writes its number. -/
def twoWriters : Target where
  path := "out.parquet".toList
  calls c := ⟨2 * c + 7, [[80, c.toUInt8]]⟩

def inTurns : List Act :=
  [.call 0 .new, .call 1 .new, .call 0 (.create true), .call 1 (.create true), .call 1 .write,
    .call 0 .write, .call 0 (.unlink true), .call 0 (.rename true), .call 1 (.unlink true),
    .call 1 (.rename true)]

/-- The second call unlinks the file that the first one renamed. -/
theorem two_writers_leave_one_file :
    ∃ s, Reach (writersFrom twoWriters before.files) (Succeeds twoWriters) s ∧ NamesApart s ∧
      OneFile twoWriters s := by
  have hrun : ∃ s, exec (writersFrom twoWriters before.files) before inTurns = some s ∧
      (∀ p, s.taken p ≤ 2 ^ 64) ∧ AllBack s := by
    have h79 : name twoWriters.path 7 0 ≠ name twoWriters.path 9 0 := fun h => by
      have := name_inj h
      omega
    have h7 := name_ne twoWriters.path 7 0
    have h9 := name_ne twoWriters.path 9 0
    have h0 : twoWriters.calls 0 = ⟨7, [[80, 0]]⟩ := rfl
    have h1 : twoWriters.calls 1 = ⟨9, [[80, 1]]⟩ := rfl
    simp [exec, writersFrom, inTurns, step, callStep, St.move, St.put, St.count, h0, h1,
      Function.update_apply, before, AllBack, h79, h7, h9, h79.symm]
    refine ⟨fun p => ?_, ⟨0, by simp⟩, fun c => ?_⟩
    · split_ifs <;> omega
    · split_ifs <;> simp
  obtain ⟨s, hrun, hn, hback⟩ := hrun
  have hstart : Reach (writersFrom twoWriters before.files) (Succeeds twoWriters) before :=
    .start ⟨⟨fun _ => rfl, fun _ => rfl, fun _ => rfl⟩, rfl⟩
  have hr := hstart.exec inTurns (by simp [inTurns, Succeeds]) hrun
  obtain ⟨hnames, _, hone⟩ := the_writers_of_a_path_leave_one_complete_file hr hn
  exact ⟨s, hr, hnames, hone hback⟩

/-- The calls of one process. -/
def oneProcess : Target where
  path := "out.parquet".toList
  calls _ := ⟨7, []⟩

/-- The first `k` calls have their names, and the others have not begun. -/
theorem reach_names (k : Nat) :
    ∃ s, Reach (writersFrom oneProcess before.files) (Succeeds oneProcess) s ∧
      s.n 7 = k % 2 ^ 64 ∧
      (∀ c, c < k → (s.calls c).tmp = some (name oneProcess.path 7 (c % 2 ^ 64))) ∧
      ∀ c, k ≤ c → s.calls c = .idle := by
  induction k with
  | zero =>
    refine ⟨before, .start ⟨⟨fun _ => rfl, fun _ => rfl, fun _ => rfl⟩, rfl⟩,
      (Nat.zero_mod _).symm, ?_, ?_⟩
    · exact fun c hc => absurd hc (Nat.not_lt_zero c)
    · exact fun _ _ => rfl
  | succ k ih =>
    obtain ⟨s, hr, hn, hnamed, hidle⟩ := ih
    have hstep : step oneProcess s (.call k .new) = some ((s.count 7).move k
        (.named (name oneProcess.path 7 (s.n 7)))) := by
      change callStep oneProcess s k .new = _
      unfold callStep
      rw [hidle k (Nat.le_refl k)]
      rfl
    refine ⟨_, hr.next (a := .call k .new) trivial hstep, ?_, fun c hc => ?_, fun c hc => ?_⟩
    · simp only [St.move, St.count, Function.update_self, bumped, hn]
      omega
    · by_cases hck : c = k
      · rw [hck, St.move_at, At.tmp, hn]
      · rw [St.move_of_ne _ _ hck]
        exact hnamed c (by omega)
    · rw [St.move_of_ne _ _ (by omega)]
      exact hidle c (by omega)

/-- After `2 ^ 64` names the counter is back at the first one. -/
theorem the_names_of_a_process_come_round :
    ∃ s, Reach (writersFrom oneProcess before.files) (Succeeds oneProcess) s ∧
      ¬NamesApart s := by
  obtain ⟨s, hr, _, hnamed, _⟩ := reach_names (2 ^ 64 + 1)
  refine ⟨s, hr, fun h => ?_⟩
  have h0 := hnamed 0 (by omega)
  have hlast := hnamed (2 ^ 64) (by omega)
  have hround : 2 ^ 64 % 2 ^ 64 = 0 % 2 ^ 64 := (Nat.mod_self _).trans (Nat.zero_mod _).symm
  have := h 0 (2 ^ 64) _ h0 (hround ▸ hlast)
  omega

end parquet_interop.replace
