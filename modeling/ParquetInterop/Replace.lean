-- `write_table` seen from the directory: calls that build a file beside the
-- target, unlink the target and rename the finished file onto it. One action
-- is one call into the file system, with the answer that it got.
import ParquetInterop.Lib.Runs
import ParquetInterop.Scratch
import Mathlib.Logic.Function.Basic

open lib.runs parquet_interop.scratch

namespace parquet_interop.replace

/-! ## The state -/

/-- One call of `pq_write`: the process that it runs in, and the writes that make up its file,
from the magic to the footer. -/
structure Call where
  pid : Nat
  writes : List (List UInt8)

/-- The complete file of the call. -/
def Call.file (w : Call) : List UInt8 := w.writes.flatten

/-- What stays the same: the path that all the calls were given, and the calls. -/
structure Target where
  path : List Char
  calls : Nat → Call

/-- Where a call of `write_table` stands. From `named` to `failing` it holds the guard of its
scratch. -/
inductive At where
  | idle
  | named (tmp : List Char)
  | filling (tmp : List Char) (done : Nat)
  | unlinked (tmp : List Char)
  | failing (tmp : List Char)
  | returned (tmp : Option (List Char)) (ok : Bool)
  deriving DecidableEq

/-- The scratch name that the call was given. -/
def At.tmp : At → Option (List Char)
  | .idle => none
  | .named tmp | .filling tmp _ | .unlinked tmp | .failing tmp => some tmp
  | .returned tmp _ => tmp

/-- The files by name, the counter `N` of each process, and the calls. `taken` is a record for
the proofs: how many names each process gave. -/
structure St where
  files : List Char → Option (List UInt8)
  n : Nat → Nat
  taken : Nat → Nat
  calls : Nat → At

/-! ## The actions -/

/-- What a call does next. `ok` is the answer of the file system, and `left` the bytes that a
failed build leaves on the disk, with those that the dropped `BufWriter` still flushed. -/
inductive Does where
  | refuse
  | new
  | create (ok : Bool)
  | write
  | fail (left : List UInt8)
  | unlink (ok : Bool)
  | rename (ok : Bool)
  | drop (ok : Bool)
  deriving DecidableEq

/-- `elsewhere` is a `Scratch::new` of the process for another path. -/
inductive Act where
  | call (c : Nat) (d : Does)
  | elsewhere (pid : Nat)
  deriving DecidableEq

variable (T : Target)

def St.move (s : St) (c : Nat) (place : At) : St :=
  { s with calls := Function.update s.calls c place }

def St.put (s : St) (name : List Char) (bytes : Option (List UInt8)) : St :=
  { s with files := Function.update s.files name bytes }

/-- `N.fetch_add(1)` in the process `pid`. -/
def St.count (s : St) (pid : Nat) : St :=
  { s with
    n := Function.update s.n pid (bumped (s.n pid))
    taken := Function.update s.taken pid (s.taken pid + 1) }

/-- One action of the call `c`. -/
def callStep (s : St) (c : Nat) (d : Does) : Option St :=
  match s.calls c, d with
  | .idle, .refuse => some (s.move c (.returned none false))
  | .idle, .new =>
    let pid := (T.calls c).pid
    some ((s.count pid).move c (.named (name T.path pid (s.n pid))))
  -- `File::create` makes the file or empties the one that stands there.
  | .named tmp, .create ok =>
    if ok then some ((s.put tmp (some [])).move c (.filling tmp 0))
    else some (s.move c (.failing tmp))
  | .filling tmp done, .write =>
    match (T.calls c).writes[done]? with
    | some bytes =>
      some ((s.put tmp ((s.files tmp).map (· ++ bytes))).move c (.filling tmp (done + 1)))
    | none => none
  -- An encoder, a worker, a write or the close failed.
  | .filling tmp _, .fail left => some ((s.put tmp (some left)).move c (.failing tmp))
  -- `let _ = remove_file(path)`, once the footer is on the disk.
  | .filling tmp done, .unlink ok =>
    if done = (T.calls c).writes.length then
      let s := if ok then s.put T.path none else s
      some (s.move c (.unlinked tmp))
    else none
  | .unlinked tmp, .rename ok =>
    if ok then
      match s.files tmp with
      | some bytes =>
        some (((s.put tmp none).put T.path (some bytes)).move c (.returned (some tmp) true))
      | none => none
    else some (s.move c (.failing tmp))
  -- `Scratch::drop`, whose error is ignored.
  | .failing tmp, .drop ok =>
    let s := if ok then s.put tmp none else s
    some (s.move c (.returned (some tmp) false))
  | _, _ => none

def step (s : St) : Act → Option St
  | .call c d => callStep T s c d
  | .elsewhere pid => some (s.count pid)

/-- No call has begun, and no process has given a name. -/
def Start (s : St) : Prop :=
  (∀ c, s.calls c = .idle) ∧ (∀ p, s.n p = 0) ∧ ∀ p, s.taken p = 0

def writers : System St Act where
  init := Start
  step := step T

/-! ## What an action does -/

variable {T : Target} {s s' : St}

/-- What a call can do, one case for each answer. -/
inductive Moved (T : Target) (s : St) (c : Nat) : Does → St → Prop
  | refuse : s.calls c = .idle → Moved T s c .refuse (s.move c (.returned none false))
  | new : s.calls c = .idle → Moved T s c .new ((s.count (T.calls c).pid).move c
      (.named (name T.path (T.calls c).pid (s.n (T.calls c).pid))))
  | create (tmp : List Char) : s.calls c = .named tmp →
      Moved T s c (.create true) ((s.put tmp (some [])).move c (.filling tmp 0))
  | createFailed (tmp : List Char) : s.calls c = .named tmp →
      Moved T s c (.create false) (s.move c (.failing tmp))
  | write (tmp : List Char) (done : Nat) (bytes : List UInt8) : s.calls c = .filling tmp done →
      (T.calls c).writes[done]? = some bytes → Moved T s c .write
        ((s.put tmp ((s.files tmp).map (· ++ bytes))).move c (.filling tmp (done + 1)))
  | fail (tmp : List Char) (done : Nat) (left : List UInt8) : s.calls c = .filling tmp done →
      Moved T s c (.fail left) ((s.put tmp (some left)).move c (.failing tmp))
  | unlink (tmp : List Char) : s.calls c = .filling tmp (T.calls c).writes.length →
      Moved T s c (.unlink true) ((s.put T.path none).move c (.unlinked tmp))
  | unlinkFailed (tmp : List Char) : s.calls c = .filling tmp (T.calls c).writes.length →
      Moved T s c (.unlink false) (s.move c (.unlinked tmp))
  | rename (tmp : List Char) (bytes : List UInt8) : s.calls c = .unlinked tmp →
      s.files tmp = some bytes → Moved T s c (.rename true)
        (((s.put tmp none).put T.path (some bytes)).move c (.returned (some tmp) true))
  | renameFailed (tmp : List Char) : s.calls c = .unlinked tmp →
      Moved T s c (.rename false) (s.move c (.failing tmp))
  | drop (tmp : List Char) : s.calls c = .failing tmp →
      Moved T s c (.drop true) ((s.put tmp none).move c (.returned (some tmp) false))
  | dropFailed (tmp : List Char) : s.calls c = .failing tmp →
      Moved T s c (.drop false) (s.move c (.returned (some tmp) false))

theorem callStep_moved {c : Nat} {d : Does} (h : callStep T s c d = some s') :
    Moved T s c d s' := by
  unfold callStep at h
  split at h
  · rename_i hat
    exact Option.some.inj h ▸ .refuse hat
  · rename_i hat
    exact Option.some.inj h ▸ .new hat
  · rename_i tmp ok hat
    cases ok with
    | true => exact Option.some.inj h ▸ .create tmp hat
    | false => exact Option.some.inj h ▸ .createFailed tmp hat
  · rename_i tmp done hat
    split at h
    · rename_i bytes hbytes
      exact Option.some.inj h ▸ .write tmp done bytes hat hbytes
    · cases h
  · rename_i tmp done left hat
    exact Option.some.inj h ▸ .fail tmp done left hat
  · rename_i tmp done ok hat
    split at h
    · rename_i hdone
      subst hdone
      cases ok with
      | true => exact Option.some.inj h ▸ .unlink tmp hat
      | false => exact Option.some.inj h ▸ .unlinkFailed tmp hat
    · cases h
  · rename_i tmp ok hat
    cases ok with
    | true =>
      simp only [↓reduceIte] at h
      split at h
      · rename_i bytes hbytes
        exact Option.some.inj h ▸ .rename tmp bytes hat hbytes
      · cases h
    | false => exact Option.some.inj h ▸ .renameFailed tmp hat
  · rename_i tmp ok hat
    cases ok with
    | true => exact Option.some.inj h ▸ .drop tmp hat
    | false => exact Option.some.inj h ▸ .dropFailed tmp hat
  · cases h

@[simp] theorem St.move_files (s : St) (c : Nat) (place : At) : (s.move c place).files = s.files :=
  rfl

@[simp] theorem St.count_files (s : St) (pid : Nat) : (s.count pid).files = s.files := rfl

@[simp] theorem St.count_calls (s : St) (pid : Nat) : (s.count pid).calls = s.calls := rfl

@[simp] theorem St.put_calls (s : St) (x : List Char) (b : Option (List UInt8)) :
    (s.put x b).calls = s.calls := rfl

@[simp] theorem St.move_at (s : St) (c : Nat) (place : At) : (s.move c place).calls c = place :=
  Function.update_self ..

theorem St.move_of_ne (s : St) {c c' : Nat} (place : At) (h : c' ≠ c) :
    (s.move c place).calls c' = s.calls c' := Function.update_of_ne h ..

@[simp] theorem St.put_self (s : St) (x : List Char) (b : Option (List UInt8)) :
    (s.put x b).files x = b := Function.update_self ..

theorem St.put_of_ne (s : St) {x y : List Char} (b : Option (List UInt8)) (h : y ≠ x) :
    (s.put x b).files y = s.files y := Function.update_of_ne h ..

/-! ## One call alone -/

/-- What a call left of the scratch `tmp`: what stood there, until it was created. -/
def Stands (f0 : List Char → Option (List UInt8)) (tmp : List Char) (ds : List Does) (s : St) :
    Prop :=
  if .create true ∈ ds then s.files tmp ≠ none else s.files tmp = f0 tmp

/-- What a failing call left at the path. -/
def Missing (T : Target) (f0 : List Char → Option (List UInt8)) (ds : List Does) (s : St) : Prop :=
  s.files T.path = if .unlink true ∈ ds ∧ .rename false ∈ ds then none else f0 T.path

/-- How far the answers `ds` have brought the call `c`, and what is where by then. -/
def Told (T : Target) (c : Nat) (f0 : List Char → Option (List UInt8)) (tmp : List Char)
    (ds : List Does) (s : St) : Prop :=
  match s.calls c with
  | .idle => ds = [] ∧ s.files = f0 ∧ tmp = name T.path (T.calls c).pid (s.n (T.calls c).pid)
  | .named t => t = tmp ∧ ds = [.new] ∧ s.files = f0
  | .filling t done => t = tmp ∧ .create true ∈ ds ∧ .unlink true ∉ ds ∧ .rename false ∉ ds ∧
      .drop false ∉ ds ∧ s.files T.path = f0 T.path ∧
      s.files tmp = some ((T.calls c).writes.take done).flatten
  | .unlinked t => t = tmp ∧ .create true ∈ ds ∧ .rename false ∉ ds ∧ .drop false ∉ ds ∧
      (s.files T.path = if .unlink true ∈ ds then none else f0 T.path) ∧
      s.files tmp = some (T.calls c).file
  | .failing t => t = tmp ∧ .drop false ∉ ds ∧ Missing T f0 ds s ∧ Stands f0 tmp ds s
  | .returned none ok => ok = false ∧ ds = [.refuse] ∧ s.files = f0
  | .returned (some t) true => t = tmp ∧ .rename false ∉ ds ∧ .drop false ∉ ds ∧
      s.files T.path = some (T.calls c).file ∧ s.files tmp = none
  | .returned (some t) false => t = tmp ∧ Missing T f0 ds s ∧
      if .drop false ∈ ds then Stands f0 tmp ds s else s.files tmp = none

variable {c : Nat} {f0 : List Char → Option (List UInt8)} {tmp : List Char} {ds : List Does}

theorem told_step {d : Does} (hne : T.path ≠ tmp) (h : Told T c f0 tmp ds s)
    (hm : Moved T s c d s') : Told T c f0 tmp (ds ++ [d]) s' := by
  unfold Told at h
  unfold Told
  cases hm with
  | refuse hat =>
    simp only [hat] at h
    obtain ⟨rfl, hfiles, _⟩ := h
    simp [hfiles]
  | new hat =>
    simp only [hat] at h
    obtain ⟨rfl, hfiles, htmp⟩ := h
    simp [hfiles, htmp]
  | create t hat =>
    simp only [hat] at h
    obtain ⟨rfl, rfl, hfiles⟩ := h
    simp [St.put_of_ne _ _ hne, hfiles]
  | createFailed t hat =>
    simp only [hat] at h
    obtain ⟨rfl, rfl, hfiles⟩ := h
    simp [Missing, Stands, hfiles]
  | write t done bytes hat hbytes =>
    simp only [hat] at h
    obtain ⟨rfl, hc, hu, hr, hd, hpath, hscratch⟩ := h
    simp [St.put_of_ne _ _ hne, hc, hu, hr, hd, hpath, hscratch, List.take_add_one, hbytes]
  | fail t done left hat =>
    simp only [hat] at h
    obtain ⟨rfl, hc, hu, hr, hd, hpath, _⟩ := h
    simp [Missing, Stands, St.put_of_ne _ _ hne, hc, hu, hd, hpath]
  | unlink t hat =>
    simp only [hat] at h
    obtain ⟨rfl, hc, hu, hr, hd, _, hscratch⟩ := h
    simp [St.put_of_ne _ _ hne.symm, hc, hr, hd, hscratch, Call.file]
  | unlinkFailed t hat =>
    simp only [hat] at h
    obtain ⟨rfl, hc, hu, hr, hd, hpath, hscratch⟩ := h
    simp [hc, hu, hr, hd, hpath, hscratch, Call.file]
  | rename t bytes hat hbytes =>
    simp only [hat] at h
    obtain ⟨rfl, hc, hr, hd, _, hscratch⟩ := h
    simp [St.put_of_ne _ _ hne.symm, hr, hd, Option.some.inj (hbytes.symm.trans hscratch)]
  | renameFailed t hat =>
    simp only [hat] at h
    obtain ⟨rfl, hc, hr, hd, hpath, hscratch⟩ := h
    simp [Missing, Stands, hc, hd, hpath, hscratch]
  | drop t hat =>
    simp only [hat] at h
    obtain ⟨rfl, hd, hmissing, _⟩ := h
    simp only [Missing] at hmissing
    simp [Missing, St.put_of_ne _ _ hne, hd, hmissing]
  | dropFailed t hat =>
    simp only [hat] at h
    obtain ⟨rfl, hd, hmissing, hstands⟩ := h
    simp only [Missing, Stands] at hmissing hstands
    simp [Missing, Stands, hmissing, hstands]

theorem told_run (hne : T.path ≠ tmp) {rest : List Does} (h : Told T c f0 tmp ds s)
    (hrun : exec (writers T) s (rest.map (.call c)) = some s') :
    Told T c f0 tmp (ds ++ rest) s' := by
  induction rest generalizing s ds with
  | nil =>
    simp only [List.map_nil, exec, Option.some.injEq] at hrun
    rw [List.append_nil, ← hrun]
    exact h
  | cons d rest ih =>
    simp only [List.map_cons, exec, Option.bind_eq_some_iff] at hrun
    obtain ⟨t, hstep, hrest⟩ := hrun
    have := ih (told_step hne h (callStep_moved hstep)) hrest
    rwa [List.append_assoc] at this

/-! ## The laws -/

/-- The call has returned and left the path with its complete file, or as it was in `f0`, and no
scratch. -/
def AllOrNothing (T : Target) (c : Nat) (f0 : List Char → Option (List UInt8)) (s : St) : Prop :=
  match s.calls c with
  | .returned tmp ok =>
    (s.files T.path = if ok then some (T.calls c).file else f0 T.path) ∧
      ∀ t, tmp = some t → s.files t = none
  | _ => False

/-- The target was not lost between the unlink and the rename, and no scratch was left standing
by its guard. -/
def Spared (T : Target) (f0 : List Char → Option (List UInt8)) (tmp : List Char)
    (ds : List Does) : Prop :=
  ¬(f0 T.path ≠ none ∧ .unlink true ∈ ds ∧ .rename false ∈ ds) ∧
    ¬(.drop false ∈ ds ∧ (.create true ∈ ds ∨ f0 tmp ≠ none))

/-- A call that returns left the complete file, or the path as it was, and no scratch: exactly
when its rename did not fail over a file that it had unlinked, and its guard did not fail to
remove the scratch. -/
theorem a_write_is_all_or_nothing_iff_nothing_fails_past_the_unlink {s0 : St}
    (hidle : s0.calls c = .idle) (hrun : exec (writers T) s0 (ds.map (.call c)) = some s)
    (hret : ∃ t ok, s.calls c = .returned t ok) :
    AllOrNothing T c s0.files s ↔
      Spared T s0.files (name T.path (T.calls c).pid (s0.n (T.calls c).pid)) ds := by
  generalize htmp : name T.path (T.calls c).pid (s0.n (T.calls c).pid) = tmp
  have hne : T.path ≠ tmp := fun h => name_ne _ _ _ (htmp.trans h.symm)
  have htold : Told T c s0.files tmp [] s0 := by
    simp [Told, hidle, htmp]
  have hend := told_run hne htold hrun
  obtain ⟨t, ok, hat⟩ := hret
  unfold AllOrNothing Spared
  rw [List.nil_append] at hend
  simp only [Told, hat] at hend ⊢
  cases t with
  | none =>
    obtain ⟨rfl, rfl, hfiles⟩ := hend
    simp [hfiles]
  | some t =>
    cases ok with
    | true =>
      obtain ⟨rfl, hr, hd, hpath, hscratch⟩ := hend
      simp [hr, hd, hpath, hscratch]
    | false =>
      obtain ⟨rfl, hmissing, hstands⟩ := hend
      simp only [Missing, Stands] at hmissing hstands
      apply and_congr
      · by_cases hlost : Does.unlink true ∈ ds ∧ Does.rename false ∈ ds
        · simp [hmissing, hlost, eq_comm]
        · simp [hmissing, hlost]
      · by_cases hd : Does.drop false ∈ ds
        · by_cases hc : Does.create true ∈ ds
          · simp only [hd, hc, if_true] at hstands
            simp [hd, hc, hstands]
          · simp only [hd, hc, if_true, if_false] at hstands
            simp [hd, hc, hstands]
        · simp only [hd, if_false] at hstands
          simp [hd, hstands]

/-- A file of two writes over a file of two bytes. -/
def overwrite : Target where
  path := "out.parquet".toList
  calls _ := ⟨7, [[80, 65], [82, 49]]⟩

def before : St where
  files := Function.update (fun _ => none) "out.parquet".toList (some [1, 2])
  n _ := 0
  taken _ := 0
  calls _ := .idle

/-- The second write fails, and the file that was there stays. -/
theorem a_failed_write_keeps_the_old_file :
    ∃ s, exec (writers overwrite) before
        ([Does.new, .create true, .write, .fail [80], .drop true].map (.call 0)) = some s ∧
      AllOrNothing overwrite 0 before.files s := by
  have hrun : ∃ s, exec (writers overwrite) before
        ([Does.new, .create true, .write, .fail [80], .drop true].map (.call 0)) = some s ∧
      ∃ t ok, s.calls 0 = .returned t ok := ⟨_, rfl, _, _, rfl⟩
  obtain ⟨s, hrun, hret⟩ := hrun
  refine ⟨s, hrun, (a_write_is_all_or_nothing_iff_nothing_fails_past_the_unlink rfl hrun
    hret).mpr ⟨?_, ?_⟩⟩
  · simp
  · simp

/-- The rename fails, and the file that was there is gone with the new one. -/
theorem a_failed_rename_loses_both_files :
    ∃ s, exec (writers overwrite) before ([Does.new, .create true, .write, .write, .unlink true,
        .rename false, .drop true].map (.call 0)) = some s ∧
      (∃ t, s.calls 0 = .returned t false) ∧ before.files overwrite.path = some [1, 2] ∧
      s.files overwrite.path = none ∧ ¬AllOrNothing overwrite 0 before.files s := by
  refine ⟨_, rfl, ⟨_, rfl⟩, rfl, rfl, fun h => ?_⟩
  have hpath := h.1
  contradiction

end parquet_interop.replace
