-- `open`: the calling thread and the workers claim the files of a list from one cursor,
-- and every load steps through the footer cache beside the loads of all other threads.
import ParquetInterop.FooterCache
import ParquetInterop.SharedCursor
import ParquetInterop.Entry

open lib.runs
open parquet_interop.footer parquet_interop.par_map parquet_interop.entry

namespace parquet_interop.opening

/-! ## The files -/

/-- What the file system answers, while nothing writes to it. A key has the path that was opened. -/
structure Disk where
  look : String → Except String OpenFile
  keyed : ∀ path f, look path = .ok f → f.key.path = path

/-- The file is what its key says, wherever the disk has the key. -/
def Same (d : Disk) (f : OpenFile) : Prop := ∀ path g, d.look path = .ok g → g.key = f.key → g = f

theorem Disk.same (d : Disk) {path : String} {f : OpenFile} (h : d.look path = .ok f) : Same d f := by
  intro path' g hg hkey
  have hpath : path' = path := by rw [← d.keyed path' g hg, hkey, d.keyed path f h]
  subst hpath
  exact Except.ok.inj (hg.symm.trans h)

/-- The call of `load` for one file of the list. -/
def callOf (who : String) (f : String × String) : footers.Call := ⟨f.1, f.2, who⟩

/-- What a load answers that finds no cache. -/
def fresh (d : Disk) (call : footers.Call) : Except String Src :=
  (load [] call.orig call.path (d.look call.path) call.who).1

/-! ## The threads of the call -/

/-- Where a thread of the call stands. -/
inductive At where
  | entry
  | claim
  | busy (i : Nat)
  | done
  | panicked
  deriving DecidableEq

/-- Thread `w` of the call is thread `w` of the cache, and thread 0 is the calling one. `ended`,
`threw` and `refused` are a record: the loads that came back, those that panicked, and whether a
thread could not be spawned. -/
structure St where
  next : Nat
  out : Nat → Option (Except String Src)
  ts : List At
  footers : footers.St
  ended : List Nat
  threw : List Nat
  refused : Bool

/-- `other` is any step of a thread of the process that is not in the call. -/
inductive Act where
  | go (w : Nat)
  | panic (w : Nat)
  | refuse (j : Nat)
  | other (a : footers.Act)

def St.put (s : St) (w : Nat) (a : At) : St := { s with ts := s.ts.set w a }

/-- The next critical section of a load, or the parse between the two. -/
def sectionOf (d : Disk) (w : Nat) : footers.Pc → Option footers.Act
  | .opened _ _ => some (.look w)
  | .missed call _ =>
    match d.look call.path with
    | .ok f => some (.parse w f.parsed f.tryNew)
    | .error _ => none
  | .parsed _ _ => some (.keep w)
  | _ => none

/-- The next step of a thread. A load begins as its index is claimed, and its answer is stored
when it comes back. -/
def goStep (d : Disk) (fs : List (String × String)) (who : String) (s : St) (w : Nat) : Option St :=
  match s.ts[w]? with
  | some .entry => some (s.put w .claim)
  | some .claim =>
    match fs[s.next]? with
    | some f =>
      (footers.step s.footers (.fopen w (callOf who f) ((d.look f.2).map (·.key)))).map fun x =>
        { s.put w (.busy s.next) with next := s.next + 1, footers := x }
    | none => some { s.put w .done with next := s.next + 1 }
  | some (.busy i) =>
    match s.footers.pc w with
    | .returned r =>
      some { s.put w .claim with out := fun j => if j = i then some r else s.out j, ended := i :: s.ended }
    | pc =>
      (sectionOf d w pc).bind fun a => (footers.step s.footers a).map fun x => { s with footers := x }
  | _ => none

/-- A parse panics, and unwinds its thread. -/
def panicStep (s : St) (w : Nat) : Option St :=
  match s.ts[w]? with
  | some (.busy i) =>
    (footers.step s.footers (.unwind w)).map fun x =>
      { s.put w .panicked with footers := x, threw := i :: s.threw }
  | _ => none

/-- A thread that has not been spawned never runs. -/
def At.cancel : At → At
  | .entry => .done
  | a => a

/-- The spawn of thread `j` fails, and the calling thread panics over it. -/
def refuseStep (s : St) (j : Nat) : Option St :=
  match s.ts with
  | .entry :: ts =>
    some { s with ts := .panicked :: (ts.take j ++ (ts.drop j).map At.cancel), refused := true }
  | _ => none

def thread : footers.Act → Nat
  | .fopen t _ _ | .look t | .parse t _ _ | .unwind t | .keep t => t

def step (d : Disk) (fs : List (String × String)) (who : String) (s : St) : Act → Option St
  | .go w => goStep d fs who s w
  | .panic w => panicStep s w
  | .refuse j => refuseStep s j
  | .other a =>
    if s.ts.length ≤ thread a then (footers.step s.footers a).map fun x => { s with footers := x }
    else none

/-- `k` threads beside the calling one, with nothing claimed. -/
def start (k : Nat) (x : footers.St) : St where
  next := 0
  out _ := none
  ts := List.replicate (k + 1) .entry
  footers := x
  ended := []
  threw := []
  refused := false

/-- Every file that was ever parsed is what its key says. -/
def Known (d : Disk) (x : footers.St) : Prop := ∀ f ∈ x.read, Same d f

/-- Any history of the cache may come before the call. -/
def system (d : Disk) (fs : List (String × String)) (who : String) (k : Nat) : System St Act where
  init s := ∃ x, Reachable footers.threads x ∧ Known d x ∧ (∀ w ≤ k, (x.pc w).free = true) ∧
    s = start k x
  step := step d fs who

/-- Another thread may have opened an older file, but what it parses is what the key says. -/
def Honest (d : Disk) (s : St) : Act → Prop
  | .other (.parse t parsed tryNew) =>
    ∀ call key, s.footers.pc t = .missed call key → Same d ⟨key, parsed, tryNew⟩
  | _ => True

/-! ## What the call answers -/

/-- Every thread has returned or unwound. -/
def Over (s : St) : Prop := ∀ a ∈ s.ts, a = .done ∨ a = .panicked

instance (s : St) : Decidable (Over s) :=
  inferInstanceAs (Decidable (∀ a ∈ s.ts, a = .done ∨ a = .panicked))

def St.unwound (s : St) : Prop := s.ts[0]? = some .panicked

def St.workerPanicked (s : St) : Prop := ∃ w : Nat, s.ts[w + 1]? = some .panicked

/-- What comes of the slots: the first error in the order of the list, or the set that the files
agree on. -/
def collected (fs : List (String × String)) (who : String) (s : St) : Except String FileSet :=
  match (List.range fs.length).mapM s.out with
  | none => .error s!"{who}: footer panic"
  | some out => do
    let srcs ← out.mapM id
    agree srcs who

inductive OpenAnswers (fs : List (String × String)) (who : String) (s : St) :
    Answer (Except String FileSet) → Prop
  | noFiles : fs = [] → OpenAnswers fs who s (.back (.error s!"{who}: no files"))
  | unwound : fs ≠ [] → s.unwound → OpenAnswers fs who s .unwound
  | panicked : fs ≠ [] → ¬s.unwound → s.workerPanicked →
      OpenAnswers fs who s (.back (.error s!"{who}: footer panic"))
  | collected : fs ≠ [] → ¬s.unwound → ¬s.workerPanicked →
      OpenAnswers fs who s (.back (collected fs who s))

/-! ## What a load answers beside other loads -/

variable {d : Disk} {fs : List (String × String)} {who : String} {call : footers.Call}
  {x x' : footers.St} {s s' : St}

/-- A step of the cache moves one thread. -/
theorem step_other {a : footers.Act} (h : footers.step x a = some x') {t : Nat} (ht : t ≠ thread a) :
    x'.pc t = x.pc t := by
  cases footers.step_moved h <;> exact footers.goes_of_ne _ _ ht

theorem parse_step {t : Nat} {parsed : Except String Md} {tryNew : List Field → Option Md}
    (h : footers.step x (.parse t parsed tryNew) = some x') :
    ∃ call key, x.pc t = .missed call key ∧ x' = footers.parseStep x t call ⟨key, parsed, tryNew⟩ := by
  simp only [footers.step] at h
  split at h
  · rename_i call key hpc
    exact ⟨call, key, hpc, (Option.some.inj h).symm⟩
  · cases h

theorem known_step {a : footers.Act} (hk : Known d x) (h : footers.step x a = some x')
    (hparse : ∀ t parsed tryNew, a = .parse t parsed tryNew → ∀ call key, x.pc t = .missed call key →
      Same d ⟨key, parsed, tryNew⟩) : Known d x' := by
  have hmoved := footers.step_moved h
  cases a with
  | parse t parsed tryNew =>
    obtain ⟨call, key, hpc, rfl⟩ := parse_step h
    have hsame := hparse t parsed tryNew rfl call key hpc
    unfold footers.parseStep
    split <;> exact List.forall_mem_cons.mpr ⟨hsame, hk⟩
  | fopen t call key => cases hmoved <;> exact hk
  | look t => cases hmoved <;> exact hk
  | unwind t =>
    cases hmoved
    exact hk
  | keep t => cases hmoved <;> exact hk

/-- An entry does not depend on the path and the caller that are named in errors. -/
theorem parse_entry {f : OpenFile} {path path' who who' : String} {e : Entry}
    (h : parse f path who = .ok e) : parse f path' who' = .ok e := by
  unfold parse at h ⊢
  cases hp : f.parsed with
  | error m =>
    rw [hp] at h
    cases h
  | ok base =>
    rw [hp] at h
    dsimp only at h ⊢
    split at h
    · cases h
    · rename_i hrows
      rw [if_neg hrows]
      exact h

theorem fresh_error {e : String} (h : d.look call.path = .error e) :
    fresh d call = .error s!"{call.who}: {call.path}: {e}" := by
  simp [fresh, load, h]

theorem fresh_rejected {f : OpenFile} {m : String} (h : d.look call.path = .ok f)
    (hp : parse f call.path call.who = .error m) : fresh d call = .error m := by
  simp [fresh, load, h, lookup, hp]

theorem fresh_parsed {f : OpenFile} {e : Entry} (h : d.look call.path = .ok f)
    (hp : parse f call.path call.who = .ok e) : .returned (fresh d call) = call.gives e := by
  simp [fresh, load, h, lookup, hp, footers.Call.gives]

/-- An entry of the cache is what a load of its key would parse. -/
theorem entry_fresh (hkept : footers.Kept x) (hknown : Known d x) {e : Entry} (he : e ∈ x.cache)
    {f : OpenFile} (hf : d.look call.path = .ok f) (hkey : f.key = e.key) :
    .returned (fresh d call) = call.gives e := by
  obtain ⟨g, hg, hgkey, path, who, hparse⟩ := hkept.given e he
  obtain rfl := hknown g hg call.path f hf (hkey.trans hgkey.symm)
  exact fresh_parsed hf (parse_entry hparse)

/-- Where a thread stands in a load of a file of the disk. -/
inductive Serving (d : Disk) (call : footers.Call) : footers.Pc → Prop
  | opened {f : OpenFile} : d.look call.path = .ok f → Serving d call (.opened call f.key)
  | missed {f : OpenFile} : d.look call.path = .ok f → Serving d call (.missed call f.key)
  | parsed {f : OpenFile} {e : Entry} : d.look call.path = .ok f →
      parse f call.path call.who = .ok e → Serving d call (.parsed call e)
  | returned : Serving d call (.returned (fresh d call))

theorem serving_open {t : Nat}
    (h : footers.step x (.fopen t call ((d.look call.path).map (·.key))) = some x') :
    Serving d call (x'.pc t) := by
  simp only [footers.step] at h
  split at h
  · cases hl : d.look call.path with
    | error e =>
      rw [hl] at h
      cases h
      rw [footers.goes_self, ← fresh_error hl]
      exact .returned
    | ok f =>
      rw [hl] at h
      simp only [Except.map, footers.openStep] at h
      split at h
      · cases h
        rw [footers.goes_self]
        exact .opened hl
      · cases h
  · cases h

/-- Each section of a load leaves its thread where the load goes on, whatever was in between. -/
theorem serving_section {t : Nat} {a : footers.Act} (hkept : footers.Kept x) (hknown : Known d x)
    (hserving : Serving d call (x.pc t)) (ha : sectionOf d t (x.pc t) = some a)
    (h : footers.step x a = some x') : thread a = t ∧ Serving d call (x'.pc t) ∧ Known d x' := by
  generalize hpc : x.pc t = pc at hserving ha
  cases hserving with
  | @opened f hf =>
    cases ha
    refine ⟨rfl, ?_, known_step hknown h nofun⟩
    cases footers.step_moved h with
    | hit _ call' key e cache hpc' ht =>
      cases hpc.symm.trans hpc'
      rw [footers.goes_self, ← entry_fresh hkept hknown (lib.recency.touch_mem ht) hf
        (lib.recency.touch_key ht).symm]
      exact .returned
    | miss _ call' key hpc' =>
      cases hpc.symm.trans hpc'
      rw [footers.goes_self]
      exact .missed hf
  | @missed f hf =>
    simp only [sectionOf, hf, Option.some.injEq] at ha
    subst ha
    have hsame := d.same hf
    obtain ⟨call', key, hpc', rfl⟩ := parse_step h
    cases hpc.symm.trans hpc'
    refine ⟨rfl, ?_, known_step hknown h fun t' parsed tryNew heq call' key hmissed => ?_⟩
    · unfold footers.parseStep
      split
      · rename_i m hm
        rw [footers.goes_self, ← fresh_rejected hf hm]
        exact .returned
      · rename_i e he
        rw [footers.goes_self]
        exact .parsed hf he
    · cases heq
      cases hpc.symm.trans hmissed
      exact hsame
  | @parsed f e hf he =>
    cases ha
    refine ⟨rfl, ?_, known_step hknown h nofun⟩
    cases footers.step_moved h with
    | known _ call' e' hpc' =>
      cases hpc.symm.trans hpc'
      rw [footers.goes_self, ← fresh_parsed hf he]
      exact .returned
    | keep _ call' e' hpc' _ =>
      cases hpc.symm.trans hpc'
      rw [footers.goes_self, ← fresh_parsed hf he]
      exact .returned
  | returned => cases ha

/-! ## What a step can do -/

/-- Every way a step can change the call, with what it has checked. -/
inductive Moved (d : Disk) (fs : List (String × String)) (who : String) (s : St) : Act → St → Prop
  | enter {w : Nat} : s.ts[w]? = some .entry → Moved d fs who s (.go w) (s.put w .claim)
  | claim {w : Nat} {f : String × String} {x : footers.St} : s.ts[w]? = some .claim →
      fs[s.next]? = some f →
      footers.step s.footers (.fopen w (callOf who f) ((d.look f.2).map (·.key))) = some x →
      Moved d fs who s (.go w) { s.put w (.busy s.next) with next := s.next + 1, footers := x }
  | drained {w : Nat} : s.ts[w]? = some .claim → fs[s.next]? = none →
      Moved d fs who s (.go w) { s.put w .done with next := s.next + 1 }
  | stored {w i : Nat} {r : Except String Src} : s.ts[w]? = some (.busy i) →
      s.footers.pc w = .returned r →
      Moved d fs who s (.go w) { s.put w .claim with
        out := fun j => if j = i then some r else s.out j, ended := i :: s.ended }
  | inside {w i : Nat} {a : footers.Act} {x : footers.St} : s.ts[w]? = some (.busy i) →
      sectionOf d w (s.footers.pc w) = some a → footers.step s.footers a = some x →
      Moved d fs who s (.go w) { s with footers := x }
  | panic {w i : Nat} {x : footers.St} : s.ts[w]? = some (.busy i) →
      footers.step s.footers (.unwind w) = some x →
      Moved d fs who s (.panic w) { s.put w .panicked with footers := x, threw := i :: s.threw }
  | refuse {j : Nat} {ts : List At} : s.ts = .entry :: ts →
      Moved d fs who s (.refuse j)
        { s with ts := .panicked :: (ts.take j ++ (ts.drop j).map At.cancel), refused := true }
  | other {a : footers.Act} {x : footers.St} : s.ts.length ≤ thread a →
      footers.step s.footers a = some x → Moved d fs who s (.other a) { s with footers := x }

theorem goStep_moved {w : Nat} (h : goStep d fs who s w = some s') : Moved d fs who s (.go w) s' := by
  unfold goStep at h
  split at h
  · rename_i hw
    cases h
    exact .enter hw
  · rename_i hw
    split at h
    · rename_i f hf
      obtain ⟨x, hx, rfl⟩ := Option.map_eq_some_iff.mp h
      exact .claim hw hf hx
    · rename_i hf
      cases h
      exact .drained hw hf
  · rename_i i hw
    split at h
    · rename_i r hr
      cases h
      exact .stored hw hr
    · obtain ⟨a, ha, hstep⟩ := Option.bind_eq_some_iff.mp h
      obtain ⟨x, hx, rfl⟩ := Option.map_eq_some_iff.mp hstep
      exact .inside hw ha hx
  · cases h

theorem step_moved {a : Act} (h : step d fs who s a = some s') : Moved d fs who s a s' := by
  cases a with
  | go w => exact goStep_moved h
  | panic w =>
    simp only [step, panicStep] at h
    split at h
    · rename_i i hw
      obtain ⟨x, hx, rfl⟩ := Option.map_eq_some_iff.mp h
      exact .panic hw hx
    · cases h
  | refuse j =>
    simp only [step, refuseStep] at h
    split at h
    · rename_i ts hts
      cases h
      exact .refuse hts
    · cases h
  | other a =>
    simp only [step] at h
    split at h
    · rename_i ht
      obtain ⟨x, hx, rfl⟩ := Option.map_eq_some_iff.mp h
      exact .other ht hx
    · cases h

/-! ## What every step keeps -/

/-- Where the cache has a thread of the call: inside of the load of its file, or in none. -/
def Stands (d : Disk) (fs : List (String × String)) (who : String) : At → footers.Pc → Prop
  | .busy i, pc => ∃ f, fs[i]? = some f ∧ Serving d (callOf who f) pc
  | _, pc => pc.free = true

structure Serves (d : Disk) (fs : List (String × String)) (who : String) (s : St) : Prop where
  kept : footers.Kept s.footers
  known : Known d s.footers
  stands : ∀ (w : Nat) a, s.ts[w]? = some a → Stands d fs who a (s.footers.pc w)

theorem serves_start {k : Nat} (hx : Reachable footers.threads x) (hknown : Known d x)
    (hfree : ∀ w ≤ k, (x.pc w).free = true) : Serves d fs who (start k x) where
  kept := footers.Reachable.kept hx
  known := hknown
  stands w a hw := by
    obtain ⟨hlt, rfl⟩ := List.getElem?_eq_some_iff.mp hw
    rw [start, List.length_replicate] at hlt
    have hentry : (start k x).ts[w] = .entry := List.getElem_replicate _
    rw [hentry]
    exact hfree w (Nat.le_of_lt_succ hlt)

/-- Thread `w` goes on, and no other thread of the call moves in the cache. -/
theorem Serves.put (h : Serves d fs who s) {w : Nat} {a : At} (hkept : footers.Kept x)
    (hknown : Known d x) (hother : ∀ t ≠ w, x.pc t = s.footers.pc t) (ha : Stands d fs who a (x.pc w)) :
    Serves d fs who { s.put w a with footers := x } where
  kept := hkept
  known := hknown
  stands w' a' hw' := by
    by_cases hne : w' = w
    · subst hne
      obtain ⟨hlt, rfl⟩ := List.getElem?_eq_some_iff.mp hw'
      simp only [St.put, List.getElem_set_self]
      exact ha
    · change Stands d fs who a' (x.pc w')
      rw [hother w' hne]
      exact h.stands w' a' (by rwa [St.put, List.getElem?_set_ne (Ne.symm hne)] at hw')

theorem Stands.free {a : At} {pc : footers.Pc} (h : Stands d fs who a pc) (ha : ∀ i, a ≠ .busy i) :
    pc.free = true := by
  cases a with
  | busy i => exact absurd rfl (ha i)
  | entry => exact h
  | claim => exact h
  | done => exact h
  | panicked => exact h

theorem stands_cancel {a : At} {pc : footers.Pc} (h : Stands d fs who a pc) :
    Stands d fs who a.cancel pc := by
  cases a <;> exact h

/-- A thread of the call moves on between two loads. -/
theorem Serves.turn (h : Serves d fs who s) {w : Nat} {a b : At} (hw : s.ts[w]? = some a)
    (ha : ∀ i, a ≠ .busy i) (hb : ∀ pc, pc.free = true → Stands d fs who b pc) :
    Serves d fs who (s.put w b) :=
  h.put h.kept h.known (fun _ _ => rfl) (hb _ ((h.stands w a hw).free ha))

/-- The threads after a spawn that failed stand where they stood, or never run. -/
theorem cancelled_get {ts : List At} {j w : Nat} {a : At}
    (h : (ts.take j ++ (ts.drop j).map At.cancel)[w]? = some a) :
    ∃ b, ts[w]? = some b ∧ (a = b ∨ a = b.cancel) := by
  rw [List.getElem?_append, List.length_take] at h
  split at h
  · rw [List.getElem?_take] at h
    split at h
    · exact ⟨a, h, .inl rfl⟩
    · cases h
  · rename_i hw
    rw [List.getElem?_map, List.getElem?_drop] at h
    obtain ⟨b, hb, rfl⟩ := Option.map_eq_some_iff.mp h
    have hlt := (List.getElem?_eq_some_iff.mp hb).1
    have hindex : j + (w - min j ts.length) = w := by omega
    rw [hindex] at hb
    exact ⟨b, hb, .inr rfl⟩

theorem serves_moved {a : Act} (h : Serves d fs who s) (ha : Honest d s a)
    (hm : Moved d fs who s a s') : Serves d fs who s' := by
  cases hm with
  | enter hw => exact h.turn hw nofun fun _ hpc => hpc
  | drained hw _ => exact { h.turn (b := .done) hw nofun fun _ hpc => hpc with }
  | @claim w f x hw hf hx =>
    have hserves := h.put (a := .busy s.next) (footers.kept_step h.kept hx)
      (known_step h.known hx nofun) (fun t ht => step_other hx ht) ⟨f, hf, serving_open hx⟩
    exact { hserves with }
  | @stored w i r hw hr =>
    have hserves := h.put (w := w) (a := .claim) h.kept h.known (fun _ _ => rfl)
      (show (s.footers.pc w).free = true by rw [hr]; rfl)
    exact { hserves with }
  | @inside w i a x hw hsec hx =>
    obtain ⟨f, hf, hserving⟩ := h.stands w _ hw
    obtain ⟨ht, hserving', hknown⟩ := serving_section h.kept h.known hserving hsec hx
    have hserves := h.put (w := w) (a := .busy i) (footers.kept_step h.kept hx) hknown
      (fun t hne => step_other hx (ht.symm ▸ hne)) ⟨f, hf, hserving'⟩
    have hset : s.ts.set w (.busy i) = s.ts := by
      obtain ⟨hlt, hget⟩ := List.getElem?_eq_some_iff.mp hw
      rw [← hget, List.set_getElem_self]
    exact { hserves with stands := fun w' a' hw' => hserves.stands w' a' (by rwa [St.put, hset]) }
  | @panic w i x hw hx =>
    have hfree : (x.pc w).free = true := by
      cases footers.step_moved hx
      rw [footers.goes_self]
      rfl
    have hserves := h.put (w := w) (a := .panicked) (footers.kept_step h.kept hx)
      (known_step h.known hx nofun) (fun t ht => step_other hx ht) hfree
    exact { hserves with }
  | @refuse j ts hts =>
    refine { h with stands := fun w a hw => ?_ }
    cases w with
    | zero =>
      cases hw
      exact h.stands 0 .entry (by rw [hts]; rfl)
    | succ w =>
      obtain ⟨b, hb, hab⟩ := cancelled_get hw
      have hstands := h.stands (w + 1) b (by rw [hts]; exact hb)
      rcases hab with rfl | rfl
      · exact hstands
      · exact stands_cancel hstands
  | @other a x ht hx =>
    refine ⟨footers.kept_step h.kept hx, known_step h.known hx ?_, fun w b hw => ?_⟩
    · rintro t parsed tryNew rfl
      exact ha
    · have hlt : w < s.ts.length := (List.getElem?_eq_some_iff.mp hw).1
      rw [step_other hx (by omega)]
      exact h.stands w b hw

/-! ## The call is a `par_map` -/

/-- What the load of an index answers when it is alone. No index is past the list. -/
def alone (d : Disk) (fs : List (String × String)) (who : String) (i : Nat) : Except String Src :=
  ((fs[i]?).map fun f => fresh d (callOf who f)).getD (.error "")

/-- The threads as those of a `par_map` of the loads that are alone. -/
def At.view (f : Nat → Except String Src) : At → lib.cursor.Thread Unit (Except String Src) Empty
  | .entry => ⟨.entry, ()⟩
  | .claim => ⟨.top, ()⟩
  | .busy i => ⟨.busy i (.ok (f i)), ()⟩
  | .done => ⟨.done, ()⟩
  | .panicked => ⟨.panicked, ()⟩

def St.view (d : Disk) (fs : List (String × String)) (who : String) (s : St) :
    lib.cursor.St Unit (Except String Src) Empty where
  next := s.next
  stop := false
  err := none
  out := s.out
  ts := s.ts.map (At.view (alone d fs who))
  ended := s.ended.map fun i => (i, .ok (alone d fs who i))
  threw := s.threw
  refused := s.refused

theorem view_put (s : St) (w : Nat) (a : At) :
    (s.put w a).view d fs who = (s.view d fs who).put w (a.view (alone d fs who)) := by
  simp [St.view, St.put, lib.cursor.St.put, List.map_set]

theorem view_get {w : Nat} {a : At} (hw : s.ts[w]? = some a) :
    (s.view d fs who).ts[w]? = some (a.view (alone d fs who)) := by
  simp [St.view, hw]

theorem view_cancel (f : Nat → Except String Src) (a : At) : (a.cancel).view f = (a.view f).cancel := by
  cases a <;> rfl

theorem alone_get {i : Nat} {f : String × String} (h : fs[i]? = some f) :
    alone d fs who i = fresh d (callOf who f) := by
  simp [alone, h]

/-- A thread at the cursor looks at the flag that no load sets, then claims. -/
theorem view_look {w : Nat} (hw : s.ts[w]? = some .claim) :
    lib.cursor.goStep (mapWork fs.length (alone d fs who)) (s.view d fs who) w =
      some ((s.view d fs who).put w ⟨.claim, ()⟩) := by
  rw [lib.cursor.goStep, view_get hw]
  rfl

theorem view_claim {w : Nat} (hw : s.ts[w]? = some .claim) :
    lib.cursor.goStep (mapWork fs.length (alone d fs who)) ((s.view d fs who).put w ⟨.claim, ()⟩) w =
      some (if s.next < fs.length then
          ({ s.put w (.busy s.next) with next := s.next + 1 } : St).view d fs who
        else ({ s.put w .done with next := s.next + 1 } : St).view d fs who) := by
  have hlt : w < (s.view d fs who).ts.length := (List.getElem?_eq_some_iff.mp (view_get hw)).1
  have hget : ((s.view d fs who).put w ⟨.claim, ()⟩).ts[w]? = some ⟨.claim, ()⟩ :=
    List.getElem?_set_self hlt
  rw [lib.cursor.goStep, hget]
  by_cases hn : s.next < fs.length
  · simp [mapWork, hn, St.view, St.put, lib.cursor.St.put, List.map_set, At.view]
  · simp [mapWork, hn, St.view, St.put, lib.cursor.St.put, List.map_set, At.view]

/-- A step of the call is a run of the `par_map`, and its sections in the cache are not seen. -/
theorem view_moved {a : Act} (h : Serves d fs who s) (hm : Moved d fs who s a s') (k : Nat) :
    ∃ bs, exec (lib.cursor.system (mapWork fs.length (alone d fs who)) k ()) (s.view d fs who) bs =
      some (s'.view d fs who) := by
  cases hm with
  | @enter w hw =>
    refine ⟨[.go w], ?_⟩
    simp only [exec, lib.cursor.system, lib.cursor.step, lib.cursor.goStep, view_get hw, At.view,
      Option.bind_some, view_put]
  | @claim w f x hw hf hx =>
    have hn : s.next < fs.length := (List.getElem?_eq_some_iff.mp hf).1
    refine ⟨[.go w, .go w], ?_⟩
    simp only [exec, lib.cursor.system, lib.cursor.step, view_look hw, view_claim hw, if_pos hn,
      Option.bind_some]
    rfl
  | @drained w hw hnone =>
    have hn : ¬s.next < fs.length := Nat.not_lt.mpr (List.getElem?_eq_none_iff.mp hnone)
    refine ⟨[.go w, .go w], ?_⟩
    simp only [exec, lib.cursor.system, lib.cursor.step, view_look hw, view_claim hw, if_neg hn,
      Option.bind_some]
  | @stored w i r hw hr =>
    obtain ⟨f, hf, hserving⟩ := h.stands w _ hw
    obtain rfl : r = alone d fs who i := by
      rw [hr] at hserving
      cases hserving
      rw [alone_get hf]
    refine ⟨[.go w], ?_⟩
    simp only [exec, lib.cursor.system, lib.cursor.step, lib.cursor.goStep, view_get hw, At.view,
      Option.bind_some]
    simp [St.view, St.put, lib.cursor.St.put, List.map_set, At.view]
  | inside => exact ⟨[], rfl⟩
  | @panic w i x hw hx =>
    refine ⟨[.panic w], ?_⟩
    simp only [exec, lib.cursor.system, lib.cursor.step, lib.cursor.panicStep, view_get hw, At.view,
      Option.bind_some]
    simp [St.view, St.put, lib.cursor.St.put, List.map_set, At.view]
  | @refuse j ts hts =>
    refine ⟨[.refuse j], ?_⟩
    have hview : (s.view d fs who).ts = ⟨.entry, ()⟩ :: ts.map (At.view (alone d fs who)) := by
      rw [St.view, hts]
      rfl
    simp only [exec, lib.cursor.system, lib.cursor.step, lib.cursor.refuseStep, hview, Option.bind_some]
    simp only [St.view, List.map_cons, List.map_append, List.map_map, List.map_take, List.map_drop,
      Function.comp_def, view_cancel]
    rfl
  | other => exact ⟨[], rfl⟩

theorem opens_as_par_map (d : Disk) (fs : List (String × String)) (who : String) (k : Nat) :
    Refines (system d fs who k) (Honest d) (lib.cursor.system (mapWork fs.length (alone d fs who)) k ())
      (St.view d fs who) (Serves d fs who) where
  start := by
    rintro s ⟨x, hx, hknown, hfree, rfl⟩
    refine ⟨serves_start hx hknown hfree, ?_⟩
    simp [lib.cursor.system, lib.cursor.start, St.view, start, At.view]
  step s a t h ha hst := ⟨serves_moved h ha (step_moved hst), view_moved h (step_moved hst) k⟩

/-! ## What the call comes to -/

theorem view_panicked {w : Nat} :
    (∃ t, (s.view d fs who).ts[w]? = some t ∧ t.pc = .panicked) ↔ s.ts[w]? = some .panicked := by
  constructor
  · rintro ⟨t, ht, hpc⟩
    obtain ⟨a, ha, rfl⟩ := Option.map_eq_some_iff.mp ((List.getElem?_map ..).symm.trans ht)
    cases a with
    | panicked => exact ha
    | entry => cases hpc
    | claim => cases hpc
    | busy i => cases hpc
    | done => cases hpc
  · exact fun h => ⟨_, view_get h, rfl⟩

theorem view_unwound : (s.view d fs who).unwound ↔ s.unwound := view_panicked

theorem view_workerPanicked : (s.view d fs who).workerPanicked ↔ s.workerPanicked :=
  exists_congr fun _ => view_panicked

theorem view_over (h : Over s) : lib.cursor.Over (s.view d fs who) := by
  intro t ht
  obtain ⟨a, ha, rfl⟩ := List.mem_map.mp ht
  rcases h a ha with rfl | rfl <;> rfl

/-- The loads that are alone, in the order of the list. -/
theorem range_alone :
    (List.range fs.length).map (alone d fs who) = fs.map fun f => fresh d (callOf who f) := by
  apply List.ext_getElem?
  intro i
  by_cases hi : i < fs.length
  · simp [hi, alone]
  · simp [hi]

theorem collected_alone (hfs : fs ≠ [])
    (h : (List.range fs.length).mapM s.out = some ((List.range fs.length).map (alone d fs who))) :
    collected fs who s = openFiles [] d.look fs who := by
  have hempty : fs.isEmpty = false := by simpa using hfs
  rw [collected, h, range_alone, openFiles, if_neg (by simp [hempty])]
  simp only [List.mapM_map]
  rfl

/-- A load finds in the cache what it would parse. -/
theorem load_known (hkept : footers.Kept x) (hknown : Known d x) (call : footers.Call) :
    (load x.cache call.orig call.path (d.look call.path) call.who).1 = fresh d call := by
  cases hf : d.look call.path with
  | error e =>
    rw [fresh_error hf]
    rfl
  | ok f =>
    rcases hl : lookup x.cache f.key with _ | ⟨e, cache⟩
    · cases hp : parse f call.path call.who with
      | error m =>
        rw [fresh_rejected hf hp]
        simp [load, hl, hp]
      | ok e =>
        rw [footers.Pc.returned.inj (fresh_parsed hf hp)]
        simp [load, hl, hp]
    · have ht : lib.recency.touch Entry.key x.cache f.key = some (e, cache) := lookup_eq x.cache f.key ▸ hl
      rw [footers.Pc.returned.inj (entry_fresh hkept hknown (lib.recency.touch_mem ht) hf
        (lib.recency.touch_key ht).symm)]
      simp [load, hl]

/-- The cache of a state is as good as none. -/
theorem openFiles_known (hkept : footers.Kept x) (hknown : Known d x) (fs : List (String × String))
    (who : String) : openFiles x.cache d.look fs who = openFiles [] d.look fs who := by
  have hloads : (fun f : String × String => (load x.cache f.1 f.2 (d.look f.2) who).1) =
      fun f => (load [] f.1 f.2 (d.look f.2) who).1 :=
    funext fun f => load_known hkept hknown (callOf who f)
  unfold openFiles
  rw [hloads]

theorem open_answers (fs : List (String × String)) (who : String) (s : St) :
    ∃ ans, OpenAnswers fs who s ans := by
  by_cases hfs : fs = []
  · exact ⟨_, .noFiles hfs⟩
  by_cases hu : s.unwound
  · exact ⟨_, .unwound hfs hu⟩
  by_cases hw : s.workerPanicked
  · exact ⟨_, .panicked hfs hu hw⟩
  · exact ⟨_, .collected hfs hu hw⟩

theorem open_calm {k : Nat} (h : Reach (system d fs who k) (Honest d) s) (hover : Over s)
    (hthrew : s.threw = []) (hrefused : s.refused = false) {ans : Answer (Except String FileSet)}
    (hans : OpenAnswers fs who s ans) : ans = .back (openFiles [] d.look fs who) := by
  have hview := ((opens_as_par_map d fs who k).reach h).2
  have hquiet : Calm (s.view d fs who) :=
    (calm_iff (lib.cursor.reachable_sound hview)).mpr ⟨hthrew, hrefused⟩
  have hall := ((map_law hview).calm (view_over hover) hquiet).2
  cases hans with
  | noFiles hfs => rw [openFiles, hfs, List.isEmpty_nil, if_pos rfl]
  | unwound _ hu => exact absurd (view_unwound.mpr hu) hquiet.1
  | panicked _ _ hw => exact absurd (view_workerPanicked.mpr hw) hquiet.2
  | collected hfs hu hw =>
    have hout := hall _ (.collected hquiet.1 hquiet.2)
    rw [collected_alone hfs (Answer.back.inj hout)]

theorem open_panicked {k : Nat} (h : Reach (system d fs who k) (Honest d) s)
    (hbad : s.threw ≠ [] ∨ s.refused = true) (hfs : fs ≠ []) {ans : Answer (Except String FileSet)}
    (hans : OpenAnswers fs who s ans) : ans = .unwound ∨ ans = .back (.error s!"{who}: footer panic") := by
  have hview := ((opens_as_par_map d fs who k).reach h).2
  have hsome : s.unwound ∨ s.workerPanicked :=
    ((lib.cursor.reachable_sound hview).panicked.mpr hbad).imp view_unwound.mp view_workerPanicked.mp
  cases hans with
  | noFiles hnil => exact absurd hnil hfs
  | unwound => exact .inl rfl
  | panicked => exact .inr rfl
  | collected _ hu hw => exact absurd hsome (not_or.mpr ⟨hu, hw⟩)

/-! ## The calling thread alone -/

/-- The sections that are left of a load. -/
def left : footers.Pc → Nat
  | .opened _ _ => 3
  | .missed _ _ => 2
  | .parsed _ _ => 1
  | _ => 0

theorem section_step {t : Nat} (hserving : Serving d call (x.pc t)) :
    x.pc t = .returned (fresh d call) ∨ ∃ a x', sectionOf d t (x.pc t) = some a ∧
      footers.step x a = some x' ∧ left (x'.pc t) < left (x.pc t) := by
  generalize hpc : x.pc t = pc at hserving
  cases hserving with
  | @opened f hf =>
    refine .inr ⟨.look t, footers.lookStep x t call f.key, rfl, by simp [footers.step, hpc], ?_⟩
    unfold footers.lookStep
    split <;> simp [left, footers.Call.gives]
  | @missed f hf =>
    refine .inr ⟨.parse t f.parsed f.tryNew, footers.parseStep x t call f, by simp [sectionOf, hf],
      by simp [footers.step, hpc], ?_⟩
    unfold footers.parseStep
    split <;> simp [left]
  | @parsed f e hf he =>
    refine .inr ⟨.keep t, footers.keepStep x t call e, rfl, by simp [footers.step, hpc], ?_⟩
    simp [left, footers.keepStep, footers.Call.gives]
  | returned => exact .inl rfl

theorem open_step {t : Nat} (hfree : (x.pc t).free = true) (call : footers.Call) :
    ∃ x', footers.step x (.fopen t call ((d.look call.path).map (·.key))) = some x' ∧ left (x'.pc t) ≤ 3 := by
  cases hl : d.look call.path with
  | error e =>
    refine ⟨x.goes t (.returned (.error s!"{call.who}: {call.path}: {e}")), ?_, by simp [left]⟩
    simp [footers.step, hfree, Except.map, footers.openStep]
  | ok f =>
    refine ⟨x.goes t (.opened call f.key), ?_, by simp [left]⟩
    simp [footers.step, hfree, Except.map, footers.openStep, d.keyed _ f hl]

/-- What the calling thread has to go when no other one is there. -/
def toGo (fs : List (String × String)) (s : St) : Nat :=
  6 * (fs.length - s.next) + match s.ts[0]? with
    | some .entry => 2
    | some .claim => 1
    | some (.busy _) => 2 + left (s.footers.pc 0)
    | _ => 0

theorem go_alone (h : Serves d fs who s) {a : At} (hts : s.ts = [a]) (ha : a ≠ .done ∧ a ≠ .panicked) :
    ∃ s' a', goStep d fs who s 0 = some s' ∧ s'.ts = [a'] ∧ a' ≠ .panicked ∧ s'.threw = s.threw ∧
      s'.refused = s.refused ∧ toGo fs s' < toGo fs s := by
  have hget : s.ts[0]? = some a := by rw [hts]; rfl
  have hstands := h.stands 0 a hget
  unfold goStep
  rw [hget]
  cases a with
  | entry =>
    exact ⟨_, .claim, rfl, by simp [St.put, hts], by simp, rfl, rfl, by simp [toGo, St.put, hts]⟩
  | claim =>
    cases hf : fs[s.next]? with
    | none =>
      refine ⟨_, .done, rfl, by simp [St.put, hts], by simp, rfl, rfl, ?_⟩
      simp [toGo, St.put, hts]
      omega
    | some f =>
      have hlt := (List.getElem?_eq_some_iff.mp hf).1
      obtain ⟨x', hx, hle⟩ := open_step (d := d) hstands (callOf who f)
      refine ⟨{ s.put 0 (.busy s.next) with next := s.next + 1, footers := x' }, .busy s.next, ?_,
        by simp [St.put, hts], by simp, rfl, rfl, ?_⟩
      · show (footers.step s.footers (.fopen 0 (callOf who f) ((d.look f.2).map (·.key)))).map _ = _
        rw [show footers.step s.footers (.fopen 0 (callOf who f) ((d.look f.2).map (·.key))) = some x' from hx]
        rfl
      · have hgo : toGo fs { s.put 0 (.busy s.next) with next := s.next + 1, footers := x' } =
            6 * (fs.length - (s.next + 1)) + (2 + left (x'.pc 0)) := by
          simp [toGo, St.put, hts]
        have hgo' : toGo fs s = 6 * (fs.length - s.next) + 1 := by simp [toGo, hts]
        omega
  | busy i =>
    obtain ⟨f, hf, hserving⟩ := hstands
    rcases section_step hserving with hret | ⟨a, x', ha', hx, hlt⟩
    · rw [hret]
      refine ⟨_, .claim, rfl, by simp [St.put, hts], by simp, rfl, rfl, ?_⟩
      simp [toGo, St.put, hts]
      exact Nat.lt_of_lt_of_le Nat.one_lt_two (Nat.le_add_right 2 _)
    · refine ⟨{ s with footers := x' }, .busy i, ?_, hts, by simp, rfl, rfl, ?_⟩
      · cases hpc : s.footers.pc 0 with
        | returned r =>
          rw [hpc] at ha'
          cases ha'
        | _ =>
          rw [hpc] at ha'
          simp only [ha', Option.bind_some, hx, Option.map_some]
      · simp [toGo, hts]
        omega
  | done => exact absurd rfl ha.1
  | panicked => exact absurd rfl ha.2

/-- The calling thread opens the files when no other one comes in between. -/
theorem open_alone (h : Reach (system d fs who 0) (Honest d) s) {a : At} (hts : s.ts = [a])
    (ha : a ≠ .panicked) (hthrew : s.threw = []) (hrefused : s.refused = false) :
    ∃ s', Reach (system d fs who 0) (Honest d) s' ∧ Over s' ∧ s'.threw = [] ∧ s'.refused = false := by
  generalize hn : toGo fs s = n
  induction n using Nat.strong_induction_on generalizing s a with
  | _ n ih =>
    by_cases hdone : a = .done
    · refine ⟨s, h, fun b hb => ?_, hthrew, hrefused⟩
      rw [hts, List.mem_singleton] at hb
      exact .inl (hb.trans hdone)
    · obtain ⟨s', a', hgo, hts', ha', hthrew', hrefused', hlt⟩ :=
        go_alone ((opens_as_par_map d fs who 0).reach h).1 hts ⟨hdone, ha⟩
      exact ih _ (hn ▸ hlt) (h.next (a := .go 0) trivial hgo) hts' ha' (hthrew'.trans hthrew)
        (hrefused'.trans hrefused) rfl

/-! ## The law of `open` -/

/-- However the loads of an `open` fall between each other and those of other threads, and whatever
the cache has kept, the call answers what one load after the other would parse, as soon as the keys
of the parsed files say what is in them. A parse that panics, or a thread that does not start, is
the one other end. -/
theorem the_files_are_opened_as_one_after_the_other {k : Nat}
    (h : Reach (system d fs who k) (Honest d) s) (hover : Over s) :
    (∃ ans, OpenAnswers fs who s ans) ∧
    (s.threw = [] → s.refused = false →
      ∀ ans, OpenAnswers fs who s ans → ans = .back (openFiles [] d.look fs who)) ∧
    (s.threw ≠ [] ∨ s.refused = true → fs ≠ [] →
      ∀ ans, OpenAnswers fs who s ans → ans = .unwound ∨ ans = .back (.error s!"{who}: footer panic")) ∧
    openFiles s.footers.cache d.look fs who = openFiles [] d.look fs who := by
  have hserves := ((opens_as_par_map d fs who k).reach h).1
  refine ⟨open_answers fs who s, ?_, ?_, openFiles_known hserves.kept hserves.known fs who⟩
  · intro hthrew hrefused ans hans
    exact open_calm h hover hthrew hrefused hans
  · intro hbad hfs ans hans
    exact open_panicked h hbad hfs hans

/-- A file of seven rows at either of two paths. -/
def sevens : Disk where
  look path :=
    if path = "a" ∨ path = "b" then
      .ok ⟨⟨path, 1, 2, 300, (4, 5)⟩, .ok ⟨[], [], [⟨7, []⟩], 7⟩, fun _ => none⟩
    else .error "not found"
  keyed path f h := by
    split at h
    · cases h
      rfl
    · cases h

/-- Both loads miss before either of them parses, and another thread hits what the first one kept. -/
def sevensRun : List Act :=
  [.go 0, .go 1, .go 1, .go 0, .go 0, .go 1, .go 1, .go 1,
    .other (.fopen 7 ⟨"a", "a", "pq_meta"⟩ (.ok ⟨"a", 1, 2, 300, (4, 5)⟩)), .other (.look 7),
    .go 0, .go 0, .go 0, .go 1, .go 0, .go 1]

theorem two_files_are_opened_together :
    ∃ s, exec (system sevens [("`:a", "a"), ("`:b", "b")] "pq_read" 1) (start 1 footers.St.new) sevensRun =
        some s ∧
      (openFiles [] sevens.look [("`:a", "a"), ("`:b", "b")] "pq_read").map (·.rows) = .ok 14 ∧
      ∀ ans, OpenAnswers [("`:a", "a"), ("`:b", "b")] "pq_read" s ans →
        ans = .back (openFiles [] sevens.look [("`:a", "a"), ("`:b", "b")] "pq_read") := by
  refine ⟨_, rfl, rfl, ?_⟩
  have hstart : Reach (system sevens [("`:a", "a"), ("`:b", "b")] "pq_read" 1) (Honest sevens)
      (start 1 footers.St.new) :=
    .start ⟨footers.St.new, .start rfl, nofun, fun _ _ => rfl, rfl⟩
  have hreach := hstart.exec sevensRun (by simp [sevensRun, Honest]) rfl
  exact (the_files_are_opened_as_one_after_the_other hreach (by decide)).2.1 rfl rfl

end parquet_interop.opening
