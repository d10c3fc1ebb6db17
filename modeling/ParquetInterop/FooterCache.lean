-- The footer cache under any number of threads: the lookup and the insertion of
-- one `load` are two critical sections, and other threads step between them.
-- Whatever the order, the cache holds what was parsed, by its latest use.
import ParquetInterop.Lib.Recency
import ParquetInterop.Lib.Runs
import ParquetInterop.Footer

open lib.recency lib.runs
open parquet_interop.footer

namespace parquet_interop.footers

/-! ## The threads -/

/-- The arguments of one `load`. -/
structure Call where
  orig : String
  path : String
  who : String

/-- Where a thread stands. Between `missed` and `parsed` it holds no lock. -/
inductive Pc where
  | idle
  | opened (call : Call) (key : Key)
  | missed (call : Call) (key : Key)
  | parsed (call : Call) (e : Entry)
  | returned (r : Except String Src)

/-- The thread can begin a call. -/
def Pc.free : Pc → Bool
  | .idle | .returned _ => true
  | _ => false

/-- The cache and the threads. The rest is their history: the files that were parsed, the number
of hits and insertions, and which of them was the latest of each key. -/
structure St where
  cache : List Entry
  pc : Nat → Pc
  read : List OpenFile
  now : Nat
  last : Key → Nat

/-- What a thread does, with what the file system and the crate answer. No code under the lock
panics, so the lock is never poisoned. -/
inductive Act where
  | fopen (t : Nat) (call : Call) (key : Except String Key)
  | look (t : Nat)
  | parse (t : Nat) (parsed : Except String Md) (tryNew : List Field → Option Md)
  | unwind (t : Nat)
  | keep (t : Nat)

def St.goes (s : St) (t : Nat) (p : Pc) : St := { s with pc := Function.update s.pc t p }

/-- A hit or an insertion of `key`. -/
def St.uses (s : St) (cache : List Entry) (key : Key) : St :=
  { s with cache, now := s.now + 1, last := Function.update s.last key (s.now + 1) }

@[simp] theorem goes_self (s : St) (t : Nat) (p : Pc) : (s.goes t p).pc t = p := by
  simp [St.goes]

theorem goes_of_ne (s : St) {t t' : Nat} (p : Pc) (h : t' ≠ t) : (s.goes t p).pc t' = s.pc t' := by
  simp [St.goes, h]

theorem uses_of_ne (s : St) (cache : List Entry) {key k : Key} (h : k ≠ key) :
    (s.uses cache key).last k = s.last k := by
  simp [St.uses, h]

def Call.gives (call : Call) (e : Entry) : Pc :=
  .returned (.ok (footer.mk call.orig call.path e.md e.rg_rows))

/-- The key has the path that was opened. -/
def openStep (s : St) (t : Nat) (call : Call) : Except String Key → Option St
  | .error e => some (s.goes t (.returned (.error s!"{call.who}: {call.path}: {e}")))
  | .ok key => if key.path = call.path then some (s.goes t (.opened call key)) else none

def lookStep (s : St) (t : Nat) (call : Call) (key : Key) : St :=
  match lookup s.cache key with
  | some (e, cache) => (s.uses cache key).goes t (call.gives e)
  | none => s.goes t (.missed call key)

def parseStep (s : St) (t : Nat) (call : Call) (f : OpenFile) : St :=
  let s := { s with read := f :: s.read }
  match footer.parse f call.path call.who with
  | .error e => s.goes t (.returned (.error e))
  | .ok e => s.goes t (.parsed call e)

def keepStep (s : St) (t : Nat) (call : Call) (e : Entry) : St :=
  let cache := footer.insert s.cache e
  let s := if s.cache.any (·.key = e.key) then { s with cache } else s.uses cache e.key
  s.goes t (call.gives e)

def step (s : St) : Act → Option St
  | .fopen t call key => if (s.pc t).free then openStep s t call key else none
  | .look t =>
    match s.pc t with
    | .opened call key => some (lookStep s t call key)
    | _ => none
  | .parse t parsed tryNew =>
    match s.pc t with
    | .missed call key => some (parseStep s t call ⟨key, parsed, tryNew⟩)
    | _ => none
  | .unwind t =>
    match s.pc t with
    | .missed _ _ => some (s.goes t .idle)
    | _ => none
  | .keep t =>
    match s.pc t with
    | .parsed call e => some (keepStep s t call e)
    | _ => none

def St.new : St where
  cache := []
  pc _ := .idle
  read := []
  now := 0
  last _ := 0

def threads : System St Act where
  init s := s = St.new
  step := step

/-! ## What a step does -/

variable {s s' : St} {a : Act}

theorem insert_known {c : List Entry} {e : Entry} (h : c.any (·.key = e.key) = true) :
    footer.insert c e = c := by simp [footer.insert, h]

theorem insert_new {c : List Entry} {e : Entry} (h : c.any (·.key = e.key) = false) :
    footer.insert c e = push FOOTERS_MAX c e := by simp [footer.insert, push, h]

/-- What a thread can do, one case for each outcome. -/
inductive Moved (s : St) : Act → St → Prop
  | unopened (t : Nat) (call : Call) (e m : String) :
      Moved s (.fopen t call (.error e)) (s.goes t (.returned (.error m)))
  | fopen (t : Nat) (call : Call) (key : Key) : key.path = call.path →
      Moved s (.fopen t call (.ok key)) (s.goes t (.opened call key))
  | hit (t : Nat) (call : Call) (key : Key) (e : Entry) (cache : List Entry) :
      s.pc t = .opened call key → touch Entry.key s.cache key = some (e, cache) →
      Moved s (.look t) ((s.uses cache key).goes t (call.gives e))
  | miss (t : Nat) (call : Call) (key : Key) : s.pc t = .opened call key →
      Moved s (.look t) (s.goes t (.missed call key))
  | reject (t : Nat) (f : OpenFile) (m : String) :
      Moved s (.parse t f.parsed f.tryNew)
        ({ s with read := f :: s.read }.goes t (.returned (.error m)))
  | parse (t : Nat) (call : Call) (f : OpenFile) (e : Entry) :
      footer.parse f call.path call.who = .ok e →
      Moved s (.parse t f.parsed f.tryNew) ({ s with read := f :: s.read }.goes t (.parsed call e))
  | unwind (t : Nat) : Moved s (.unwind t) (s.goes t .idle)
  | known (t : Nat) (call : Call) (e : Entry) : s.pc t = .parsed call e →
      Moved s (.keep t) (s.goes t (call.gives e))
  | keep (t : Nat) (call : Call) (e : Entry) : s.pc t = .parsed call e →
      (∀ x ∈ s.cache, x.key ≠ e.key) →
      Moved s (.keep t) ((s.uses (push FOOTERS_MAX s.cache e) e.key).goes t (call.gives e))

theorem step_moved (h : step s a = some s') : Moved s a s' := by
  cases a with
  | fopen t call key =>
    simp only [step] at h
    split at h
    · cases key with
      | error e => exact Option.some.inj h ▸ .unopened t call e _
      | ok key =>
        simp only [openStep] at h
        split at h
        · rename_i hpath
          exact Option.some.inj h ▸ .fopen t call key hpath
        · cases h
    · cases h
  | look t =>
    simp only [step] at h
    split at h
    · rename_i call key hpc
      rw [lookStep] at h
      split at h
      · rename_i e cache hl
        rw [lookup_eq] at hl
        exact Option.some.inj h ▸ .hit t call key e cache hpc hl
      · exact Option.some.inj h ▸ .miss t call key hpc
    · cases h
  | parse t parsed tryNew =>
    simp only [step] at h
    split at h
    · rename_i call key _
      simp only [parseStep] at h
      split at h
      · rename_i m _
        exact Option.some.inj h ▸ .reject t ⟨key, parsed, tryNew⟩ m
      · rename_i e he
        exact Option.some.inj h ▸ .parse t call ⟨key, parsed, tryNew⟩ e he
    · cases h
  | unwind t =>
    simp only [step] at h
    split at h
    · exact Option.some.inj h ▸ .unwind t
    · cases h
  | keep t =>
    simp only [step] at h
    split at h
    · rename_i call e hpc
      simp only [keepStep] at h
      split at h
      · rename_i hknown
        rw [insert_known hknown] at h
        exact Option.some.inj h ▸ .known t call e hpc
      · rename_i hnew
        rw [Bool.not_eq_true] at hnew
        rw [insert_new hnew] at h
        have hkeys : ∀ x ∈ s.cache, x.key ≠ e.key := by simpa using hnew
        exact Option.some.inj h ▸ .keep t call e hpc hkeys
    · cases h

/-! ## What every step keeps -/

/-- `e` is what parsing a file that was opened under its key gave. -/
def Given (read : List OpenFile) (e : Entry) : Prop :=
  ∃ f ∈ read, f.key = e.key ∧ ∃ path who, footer.parse f path who = .ok e

theorem Given.more {read : List OpenFile} {e : Entry} (h : Given read e) (f : OpenFile) :
    Given (f :: read) e := by
  obtain ⟨g, hg, hrest⟩ := h
  exact ⟨g, List.mem_cons_of_mem f hg, hrest⟩

theorem parse_key {f : OpenFile} {path who : String} {e : Entry}
    (h : footer.parse f path who = .ok e) : e.key = f.key := by
  unfold footer.parse at h
  split at h
  · cases h
  · simp only at h
    split at h
    · cases h
    · cases h
      rfl

theorem Given.accepted {read : List OpenFile} {e : Entry} (h : Given read e) :
    Accepted e.md e.rg_rows := by
  obtain ⟨f, _, _, path, who, hp⟩ := h
  exact parse_accepted hp

/-- What holds of the cache between any two critical sections. -/
structure Kept (s : St) : Prop where
  fits : Fits Entry.key FOOTERS_MAX s.cache
  order : Ordered Entry.key s.last s.cache
  clock : ∀ k, s.last k ≤ s.now
  given : ∀ e ∈ s.cache, Given s.read e
  parsed : ∀ t call e, s.pc t = .parsed call e → Given s.read e

theorem kept_new : Kept St.new where
  fits := fits_nil _ _
  order := List.Pairwise.nil
  clock _ := Nat.le_refl 0
  given e he := by cases he
  parsed t call e h := by cases h

/-- A thread that goes on keeps what holds, when what it parsed was read. -/
theorem Kept.goes (h : Kept s) (t : Nat) {p : Pc}
    (hp : ∀ call e, p = .parsed call e → Given s.read e) : Kept (s.goes t p) where
  fits := h.fits
  order := h.order
  clock := h.clock
  given := h.given
  parsed t' call e ht := by
    by_cases htt : t' = t
    · subst htt
      rw [goes_self] at ht
      exact hp call e ht
    · rw [goes_of_ne s p htt] at ht
      exact h.parsed t' call e ht

theorem Kept.reads (h : Kept s) (f : OpenFile) : Kept { s with read := f :: s.read } where
  fits := h.fits
  order := h.order
  clock := h.clock
  given e he := (h.given e he).more f
  parsed t call e ht := (h.parsed t call e ht).more f

/-- The latest use is later than the others. -/
theorem Kept.later (h : Kept s) (key : Key) : s.last key < s.now + 1 := by
  have := h.clock key
  omega

theorem Kept.uses (h : Kept s) {cache : List Entry} {key : Key}
    (hfits : Fits Entry.key FOOTERS_MAX cache)
    (horder : Ordered Entry.key (Function.update s.last key (s.now + 1)) cache)
    (hgiven : ∀ e ∈ cache, Given s.read e) : Kept (s.uses cache key) where
  fits := hfits
  order := horder
  clock k := by
    by_cases hk : k = key
    · subst hk
      simp [St.uses]
    · rw [uses_of_ne s cache hk]
      exact Nat.le_of_lt (h.later k)
  given := hgiven
  parsed := h.parsed

theorem Kept.hit (h : Kept s) {key : Key} {e : Entry} {cache : List Entry}
    (ht : touch Entry.key s.cache key = some (e, cache)) : Kept (s.uses cache key) := by
  apply h.uses
  · exact h.fits.touch ht
  · exact h.order.touch h.fits.distinct (fun x _ => h.later x.key) ht
  · intro x hx
    exact h.given x ((touch_perm ht).subset hx)

theorem Kept.keep (h : Kept s) {e : Entry} (hgiven : Given s.read e)
    (hnew : ∀ x ∈ s.cache, x.key ≠ e.key) :
    Kept (s.uses (push FOOTERS_MAX s.cache e) e.key) := by
  apply h.uses
  · exact h.fits.push (by simp [FOOTERS_MAX]) hnew
  · exact h.order.push hnew fun x _ => h.later x.key
  · intro x hx
    rcases mem_push hx with rfl | hx
    · exact hgiven
    · exact h.given x hx

theorem kept_step (h : Kept s) (hst : step s a = some s') : Kept s' := by
  cases step_moved hst with
  | unopened t => exact h.goes t (by simp)
  | fopen t => exact h.goes t (by simp)
  | hit t call key e cache _ ht => exact (h.hit ht).goes t (by simp [Call.gives])
  | miss t => exact h.goes t (by simp)
  | reject t f => exact (h.reads f).goes t (by simp)
  | parse t call f e hp =>
    apply (h.reads f).goes t
    intro call' e' heq
    cases heq
    exact ⟨f, List.mem_cons_self, (parse_key hp).symm, call.path, call.who, hp⟩
  | unwind t => exact h.goes t (by simp)
  | known t => exact h.goes t (by simp [Call.gives])
  | keep t call e hpc hnew =>
    exact (h.keep (h.parsed t call e hpc) hnew).goes t (by simp [Call.gives])

theorem Reachable.kept (h : Reachable threads s) : Kept s := by
  apply h.invariant
  · rintro s rfl
    exact kept_new
  · intro s a t _ hk _ hst
    exact kept_step hk hst

/-! ## One thread alone -/

@[simp] theorem goes_goes (s : St) (t : Nat) (p q : Pc) : (s.goes t p).goes t q = s.goes t q := by
  simp [St.goes]

/-- A thread that is not disturbed answers what `load` answers, and leaves its cache. -/
theorem load_exec (s : St) {t : Nat} (ht : (s.pc t).free = true) (call : Call)
    (f : Except String OpenFile) (hpath : ∀ g, f = .ok g → g.key.path = call.path) :
    ∃ as s', exec threads s as = some s' ∧
      s'.pc t = .returned (load s.cache call.orig call.path f call.who).1 ∧
      s'.cache = (load s.cache call.orig call.path f call.who).2 := by
  rcases f with e | g
  · refine ⟨[.fopen t call (.error e)], s.goes t (.returned (.error _)), ?_, goes_self s t _, rfl⟩
    simp [exec, threads, step, ht, openStep]
  have hopen : step s (.fopen t call (.ok g.key)) = some (s.goes t (.opened call g.key)) := by
    simp [step, ht, openStep, hpath g rfl]
  have hlook : step (s.goes t (.opened call g.key)) (.look t) =
      some (lookStep (s.goes t (.opened call g.key)) t call g.key) := by
    simp [step]
  rcases hl : lookup s.cache g.key with _ | ⟨e, cache⟩
  · have hmiss : lookStep (s.goes t (.opened call g.key)) t call g.key =
        s.goes t (.missed call g.key) := by
      rw [lookStep]
      simp only [St.goes, hl, Function.update_idem]
    have hparse : step (s.goes t (.missed call g.key)) (.parse t g.parsed g.tryNew) =
        some (parseStep (s.goes t (.missed call g.key)) t call g) := by
      simp [step]
    rcases hp : footer.parse g call.path call.who with m | e
    · refine ⟨[.fopen t call (.ok g.key), .look t, .parse t g.parsed g.tryNew],
        parseStep (s.goes t (.missed call g.key)) t call g, ?_, ?_, ?_⟩
      · simp [exec, threads, hopen, hlook, hmiss, hparse]
      · simp [parseStep, load, hl, hp]
      · simp [parseStep, load, hl, hp, St.goes]
    · have hkeep : step (parseStep (s.goes t (.missed call g.key)) t call g) (.keep t) =
          some (keepStep (parseStep (s.goes t (.missed call g.key)) t call g) t call e) := by
        simp [step, parseStep, hp]
      refine ⟨[.fopen t call (.ok g.key), .look t, .parse t g.parsed g.tryNew, .keep t],
        keepStep (parseStep (s.goes t (.missed call g.key)) t call g) t call e, ?_, ?_, ?_⟩
      · simp [exec, threads, hopen, hlook, hmiss, hparse, hkeep]
      · simp [keepStep, load, hl, hp, Call.gives]
      · simp only [keepStep, parseStep, load, hl, hp, St.goes, St.uses]
        split <;> rfl
  · refine ⟨[.fopen t call (.ok g.key), .look t],
      lookStep (s.goes t (.opened call g.key)) t call g.key, ?_, ?_, ?_⟩
    · simp [exec, threads, hopen, hlook]
    · simp [lookStep, load, hl, Call.gives, St.goes]
    · simp [lookStep, load, hl, Call.gives, St.goes, St.uses]

/-! ## The law of the footer cache -/

/-- Footers that do not pass the check are not in the cache. -/
theorem Kept.rejected (h : Kept s) {f : OpenFile} {path who m : String} {base : Md}
    (hrej : footer.parse f path who = .error m) (hbase : f.parsed = .ok base) :
    ∀ e ∈ s.cache, e.md ≠ hinted f base := by
  rintro e he heq
  obtain ⟨hcounts, hdeclared⟩ := (h.given e he).accepted
  rw [heq] at hcounts hdeclared
  simp [footer.parse, hbase, ← hcounts, hdeclared] at hrej

/-- A lookup that answers has an entry of the key, and answers that entry. -/
theorem look_hit {t : Nat} {call : Call} {key : Key} {src : Src}
    (hpc : s.pc t = .opened call key) (hst : step s (.look t) = some s')
    (hret : s'.pc t = .returned (.ok src)) :
    ∃ e ∈ s.cache, e.key = key ∧ src = footer.mk call.orig call.path e.md e.rg_rows := by
  cases step_moved hst with
  | hit t call' key' e cache hpc' hl =>
    rw [hpc] at hpc'
    cases hpc'
    simp only [goes_self, Call.gives, Pc.returned.injEq, Except.ok.injEq] at hret
    exact ⟨e, touch_mem hl, touch_key hl, hret.symm⟩
  | miss =>
    simp at hret

/-- Only an insertion drops an entry, and it drops the one that was used before the others. -/
theorem Kept.evicts (h : Kept s) (hst : step s a = some s') {e : Entry} (he : e ∈ s.cache)
    (hgone : e ∉ s'.cache) : ∀ x ∈ s.cache, x ≠ e → s.last e.key < s.last x.key := by
  cases step_moved hst with
  | keep t call e' _ hnew => exact h.order.dropped h.fits.bound he hgone
  | hit t call key e' cache _ hl => exact absurd ((touch_perm hl).symm.subset he) hgone
  | _ => exact absurd he hgone

theorem the_cache_holds_what_was_parsed_by_its_latest_use (h : Reachable threads s) :
    (s.cache.map (·.key)).Nodup ∧ s.cache.length ≤ FOOTERS_MAX ∧
      (∀ e ∈ s.cache, Given s.read e ∧ Accepted e.md e.rg_rows) ∧
      (∀ f path who m base, footer.parse f path who = .error m → f.parsed = .ok base →
        ∀ e ∈ s.cache, e.md ≠ hinted f base) ∧
      (∀ t call key s' src, s.pc t = .opened call key → step s (.look t) = some s' →
        s'.pc t = .returned (.ok src) →
        ∃ e ∈ s.cache, e.key = key ∧ src = footer.mk call.orig call.path e.md e.rg_rows) ∧
      Ordered Entry.key s.last s.cache ∧
      ∀ a s', step s a = some s' → ∀ e ∈ s.cache, e ∉ s'.cache →
        ∀ x ∈ s.cache, x ≠ e → s.last e.key < s.last x.key := by
  have hk := Reachable.kept h
  refine ⟨hk.fits.distinct, hk.fits.bound, ?_, ?_, ?_, hk.order, ?_⟩
  · intro e he
    exact ⟨hk.given e he, (hk.given e he).accepted⟩
  · intro f path who m base hrej hbase
    exact hk.rejected hrej hbase
  · intro t call key s' src hpc hst hret
    exact look_hit hpc hst hret
  · intro a s' hst e he hgone
    exact hk.evicts hst he hgone

/-- Two threads miss on one file before either of them has parsed it. -/
def twoMisses : List Act :=
  let call : Call := ⟨"a", "a", "pq_read"⟩
  let key : Key := ⟨"a", 1, 2, 300, (4, 5)⟩
  let md : Md := ⟨[], [], [⟨7, []⟩], 7⟩
  [.fopen 0 call (.ok key), .fopen 1 call (.ok key), .look 0, .look 1,
    .parse 0 (.ok md) fun _ => none, .parse 1 (.ok md) fun _ => none, .keep 1, .keep 0]

theorem two_misses_keep_one_entry : ∃ s, exec threads St.new twoMisses = some s ∧
    s.cache.map (·.rg_rows) = [[7]] ∧ s.now = 1 ∧ s.read.length = 2 ∧
    (s.cache.map (·.key)).Nodup ∧ ∀ e ∈ s.cache, Given s.read e ∧ Accepted e.md e.rg_rows := by
  refine ⟨_, rfl, rfl, rfl, rfl, ?_⟩
  have hreach : Reachable threads _ := Reachable.exec (.start rfl) twoMisses rfl
  have h := the_cache_holds_what_was_parsed_by_its_latest_use hreach
  exact ⟨h.1, h.2.2.1⟩

end parquet_interop.footers
