-- One worker and its symbol caches through a whole run: arrays come and go at
-- their addresses, a memo keeps the arrays that it names alive, and every call
-- answers what it would answer without a cache.
import ParquetInterop.Lib.Runs
import ParquetInterop.Landing

open lib.recency lib.runs
open parquet_interop.ffi parquet_interop.read

namespace parquet_interop.symbols

/-! ## The worker -/

/-- A dictionary array: its values as `utf8_of` casts them, and the union of its column. -/
structure DictArray where
  values : Except String (List (Option String))
  codes : Codes

/-- The array last put at each address, how many owners an array has outside of the caches, and
the caches. -/
structure St where
  mem : ArrayId → DictArray
  owners : ArrayId → Nat
  sy : SymCache

inductive Act where
  | alloc (a : ArrayId) (v : DictArray)
  | clone (a : ArrayId)
  | drop (a : ArrayId)
  | get (b : List UInt8)
  | dictTable (a : ArrayId)
  | lut (a : ArrayId)

def St.heap (s : St) : Heap := fun a => (s.mem a).values

/-- Someone owns an `Arc` of the array: an owner outside, or an entry of a memo. -/
def St.alive (s : St) (a : ArrayId) : Bool :=
  0 < s.owners a ∨ a ∈ s.sy.dicts.map (·.1) ∨ a ∈ s.sy.luts.map (·.1)

/-- No array is put where one is alive, and a call has an array that its caller owns. The symbol
for a null is the one that `get` answers for no bytes. -/
def step (s : St) : Act → Option St
  | .alloc a v =>
    if s.alive a then none
    else some { s with mem := Function.update s.mem a v, owners := Function.update s.owners a 1 }
  | .clone a =>
    if 0 < s.owners a then some { s with owners := Function.update s.owners a (s.owners a + 1) }
    else none
  | .drop a =>
    if 0 < s.owners a then some { s with owners := Function.update s.owners a (s.owners a - 1) }
    else none
  | .get b => some { s with sy := (s.sy.get b).2 }
  | .dictTable a =>
    if 0 < s.owners a then some { s with sy := (s.sy.dictTable s.heap a (intern [])).2 } else none
  | .lut a =>
    if 0 < s.owners a then some { s with sy := (s.sy.lut s.heap a (s.mem a).codes).2 } else none

def worker : System St Act where
  init s := s.sy = SymCache.new ∧ ∀ a, s.owners a = 0
  step := step

/-! ## The memos -/

section
variable {T : Type} {memo memo' : List (ArrayId × T)} {id : ArrayId} {t : T}

theorem memo_hit_fits (h : Fits Prod.fst DICTS memo) (hm : memoHit memo id = some (t, memo')) :
    Fits Prod.fst DICTS memo' := by
  obtain ⟨e, ht, _⟩ := memoHit_touch hm
  exact h.touch ht

theorem memo_insert_fits (h : Fits Prod.fst DICTS memo) (hm : memoHit memo id = none) :
    Fits Prod.fst DICTS (memoInsert memo id t) := by
  apply h.push
  · decide
  · intro x hx
    exact memoHit_none hm x hx

end

/-! ## What a call keeps -/

/-- The symbol of a dictionary value. A null is the empty symbol. -/
def symbolOf : Option String → Sym
  | none => intern []
  | some v => intern (utf8Bytes v)

theorem symbolOf_eq : symbolOf = fun v => intern ((v.map utf8Bytes).getD []) := by
  funext v
  cases v <;> rfl

theorem dictTable_answer {heap : Heap} {sy : SymCache} (h : sy.Coherent heap) (id : ArrayId) :
    (sy.dictTable heap id (intern [])).1 = (heap id).map (·.map symbolOf) ∧
      (sy.dictTable heap id (intern [])).2.Coherent heap := by
  rcases hv : heap id with e | vs
  · -- A dictionary that `utf8_of` refuses has no entry.
    have hmiss : memoHit sy.dicts id = none := by
      rw [Option.eq_none_iff_forall_ne_some]
      rintro ⟨t, dicts⟩ hm
      obtain ⟨us, hus, _⟩ := h.dicts id t (memoHit_mem hm).1
      rw [hv] at hus
      cases hus
    simp only [SymCache.dictTable, hmiss, hv]
    exact ⟨rfl, h⟩
  · rw [symbolOf_eq]
    exact dictTable_spec h hv

/-- What holds between any two calls: the entries of the memos are the tables of the arrays at
their addresses. -/
structure Kept (s : St) : Prop where
  coherent : s.sy.Coherent s.heap
  luts : ∀ id t, (id, t) ∈ s.sy.luts → ∃ vs, s.heap id = .ok vs ∧ t = lutOf (s.mem id).codes vs
  dictsFit : Fits Prod.fst DICTS s.sy.dicts
  lutsFit : Fits Prod.fst DICTS s.sy.luts

variable {s s' : St} {a : Act}

theorem Kept.of_owners (h : Kept s) (owners : ArrayId → Nat) : Kept { s with owners } :=
  ⟨h.coherent, h.luts, h.dictsFit, h.lutsFit⟩

theorem kept_new (h : worker.init s) : Kept s := by
  obtain ⟨mem, owners, sy⟩ := s
  obtain ⟨rfl, _⟩ := h
  exact ⟨coherent_new _, fun id t ht => (by cases ht), fits_nil _ _, fits_nil _ _⟩

theorem Kept.alloc (h : Kept s) {id : ArrayId} (v : DictArray) (hfree : s.alive id = false)
    (owners : ArrayId → Nat) : Kept { s with mem := Function.update s.mem id v, owners } := by
  simp only [St.alive, decide_eq_false_iff_not, not_or] at hfree
  obtain ⟨_, hdicts, hluts⟩ := hfree
  refine ⟨⟨h.coherent.slots, fun id' t ht => ?_⟩, fun id' t ht => ?_, h.dictsFit, h.lutsFit⟩
  · -- An entry keeps its array alive, so the new array is at another address.
    have hne : id' ≠ id := by
      rintro rfl
      exact hdicts (List.mem_map_of_mem ht)
    simp only [St.heap, Function.update_of_ne hne]
    exact h.coherent.dicts id' t ht
  · have hne : id' ≠ id := by
      rintro rfl
      exact hluts (List.mem_map_of_mem ht)
    simp only [St.heap, Function.update_of_ne hne]
    exact h.luts id' t ht

theorem Kept.get (h : Kept s) (b : List UInt8) : Kept { s with sy := (s.sy.get b).2 } := by
  obtain ⟨slots, hget⟩ := get_slots s.sy b
  refine ⟨(get_spec h.coherent b).2, ?_, ?_, ?_⟩
  · rw [hget]
    exact h.luts
  · rw [hget]
    exact h.dictsFit
  · rw [hget]
    exact h.lutsFit

theorem Kept.dictTable (h : Kept s) (id : ArrayId) :
    Kept { s with sy := (s.sy.dictTable s.heap id (intern [])).2 } := by
  refine ⟨(dictTable_answer h.coherent id).2, ?_, ?_, ?_⟩
  · simp only [dictTable_luts]
    exact h.luts
  · unfold SymCache.dictTable
    split
    · rename_i t dicts hm
      exact memo_hit_fits h.dictsFit hm
    · rename_i hm
      rcases s.heap id with e | vs
      · exact h.dictsFit
      · obtain ⟨slots, hall⟩ := getAll_slots s.sy (intern []) vs
        simp only [hall]
        exact memo_insert_fits h.dictsFit hm
  · simp only [dictTable_luts]
    exact h.lutsFit

/-- `lut` against the union of the array itself. -/
theorem Kept.lut_table (h : Kept s) (id : ArrayId) :
    (s.sy.lut s.heap id (s.mem id).codes).1 = (s.heap id).map (lutOf (s.mem id).codes) ∧
      ∀ id' t, (id', t) ∈ (s.sy.lut s.heap id (s.mem id).codes).2.luts →
        ∃ vs, s.heap id' = .ok vs ∧ t = lutOf (s.mem id').codes vs := by
  have hone : ∀ id cd cd', cd = (s.mem id).codes → cd' = (s.mem id).codes → cd = cd' := by
    rintro id cd cd' rfl rfl
    rfl
  obtain ⟨hans, hl⟩ := read.lut_table hone (fun id t ht cd hcd => hcd ▸ h.luts id t ht) (rfl : _ = _)
  exact ⟨hans, fun id' t ht => hl id' t ht _ rfl⟩

theorem Kept.lut (h : Kept s) (id : ArrayId) :
    Kept { s with sy := (s.sy.lut s.heap id (s.mem id).codes).2 } := by
  obtain ⟨luts, hluts⟩ := lut_luts s.heap s.sy id (s.mem id).codes
  refine ⟨?_, (h.lut_table id).2, ?_, ?_⟩
  · rw [hluts]
    exact ⟨h.coherent.slots, h.coherent.dicts⟩
  · rw [hluts]
    exact h.dictsFit
  · unfold SymCache.lut
    split
    · rename_i t luts hm
      exact memo_hit_fits h.lutsFit hm
    · rename_i hm
      rcases s.heap id with e | vs
      · exact h.lutsFit
      · exact memo_insert_fits h.lutsFit hm

theorem kept_step (h : Kept s) (hst : step s a = some s') : Kept s' := by
  cases a with
  | alloc id v =>
    simp only [step] at hst
    split at hst
    · cases hst
    · rename_i hfree
      rw [Bool.not_eq_true] at hfree
      exact Option.some.inj hst ▸ h.alloc v hfree _
  | clone id =>
    simp only [step] at hst
    split at hst
    · exact Option.some.inj hst ▸ h.of_owners _
    · cases hst
  | drop id =>
    simp only [step] at hst
    split at hst
    · exact Option.some.inj hst ▸ h.of_owners _
    · cases hst
  | get b => exact Option.some.inj hst ▸ h.get b
  | dictTable id =>
    simp only [step] at hst
    split at hst
    · exact Option.some.inj hst ▸ h.dictTable id
    · cases hst
  | lut id =>
    simp only [step] at hst
    split at hst
    · exact Option.some.inj hst ▸ h.lut id
    · cases hst

theorem Reachable.kept (h : Reachable worker s) : Kept s := by
  apply h.invariant
  · intro s hi
    exact kept_new hi
  · intro s a t _ hk _ hst
    exact kept_step hk hst

/-! ## The fills are runs of calls -/

theorem fill_sym_dict_exec (h : Reachable worker s) {values : ArrayId} (hown : 0 < s.owners values)
    (keys : Prim Int) (col off : Nat) :
    exec worker s [.get [], .dictTable values] =
      some { s with sy := (fillSymDict s.heap keys values col off s.sy).2 } := by
  have hempty := (get_spec (Reachable.kept h).coherent []).1
  have hsy : (fillSymDict s.heap keys values col off s.sy).2 =
      ((s.sy.get []).2.dictTable s.heap values (intern [])).2 := by
    simp only [fillSymDict, hempty]
    split <;> rfl
  rw [hsy]
  simp [exec, worker, step, hown]
  rfl

theorem gets_exec (s : St) (empty : Sym) (vs : List (Option String)) :
    exec worker s (vs.filterMap fun v => v.map fun v => .get (utf8Bytes v)) =
      some { s with sy := (s.sy.getAll empty vs).2 } := by
  induction vs generalizing s with
  | nil => rfl
  | cons v vs ih =>
    cases v with
    | none => exact ih s
    | some v => exact ih { s with sy := (s.sy.get (utf8Bytes v)).2 }

theorem fill_sym_plain_exec (s : St) {arr : StrArr} {l : List (Option String)}
    (hl : arr.utf8 = .ok l) (col off : Nat) :
    exec worker s (.get [] :: l.filterMap fun v => v.map fun v => .get (utf8Bytes v)) =
      some { s with sy := (fillSymPlain arr col off s.sy).2 } := by
  have hsy : (fillSymPlain arr col off s.sy).2 = ((s.sy.get []).2.getAll (s.sy.get []).1 l).2 := by
    simp only [fillSymPlain, hl]
  rw [hsy]
  exact gets_exec { s with sy := (s.sy.get []).2 } _ l

theorem fill_codes_exec (s : St) {values : ArrayId} (hown : 0 < s.owners values)
    (keys : Prim Int) (p col off : Nat) :
    exec worker s [.lut values] =
      some { s with sy := (fillCodes s.heap keys values (s.mem values).codes p col off s.sy).2 } := by
  have hsy : (fillCodes s.heap keys values (s.mem values).codes p col off s.sy).2 =
      (s.sy.lut s.heap values (s.mem values).codes).2 := by
    unfold fillCodes
    split <;> simp_all
  rw [hsy]
  simp [exec, worker, step, hown]

/-! ## The law of the symbol caches -/

/-- The bytes of a dictionary value, and none for a null. -/
def bytesOf (v : Option String) : List UInt8 := (v.map utf8Bytes).getD []

theorem lutOf_map {cd : Codes} {vs : List (Option String)} {t : List UInt32}
    (h : lutOf cd vs = some t) : t.map some = vs.map fun v => cd.ix.lookup (bytesOf v) := by
  apply List.ext_getElem?
  intro k
  rw [List.getElem?_map, List.getElem?_map]
  exact (lutOf_get h k).symm

theorem the_symbol_caches_are_transparent (h : Reachable worker s) :
    (∀ b, (s.sy.get b).1 = intern b) ∧
      (∀ a, (s.sy.dictTable s.heap a (intern [])).1 = (s.mem a).values.map (·.map symbolOf)) ∧
      (∀ a, (s.sy.lut s.heap a (s.mem a).codes).1 =
        (s.mem a).values.map (lutOf (s.mem a).codes)) ∧
      (∀ cd vs, (lutOf cd vs = none ↔ ∃ v ∈ vs, cd.ix.lookup (bytesOf v) = none) ∧
        ∀ t, lutOf cd vs = some t → t.map some = vs.map fun v => cd.ix.lookup (bytesOf v)) ∧
      ((s.sy.dicts.map (·.1)).Nodup ∧ s.sy.dicts.length ≤ DICTS) ∧
      ((s.sy.luts.map (·.1)).Nodup ∧ s.sy.luts.length ≤ DICTS) := by
  have hk := Reachable.kept h
  refine ⟨?_, ?_, ?_, ?_, ?_, ?_⟩
  · intro b
    exact (get_spec hk.coherent b).1
  · intro a
    exact (dictTable_answer hk.coherent a).1
  · intro a
    exact (hk.lut_table a).1
  · intro cd vs
    exact ⟨lutOf_eq_none, fun t ht => lutOf_map ht⟩
  · exact ⟨hk.dictsFit.distinct, hk.dictsFit.bound⟩
  · exact ⟨hk.lutsFit.distinct, hk.lutsFit.bound⟩

def St.new (mem : ArrayId → DictArray) : St := ⟨mem, fun _ => 0, SymCache.new⟩

/-- Five dictionaries go through the memo, and the address of the first one is taken again. -/
def fiveTables : List Act :=
  let nulls : DictArray := ⟨.ok [none], ⟨[], [], 0, .KG⟩⟩
  [0, 1, 2, 3, 4].flatMap (fun a => [.alloc a nulls, .dictTable a, .drop a]) ++
    [.alloc 0 ⟨.ok [some "b", none], ⟨[], [], 0, .KG⟩⟩]

theorem a_reused_address_has_the_table_of_its_array :
    ∃ s, exec worker (St.new fun _ => ⟨.ok [], ⟨[], [], 0, .KG⟩⟩) fiveTables = some s ∧
      s.alive 1 = true ∧
      (s.sy.dictTable s.heap 0 (intern [])).1 = .ok [intern (utf8Bytes "b"), intern []] ∧
      s.sy.dicts.length ≤ DICTS := by
  have hstart : Reachable worker (St.new fun _ => ⟨.ok [], ⟨[], [], 0, .KG⟩⟩) :=
    .start ⟨rfl, fun _ => rfl⟩
  refine ⟨_, rfl, rfl, ?_⟩
  have h := the_symbol_caches_are_transparent (hstart.exec fiveTables rfl)
  exact ⟨h.2.1 0, h.2.2.2.2.1.2⟩

end parquet_interop.symbols
