-- The symbol cache of a decode worker: a direct-mapped table from bytes to
-- interned symbols, and a short memo of whole dictionaries.
import ParquetInterop.Lib.Recency
import ParquetInterop.Ffi

open lib.recency
open parquet_interop.ffi

namespace parquet_interop.read

/-! ## The hash -/

def FX_M : UInt64 := 0x517cc1b727220a95

/-- `u64::from_le_bytes` of up to eight bytes, zero-extended. -/
def leWord (b : List UInt8) : UInt64 := b.foldr (fun x w => (w <<< 8) ||| x.toUInt64) 0

/-- One multiply for each eight bytes, and one for the rest. -/
def fxhFrom (h : UInt64) : List UInt8 → UInt64
  | b0 :: b1 :: b2 :: b3 :: b4 :: b5 :: b6 :: b7 :: c =>
    fxhFrom ((h ^^^ leWord [b0, b1, b2, b3, b4, b5, b6, b7]) * FX_M) c
  | [] => h
  | c => (h ^^^ leWord c) * FX_M

def fxh (b : List UInt8) : UInt64 :=
  let h := fxhFrom b.length.toUInt64 b
  h ^^^ (h >>> 29)

/-! ## The cache -/

def SLOTS : Nat := 4096

def LONG : Nat := 4096

def DICTS : Nat := 4

/-- A slot with no symbol is empty: its pointer is null. -/
structure Slot where
  tag : UInt32
  len : UInt32
  sym : Option Sym

/-- The identity of a dictionary array: two batches that share it share one `Arc`. -/
abbrev ArrayId : Type := Nat

/-- The values of each dictionary array as `utf8_of` casts them. A null value is `none`. -/
abbrev Heap : Type := ArrayId → Except String (List (Option String))

structure SymCache where
  slots : Nat → Slot
  dicts : List (ArrayId × List Sym)
  luts : List (ArrayId × Option (List UInt32))

def SymCache.new : SymCache where
  slots _ := ⟨0, 0, none⟩
  dicts := []
  luts := []

/-- The slot that the bytes map to. -/
def slotOf (b : List UInt8) : Nat := (fxh b).toNat % SLOTS

def tagOf (b : List UInt8) : UInt32 := (fxh b >>> 32).toUInt32

/-- A slot answers for the bytes when its tag, its length and the interned bytes match. -/
def Slot.hit (s : Slot) (b : List UInt8) : Option Sym :=
  s.sym.filter fun p => s.tag = tagOf b ∧ s.len.toNat = b.length ∧ p.bytes.take b.length = b

/-- The interned symbol of `b`, from its slot when it is already there. -/
def SymCache.get (sy : SymCache) (b : List UInt8) : Sym × SymCache :=
  if LONG ≤ b.length then (intern b, sy)
  else
    match (sy.slots (slotOf b)).hit b with
    | some p => (p, sy)
    | none =>
      let s : Slot := ⟨tagOf b, b.length.toUInt32, some (intern b)⟩
      (intern b, { sy with slots := fun k => if k = slotOf b then s else sy.slots k })

/-- The symbols of a list of values, with `empty` for a null. -/
def SymCache.getAll (sy : SymCache) (empty : Sym) : List (Option String) → List Sym × SymCache
  | [] => ([], sy)
  | none :: vs =>
    let (t, sy) := sy.getAll empty vs
    (empty :: t, sy)
  | some v :: vs =>
    let (p, sy) := sy.get (utf8Bytes v)
    let (t, sy) := sy.getAll empty vs
    (p :: t, sy)

/-- A memo keyed by array identity: a hit moves to the front. -/
def memoHit {T : Type} (memo : List (ArrayId × T)) (id : ArrayId) :
    Option (T × List (ArrayId × T)) :=
  match memo.findIdx? (·.1 = id) with
  | some i => memo[i]?.map fun e => (e.2, e :: memo.eraseIdx i)
  | none => none

/-- A new entry goes to the front, and the last of a full memo goes. -/
def memoInsert {T : Type} (memo : List (ArrayId × T)) (id : ArrayId) (t : T) : List (ArrayId × T) :=
  (id, t) :: memo.take (DICTS - 1)

/-- The symbol table of a dictionary, built once while the memo keeps it. -/
def SymCache.dictTable (heap : Heap) (sy : SymCache) (id : ArrayId) (empty : Sym) :
    Except String (List Sym) × SymCache :=
  match memoHit sy.dicts id with
  | some (t, dicts) => (.ok t, { sy with dicts })
  | none =>
    match heap id with
    | .error e => (.error e, sy)
    | .ok vs =>
      let (t, sy) := sy.getAll empty vs
      (.ok t, { sy with dicts := memoInsert sy.dicts id t })

/-! ## The cache is transparent -/

/-- Every slot holds a symbol of its own length, and every memo entry is the table of its
dictionary. -/
structure SymCache.Coherent (heap : Heap) (sy : SymCache) : Prop where
  slots : ∀ k p, (sy.slots k).sym = some p → (sy.slots k).len.toNat = p.bytes.length
  dicts : ∀ id t, (id, t) ∈ sy.dicts → ∃ vs, heap id = .ok vs ∧
    t = vs.map fun v => intern ((v.map utf8Bytes).getD [])

theorem coherent_new (heap : Heap) : SymCache.new.Coherent heap :=
  ⟨fun k p h => (by cases h), fun id t h => (by cases h)⟩

/-- A hit is the symbol of the bytes. -/
theorem hit_eq {s : Slot} {b : List UInt8} {p : Sym}
    (hlen : ∀ q, s.sym = some q → s.len.toNat = q.bytes.length) (h : s.hit b = some p) :
    p = intern b := by
  unfold Slot.hit at h
  obtain ⟨hsym, hp⟩ := Option.filter_eq_some_iff.mp h
  simp only [decide_eq_true_eq] at hp
  obtain ⟨_, hl, hbytes⟩ := hp
  have hle : p.bytes.length ≤ b.length := Nat.le_of_eq ((hlen p hsym).symm.trans hl)
  rw [List.take_of_length_le hle] at hbytes
  rw [← hbytes]
  rfl

/-- `get` answers the interned symbol, whatever the cache holds. -/
theorem get_spec {heap : Heap} {sy : SymCache} (h : sy.Coherent heap) (b : List UInt8) :
    (sy.get b).1 = intern b ∧ (sy.get b).2.Coherent heap := by
  unfold SymCache.get
  split
  · exact ⟨rfl, h⟩
  · rename_i hshort
    split
    · rename_i p hp
      exact ⟨hit_eq (h.slots (slotOf b)) hp, h⟩
    · refine ⟨rfl, ?_, h.dicts⟩
      intro k p hk
      by_cases hks : k = slotOf b
      · simp only [hks, if_true] at hk ⊢
        cases hk
        have hlt : b.length < 2 ^ 32 := by
          unfold LONG at hshort
          omega
        exact Nat.mod_eq_of_lt hlt
      · simp only [hks, if_false] at hk ⊢
        exact h.slots k p hk

theorem getAll_spec {heap : Heap} {sy : SymCache} (h : sy.Coherent heap)
    (vs : List (Option String)) :
    (sy.getAll (intern []) vs).1 = vs.map (fun v => intern ((v.map utf8Bytes).getD [])) ∧
      (sy.getAll (intern []) vs).2.Coherent heap := by
  induction vs generalizing sy with
  | nil => exact ⟨rfl, h⟩
  | cons v vs ih =>
    cases v with
    | none =>
      obtain ⟨h1, h2⟩ := ih h
      exact ⟨by simp only [SymCache.getAll, h1, List.map_cons]; rfl, h2⟩
    | some v =>
      obtain ⟨hp, hc⟩ := get_spec h (utf8Bytes v)
      obtain ⟨h1, h2⟩ := ih hc
      exact ⟨by simp only [SymCache.getAll, h1, hp, List.map_cons]; rfl, h2⟩

theorem memoHit_touch {T : Type} {memo memo' : List (ArrayId × T)} {id : ArrayId} {t : T}
    (h : memoHit memo id = some (t, memo')) :
    ∃ e, touch Prod.fst memo id = some (e, memo') ∧ e.2 = t := by
  unfold memoHit at h
  unfold touch
  split at h
  · obtain ⟨e, _, hte⟩ := Option.map_eq_some_iff.mp h
    cases hte
    exact ⟨e, by simp [*], rfl⟩
  · cases h

theorem memoHit_none {T : Type} {memo : List (ArrayId × T)} {id : ArrayId}
    (h : memoHit memo id = none) : ∀ x ∈ memo, x.1 ≠ id := by
  apply touch_eq_none.mp
  unfold memoHit at h
  unfold touch
  split at h
  · have hnone := Option.map_eq_none_iff.mp h
    simp [*]
  · simp [*]

theorem memoHit_mem {T : Type} {memo memo' : List (ArrayId × T)} {id : ArrayId} {t : T}
    (h : memoHit memo id = some (t, memo')) : (id, t) ∈ memo ∧ ∀ x ∈ memo', x ∈ memo := by
  obtain ⟨e, ht, rfl⟩ := memoHit_touch h
  have hid := touch_key ht
  subst hid
  exact ⟨touch_mem ht, fun x hx => (touch_perm ht).subset hx⟩

theorem memoInsert_mem {T : Type} {memo : List (ArrayId × T)} {id : ArrayId} {t : T}
    {x : ArrayId × T} (h : x ∈ memoInsert memo id t) : x = (id, t) ∨ x ∈ memo :=
  mem_push h

/-- `dict_table` answers the table of the dictionary, whatever the memo holds. -/
theorem dictTable_spec {heap : Heap} {sy : SymCache} (h : sy.Coherent heap) {id : ArrayId}
    {vs : List (Option String)} (hid : heap id = .ok vs) :
    (sy.dictTable heap id (intern [])).1 =
        .ok (vs.map fun v => intern ((v.map utf8Bytes).getD [])) ∧
      (sy.dictTable heap id (intern [])).2.Coherent heap := by
  unfold SymCache.dictTable
  split
  · rename_i t dicts hm
    obtain ⟨ht, hsub⟩ := memoHit_mem hm
    obtain ⟨us, hus, rfl⟩ := h.dicts id t ht
    rw [hid] at hus
    cases hus
    exact ⟨rfl, h.slots, fun id' t' ht' => h.dicts id' t' (hsub _ ht')⟩
  · rw [hid]
    obtain ⟨h1, h2⟩ := getAll_spec h vs
    refine ⟨by simp only [h1], h2.slots, fun id' t' ht' => ?_⟩
    rcases memoInsert_mem ht' with he | ht'
    · cases he
      exact ⟨vs, hid, h1⟩
    · exact h2.dicts id' t' ht'

/-- A probe writes nothing but slots. -/
theorem get_slots (sy : SymCache) (b : List UInt8) :
    ∃ slots, (sy.get b).2 = { sy with slots } := by
  unfold SymCache.get
  split
  · exact ⟨sy.slots, rfl⟩
  · split
    · exact ⟨sy.slots, rfl⟩
    · exact ⟨_, rfl⟩

theorem getAll_slots (sy : SymCache) (empty : Sym) (vs : List (Option String)) :
    ∃ slots, (sy.getAll empty vs).2 = { sy with slots } := by
  induction vs generalizing sy with
  | nil => exact ⟨sy.slots, rfl⟩
  | cons v vs ih =>
    cases v with
    | none => exact ih sy
    | some v =>
      obtain ⟨slots, hget⟩ := get_slots sy (utf8Bytes v)
      obtain ⟨slots', hrest⟩ := ih (sy.get (utf8Bytes v)).2
      rw [hget] at hrest
      refine ⟨slots', ?_⟩
      simp only [SymCache.getAll, hget]
      exact hrest

theorem get_luts (sy : SymCache) (b : List UInt8) : (sy.get b).2.luts = sy.luts := by
  obtain ⟨slots, h⟩ := get_slots sy b
  rw [h]

theorem getAll_luts (sy : SymCache) (empty : Sym) (vs : List (Option String)) :
    (sy.getAll empty vs).2.luts = sy.luts := by
  obtain ⟨slots, h⟩ := getAll_slots sy empty vs
  rw [h]

/-- The symbol tables leave the code tables alone. -/
theorem dictTable_luts (heap : Heap) (sy : SymCache) (id : ArrayId) (empty : Sym) :
    (sy.dictTable heap id empty).2.luts = sy.luts := by
  unfold SymCache.dictTable
  split
  · rfl
  · split
    · rfl
    · exact getAll_luts sy empty _

end parquet_interop.read
