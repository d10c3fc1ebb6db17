-- The dictionary array of a symbol column: what each key stands for, which
-- values there are and in which order, and when the crates can build it.
import Mathlib.Data.List.Nodup
import ParquetInterop.WriteCol

open lib.firstseen
open parquet_interop.ffi parquet_interop.read

namespace parquet_interop.write

/-! ## The values array -/

/-- The bytes of the values. -/
def bytesOf (vals : List String) : Nat := (vals.map fun v => (utf8Bytes v).length).sum

/-- `StringArray::from` of the crates, where `none` is its panic: the offset of the end of each value
is an `i32`. -/
structure Utf8Arrays (strings : List String → Option (List String)) : Prop where
  built : ∀ vals, bytesOf vals ≤ I32_MAX → strings vals = some vals
  overflow : ∀ vals, I32_MAX < bytesOf vals → strings vals = none

/-- `col_sym` to the end: the keys, and the values that the crates have built. -/
def symDict (strings : List String → Option (List String)) (s : List Sym) :
    Option (Prim Int32 × List String) :=
  let l := SymLoop.new.rows 0 s
  (strings l.values).map fun values => (⟨l.keys, l.nulls, rows_nulls_len s⟩, values)

/-- The array that a chunk is encoded from is the one that the crates have built. -/
theorem symDict_colSym {strings : List String → Option (List String)} (h : Utf8Arrays strings)
    {s : List Sym} {keys : Prim Int32} {values : List String}
    (hdict : symDict strings s = some (keys, values)) : colSym s = .dict keys values := by
  rw [symDict, Option.map_eq_some_iff] at hdict
  obtain ⟨vals, hvals, heq⟩ := hdict
  cases heq
  rcases Nat.lt_or_ge I32_MAX (bytesOf (SymLoop.new.rows 0 s).values) with hlt | hge
  · rw [h.overflow _ hlt] at hvals
    cases hvals
  · rw [h.built _ hge] at hvals
    cases hvals
    rfl

/-! ## The bytes of the symbols -/

/-- The distinct symbols that have a string, in the order in which they come. -/
def firstSyms (s : List Sym) : List Sym := s.eraseDups.filter fun p => (utf8Of p.bytes).isSome

/-- The bytes that the dictionary has to hold. -/
def dictBytes (s : List Sym) : Nat := ((firstSyms s).map fun p => p.bytes.length).sum

section
variable {s : List Sym}

theorem toStr_bytes {p : Sym} (hp : 0 ∉ p.bytes) {str : String} (h : toStr p = some str) :
    utf8Bytes str = p.bytes := by
  rw [toStr_eq hp] at h
  exact utf8Bytes_utf8Of h

/-- The values are the bytes of the first symbols. -/
theorem vals_bytes (hs : ∀ p ∈ s, 0 ∉ p.bytes) :
    (SymLoop.new.rows 0 s).vals.map utf8Bytes = (firstSyms s).map (·.bytes) := by
  have hmem : ∀ p ∈ s.eraseDups, 0 ∉ p.bytes := fun p hp => hs p (List.mem_eraseDups.mp hp)
  rw [(after_rows s).vals, firstSyms]
  generalize s.eraseDups = ps at hmem
  induction ps with
  | nil => rfl
  | cons p ps ih =>
    have hp := hmem p List.mem_cons_self
    have hrest := ih fun q hq => hmem q (List.mem_cons_of_mem p hq)
    rw [List.filterMap_cons, List.filter_cons, toStr_eq hp]
    rcases hstr : utf8Of p.bytes with _ | str
    · simpa using hrest
    · simp [hrest, utf8Bytes_utf8Of hstr]

theorem firstSyms_nodup (s : List Sym) : ((firstSyms s).map (·.bytes)).Nodup := by
  apply List.Nodup.map
  · intro p q h
    exact congrArg intern h
  · exact (nodup_eraseDups s).filter _

/-- The slot for the key 0 has no bytes. -/
theorem values_bytes (hs : ∀ p ∈ s, 0 ∉ p.bytes) :
    bytesOf (SymLoop.new.rows 0 s).values = dictBytes s := by
  have hvals : bytesOf (SymLoop.new.rows 0 s).vals = dictBytes s := by
    have h := congrArg (List.map List.length) (vals_bytes hs)
    rw [List.map_map, List.map_map] at h
    exact congrArg List.sum h
  unfold SymLoop.values
  split
  · rename_i hnone
    rw [← hvals, hnone.1]
    rfl
  · exact hvals

/-- Distinct byte strings are at most one more than their bytes: only one has none. -/
theorem length_le_sum {xs : List (List UInt8)} (h : xs.Nodup) :
    xs.length ≤ (xs.map List.length).sum + if [] ∈ xs then 1 else 0 := by
  induction xs with
  | nil => simp
  | cons x xs ih =>
    obtain ⟨hx, hrest⟩ := List.nodup_cons.mp h
    have hle := ih hrest
    rw [List.length_cons, List.map_cons, List.sum_cons]
    by_cases hnil : x = []
    · subst hnil
      rw [if_neg hx] at hle
      simpa using hle
    · have hpos : 0 < x.length := List.length_pos_iff.mpr hnil
      have hmem : [] ∈ x :: xs ↔ [] ∈ xs := by simp [Ne.symm hnil]
      simp only [hmem]
      omega

/-- A dictionary that the crates can build has no more values than an `Int32` has keys. -/
theorem vals_fit (hs : ∀ p ∈ s, 0 ∉ p.bytes) (h : dictBytes s ≤ I32_MAX) :
    (SymLoop.new.rows 0 s).vals.length ≤ 2 ^ 31 := by
  have hlen := congrArg List.length (vals_bytes hs)
  have hle := length_le_sum (firstSyms_nodup s)
  rw [List.length_map] at hlen
  have hsum : (((firstSyms s).map (·.bytes)).map List.length).sum = dictBytes s := by
    rw [List.map_map]
    rfl
  have hone : (if [] ∈ (firstSyms s).map (·.bytes) then 1 else 0) ≤ 1 := by
    split <;> decide
  unfold I32_MAX at h
  omega

/-! ## The array -/

/-- The array has the symbols of the slice: each row decodes to its symbol or is a null, every key
is an index, and the values are the distinct strings in the order in which they come. A slice of
nulls alone has one value for its keys. -/
structure Encodes (s : List Sym) (keys : Prim Int32) (values : List String) : Prop where
  rows : keys.values.length = s.length
  null_iff : ∀ (i : Nat) p, s[i]? = some p → (keys.content[i]? = some none ↔ utf8Of p.bytes = none)
  decodes : ∀ (i : Nat) p, s[i]? = some p → utf8Of p.bytes ≠ none →
    ∃ k str, keys.content[i]? = some (some k) ∧ values[k.toInt.toNat]? = some str ∧
      utf8Bytes str = p.bytes
  indexes : ∀ k ∈ keys.values, 0 ≤ k.toInt ∧ k.toInt < values.length
  distinct : values.Nodup
  order : values = (s.filterMap fun p => utf8Of p.bytes).eraseDups ∨
    s ≠ [] ∧ (∀ p ∈ s, utf8Of p.bytes = none) ∧ values = [""]
  bitmap : keys.nulls.isSome = true ↔ ∃ p ∈ s, utf8Of p.bytes = none

/-- The row of a symbol: its key, its validity, and the answer that they come from. -/
theorem SymLoop.After.row_at {l : SymLoop} (h : l.After s) {i : Nat} {p : Sym} (hp : s[i]? = some p) :
    ∃ id, Resolves l.vals p id ∧ l.keys[i]? = some (if id < 0 then 0 else id) ∧
      l.valid[i]? = some (decide (0 ≤ id)) := by
  obtain ⟨hi, rfl⟩ := List.getElem?_eq_some_iff.mp hp
  have hik : i < l.keys.length := h.keys ▸ hi
  have hiv : i < l.valid.length := h.valid ▸ hi
  have hget := h.rows.get (by rw [List.length_zip]; omega) hi
  simp only [List.get_eq_getElem, List.getElem_zip] at hget
  obtain ⟨id, hid, hrow⟩ := hget
  obtain ⟨hkey, hok⟩ := Prod.mk.inj hrow
  exact ⟨id, hid, by rw [List.getElem?_eq_getElem hik, hkey], by rw [List.getElem?_eq_getElem hiv, hok]⟩

theorem SymLoop.After.content_at {l : SymLoop} (h : l.After s) {len_eq} {i : Nat} {p : Sym}
    (hp : s[i]? = some p) : ∃ id, Resolves l.vals p id ∧
      (⟨l.keys, l.nulls, len_eq⟩ : Prim Int32).content[i]? = some (if id < 0 then none else some id) := by
  obtain ⟨id, hid, hkey, hok⟩ := h.row_at hp
  have hcontent : (⟨l.keys, l.nulls, len_eq⟩ : Prim Int32).content = l.content :=
    prim_content ⟨l.keys, l.nulls, len_eq⟩
  refine ⟨id, hid, ?_⟩
  rw [hcontent, SymLoop.content, List.getElem?_map, List.zip, List.getElem?_zipWith, hkey, hok]
  by_cases hneg : id < 0
  · simp [hneg, Int32.not_le.mpr hneg]
  · simp [hneg, Int32.not_lt.mp hneg]

/-- A row is a null exactly when its symbol has no string. -/
theorem SymLoop.After.false_iff {l : SymLoop} (h : l.After s) (hbound : l.vals.length ≤ 2 ^ 31) :
    false ∈ l.valid ↔ ∃ p ∈ s, toStr p = none := by
  rw [List.mem_iff_getElem?]
  constructor
  · rintro ⟨i, hi⟩
    have his : i < s.length := h.valid ▸ (List.getElem?_eq_some_iff.mp hi).1
    obtain ⟨id, hid, _, hok⟩ := h.row_at (List.getElem?_eq_getElem his)
    rw [hi] at hok
    have hneg : id < 0 := by simpa using hok
    exact ⟨_, List.getElem_mem his, (hid.lt hbound).mp hneg⟩
  · rintro ⟨p, hp, hnone⟩
    obtain ⟨i, hi⟩ := List.mem_iff_getElem?.mp hp
    obtain ⟨id, hid, _, hok⟩ := h.row_at hi
    have hneg := (hid.lt hbound).mpr hnone
    exact ⟨i, by simpa [Int32.not_le.mpr hneg] using hok⟩

/-- The values are the strings of the rows, each where it comes first. -/
theorem SymLoop.After.order {l : SymLoop} (h : l.After s) (hs : ∀ p ∈ s, 0 ∉ p.bytes) :
    l.vals = (s.filterMap fun p => utf8Of p.bytes).eraseDups := by
  have hstr : s.eraseDups.filterMap toStr = s.eraseDups.filterMap fun p => utf8Of p.bytes := by
    apply List.filterMap_congr
    intro p hp
    exact toStr_eq (hs p (List.mem_eraseDups.mp hp))
  rw [h.vals, hstr, filterMap_eraseDups]
  intro p _ q _ str hp hq
  exact congrArg intern ((utf8Bytes_utf8Of hp).symm.trans (utf8Bytes_utf8Of hq))

/-- The values of the array: those of the loop, or the slot of a slice of nulls. -/
theorem SymLoop.After.values {l : SymLoop} (h : l.After s) :
    l.values = l.vals ∨ s ≠ [] ∧ l.vals = [] ∧ l.values = [""] := by
  unfold SymLoop.values
  split
  · rename_i hnone
    refine Or.inr ⟨?_, hnone.1, rfl⟩
    rintro rfl
    exact hnone.2 (List.eq_nil_of_length_eq_zero h.keys)
  · exact Or.inl rfl

theorem SymLoop.After.values_of_get {l : SymLoop} (h : l.After s) {j : Nat} {str : String}
    (hj : l.vals[j]? = some str) : l.values = l.vals := by
  rcases h.values with heq | ⟨_, hnil, _⟩
  · exact heq
  · rw [hnil] at hj
    cases hj

theorem SymLoop.After.values_pos {l : SymLoop} (h : l.After s) (hs : s ≠ []) : 0 < l.values.length := by
  unfold SymLoop.values
  split
  · decide
  · rename_i hsome
    rw [List.length_pos_iff]
    intro hnil
    refine hsome ⟨hnil, fun hkeys => hs ?_⟩
    have hlen := h.keys
    rw [hkeys] at hlen
    exact List.eq_nil_of_length_eq_zero hlen.symm

/-- The keys are indices, those of the nulls too. -/
theorem SymLoop.After.indexes {l : SymLoop} (h : l.After s) (hbound : l.vals.length ≤ 2 ^ 31) :
    ∀ k ∈ l.keys, 0 ≤ k.toInt ∧ k.toInt < l.values.length := by
  intro k hk
  obtain ⟨i, hi⟩ := List.mem_iff_getElem?.mp hk
  have his : i < s.length := h.keys ▸ (List.getElem?_eq_some_iff.mp hi).1
  have hpos := h.values_pos (List.ne_nil_of_length_pos (Nat.zero_lt_of_lt his))
  obtain ⟨id, hid, hkey, _⟩ := h.row_at (List.getElem?_eq_getElem his)
  rw [hi, Option.some.injEq] at hkey
  have hlt := hid.lt hbound
  rcases hid with ⟨hnone, rfl⟩ | ⟨j, str, hstr, hj, rfl⟩
  · rw [if_pos (hlt.mpr hnone)] at hkey
    subst hkey
    exact ⟨Int.le_refl 0, Int.natCast_pos.mpr hpos⟩
  · have hneg : ¬Int32.ofNat j < 0 := by
      rw [hlt, hstr]
      simp
    have hjlen := (List.getElem?_eq_some_iff.mp hj).1
    rw [if_neg hneg] at hkey
    rw [hkey, h.values_of_get hj, Int32.toInt_ofNat_of_lt (by omega)]
    omega

/-- What the loop leaves is an array of the slice, when the keys are enough. -/
theorem SymLoop.After.encodes {l : SymLoop} (h : l.After s) (hs : ∀ p ∈ s, 0 ∉ p.bytes)
    (hbound : l.vals.length ≤ 2 ^ 31) {len_eq} : Encodes s ⟨l.keys, l.nulls, len_eq⟩ l.values := by
  have hstr : ∀ p ∈ s, toStr p = utf8Of p.bytes := fun p hp => toStr_eq (hs p hp)
  have horder := h.order hs
  refine ⟨h.keys, ?null, ?decodes, h.indexes hbound, ?distinct, ?order, ?bitmap⟩
  case null =>
    intro i p hp
    obtain ⟨id, hid, hrow⟩ := h.content_at hp
    rw [hrow, Option.some.injEq, ← hstr p (List.mem_of_getElem? hp), ← hid.lt hbound]
    simp
  case decodes =>
    intro i p hp hne
    have hmem := List.mem_of_getElem? hp
    obtain ⟨id, hid, hrow⟩ := h.content_at hp
    have hneg : ¬id < 0 := by
      rw [hid.lt hbound, hstr p hmem]
      exact hne
    rcases hid with ⟨hnone, _⟩ | ⟨j, str, hsome, hj, rfl⟩
    · exact absurd (hstr p hmem ▸ hnone) hne
    · have hjlen := (List.getElem?_eq_some_iff.mp hj).1
      rw [if_neg hneg] at hrow
      refine ⟨_, str, hrow, ?_, toStr_bytes (hs p hmem) hsome⟩
      rw [h.values_of_get hj, Int32.toInt_ofNat_of_lt (by omega), Int.toNat_natCast, hj]
  case distinct =>
    rcases h.values with heq | ⟨_, _, heq⟩
    · rw [heq, horder]
      exact nodup_eraseDups _
    · rw [heq]
      exact List.nodup_singleton _
  case order =>
    rcases h.values with heq | ⟨hne, hnil, heq⟩
    · exact Or.inl (heq.trans horder)
    · refine Or.inr ⟨hne, ?_, heq⟩
      intro p hp
      rw [hnil] at horder
      rcases hp' : utf8Of p.bytes with _ | str
      · rfl
      · have hmem : str ∈ (s.filterMap fun p => utf8Of p.bytes).eraseDups := by
          rw [List.mem_eraseDups, List.mem_filterMap]
          exact ⟨p, hp, hp'⟩
        rw [← horder] at hmem
        cases hmem
  case bitmap =>
    rw [h.nulls, h.false_iff hbound]
    constructor
    · rintro ⟨p, hp, hnone⟩
      exact ⟨p, hp, hstr p hp ▸ hnone⟩
    · rintro ⟨p, hp, hnone⟩
      exact ⟨p, hp, (hstr p hp).trans hnone⟩

end

/-- A dictionary whose offsets would not be an `i32` is not built. -/
theorem symDict_overflow {strings : List String → Option (List String)} (hstrings : Utf8Arrays strings)
    {s : List Sym} (hs : ∀ p ∈ s, 0 ∉ p.bytes) (hlarge : I32_MAX < dictBytes s) :
    symDict strings s = none := by
  have hoverflow := hstrings.overflow _ (values_bytes hs ▸ hlarge)
  rw [symDict, hoverflow]
  rfl

/-! ## The law -/

/-- The dictionary array of a slice of symbols, built when the bytes of its distinct strings fit the
offsets of the crates, and not otherwise. -/
theorem a_symbol_slice_is_encoded_iff_its_dictionary_fits {strings : List String → Option (List String)}
    (hstrings : Utf8Arrays strings) {s : List Sym} (hs : ∀ p ∈ s, 0 ∉ p.bytes) :
    (dictBytes s ≤ I32_MAX → ∃ keys values, symDict strings s = some (keys, values) ∧ Encodes s keys values) ∧
    (I32_MAX < dictBytes s → symDict strings s = none) := by
  constructor
  · intro hfit
    have hbuilt := hstrings.built _ (values_bytes hs ▸ hfit)
    refine ⟨_, _, ?_, @SymLoop.After.encodes s _ (after_rows s) hs (vals_fit hs hfit) (rows_nulls_len s)⟩
    rw [symDict, hbuilt]
    rfl
  · exact symDict_overflow hstrings hs

/-- The crates, as far as a dictionary of strings needs them. -/
def stringArray (vals : List String) : Option (List String) :=
  if bytesOf vals ≤ I32_MAX then some vals else none

theorem stringArray_offsets : Utf8Arrays stringArray where
  built _ h := if_pos h
  overflow _ h := if_neg (Nat.not_le.mpr h)

/-- A run, a byte that is no UTF-8, a new symbol and the first one again. -/
def mixedSlice : List Sym := [⟨[97]⟩, ⟨[97]⟩, ⟨[255]⟩, ⟨[98]⟩, ⟨[97]⟩]

theorem the_mixed_slice_is_encoded : ∃ keys values, symDict stringArray mixedSlice = some (keys, values) ∧
    Encodes mixedSlice keys values ∧ keys.values = [0, 0, 0, 1, 0] ∧ values = ["a", "b"] ∧
    keys.nulls = some [true, true, false, true, true] := by
  have hs : ∀ p ∈ mixedSlice, 0 ∉ p.bytes := by decide
  obtain ⟨hfit, _⟩ := a_symbol_slice_is_encoded_iff_its_dictionary_fits stringArray_offsets hs
  obtain ⟨keys, values, hdict, hencodes⟩ := hfit (by decide)
  refine ⟨keys, values, hdict, hencodes, ?_⟩
  cases hdict
  exact ⟨rfl, rfl, rfl⟩

theorem utf8Of_replicate (n : Nat) : (utf8Of (List.replicate n 97)).isSome = true := by
  have hvalid : ByteArray.IsValidUTF8 ⟨(List.replicate n 97).toArray⟩ := by
    induction n with
    | zero => exact ByteArray.isValidUTF8_empty
    | succ n ih =>
      have hpush : (⟨(List.replicate (n + 1) 97).toArray⟩ : ByteArray) =
          ByteArray.push ⟨(List.replicate n 97).toArray⟩ 'a'.toUInt8 := by
        rw [List.replicate_succ', ← List.push_toArray]
        rfl
      rw [hpush]
      exact ih.push (by decide)
  rw [utf8Of, String.fromUTF8?, dif_pos hvalid]
  rfl

/-- A slice of one symbol, as long as you like. -/
def longSlice (n : Nat) : List Sym := [⟨List.replicate n 97⟩]

theorem longSlice_end (n : Nat) : ∀ p ∈ longSlice n, 0 ∉ p.bytes := by
  intro p hp
  cases List.mem_singleton.mp hp
  intro h0
  exact absurd (List.eq_of_mem_replicate h0) (by decide)

theorem dictBytes_longSlice (n : Nat) : dictBytes (longSlice n) = n := by
  have hsome := utf8Of_replicate n
  have hone : (longSlice n).eraseDups = longSlice n := rfl
  rw [dictBytes, firstSyms, hone]
  simp [longSlice, hsome]

/-- One symbol of 2 GiB has no array. -/
theorem a_symbol_past_the_offsets_is_not_encoded : (∀ p ∈ longSlice (2 ^ 31), 0 ∉ p.bytes) ∧
    Utf8Arrays stringArray ∧ symDict stringArray (longSlice (2 ^ 31)) = none := by
  refine ⟨longSlice_end _, stringArray_offsets, ?_⟩
  apply symDict_overflow stringArray_offsets (longSlice_end _)
  rw [dictBytes_longSlice]
  decide

end parquet_interop.write
