-- Validity bitmaps, written and read: the words that a column leaves in a buffer,
-- and the visits of its zero bits from any offset of one.
import ParquetInterop.WriteCol

open lib.bits
open parquet_interop.native parquet_interop.read parquet_interop.write

namespace parquet_interop.validity

/-! ## Buffers -/

/-- Bits `[offset, offset + len)` of a buffer, the lowest bit of each byte first. -/
structure BooleanBuffer where
  bits : List Bool
  offset : Nat
  len : Nat
  fits : offset + len ≤ bits.length

def BooleanBuffer.value (b : BooleanBuffer) (i : Nat) : Bool := (b.bits[b.offset + i]?).getD false

/-- The bits that count. -/
def BooleanBuffer.slice (b : BooleanBuffer) : List Bool := (b.bits.drop b.offset).take b.len

structure NullBuffer where
  inner : BooleanBuffer

def NullBuffer.isNull (nb : NullBuffer) (i : Nat) : Bool := !nb.inner.value i

/-- The words of a bitmap from its offset, and the bits that are left. -/
structure BitChunks where
  words : List (BitVec 64)
  remainder_len : Nat
  remainder_bits : BitVec 64

/-- `bit_chunks` of the crates: full words, and then fewer than 64 bits. What else is in the word of
the remainder is left open. -/
structure YieldsWords (bit_chunks : List Bool → Nat → Nat → BitChunks) : Prop where
  count : ∀ {bits offset len}, offset + len ≤ bits.length →
    (bit_chunks bits offset len).words.length = len / 64
  words : ∀ {bits offset len}, offset + len ≤ bits.length → ∀ (k : Nat) w,
    (bit_chunks bits offset len).words[k]? = some w →
      ∀ i < 64, bits[offset + (64 * k + i)]? = some (w.getLsbD i)
  remainder_len : ∀ {bits offset len}, offset + len ≤ bits.length →
    (bit_chunks bits offset len).remainder_len = len % 64
  remainder_bits : ∀ {bits offset len}, offset + len ≤ bits.length → ∀ i < len % 64,
    bits[offset + (64 * (len / 64) + i)]? = some ((bit_chunks bits offset len).remainder_bits.getLsbD i)

/-! ## The bitmaps of a column -/

/-- `Buffer::from_vec` of the words. -/
def fromVec (ws : List (BitVec 64)) : List Bool := ws.flatMap fun w => (List.range 64).map w.getLsbD

theorem length_fromVec (ws : List (BitVec 64)) : (fromVec ws).length = 64 * ws.length := by
  induction ws with
  | nil => rfl
  | cons w ws ih =>
    rw [fromVec, List.flatMap_cons, List.length_append]
    rw [fromVec] at ih
    simp [ih]
    omega

/-- The null buffer of the first `n` bits of the words, when there is a null. -/
def nullBufferOf (b : Bitmap) (n : Nat) (h : n ≤ 64 * b.bits.length) : Option NullBuffer :=
  if b.nulls then some ⟨⟨fromVec b.bits, 0, n, by rw [length_fromVec, Nat.zero_add]; exact h⟩⟩ else none

section
variable {T : Type}

theorem length_words (s : List T) (valid : T → Bool) :
    s.length ≤ 64 * (nullLoop valid (chunks s) ⟨[], false⟩).bits.length := by
  rw [nullLoop_eq valid _ _ fun c hc => (length_chunk hc).2]
  simp [chunks]
  omega

/-- What `null_bits` answers. -/
def nullBuffer (s : List T) (valid : T → Bool) : Option NullBuffer :=
  nullBufferOf (nullLoop valid (chunks s) ⟨[], false⟩) s.length (length_words s valid)

/-- What the pass of `col_prim` answers that shifts the values. -/
def shiftBuffer [ArrowNativeTypeOp T] (s : List T) (sh : T) (valid : T → Bool) : Option NullBuffer :=
  nullBufferOf (shiftLoop sh valid (chunks s) [] ⟨[], false⟩).2 s.length (by
    rw [shiftLoop_eq]
    exact length_words s valid)

theorem shiftBuffer_eq [ArrowNativeTypeOp T] (s : List T) (sh : T) (valid : T → Bool) :
    shiftBuffer s sh valid = nullBuffer s valid := by
  unfold shiftBuffer nullBuffer
  simp only [shiftLoop_eq]

end

/-! ## The visits -/

/-- The loop of the words: the base after them, and the calls. -/
def eachWord : List (BitVec 64) → Nat → List Nat → Nat × List Nat
  | [], base, calls => (base, calls)
  | w :: ws, base, calls => eachWord ws (base + 64) (calls ++ (visit (~~~w)).map (base + ·))

/-- The calls of `each_null`, in their order. -/
def NullBuffer.eachNull (bit_chunks : List Bool → Nat → Nat → BitChunks) (nb : NullBuffer) : List Nat :=
  let b := nb.inner
  let bc := bit_chunks b.bits b.offset b.len
  let (base, calls) := eachWord bc.words 0 []
  let rl := bc.remainder_len
  if 0 < rl then
    calls ++ (visit (~~~bc.remainder_bits &&& ((1 : BitVec 64) <<< rl - 1))).map (base + ·)
  else calls

theorem eachWord_append (us ws : List (BitVec 64)) (base : Nat) (calls : List Nat) :
    eachWord (us ++ ws) base calls =
      eachWord ws (eachWord us base calls).1 (eachWord us base calls).2 := by
  induction us generalizing base calls with
  | nil => rfl
  | cons u us ih => exact ih _ _

theorem eachWord_range (f : Nat → BitVec 64) (q : Nat) :
    eachWord ((List.range q).map f) 0 [] =
      (64 * q, (List.range q).flatMap fun k => (visit (~~~f k)).map (64 * k + ·)) := by
  induction q with
  | zero => rfl
  | succ q ih =>
    rw [List.range_succ, List.map_append, eachWord_append, ih, List.flatMap_append]
    simp [eachWord, Nat.mul_succ]

theorem getElem?_slice (b : BooleanBuffer) {i : Nat} (hi : i < b.len) :
    b.slice[i]? = b.bits[b.offset + i]? := by
  rw [BooleanBuffer.slice, List.getElem?_take_of_lt hi, List.getElem?_drop]

theorem length_slice (b : BooleanBuffer) : b.slice.length = b.len := by
  have hfits := b.fits
  rw [BooleanBuffer.slice, List.length_take, List.length_drop]
  omega

theorem slice_value (b : BooleanBuffer) {i : Nat} (hi : i < b.len) : b.slice[i]? = some (b.value i) := by
  have hfits := b.fits
  have hlt : b.offset + i < b.bits.length := by omega
  rw [getElem?_slice b hi, BooleanBuffer.value, List.getElem?_eq_getElem hlt]
  rfl

theorem slice_nullBufferOf (b : Bitmap) (n : Nat) (h : n ≤ 64 * b.bits.length) :
    (nullBufferOf b n h).map (·.inner.slice) = b.finish n := by
  unfold nullBufferOf Bitmap.finish bitsOf
  split <;> rfl

/-- The bits that count are the validity of the values. -/
theorem slice_nullBuffer {T : Type} (s : List T) (valid : T → Bool) :
    (nullBuffer s valid).map (·.inner.slice) = if s.all valid then none else some (s.map valid) := by
  rw [nullBuffer, slice_nullBufferOf]
  exact nullBits_eq s valid

theorem nulls_colPrim {T : Type} [ArrowNativeTypeOp T] (s : List T) (sh : T) (valid : T → Bool) :
    (colPrim s sh valid).nulls = (nullBuffer s valid).map (·.inner.slice) := by
  rw [nullBuffer, slice_nullBufferOf]
  unfold colPrim
  split
  · rfl
  · simp only [shiftLoop_eq]

theorem nullBuffer_some {T : Type} {s : List T} {valid : T → Bool} {nb : NullBuffer}
    (h : nullBuffer s valid = some nb) : nb.inner.slice = s.map valid := by
  have hslice := slice_nullBuffer s valid
  rw [h, Option.map_some] at hslice
  split at hslice
  · cases hslice
  · exact Option.some.inj hslice

theorem nullBuffer_none {T : Type} {s : List T} {valid : T → Bool} :
    nullBuffer s valid = none ↔ ∀ x ∈ s, valid x = true := by
  have hslice := slice_nullBuffer s valid
  rw [← Option.map_eq_none_iff, hslice, ← List.all_eq_true]
  split
  · rename_i hall
    simp [hall]
  · rename_i hall
    simp [hall]

variable {bit_chunks : List Bool → Nat → Nat → BitChunks}

/-- The words are those of the bits that count. -/
theorem words_eq (h : YieldsWords bit_chunks) (b : BooleanBuffer) :
    (bit_chunks b.bits b.offset b.len).words =
      (List.range (b.len / 64)).map fun k => wordOf (chunk b.slice k) := by
  have hcount := h.count b.fits
  apply List.ext_getElem
  · simp [hcount]
  · intro k hk hk'
    rw [hcount] at hk
    rw [List.getElem_map, List.getElem_range]
    apply BitVec.eq_of_getLsbD_eq
    intro i hi
    have hbit := h.words b.fits k _ (List.getElem?_eq_getElem (hcount ▸ hk)) i hi
    rw [getLsbD_wordOf hi, getElem?_chunk _ _ hi, getElem?_slice b (by omega), hbit, Option.getD_some]

/-- Past the bits that count the mask has none, whatever is in the word. -/
theorem remainder_eq (h : YieldsWords bit_chunks) (b : BooleanBuffer) :
    ~~~(bit_chunks b.bits b.offset b.len).remainder_bits &&& ((1 : BitVec 64) <<< (b.len % 64) - 1) =
      ~~~wordOf (b.slice.drop (64 * (b.len / 64))) &&& ((1 : BitVec 64) <<< (b.len % 64) - 1) := by
  apply BitVec.eq_of_getLsbD_eq
  intro i hi
  rw [BitVec.getLsbD_and, BitVec.getLsbD_and, getLsbD_mask (Nat.mod_lt _ (by decide))]
  by_cases hlt : i < b.len % 64
  · have hbit := h.remainder_bits b.fits i hlt
    rw [BitVec.getLsbD_not, BitVec.getLsbD_not, getLsbD_wordOf hi, List.getElem?_drop,
      getElem?_slice b (by omega), hbit, Option.getD_some]
  · simp [hlt]

/-- The visits are those of the bits that count, from any offset. -/
theorem eachNull_slice (h : YieldsWords bit_chunks) (nb : NullBuffer) :
    nb.eachNull bit_chunks = read.eachNull nb.inner.slice := by
  unfold NullBuffer.eachNull read.eachNull
  dsimp only
  rw [words_eq h, eachWord_range, h.remainder_len nb.inner.fits, length_slice]
  dsimp only
  rw [remainder_eq h]
  split
  · rfl
  · rw [List.append_nil]

theorem mem_eachNull_value (h : YieldsWords bit_chunks) (nb : NullBuffer) (i : Nat) :
    i ∈ nb.eachNull bit_chunks ↔ i < nb.inner.len ∧ nb.isNull i = true := by
  rw [eachNull_slice h, mem_eachNull]
  by_cases hi : i < nb.inner.len
  · rw [slice_value nb.inner hi]
    simp [NullBuffer.isNull, hi]
  · rw [List.getElem?_eq_none (by rw [length_slice]; omega)]
    simp [hi]

theorem eachNull_ascending (h : YieldsWords bit_chunks) (nb : NullBuffer) :
    (nb.eachNull bit_chunks).Pairwise (· < ·) := by
  rw [eachNull_slice h, eachNull_eq]
  exact List.pairwise_lt_range.filter _

/-! ## The law -/

/-- The two passes leave the same bitmap, the validity of each value, and none when all are valid.
The nulls of a bitmap are visited from any offset, each once and in order. So the visits of a
column that was written are its invalid positions. -/
theorem the_nulls_that_are_written_are_visited (h : YieldsWords bit_chunks) :
    (∀ {T : Type} [ArrowNativeTypeOp T] (s : List T) (sh : T) (valid : T → Bool),
      shiftBuffer s sh valid = nullBuffer s valid ∧
      (colPrim s sh valid).nulls = (nullBuffer s valid).map (·.inner.slice)) ∧
    (∀ {T : Type} (s : List T) (valid : T → Bool),
      (nullBuffer s valid = none ↔ ∀ x ∈ s, valid x = true) ∧
      ∀ nb, nullBuffer s valid = some nb → nb.inner.len = s.length ∧
        (∀ (i : Nat) x, s[i]? = some x → nb.isNull i = !valid x) ∧
        nb.eachNull bit_chunks = (List.range s.length).filter fun i => (s[i]?).any (!valid ·)) ∧
    ∀ nb : NullBuffer, (nb.eachNull bit_chunks).Pairwise (· < ·) ∧
      ∀ i, i ∈ nb.eachNull bit_chunks ↔ i < nb.inner.len ∧ nb.isNull i = true := by
  refine ⟨?_, ?_, ?_⟩
  · intro T _ s sh valid
    exact ⟨shiftBuffer_eq s sh valid, nulls_colPrim s sh valid⟩
  · intro T s valid
    refine ⟨nullBuffer_none, fun nb hnb => ?_⟩
    have hslice := nullBuffer_some hnb
    have hlen : nb.inner.len = s.length := by
      rw [← length_slice, hslice, List.length_map]
    refine ⟨hlen, ?_, ?_⟩
    · intro i x hx
      have hi := (List.getElem?_eq_some_iff.mp hx).1
      have hvalue := slice_value nb.inner (hlen ▸ hi)
      rw [hslice, List.getElem?_map, hx, Option.map_some] at hvalue
      rw [NullBuffer.isNull, ← Option.some.inj hvalue]
    · rw [eachNull_slice h, eachNull_eq, hslice, List.length_map]
      apply List.filter_congr
      intro i hi
      rw [List.getElem?_map, List.getElem?_eq_getElem (List.mem_range.mp hi)]
      simp
  · intro nb
    exact ⟨eachNull_ascending h nb, mem_eachNull_value h nb⟩

/-- The words and the rest of a bitmap, with no bit past it. -/
def arrowChunks (bits : List Bool) (offset len : Nat) : BitChunks where
  words := (List.range (len / 64)).map fun k => wordOf (chunk (bits.drop offset) k)
  remainder_len := len % 64
  remainder_bits := wordOf ((bits.drop (offset + 64 * (len / 64))).take (len % 64))

theorem arrowChunks_yields : YieldsWords arrowChunks where
  count _ := by simp [arrowChunks]
  words := by
    intro bits offset len hfits k w hw i hi
    have hk : k < len / 64 := by
      have hlt := (List.getElem?_eq_some_iff.mp hw).1
      simpa [arrowChunks] using hlt
    have hword : wordOf (chunk (bits.drop offset) k) = w := by
      simpa [arrowChunks, hk] using hw
    have hlt : offset + (64 * k + i) < bits.length := by omega
    rw [← hword, getLsbD_wordOf hi, getElem?_chunk _ _ hi, List.getElem?_drop,
      List.getElem?_eq_getElem hlt, Option.getD_some]
  remainder_len _ := rfl
  remainder_bits := by
    intro bits offset len hfits i hi
    have hlt : offset + (64 * (len / 64) + i) < bits.length := by omega
    simp only [arrowChunks]
    rw [getLsbD_wordOf (by omega), List.getElem?_take_of_lt hi, List.getElem?_drop, Nat.add_assoc,
      List.getElem?_eq_getElem hlt, Option.getD_some]

/-- A null in the last word, behind a word with none. -/
theorem the_last_of_66_values_is_visited : ∃ nb, nullBuffer (List.range 66) (· ≠ 65) = some nb ∧
    nb.inner.len = 66 ∧ nb.eachNull arrowChunks = [65] := by
  obtain ⟨hnone, hsome⟩ := (the_nulls_that_are_written_are_visited arrowChunks_yields).2.1
    (List.range 66) (· ≠ 65)
  rcases hnb : nullBuffer (List.range 66) (· ≠ 65) with _ | nb
  · have hall := hnone.mp hnb 65 (by decide)
    simp at hall
  · obtain ⟨hlen, _, hvisits⟩ := hsome nb hnb
    exact ⟨nb, rfl, hlen, hvisits.trans (by decide)⟩

end parquet_interop.validity
