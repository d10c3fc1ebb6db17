-- Bitmaps in 64-bit words: the words of a list of bits, the list of a row of
-- words, and the loop that visits the set bits of a word from the lowest up.
import Mathlib.Algebra.Ring.Nat
import Mathlib.Algebra.Ring.Int.Defs
import Mathlib.Data.List.Basic
import Mathlib.Data.Nat.Bitwise

namespace lib.bits

/-! ## The lowest set bit -/

/-- The first hit of a filter, and the filter without it. -/
theorem filter_of_find {α : Type} [DecidableEq α] {q : α → Bool} {l : List α} (hl : l.Nodup)
    {t : α} (h : l.find? q = some t) :
    l.filter q = t :: l.filter fun i => q i && decide (i ≠ t) := by
  induction l with
  | nil => cases h
  | cons a l ih =>
    obtain ⟨ha, hl⟩ := List.nodup_cons.mp hl
    rw [List.find?_cons] at h
    split at h
    · rename_i hqa
      obtain rfl : a = t := Option.some.inj h
      have hrest : l.filter (fun i => q i && decide (i ≠ a)) = l.filter q := by
        apply List.filter_congr
        intro i hi
        have hne : i ≠ a := fun he => ha (he ▸ hi)
        simp [hne]
      rw [List.filter_cons_of_pos hqa, List.filter_cons_of_neg (by simp), hrest]
    · rename_i hqa
      rw [List.filter_cons_of_neg (by simp [hqa]), List.filter_cons_of_neg (by simp [hqa])]
      exact ih hl h

/-- `x & (x - 1)` clears the lowest set bit and no other. -/
theorem testBit_and_pred {x t : Nat} (ht : x.testBit t = true)
    (hlow : ∀ i < t, x.testBit i = false) (i : Nat) :
    (x &&& (x - 1)).testBit i = (x.testBit i && decide (i ≠ t)) := by
  induction t generalizing x i with
  | zero =>
    have hodd : x % 2 = 1 := by simpa [Nat.testBit_zero] using ht
    cases i with
    | zero =>
      have : (x - 1) % 2 = 0 := by omega
      rw [Nat.testBit_and, Nat.testBit_zero, Nat.testBit_zero, this]
      simp
    | succ i =>
      have hhalf : (x - 1) / 2 = x / 2 := by omega
      rw [Nat.testBit_and, Nat.testBit_succ, Nat.testBit_succ, hhalf]
      simp
  | succ t ih =>
    have heven : x % 2 = 0 := by
      have := hlow 0 (by omega)
      rw [Nat.testBit_zero] at this
      simpa using this
    have hhalf : (x - 1) / 2 = x / 2 - 1 := by omega
    cases i with
    | zero =>
      rw [Nat.testBit_and, Nat.testBit_zero, heven]
      rfl
    | succ i =>
      have := ih (x := x / 2) (by rwa [← Nat.testBit_succ])
        (fun k hk => by rw [← Nat.testBit_succ]; exact hlow (k + 1) (by omega)) i
      rw [Nat.testBit_and] at this ⊢
      rw [Nat.testBit_succ, Nat.testBit_succ, hhalf, this]
      simp

/-- `u64::trailing_zeros`. -/
def trailingZeros (w : BitVec 64) : Nat := ((List.range 64).find? w.getLsbD).getD 64

theorem trailingZeros_find {w : BitVec 64} (h : w ≠ 0) :
    (List.range 64).find? w.getLsbD = some (trailingZeros w) := by
  unfold trailingZeros
  rcases hf : (List.range 64).find? w.getLsbD with _ | t
  · refine absurd (BitVec.eq_of_getLsbD_eq fun i hi => ?_) h
    have hnone := List.find?_eq_none.mp hf i (List.mem_range.mpr hi)
    simpa using hnone
  · rfl

theorem getLsbD_clear {w : BitVec 64} (h : w ≠ 0) (i : Nat) :
    (w &&& (w - 1)).getLsbD i = (w.getLsbD i && decide (i ≠ trailingZeros w)) := by
  have hfind := trailingZeros_find h
  obtain ⟨hset, _, hlow⟩ := List.find?_range_eq_some.mp hfind
  have hpos : w.toNat ≠ 0 := fun h0 => h (BitVec.eq_of_toNat_eq h0)
  have hpred : (w - 1).toNat = w.toNat - 1 := by
    have hlt := w.isLt
    rw [BitVec.toNat_sub]
    simp
    omega
  have := testBit_and_pred (x := w.toNat) (t := trailingZeros w) hset
    (fun k hk => by rw [BitVec.testBit_toNat]; simpa using hlow k hk) i
  rw [← BitVec.testBit_toNat, BitVec.toNat_and, hpred, this, BitVec.testBit_toNat]

theorem clear_lt {w : BitVec 64} (h : w ≠ 0) : (w &&& (w - 1)).toNat < w.toNat := by
  have hpos : w.toNat ≠ 0 := fun h0 => h (BitVec.eq_of_toNat_eq h0)
  have hlt := w.isLt
  have hpred : (w - 1).toNat = w.toNat - 1 := by
    rw [BitVec.toNat_sub]
    simp
    omega
  have hle : w.toNat &&& (w - 1).toNat ≤ (w - 1).toNat := Nat.and_le_right
  rw [BitVec.toNat_and]
  omega

/-- The set bits of a word, by clearing the lowest one until none is left. -/
def visit (w : BitVec 64) : List Nat :=
  if w = 0 then [] else trailingZeros w :: visit (w &&& (w - 1))
termination_by w.toNat
decreasing_by
  rename_i h
  exact clear_lt h

/-- The loop visits exactly the set bits, from the lowest up. -/
theorem visit_eq (w : BitVec 64) : visit w = (List.range 64).filter w.getLsbD := by
  induction w using visit.induct with
  | case1 =>
    rw [visit]
    simp
  | case2 w h ih =>
    rw [visit, if_neg h, ih, filter_of_find List.nodup_range (trailingZeros_find h)]
    congr 1
    exact List.filter_congr fun i _ => getLsbD_clear h i

/-! ## Words of bits -/

/-- The word of at most 64 bits, the first one lowest. -/
def wordOf (bits : List Bool) : BitVec 64 := (BitVec.ofBoolListLE bits).setWidth 64

/-- The first `n` bits of a row of words. -/
def bitsOf (ws : List (BitVec 64)) (n : Nat) : List Bool :=
  (ws.flatMap fun w => (List.range 64).map w.getLsbD).take n

theorem getLsbD_wordOf {bits : List Bool} {i : Nat} (hi : i < 64) :
    (wordOf bits).getLsbD i = (bits[i]?).getD false := by
  unfold wordOf
  rw [BitVec.getLsbD_setWidth, BitVec.getLsbD_ofBoolListLE]
  simp [hi]

/-- Chunk number `k` of 64 bits. -/
def chunk {α : Type} (l : List α) (k : Nat) : List α := (l.drop (64 * k)).take 64

theorem getElem?_chunk {α : Type} (l : List α) (k : Nat) {i : Nat} (hi : i < 64) :
    (chunk l k)[i]? = l[64 * k + i]? := by
  unfold chunk
  rw [List.getElem?_take_of_lt hi, List.getElem?_drop]

/-- A range in chunks of 64 and a remainder. -/
theorem range_chunks (q r : Nat) :
    List.range (64 * q + r) =
      ((List.range q).flatMap fun k => (List.range 64).map (64 * k + ·)) ++
        (List.range r).map (64 * q + ·) := by
  rw [List.range_add]
  congr 1
  induction q with
  | zero => rfl
  | succ q ih =>
    have hsucc : List.range (q + 1) = List.range q ++ [q] := List.range_succ
    rw [Nat.mul_succ, List.range_add, ih, hsucc, List.flatMap_append]
    simp

/-- The zero bits of a full word. -/
theorem visit_not_wordOf (bits : List Bool) (hc : bits.length = 64) :
    visit (~~~wordOf bits) = (List.range 64).filter fun i => bits[i]? = some false := by
  rw [visit_eq]
  apply List.filter_congr
  intro i hi
  rw [List.mem_range] at hi
  rw [BitVec.getLsbD_not, getLsbD_wordOf hi, List.getElem?_eq_getElem (by omega)]
  cases bits[i] <;> simp [hi]

/-- `(1 << r) - 1` has the lowest `r` bits. -/
theorem getLsbD_mask {r : Nat} (hr : r < 64) (i : Nat) :
    ((1 : BitVec 64) <<< r - 1).getLsbD i = decide (i < r) := by
  have hnat : ((1 : BitVec 64) <<< r - 1).toNat = 2 ^ r - 1 := by
    have hpow : 2 ^ r < 2 ^ 64 := Nat.pow_lt_pow_of_lt (by decide) hr
    have hpos : 0 < 2 ^ r := Nat.two_pow_pos r
    have hone : (1 : BitVec 64).toNat = 1 := rfl
    rw [BitVec.toNat_sub, BitVec.toNat_shiftLeft, hone, Nat.shiftLeft_eq, Nat.one_mul,
      Nat.mod_eq_of_lt hpow]
    omega
  rw [← BitVec.testBit_toNat, hnat, Nat.testBit_two_pow_sub_one]

/-- The zero bits of the last word, of which only the first `r` bits count. -/
theorem visit_not_wordOf_mask (bits : List Bool) (hc : bits.length < 64) :
    visit (~~~wordOf bits &&& ((1 : BitVec 64) <<< bits.length - 1)) =
      (List.range bits.length).filter fun i => bits[i]? = some false := by
  have hsplit : List.range 64 =
      List.range bits.length ++ (List.range (64 - bits.length)).map (bits.length + ·) := by
    rw [← List.range_add]
    congr 1
    omega
  rw [visit_eq, hsplit, List.filter_append]
  have hnone : ((List.range (64 - bits.length)).map (bits.length + ·)).filter
      (~~~wordOf bits &&& ((1 : BitVec 64) <<< bits.length - 1)).getLsbD = [] := by
    simp only [List.filter_eq_nil_iff, List.mem_map, List.mem_range]
    rintro i ⟨k, hk, rfl⟩
    rw [BitVec.getLsbD_and, getLsbD_mask hc]
    simp
  rw [hnone, List.append_nil]
  apply List.filter_congr
  intro i hi
  rw [List.mem_range] at hi
  rw [BitVec.getLsbD_and, getLsbD_mask hc, BitVec.getLsbD_not, getLsbD_wordOf (by omega),
    List.getElem?_eq_getElem hi]
  have hi64 : i < 64 := by omega
  cases bits[i] <;> simp [hi, hi64]

/-! ## Bitmaps of words -/

/-- The chunks of 64 of a list, the last one as long as what is left. -/
def chunks {α : Type} (l : List α) : List (List α) := (List.range ((l.length + 63) / 64)).map (chunk l)

theorem length_chunk {α : Type} {l c : List α} (h : c ∈ chunks l) : 0 < c.length ∧ c.length ≤ 64 := by
  obtain ⟨k, hk, rfl⟩ := List.mem_map.mp h
  rw [List.mem_range] at hk
  rw [chunk, List.length_take, List.length_drop]
  omega

theorem chunks_map {α β : Type} (f : α → β) (l : List α) : chunks (l.map f) = (chunks l).map (·.map f) := by
  simp [chunks, chunk, List.map_drop, List.map_take]

theorem flatten_chunks {α : Type} (l : List α) : (chunks l).flatten = l := by
  have hrest : ∀ k, ((List.range k).map (chunk l)).flatten = l.take (64 * k) := by
    intro k
    induction k with
    | zero => simp
    | succ k ih =>
      rw [List.range_succ, List.map_append, List.flatten_append, ih, Nat.mul_succ, List.take_add]
      simp [chunk]
  rw [chunks, hrest, List.take_of_length_le (by omega)]

/-- Bit by bit: `w |= b << i`, from bit `i` on. -/
def setBits : List Bool → Nat → BitVec 64 → BitVec 64
  | [], _, w => w
  | b :: bs, i, w => setBits bs (i + 1) (w ||| (if b then (1 : BitVec 64) else 0) <<< i)

theorem getLsbD_setBits (bs : List Bool) (i : Nat) (w : BitVec 64) {k : Nat} (hk : k < 64) :
    (setBits bs i w).getLsbD k = (w.getLsbD k || (decide (i ≤ k) && (bs[k - i]?).getD false)) := by
  induction bs generalizing i w with
  | nil => simp [setBits]
  | cons b bs ih =>
    have hbit : ((if b then (1 : BitVec 64) else 0) <<< i).getLsbD k = (decide (k = i) && b) := by
      rw [BitVec.getLsbD_shiftLeft]
      cases b
      · simp
      · rw [if_pos rfl]
        have hone : (1 : BitVec 64).getLsbD (k - i) = decide (k - i = 0) := by simp
        rw [hone]
        by_cases hki : k = i
        · simp [hki, hki ▸ hk]
        · simp [hki, hk]
          omega
    rw [setBits, ih, BitVec.getLsbD_or, hbit]
    rcases Nat.lt_trichotomy k i with hlt | heq | hgt
    · simp [Nat.not_le.mpr hlt, Nat.ne_of_lt hlt, show ¬(i + 1 ≤ k) by omega]
    · subst heq
      simp
    · have hsub : k - i = (k - (i + 1)) + 1 := by omega
      simp [hsub, Nat.ne_of_gt hgt, show i + 1 ≤ k by omega, Nat.le_of_lt hgt]

/-- A loop that sets the bits one by one makes their word. -/
theorem setBits_wordOf (bs : List Bool) : setBits bs 0 0 = wordOf bs := by
  apply BitVec.eq_of_getLsbD_eq
  intro k hk
  rw [getLsbD_setBits bs 0 0 hk, getLsbD_wordOf hk]
  simp

/-- The word of a chunk is the ones of its length exactly when every bit is set. -/
theorem wordOf_eq_ones {bs : List Bool} (hlen : bs.length ≤ 64) :
    wordOf bs = BitVec.allOnes 64 >>> (64 - bs.length) ↔ ∀ b ∈ bs, b = true := by
  constructor
  · intro h b hb
    obtain ⟨k, hk, rfl⟩ := List.getElem_of_mem hb
    have hbit := congrArg (BitVec.getLsbD · k) h
    simp only [getLsbD_wordOf (show k < 64 by omega), List.getElem?_eq_getElem hk, Option.getD_some,
      BitVec.getLsbD_ushiftRight, BitVec.getLsbD_allOnes] at hbit
    rw [hbit, decide_eq_true_eq]
    omega
  · intro h
    apply BitVec.eq_of_getLsbD_eq
    intro k hk
    rw [getLsbD_wordOf hk, BitVec.getLsbD_ushiftRight, BitVec.getLsbD_allOnes]
    by_cases hkl : k < bs.length
    · rw [List.getElem?_eq_getElem hkl, Option.getD_some, h _ (List.getElem_mem hkl)]
      simp
      omega
    · rw [List.getElem?_eq_none (by omega)]
      simp
      omega

/-- The words of the chunks of a list of bits are that list. -/
theorem bitsOf_words (l : List Bool) : bitsOf ((chunks l).map wordOf) l.length = l := by
  have hbits : (((chunks l).map wordOf).flatMap fun w => (List.range 64).map w.getLsbD) =
      (List.range (64 * ((l.length + 63) / 64))).map fun j => (l[j]?).getD false := by
    have hrange := range_chunks ((l.length + 63) / 64) 0
    rw [Nat.add_zero, List.range_zero, List.map_nil, List.append_nil] at hrange
    rw [hrange, List.map_flatMap, chunks, List.map_map, List.flatMap_map]
    congr 1
    funext k
    rw [List.map_map]
    apply List.map_congr_left
    intro i hi
    rw [List.mem_range] at hi
    simp only [Function.comp_apply]
    rw [getLsbD_wordOf hi, getElem?_chunk l k hi]
  have hle : l.length ≤ 64 * ((l.length + 63) / 64) := by omega
  rw [bitsOf, hbits, ← List.map_take, List.take_range, Nat.min_eq_left hle]
  apply List.ext_getElem
  · simp
  · intro k h1 h2
    simp [h2]

end lib.bits
