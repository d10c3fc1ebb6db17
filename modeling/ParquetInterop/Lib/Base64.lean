-- Base64 as RFC 4648 has it: the standard alphabet, three bytes as four
-- characters with the padding of the last group, and the decoder of such texts.
import Mathlib.Algebra.Ring.Nat
import Mathlib.Algebra.Ring.Int.Defs
import Mathlib.Data.List.Basic

namespace lib.base64

/-! ## The alphabet -/

def alphabet : List Char := [
  'A', 'B', 'C', 'D', 'E', 'F', 'G', 'H', 'I', 'J', 'K', 'L', 'M',
  'N', 'O', 'P', 'Q', 'R', 'S', 'T', 'U', 'V', 'W', 'X', 'Y', 'Z',
  'a', 'b', 'c', 'd', 'e', 'f', 'g', 'h', 'i', 'j', 'k', 'l', 'm',
  'n', 'o', 'p', 'q', 'r', 's', 't', 'u', 'v', 'w', 'x', 'y', 'z',
  '0', '1', '2', '3', '4', '5', '6', '7', '8', '9', '+', '/']

/-- The character of a 6-bit value. -/
def digit (v : Nat) : Char := alphabet.getD v '='

/-- The 6-bit value of a character, when the alphabet has it. -/
def value (c : Char) : Option Nat :=
  if 'A' ≤ c ∧ c ≤ 'Z' then some (c.toNat - 'A'.toNat)
  else if 'a' ≤ c ∧ c ≤ 'z' then some (c.toNat - 'a'.toNat + 26)
  else if '0' ≤ c ∧ c ≤ '9' then some (c.toNat - '0'.toNat + 52)
  else if c = '+' then some 62
  else if c = '/' then some 63
  else none

theorem value_digit {v : Nat} (hv : v < 64) : value (digit v) = some v := by
  have hall : ∀ v < 64, value (digit v) = some v := by decide +kernel
  exact hall v hv

theorem digit_ne_pad {v : Nat} (hv : v < 64) : digit v ≠ '=' := by
  intro h
  have hvalue := value_digit hv
  rw [h] at hvalue
  cases hvalue

/-! ## The encoder -/

/-- A group of 24 bits is four characters. The last group gets zero bits up to a whole number of
characters, and the padding up to four. -/
def encode : List UInt8 → List Char
  | [] => []
  | [a] =>
    let w := a.toNat * 16
    [digit (w / 64), digit (w % 64), '=', '=']
  | [a, b] =>
    let w := (a.toNat * 256 + b.toNat) * 4
    [digit (w / 4096), digit (w / 64 % 64), digit (w % 64), '=']
  | a :: b :: c :: rest =>
    let w := a.toNat * 65536 + b.toNat * 256 + c.toNat
    digit (w / 262144) :: digit (w / 4096 % 64) :: digit (w / 64 % 64) :: digit (w % 64) :: encode rest

theorem length_encode (l : List UInt8) : (encode l).length = 4 * ((l.length + 2) / 3) := by
  induction l using encode.induct with
  | case1 => rfl
  | case2 a => simp [encode]
  | case3 a b => simp [encode]
  | case4 a b c rest ih =>
    have hdiv : (rest.length + 1 + 1 + 1 + 2) / 3 = (rest.length + 2) / 3 + 1 := by omega
    simp only [encode, List.length_cons, ih, hdiv]
    omega

/-! ## The decoder -/

/-- The last group of a padded text. Its spare bits are zero. -/
def decodeLast (c0 c1 c2 : Char) : Option (List UInt8) := do
  let v0 ← value c0
  let v1 ← value c1
  if c2 = '=' then
    let w := v0 * 64 + v1
    if w % 16 = 0 then some [UInt8.ofNat (w / 16)] else none
  else
    let v2 ← value c2
    let w := v0 * 4096 + v1 * 64 + v2
    if w % 4 = 0 then some [UInt8.ofNat (w / 1024), UInt8.ofNat (w / 4)] else none

/-- Four characters are three bytes, unless they are the last four and end in the padding. -/
def decode : List Char → Option (List UInt8)
  | [] => some []
  | c0 :: c1 :: c2 :: c3 :: rest =>
    if rest = [] ∧ c3 = '=' then decodeLast c0 c1 c2
    else do
      let v0 ← value c0
      let v1 ← value c1
      let v2 ← value c2
      let v3 ← value c3
      let w := v0 * 262144 + v1 * 4096 + v2 * 64 + v3
      let bytes ← decode rest
      some (UInt8.ofNat (w / 65536) :: UInt8.ofNat (w / 256) :: UInt8.ofNat w :: bytes)
  | _ => none

theorem byte_of {a : UInt8} {n : Nat} (h : n % 256 = a.toNat) : UInt8.ofNat n = a := by
  apply UInt8.toNat_inj.mp
  rw [UInt8.toNat_ofNat']
  exact h

theorem four_digits (w : Nat) :
    w / 262144 * 262144 + w / 4096 % 64 * 4096 + w / 64 % 64 * 64 + w % 64 = w := by
  omega

theorem three_bytes (w : Nat) : w / 65536 * 65536 + w / 256 % 256 * 256 + w % 256 = w := by
  omega

theorem decode_encode (l : List UInt8) : decode (encode l) = some l := by
  induction l using encode.induct with
  | case1 => rfl
  | case2 a =>
    have ha := a.toNat_lt
    have hspare : a.toNat * 16 % 16 = 0 := by omega
    have hbyte : UInt8.ofNat (a.toNat * 16 / 16) = a := byte_of (by omega)
    have hw : a.toNat * 16 / 64 * 64 + a.toNat * 16 % 64 = a.toNat * 16 := Nat.div_add_mod' _ _
    rw [encode, decode, if_pos ⟨rfl, rfl⟩, decodeLast, value_digit (by omega), value_digit (by omega)]
    simp only [Option.bind_eq_bind, Option.bind_some, if_pos, hw, hspare, hbyte]
  | case3 a b =>
    have ha := a.toNat_lt
    have hb := b.toNat_lt
    rw [encode]
    generalize hwdef : (a.toNat * 256 + b.toNat) * 4 = w
    have hw : w / 4096 * 4096 + w / 64 % 64 * 64 + w % 64 = w := by omega
    have hspare : w % 4 = 0 := by omega
    have hfirst : UInt8.ofNat (w / 1024) = a := byte_of (by omega)
    have hsecond : UInt8.ofNat (w / 4) = b := byte_of (by omega)
    have hpad : digit (w % 64) ≠ '=' := digit_ne_pad (by omega)
    rw [decode, if_pos ⟨rfl, rfl⟩, decodeLast, value_digit (by omega), value_digit (by omega),
      value_digit (by omega)]
    simp only [Option.bind_eq_bind, Option.bind_some, if_pos, if_neg hpad, hw, hspare, hfirst, hsecond]
  | case4 a b c rest ih =>
    have ha := a.toNat_lt
    have hb := b.toNat_lt
    have hc := c.toNat_lt
    rw [encode]
    generalize hwdef : a.toNat * 65536 + b.toNat * 256 + c.toNat = w
    have hw := four_digits w
    have hfirst : UInt8.ofNat (w / 65536) = a := byte_of (by omega)
    have hsecond : UInt8.ofNat (w / 256) = b := byte_of (by omega)
    have hthird : UInt8.ofNat w = c := byte_of (by omega)
    have hpad : ¬(encode rest = [] ∧ digit (w % 64) = '=') := fun h => digit_ne_pad (by omega) h.2
    rw [decode, if_neg hpad, value_digit (by omega), value_digit (by omega), value_digit (by omega),
      value_digit (by omega), ih]
    simp only [Option.bind_eq_bind, Option.bind_some, hw, hfirst, hsecond, hthird]

/-- The alphabet gives a value its own character and no other. -/
theorem digit_value {c : Char} {v : Nat} (h : value c = some v) : v < 64 ∧ digit v = c := by
  have hall : ∀ n < 128, (value (Char.ofNat n)).all fun v => v < 64 ∧ digit v = Char.ofNat n := by
    decide +kernel
  have hlt : c.toNat < 128 := by
    have hbound : ∀ d : Char, d.toNat < 128 → c ≤ d → c.toNat < 128 := fun d hd hc =>
      Nat.lt_of_le_of_lt (Char.le_def.mp hc) hd
    unfold value at h
    split at h
    · rename_i hc
      exact hbound 'Z' (by decide) hc.2
    split at h
    · rename_i hc
      exact hbound 'z' (by decide) hc.2
    split at h
    · rename_i hc
      exact hbound '9' (by decide) hc.2
    split at h
    · rename_i hc
      subst hc
      decide
    split at h
    · rename_i hc
      subst hc
      decide
    · cases h
  have hc := hall c.toNat hlt
  rw [Char.ofNat_toNat, h] at hc
  simpa using hc

theorem toNat_byte {n : Nat} (h : n < 256) : (UInt8.ofNat n).toNat = n := by
  rw [UInt8.toNat_ofNat']
  exact Nat.mod_eq_of_lt h

theorem encode_decodeLast {c0 c1 c2 : Char} {l : List UInt8} (h : decodeLast c0 c1 c2 = some l) :
    encode l = [c0, c1, c2, '='] := by
  unfold decodeLast at h
  simp only [Option.bind_eq_bind, Option.bind_eq_some_iff] at h
  obtain ⟨v0, h0, v1, h1, h⟩ := h
  obtain ⟨hv0, hd0⟩ := digit_value h0
  obtain ⟨hv1, hd1⟩ := digit_value h1
  by_cases hpad : c2 = '='
  · rw [if_pos hpad] at h
    split at h
    · rename_i hspare
      cases h
      have hbyte : (UInt8.ofNat ((v0 * 64 + v1) / 16)).toNat = (v0 * 64 + v1) / 16 := toNat_byte (by omega)
      have hw : (v0 * 64 + v1) / 16 * 16 = v0 * 64 + v1 := by omega
      have hhigh : (v0 * 64 + v1) / 64 = v0 := by omega
      have hlow : (v0 * 64 + v1) % 64 = v1 := by omega
      simp only [encode, hbyte, hw, hhigh, hlow, hd0, hd1, hpad]
    · cases h
  · rw [if_neg hpad, Option.bind_eq_some_iff] at h
    obtain ⟨v2, h2, h⟩ := h
    obtain ⟨hv2, hd2⟩ := digit_value h2
    split at h
    · rename_i hspare
      cases h
      generalize hwdef : v0 * 4096 + v1 * 64 + v2 = w at hspare
      have hfirst : (UInt8.ofNat (w / 1024)).toNat = w / 1024 := toNat_byte (by omega)
      have hsecond : (UInt8.ofNat (w / 4)).toNat = w / 4 % 256 := UInt8.toNat_ofNat'
      have hw : (w / 1024 * 256 + w / 4 % 256) * 4 = w := by omega
      have hhigh : w / 4096 = v0 := by omega
      have hmid : w / 64 % 64 = v1 := by omega
      have hlow : w % 64 = v2 := by omega
      simp only [encode, hfirst, hsecond, hw, hhigh, hmid, hlow, hd0, hd1, hd2]
    · cases h

/-- A text that is decoded is the text of its bytes. -/
theorem encode_decode {text : List Char} {l : List UInt8} (h : decode text = some l) : encode l = text := by
  induction text using decode.induct generalizing l with
  | case1 =>
    cases h
    rfl
  | case2 c0 c1 c2 c3 rest hlast =>
    obtain ⟨rfl, rfl⟩ := hlast
    rw [decode, if_pos ⟨rfl, rfl⟩] at h
    exact encode_decodeLast h
  | case3 c0 c1 c2 c3 rest hlast ih =>
    rw [decode, if_neg hlast] at h
    simp only [Option.bind_eq_bind, Option.bind_eq_some_iff] at h
    obtain ⟨v0, h0, v1, h1, v2, h2, v3, h3, bytes, hbytes, h⟩ := h
    obtain ⟨hv0, hd0⟩ := digit_value h0
    obtain ⟨hv1, hd1⟩ := digit_value h1
    obtain ⟨hv2, hd2⟩ := digit_value h2
    obtain ⟨hv3, hd3⟩ := digit_value h3
    cases h
    generalize hwdef : v0 * 262144 + v1 * 4096 + v2 * 64 + v3 = w
    have hfirst : (UInt8.ofNat (w / 65536)).toNat = w / 65536 := toNat_byte (by omega)
    have hsecond : (UInt8.ofNat (w / 256)).toNat = w / 256 % 256 := UInt8.toNat_ofNat'
    have hthird : (UInt8.ofNat w).toNat = w % 256 := UInt8.toNat_ofNat'
    have hw := three_bytes w
    have hw0 : w / 262144 = v0 := by omega
    have hw1 : w / 4096 % 64 = v1 := by omega
    have hw2 : w / 64 % 64 = v2 := by omega
    have hw3 : w % 64 = v3 := by omega
    simp only [encode, hfirst, hsecond, hthird, hw, hw0, hw1, hw2, hw3, hd0, hd1, hd2, hd3, ih hbytes]
  | case4 text hnil hcons =>
    rw [decode] at h
    · cases h
    · exact hnil
    · exact hcons

end lib.base64
