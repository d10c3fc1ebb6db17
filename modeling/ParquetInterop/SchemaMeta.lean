-- The Arrow schema in the footer: the message behind its marker and length, as
-- base64 that the standard decoder takes back to the same bytes.
import ParquetInterop.Lib.Base64
import ParquetInterop.Lib.Bytes
import ParquetInterop.Footer

open lib.bytes
open parquet_interop.footer

namespace parquet_interop.schema_meta

/-! ## The loops of `b64` -/

def A : List Char := "ABCDEFGHIJKLMNOPQRSTUVWXYZabcdefghijklmnopqrstuvwxyz0123456789+/".toList

/-- `data.chunks(3)`: only the last chunk may be shorter. -/
def chunks3 : List UInt8 → List (List UInt8)
  | [] => []
  | [x] => [[x]]
  | [x, y] => [[x, y]]
  | x :: y :: z :: rest => [x, y, z] :: chunks3 rest

/-- `u32::from_be_bytes`. -/
def fromBeBytes (b : List UInt8) : UInt32 := b.foldl (fun w x => w * 256 + x.toUInt32) 0

/-- The chunk as a word. The bytes that it lacks are zero. -/
def word (ch : List UInt8) : UInt32 := fromBeBytes [0, ch.getD 0 0, ch.getD 1 0, ch.getD 2 0]

/-- Character `k` of the four: 6 bits of the word, or the padding past the bytes of the chunk. -/
def char (ch : List UInt8) (k : Nat) : Char :=
  if k ≤ ch.length then A.getD (word ch >>> UInt32.ofNat (18 - 6 * k) &&& 63).toNat '=' else '='

/-- `for k in 0..4`. -/
def push4 (out : String) (ch : List UInt8) : String :=
  (List.range 4).foldl (fun out k => out.push (char ch k)) out

def b64 (data : List UInt8) : String := (chunks3 data).foldl push4 ""

/-! ## The footer metadata -/

structure KeyValue where
  key : String
  value : Option String

def ARROW_SCHEMA_META_KEY : String := "ARROW:schema"

/-- The message behind the continuation marker and its length. -/
def schemaBuf (msg : List UInt8) : List UInt8 :=
  [255, 255, 255, 255] ++ little 4 (msg.length % 2 ^ 32) ++ msg

/-- The crates make the message of a schema. -/
def arrowSchemaMeta (ipcMessage : List Field → List UInt8) (schema : List Field) : KeyValue where
  key := ARROW_SCHEMA_META_KEY
  value := some (b64 (schemaBuf (ipcMessage schema)))

/-! ## What the loops leave -/

theorem word_toNat (ch : List UInt8) : (word ch).toNat =
    (ch.getD 0 0).toNat * 65536 + (ch.getD 1 0).toNat * 256 + (ch.getD 2 0).toNat := by
  unfold word fromBeBytes
  generalize ch.getD 0 0 = b0
  generalize ch.getD 1 0 = b1
  generalize ch.getD 2 0 = b2
  have h0 := b0.toNat_lt
  have h1 := b1.toNat_lt
  have h2 := b2.toNat_lt
  simp
  omega

/-- A shift and a mask are a digit of the word to the base 64. -/
theorem char_eq {ch : List UInt8} {k : Nat} (hk : k ≤ ch.length) :
    char ch k = lib.base64.digit ((word ch).toNat / 2 ^ (18 - 6 * k) % 64) := by
  have hshift : (UInt32.ofNat (18 - 6 * k)).toNat = 18 - 6 * k := by
    rw [UInt32.toNat_ofNat']
    exact Nat.mod_eq_of_lt (by omega)
  have hindex : (word ch >>> UInt32.ofNat (18 - 6 * k) &&& 63).toNat =
      (word ch).toNat / 2 ^ (18 - 6 * k) % 64 := by
    rw [UInt32.toNat_and, UInt32.toNat_shiftRight, hshift, Nat.mod_eq_of_lt (by omega),
      Nat.shiftRight_eq_div_pow]
    exact Nat.and_two_pow_sub_one_eq_mod _ 6
  rw [char, if_pos hk, hindex]
  rfl

theorem char_digit {ch : List UInt8} {k w d : Nat} (hk : k ≤ ch.length) (hw : (word ch).toNat = w)
    (hd : w / 2 ^ (18 - 6 * k) % 64 = d) : char ch k = lib.base64.digit d := by
  rw [char_eq hk, hw, hd]

theorem char_pad {ch : List UInt8} {k : Nat} (hk : ch.length < k) : char ch k = '=' :=
  if_neg (Nat.not_le.mpr hk)

/-- The four characters of a chunk. -/
def four (ch : List UInt8) : List Char := [char ch 0, char ch 1, char ch 2, char ch 3]

theorem toList_push4 (out : String) (ch : List UInt8) :
    (push4 out ch).toList = out.toList ++ four ch := by
  have hrange : List.range 4 = [0, 1, 2, 3] := rfl
  simp [push4, hrange, four]

theorem toList_foldl (chs : List (List UInt8)) (out : String) :
    (chs.foldl push4 out).toList = out.toList ++ chs.flatMap four := by
  induction chs generalizing out with
  | nil => simp
  | cons ch chs ih => simp [ih, toList_push4]

/-- Chunk by chunk, the text is the base64 of the bytes. -/
theorem four_chunks (data : List UInt8) : (chunks3 data).flatMap four = lib.base64.encode data := by
  induction data using chunks3.induct with
  | case1 => rfl
  | case2 x =>
    have hx : x.toNat < 256 := x.toNat_lt
    have hw : (word [x]).toNat = x.toNat * 16 * 4096 := by
      simp [word_toNat]
      omega
    have h0 : char [x] 0 = lib.base64.digit (x.toNat * 16 / 64) := char_digit (by simp) hw (by omega)
    have h1 : char [x] 1 = lib.base64.digit (x.toNat * 16 % 64) := char_digit (by simp) hw (by omega)
    have h2 : char [x] 2 = '=' := char_pad (by simp)
    have h3 : char [x] 3 = '=' := char_pad (by simp)
    simp [chunks3, four, lib.base64.encode, h0, h1, h2, h3]
  | case3 x y =>
    have hx : x.toNat < 256 := x.toNat_lt
    have hy : y.toNat < 256 := y.toNat_lt
    have hw : (word [x, y]).toNat = (x.toNat * 256 + y.toNat) * 4 * 64 := by
      simp [word_toNat]
      omega
    have h0 : char [x, y] 0 = lib.base64.digit ((x.toNat * 256 + y.toNat) * 4 / 4096) :=
      char_digit (by simp) hw (by omega)
    have h1 : char [x, y] 1 = lib.base64.digit ((x.toNat * 256 + y.toNat) * 4 / 64 % 64) :=
      char_digit (by simp) hw (by omega)
    have h2 : char [x, y] 2 = lib.base64.digit ((x.toNat * 256 + y.toNat) * 4 % 64) :=
      char_digit (by simp) hw (by omega)
    have h3 : char [x, y] 3 = '=' := char_pad (by simp)
    simp [chunks3, four, lib.base64.encode, h0, h1, h2, h3]
  | case4 x y z rest ih =>
    have hx : x.toNat < 256 := x.toNat_lt
    have hy : y.toNat < 256 := y.toNat_lt
    have hz : z.toNat < 256 := z.toNat_lt
    have hw : (word [x, y, z]).toNat = x.toNat * 65536 + y.toNat * 256 + z.toNat := by
      simp [word_toNat]
    have hk : ∀ k < 4, char [x, y, z] k = lib.base64.digit
        ((x.toNat * 65536 + y.toNat * 256 + z.toNat) / 2 ^ (18 - 6 * k) % 64) := by
      intro k hk
      exact char_digit (Nat.le_of_lt_succ hk) hw rfl
    have htop : (x.toNat * 65536 + y.toNat * 256 + z.toNat) / 262144 < 64 := by omega
    simp [chunks3, four, lib.base64.encode, hk, ih, Nat.mod_eq_of_lt htop]

theorem toList_b64 (data : List UInt8) : (b64 data).toList = lib.base64.encode data := by
  rw [b64, toList_foldl, four_chunks]
  simp

/-! ## The laws -/

/-- What stands in the footer is the base64 of the bytes: as long as it has to be, taken back to
the bytes by the decoder, and the only text that is. -/
theorem the_text_is_the_base64_of_its_bytes (data : List UInt8) :
    (b64 data).toList = lib.base64.encode data ∧ (b64 data).length = 4 * ((data.length + 2) / 3) ∧
    lib.base64.decode (b64 data).toList = some data ∧
    ∀ text, lib.base64.decode text = some data ↔ text = (b64 data).toList := by
  have htext := toList_b64 data
  refine ⟨htext, ?_, ?_, ?_⟩
  · rw [← String.length_toList, htext, lib.base64.length_encode]
  · rw [htext, lib.base64.decode_encode]
  · intro text
    rw [htext]
    constructor
    · intro h
      exact (lib.base64.encode_decode h).symm
    · rintro rfl
      exact lib.base64.decode_encode data

example : b64 [102, 111, 111, 98] = "Zm9vYg==" := by decide

/-- A reader of the metadata finds the message of the schema, whole, when its length is a `u32`. -/
theorem the_message_is_in_the_metadata (ipcMessage : List Field → List UInt8) (schema : List Field)
    (h : (ipcMessage schema).length < 2 ^ 32) : ∃ value buf,
      (arrowSchemaMeta ipcMessage schema).value = some value ∧
      lib.base64.decode value.toList = some buf ∧ ofLittle ((buf.drop 4).take 4) = (buf.drop 8).length ∧
      buf.drop 8 = ipcMessage schema := by
  refine ⟨_, schemaBuf (ipcMessage schema), rfl, ?_, ?_, ?_⟩
  · rw [toList_b64, lib.base64.decode_encode]
  · have hlen : ofLittle (little 4 ((ipcMessage schema).length % 2 ^ 32)) = (ipcMessage schema).length := by
      rw [Nat.mod_eq_of_lt h]
      exact ofLittle_little h
    simpa [schemaBuf] using hlen
  · simp [schemaBuf]

end parquet_interop.schema_meta
