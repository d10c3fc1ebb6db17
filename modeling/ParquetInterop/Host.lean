-- The tagged 64-bit values of the host: what a word is, where its payload is,
-- and which value it stands for. The adapter reads its arguments out of them.
import Mathlib.Data.BitVec
import ParquetInterop.Ffi
import ParquetInterop.Lib.Reading

open lib.reading
open parquet_interop.ffi

namespace parquet_interop.host

/-! ## Words -/

/-- A type tag in the top 6 bits, and a value or a payload pointer in the low 58. -/
abbrev K : Type := BitVec 64

/-- The address of an interned C string. -/
abbrev Ptr : Type := BitVec 64

/-- The tag of an inline long. -/
def KJL : Int := 39

def XT : Int := 98

def XD : Int := 99

def TAG_SHIFT : Nat := 58

def PTR_MASK : K := BitVec.allOnes 64 >>> 6

/-- Not zero for an atom, and zero for a heap object. -/
def vtag (x : K) : Int := (x >>> TAG_SHIFT).toNat

/-- The payload base. -/
def va (x : K) : K := x &&& PTR_MASK

/-! ## The heap -/

/-- A payload, at the width at which the host filled it. `other` is one that the adapter
reads at no width. -/
inductive Payload where
  | g (xs : List UInt8)
  | h (xs : List Int16)
  | i (xs : List Int32)
  | j (xs : List Int64)
  | s (xs : List Ptr)
  | k (xs : List K)
  | other

/-- A heap object: its subtype, its element count and its payload. -/
structure Obj where
  vt : Int
  vn : Nat
  payload : Payload

/-- What the host keeps: the heap objects and the 8-byte cells of atoms at their addresses, and the
interned strings. -/
structure Memory where
  obj : K → Option Obj
  cell : K → Option Int64
  cstr : Ptr → Option (List UInt8)

variable (m : Memory)

def vt (x : K) : Option Int := (m.obj (va x)).map (·.vt)

def vn (x : K) : Option Nat := (m.obj (va x)).map (·.vn)

/-- The signed type: `-tag` for an atom, and the subtype for a heap object. Both forms of a long
report as one. -/
def kt (x : K) : Option Int :=
  let t := vtag x
  if t = KJL then some (-LType.KJ.tag)
  else if t ≠ 0 then some (-t)
  else vt m x

/-- The value bits of an atom. -/
def kjv (x : K) : Option Int64 :=
  let half : K := BitVec.twoPow 64 57
  let t := vtag x
  if t = KJL then some (Int64.ofBitVec (((x &&& PTR_MASK) ^^^ half) - half))
  else if t ∈ [LType.KJ.tag, LType.KF.tag, LType.KZ.tag, LType.KP.tag, LType.KN.tag] then m.cell (va x)
  else some (Int64.ofBitVec (x &&& PTR_MASK))

/-- The value of an integral atom. A narrow one gets its sign back at its own width. -/
def atomI64 (x : K) : Reading (Option Int64) :=
  let t := vtag x
  if t = KJL ∨ t = LType.KJ.tag then some <$> liftM (kjv m x)
  else if t = LType.KI.tag then (fun v => some v.toInt32.toInt64) <$> liftM (kjv m x)
  else if t = LType.KH.tag then (fun v => some v.toInt16.toInt64) <$> liftM (kjv m x)
  else pure none

/-- The element count. An atom counts as one. -/
def kn (x : K) : Option Nat := if vtag x ≠ 0 then some 1 else vn m x

/-- The string of a symbol atom. -/
def ls (x : K) : Ptr := va x

/-! ## Typed views of a payload -/

/-- Element `i` of a payload that the host filled at this width. -/
def view {T : Type} (at_width : Payload → Option (List T)) (x : K) (i : Nat) : Option T :=
  (m.obj (va x)).bind fun o => (at_width o.payload).bind fun xs => xs[i]?

def vG : K → Nat → Option UInt8 := view m fun | .g xs => some xs | _ => none

def vH : K → Nat → Option Int16 := view m fun | .h xs => some xs | _ => none

def vI : K → Nat → Option Int32 := view m fun | .i xs => some xs | _ => none

def vJ : K → Nat → Option Int64 := view m fun | .j xs => some xs | _ => none

def vS : K → Nat → Option Ptr := view m fun | .s xs => some xs | _ => none

def vK : K → Nat → Option K := view m fun | .k xs => some xs | _ => none

/-! ## Values -/

/-- A value of L, as far as an argument of the adapter can tell. `atom` is an atom of a tag that is
no symbol, boolean, short, int or long, and `heap` is an object of a subtype that has no constructor
here. -/
inductive Q where
  | sym (s : Sym)
  | bool (b : Bool)
  | short (v : Int16)
  | int (v : Int32)
  | long (v : Int64)
  | atom (tag : Int)
  | syms (xs : List Sym)
  | bools (xs : List Bool)
  | shorts (xs : List Int16)
  | ints (xs : List Int32)
  | longs (xs : List Int64)
  | list (xs : List Q)
  | dict (keys vals : Q)
  | heap (vt : Int) (n : Nat)

/-- The tags of the atoms and the subtypes of the objects that have a constructor of their own. -/
def atomTags : List Int := [0, LType.KB.tag, LType.KH.tag, LType.KI.tag, LType.KJ.tag, LType.KS.tag, KJL]

def heapTypes : List Int :=
  [0, LType.KB.tag, LType.KH.tag, LType.KI.tag, LType.KJ.tag, LType.KS.tag, XD]

/-- The count of a list or a vector. The sides of a dict are such. -/
def Q.count : Q → Option Nat
  | .syms xs => some xs.length
  | .bools xs => some xs.length
  | .shorts xs => some xs.length
  | .ints xs => some xs.length
  | .longs xs => some xs.length
  | .list xs => some xs.length
  | .heap _ n => some n
  | _ => none

/-- The word stands for the value. A long is inline, sign-extended from bit 57, or in a cell of its
own. A narrow atom is in the low bits, and what is above them says nothing. The sides of a dict are
lists of one length. -/
inductive Value : K → Q → Prop
  | sym {x : K} {b : List UInt8} : vtag x = LType.KS.tag → m.cstr (va x) = some b → Value x (.sym ⟨b⟩)
  | bool {x : K} {b : Bool} : vtag x = LType.KB.tag → (x.setWidth 8 ≠ 0 ↔ b = true) → Value x (.bool b)
  | short {x : K} {v : Int16} : vtag x = LType.KH.tag → x.setWidth 16 = v.toBitVec → Value x (.short v)
  | int {x : K} {v : Int32} : vtag x = LType.KI.tag → x.setWidth 32 = v.toBitVec → Value x (.int v)
  | inline {x : K} {v : Int64} : vtag x = KJL → (x.setWidth 58).signExtend 64 = v.toBitVec →
      Value x (.long v)
  | long {x : K} {v : Int64} : vtag x = LType.KJ.tag → m.cell (va x) = some v → Value x (.long v)
  | atom {x : K} : vtag x ∉ atomTags → Value x (.atom (vtag x))
  | syms {x : K} {ps : List Ptr} {xs : List Sym} : vtag x = 0 →
      m.obj (va x) = some ⟨LType.KS.tag, xs.length, .s ps⟩ →
      List.Forall₂ (fun p s => m.cstr p = some s.bytes) ps xs → Value x (.syms xs)
  | bools {x : K} {bs : List UInt8} {xs : List Bool} : vtag x = 0 →
      m.obj (va x) = some ⟨LType.KB.tag, xs.length, .g bs⟩ →
      List.Forall₂ (fun g b => g ≠ 0 ↔ b = true) bs xs → Value x (.bools xs)
  | shorts {x : K} {xs : List Int16} : vtag x = 0 →
      m.obj (va x) = some ⟨LType.KH.tag, xs.length, .h xs⟩ → Value x (.shorts xs)
  | ints {x : K} {xs : List Int32} : vtag x = 0 →
      m.obj (va x) = some ⟨LType.KI.tag, xs.length, .i xs⟩ → Value x (.ints xs)
  | longs {x : K} {xs : List Int64} : vtag x = 0 →
      m.obj (va x) = some ⟨LType.KJ.tag, xs.length, .j xs⟩ → Value x (.longs xs)
  | list {x : K} {ws : List K} {xs : List Q} : vtag x = 0 →
      m.obj (va x) = some ⟨0, xs.length, .k ws⟩ → ws.length = xs.length →
      (∀ (i : Nat) w q, ws[i]? = some w → xs[i]? = some q → Value w q) → Value x (.list xs)
  | dict {x kw vw : K} {n c : Nat} {keys vals : Q} : vtag x = 0 →
      m.obj (va x) = some ⟨XD, n, .k [kw, vw]⟩ → keys.count = some c → vals.count = some c →
      Value kw keys → Value vw vals → Value x (.dict keys vals)
  | heap {x : K} {o : Obj} : vtag x = 0 → m.obj (va x) = some o → 0 ≤ o.vt → o.vt ∉ heapTypes →
      Value x (.heap o.vt o.vn)

/-! ## The sign of a word -/

theorem toNat_va (x : K) : (x &&& PTR_MASK).toNat = x.toNat % 2 ^ 58 := by
  have hmask : PTR_MASK.toNat = 2 ^ 58 - 1 := by decide
  rw [BitVec.toNat_and, hmask, Nat.and_two_pow_sub_one_eq_mod]

/-- Exclusive or with the top bit of a window adds that bit, and drops the carry. -/
theorem xor_top {n k : Nat} (h : n < 2 ^ (k + 1)) : n ^^^ 2 ^ k = if n < 2 ^ k then n + 2 ^ k else n - 2 ^ k := by
  have hlow : ∀ r < 2 ^ k, r ^^^ 2 ^ k = r + 2 ^ k := by
    intro r hr
    rw [Nat.add_comm]
    apply Nat.eq_of_testBit_eq
    intro i
    rw [Nat.testBit_xor, Nat.testBit_two_pow]
    rcases Nat.lt_trichotomy i k with hi | rfl | hi
    · rw [Nat.testBit_two_pow_add_gt hi]
      simp [show k ≠ i by omega]
    · rw [Nat.testBit_two_pow_add_eq, Nat.testBit_lt_two_pow hr]
      simp
    · have hpow : 2 ^ (k + 1) ≤ 2 ^ i := Nat.pow_le_pow_right (by omega) hi
      have hsum : 2 ^ k + r < 2 ^ i := by
        rw [Nat.pow_succ] at hpow
        omega
      rw [Nat.testBit_lt_two_pow hsum, Nat.testBit_lt_two_pow (by omega)]
      simp [show k ≠ i by omega]
  split
  · exact hlow n ‹_›
  · have hr := hlow (n - 2 ^ k) (by rw [Nat.pow_succ] at h; omega)
    have hn : n = (n - 2 ^ k) ^^^ 2 ^ k := by omega
    conv_lhs => rw [hn]
    rw [Nat.xor_assoc, Nat.xor_self, Nat.xor_zero]

/-- The inline window is read with its sign. -/
theorem inline_sign (x : K) : ((x &&& PTR_MASK) ^^^ BitVec.twoPow 64 57) - BitVec.twoPow 64 57 =
    (x.setWidth 58).signExtend 64 := by
  have hn : x.toNat % 2 ^ 58 < 2 ^ (57 + 1) := Nat.mod_lt _ (by omega)
  have htop : (BitVec.twoPow 64 57).toNat = 2 ^ 57 := by decide
  have hmsb : (x.setWidth 58).msb = decide (2 ^ 57 ≤ x.toNat % 2 ^ 58) := by
    rw [BitVec.msb_eq_decide, BitVec.toNat_setWidth]
  apply BitVec.eq_of_toNat_eq
  rw [BitVec.toNat_sub, BitVec.toNat_xor, toNat_va, htop, xor_top hn, BitVec.toNat_signExtend, hmsb,
    BitVec.toNat_setWidth, BitVec.toNat_setWidth]
  split
  · have hlt : ¬2 ^ 57 ≤ x.toNat % 2 ^ 58 := by omega
    simp only [hlt, decide_false, Bool.false_eq_true, if_false]
    omega
  · have hle : 2 ^ 57 ≤ x.toNat % 2 ^ 58 := by omega
    simp only [hle, decide_true, if_true]
    omega

/-! ## Reading a value -/

/-- The signed type of a value. -/
def Q.kt : Q → Int
  | .sym _ => -LType.KS.tag
  | .bool _ => -LType.KB.tag
  | .short _ => -LType.KH.tag
  | .int _ => -LType.KI.tag
  | .long _ => -LType.KJ.tag
  | .atom tag => -tag
  | .syms _ => LType.KS.tag
  | .bools _ => LType.KB.tag
  | .shorts _ => LType.KH.tag
  | .ints _ => LType.KI.tag
  | .longs _ => LType.KJ.tag
  | .list _ => 0
  | .dict _ _ => XD
  | .heap vt _ => vt

/-- The value of an integral atom. -/
def Q.asLong : Q → Option Int64
  | .long v => some v
  | .int v => some v.toInt64
  | .short v => some v.toInt64
  | _ => none

variable {m : Memory} {x : K} {q : Q}

theorem kt_atom {t : Int} (ht : vtag x = t) (h0 : t ≠ 0) (hl : t ≠ KJL) : kt m x = some (-t) := by
  unfold kt
  dsimp only
  rw [ht, if_neg hl, if_pos h0]

theorem kt_heap {o : Obj} (ht : vtag x = 0) (ho : m.obj (va x) = some o) : kt m x = some o.vt := by
  unfold kt vt
  dsimp only
  rw [ht, if_neg (by decide), if_neg (by simp), ho]
  rfl

theorem kn_heap {o : Obj} (ht : vtag x = 0) (ho : m.obj (va x) = some o) : kn m x = some o.vn := by
  unfold kn vn
  rw [if_neg (by simp [ht]), ho]
  rfl

theorem value_kt (h : Value m x q) : kt m x = some q.kt := by
  cases h with
  | sym ht _ => exact kt_atom ht (by decide) (by decide)
  | bool ht _ => exact kt_atom ht (by decide) (by decide)
  | short ht _ => exact kt_atom ht (by decide) (by decide)
  | int ht _ => exact kt_atom ht (by decide) (by decide)
  | inline ht _ =>
    unfold kt
    dsimp only
    rw [if_pos ht]
    rfl
  | long ht _ => exact kt_atom ht (by decide) (by decide)
  | atom ht =>
    apply kt_atom rfl
    · intro h0
      rw [h0] at ht
      exact ht (by decide)
    · intro hl
      rw [hl] at ht
      exact ht (by decide)
  | syms ht ho _ => exact kt_heap ht ho
  | bools ht ho _ => exact kt_heap ht ho
  | shorts ht ho => exact kt_heap ht ho
  | ints ht ho => exact kt_heap ht ho
  | longs ht ho => exact kt_heap ht ho
  | list ht ho _ _ => exact kt_heap ht ho
  | dict ht ho _ _ _ _ => exact kt_heap ht ho
  | heap ht ho _ _ => exact kt_heap ht ho

/-- A value has a count: that of its list, or one for an atom. -/
theorem value_kn (h : Value m x q) : ∃ n, kn m x = some n ∧ ∀ c, q.count = some c → n = c := by
  have hatom : vtag x ≠ 0 → kn m x = some 1 := fun ht => by rw [kn, if_pos ht]
  cases h with
  | sym ht _ => exact ⟨1, hatom (by rw [ht]; decide), fun c hc => nomatch hc⟩
  | bool ht _ => exact ⟨1, hatom (by rw [ht]; decide), fun c hc => nomatch hc⟩
  | short ht _ => exact ⟨1, hatom (by rw [ht]; decide), fun c hc => nomatch hc⟩
  | int ht _ => exact ⟨1, hatom (by rw [ht]; decide), fun c hc => nomatch hc⟩
  | inline ht _ => exact ⟨1, hatom (by rw [ht]; decide), fun c hc => nomatch hc⟩
  | long ht _ => exact ⟨1, hatom (by rw [ht]; decide), fun c hc => nomatch hc⟩
  | atom ht =>
    refine ⟨1, hatom fun h0 => ?_, fun c hc => nomatch hc⟩
    rw [h0] at ht
    exact ht (by decide)
  | syms ht ho _ => exact ⟨_, kn_heap ht ho, fun c hc => Option.some.inj hc⟩
  | bools ht ho _ => exact ⟨_, kn_heap ht ho, fun c hc => Option.some.inj hc⟩
  | shorts ht ho => exact ⟨_, kn_heap ht ho, fun c hc => Option.some.inj hc⟩
  | ints ht ho => exact ⟨_, kn_heap ht ho, fun c hc => Option.some.inj hc⟩
  | longs ht ho => exact ⟨_, kn_heap ht ho, fun c hc => Option.some.inj hc⟩
  | list ht ho _ _ => exact ⟨_, kn_heap ht ho, fun c hc => Option.some.inj hc⟩
  | dict ht ho _ _ _ _ => exact ⟨_, kn_heap ht ho, fun c hc => nomatch hc⟩
  | heap ht ho _ _ => exact ⟨_, kn_heap ht ho, fun c hc => Option.some.inj hc⟩

theorem value_vn {c : Nat} (h : Value m x q) (hc : q.count = some c) : vn m x = some c := by
  obtain ⟨n, hn, hnc⟩ := value_kn h
  have hobj : vtag x = 0 := by
    cases h <;> first | assumption | cases hc
  rw [kn, if_neg (by simp [hobj])] at hn
  rw [hn, hnc c hc]

theorem value_vt {c : Nat} (h : Value m x q) (hc : q.count = some c) : vt m x = some q.kt := by
  have hobj : vtag x = 0 := by
    cases h <;> first | assumption | cases hc
  have hkt := value_kt h
  unfold kt at hkt
  dsimp only at hkt
  rwa [hobj, if_neg (by decide), if_neg (by simp)] at hkt

theorem view_at {T : Type} {o : Obj} {at_width : Payload → Option (List T)} {xs : List T} {i : Nat}
    (ho : m.obj (va x) = some o) (hw : at_width o.payload = some xs) :
    view m at_width x i = xs[i]? := by
  rw [view, ho, Option.bind_some, hw, Option.bind_some]

/-- The element of a general list. -/
theorem value_slot {xs : List Q} (h : Value m x (.list xs)) {i : Nat} {e : Q} (he : xs[i]? = some e) :
    ∃ w, vK m x i = some w ∧ Value m w e := by
  cases h with
  | @list _ ws _ ht ho hlen hall =>
    have hi := (List.getElem?_eq_some_iff.mp he).1
    obtain ⟨w, hw⟩ : ∃ w, ws[i]? = some w := ⟨_, List.getElem?_eq_getElem (hlen ▸ hi)⟩
    exact ⟨w, (view_at ho rfl).trans hw, hall i w e hw he⟩

theorem value_sides {keys vals : Q} (h : Value m x (.dict keys vals)) :
    ∃ kw vw c, vK m x 0 = some kw ∧ vK m x 1 = some vw ∧ Value m kw keys ∧ Value m vw vals ∧
      keys.count = some c ∧ vals.count = some c := by
  cases h with
  | @dict _ kw vw n c _ _ ht ho hk hv hkw hvw =>
    have hslots : ∀ i, vK m x i = [kw, vw][i]? := fun i => view_at ho rfl
    exact ⟨kw, vw, c, hslots 0, hslots 1, hkw, hvw, hk, hv⟩

theorem atomI64_none (h1 : vtag x ≠ KJL) (h2 : vtag x ≠ LType.KJ.tag) (h3 : vtag x ≠ LType.KI.tag)
    (h4 : vtag x ≠ LType.KH.tag) : Gives (atomI64 m x) (.ok none) := by
  unfold atomI64
  dsimp only
  rw [if_neg (not_or.mpr ⟨h1, h2⟩), if_neg h3, if_neg h4]
  exact gives_pure none

/-- What is packed below bit 58 keeps its low bits. -/
theorem setWidth_va {n : Nat} (hn : n ≤ 58) : (x &&& PTR_MASK).setWidth n = x.setWidth n := by
  apply BitVec.eq_of_toNat_eq
  rw [BitVec.toNat_setWidth, BitVec.toNat_setWidth, toNat_va]
  exact Nat.mod_mod_of_dvd _ (Nat.pow_dvd_pow 2 hn)

/-- The narrow and the wide, the inline and the boxed: an integral atom reads as its value. -/
theorem value_atomI64 (h : Value m x q) : Gives (atomI64 m x) (.ok q.asLong) := by
  have hnone : ∀ {t : Int}, vtag x = t → t ∉ [KJL, LType.KJ.tag, LType.KI.tag, LType.KH.tag] →
      Gives (atomI64 m x) (.ok none) := by
    rintro t rfl ht
    simp only [List.mem_cons, List.not_mem_nil, or_false, not_or] at ht
    exact atomI64_none ht.1 ht.2.1 ht.2.2.1 ht.2.2.2
  cases h with
  | sym ht _ => exact hnone ht (by decide)
  | bool ht _ => exact hnone ht (by decide)
  | @short _ v ht hv =>
    have hkjv : kjv m x = some (Int64.ofBitVec (x &&& PTR_MASK)) := by
      unfold kjv
      dsimp only
      rw [ht, if_neg (by decide), if_neg (by decide)]
    have hlow : (Int64.ofBitVec (x &&& PTR_MASK)).toInt16 = v := by
      apply Int16.toBitVec_inj.mp
      rw [Int64.toBitVec_toInt16, Int64.toBitVec_ofBitVec, BitVec.signExtend_eq_setWidth_of_le _ (by omega),
        setWidth_va (by omega), hv]
    unfold atomI64
    dsimp only
    rw [ht, if_neg (by decide), if_neg (by decide), if_pos rfl, hkjv, ← hlow]
    exact (gives_read rfl).map _
  | @int _ v ht hv =>
    have hkjv : kjv m x = some (Int64.ofBitVec (x &&& PTR_MASK)) := by
      unfold kjv
      dsimp only
      rw [ht, if_neg (by decide), if_neg (by decide)]
    have hlow : (Int64.ofBitVec (x &&& PTR_MASK)).toInt32 = v := by
      apply Int32.toBitVec_inj.mp
      rw [Int64.toBitVec_toInt32, Int64.toBitVec_ofBitVec, BitVec.signExtend_eq_setWidth_of_le _ (by omega),
        setWidth_va (by omega), hv]
    unfold atomI64
    dsimp only
    rw [ht, if_neg (by decide), if_pos rfl, hkjv, ← hlow]
    exact (gives_read rfl).map _
  | @inline _ v ht hv =>
    have hkjv : kjv m x = some v := by
      unfold kjv
      dsimp only
      rw [if_pos ht, inline_sign, hv, Int64.ofBitVec_toBitVec]
    unfold atomI64
    dsimp only
    rw [if_pos (.inl ht), hkjv]
    exact (gives_read rfl).map _
  | @long _ v ht hv =>
    have hkjv : kjv m x = some v := by
      unfold kjv
      dsimp only
      rw [ht, if_neg (by decide), if_pos (by decide), hv]
    unfold atomI64
    dsimp only
    rw [ht, if_pos (by decide), hkjv]
    exact (gives_read rfl).map _
  | atom ht =>
    apply hnone rfl
    intro hmem
    apply ht
    simp only [List.mem_cons, List.not_mem_nil, or_false, atomTags] at hmem ⊢
    omega
  | syms ht _ _ => exact hnone ht (by decide)
  | bools ht _ _ => exact hnone ht (by decide)
  | shorts ht _ => exact hnone ht (by decide)
  | ints ht _ => exact hnone ht (by decide)
  | longs ht _ => exact hnone ht (by decide)
  | list ht _ _ _ => exact hnone ht (by decide)
  | dict ht _ _ _ _ _ => exact hnone ht (by decide)
  | heap ht _ _ _ => exact hnone ht (by decide)

/-! ## The arguments of some calls -/

def atomWord (tag low : Nat) : K := BitVec.ofNat 64 (tag * 2 ^ 58 + low)

/-- At 1 the list of a window: a file, its column, an inline long, an int with a bit above its own,
and the options at 4. At 3 the list of the read of all. At 7 a vector of two symbols, and at 8 and 9
the lists that spell it out. At 11 the options of a write, with two codecs. -/
def callMemory : Memory where
  obj a := match a.toNat with
    | 1 => some ⟨0, 5, .k [atomWord 11 100, 2, atomWord 39 1, atomWord 6 (2 ^ 40 + 2), 4]⟩
    | 2 => some ⟨LType.KS.tag, 1, .s [101]⟩
    | 3 => some ⟨0, 3, .k [atomWord 11 100, 2, 4]⟩
    | 4 => some ⟨XD, 2, .k [5, 6]⟩
    | 5 => some ⟨LType.KS.tag, 1, .s [102]⟩
    | 6 => some ⟨LType.KB.tag, 1, .g [1]⟩
    | 7 => some ⟨LType.KS.tag, 2, .s [100, 101]⟩
    | 8 => some ⟨0, 2, .k [atomWord 11 100, 2]⟩
    | 9 => some ⟨0, 2, .k [7, 10]⟩
    | 10 => some ⟨LType.KS.tag, 0, .s []⟩
    | 11 => some ⟨XD, 2, .k [12, 13]⟩
    | 12 => some ⟨LType.KS.tag, 3, .s [103, 104, 103]⟩
    | 13 => some ⟨0, 3, .k [atomWord 11 105, atomWord 39 7, atomWord 11 106]⟩
    | _ => none
  cell _ := none
  cstr p := match p.toNat with
    | 100 => some [58, 116]
    | 101 => some [116]
    | 102 => some [99, 111, 100, 101, 115]
    | 103 => some [99, 111, 100, 101, 99]
    | 104 => some [108, 101, 118, 101, 108]
    | 105 => some [122, 115, 116, 100]
    | 106 => some [103, 122, 105, 112]
    | _ => none

/-- The words of a list, one after the other. -/
theorem value_list {ws : List K} {xs : List Q} (ht : vtag x = 0)
    (ho : m.obj (va x) = some ⟨0, xs.length, .k ws⟩) (hall : List.Forall₂ (Value m) ws xs) :
    Value m x (.list xs) := by
  refine .list ht ho hall.length_eq ?_
  intro i w q hw hq
  obtain ⟨h1, rfl⟩ := List.getElem?_eq_some_iff.mp hw
  obtain ⟨h2, rfl⟩ := List.getElem?_eq_some_iff.mp hq
  exact (List.forall₂_iff_get.mp hall).2 i h1 h2

end parquet_interop.host
