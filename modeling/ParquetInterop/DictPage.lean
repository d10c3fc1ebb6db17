-- The parse loop of a dictionary page on machine words, and what a page has to
-- hold for it to come to its end.
import ParquetInterop.Codes
import ParquetInterop.Lib.Bytes

open parquet_interop.ffi parquet_interop.footer
open lib.bytes

namespace parquet_interop.read

/-! ## The loop on words -/

/-- How the loop ends: with a span for each entry, with the short-dictionary error, or with a
panic, which an addition that wraps and a slice out of bounds would be. -/
inductive Parsed where
  | ok (spans : List (UInt32 × UInt32))
  | short
  | panic

/-- The spans with one in front of them. -/
def Parsed.cons (s : UInt32 × UInt32) : Parsed → Parsed
  | .ok spans => .ok (s :: spans)
  | .short => .short
  | .panic => .panic

/-- `a + b` on `usize`, where it does not wrap. -/
def addUsize (a b : UInt64) : Option UInt64 := if a.toNat + b.toNat < 2 ^ 64 then some (a + b) else none

/-- `slice::get` of a range. -/
def sliceGet (buf : List UInt8) (a b : UInt64) : Option (List UInt8) :=
  if a.toNat ≤ b.toNat ∧ b.toNat ≤ buf.length then some ((buf.drop a.toNat).take (b.toNat - a.toNat))
  else none

/-- The loop, with `i` the offset of the next entry. -/
def parseLoop (buf : List UInt8) : Nat → UInt64 → Parsed
  | 0, _ => .ok []
  | k + 1, i =>
    match addUsize i 4 with
    | none => .panic
    | some j =>
      match sliceGet buf i j with
      | none => .short
      | some b =>
        let n := (leWord b).toUInt32.toUInt64
        match addUsize j n with
        | none => .panic
        | some e =>
          if e.toNat ≤ buf.length then (parseLoop buf k e).cons (j.toUInt32, n.toUInt32)
          else .short

/-- `&buf[o as usize..(o + n) as usize]`, where the sum does not wrap and the range is inside. -/
def cut (buf : List UInt8) (s : UInt32 × UInt32) : Option (List UInt8) :=
  if s.1.toNat + s.2.toNat < 2 ^ 32 then sliceGet buf s.1.toUInt64 (s.1 + s.2).toUInt64 else none

/-! ## PLAIN entries -/

/-- The PLAIN encoding: each entry is its length in four bytes, then its bytes. -/
def plain (vs : List (List UInt8)) : List UInt8 := vs.flatMap fun v => little 4 v.length ++ v

@[simp] theorem plain_nil : plain [] = [] := rfl

@[simp] theorem plain_cons (v : List UInt8) (vs : List (List UInt8)) :
    plain (v :: vs) = little 4 v.length ++ (v ++ plain vs) := by
  simp [plain]

/-- Where the bytes of each entry lie, the first entry at byte `i`. -/
def places : Nat → List (List UInt8) → List (Nat × Nat)
  | _, [] => []
  | i, v :: vs => (i + 4, v.length) :: places (i + 4 + v.length) vs

/-- A span as the loop writes it, read as numbers. -/
def spanNat (s : UInt32 × UInt32) : Nat × Nat := (s.1.toNat, s.2.toNat)

/-- Up to eight bytes are read with the low byte first. -/
theorem leWord_toNat {b : List UInt8} (h : b.length ≤ 8) : (leWord b).toNat = ofLittle b := by
  induction b with
  | nil => rfl
  | cons x b ih =>
    rw [List.length_cons] at h
    have hb : ofLittle b < 256 ^ 7 :=
      Nat.lt_of_lt_of_le (ofLittle_lt b) (Nat.pow_le_pow_right (by decide) (by omega))
    have hx : x.toNat < 2 ^ 8 := x.toNat_lt
    have hold : (leWord b).toNat = ofLittle b := ih (by omega)
    have hword : leWord (x :: b) = (leWord b <<< 8) ||| x.toUInt64 := rfl
    rw [hword, UInt64.toNat_or, UInt64.toNat_shiftLeft, hold, UInt8.toNat_toUInt64]
    have hshift : ofLittle b <<< (UInt64.toNat 8 % 64) % 2 ^ 64 = ofLittle b <<< 8 := by
      have h8 : UInt64.toNat 8 % 64 = 8 := rfl
      rw [h8, Nat.mod_eq_of_lt]
      rw [Nat.shiftLeft_eq]
      omega
    rw [hshift, ← Nat.shiftLeft_add_eq_or_of_lt hx, Nat.shiftLeft_eq, ofLittle]
    omega

/-- The four bytes of a length are read as the length. -/
theorem leWord_little {n : Nat} (h : n < 2 ^ 32) : (leWord (little 4 n)).toNat = n := by
  have h256 : n < 256 ^ 4 := h
  rw [leWord_toNat (by simp), ofLittle_little h256]

/-! ## The entries of a page -/

/-- An entry at byte `i` is inside the buffer, and the rest starts behind it. -/
theorem entry_at {buf v tail : List UInt8} {i : Nat}
    (h : little 4 v.length ++ (v ++ tail) = buf.drop i) :
    i + 4 + v.length ≤ buf.length ∧ (buf.drop i).take 4 = little 4 v.length ∧
      buf.drop (i + 4) = v ++ tail ∧ buf.drop (i + 4 + v.length) = tail := by
  have hlen : 4 + (v.length + tail.length) = buf.length - i := by
    rw [← List.length_drop, ← h]
    simp
  have hbody : buf.drop (i + 4) = v ++ tail := by
    rw [← List.drop_drop, ← h]
    exact List.drop_left' (length_little ..)
  refine ⟨by omega, ?_, hbody, ?_⟩
  · rw [← h]
    exact List.take_left' (length_little ..)
  · rw [← List.drop_drop, hbody]
    exact List.drop_left' rfl

/-- The first entry of an encoding, and the others behind it. -/
theorem plain_first {buf v : List UInt8} {vs : List (List UInt8)} {i : Nat}
    (h : plain (v :: vs) <+: buf.drop i) :
    ∃ tail, little 4 v.length ++ (v ++ tail) = buf.drop i ∧
      plain vs <+: buf.drop (i + 4 + v.length) := by
  obtain ⟨tail, htail⟩ := h
  rw [plain_cons, List.append_assoc, List.append_assoc] at htail
  refine ⟨plain vs ++ tail, htail, ?_⟩
  rw [(entry_at htail).2.2.2]
  exact List.prefix_append ..

/-- One round of the loop: it finds an entry, whole, at byte `i`. -/
theorem spansFrom_succ {buf : List UInt8} (hbuf : buf.length < 2 ^ 32) {k i : Nat}
    {spans : List (UInt32 × UInt32)} :
    spansFrom buf (k + 1) i = some spans ↔
      ∃ v tail rest, little 4 v.length ++ (v ++ tail) = buf.drop i ∧
        spansFrom buf k (i + 4 + v.length) = some rest ∧
        spans = ((i + 4).toUInt32, v.length.toUInt32) :: rest := by
  constructor
  · intro h
    unfold spansFrom at h
    dsimp only at h
    split at h
    · rename_i hfits
      obtain ⟨hb, hn⟩ := hfits
      obtain ⟨rest, hrest, hspans⟩ := Option.map_eq_some_iff.mp h
      generalize hw : (leWord ((buf.drop i).take 4)).toNat = n at *
      have hlen : ((buf.drop (i + 4)).take n).length = n := by
        rw [List.length_take, List.length_drop]
        omega
      have hbytes : little 4 n = (buf.drop i).take 4 := by
        have hback := little_ofLittle ((buf.drop i).take 4)
        rw [hb, ← leWord_toNat (by omega), hw] at hback
        exact hback
      refine ⟨(buf.drop (i + 4)).take n, (buf.drop (i + 4)).drop n, rest, ?_, ?_, ?_⟩
      · rw [hlen, hbytes, List.take_append_drop, ← List.drop_drop, List.take_append_drop]
      · rw [hlen, hrest]
      · rw [hlen, ← hspans]
    · cases h
  · rintro ⟨v, tail, rest, hentry, hrest, rfl⟩
    obtain ⟨hinside, htake, -, -⟩ := entry_at hentry
    have hword : (leWord (little 4 v.length)).toNat = v.length := leWord_little (by omega)
    unfold spansFrom
    simp only [htake, hword, length_little, true_and]
    rw [if_pos hinside, hrest]
    rfl

/-- The span of an entry holds its numbers: neither is cut to 32 bits. -/
theorem spanNat_entry {buf v tail : List UInt8} (hbuf : buf.length < 2 ^ 32) {i : Nat}
    (h : little 4 v.length ++ (v ++ tail) = buf.drop i) :
    spanNat ((i + 4).toUInt32, v.length.toUInt32) = (i + 4, v.length) := by
  have hinside := (entry_at h).1
  have hword : ∀ n : Nat, n < 2 ^ 32 → n.toUInt32.toNat = n :=
    fun n hn => UInt32.toNat_ofNat_of_lt' hn
  rw [spanNat, hword _ (by omega), hword _ (by omega)]

theorem spanNat_inj {s t : UInt32 × UInt32} (h : spanNat s = spanNat t) : s = t := by
  obtain ⟨s1, s2⟩ := s
  obtain ⟨t1, t2⟩ := t
  simp only [spanNat, Prod.mk.injEq, UInt32.toNat_inj] at h
  rw [h.1, h.2]

/-- The loop comes to its end when the bytes from `i` on start with as many entries. -/
theorem spansFrom_iff {buf : List UInt8} (hbuf : buf.length < 2 ^ 32) {k i : Nat}
    {spans : List (UInt32 × UInt32)} :
    spansFrom buf k i = some spans ↔
      ∃ vs, vs.length = k ∧ plain vs <+: buf.drop i ∧ spans.map spanNat = places i vs := by
  induction k generalizing i spans with
  | zero =>
    unfold spansFrom
    constructor
    · intro h
      cases h
      exact ⟨[], rfl, List.nil_prefix, rfl⟩
    · rintro ⟨vs, hvs, -, hspans⟩
      rw [List.length_eq_zero_iff.mp hvs] at hspans
      rw [List.map_eq_nil_iff.mp hspans]
  | succ k ih =>
    rw [spansFrom_succ hbuf]
    constructor
    · rintro ⟨v, tail, rest, hentry, hrest, rfl⟩
      obtain ⟨vs, hvs, hplain, hplaces⟩ := ih.mp hrest
      rw [(entry_at hentry).2.2.2] at hplain
      refine ⟨v :: vs, by rw [List.length_cons, hvs], ?_, ?_⟩
      · rw [plain_cons, ← hentry, List.prefix_append_right_inj, List.prefix_append_right_inj]
        exact hplain
      · rw [List.map_cons, hplaces, spanNat_entry hbuf hentry]
        rfl
    · rintro ⟨vs, hvs, hplain, hplaces⟩
      cases vs with
      | nil => cases hvs
      | cons v vs =>
        cases spans with
        | nil => cases hplaces
        | cons s rest =>
          obtain ⟨tail, htail, hvsplain⟩ := plain_first hplain
          rw [List.map_cons, places, List.cons.injEq] at hplaces
          have hrest : spansFrom buf k (i + 4 + v.length) = some rest := by
            apply ih.mpr
            exact ⟨vs, Nat.succ.inj hvs, hvsplain, hplaces.2⟩
          refine ⟨v, tail, rest, htail, hrest, ?_⟩
          rw [spanNat_inj (hplaces.1.trans (spanNat_entry hbuf htail).symm)]

/-- On words the loop does the same: it never wraps and never leaves the buffer. -/
theorem parseLoop_eq {buf : List UInt8} (hbuf : buf.length < 2 ^ 32) {k : Nat} {i : UInt64}
    (hi : i.toNat ≤ buf.length) :
    parseLoop buf k i = (spansFrom buf k i.toNat).elim .short .ok := by
  induction k generalizing i with
  | zero => rfl
  | succ k ih =>
    have h4 : (4 : UInt64).toNat = 4 := rfl
    have hj : (i + 4).toNat = i.toNat + 4 := by
      rw [UInt64.toNat_add, h4, Nat.mod_eq_of_lt (by omega)]
    have hlen : ((buf.drop i.toNat).take 4).length = 4 ↔ i.toNat + 4 ≤ buf.length := by
      rw [List.length_take, List.length_drop]
      omega
    unfold parseLoop spansFrom
    rw [addUsize, if_pos (by omega)]
    dsimp only
    rw [sliceGet, hj, Nat.add_sub_cancel_left]
    by_cases hhead : i.toNat + 4 ≤ buf.length
    · rw [if_pos ⟨Nat.le_add_right .., hhead⟩]
      dsimp only
      have hb := hlen.mpr hhead
      generalize (buf.drop i.toNat).take 4 = b at hb ⊢
      have hword : (leWord b).toNat < 2 ^ 32 := by
        have hlt := ofLittle_lt b
        rw [hb] at hlt
        rw [leWord_toNat (by omega)]
        exact hlt
      have hn : (leWord b).toUInt32.toUInt64.toNat = (leWord b).toNat := by
        rw [UInt32.toNat_toUInt64, UInt64.toNat_toUInt32, Nat.mod_eq_of_lt hword]
      have he : (i + 4 + (leWord b).toUInt32.toUInt64).toNat =
          i.toNat + 4 + (leWord b).toNat := by
        rw [UInt64.toNat_add, hj, hn, Nat.mod_eq_of_lt (by omega)]
      rw [addUsize, hj, hn, if_pos (by omega)]
      dsimp only
      rw [he]
      by_cases hbody : i.toNat + 4 + (leWord b).toNat ≤ buf.length
      · rw [if_pos hbody, if_pos ⟨hb, hbody⟩, ih (by omega), he]
        have hspan : ((i + 4).toUInt32, (leWord b).toUInt32.toUInt64.toUInt32) =
            ((i.toNat + 4).toUInt32, (leWord b).toNat.toUInt32) := by
          apply spanNat_inj
          simp only [spanNat, UInt64.toNat_toUInt32, hj, hn, Nat.toUInt32_eq, UInt32.toNat_ofNat']
        rw [hspan]
        cases spansFrom buf k (i.toNat + 4 + (leWord b).toNat) <;> rfl
      · rw [if_neg hbody, if_neg fun h => hbody h.2]
        rfl
    · rw [if_neg fun h => hhead h.2, if_neg fun h => hhead (hlen.mp h.1)]
      rfl

/-! ## Where the entries lie -/

theorem places_inside {buf : List UInt8} {vs : List (List UInt8)} {i : Nat}
    (h : plain vs <+: buf.drop i) :
    ∀ s ∈ places i vs, i + 4 ≤ s.1 ∧ s.1 + s.2 ≤ buf.length := by
  induction vs generalizing i with
  | nil => exact fun s hs => absurd hs List.not_mem_nil
  | cons v vs ih =>
    obtain ⟨tail, htail, hrest⟩ := plain_first h
    intro s hs
    rcases List.mem_cons.mp hs with rfl | hs
    · exact ⟨Nat.le_refl _, (entry_at htail).1⟩
    · have hs := ih hrest s hs
      exact ⟨by omega, hs.2⟩

theorem places_apart {buf : List UInt8} {vs : List (List UInt8)} {i : Nat}
    (h : plain vs <+: buf.drop i) : (places i vs).Pairwise fun s t => s.1 + s.2 ≤ t.1 := by
  induction vs generalizing i with
  | nil => exact List.Pairwise.nil
  | cons v vs ih =>
    obtain ⟨tail, htail, hrest⟩ := plain_first h
    refine List.pairwise_cons.mpr ⟨fun s hs => ?_, ih hrest⟩
    have hs := places_inside hrest s hs
    dsimp only
    omega

/-- The bytes at the places are the entries. -/
theorem places_bytes {buf : List UInt8} {vs : List (List UInt8)} {i : Nat}
    (h : plain vs <+: buf.drop i) :
    (places i vs).map (fun s => (buf.drop s.1).take s.2) = vs := by
  induction vs generalizing i with
  | nil => rfl
  | cons v vs ih =>
    obtain ⟨tail, htail, hrest⟩ := plain_first h
    have hbody : (buf.drop (i + 4)).take v.length = v := by
      rw [(entry_at htail).2.2.1]
      exact List.take_left' rfl
    rw [places, List.map_cons, ih hrest]
    dsimp only
    rw [hbody]

/-- A span inside a buffer of less than 2^32 bytes is cut out whole: its end does not wrap. -/
theorem cut_inside {buf : List UInt8} (hbuf : buf.length < 2 ^ 32) {s : UInt32 × UInt32}
    (h : s.1.toNat + s.2.toNat ≤ buf.length) : cut buf s = some (entry buf s) := by
  have hend : (s.1 + s.2).toUInt64.toNat = s.1.toNat + s.2.toNat := by
    rw [UInt32.toNat_toUInt64, UInt32.toNat_add, Nat.mod_eq_of_lt (by omega)]
  have hstart : s.1.toUInt64.toNat = s.1.toNat := UInt32.toNat_toUInt64 _
  rw [cut, if_pos (by omega), sliceGet, hend, hstart, if_pos ⟨by omega, h⟩,
    Nat.add_sub_cancel_left, entry]

/-- The spans are those of the entries, in order: each inside the buffer, none over another, and
the bytes that `codes_plan` cuts out are the entry. -/
structure Spans (buf : List UInt8) (vs : List (List UInt8)) (spans : List (UInt32 × UInt32)) :
    Prop where
  placed : spans.map spanNat = places 0 vs
  inside : ∀ s ∈ spans, s.1.toNat + s.2.toNat ≤ buf.length
  apart : spans.Pairwise fun s t => s.1.toNat + s.2.toNat ≤ t.1.toNat
  entries : spans.map (cut buf) = vs.map some

theorem Spans.bytes {buf : List UInt8} {vs : List (List UInt8)} {spans : List (UInt32 × UInt32)}
    (hbuf : buf.length < 2 ^ 32) (h : Spans buf vs spans) : spans.map (entry buf) = vs := by
  have hentries : spans.map (cut buf) = spans.map (some ∘ entry buf) :=
    List.map_congr_left fun s hs => cut_inside hbuf (h.inside s hs)
  have hsome := hentries.symm.trans h.entries
  rw [← List.map_map] at hsome
  exact List.map_injective_iff.mpr (Option.some_injective _) hsome

theorem spans_of_places {buf : List UInt8} (hbuf : buf.length < 2 ^ 32) {vs : List (List UInt8)}
    {spans : List (UInt32 × UInt32)} (hplain : plain vs <+: buf)
    (hplaces : spans.map spanNat = places 0 vs) : Spans buf vs spans := by
  have hall : ∀ s ∈ spans, spanNat s ∈ places 0 vs := by
    intro s hs
    rw [← hplaces]
    exact List.mem_map_of_mem hs
  have hinside : ∀ s ∈ spans, s.1.toNat + s.2.toNat ≤ buf.length :=
    fun s hs => (places_inside (i := 0) hplain _ (hall s hs)).2
  refine ⟨hplaces, hinside, ?_, ?_⟩
  · have happart := places_apart (i := 0) hplain
    rw [← hplaces] at happart
    exact List.pairwise_map.mp happart
  · have hbytes := places_bytes (i := 0) hplain
    rw [← hplaces, List.map_map] at hbytes
    rw [← hbytes, List.map_map]
    exact List.map_congr_left fun s hs => cut_inside hbuf (hinside s hs)

/-- The whole loop, from the first byte on. -/
theorem parseLoop_ok {buf : List UInt8} (hbuf : buf.length < 2 ^ 32) {n : Nat}
    {vs : List (List UInt8)} (hlen : vs.length = n) (hplain : plain vs <+: buf) :
    ∃ spans, spansFrom buf n 0 = some spans ∧ parseLoop buf n 0 = .ok spans ∧
      Spans buf vs spans := by
  have hspans : ∀ (vs : List (List UInt8)) (i : Nat), plain vs <+: buf.drop i →
      ∃ spans : List (UInt32 × UInt32), spans.map spanNat = places i vs := by
    intro vs
    induction vs with
    | nil => exact fun i h => ⟨[], rfl⟩
    | cons v vs ih =>
      intro i h
      obtain ⟨tail, htail, hrest⟩ := plain_first h
      obtain ⟨spans, h⟩ := ih _ hrest
      refine ⟨((i + 4).toUInt32, v.length.toUInt32) :: spans, ?_⟩
      rw [List.map_cons, h, spanNat_entry hbuf htail]
      rfl
  obtain ⟨spans, hplaces⟩ := hspans vs 0 hplain
  have hfrom : spansFrom buf n 0 = some spans :=
    (spansFrom_iff hbuf).mpr ⟨vs, hlen, hplain, hplaces⟩
  refine ⟨spans, hfrom, ?_, spans_of_places hbuf hplain hplaces⟩
  rw [parseLoop_eq hbuf (Nat.zero_le _)]
  exact congrArg (Option.elim · Parsed.short Parsed.ok) hfrom

/-- Where the entries are not all there, the loop answers the short dictionary. -/
theorem parseLoop_short {buf : List UInt8} (hbuf : buf.length < 2 ^ 32) {n : Nat}
    (h : ¬∃ vs : List (List UInt8), vs.length = n ∧ plain vs <+: buf) :
    spansFrom buf n 0 = none ∧ parseLoop buf n 0 = .short := by
  have hnone : spansFrom buf n 0 = none := by
    cases hfrom : spansFrom buf n 0 with
    | none => rfl
    | some spans =>
      obtain ⟨vs, hlen, hplain, -⟩ := (spansFrom_iff hbuf).mp hfrom
      exact absurd ⟨vs, hlen, hplain⟩ h
  refine ⟨hnone, ?_⟩
  rw [parseLoop_eq hbuf (Nat.zero_le _)]
  exact congrArg (Option.elim · Parsed.short Parsed.ok) hnone

/-- The first page of a chunk, once the file is open, goes through the loop. -/
theorem dictPage_page {W : World} {src : Src} {g c : Nat} {who : String} {cc : ColumnChunk}
    {buf : List UInt8} {num_values : UInt32} {size : buf.length < 2 ^ 31}
    (hopen : W.fopen src = .ok ()) (hchunk : src.chunk g c = some cc)
    (hpage : W.firstPage src g c = .ok (some (.dictionary buf num_values size))) :
    dictPage W src g c who =
      (spansFrom buf num_values.toNat 0).elim
        (.error s!"{who}: {src.path}: short dictionary")
        fun spans => .ok ⟨setHash buf spans, buf, spans⟩ := by
  simp only [dictPage, hopen, hchunk, hpage]
  cases spansFrom buf num_values.toNat 0 <;> rfl

/-- The loop of `dict_page` comes to its end if and only if the page starts with the claimed
number of whole entries, and its spans are then those entries; it answers the short-dictionary
error otherwise, and never panics. What a PLAIN encoder wrote is read back, whatever follows. -/
theorem a_dictionary_page_parses_iff_it_holds_its_entries (buf : List UInt8)
    (hbuf : buf.length < 2 ^ 32) (num_values : UInt32) :
    ((∃ spans, parseLoop buf num_values.toNat 0 = .ok spans) ↔
      ∃ vs : List (List UInt8), vs.length = num_values.toNat ∧ plain vs <+: buf) ∧
    (∀ spans, parseLoop buf num_values.toNat 0 = .ok spans →
      ∃ vs : List (List UInt8), vs.length = num_values.toNat ∧ plain vs <+: buf ∧
        Spans buf vs spans) ∧
    ((¬∃ spans, parseLoop buf num_values.toNat 0 = .ok spans) →
      parseLoop buf num_values.toNat 0 = .short) ∧
    (∀ (vs : List (List UInt8)) (rest : List UInt8), buf = plain vs ++ rest →
      vs.length < 2 ^ 32 ∧ ∃ spans, parseLoop buf vs.length 0 = .ok spans ∧
        spans.map (cut buf) = vs.map some) ∧
    (∀ (W : World) (src : Src) (g c : Nat) (who : String) (cc : ColumnChunk)
        (size : buf.length < 2 ^ 31), W.fopen src = .ok () → src.chunk g c = some cc →
      W.firstPage src g c = .ok (some (.dictionary buf num_values size)) →
      (∀ spans, parseLoop buf num_values.toNat 0 = .ok spans →
        dictPage W src g c who = .ok ⟨setHash buf spans, buf, spans⟩) ∧
      (parseLoop buf num_values.toNat 0 = .short →
        dictPage W src g c who = .error s!"{who}: {src.path}: short dictionary")) := by
  have hends : (∃ vs : List (List UInt8), vs.length = num_values.toNat ∧ plain vs <+: buf ∧
        ∃ spans, spansFrom buf num_values.toNat 0 = some spans ∧
          parseLoop buf num_values.toNat 0 = .ok spans ∧ Spans buf vs spans) ∨
      ((¬∃ vs : List (List UInt8), vs.length = num_values.toNat ∧ plain vs <+: buf) ∧
        spansFrom buf num_values.toNat 0 = none ∧
        parseLoop buf num_values.toNat 0 = .short) := by
    by_cases h : ∃ vs : List (List UInt8), vs.length = num_values.toNat ∧ plain vs <+: buf
    · obtain ⟨vs, hlen, hplain⟩ := h
      exact .inl ⟨vs, hlen, hplain, parseLoop_ok hbuf hlen hplain⟩
    · exact .inr ⟨h, parseLoop_short hbuf h⟩
  have htrip : ∀ (vs : List (List UInt8)) (rest : List UInt8), buf = plain vs ++ rest →
      vs.length < 2 ^ 32 ∧ ∃ spans, parseLoop buf vs.length 0 = .ok spans ∧
        spans.map (cut buf) = vs.map some := by
    intro vs rest hvs
    have hle : vs.length ≤ (plain vs).length := by
      clear hvs
      induction vs with
      | nil => exact Nat.zero_le _
      | cons v vs ih =>
        rw [plain_cons, List.length_cons, List.length_append, List.length_append, length_little]
        omega
    have hlen : (plain vs).length + rest.length = buf.length := by rw [hvs, List.length_append]
    obtain ⟨spans, -, hok, hspans⟩ := parseLoop_ok hbuf rfl (hvs ▸ List.prefix_append (plain vs) rest)
    exact ⟨by omega, spans, hok, hspans.entries⟩
  refine ⟨?_, ?_, ?_, htrip, ?_⟩
  · rcases hends with ⟨vs, hlen, hplain, spans, -, hok, -⟩ | ⟨hno, -, hshort⟩
    · exact ⟨fun _ => ⟨vs, hlen, hplain⟩, fun _ => ⟨spans, hok⟩⟩
    · exact ⟨fun ⟨spans, hok⟩ => (by rw [hshort] at hok; cases hok), fun h => absurd h hno⟩
  · intro spans' hok'
    rcases hends with ⟨vs, hlen, hplain, spans, -, hok, hspans⟩ | ⟨-, -, hshort⟩
    · rw [hok] at hok'
      cases hok'
      exact ⟨vs, hlen, hplain, hspans⟩
    · rw [hshort] at hok'
      cases hok'
  · intro hno
    rcases hends with ⟨vs, hlen, hplain, spans, -, hok, -⟩ | ⟨-, -, hshort⟩
    · exact absurd ⟨spans, hok⟩ hno
    · exact hshort
  · intro W src g c who cc size hopen hchunk hpage
    rw [dictPage_page hopen hchunk hpage]
    rcases hends with ⟨vs, -, -, spans, hfrom, hok, -⟩ | ⟨-, hnone, hshort⟩
    · rw [hfrom, hok]
      exact ⟨fun _ h => (by cases h; rfl), fun h => (by cases h)⟩
    · rw [hnone, hshort]
      exact ⟨fun _ h => (by cases h), fun _ => rfl⟩

theorem a_page_of_two_entries_is_read :
    plain [[97, 98], []] = [2, 0, 0, 0, 97, 98, 0, 0, 0, 0] ∧
      ∃ spans, parseLoop (plain [[97, 98], []] ++ [7]) (2 : UInt32).toNat 0 = .ok spans :=
  ⟨by decide, (a_dictionary_page_parses_iff_it_holds_its_entries
    (plain [[97, 98], []] ++ [7]) (by decide) 2).1.mpr
      ⟨[[97, 98], []], rfl, List.prefix_append ..⟩⟩

end parquet_interop.read
