-- `pq_meta`: what it tells of a set of files out of their footers, and what a
-- read of them, or the table that was written to them, makes of it.
import ParquetInterop.Stats
import ParquetInterop.Predict
import ParquetInterop.DictUnion
import ParquetInterop.StreamRead
import ParquetInterop.Ownership
import ParquetInterop.Lib.Settings

open lib.blocks lib.wrapping
open parquet_interop.ffi parquet_interop.footer parquet_interop.read parquet_interop.stats

namespace parquet_interop.meta_dict

/-! ## The answer -/

/-- The host's own table of type characters, by type number. -/
def tc : List Char :=
  ['*', 'b', '*', '*', 'x', 'h', 'i', 'j', 'e', 'f', 'c', 's', 'p', 'm', 'd', 'z', 'n', 'u', 'v', 't']

/-- A negative type number is a large one as a `usize`. -/
def typeChar (lt : LType) : Char := if lt.tag < 0 then '*' else (tc[lt.tag.toNat]?).getD '*'

/-- The compressed and the uncompressed size of a column chunk, by its file, its row group and its
leaf, as the crate reads them in the footer. -/
structure ChunkSizes where
  compressed_size : Src → Nat → Nat → Int64
  uncompressed_size : Src → Nat → Nat → Int64

/-- `sizes`: by file, row group and column. The chunk of column `c` is asked for as leaf `c`. -/
def sizes (size : Src → Nat → Nat → Int64) (set : FileSet) (nc : Nat) : List (List (List Int64)) :=
  set.srcs.map fun s => (List.range s.md.row_groups.length).map fun g => (List.range nc).map (size s g)

/-- The dictionary that `pq_meta` answers, key by key. -/
structure MetaDict where
  files : List Sym
  cols : List Sym
  types : List Char
  rows : Int64
  rg : List (List Int64)
  bytes : List (List (List Int64))
  stats : List ColStats
  ubytes : List (List (List Int64))
  enc : List Bool

/-- `dict`: a column without an L type is an error, and nothing after that can fail. The vectors of
the bounds hold `old` when they are made. -/
def dict (Z : ChunkSizes) (old : Cell) (set : FileSet) : Except String MetaDict :=
  match dictTypes set with
  | .error e => .error e
  | .ok lts => .ok
    { files := set.srcs.map fun s => intern (utf8Bytes s.orig)
      cols := set.names.map fun n => intern (utf8Bytes n)
      types := lts.map typeChar
      rows := set.rows
      rg := set.srcs.map (·.rg_rows)
      bytes := sizes Z.compressed_size set lts.length
      stats := statsOf set lts old
      ubytes := sizes Z.uncompressed_size set lts.length
      enc := encOf set lts.length }

variable {Z : ChunkSizes} {old : Cell} {set : FileSet} {m : MetaDict}

theorem dict_ok (h : dict Z old set = .ok m) : ∃ lts, dictTypes set = .ok lts ∧
    m = ⟨set.srcs.map fun s => intern (utf8Bytes s.orig), set.names.map fun n => intern (utf8Bytes n),
      lts.map typeChar, set.rows, set.srcs.map (·.rg_rows), sizes Z.compressed_size set lts.length,
      statsOf set lts old, sizes Z.uncompressed_size set lts.length, encOf set lts.length⟩ := by
  unfold dict at h
  split at h
  · cases h
  · rename_i lts hlts
    exact ⟨lts, hlts, (Except.ok.inj h).symm⟩

/-! ## Types -/

/-- A readable type is told by its character. -/
theorem typeChar_inj {dt dt' : DataType} {lt lt' : LType} (h : lTypeOf dt = .ok lt)
    (h' : lTypeOf dt' = .ok lt') (hc : typeChar lt = typeChar lt') : lt = lt' := by
  have hreadable : ∀ {dt lt}, lTypeOf dt = .ok lt →
      lt ∈ [LType.KB, .KG, .KH, .KI, .KJ, .KE, .KF, .KS, .KP, .KD, .KT, .KN] := by
    intro dt lt hdt
    unfold lTypeOf at hdt
    split at hdt
    case h_12 =>
      split at hdt <;> cases hdt
      decide
    all_goals cases hdt
    all_goals decide
  have hall : ∀ a ∈ [LType.KB, .KG, .KH, .KI, .KJ, .KE, .KF, .KS, .KP, .KD, .KT, .KN],
      ∀ b ∈ [LType.KB, .KG, .KH, .KI, .KJ, .KE, .KF, .KS, .KP, .KD, .KT, .KN],
      typeChar a = typeChar b → a = b := by decide
  exact hall lt (hreadable h) lt' (hreadable h') hc

/-! ## Refusals -/

/-- A read of every column is refused by the first that has no type, and with its message. -/
theorem ltsOf_all (set : FileSet) (pre : List (Except String LType)) (xs : List (Except String LType))
    (hset : set.lts = pre ++ xs) : ltsOf set (List.range' pre.length xs.length) = xs.mapM id := by
  induction xs generalizing pre with
  | nil => rfl
  | cons x xs ih =>
    have hx : set.lts[pre.length]? = some x := by
      rw [hset, List.getElem?_append_right (Nat.le_refl _), Nat.sub_self]
      rfl
    have hrest := ih (pre ++ [x]) (by rw [hset, List.append_assoc]; rfl)
    rw [List.length_append, List.length_singleton] at hrest
    rw [List.length_cons, List.range'_succ, List.mapM_cons, ltsOf, hx]
    rcases x with e | lt
    · rfl
    · rw [hrest]
      rcases xs.mapM id with e | lts <;> rfl

/-! ## Rows -/

/-- What a caller adds up for a window: the positive counts of `rg`, file after file. -/
def told (rg : List (List Int64)) (g0 g1 : Nat) : Nat :=
  ((slice rg.flatten g0 g1).map fun n => n.toInt.toNat).sum

theorem told_eq (srcs : List Src) (g0 g1 : Nat) :
    told (srcs.map (·.rg_rows)) g0 g1 = countedRows (windowCounts srcs g0 g1) := by
  have hall : (groupsOf srcs).map (·.rows.toInt) = (srcs.map (·.rg_rows)).flatten.map Int64.toInt := by
    have hcounts := allCounts_eq srcs
    unfold allCounts at hcounts
    rw [hcounts, List.map_flatten, List.map_map]
    rfl
  have hslice : (slice (groupsOf srcs) g0 g1).map (·.rows.toInt) =
      (slice (srcs.map (·.rg_rows)).flatten g0 g1).map Int64.toInt := by
    unfold slice
    rw [List.map_drop, List.map_take, hall, List.map_drop, List.map_take]
  unfold told countedRows
  rw [windowCounts_eq, hslice, List.map_map]
  rfl

/-- The total of counts that are not negative is what they add up to. -/
theorem rows_told {srcs : List Src} (hnn : ∀ s ∈ srcs, ∀ n ∈ s.rg_rows, 0 ≤ n.toInt)
    (hfits : told (srcs.map (·.rg_rows)) 0 (srcs.map (·.rg_rows)).flatten.length < 2 ^ 63) :
    (rowsOf srcs).toInt = told (srcs.map (·.rg_rows)) 0 (srcs.map (·.rg_rows)).flatten.length := by
  have hlen : (srcs.map (·.rg_rows)).flatten.length = (srcs.map (·.rg_rows.length)).sum := by
    rw [List.length_flatten, List.map_map]
    rfl
  have hall : windowCounts srcs 0 (srcs.map (·.rg_rows.length)).sum = allCounts srcs := by
    rw [windowCounts_all, allCounts_eq, List.flatMap_def]
  rw [told_eq, hlen, hall] at hfits ⊢
  have hsum : (countedRows (allCounts srcs) : Int) = (allCounts srcs).sum := by
    apply countedRows_of_nonneg
    intro n hn
    obtain ⟨x, hx, rfl⟩ := List.mem_map.mp hn
    exact (count_nonneg_iff srcs).mp hnn x hx
  rw [rowsOf_toInt, ← hsum]
  exact wrap_of_fits (by omega) (by omega)

/-- The loop of a read counts these rows, as a `usize` does. -/
theorem layoutFrom_total (g0 g1 : Nat) {gs : List Group} (g : Nat) {total : Nat} (ht : total < 2 ^ 64) :
    (layoutFrom g0 g1 gs g total).2 = (total + countedRows (windowFrom g0 g1 gs g)) % 2 ^ 64 := by
  induction gs generalizing g total with
  | nil =>
    have hnone : countedRows (windowFrom g0 g1 [] g) = 0 := rfl
    rw [hnone, Nat.add_zero, Nat.mod_eq_of_lt ht]
    rfl
  | cons x gs ih =>
    rw [windowFrom_cons]
    unfold layoutFrom
    dsimp only
    split
    · rename_i hin
      rw [if_pos ⟨hin.1, hin.2.1⟩, ih (g + 1) (Nat.mod_lt _ (by decide))]
      have hcount : countedRows (x.rows.toInt :: windowFrom g0 g1 gs (g + 1)) =
          asUsize x.rows + countedRows (windowFrom g0 g1 gs (g + 1)) := List.sum_cons
      rw [hcount, Nat.mod_add_mod, Nat.add_assoc]
    · rename_i hout
      rw [ih (g + 1) ht]
      split
      · have hzero : x.rows.toInt.toNat = 0 := by omega
        unfold countedRows
        rw [List.map_cons, List.sum_cons, hzero, Nat.zero_add]
      · rfl

/-! ## The columns of an answer -/

section

variable {W : World} {nthreads k : Nat} {srcs : List Src} {sel : Sel} {g0 g1 : Nat} {codes : Bool}
  {who : String}

/-- Second reads make no pair. -/
theorem rereads_pairs {rgs : List Rg} {gives : Nat → Bool} {ps : List Nat} {c c' : Cols}
    (h : Rereads W set sel rgs gives who k ps c (.ok c')) {p : Nat} {cd : Codes}
    (hcd : c'.cds p = some cd) : c.cds p = some cd := by
  generalize hr : (Except.ok c' : Except String Cols) = r at h
  induction h with
  | nil =>
    cases hr
    exact hcd
  | keep _ _ ih => exact ih hr
  | failed _ _ => cases hr
  | again _ _ _ ih =>
    have hkept := ih hr
    dsimp only at hkept
    split at hkept
    · cases hkept
    · exact hkept

/-- A column is as it was told: of the one readable type of that character, or a pair of symbols and
codes, of `n` rows. -/
def Fits (ch : Char) (n : Nat) : Column → Prop
  | .vec lt xs => (∀ dt lt', lTypeOf dt = .ok lt' → (typeChar lt' = ch ↔ lt' = lt)) ∧ xs.length = n
  | .pair _ lt xs => ch = 's' ∧ lt ∈ [LType.KG, .KH, .KI] ∧ xs.length = n

theorem agree_even (hset : agree srcs who = .ok set) : set.names.length = set.lts.length := by
  unfold agree at hset
  split at hset
  · cases hset
  · dsimp only at hset
    split at hset
    · cases hset
    · cases hset
      simp

/-- What a selection has of the set's types. -/
theorem select_lts {want : Option (List String)} (hsel : select set want who = .ok sel) :
    ∀ p < sel.out.length, set.lts[sel.col p]? = some (.ok (sel.lt p)) := by
  unfold select at hsel
  split at hsel
  · cases hsel
  split at hsel
  · cases hsel
  rename_i lts hlts
  dsimp only at hsel
  split at hsel
  · cases hsel
  cases hsel
  exact (ltsOf_get hlts).2

theorem columnOf_fits {total : Nat} {c : Cols} {p : Nat} (hp : p < sel.out.length)
    (hselected : Selected set sel) {s : Src} (hs : s ∈ set.srcs)
    (hpairs : ∀ cd, c.cds p = some cd → sel.lt p = .KS ∧ cd.lt ∈ [LType.KG, .KH, .KI]) :
    Fits (typeChar (sel.lt p)) total (columnOf sel total c p) := by
  unfold columnOf cells
  split
  · rename_i cd hcd
    obtain ⟨hks, hlt⟩ := hpairs cd hcd
    refine ⟨?_, hlt, by simp⟩
    rw [hks]
    decide
  · refine ⟨fun dt lt' hlt' => ⟨fun hch => ?_, fun he => by rw [he]⟩, by simp⟩
    exact typeChar_inj hlt' (hselected.lt p hp s hs) hch

theorem dict_types (hset : agree srcs who = .ok set) (hdict : dict Z old set = .ok m) {c : Nat}
    {lt : LType} (hlt : set.lts[c]? = some (.ok lt)) :
    m.types[c]? = some (typeChar lt) ∧
      m.cols[c]? = some (intern (utf8Bytes (set.names.getD c ""))) := by
  obtain ⟨lts, hlts, rfl⟩ := dict_ok hdict
  rw [dictTypes_get hlts, List.getElem?_map] at hlt
  obtain ⟨lt', hlt', heq⟩ := Option.map_eq_some_iff.mp hlt
  cases heq
  have hc : c < set.names.length := by
    rw [agree_even hset, dictTypes_get hlts, List.length_map]
    exact (List.getElem?_eq_some_iff.mp hlt').1
  refine ⟨by rw [List.getElem?_map, hlt']; rfl, ?_⟩
  rw [List.getElem?_map, List.getElem?_eq_getElem hc, List.getD_eq_getElem?_getD,
    List.getElem?_eq_getElem hc]
  rfl

/-! ## The laws of the description -/

/-- Whatever the files hold and the workers do, a read that answers has the names, the types and the
rows that `pq_meta` tells, counted as a `usize`. The total that it tells is the one of the whole
window, when no count is negative and the sum fits. -/
theorem a_read_is_as_pq_meta_tells (hset : agree srcs who = .ok set) (hdict : dict Z old set = .ok m)
    {want : Option (List String)} (hsel : select set want who = .ok sel)
    {mem : lib.stores.Mem Nat Cell} {t : Table}
    (hread : Reads W nthreads k set sel g0 g1 codes who mem (.ok t)) :
    t.columns.length = sel.out.length ∧ told m.rg g0 g1 % 2 ^ 64 ≤ I32_MAX ∧
      (∀ p < sel.out.length, ∃ name ch col, m.cols[sel.col p]? = some name ∧
        m.types[sel.col p]? = some ch ∧ t.names[p]? = some name ∧ t.columns[p]? = some col ∧
        Fits ch (told m.rg g0 g1 % 2 ^ 64) col) ∧
      ((∀ rows ∈ m.rg, ∀ n ∈ rows, 0 ≤ n.toInt) → told m.rg 0 m.rg.flatten.length < 2 ^ 63 →
        m.rows.toInt = told m.rg 0 m.rg.flatten.length) := by
  have hsrcs := (agree_cases hset).1
  have hrg : m.rg = set.srcs.map (·.rg_rows) ∧ m.rows = set.rows := by
    obtain ⟨lts, _, rfl⟩ := dict_ok hdict
    exact ⟨rfl, rfl⟩
  obtain ⟨s, hs⟩ : ∃ s, s ∈ set.srcs := by
    rw [hsrcs]
    cases srcs with
    | nil => cases hset
    | cons s srcs => exact ⟨s, List.mem_cons_self ..⟩
  have htold : ∀ h0 h1, told m.rg h0 h1 = countedRows (windowCounts set.srcs h0 h1) := by
    intro h0 h1
    rw [hrg.1, told_eq]
  generalize hr : (Except.ok t : Except String Table) = r at hread
  cases hread with
  | refused _ => cases hr
  | failed _ _ => cases hr
  | @answered plan m' r hplan _ hrereads _ =>
    rcases r with e | c
    · cases hr
    cases hr
    obtain ⟨hwindow, _, hplanned, _⟩ := planOf_cases hplan
    obtain ⟨hlayout, hle⟩ := window_ok hwindow
    have htotal : told m.rg g0 g1 % 2 ^ 64 = plan.total := by
      have hsum := @layoutFrom_total g0 g1 (groupsOf set.srcs) 0 0 (by decide)
      rw [Nat.zero_add] at hsum
      rw [htold]
      exact hsum.symm.trans (congrArg Prod.snd hlayout)
    have hname : (tableOf set sel plan.total codes c).names = (List.range sel.out.length).map fun p =>
        intern (utf8Bytes (set.names.getD (sel.col p) "")) := rfl
    refine ⟨by simp [tableOf], by rw [htotal]; exact hle, fun p hp => ?_, fun hnn hfits => ?_⟩
    · obtain ⟨hch, htold⟩ := dict_types hset hdict (select_lts hsel p hp)
      refine ⟨_, _, columnOf sel plan.total c p, htold, hch, by simp [hname, hp],
        tableOf_column set plan.total codes c hp, ?_⟩
      rw [htotal]
      refine columnOf_fits hp (select_selected hset hsel) hs fun cd hcd => ?_
      obtain ⟨_, hks, hcodes⟩ := hplanned.lt p cd (rereads_pairs hrereads hcd)
      refine ⟨hks, ?_⟩
      rw [(codesPlan_of hcodes).lt]
      unfold width
      split
      · simp
      · split <;> simp
    · rw [hrg.1] at hnn hfits ⊢
      rw [hrg.2]
      exact rows_told (fun s hs => hnn _ (List.mem_map_of_mem hs)) hfits

end

/-- Sizes that tell the chunks apart. -/
def someSizes : ChunkSizes where
  compressed_size s g l := 100 * Int64.ofNat s.md.fields.length + 10 * Int64.ofNat g + Int64.ofNat l
  uncompressed_size _ g l := 1000 + 10 * Int64.ofNat g + Int64.ofNat l

/-- The tags are told as symbols, in row groups of two and one. -/
theorem the_tags_are_as_pq_meta_tells : ∃ m t col, dict someSizes (.g 0) ⟨[tagSrc], ["tag"], [.ok .KS]⟩ = .ok m ∧
    m.rg = [[2, 1]] ∧ Reads tagWorld 2 2 ⟨[tagSrc], ["tag"], [.ok .KS]⟩ ⟨[0], [.KS], [0], [none]⟩ 0 2
      true "pq_read" (fun _ => .g 0) (.ok t) ∧ t.columns[0]? = some col ∧ Fits 's' 3 col := by
  have hset : agree [tagSrc] "pq_read" = .ok ⟨[tagSrc], ["tag"], [.ok .KS]⟩ := rfl
  have hsel : select ⟨[tagSrc], ["tag"], [.ok .KS]⟩ none "pq_read" = .ok ⟨[0], [.KS], [0], [none]⟩ := rfl
  obtain ⟨t, ht⟩ := ownership.tags_read
  obtain ⟨m, hm⟩ : ∃ m, dict someSizes (.g 0) ⟨[tagSrc], ["tag"], [.ok .KS]⟩ = .ok m := ⟨_, rfl⟩
  obtain ⟨_, _, hcols, _⟩ := a_read_is_as_pq_meta_tells hset hm hsel ht
  obtain ⟨name, ch, col, _, hch, _, hcol, hfits⟩ := hcols 0 (by decide)
  cases hm
  cases hch
  exact ⟨_, t, col, rfl, rfl, ht, hcol, hfits⟩

/-- `pq_meta` refuses what a read of every column refuses, with the same message: that of the first
column without a type. What it answers for is read whole. -/
theorem pq_meta_refuses_what_a_read_of_all_refuses {srcs : List Src} {who : String}
    (hset : agree srcs who = .ok set) (Z : ChunkSizes) (old : Cell) (reader : String) :
    match dict Z old set with
    | .error e => select set none reader = .error e ∧ ∃ c : Nat,
        set.lts[c]? = some (.error e : Except String LType) ∧
        ∀ d < c, ∃ lt, set.lts[d]? = some (.ok lt : Except String LType)
    | .ok m => ∃ sel, select set none reader = .ok sel ∧ sel.out = List.range set.names.length ∧
        sel.lts.map typeChar = m.types := by
  have hall : ltsOf set (List.range set.names.length) = dictTypes set := by
    rw [agree_even hset, List.range_eq_range']
    exact ltsOf_all set [] set.lts rfl
  unfold dict
  rcases @lib.settings.mapM_first _ _ _ id set.lts with
    ⟨lts, hok, _⟩ | ⟨pre, a, post, e, hsplit, hpre, ha, herr⟩
  · have htypes : dictTypes set = .ok lts := hok
    rw [htypes]
    have huniq := sortedUniq_length (List.nodup_range (n := set.names.length))
    refine ⟨⟨List.range set.names.length, lts, sortedUniq (List.range set.names.length),
      (List.range set.names.length).map fun c => rawDecision c set.srcs true none⟩, ?_, rfl, rfl⟩
    unfold select wanted
    dsimp only
    rw [hall, htypes]
    exact if_neg (not_not_intro huniq)
  · have htypes : dictTypes set = .error e := herr
    rw [htypes]
    refine ⟨?_, pre.length, ?_, fun d hd => ?_⟩
    · unfold select wanted
      dsimp only
      rw [hall, htypes]
    · have ha' : a = .error e := ha
      rw [hsplit, List.getElem?_append_right (Nat.le_refl _), Nat.sub_self, ← ha']
      rfl
    · obtain ⟨lt, hlt⟩ := hpre _ (List.getElem_mem hd)
      refine ⟨lt, ?_⟩
      rw [hsplit, List.getElem?_append_left hd, List.getElem?_eq_getElem hd]
      exact congrArg some hlt

/-- A file with a column that no vector can hold. -/
def listFile : Src :=
  mk "l" "l"
    { fields := [⟨"a", .int64⟩, ⟨"l", .other "List"⟩]
      leaves := [⟨0, .INT64, 1, 0⟩, ⟨1, .INT64, 3, 1⟩], row_groups := [], num_rows := 0 } []

theorem a_list_column_is_refused : ∃ set, agree [listFile] "pq_meta" = .ok set ∧
    dict someSizes (.g 0) set = .error "nyi: column l type List" ∧
    select set none "pq_read" = .error "nyi: column l type List" := by
  have hset : agree [listFile] "pq_meta" = .ok (write.oneSet listFile) := rfl
  have hrefused : dict someSizes (.g 0) (write.oneSet listFile) = .error "nyi: column l type List" := rfl
  have hlaw := pq_meta_refuses_what_a_read_of_all_refuses hset someSizes (.g 0) "pq_read"
  rw [hrefused] at hlaw
  exact ⟨_, hset, hrefused, hlaw.1⟩

/-! ## Leaves and columns -/

/-- What the crate promises of a schema: the leaves stand in the order of their columns, and a column
of an L type has one. -/
structure Shaped (md : Md) : Prop where
  ordered : (md.leaves.map (·.root)).Pairwise (· ≤ ·)
  inside : ∀ d ∈ md.leaves, d.root < md.fields.length
  one : ∀ (c : Nat) f lt, md.fields[c]? = some f → lTypeOf f.data_type = .ok lt →
    md.leaves.countP (·.root = c) = 1

/-- A column that has one leaf has it in the map. -/
theorem leafMap_one {md : Md} {c : Nat} (hc : c < md.fields.length)
    (hone : md.leaves.countP (·.root = c) = 1) : ∃ l, (leafMap md)[c]? = some (some l) := by
  have hall : ∀ ls : List Leaf, ∃ vn, vn = ls.zipIdx.foldl leafStep
      (List.replicate md.fields.length none, List.replicate md.fields.length 0) ∧
      vn.1.length = md.fields.length ∧ vn.2[c]? = some (ls.countP (·.root = c)) ∧
      (ls.countP (·.root = c) = 1 → ∃ l, vn.1[c]? = some (some l)) := by
    intro ls
    induction ls using List.reverseRecOn with
    | nil => exact ⟨_, rfl, by simp, by simp [hc], by simp⟩
    | append_singleton ls x ih =>
      obtain ⟨vn, hvn, hlen, hcount, hleaf⟩ := ih
      rw [List.zipIdx_append, List.foldl_append, ← hvn]
      simp only [Nat.zero_add, List.zipIdx_singleton, List.foldl_cons, List.foldl_nil]
      refine ⟨_, rfl, ?_⟩
      have hcountP : (ls ++ [x]).countP (·.root = c) =
          ls.countP (·.root = c) + if x.root = c then 1 else 0 := by
        rw [List.countP_append]
        simp [List.countP_cons]
      unfold leafStep
      dsimp only
      by_cases hx : x.root = c
      · rw [hx, hcount]
        dsimp only
        rw [hcountP, if_pos hx]
        have hc1 : c < vn.1.length := hlen ▸ hc
        have hc2 := (List.getElem?_eq_some_iff.mp hcount).1
        refine ⟨by simp [hlen], by rw [List.getElem?_set_self hc2], fun h => ⟨ls.length, ?_⟩⟩
        rw [List.getElem?_set_self hc1, if_pos h]
      · rw [hcountP, if_neg hx, Nat.add_zero]
        split
        · exact ⟨by simp [hlen], by rw [List.getElem?_set_ne hx, hcount], fun h => by
            rw [List.getElem?_set_ne hx]
            exact hleaf h⟩
        · exact ⟨hlen, hcount, hleaf⟩
  obtain ⟨vn, hvn, _, _, hleaf⟩ := hall md.leaves
  unfold leafMap
  rw [← hvn]
  exact hleaf hone

/-- When every column has one leaf, the leaves are the columns. -/
theorem roots_range {md : Md} (h : Shaped md) (htypes : ∀ f ∈ md.fields, ∃ lt, lTypeOf f.data_type = .ok lt) :
    md.leaves.map (·.root) = List.range md.fields.length := by
  have hcount : ∀ c, (md.leaves.map (·.root)).count c = (List.range md.fields.length).count c := by
    intro c
    rw [List.count_eq_countP, List.countP_map]
    by_cases hc : c < md.fields.length
    · obtain ⟨lt, hlt⟩ := htypes _ (List.getElem_mem hc)
      have hone := h.one c _ lt (List.getElem?_eq_getElem hc) hlt
      rw [List.count_eq_one_of_mem List.nodup_range (List.mem_range.mpr hc), ← hone]
      apply List.countP_congr
      intro d _
      simp
    · rw [List.count_eq_zero.mpr (by simpa using hc), List.countP_eq_zero]
      intro d hd
      have := h.inside d hd
      simp only [Function.comp_apply, beq_iff_eq]
      omega
  exact List.Perm.eq_of_pairwise' h.ordered (List.pairwise_le_range) (List.perm_iff_count.mpr hcount)

/-- Such a file is flat. -/
theorem shaped_flat {s : Src} (h : Shaped s.md) (hleaf : s.leaf = leafMap s.md)
    (htypes : ∀ f ∈ s.md.fields, ∃ lt, lTypeOf f.data_type = .ok lt) : Flat s := by
  intro c hc
  obtain ⟨lt, hlt⟩ := htypes _ (List.getElem_mem hc)
  obtain ⟨l, hl⟩ := leafMap_one hc (h.one c _ lt (List.getElem?_eq_getElem hc) hlt)
  obtain ⟨d, hd, hroot, _⟩ := leafMap_spec s.md hl
  have hget := congrArg (·[l]?) (roots_range h htypes)
  simp only [List.getElem?_map, hd, Option.map_some, hroot] at hget
  have hlt := (List.getElem?_eq_some_iff.mp hget.symm).1
  rw [List.getElem?_range (by simpa using hlt)] at hget
  unfold Src.leafOf
  rw [hleaf, hl, ← Option.some.inj hget]
  rfl

/-- What stands at a file, a row group and a column. -/
def chunkAt (xs : List (List (List Int64))) (f g c : Nat) : Option Int64 :=
  (xs[f]?).bind fun gs => (gs[g]?).bind fun cs => cs[c]?

theorem sizes_get (size : Src → Nat → Nat → Int64) {nc f g c : Nat} {s : Src} (hs : set.srcs[f]? = some s)
    (hg : g < s.md.row_groups.length) (hc : c < nc) :
    chunkAt (sizes size set nc) f g c = some (size s g c) := by
  simp [chunkAt, sizes, hs, hg, hc]

/-- The sizes, the null count and the bounds that `pq_meta` tells of a column are those of the one leaf
that a read of the column decodes. -/
theorem pq_meta_tells_of_the_chunks_that_are_read {srcs : List Src} {who : String}
    (hset : agree srcs who = .ok set) (hloaded : ∀ s ∈ srcs, Loaded s)
    (hshaped : ∀ s ∈ srcs, Shaped s.md) (hdict : dict Z old set = .ok m) {G : Nat} {x : Group}
    (hx : (groupsOf srcs)[G]? = some x) {s : Src} (hs : srcs[x.f]? = some s) {c : Nat}
    (hc : c < m.types.length) :
    ∃ l d st lt, s.leafOf c = some l ∧ s.md.leaves[l]? = some d ∧ d.root = c ∧
      (∀ l' d', s.md.leaves[l']? = some d' → d'.root = c → l' = l) ∧
      chunkAt m.bytes x.f x.g c = some (Z.compressed_size s x.g l) ∧
      chunkAt m.ubytes x.f x.g c = some (Z.uncompressed_size s x.g l) ∧
      m.stats[c]? = some st ∧ m.types[c]? = some (typeChar lt) ∧
      st.nulls[G]? = some (((((s.chunk x.g c).bind (·.statistics)).bind (·.null_count)).map
        fun v => v.toInt64).getD NJ) ∧
      st.mn[G]? = some (extremum lt (typeAt s c) old ((s.chunk x.g c).bind (·.statistics)) false) ∧
      st.mx[G]? = some (extremum lt (typeAt s c) old ((s.chunk x.g c).bind (·.statistics)) true) := by
  obtain ⟨lts, hlts, rfl⟩ := dict_ok hdict
  have hsrcs := (agree_cases hset).1
  subst hsrcs
  have hmem : s ∈ set.srcs := List.mem_of_getElem? hs
  obtain ⟨hlen, htypes⟩ := typed_fields hset hlts hmem
  rw [List.length_map] at hc
  have hflat : s.leafOf c = some c :=
    shaped_flat (hshaped s hmem) (hloaded s hmem).1 htypes c (hlen ▸ hc)
  have hmap : (leafMap s.md)[c]? = some (some c) := by
    have hleaf := hflat
    unfold Src.leafOf at hleaf
    rw [(hloaded s hmem).1] at hleaf
    exact Option.join_eq_some_iff.mp hleaf
  obtain ⟨d, hd, hroot, huniq⟩ := leafMap_spec s.md hmap
  have hg : x.g < s.md.row_groups.length := by
    obtain ⟨s', hs', hn⟩ := mem_groupsOf (List.mem_of_getElem? hx)
    cases hs.symm.trans hs'
    have hlt := (List.getElem?_eq_some_iff.mp hn).1
    rwa [(hloaded s hmem).2.counts, List.length_map] at hlt
  have hlt : lts[c]? = some lts[c] := List.getElem?_eq_getElem hc
  refine ⟨c, d, ⟨extrema set lts[c] c old false, extrema set lts[c] c old true, nullCounts set c⟩, lts[c],
    hflat, hd, hroot, huniq, sizes_get _ hs hg hc, sizes_get _ hs hg hc, ?stats, ?types, ?nulls,
    extrema_get hloaded hx hs hflat lts[c] old false, extrema_get hloaded hx hs hflat lts[c] old true⟩
  case stats =>
    unfold statsOf
    rw [List.getElem?_map, List.getElem?_zipIdx, hlt, Nat.zero_add]
    rfl
  case types => rw [List.getElem?_map, hlt]; rfl
  case nulls =>
    obtain ⟨s', rg, hs', hrg, hget⟩ := @flat_get Int64
      (fun _ rg => (((statistics rg c).bind (·.null_count)).map fun v => v.toInt64).getD NJ)
      set.srcs set.srcs 0 (fun i => by rw [Nat.zero_add]) (fun s hs => (hloaded s hs).2.counts) G x hx
    cases hs.symm.trans hs'
    have hchunk : (s.chunk x.g c).bind (·.statistics) = statistics rg c := by
      unfold Src.chunk statistics
      simp only [hflat, hrg, Option.bind_eq_bind, Option.bind_some]
    rw [hchunk]
    exact hget

/-- A file of two columns, of which the second has statistics. -/
def meterFile (path : String) (nulls : UInt64) (counts : List Int64) : Src :=
  mk path path
    { fields := [⟨"x", .int32⟩, ⟨"t", .timestamp .nanosecond none⟩]
      leaves := [⟨0, .INT32, 1, 0⟩, ⟨1, .INT64, 1, 0⟩]
      row_groups := counts.map fun n =>
        ⟨n, [⟨false, none⟩, ⟨false, some ⟨some nulls, .int64 ⟨none, none, true, true⟩⟩⟩]⟩
      num_rows := wrappingSum counts } counts

def meters : List Src := [meterFile "a" 1 [2, 3], meterFile "b" 4 [5]]

/-- The third row group of the meters is the first of their second file, and their second column is
the second leaf there. -/
theorem the_meters_are_told_by_chunk : ∃ m st,
    dict someSizes (.g 0) ⟨meters, ["x", "t"], [.ok .KI, .ok .KP]⟩ = .ok m ∧
      chunkAt m.bytes 1 0 1 = some 201 ∧ chunkAt m.ubytes 1 0 1 = some 1001 ∧ m.stats[1]? = some st ∧
      st.nulls[2]? = some 4 := by
  have hset : agree meters "pq_meta" = .ok ⟨meters, ["x", "t"], [.ok .KI, .ok .KP]⟩ := rfl
  have hshaped : ∀ path nulls counts, Shaped (meterFile path nulls counts).md := by
    intro path nulls counts
    refine ⟨?_, fun d hd => ?_, fun c f lt hf _ => ?_⟩
    · show [0, 1].Pairwise (· ≤ ·)
      decide
    · have hleaves : d ∈ ([⟨0, .INT32, 1, 0⟩, ⟨1, .INT64, 1, 0⟩] : List Leaf) := hd
      rcases List.mem_cons.mp hleaves with rfl | hd
      · exact Nat.zero_lt_two
      · cases List.mem_singleton.mp hd
        exact Nat.one_lt_two
    · match c with
      | 0 | 1 => rfl
      | c + 2 => cases hf
  have hmeters : ∀ s ∈ meters, Loaded s ∧ Shaped s.md := by
    intro s hs
    rcases List.mem_cons.mp hs with rfl | hs
    · exact ⟨⟨rfl, rfl, rfl⟩, hshaped ..⟩
    · cases List.mem_singleton.mp hs
      exact ⟨⟨rfl, rfl, rfl⟩, hshaped ..⟩
  obtain ⟨m, hm⟩ : ∃ m, dict someSizes (.g 0) ⟨meters, ["x", "t"], [.ok .KI, .ok .KP]⟩ = .ok m :=
    ⟨_, rfl⟩
  obtain ⟨l, d, st, lt, hleaf, _, _, _, hbytes, hubytes, hst, _, hnulls, _⟩ :=
    @pq_meta_tells_of_the_chunks_that_are_read _ _ _ _ meters "pq_meta" hset (fun s hs => (hmeters s hs).1)
      (fun s hs => (hmeters s hs).2) hm 2 ⟨1, 0, 5⟩ rfl (meterFile "b" 4 [5]) rfl 1
      (by cases hm; decide)
  cases hleaf
  exact ⟨m, st, hm, hbytes, hubytes, hst, hnulls.trans rfl⟩

/-! ## A written table -/

section
variable {T : write.LTable} {rg : Nat}

/-- The rows of the row groups of a table. -/
def cuts (n rg : Nat) : List Nat :=
  (List.range (write_queue.divCeil n rg)).map fun g => min ((g + 1) * rg) n - g * rg

theorem cuts_sum (n : Nat) (hrg : 0 < rg) : (cuts n rg).sum = n := by
  have hall : ∀ k, ((List.range k).map fun g => min ((g + 1) * rg) n - g * rg).sum = min (k * rg) n := by
    intro k
    induction k with
    | zero => simp
    | succ k ih =>
      have hsucc : (k + 1) * rg = k * rg + rg := Nat.succ_mul k rg
      rw [List.range_succ, List.map_append, List.sum_append, ih, List.map_singleton, List.sum_singleton]
      omega
  have hend := write.le_divCeil_mul (n := n) hrg
  unfold cuts
  rw [hall]
  omega

theorem rows_cuts (hT : T.Writable) (hrg : 0 < rg) {w : write.Written}
    (hw : w.groups = (List.range (write_queue.divCeil T.nrows rg)).map fun g =>
      (List.range T.names.length).map fun c => T.array rg g c) : w.rows = cuts T.nrows rg := by
  rcases hcols : T.cols with _ | ⟨v, vs⟩
  · have hrows : T.nrows = 0 := by simp [write.LTable.nrows, hcols]
    simp [write.Written.rows, hw, cuts, hrows, write_queue.divCeil]
  · have hv : T.cols[0]? = some v := by simp [hcols]
    have hpos : 0 < T.names.length := by
      rw [← T.len_eq, hcols]
      simp
    obtain ⟨dt, hdt⟩ := write.arrowType_ok v true
    unfold write.Written.rows cuts
    rw [hw, List.map_map]
    apply List.map_congr_left
    intro g hg
    have hback := congrArg List.length (@write.array_back T rg hT 0 v hv g dt ⟨true, hdt⟩)
    have hcells : v.cells.length = T.nrows := hT.even v (List.mem_of_getElem? hv)
    have hlt := write_queue.divCeil_mul_lt hrg (List.mem_range.mp hg)
    have hsucc : (g + 1) * rg = g * rg + rg := Nat.succ_mul g rg
    have hlen : (T.array rg g 0).content.length = min ((g + 1) * rg) T.nrows - g * rg := by
      simp only [List.length_map, slice, List.length_drop, List.length_take, hcells] at hback
      omega
    simpa [List.head?_range, Nat.ne_of_gt hpos] using hlen

end

theorem dictTypes_map {lts : List LType} (h : set.lts = lts.map .ok) : dictTypes set = .ok lts := by
  unfold dictTypes
  rw [h]
  clear h
  induction lts with
  | nil => rfl
  | cons lt lts ih =>
    rw [List.map_cons, List.mapM_cons, ih]
    rfl

/-- What `pq_meta` tells of a table that was written: its names, its types and its rows, cut into row
groups of the rows that the options ask for. -/
theorem pq_meta_tells_the_table_that_was_written {T : write.LTable} (hT : T.Writable) (o : write.Opts)
    {file : List (List write_queue.Chunk)} (hfile : write.Queued T o file) :
    ∃ w, write.writeTable T o file = .ok w ∧ ∀ {f : OpenFile}, write.FooterOf w f →
      ∀ {cache : List Entry}, (∀ e ∈ cache, e.key ≠ f.key) → ∀ (orig path who : String) Z old,
      ∃ s set m, (load cache orig path (.ok f) who).1 = .ok s ∧ agree [s] who = .ok set ∧
        dict Z old set = .ok m ∧ m.cols = T.names ∧ m.types = T.cols.map (fun v => typeChar v.lt) ∧
        m.rows.toInt = T.nrows ∧ m.rg = [(cuts T.nrows o.rg).map Int64.ofNat] ∧
        (∀ n ∈ cuts T.nrows o.rg, 0 < n ∧ n ≤ o.rg) ∧ (cuts T.nrows o.rg).sum = T.nrows := by
  obtain ⟨columns, hok, hfields⟩ := stream.prepare_written hT o
  refine ⟨⟨o, columns, file.map fun g => g.map T.encode⟩, by simp [write.writeTable, hok, Except.map], ?_⟩
  intro f hf cache hcache orig path who Z old
  obtain ⟨s, hload, _, hrows, hs⟩ := write.load_written hf hfields hcache orig path who
  obtain ⟨lts, htypes, hlts⟩ := stream.types_written hs
  have hcuts : s.rg_rows = (cuts T.nrows o.rg).map Int64.ofNat := by
    rw [hrows, rows_cuts hT o.rg_pos (write.queued_groups hfile)]
  have hdict : dictTypes (write.oneSet s) = .ok (T.cols.map write.LVec.lt) := by
    apply dictTypes_map
    rw [← hlts]
    exact stream.typesOf_iff.mp htypes
  have hsum := cuts_sum T.nrows o.rg_pos
  have htotal : (write.oneSet s).rows = Int64.ofNat T.nrows := by
    show wrappingSum [wrappingSum s.rg_rows] = _
    rw [hcuts, write.wrappingSum_ofNat, hsum]
    exact Int64.zero_add _
  have hshort := hT.short
  unfold I32_MAX at hshort
  refine ⟨s, write.oneSet s, _, hload, write.agree_one s who, by rw [dict, hdict], stream.names_written hs,
    List.map_map, ?rows, ?rg, fun n hn => ?_, hsum⟩
  case rows =>
    show (write.oneSet s).rows.toInt = _
    rw [htotal, Int64.toInt_ofNat_of_lt (by omega)]
  case rg =>
    show [s.rg_rows] = _
    rw [hcuts]
  obtain ⟨g, hg, rfl⟩ := List.mem_map.mp hn
  have hlt := write_queue.divCeil_mul_lt o.rg_pos (List.mem_range.mp hg)
  have hsucc : (g + 1) * o.rg = g * o.rg + o.rg := Nat.succ_mul g o.rg
  have hpos := o.rg_pos
  omega

/-- Three stamps, two to a row group. -/
theorem three_stamps_are_told : ∃ w s set m, write.writeTable write.threeStamps write.byTwo write.stampGroups = .ok w ∧
    agree [s] "pq_meta" = .ok set ∧ dict someSizes (.g 0) set = .ok m ∧ m.cols = [intern [116]] ∧
    m.types = ['p'] ∧ m.rg = [[2, 1]] := by
  obtain ⟨w, hw, htold⟩ := pq_meta_tells_the_table_that_was_written
    ⟨by decide, by decide, by decide, by decide⟩ write.byTwo stream.stamps_queued
  obtain ⟨s, set, m, _, hset, hm, hcols, htypes, _, hrg, _⟩ := @htold _ (stream.stamps_footer hw).2 []
    (fun e he => absurd he List.not_mem_nil) "t" "t" "pq_meta" someSizes (.g 0)
  exact ⟨w, s, set, m, hw, hset, hm, hcols, htypes, hrg⟩

end parquet_interop.meta_dict
