-- The layout of a read: the row groups of a window, each with the result
-- row that its rows start at, counted before a page is touched.
import ParquetInterop.Footer
import ParquetInterop.Lib.Blocks
import ParquetInterop.Lib.Wrapping

open parquet_interop.footer lib.blocks lib.wrapping

namespace parquet_interop.read

/-! ## The window -/

/-- `Rg` in the source: a row group of a window, the result row it starts at and its rows. -/
structure Rg where
  f : Nat
  g : Nat
  off : Nat
  rows : Nat
  deriving DecidableEq

/-- A row group in the global order: its file, its number in the file, its row count. -/
structure Group where
  f : Nat
  g : Nat
  rows : Int64
  deriving DecidableEq

/-- The two loops of `read`: files in argument order, row groups in file order. -/
def groupsOf (srcs : List Src) : List Group :=
  (srcs.zipIdx.map fun (s, f) => s.rg_rows.zipIdx.map fun (rows, g) => ⟨f, g, rows⟩).flatten

/-- `rows as usize` for a positive count. -/
def asUsize (rows : Int64) : Nat := rows.toInt.toNat

/-- The body of the loops. `g` counts every row group and `total` only the rows of the window.
The addition in `usize` wraps. -/
def layoutFrom (g0 g1 : Nat) : List Group → Nat → Nat → List Rg × Nat
  | [], _, total => ([], total)
  | x :: gs, g, total =>
    if g0 ≤ g ∧ g < g1 ∧ 0 < x.rows.toInt then
      let rows := asUsize x.rows
      let (rgs, t) := layoutFrom g0 g1 gs (g + 1) ((total + rows) % 2 ^ 64)
      (⟨x.f, x.g, total, rows⟩ :: rgs, t)
    else layoutFrom g0 g1 gs (g + 1) total

def layout (srcs : List Src) (g0 g1 : Nat) : List Rg × Nat := layoutFrom g0 g1 (groupsOf srcs) 0 0

/-- One L vector is bounded by `i32::MAX` rows. -/
def I32_MAX : Nat := 2 ^ 31 - 1

/-- The guard of `read` on the window. -/
def window (srcs : List Src) (g0 g1 : Nat) (who : String) : Except String (List Rg × Nat) :=
  let (rgs, total) := layout srcs g0 g1
  if I32_MAX < total then .error s!"{who}: >2^31 rows" else .ok (rgs, total)

def Rg.block (r : Rg) : Block := ⟨r.off, r.rows⟩

/-! ## The true counts -/

/-- The true counts of the window's row groups. -/
def windowCounts (srcs : List Src) (g0 g1 : Nat) : List Int :=
  ((groupsOf srcs).zipIdx.filter fun x => g0 ≤ x.2 ∧ x.2 < g1).map (·.1.rows.toInt)

/-- The true counts of every row group. -/
def allCounts (srcs : List Src) : List Int := (groupsOf srcs).map (·.rows.toInt)

/-- The footers describe a table, and the window of `[g0, g1)` is laid out as that table. -/
structure RealLayout (srcs : List Src) (g0 g1 : Nat) : Prop where
  counts : ∀ s ∈ srcs, ∀ r ∈ s.rg_rows, 0 ≤ r.toInt
  rows : (rowsOf srcs).toInt = (allCounts srcs).sum
  guarded : ((layout srcs g0 g1).2 : Int) = (windowCounts srcs g0 g1).sum
  laid_out : (layout srcs g0 g1).2 ≤ I32_MAX →
    Chain 0 ((layout srcs g0 g1).1.map Rg.block) (layout srcs g0 g1).2 ∧
    (layout srcs g0 g1).1.Pairwise (fun a b => a.off + a.rows ≤ b.off) ∧
    ∀ r ∈ (layout srcs g0 g1).1, r.off + r.rows ≤ (layout srcs g0 g1).2
  whole : (rowsOf srcs).toInt = (layout srcs 0 (groupsOf srcs).length).2

theorem allCounts_eq (srcs : List Src) :
    allCounts srcs = (srcs.map fun s => s.rg_rows.map Int64.toInt).flatten := by
  have hfile : ∀ (f : Nat) (rows : List Int64) (k : Nat),
      ((rows.zipIdx k).map fun (r, g) => (⟨f, g, r⟩ : Group)).map (·.rows.toInt) =
        rows.map Int64.toInt := by
    intro f rows k
    induction rows generalizing k with
    | nil => rfl
    | cons r rows ih => simp only [List.zipIdx_cons, List.map_cons, ih]
  have hall : ∀ k, ((srcs.zipIdx k).map fun (s, f) =>
      s.rg_rows.zipIdx.map fun (r, g) => (⟨f, g, r⟩ : Group)).flatten.map (·.rows.toInt) =
        (srcs.map fun s => s.rg_rows.map Int64.toInt).flatten := by
    induction srcs with
    | nil => intro k; rfl
    | cons s srcs ih =>
      intro k
      rw [List.zipIdx_cons, List.map_cons, List.flatten_cons, List.map_append, ih, hfile,
        List.map_cons, List.flatten_cons]
  exact hall 0

/-- `Set::rows` is the true sum of all the counts, wrapped. -/
theorem rowsOf_toInt (srcs : List Src) : (rowsOf srcs).toInt = wrap (allCounts srcs).sum := by
  have hsum : ∀ rows : List Int64, (wrappingSum rows).toInt = wrap (rows.map Int64.toInt).sum := by
    intro rows
    unfold wrappingSum
    rw [toInt_foldl_add]
    simp
  have hfiles : (srcs.map fun s => wrappingSum s.rg_rows).map Int64.toInt =
      (srcs.map fun s => (s.rg_rows.map Int64.toInt).sum).map wrap := by
    rw [List.map_map, List.map_map]
    exact List.map_congr_left fun s _ => hsum s.rg_rows
  unfold rowsOf
  rw [hsum, hfiles, wrap_sum_wrap, allCounts_eq, List.sum_flatten, List.map_map]
  rfl

theorem count_nonneg_iff (srcs : List Src) :
    (∀ s ∈ srcs, ∀ r ∈ s.rg_rows, 0 ≤ r.toInt) ↔ ∀ x ∈ groupsOf srcs, 0 ≤ x.rows.toInt := by
  have hmem : ∀ n : Int, n ∈ allCounts srcs ↔ ∃ s ∈ srcs, ∃ r ∈ s.rg_rows, r.toInt = n := by
    intro n
    rw [allCounts_eq]
    simp [List.mem_flatten]
  constructor
  · intro h x hx
    obtain ⟨s, hs, r, hr, hrx⟩ := (hmem x.rows.toInt).mp (List.mem_map_of_mem hx)
    rw [← hrx]
    exact h s hs r hr
  · intro h s hs r hr
    obtain ⟨x, hx, hxr⟩ := List.mem_map.mp ((hmem r.toInt).mpr ⟨s, hs, r, hr, rfl⟩)
    have := h x hx
    omega

/-! ## The loop on true counts -/

/-- The counts that the loop adds, from the row group number `g` on. -/
def windowFrom (g0 g1 : Nat) (gs : List Group) (g : Nat) : List Int :=
  ((gs.zipIdx g).filter fun x => g0 ≤ x.2 ∧ x.2 < g1).map (·.1.rows.toInt)

theorem windowFrom_cons (g0 g1 : Nat) (x : Group) (gs : List Group) (g : Nat) :
    windowFrom g0 g1 (x :: gs) g =
      if g0 ≤ g ∧ g < g1 then x.rows.toInt :: windowFrom g0 g1 gs (g + 1)
      else windowFrom g0 g1 gs (g + 1) := by
  unfold windowFrom
  rw [List.zipIdx_cons, List.filter_cons]
  by_cases h : g0 ≤ g ∧ g < g1 <;> simp [h]

theorem sum_window_le (g0 g1 : Nat) {gs : List Group} (g : Nat)
    (hnn : ∀ x ∈ gs, 0 ≤ x.rows.toInt) :
    0 ≤ (windowFrom g0 g1 gs g).sum ∧ (windowFrom g0 g1 gs g).sum ≤ (gs.map (·.rows.toInt)).sum := by
  induction gs generalizing g with
  | nil => simp [windowFrom]
  | cons x gs ih =>
    have hx := hnn x List.mem_cons_self
    obtain ⟨h0, hle⟩ := ih (g + 1) fun y hy => hnn y (List.mem_cons_of_mem x hy)
    rw [windowFrom_cons, List.map_cons, List.sum_cons]
    split
    · rw [List.sum_cons]
      omega
    · omega

/-- The rows that these counts stand for: a count that is not positive adds none. -/
def countedRows (counts : List Int) : Nat := (counts.map Int.toNat).sum

theorem countedRows_of_nonneg {counts : List Int} (h : ∀ n ∈ counts, 0 ≤ n) :
    (countedRows counts : Int) = counts.sum := by
  unfold countedRows
  induction counts with
  | nil => rfl
  | cons n counts ih =>
    have hn := h n List.mem_cons_self
    have hrest := ih fun k hk => h k (List.mem_cons_of_mem n hk)
    rw [List.map_cons, List.sum_cons, List.sum_cons, ← hrest]
    omega

theorem windowFrom_nonneg (g0 g1 : Nat) {gs : List Group} (g : Nat)
    (hnn : ∀ x ∈ gs, 0 ≤ x.rows.toInt) : ∀ n ∈ windowFrom g0 g1 gs g, 0 ≤ n := by
  intro n hn
  obtain ⟨x, hx, rfl⟩ := List.mem_map.mp hn
  exact hnn x.1 (List.fst_mem_of_mem_zipIdx (List.mem_filter.mp hx).1)

/-- With less than `2^64` rows in the window, the loop lays it out in one chain of blocks, and
it counts its rows. -/
theorem layoutFrom_chain (g0 g1 : Nat) {gs : List Group} (g total : Nat)
    (hfits : total + countedRows (windowFrom g0 g1 gs g) < 2 ^ 64) :
    Chain total ((layoutFrom g0 g1 gs g total).1.map Rg.block) (layoutFrom g0 g1 gs g total).2 ∧
      (layoutFrom g0 g1 gs g total).2 = total + countedRows (windowFrom g0 g1 gs g) := by
  induction gs generalizing g total with
  | nil => simp [layoutFrom, windowFrom, countedRows, Chain]
  | cons x gs ih =>
    rw [windowFrom_cons] at hfits ⊢
    unfold layoutFrom
    dsimp only
    split
    · rename_i hin
      have hcount : countedRows (x.rows.toInt :: windowFrom g0 g1 gs (g + 1)) =
          asUsize x.rows + countedRows (windowFrom g0 g1 gs (g + 1)) := List.sum_cons
      rw [if_pos ⟨hin.1, hin.2.1⟩, hcount] at hfits ⊢
      have hmod : (total + asUsize x.rows) % 2 ^ 64 = total + asUsize x.rows := by
        apply Nat.mod_eq_of_lt
        omega
      obtain ⟨hchain, hsum⟩ := ih (g + 1) (total + asUsize x.rows) (by omega)
      rw [hmod]
      exact ⟨⟨rfl, hchain⟩, by omega⟩
    · rename_i hout
      -- A row group of the window that is left out has no row.
      have hsame : countedRows (if g0 ≤ g ∧ g < g1 then
          x.rows.toInt :: windowFrom g0 g1 gs (g + 1) else windowFrom g0 g1 gs (g + 1)) =
            countedRows (windowFrom g0 g1 gs (g + 1)) := by
        split
        · have hzero : x.rows.toInt.toNat = 0 := by omega
          unfold countedRows
          rw [List.map_cons, List.sum_cons, hzero, Nat.zero_add]
        · rfl
      rw [hsame] at hfits ⊢
      exact ih (g + 1) total hfits

theorem windowFrom_all (gs : List Group) (g k : Nat) (hk : g + gs.length ≤ k) :
    windowFrom 0 k gs g = gs.map (·.rows.toInt) := by
  induction gs generalizing g with
  | nil => rfl
  | cons x gs ih =>
    rw [List.length_cons] at hk
    rw [windowFrom_cons, if_pos ⟨Nat.zero_le g, by omega⟩, ih (g + 1) (by omega), List.map_cons]

/-- The layout of counts that are not negative and whose sum fits. -/
theorem realLayout_of_fits {srcs : List Src} (g0 g1 : Nat)
    (hnn : ∀ s ∈ srcs, ∀ r ∈ s.rg_rows, 0 ≤ r.toInt) (hfits : (allCounts srcs).sum < 2 ^ 63) :
    RealLayout srcs g0 g1 := by
  have hgroups := (count_nonneg_iff srcs).mp hnn
  have hpos : 0 ≤ (allCounts srcs).sum := by
    obtain ⟨h0, hle⟩ := sum_window_le 0 0 0 hgroups
    exact Int.le_trans h0 hle
  have hcounted : ∀ h0 h1, (countedRows (windowFrom h0 h1 (groupsOf srcs) 0) : Int) =
      (windowFrom h0 h1 (groupsOf srcs) 0).sum := fun h0 h1 =>
    countedRows_of_nonneg (windowFrom_nonneg h0 h1 0 hgroups)
  have hsmall : ∀ h0 h1, 0 + countedRows (windowFrom h0 h1 (groupsOf srcs) 0) < 2 ^ 64 := by
    intro h0 h1
    have hc := hcounted h0 h1
    have hle := (sum_window_le h0 h1 0 hgroups).2
    unfold allCounts at hfits
    omega
  have hrows : (rowsOf srcs).toInt = (allCounts srcs).sum := by
    rw [rowsOf_toInt]
    exact wrap_of_fits (by omega) hfits
  constructor
  case counts => exact hnn
  case rows => exact hrows
  case guarded =>
    have hsum := (layoutFrom_chain g0 g1 0 0 (hsmall g0 g1)).2
    have hc := hcounted g0 g1
    rw [Nat.zero_add] at hsum
    rw [show windowCounts srcs g0 g1 = windowFrom g0 g1 (groupsOf srcs) 0 from rfl, ← hc, ← hsum]
    rfl
  case laid_out =>
    intro _
    have hchain : Chain 0 ((layout srcs g0 g1).1.map Rg.block) (layout srcs g0 g1).2 :=
      (layoutFrom_chain g0 g1 0 0 (hsmall g0 g1)).1
    refine ⟨hchain, ?_, fun r hr => ?_⟩
    · have hpair := chain_pairwise hchain
      rw [List.pairwise_map] at hpair
      exact hpair
    · exact (chain_inside hchain r.block (List.mem_map_of_mem hr)).2
  case whole =>
    have hsum := (layoutFrom_chain 0 (groupsOf srcs).length 0 0 (hsmall 0 _)).2
    have hc := hcounted 0 (groupsOf srcs).length
    rw [windowFrom_all (groupsOf srcs) 0 _ (by omega)] at hsum hc
    rw [hrows]
    simp only [layout]
    unfold allCounts
    omega

/-! ## The laws -/

/-- The layout of every window is real exactly when no footer count is negative and the true
sum of all the counts fits in an `i64`. -/
theorem the_layout_is_real_iff_the_counts_fit (srcs : List Src) :
    (∀ g0 g1, RealLayout srcs g0 g1) ↔
      (∀ s ∈ srcs, ∀ r ∈ s.rg_rows, 0 ≤ r.toInt) ∧ (allCounts srcs).sum ≤ 2 ^ 63 - 1 := by
  constructor
  · intro h
    have hreal := h 0 0
    refine ⟨hreal.counts, ?_⟩
    have hlt := Int64.toInt_lt (rowsOf srcs)
    rw [hreal.rows] at hlt
    omega
  · rintro ⟨hnn, hfits⟩ g0 g1
    exact realLayout_of_fits g0 g1 hnn (by omega)

/-- A footer of four row groups of `2^62` rows each, and no row in all. -/
def forgedMd : Md where
  fields := [⟨"a", .int64⟩]
  leaves := [⟨0, .INT64, 0, 0⟩]
  row_groups := List.replicate 4 ⟨4611686018427387904, [⟨false, none⟩]⟩
  num_rows := 0

def forgedFile : OpenFile where
  key := ⟨"/tmp/forged.parquet", 1, 1, 512, (0, 0)⟩
  parsed := .ok forgedMd
  tryNew _ := none

/-- `load` accepts the forged footer: the counts wrap to the declared total. The guard passes
on the total 0, and the first row group is laid out on `2^62` rows. -/
theorem a_forged_footer_is_laid_out_past_the_end :
    ¬ ∀ srcs : List Src,
      (∀ s ∈ srcs, ∃ orig path f who, (load [] orig path f who).1 = .ok s) →
      ∀ g0 g1, RealLayout srcs g0 g1 := by
  intro h
  have hload : (load [] "f" "/tmp/forged.parquet" (.ok forgedFile) "pq_read").1 =
      .ok (mk "f" "/tmp/forged.parquet" forgedMd (List.replicate 4 4611686018427387904)) := rfl
  have hreal := h [mk "f" "/tmp/forged.parquet" forgedMd (List.replicate 4 4611686018427387904)]
    (fun s hs => ⟨_, _, _, _, (List.mem_singleton.mp hs) ▸ hload⟩) 0 4
  have hlayout : layout [mk "f" "/tmp/forged.parquet" forgedMd (List.replicate 4 4611686018427387904)] 0 4 =
      ([⟨0, 0, 0, 2 ^ 62⟩, ⟨0, 1, 2 ^ 62, 2 ^ 62⟩, ⟨0, 2, 2 ^ 63, 2 ^ 62⟩,
        ⟨0, 3, 2 ^ 63 + 2 ^ 62, 2 ^ 62⟩], 0) := by decide
  have hin := (hreal.laid_out (by rw [hlayout]; decide)).2.2
  rw [hlayout] at hin
  have hle : 0 + 2 ^ 62 ≤ 0 := hin ⟨0, 0, 0, 2 ^ 62⟩ (by decide)
  omega

end parquet_interop.read
