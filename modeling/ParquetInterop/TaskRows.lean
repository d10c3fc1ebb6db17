-- Where a decode task stores: the rows of its own row group, exactly when
-- every batch that it stores ends inside them.
import ParquetInterop.Decode

open parquet_interop.ffi parquet_interop.footer parquet_interop.native
open lib.bits lib.stores

namespace parquet_interop.read

/-! ## The stores of one column of a batch -/

theorem store_mem_map {o : Store} {os : List Store} : Act.store o ∈ os.map Act.store ↔ o ∈ os := by
  simp

theorem fillCodes_cases {heap : Heap} {keys : Prim Int} {values : ArrayId} {cd : Codes}
    {p col off : Nat} {sy sy' : SymCache} {acts : List Act}
    (h : fillCodes heap keys values cd p col off sy = (.ok acts, sy')) :
    acts = [.give p] ∨ ∃ os, acts = os.map .store ∧ Fills os col off keys.values.length := by
  unfold fillCodes at h
  split at h
  · cases h
  · cases h
    exact Or.inl rfl
  · cases h
    exact Or.inr ⟨_, rfl, fill_nulls_fills keys col off _ _⟩

/-- A batch of codes is given up, or stored whole. -/
theorem symCodes_cases {heap : Heap} {arr : Arr} {cd : Codes} {p col off : Nat} {sy sy' : SymCache}
    {acts : List Act} (h : symCodes heap arr cd p col off sy = (.ok acts, sy')) :
    acts = [.give p] ∨ ∃ os, acts = os.map .store ∧ Fills os col off arr.len := by
  unfold symCodes at h
  split at h
  · split at h
    · split at h
      · rename_i keys values hd
        have hlen : keys.values.length = arr.len := by
          unfold Arr.len
          rw [hd]
          rfl
        exact hlen ▸ fillCodes_cases h
      · cases h
    · cases h
      exact Or.inl rfl
  · cases h
    exact Or.inl rfl

section
variable {W : World} {sel : Sel} {cols : Nat → Nat} {who : String} {cds : Nat → Option Codes}

/-- A column of a batch stores nothing, or every row of its array. -/
theorem arrowColumn_cases {p off : Nat} {arr : Arr} {sy sy' : SymCache} {acts : List Act}
    {r : Except String Unit} (h : arrowColumn W sel cols cds p arr off sy = ((acts, r), sy')) :
    (∀ o, Act.store o ∉ acts) ∨ ∃ os, acts = os.map .store ∧ Fills os (cols p) off arr.len := by
  unfold arrowColumn at h
  split at h
  · split at h
    · cases h
      exact Or.inl fun o ho => by cases ho
    · rename_i hs
      cases h
      rcases symCodes_cases hs with rfl | hos
      · exact Or.inl fun o ho => by simp at ho
      · exact Or.inr hos
  · split at h
    · cases h
      exact Or.inl fun o ho => by cases ho
    · rename_i hs
      cases h
      exact Or.inr ⟨_, rfl, fillCol_fills hs⟩

/-- What a batch stores lies in the rows of the batch, and it reaches the last of them. -/
theorem batchColumns_stores {b : Batch} {off : Nat} {places : List (Nat × Nat)} {sy sy' : SymCache}
    {acts : List Act} {r : Except String Unit}
    (h : batchColumns W sel cols cds b off places sy = ((acts, r), sy')) :
    ∀ o, Act.store o ∈ acts → ∃ p ∈ places.map Prod.fst, Rows (cols p) off b.num_rows o.dst ∧
      ∃ o', Act.store o' ∈ acts ∧ o'.dst.idx + 1 = off + b.num_rows := by
  induction places generalizing sy sy' acts r with
  | nil =>
    intro o ho
    cases h
    cases ho
  | cons pi places ih =>
    obtain ⟨p, i⟩ := pi
    have hone : ∀ {arr acts0 r0 sy0}, b.columns[i]? = some arr →
        arrowColumn W sel cols cds p arr off sy = ((acts0, r0), sy0) → ∀ o, Act.store o ∈ acts0 →
        Rows (cols p) off b.num_rows o.dst ∧
          ∃ o', Act.store o' ∈ acts0 ∧ o'.dst.idx + 1 = off + b.num_rows := by
      intro arr acts0 r0 sy0 harr hcol o ho
      rcases arrowColumn_cases hcol with hno | ⟨os, rfl, hos⟩
      · exact absurd ho (hno o)
      · have hlen := b.len_eq arr (List.mem_of_getElem? harr)
        rw [hlen] at hos
        have hrow := (hos.within o (store_mem_map.mp ho)).1
        obtain ⟨o', ho', hdst⟩ := hos.reach (i := b.num_rows - 1) (by
          obtain ⟨_, h2, h3⟩ := hrow
          omega)
        refine ⟨hrow, o', store_mem_map.mpr ho', ?_⟩
        obtain ⟨_, h2, h3⟩ := hrow
        rw [hdst]
        simp only
        omega
    intro o ho
    unfold batchColumns at h
    split at h
    · cases h
      cases ho
    · rename_i arr harr
      split at h
      · rename_i acts0 e sy0 hcol
        cases h
        obtain ⟨hrow, hlast⟩ := hone harr hcol o ho
        exact ⟨p, List.mem_cons_self, hrow, hlast⟩
      · rename_i acts0 sy0 hcol
        cases h
        rcases List.mem_append.mp ho with ho | ho
        · obtain ⟨hrow, o', ho', hlast⟩ := hone harr hcol o ho
          exact ⟨p, List.mem_cons_self, hrow, o', List.mem_append_left _ ho', hlast⟩
        · obtain ⟨q, hq, hrow, o', ho', hlast⟩ := ih rfl o ho
          exact ⟨q, List.mem_cons_of_mem _ hq, hrow, o', List.mem_append_right _ ho', hlast⟩

end

/-! ## The batches of a task -/

section
variable (W : World) (sel : Sel) (cols : Nat → Nat) (who : String) (cds : Nat → Option Codes)
  (places : List (Nat × Nat))

/-- Every batch that the loop comes to and stores a column of ends at row `last` or before. -/
def BatchesFit (last : Nat) : List (Except String Batch) → Nat → SymCache → Prop
  | [], _, _ => True
  | .error _ :: _, _, _ => True
  | .ok b :: bs, off, sy =>
    let r := batchColumns W sel cols cds b off places sy
    ((∃ o, Act.store o ∈ r.1.1) → off + b.num_rows ≤ last) ∧
      (r.1.2 = .ok () → BatchesFit last bs (off + b.num_rows) r.2)

variable {W sel cols cds places}

/-- The loop stores below `last` exactly when the batches that it stores end there. -/
theorem arrowLoop_stores_iff {last : Nat} {bs : List (Except String Batch)} {off : Nat}
    {sy : SymCache} :
    (∀ o, Act.store o ∈ (arrowLoop W sel cols who cds places bs off sy).1.1 → o.dst.idx < last) ↔
      BatchesFit W sel cols cds places last bs off sy := by
  induction bs generalizing off sy with
  | nil => simp [arrowLoop, BatchesFit]
  | cons b bs ih =>
    cases b with
    | error e => simp [arrowLoop, BatchesFit]
    | ok b =>
      rcases hb : batchColumns W sel cols cds b off places sy with ⟨⟨acts, r⟩, sy'⟩
      have hstored : (∀ o, Act.store o ∈ acts → o.dst.idx < last) ↔
          ((∃ o, Act.store o ∈ acts) → off + b.num_rows ≤ last) := by
        constructor
        · rintro hall ⟨o, ho⟩
          obtain ⟨_, _, _, o', ho', hlast⟩ := batchColumns_stores hb o ho
          have := hall o' ho'
          omega
        · intro hfit o ho
          obtain ⟨_, _, ⟨_, _, h3⟩, _⟩ := batchColumns_stores hb o ho
          exact Nat.lt_of_lt_of_le h3 (hfit ⟨o, ho⟩)
      unfold arrowLoop BatchesFit
      simp only [hb]
      cases r with
      | error e => simp [hstored]
      | ok u =>
        rw [← ih, ← hstored]
        simp only [List.mem_append, forall_const]
        constructor
        · exact fun h => ⟨fun o ho => h o (Or.inl ho), fun o ho => h o (Or.inr ho)⟩
        · rintro ⟨h1, h2⟩ o (ho | ho)
          · exact h1 o ho
          · exact h2 o ho

variable {who}

/-- Below, the loop starts at `off` and only goes up, in the columns of its part. -/
theorem arrowLoop_low {bs : List (Except String Batch)} {off : Nat} {sy : SymCache} :
    ∀ o, Act.store o ∈ (arrowLoop W sel cols who cds places bs off sy).1.1 →
      off ≤ o.dst.idx ∧ ∃ p ∈ places.map Prod.fst, o.dst.vec = cols p := by
  induction bs generalizing off sy with
  | nil =>
    intro o ho
    cases ho
  | cons b bs ih =>
    cases b with
    | error e =>
      intro o ho
      cases ho
    | ok b =>
      rcases hb : batchColumns W sel cols cds b off places sy with ⟨⟨acts, r⟩, sy'⟩
      have hin : ∀ o, Act.store o ∈ acts →
          off ≤ o.dst.idx ∧ ∃ p ∈ places.map Prod.fst, o.dst.vec = cols p := by
        intro o ho
        obtain ⟨p, hp, ⟨h1, h2, _⟩, _⟩ := batchColumns_stores hb o ho
        exact ⟨h2, p, hp, h1⟩
      intro o ho
      unfold arrowLoop at ho
      simp only [hb] at ho
      cases r with
      | error e => exact hin o ho
      | ok u =>
        rcases List.mem_append.mp ho with ho | ho
        · exact hin o ho
        · obtain ⟨h1, h2⟩ := ih o ho
          exact ⟨by omega, h2⟩

end

/-! ## The law of one task -/

/-- Every store of the task lies in one of its columns, in the rows of its row group. -/
def InItsRows (cols : Nat → Nat) (part : Part) (t : Task) (acts : List Act) : Prop :=
  ∀ o, Act.store o ∈ acts → ∃ p ∈ part.raw ++ part.outs, Rows (cols p) t.off t.rows o.dst

section
variable (W : World) (sel : Sel) (cols : Nat → Nat) (who : String)

/-- The task opens its file, is done with its zero-copy columns and has Arrow columns to read. -/
def ReachesArrow (part : Part) (src : Src) (t : Task) : Prop :=
  W.fopen src = .ok () ∧ (part.raw = [] ∨ W.tryClone src = .ok () ∧
    (rawColumns W sel cols who src t part.raw).2 = .ok () ∧ part.outs ≠ [])

/-- The batches that the reader of the task yields, and that it stores, end inside its rows. -/
def TaskFits (set : FileSet) (part : Part) (cds : Nat → Option Codes) (t : Task) (sy : SymCache) :
    Prop :=
  ∀ src mask bs, set.srcs[t.f]? = some src → ReachesArrow W sel cols who part src t →
    part.masks[t.f]? = some mask → W.batches src mask t.g = .ok bs →
    BatchesFit W sel cols cds (part.outs.zip part.bat) (t.off + t.rows) bs t.off sy

variable {W sel cols who}

theorem rawColumns_stores {src : Src} {t : Task} {ps : List Nat} :
    ∀ o, Act.store o ∈ (rawColumns W sel cols who src t ps).1 →
      ∃ p ∈ ps, Rows (cols p) t.off t.rows o.dst := by
  have hone : ∀ p o, Act.store o ∈ (rawColumn W sel cols who src t p).1 →
      Rows (cols p) t.off t.rows o.dst := by
    intro p o ho
    unfold rawColumn at ho
    split at ho
    · cases ho
    · cases ho
    · dsimp only at ho
      split at ho <;> exact rawCol_dst o (store_mem_map.mp ho)
  induction ps with
  | nil =>
    intro o ho
    cases ho
  | cons p ps ih =>
    intro o ho
    rcases hp : rawColumn W sel cols who src t p with ⟨acts, r⟩
    have hacts : ∀ o, Act.store o ∈ acts → Rows (cols p) t.off t.rows o.dst := by
      have := hone p
      rwa [hp] at this
    unfold rawColumns at ho
    rw [hp] at ho
    cases r with
    | error e => exact ⟨p, List.mem_cons_self, hacts o ho⟩
    | ok u =>
      rcases List.mem_append.mp ho with ho | ho
      · exact ⟨p, List.mem_cons_self, hacts o ho⟩
      · obtain ⟨q, hq, hrow⟩ := ih o ho
        exact ⟨q, List.mem_cons_of_mem _ hq, hrow⟩

theorem arrowPass_acts {part : Part} {cds : Nat → Option Codes} {src : Src} {t : Task}
    {sy : SymCache} {mask : ProjectionMask} {bs : List (Except String Batch)}
    (hm : part.masks[t.f]? = some mask) (hb : W.batches src mask t.g = .ok bs) :
    (arrowPass W sel cols who cds part src t sy).1.1 =
      (arrowLoop W sel cols who cds (part.outs.zip part.bat) bs t.off sy).1.1 := by
  unfold arrowPass
  rw [hm]
  dsimp only
  rw [hb]
  dsimp only
  split <;> rename_i heq <;> rw [heq]

theorem arrowPass_inRows_iff {part : Part} {cds : Nat → Option Codes} {src : Src} {t : Task}
    {sy : SymCache} :
    InItsRows cols part t (arrowPass W sel cols who cds part src t sy).1.1 ↔
      ∀ mask bs, part.masks[t.f]? = some mask → W.batches src mask t.g = .ok bs →
        BatchesFit W sel cols cds (part.outs.zip part.bat) (t.off + t.rows) bs t.off sy := by
  have hloop : ∀ mask bs, part.masks[t.f]? = some mask → W.batches src mask t.g = .ok bs →
      (InItsRows cols part t (arrowPass W sel cols who cds part src t sy).1.1 ↔
        BatchesFit W sel cols cds (part.outs.zip part.bat) (t.off + t.rows) bs t.off sy) := by
    intro mask bs hm hb
    rw [arrowPass_acts hm hb, ← arrowLoop_stores_iff who]
    constructor
    · intro h o ho
      obtain ⟨_, _, _, _, h3⟩ := h o ho
      exact h3
    · intro h o ho
      obtain ⟨hlow, p, hp, hvec⟩ := arrowLoop_low o ho
      obtain ⟨⟨q, i⟩, hq, rfl⟩ := List.mem_map.mp hp
      exact ⟨q, List.mem_append_right _ (List.of_mem_zip hq).1, hvec, hlow, h o ho⟩
  constructor
  · exact fun h mask bs hm hb => (hloop mask bs hm hb).mp h
  · intro h o ho
    rcases hm : part.masks[t.f]? with _ | mask
    · unfold arrowPass at ho
      rw [hm] at ho
      cases ho
    · rcases hb : W.batches src mask t.g with e | bs
      · unfold arrowPass at ho
        rw [hm] at ho
        dsimp only at ho
        rw [hb] at ho
        cases ho
      · exact (hloop mask bs hm hb).mpr (h mask bs hm hb) o ho

/-- A task stores in the columns of its part only, also when it fails. -/
theorem one_vec {set : FileSet} {part : Part} {cds : Nat → Option Codes} {t : Task} {sy : SymCache} :
    ∀ o, Act.store o ∈ (one W sel cols who set part cds t sy).1.1 →
      ∃ p ∈ part.positions, o.dst.vec = cols p := by
  have harrow : ∀ src o, Act.store o ∈ (arrowPass W sel cols who cds part src t sy).1.1 →
      ∃ p ∈ part.positions, o.dst.vec = cols p := by
    intro src o ho
    rcases hm : part.masks[t.f]? with _ | mask
    · unfold arrowPass at ho
      rw [hm] at ho
      cases ho
    rcases hb : W.batches src mask t.g with e | bs
    · unfold arrowPass at ho
      rw [hm] at ho
      dsimp only at ho
      rw [hb] at ho
      cases ho
    rw [arrowPass_acts hm hb] at ho
    obtain ⟨_, p, hp, hvec⟩ := arrowLoop_low o ho
    obtain ⟨⟨q, i⟩, hq, rfl⟩ := List.mem_map.mp hp
    exact ⟨q, List.mem_append_right _ (List.of_mem_zip hq).1, hvec⟩
  have hraw : ∀ src o, Act.store o ∈ (rawColumns W sel cols who src t part.raw).1 →
      ∃ p ∈ part.positions, o.dst.vec = cols p := by
    intro src o ho
    obtain ⟨p, hp, hvec, _⟩ := rawColumns_stores o ho
    exact ⟨p, List.mem_append_left _ hp, hvec⟩
  intro o ho
  unfold one at ho
  split at ho
  · cases ho
  rename_i src _
  split at ho
  · cases ho
  split at ho
  · exact harrow src o ho
  split at ho
  · cases ho
  have hcols := hraw src o
  split at ho
  · rename_i heq
    rw [heq] at hcols
    exact hcols ho
  · rename_i heq
    rw [heq] at hcols
    split at ho
    · exact hcols ho
    · rcases List.mem_append.mp ho with ho | ho
      · exact hcols ho
      · exact harrow src o ho

/-- A task stores in its own rows exactly when every batch that it stores ends there. -/
theorem a_task_stays_in_its_rows_iff_its_batches_fit (set : FileSet) (part : Part)
    (cds : Nat → Option Codes) (t : Task) (sy : SymCache) :
    InItsRows cols part t (one W sel cols who set part cds t sy).1.1 ↔
      TaskFits W sel cols who set part cds t sy := by
  unfold one
  split
  · rename_i hsrc
    simp [InItsRows, TaskFits, hsrc]
  rename_i src hsrc
  have hfits : TaskFits W sel cols who set part cds t sy ↔
      (ReachesArrow W sel cols who part src t → ∀ mask bs, part.masks[t.f]? = some mask →
        W.batches src mask t.g = .ok bs →
        BatchesFit W sel cols cds (part.outs.zip part.bat) (t.off + t.rows) bs t.off sy) := by
    constructor
    · exact fun h hr mask bs => h src mask bs hsrc hr
    · intro h src' mask bs hsrc' hr
      cases hsrc.symm.trans hsrc'
      exact h hr mask bs
  rw [hfits]
  unfold ReachesArrow
  split
  · rename_i e ho
    simp [InItsRows, ho]
  rename_i ho
  split
  · rename_i hraw
    rw [arrowPass_inRows_iff]
    simp [ho, hraw]
  rename_i hraw
  split
  · rename_i e hc
    simp [InItsRows, ho, hraw, hc]
  rename_i hc
  have hrows : ∀ o, Act.store o ∈ (rawColumns W sel cols who src t part.raw).1 →
      ∃ p ∈ part.raw ++ part.outs, Rows (cols p) t.off t.rows o.dst := by
    intro o ho
    obtain ⟨p, hp, hrow⟩ := rawColumns_stores o ho
    exact ⟨p, List.mem_append_left _ hp, hrow⟩
  rcases hr : rawColumns W sel cols who src t part.raw with ⟨acts, r⟩
  rw [hr] at hrows
  cases r with
  | error e =>
    simp only [reduceCtorEq, false_and, and_false, or_false, hraw, false_imp_iff, iff_true]
    exact hrows
  | ok u =>
    dsimp only
    split
    · rename_i houts
      simp only [houts, ne_eq, not_true_eq_false, and_false, or_false, hraw, false_imp_iff, iff_true]
      exact hrows
    · rename_i houts
      simp only [ho, hc, houts, ne_eq, not_false_eq_true, and_true, or_true, true_imp_iff]
      rw [← arrowPass_inRows_iff]
      constructor
      · exact fun h o ho => h o (List.mem_append_right _ ho)
      · intro h o ho
        rcases List.mem_append.mp ho with ho | ho
        · exact hrows o ho
        · exact h o ho

end

/-- A file of one short column and one row group, whose footer claims one row. -/
def oneRowMd : Md where
  fields := [⟨"a", .int16⟩]
  leaves := [⟨0, .INT32, 0, 0⟩]
  row_groups := [⟨1, [⟨false, none⟩]⟩]
  num_rows := 1

def oneRowSet : FileSet where
  srcs := [mk "f" "/tmp/one.parquet" oneRowMd [1]]
  names := ["a"]
  lts := [.ok .KH]

/-- One short in a batch of its own. -/
def oneShort (x : Int16) : Batch where
  columns := [⟨.int16, .i16 ⟨[x], none, nofun⟩⟩]
  num_rows := 1
  len_eq a ha := by
    rw [List.mem_singleton] at ha
    subst ha
    rfl

/-- A chunk of two rows, which the reader yields one by one: no batch has more rows than the footer
claims. -/
def twoRowWorld : World where
  crate := Crate.safe fun _ => .error "no dictionary"
  fopen _ := .ok ()
  tryClone _ := .ok ()
  firstPage _ _ _ := .ok none
  columnReader _ _ _ := .error "no reader"
  batches _ _ _ := .ok [.ok (oneShort 7), .ok (oneShort 8)]

/-- The second batch lands behind the one row of the task. -/
theorem a_batch_past_the_footer_is_stored :
    ¬ ∀ (W : World) (set : FileSet) (sel : Sel) (part : Part) (t : Task) (sy : SymCache),
      (∀ src mask g bs b, W.batches src mask g = .ok bs → .ok b ∈ bs → b.num_rows ≤ BATCH_ROWS) →
      select set none "pq_read" = .ok sel → part ∈ split set sel 1 →
      InItsRows id part t (one W sel id "pq_read" set part (fun _ => none) t sy).1.1 := by
  intro h
  have hsel : select oneRowSet none "pq_read" = .ok ⟨[0], [.KH], [0], [none]⟩ := rfl
  have hpart : (⟨[], [0], [0], [⟨[0]⟩]⟩ : Part) ∈ split oneRowSet ⟨[0], [.KH], [0], [none]⟩ 1 :=
    List.mem_singleton_self _
  have hbatch : ∀ src mask g bs b, twoRowWorld.batches src mask g = .ok bs → .ok b ∈ bs →
      b.num_rows ≤ BATCH_ROWS := by
    intro src mask g bs b hbs hb
    cases hbs
    rcases List.mem_cons.mp hb with hb | hb
    · cases hb
      decide
    · cases List.mem_singleton.mp hb
      decide
  have hrows := h twoRowWorld oneRowSet _ _ ⟨0, 0, 0, 1, 0⟩ SymCache.new hbatch hsel hpart
  obtain ⟨_, _, _, _, hlt⟩ := hrows (.put ⟨0, 1⟩ (.h 8)) (List.mem_cons_of_mem _ List.mem_cons_self)
  exact absurd hlt (by decide)

end parquet_interop.read
