-- What the calls of a stream do to the tree: which files they open, that they
-- change nothing else, and what each open file holds at the end.
import ParquetInterop.Stream
import Mathlib.Data.List.Nodup

open lib.bytes lib.trees lib.wrapping
open parquet_interop.ffi parquet_interop.footer parquet_interop.read

namespace parquet_interop.stream

/-! ## The files that are opened -/

def Op.name : Op → Option (List Char)
  | .create name => some name
  | .on _ _ => none

/-- The files that the names open, up to the first that cannot be opened. -/
def opened (t : Tree) (s : Loc) : List (List Char) → List Loc
  | [] => []
  | name :: names =>
    match creates t s name with
    | none => []
    | some l => l :: opened t s names

def Run.locs (r : Run) : List Loc := r.handles.map (·.1)

/-- Nothing but files at the opened locations was made of the tree `t`. -/
structure Kept (t : Tree) (r : Run) : Prop where
  dirs : ∀ l, r.tree.node l = some .dir ↔ t.node l = some .dir
  files : ∀ l ∈ r.locs, ∃ data, r.tree.node l = some (.file data)
  frame : ∀ l, l ∉ r.locs → r.tree.node l = t.node l

variable {t : Tree} {s : Loc} {r r' : Run}

theorem kept_start (t : Tree) : Kept t ⟨t, []⟩ :=
  ⟨fun _ => Iff.rfl, nofun, fun _ _ => rfl⟩

theorem kept_put (h : Kept t r) {l : Loc} {data : List UInt8} {hs : List (Loc × Nat)}
    (hdir : t.node l ≠ some .dir) (hlocs : ∀ x, x ∈ hs.map (·.1) ↔ x ∈ r.locs ∨ x = l) :
    Kept t ⟨r.tree.put l (.file data), hs⟩ := by
  refine ⟨fun x => ?_, fun x hx => ?_, fun x hx => ?_⟩
  · by_cases hxl : x = l
    · subst hxl
      simp [hdir]
    · simp only [r.tree.put_of_ne _ hxl]
      exact h.dirs x
  · by_cases hxl : x = l
    · exact ⟨data, by rw [hxl, Tree.put_self]⟩
    · obtain ⟨data', hdata⟩ := h.files x (((hlocs x).mp hx).resolve_right hxl)
      exact ⟨data', by simp only [r.tree.put_of_ne _ hxl, hdata]⟩
  · have hxl : x ≠ l := fun heq => hx ((hlocs x).mpr (.inr heq))
    simp only [r.tree.put_of_ne _ hxl]
    exact h.frame x fun hmem => hx ((hlocs x).mpr (.inl hmem))

theorem Kept.not_dir (h : Kept t r) {l : Loc} (hl : l ∈ r.locs) : t.node l ≠ some .dir := by
  obtain ⟨data, hdata⟩ := h.files l hl
  rw [ne_eq, ← h.dirs, hdata]
  nofun

theorem locs_set {hs : List (Loc × Nat)} {h : Nat} {l : Loc} {pos pos' : Nat}
    (hget : hs[h]? = some (l, pos)) : (hs.set h (l, pos')).map (·.1) = hs.map (·.1) := by
  apply List.ext_getElem?
  intro i
  rw [List.map_set, List.getElem?_set]
  split
  · rename_i hi
    obtain ⟨hlt, heq⟩ := List.getElem?_eq_some_iff.mp hget
    subst hi
    simp [hlt, heq]
  · rfl

theorem mem_locs {h : Nat} {l : Loc} {pos : Nat} (hget : r.handles[h]? = some (l, pos)) :
    l ∈ r.locs := List.mem_map.mpr ⟨_, List.mem_of_getElem? hget, rfl⟩

theorem on_kept (h : Kept t r) (i : Nat) (f : File → File) :
    Kept t (r.on i f) ∧ (r.on i f).locs = r.locs := by
  unfold Run.on
  split
  · exact ⟨h, rfl⟩
  · rename_i l pos hget
    have hlocs := @locs_set r.handles i l pos (f ⟨dataAt r.tree l, pos⟩).pos hget
    refine ⟨kept_put h (h.not_dir (mem_locs hget)) fun x => ?_, hlocs⟩
    rw [hlocs]
    exact ⟨.inl, fun hx => hx.elim id fun heq => heq ▸ mem_locs hget⟩

theorem leave_kept (h : Kept t r) (op : Option Op) (left : List UInt8) :
    Kept t (r.leave op left) ∧ (r.leave op left).locs = r.locs := by
  unfold Run.leave
  split
  · split
    · rename_i l pos hget
      have hlocs := @locs_set r.handles _ l pos pos hget
      refine ⟨kept_put h (h.not_dir (mem_locs hget)) fun x => ?_, hlocs⟩
      rw [hlocs]
      exact ⟨.inl, fun hx => hx.elim id fun heq => heq ▸ mem_locs hget⟩
    · exact ⟨h, rfl⟩
  · exact ⟨h, rfl⟩

theorem create_kept (h : Kept t r) {name : List Char} {l : Loc}
    (hl : creates r.tree s name = some l) :
    Kept t ⟨r.tree.put l (.file []), r.handles ++ [(l, 0)]⟩ := by
  have hdir : t.node l ≠ some .dir := by
    rw [creates_congr h.dirs] at hl
    simpa using (Option.filter_eq_some_iff.mp hl).2
  apply kept_put h hdir
  simp [Run.locs]

/-- A run of calls opens what its names open, and comes to its end when they all do. -/
theorem runOps_kept (h : Kept t r) (ops : List Op) :
    Kept t (runOps s r ops).1 ∧
      (runOps s r ops).1.locs = r.locs ++ opened t s (ops.filterMap Op.name) ∧
      ((runOps s r ops).2 = true ↔
        (opened t s (ops.filterMap Op.name)).length = (ops.filterMap Op.name).length) := by
  induction ops generalizing r with
  | nil => exact ⟨h, by simp [runOps, opened], by simp [runOps, opened]⟩
  | cons op ops ih =>
    cases op with
    | on i f =>
      obtain ⟨hkept, hlocs⟩ := on_kept h i f
      obtain ⟨hkept', hlocs', hok⟩ := ih hkept
      refine ⟨hkept', ?_, hok⟩
      rw [hlocs] at hlocs'
      exact hlocs'
    | create name =>
      have hsame := creates_congr h.dirs s name
      have hnames : (Op.create name :: ops).filterMap Op.name = name :: ops.filterMap Op.name := rfl
      rw [hnames, opened]
      simp only [runOps, Run.step]
      rcases hl : creates r.tree s name with _ | l
      · rw [hl] at hsame
        simp [← hsame, h]
      · rw [hl] at hsame
        obtain ⟨hkept', hlocs', hok⟩ := ih (create_kept h hl)
        simp only [Option.map_some, ← hsame]
        refine ⟨hkept', ?_, ?_⟩
        · rw [hlocs']
          simp [Run.locs]
        · simpa using hok

theorem opened_prefix {names names' : List (List Char)} (h : names <+: names') :
    opened t s names <+: opened t s names' := by
  induction names generalizing names' with
  | nil => exact List.nil_prefix
  | cons name names ih =>
    obtain ⟨rest, rfl⟩ := h
    rw [List.cons_append, opened, opened]
    split
    · exact List.nil_prefix
    · exact (List.cons_prefix_cons).mpr ⟨rfl, ih ⟨rest, rfl⟩⟩

/-- The calls that the world lets be made. -/
def Fate.calls (w : Fate) (ops : List Op) : List Op :=
  match w.stop with
  | none => ops
  | some (k, _) => ops.take k

theorem calls_first (w : Fate) (ops : List Op) : w.calls ops <+: ops := by
  unfold Fate.calls
  split
  · exact List.prefix_refl ops
  · exact List.take_prefix _ ops

/-- However far the calls come, what is open is what the names of those that were made open. -/
theorem work_kept (w : Fate) (h : Kept t r) (hr : r.locs = []) (ops : List Op) :
    Kept t (w.work s r ops).1 ∧
      (w.work s r ops).1.locs = opened t s ((w.calls ops).filterMap Op.name) := by
  unfold Fate.work Fate.calls
  rcases w.stop with _ | ⟨k, left⟩
  · obtain ⟨hkept, hlocs, _⟩ := @runOps_kept t s r h ops
    refine ⟨hkept, ?_⟩
    rw [hlocs, hr, List.nil_append]
  · obtain ⟨hkept, hlocs, _⟩ := @runOps_kept t s r h (ops.take k)
    rw [hr, List.nil_append] at hlocs
    dsimp only
    rcases hrun : runOps s r (ops.take k) with ⟨r', _ | _⟩ <;> rw [hrun] at hkept hlocs
    · exact ⟨hkept, hlocs⟩
    · obtain ⟨hkept', hlocs'⟩ := leave_kept hkept ops[k]? left
      simp only [if_true]
      exact ⟨hkept', hlocs'.trans hlocs⟩

/-! ## The names -/

theorem names_eachCol_nil {α : Type} {f : Nat → α → List Op}
    (hf : ∀ c x, (f c x).filterMap Op.name = []) (c : Nat) (xs : List α) :
    (eachCol f c xs).filterMap Op.name = [] := by
  induction xs generalizing c with
  | nil => rfl
  | cons x xs ih => rw [eachCol, List.filterMap_append, hf, ih, List.nil_append]

theorem names_headOps (c : Nat) (xs : List (String × LType)) :
    (eachCol headOps c xs).filterMap Op.name = xs.map fun x => x.1.toList := by
  induction xs generalizing c with
  | nil => rfl
  | cons x xs ih =>
    rw [eachCol, List.filterMap_append, ih]
    rfl

/-- The names of the files: the manifest and the columns. -/
def Source.files (src : Source) : List (List Char) := ".d".toList :: src.names.map String.toList

theorem names_manifestOps (names : List String) :
    (manifestOps names).filterMap Op.name = [".d".toList] := by
  unfold manifestOps
  simp [Op.name]

theorem names_ops (src : Source) : src.ops.filterMap Op.name = src.files := by
  have hheads : (eachCol headOps 0 (src.names.zip src.lts)).filterMap Op.name =
      src.names.map String.toList := by
    have hfst : (src.names.zip src.lts).map Prod.fst = src.names := by
      apply List.map_fst_zip
      rw [src.lts_len]
    rw [names_headOps]
    conv_rhs => rw [← hfst, List.map_map]
    rfl
  have hbatches : (src.batches.flatMap (batchOps src.lts)).filterMap Op.name = [] := by
    rw [List.filterMap_flatMap, List.flatMap_eq_nil_iff]
    exact fun b _ => names_eachCol_nil (fun _ _ => rfl) 0 _
  have hpatches : (eachCol (patchOps src.total) 0 src.lts).filterMap Op.name = [] :=
    names_eachCol_nil (fun _ _ => rfl) 0 src.lts
  unfold Source.ops Source.files
  rw [List.filterMap_append, List.filterMap_append, List.filterMap_append, names_manifestOps,
    hheads,
    hbatches, hpatches]
  simp

/-! ## What an open file holds -/

/-- What the calls do to the file `h`. -/
def onFile (h : Nat) (ops : List Op) : List (File → File) :=
  ops.filterMap fun
    | .on i f => if i = h then some f else none
    | .create _ => none

def fold (fs : List (File → File)) (f : File) : File := fs.foldl (fun f g => g f) f

/-- The open file `h`, with the bytes that stand at its location. -/
def Run.file (r : Run) (h : Nat) : Option File :=
  (r.handles[h]?).map fun (l, pos) => ⟨dataAt r.tree l, pos⟩

theorem runOps_append (r : Run) (xs ys : List Op) (h : (runOps s r (xs ++ ys)).2 = true) :
    (runOps s r xs).2 = true ∧ runOps s r (xs ++ ys) = runOps s (runOps s r xs).1 ys := by
  induction xs generalizing r with
  | nil => exact ⟨rfl, rfl⟩
  | cons x xs ih =>
    rw [List.cons_append] at h ⊢
    cases hx : r.step s x with
    | none => simp [runOps, hx] at h
    | some r' =>
      have hstep : ∀ zs, runOps s r (x :: zs) = runOps s r' zs := fun zs => by
        rw [runOps, hx]
      rw [hstep] at h
      rw [hstep, hstep]
      exact ih r' h

/-- Files at different locations do not touch each other. -/
theorem on_file {r : Run} (hnd : r.locs.Nodup) (i h : Nat) (f : File → File) :
    (r.on i f).file h = (r.file h).map (if i = h then f else id) := by
  unfold Run.on
  split
  · rename_i hget
    by_cases hih : i = h
    · subst hih
      simp [Run.file, hget]
    · simp [hih]
  · rename_i l pos hget
    unfold Run.file
    by_cases hih : i = h
    · subst hih
      have hlt := (List.getElem?_eq_some_iff.mp hget).1
      simp [hget, List.getElem?_set_self hlt, dataAt]
    · simp only [List.getElem?_set_ne hih, if_neg hih, Option.map_id]
      rcases hh : r.handles[h]? with _ | ⟨l', pos'⟩
      · rfl
      · have hne : l' ≠ l := fun heq => by
          have hi : r.locs[i]? = some l := by rw [Run.locs, List.getElem?_map, hget]; rfl
          have hh' : r.locs[h]? = some l := by rw [Run.locs, List.getElem?_map, hh, ← heq]; rfl
          obtain ⟨hi', hiv⟩ := List.getElem?_eq_some_iff.mp hi
          obtain ⟨hh'', hhv⟩ := List.getElem?_eq_some_iff.mp hh'
          exact hih ((List.Nodup.getElem_inj_iff hnd).mp (hiv.trans hhv.symm))
        simp [dataAt, r.tree.put_of_ne _ hne]

theorem create_file {l : Loc} (hl : l ∉ r.locs) {h : Nat} (hh : h < r.handles.length) :
    Run.file ⟨r.tree.put l (.file []), r.handles ++ [(l, 0)]⟩ h = r.file h := by
  unfold Run.file
  simp only [List.getElem?_append_left hh]
  rcases hget : r.handles[h]? with _ | ⟨l', pos⟩
  · rfl
  · have hne : l' ≠ l := fun heq => hl (heq ▸ mem_locs hget)
    simp [dataAt, r.tree.put_of_ne _ hne]

theorem runOps_file (hk : Kept t r) {ops : List Op} (hok : (runOps s r ops).2 = true)
    (hnd : (runOps s r ops).1.locs.Nodup) {h : Nat} (hh : h < r.handles.length) :
    (runOps s r ops).1.file h = (r.file h).map (fold (onFile h ops)) := by
  induction ops generalizing r with
  | nil => exact Option.map_id'.symm
  | cons op ops ih =>
    have hfirst : r.locs.Nodup := by
      rw [(@runOps_kept t s r hk (op :: ops)).2.1] at hnd
      exact (List.nodup_append.mp hnd).1
    cases op with
    | on i f =>
      obtain ⟨hkept, hlocs⟩ := on_kept hk i f
      have hlen : h < (r.on i f).handles.length := by
        have := congrArg List.length hlocs
        simp only [Run.locs, List.length_map] at this
        omega
      have hrest := ih hkept hok hnd hlen
      refine hrest.trans ?_
      rw [on_file hfirst, Option.map_map]
      congr 1
      funext x
      by_cases hih : i = h
      · simp [hih, onFile, fold]
      · simp [hih, onFile, fold]
    | create name =>
      unfold runOps at hok hnd ⊢
      simp only [Run.step] at hok hnd ⊢
      rcases hl : creates r.tree s name with _ | l
      · simp [hl] at hok
      · simp only [hl, Option.map_some] at hok hnd ⊢
        have hkept := create_kept hk hl
        have hfresh : l ∉ r.locs := fun hmem => by
          rw [(@runOps_kept t s _ hkept ops).2.1] at hnd
          have := (List.nodup_append.mp hnd).1
          simp only [Run.locs, List.map_append, List.map_cons, List.map_nil] at this
          exact (List.nodup_append.mp this).2.2 l hmem l List.mem_cons_self rfl
        rw [ih hkept hok hnd (by simp; omega), create_file hfresh hh]
        rfl

/-! ## The files of a source -/

theorem onFile_append (h : Nat) (xs ys : List Op) :
    onFile h (xs ++ ys) = onFile h xs ++ onFile h ys := List.filterMap_append ..

theorem fold_append (fs gs : List (File → File)) (f : File) :
    fold (fs ++ gs) f = fold gs (fold fs f) := List.foldl_append ..

variable {α : Type} {f : Nat → α → List Op}

/-- Columns are after the manifest, and each has its own file. -/
def OwnFile (f : Nat → α → List Op) : Prop := ∀ c x h, h ≠ c + 1 → onFile h (f c x) = []

theorem onFile_before (hf : OwnFile f) {h c : Nat} (hh : h ≤ c) (xs : List α) :
    onFile h (eachCol f c xs) = [] := by
  induction xs generalizing c with
  | nil => rfl
  | cons x xs ih => rw [eachCol, onFile_append, hf c x h (by omega), ih (by omega), List.nil_append]

theorem onFile_at (hf : OwnFile f) {c i : Nat} {xs : List α} {x : α} (hx : xs[i]? = some x) :
    onFile (c + i + 1) (eachCol f c xs) = onFile (c + i + 1) (f (c + i) x) := by
  induction xs generalizing c i with
  | nil => simp at hx
  | cons y ys ih =>
    rw [eachCol, onFile_append]
    cases i with
    | zero =>
      have hxy : y = x := by simpa using hx
      rw [hxy, onFile_before hf (by omega), List.append_nil]
      rfl
    | succ i =>
      rw [hf c y _ (by omega), List.nil_append]
      have hstep := @ih (c + 1) i (by simpa using hx)
      rwa [show c + 1 + i = c + (i + 1) by omega] at hstep

theorem ownFile_heads : OwnFile headOps := by
  intro c x h hh
  simp [headOps, onFile, Ne.symm hh]

theorem ownFile_chunks (rows : Nat) : OwnFile (chunkOps rows) := by
  intro c x h hh
  simp [chunkOps, onFile, Ne.symm hh]

theorem ownFile_patches (total : Int64) : OwnFile (patchOps total) := by
  intro c x h hh
  simp [patchOps, onFile, Ne.symm hh]

theorem eachCol_split (c i : Nat) {xs : List α} {x : α} (hx : xs[i]? = some x) :
    eachCol f c xs = eachCol f c (xs.take i) ++ f (c + i) x ++ eachCol f (c + i + 1) (xs.drop (i + 1)) := by
  induction xs generalizing c i with
  | nil => simp at hx
  | cons y ys ih =>
    cases i with
    | zero =>
      have hxy : y = x := by simpa using hx
      simp [eachCol, hxy]
    | succ i =>
      have hstep := ih (c + 1) i (by simpa using hx)
      rw [eachCol, hstep]
      simp only [List.take_succ_cons, List.drop_succ_cons, eachCol, List.append_assoc]
      rw [show c + 1 + i = c + (i + 1) by omega]

/-- The cells of the column `c`, by row group and batch. -/
def Source.column (src : Source) (c : Nat) : List (List (List Cell)) :=
  src.groups.map (·.map fun b => b.cols.getD c [])

theorem onFile_cons (h : Nat) (f : File → File) (ops : List Op) :
    onFile h (.on h f :: ops) = f :: onFile h ops := by
  simp [onFile]

theorem fold_map {β : Type} (g : β → File → File) (xs : List β) (f : File) :
    fold (xs.map g) f = xs.foldl (fun f x => g x f) f := by
  unfold fold
  rw [List.foldl_map]

theorem onFile_batches (src : Source) (h : Nat) :
    onFile h (src.batches.flatMap (batchOps src.lts)) =
      src.batches.flatMap fun b => onFile h (batchOps src.lts b) := by
  unfold onFile
  rw [List.filterMap_flatMap]

/-- What is done to the manifest makes it the list of the names. -/
theorem fold_manifest (src : Source) : fold (onFile 0 src.ops.tail) .empty = manifest src.names := by
  have hops : src.ops.tail = .on 0 (hdrSyms · (Int32.ofNat src.names.length)) ::
      (src.names.map fun n => .on 0 fun f => (f.write (utf8Bytes n)).write [0]) ++
        (eachCol headOps 0 (src.names.zip src.lts) ++ src.batches.flatMap (batchOps src.lts) ++
          eachCol (patchOps src.total) 0 src.lts) := by
    unfold Source.ops manifestOps
    simp
  have hbatches : onFile 0 (src.batches.flatMap (batchOps src.lts)) = [] := by
    rw [onFile_batches, List.flatMap_eq_nil_iff]
    exact fun b _ => onFile_before (ownFile_chunks b.rows) (Nat.le_refl 0) _
  have hnames : onFile 0 (src.names.map fun n => .on 0 fun f => (f.write (utf8Bytes n)).write [0]) =
      src.names.map fun n f => (f.write (utf8Bytes n)).write [0] := by
    unfold onFile
    rw [List.filterMap_map]
    simp
  rw [hops, onFile_append, onFile_append, onFile_append, hbatches, onFile_cons, hnames,
    onFile_before ownFile_heads (Nat.le_refl 0), onFile_before (ownFile_patches _) (Nat.le_refl 0),
    List.append_nil, List.append_nil, List.append_nil]
  exact fold_map _ _ _

theorem getElem?_col {b : Filled} {c : Nat} (hc : c < b.cols.length) :
    b.cols[c]? = some (b.cols.getD c []) := by
  simp [List.getD, hc]

/-- What the batches do to the file of a column, and the count of their rows. -/
theorem spill_fold (lt : LType) (c : Nat) (bs : List Filled)
    (hc : ∀ b ∈ bs, c < b.cols.length) (f : File) (total : Int64) :
    (bs.map fun b => b.cols.getD c []).foldl (spill lt) (f, total) =
      (bs.foldl (fun f b => appendChunk f lt (b.cols.getD c []) b.rows) f,
        bs.foldl (fun total b => total + Int64.ofNat b.rows) total) := by
  induction bs generalizing f total with
  | nil => rfl
  | cons b bs ih =>
    have hlen : (b.cols.getD c []).length = b.rows :=
      b.len_eq _ (List.mem_of_getElem? (getElem?_col (hc b List.mem_cons_self)))
    rw [List.map_cons, List.foldl_cons, List.foldl_cons, List.foldl_cons,
      ← ih (fun x hx => hc x (List.mem_cons_of_mem b hx))]
    unfold spill
    rw [hlen]

theorem columnFile_eq (src : Source) {c : Nat} (hc : c < src.names.length) (lt : LType) :
    columnFile lt (src.column c) = patchCount
      (src.batches.foldl (fun f b => appendChunk f lt (b.cols.getD c []) b.rows) (header lt))
      (lt = .KS) src.total := by
  have hcols : ∀ b ∈ src.batches, c < b.cols.length := fun b hb => by
    obtain ⟨g, hg, hbg⟩ := List.mem_flatten.mp hb
    rw [src.cols_len g hg b hbg]
    exact hc
  have hflat : (src.column c).flatten = src.batches.map fun b => b.cols.getD c [] := by
    unfold Source.column Source.batches
    rw [List.map_flatten]
  have hfold : (src.column c).foldl (fun ft g => g.foldl (spill lt) ft) (header lt, 0) =
      (src.column c).flatten.foldl (spill lt) (header lt, 0) := List.foldl_flatten.symm
  unfold columnFile
  rw [hfold, hflat, spill_fold lt c src.batches hcols]
  rfl

/-- What is done to a column's file, once it is created, makes it the column's. -/
theorem fold_column (src : Source) {c : Nat} {name : String} {lt : LType}
    (hn : src.names[c]? = some name) (hlt : src.lts[c]? = some lt) {post : List Op}
    (hpost : post = .on (c + 1) (start lt) :: (eachCol headOps (c + 1)
      ((src.names.zip src.lts).drop (c + 1)) ++ src.batches.flatMap (batchOps src.lts) ++
        eachCol (patchOps src.total) 0 src.lts)) :
    fold (onFile (c + 1) post) .empty = columnFile lt (src.column c) := by
  have hc : c < src.names.length := (List.getElem?_eq_some_iff.mp hn).1
  have hbatches : onFile (c + 1) (src.batches.flatMap (batchOps src.lts)) =
      src.batches.map fun b f => appendChunk f lt (b.cols.getD c []) b.rows := by
    rw [onFile_batches, ← List.flatMap_singleton' (src.batches.map _), List.flatMap_map]
    refine List.flatMap_congr fun b hb => ?_
    obtain ⟨g, hg, hbg⟩ := List.mem_flatten.mp hb
    have hlen : c < b.cols.length := by
      rw [src.cols_len g hg b hbg]
      exact hc
    have hzip : (src.lts.zip b.cols)[c]? = some (lt, b.cols.getD c []) := by
      rw [List.getElem?_zip_eq_some]
      exact ⟨hlt, getElem?_col hlen⟩
    have hat := onFile_at (ownFile_chunks b.rows) (c := 0) hzip
    rw [Nat.zero_add] at hat
    unfold batchOps
    rw [hat]
    simp [chunkOps, onFile]
  have hpatch : onFile (c + 1) (eachCol (patchOps src.total) 0 src.lts) =
      [fun f => patchCount f (lt = .KS) src.total] := by
    have hat := onFile_at (ownFile_patches src.total) (c := 0) hlt
    rw [Nat.zero_add] at hat
    rw [hat]
    simp [patchOps, onFile]
  have hstart : start lt .empty = header lt := rfl
  rw [hpost, onFile_cons, onFile_append, onFile_append, hbatches, hpatch,
    onFile_before ownFile_heads (Nat.le_refl _), List.nil_append, columnFile_eq src hc]
  have hcons : ∀ fs, fold (start lt :: fs) .empty = fold fs (header lt) := fun fs => rfl
  rw [hcons, fold_append, fold_map]
  rfl

/-- After a call that creates a file, its handle is the next one, and what follows works on an empty
file. -/
theorem runOps_created (hk : Kept t r) {name : List Char} {post : List Op}
    (hok : (runOps s r (.create name :: post)).2 = true)
    (hnd : (runOps s r (.create name :: post)).1.locs.Nodup) :
    (runOps s r (.create name :: post)).1.file r.handles.length =
      some (fold (onFile r.handles.length post) .empty) := by
  unfold runOps at hok hnd ⊢
  simp only [Run.step] at hok hnd ⊢
  rcases hl : creates r.tree s name with _ | l
  · simp [hl] at hok
  · simp only [hl, Option.map_some] at hok hnd ⊢
    rw [runOps_file (create_kept hk hl) hok hnd (by simp)]
    simp [Run.file, dataAt, File.empty]

/-- A run of all the calls leaves every file as the layout has it, if no two of them are one. -/
theorem runOps_files (src : Source) (hok : (runOps s ⟨t, []⟩ src.ops).2 = true)
    (hnd : (runOps s ⟨t, []⟩ src.ops).1.locs.Nodup) :
    (runOps s ⟨t, []⟩ src.ops).1.file 0 = some (manifest src.names) ∧
      ∀ c name lt, src.names[c]? = some name → src.lts[c]? = some lt →
        (runOps s ⟨t, []⟩ src.ops).1.file (c + 1) = some (columnFile lt (src.column c)) := by
  have hcons : src.ops = .create ".d".toList :: src.ops.tail := rfl
  refine ⟨?_, fun c name lt hn hlt => ?_⟩
  · rw [hcons] at hok hnd ⊢
    exact (runOps_created (kept_start t) hok hnd).trans (congrArg some (fold_manifest src))
  · have hzip : (src.names.zip src.lts)[c]? = some (name, lt) := by
      rw [List.getElem?_zip_eq_some]
      exact ⟨hn, hlt⟩
    have hsplit : src.ops = (manifestOps src.names ++
        eachCol headOps 0 ((src.names.zip src.lts).take c)) ++ .create name.toList ::
          .on (c + 1) (start lt) :: (eachCol headOps (c + 1) ((src.names.zip src.lts).drop (c + 1)) ++
            src.batches.flatMap (batchOps src.lts) ++ eachCol (patchOps src.total) 0 src.lts) := by
      unfold Source.ops
      rw [eachCol_split 0 c hzip]
      simp [headOps]
    have hlen : (src.names.zip src.lts).length = src.names.length := by
      rw [List.length_zip, src.lts_len, Nat.min_self]
    have hc : c < src.names.length := (List.getElem?_eq_some_iff.mp hn).1
    rw [hsplit] at hok hnd ⊢
    obtain ⟨hpre, hrun⟩ := runOps_append _ _ _ hok
    rw [hrun] at hok hnd ⊢
    obtain ⟨hkept, hlocs, hall⟩ := @runOps_kept t s _ (kept_start t)
      (manifestOps src.names ++ eachCol headOps 0 ((src.names.zip src.lts).take c))
    have hhandles : (runOps s ⟨t, []⟩ (manifestOps src.names ++
        eachCol headOps 0 ((src.names.zip src.lts).take c))).1.handles.length = c + 1 := by
      have hopened := hall.mp hpre
      rw [← List.length_map (f := (·.1))]
      change (Run.locs _).length = _
      rw [hlocs, Run.locs, List.map_nil, List.nil_append, hopened, List.filterMap_append,
        names_manifestOps, names_headOps, List.length_append, List.length_map, List.length_take,
        hlen, Nat.min_eq_left hc.le]
      exact Nat.add_comm 1 c
    have hfile := runOps_created hkept hok hnd
    rw [hhandles] at hfile
    rw [hfile, fold_column src hn hlt rfl]

end parquet_interop.stream
