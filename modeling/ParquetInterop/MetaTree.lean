-- Who owns what `pq_meta` makes: a set that it refuses makes nothing, and of any other
-- set the lists of the answer take each vector once.
import ParquetInterop.MetaDict

open lib.owned
open parquet_interop.ffi parquet_interop.footer parquet_interop.stats parquet_interop.read
open parquet_interop.ownership

namespace parquet_interop.meta_dict

/-! ## The vectors -/

/-- A vector of longs. A vector is shown as it is when it is filled, since nothing takes it before. -/
def ktnLongs (xs : List Int64) : Alloc Node Ref := alloc (.longs xs) []

/-- A vector of the bounds of a column. -/
def ktnBounds (lt : LType) (xs : List Cell) : Alloc Node Ref := alloc (.bounds lt xs) []

def ktnFlags (xs : List Bool) : Alloc Node Ref := alloc (.flags xs) []

def kchars (xs : List Char) : Alloc Node Ref := alloc (.chars xs) []

/-- A long atom, whether or not the host keeps it in its word. -/
def kj (x : Int64) : Alloc Node Ref := alloc (.long x) []

def keySyms (keys : List String) : List Sym := keys.map fun k => intern (utf8Bytes k)

/-! ## The answer, as it is made -/

section
variable (Z : ChunkSizes)

/-- The row groups of one file: the two vectors of each are made side by side. -/
def groupSizes (s : Src) (nc : Nat) : List Nat → Alloc Node (List Ref × List Ref)
  | [] => pure ([], [])
  | g :: gs => do
    let cv ← ktnLongs ((List.range nc).map (Z.compressed_size s g))
    let uv ← ktnLongs ((List.range nc).map (Z.uncompressed_size s g))
    let rest ← groupSizes s nc gs
    pure (cv :: rest.1, uv :: rest.2)

def fileSizes (nc : Nat) : List Src → Alloc Node (List Ref × List Ref)
  | [] => pure ([], [])
  | s :: srcs => do
    let gs ← groupSizes Z s nc (List.range s.md.row_groups.length)
    let c ← klist gs.1
    let u ← klist gs.2
    let rest ← fileSizes nc srcs
    pure (c :: rest.1, u :: rest.2)

def makeSizes (set : FileSet) (nc : Nat) : Alloc Node (Ref × Ref) := do
  let fs ← fileSizes Z nc set.srcs
  let c ← klist fs.1
  let u ← klist fs.2
  pure (c, u)

def makeStat (x : LType × ColStats) : Alloc Node Ref := do
  let mn ← ktnBounds x.1 x.2.mn
  let mx ← ktnBounds x.1 x.2.mx
  let nc ← ktnLongs x.2.nulls
  let keys ← ktnSyms (keySyms ["min", "max", "null"])
  let vals ← klist [mn, mx, nc]
  xD keys vals

def dictKeys : List String := ["files", "cols", "types", "rows", "rg", "bytes", "stats", "ubytes", "enc"]

/-- `dict` after its columns have their types. -/
def makeDict (old : Cell) (set : FileSet) (lts : List LType) : Alloc Node Ref := do
  let files ← ktnSyms (set.srcs.map fun s => intern (utf8Bytes s.orig))
  let cols ← ktnSyms (set.names.map fun n => intern (utf8Bytes n))
  let types ← kchars (lts.map typeChar)
  let rows ← kj set.rows
  let rgs ← (set.srcs.map (·.rg_rows)).mapM ktnLongs
  let rg ← klist rgs
  let both ← makeSizes Z set lts.length
  let sts ← (lts.zip (statsOf set lts old)).mapM makeStat
  let stats ← klist sts
  let enc ← ktnFlags (encOf set lts.length)
  let keys ← ktnSyms (keySyms dictKeys)
  let vals ← klist [files, cols, types, rows, rg, both.1, stats, both.2, enc]
  xD keys vals

/-- `dict` again, with the blocks of the host. No result when a block is used that does not live. -/
def heapDict (old : Cell) (set : FileSet) (h : Host) : Option (Except String Ref × Host) :=
  match dictTypes set with
  | .error e => some (.error e, h)
  | .ok lts => (makeDict Z old set lts h).map fun (r, h') => (.ok r, h')

end

/-! ## What the answer says -/

def leafOf (x : Node) : Nest Node := .node x []

def sizesTree (xs : List (List (List Int64))) : Nest Node :=
  .node .list (xs.map fun f => .node .list (f.map fun g => leafOf (.longs g)))

def statTree (x : LType × ColStats) : Nest Node :=
  .node .dict [leafOf (.syms (keySyms ["min", "max", "null"])),
    .node .list [leafOf (.bounds x.1 x.2.mn), leafOf (.bounds x.1 x.2.mx), leafOf (.longs x.2.nulls)]]

/-- The dictionary of a set whose columns have the types `lts`. -/
def dictTree (lts : List LType) (m : MetaDict) : Nest Node :=
  .node .dict [leafOf (.syms (keySyms dictKeys)),
    .node .list [leafOf (.syms m.files), leafOf (.syms m.cols), leafOf (.chars m.types),
      leafOf (.long m.rows), .node .list (m.rg.map fun ns => leafOf (.longs ns)), sizesTree m.bytes,
      .node .list ((lts.zip m.stats).map statTree), sizesTree m.ubytes, leafOf (.flags m.enc)]]

/-! ## Lists of trees -/

variable {h0 h : Host} {raws : List (Ref × Block Node)} {roots : List (Ref × Nest Node)}

/-- Vectors and lists that are made one after the other. -/
theorem mapM_keeps {α : Type} {make : α → Alloc Node Ref} {tree : α → Nest Node}
    (hmake : ∀ x {h : Host} {roots : List (Ref × Nest Node)}, Keeps h0 h raws roots →
      Goes (make x) h fun a h' => Keeps h0 h' raws ((a, tree x) :: roots))
    (xs : List α) (hk : Keeps h0 h raws roots) : Goes (xs.mapM make) h fun as h' =>
      ∃ kids, as = kids.map (·.1) ∧ kids.map (·.2) = xs.map tree ∧
        Keeps h0 h' raws (kids ++ roots) := by
  induction xs generalizing h roots with
  | nil =>
    rw [List.mapM_nil]
    exact goes_pure ⟨[], rfl, rfl, hk⟩
  | cons x xs ih =>
    rw [List.mapM_cons]
    refine (hmake x hk).bind fun a h1 hk1 => ?_
    refine (ih hk1).bind fun as h2 hk2 => goes_pure ?_
    obtain ⟨kids, rfl, htrees, hk2⟩ := hk2
    refine ⟨(a, tree x) :: kids, rfl, ?_, hk2.perm List.perm_middle⟩
    rw [List.map_cons, List.map_cons, htrees]

/-- Two lists of trees, side by side. -/
def Both (h0 h' : Host) (raws : List (Ref × Block Node)) (roots : List (Ref × Nest Node))
    (ts us : List (Nest Node)) (a : List Ref × List Ref) : Prop :=
  ∃ ks ls : List (Ref × Nest Node), a = (ks.map (·.1), ls.map (·.1)) ∧ ks.map (·.2) = ts ∧
    ls.map (·.2) = us ∧ Keeps h0 h' raws (ks ++ ls ++ roots)

/-- The two trees that were made before take the first places. -/
theorem Both.cons {ts us : List (Nest Node)} {as bs : List Ref} {a b : Ref} {t u : Nest Node}
    (hb : Both h0 h raws ((b, u) :: (a, t) :: roots) ts us (as, bs)) :
    Both h0 h raws roots (t :: ts) (u :: us) (a :: as, b :: bs) := by
  obtain ⟨ks, ls, heq, rfl, rfl, hk⟩ := hb
  cases heq
  have hmade : (ks ++ ls ++ (b, u) :: (a, t) :: roots).Perm ((b, u) :: (a, t) :: (ks ++ ls ++ roots)) :=
    List.perm_middle.trans (List.perm_middle.cons _)
  have hplaced : ((a, t) :: ks ++ (b, u) :: ls ++ roots).Perm
      ((a, t) :: (b, u) :: (ks ++ ls ++ roots)) := by
    rw [List.cons_append, List.cons_append, List.append_assoc, List.append_assoc]
    exact List.perm_middle.cons _
  exact ⟨(a, t) :: ks, (b, u) :: ls, rfl, rfl, rfl,
    hk.perm (hmade.trans ((List.Perm.swap ..).trans hplaced.symm))⟩

/-- Two lists take the trees of both sides. -/
theorem Both.lists {ts us : List (Nest Node)} {a : List Ref × List Ref}
    (hb : Both h0 h raws roots ts us a) {β : Type} {f : Ref → Ref → Alloc Node β}
    {R : β → Host → Prop}
    (hf : ∀ c u h', Keeps h0 h' raws ((u, .node .list us) :: (c, .node .list ts) :: roots) →
      Goes (f c u) h' R) : Goes (klist a.1 >>= fun c => klist a.2 >>= f c) h R := by
  obtain ⟨ks, ls, rfl, rfl, rfl, hk⟩ := hb
  rw [List.append_assoc] at hk
  refine (klist_keeps hk).bind fun c h1 hk1 => ?_
  refine (klist_keeps (hk1.perm List.perm_middle.symm)).bind fun u h2 hk2 => ?_
  exact hf c u h2 hk2

/-! ## The sizes -/

section
variable {Z : ChunkSizes}

theorem groupSizes_both (s : Src) (nc : Nat) (gs : List Nat) (hk : Keeps h0 h raws roots) :
    Goes (groupSizes Z s nc gs) h fun a h' => Both h0 h' raws roots
      (gs.map fun g => leafOf (.longs ((List.range nc).map (Z.compressed_size s g))))
      (gs.map fun g => leafOf (.longs ((List.range nc).map (Z.uncompressed_size s g)))) a := by
  induction gs generalizing h roots with
  | nil => exact goes_pure ⟨[], [], rfl, rfl, rfl, hk⟩
  | cons g gs ih =>
    unfold groupSizes ktnLongs
    refine (hk.leaf _).bind fun cv h1 hk1 => ?_
    refine (hk1.leaf _).bind fun uv h2 hk2 => ?_
    exact (ih hk2).bind fun rest h3 hrest => goes_pure hrest.cons

theorem fileSizes_both (nc : Nat) (srcs : List Src) (hk : Keeps h0 h raws roots) :
    Goes (fileSizes Z nc srcs) h fun a h' => Both h0 h' raws roots
      (srcs.map fun s => .node .list ((List.range s.md.row_groups.length).map fun g =>
        leafOf (.longs ((List.range nc).map (Z.compressed_size s g)))))
      (srcs.map fun s => .node .list ((List.range s.md.row_groups.length).map fun g =>
        leafOf (.longs ((List.range nc).map (Z.uncompressed_size s g))))) a := by
  induction srcs generalizing h roots with
  | nil => exact goes_pure ⟨[], [], rfl, rfl, rfl, hk⟩
  | cons s srcs ih =>
    unfold fileSizes
    refine (groupSizes_both s nc _ hk).bind fun gs h1 hgs => ?_
    refine hgs.lists fun c u h2 hk2 => ?_
    exact (ih hk2).bind fun rest h3 hrest => goes_pure hrest.cons

theorem makeSizes_keeps (set : FileSet) (nc : Nat) (hk : Keeps h0 h raws roots) :
    Goes (makeSizes Z set nc) h fun a h' => Keeps h0 h' raws
      ((a.2, sizesTree (sizes Z.uncompressed_size set nc)) ::
        (a.1, sizesTree (sizes Z.compressed_size set nc)) :: roots) := by
  have hsizes : ∀ size : Src → Nat → Nat → Int64, sizesTree (sizes size set nc) =
      .node .list (set.srcs.map fun s => .node .list ((List.range s.md.row_groups.length).map fun g =>
        leafOf (.longs ((List.range nc).map (size s g))))) := by
    intro size
    simp only [sizesTree, sizes, List.map_map, Function.comp_def]
  rw [hsizes, hsizes]
  unfold makeSizes
  refine (fileSizes_both nc set.srcs hk).bind fun fs h1 hfs => ?_
  exact hfs.lists fun c u h2 hk2 => goes_pure hk2

end

/-! ## The dictionaries -/

/-- The two sides of a dictionary. -/
theorem xD_keeps {keys vals : Ref} {tk tv : Nest Node}
    (hk : Keeps h0 h raws ((vals, tv) :: (keys, tk) :: roots)) :
    Goes (xD keys vals) h fun a h' => Keeps h0 h' raws ((a, .node .dict [tk, tv]) :: roots) := by
  have hsides : Keeps h0 h raws ([(keys, tk), (vals, tv)] ++ roots) := hk.perm (List.Perm.swap ..)
  exact hsides.node .dict

theorem makeStat_keeps (x : LType × ColStats) (hk : Keeps h0 h raws roots) :
    Goes (makeStat x) h fun a h' => Keeps h0 h' raws ((a, statTree x) :: roots) := by
  unfold makeStat ktnBounds ktnLongs ktnSyms
  refine (hk.leaf _).bind fun mn h1 hk1 => ?_
  refine (hk1.leaf _).bind fun mx h2 hk2 => ?_
  refine (hk2.leaf _).bind fun nc h3 hk3 => ?_
  refine (hk3.leaf _).bind fun keys h4 hk4 => ?_
  have hvals : Keeps h0 h4 raws ([(mn, leafOf (.bounds x.1 x.2.mn)), (mx, leafOf (.bounds x.1 x.2.mx)),
      (nc, leafOf (.longs x.2.nulls))] ++ (keys, leafOf (.syms (keySyms ["min", "max", "null"]))) :: roots) :=
    hk4.perm ((List.reverse_perm [_, _, _, _]).symm.append_right roots)
  exact (klist_keeps hvals).bind fun vals h5 hk5 => xD_keeps hk5

/-- The values come in the order of their keys, which is not the order in which they were made. -/
theorem in_key_order {α : Type} (files cols types rows rg bytes stats ubytes enc keys : α) :
    [keys, enc, stats, ubytes, bytes, rg, rows, types, cols, files].Perm
      ([files, cols, types, rows, rg, bytes, stats, ubytes, enc] ++ [keys]) :=
  (List.reverse_perm [files, cols, types, rows, rg, bytes, ubytes, stats, enc, keys]).trans
    ((List.Perm.swap ..).append_left [files, cols, types, rows, rg, bytes])

theorem makeDict_keeps {Z : ChunkSizes} {old : Cell} {set : FileSet} {lts : List LType} {m : MetaDict}
    (hlts : dictTypes set = .ok lts) (hdict : dict Z old set = .ok m) (h : Host) :
    Goes (makeDict Z old set lts) h fun a h' => Keeps h h' [] [(a, dictTree lts m)] := by
  obtain ⟨lts', hlts', rfl⟩ := dict_ok hdict
  cases hlts.symm.trans hlts'
  unfold makeDict ktnSyms kchars kj ktnFlags
  refine ((keeps_nothing h).leaf _).bind fun files h1 hk1 => ?_
  refine (hk1.leaf _).bind fun cols h2 hk2 => ?_
  refine (hk2.leaf _).bind fun types h3 hk3 => ?_
  refine (hk3.leaf _).bind fun rows h4 hk4 => ?_
  refine (mapM_keeps (fun ns _ _ hk => hk.leaf (.longs ns)) _ hk4).bind fun rgs h5 hrgs => ?_
  obtain ⟨kids, rfl, hrgs, hk5⟩ := hrgs
  refine (klist_keeps hk5).bind fun rg h6 hk6 => ?_
  refine (makeSizes_keeps set lts.length hk6).bind fun both h7 hk7 => ?_
  refine (mapM_keeps (fun x _ _ hk => makeStat_keeps x hk) _ hk7).bind fun sts h8 hsts => ?_
  obtain ⟨kids', rfl, hsts, hk8⟩ := hsts
  refine (klist_keeps hk8).bind fun stats h9 hk9 => ?_
  refine (hk9.leaf _).bind fun enc h10 hk10 => ?_
  refine (hk10.leaf _).bind fun keys h11 hk11 => ?_
  rw [hrgs, hsts] at hk11
  exact (klist_keeps (hk11.perm (in_key_order ..))).bind fun vals h12 hk12 => xD_keeps hk12

/-! ## The law of its blocks -/

/-- `pq_meta` uses no block that does not live. When it refuses a set the blocks are as they were, and
else it leaves one new tree that says the dictionary, in which every vector that it made has one place,
and that one release ends. -/
theorem pq_meta_leaves_its_answer_and_nothing_else (Z : ChunkSizes) (old : Cell) (set : FileSet)
    (h : Host) : ∃ r h', heapDict Z old set h = some (r, h') ∧
      match r with
      | .error e => dict Z old set = .error e ∧ h' = h
      | .ok root => ∃ lts m, dictTypes set = .ok lts ∧ dict Z old set = .ok m ∧
          Keeps h h' [] [(root, dictTree lts m)] ∧
          ∃ h'', release root h' = some ((), h'') ∧ h''.blk = h.blk := by
  unfold heapDict
  cases hlts : dictTypes set with
  | error e => exact ⟨_, h, rfl, by unfold dict; rw [hlts], rfl⟩
  | ok lts =>
    obtain ⟨m, hdict⟩ : ∃ m, dict Z old set = .ok m := by
      unfold dict
      rw [hlts]
      exact ⟨_, rfl⟩
    obtain ⟨root, h', hmade, hkeeps⟩ := makeDict_keeps hlts hdict h
    obtain ⟨_, h'', hrelease, hk⟩ := hkeeps.release
    refine ⟨.ok root, h', ?_, lts, m, rfl, hdict, hkeeps, h'', hrelease, hk.restored⟩
    show (makeDict Z old set lts h).map _ = _
    rw [hmade]
    rfl

end parquet_interop.meta_dict
