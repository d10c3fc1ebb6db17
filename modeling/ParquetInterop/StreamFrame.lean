-- Which files a stream touches: those that its names open, and nothing else
-- outside of the destination. So it keeps to its own splay when the names do.
import ParquetInterop.StreamFiles

open lib.bytes lib.trees lib.wrapping
open parquet_interop.ffi parquet_interop.footer parquet_interop.read

namespace parquet_interop.stream

variable {w : Fate} {src : Source} {D : Dst} {pid n : Nat} {t : Tree} {s d l m : Loc}

/-! ## The places -/

theorem prefix_snoc {p : Loc} {a : Name} (h : l <+: p ++ [a]) : l <+: p ∨ l = p ++ [a] := by
  rcases List.prefix_concat_iff.mp h with h | h
  · exact .inr (by simpa using h)
  · exact .inl h

theorem sibling {p : Loc} {a b : Name} (hab : a ≠ b) (m : Loc) : ¬p ++ [a] <+: p ++ [b] ++ m := by
  rintro ⟨k, hk⟩
  rw [List.append_assoc, List.append_assoc, List.append_cancel_left_eq] at hk
  exact hab (List.cons.inj hk).1

/-- The scratch directory does not stand in the destination, nor the other way round. -/
theorem scratch_apart (D : Dst) (pid n : Nat) (m : Loc) :
    ¬D.loc <+: D.scratch pid n ++ m ∧ ¬D.scratch pid n <+: D.loc ++ m :=
  ⟨sibling (scratch.name_ne D.last pid n).symm m, sibling (scratch.name_ne D.last pid n) m⟩

theorem not_under (h : ¬s <+: l) (p : Bool) : (s.isPrefixOf l && p) = false := by
  have : s.isPrefixOf l = false := Bool.eq_false_iff.mpr fun hp => h (List.isPrefixOf_iff_prefix.mp hp)
  rw [this, Bool.false_and]

theorem drop_outside (h : ¬s <+: l) : (w.drop s t).node l = t.node l :=
  Tree.remove_of_not (not_under h _)

theorem clear_outside (h : ¬d <+: l) : (w.clear d t).node l = t.node l :=
  Tree.remove_of_not (not_under h _)

theorem swap_outside (hs : ¬s <+: l) (hd : ¬d <+: l) : (w.swap s d t).1.node l = t.node l := by
  unfold Fate.swap
  dsimp only
  split
  · exact (Tree.move_of_not hd hs).trans (clear_outside hd)
  · exact (drop_outside hs).trans (clear_outside hd)

/-- Every directory down to the one that `dst` stands in is there, or a file stands in its place
and nothing can be made. -/
def Grounded (t : Tree) (parent : Loc) : Prop :=
  ∀ p, p <+: parent → t.node p = none → ∃ q data, q <+: p ∧ t.node q = some (.file data)

theorem makes_list (w : Fate) (s : Loc) (t : Tree) :
    ∃ k, (w.makes s t).1 = (mkdirs t ((above s).take k)).1 := by
  unfold Fate.makes
  split
  · exact ⟨(above s).length, by rw [List.take_length]⟩
  · rename_i k _
    exact ⟨k, rfl⟩

/-- `create_dir_all` makes nothing but the scratch directory. -/
theorem makes_outside {parent : Loc} {a : Name} (hg : Grounded t parent)
    (hl : ¬parent ++ [a] <+: l) : (w.makes (parent ++ [a]) t).1.node l = t.node l := by
  obtain ⟨k, hk⟩ := makes_list w (parent ++ [a]) t
  rw [hk]
  rcases mkdirs_node t ((above (parent ++ [a])).take k) l with h | ⟨hmem, hnone, _⟩
  · exact h
  · have habove := mem_above.mp (List.mem_of_mem_take hmem)
    have hparent : l <+: parent := (prefix_snoc habove).resolve_right fun h => hl (h ▸ List.prefix_refl _)
    obtain ⟨q, data, hq, hfile⟩ := hg l hparent hnone
    obtain ⟨_, hlen⟩ := mem_above_take.mp hmem
    have hqmem : q ∈ (above (parent ++ [a])).take k :=
      mem_above_take.mpr ⟨hq.trans habove, Nat.lt_of_le_of_lt hq.length_le hlen⟩
    exact mkdirs_blocked ((above_ordered _).sublist (List.take_sublist k _)) hqmem hfile hq

/-! ## The call, case by case -/

theorem stream_barred (h : w.refused = true ∨ Barred src D t) :
    streamTable w src D pid n t = ⟨t, false, [], false⟩ := if_pos h

theorem stream_unmade (h : ¬(w.refused = true ∨ Barred src D t))
    (hm : (w.makes (D.scratch pid n) t).2 = false) :
    streamTable w src D pid n t = ⟨w.drop (D.scratch pid n) (w.makes (D.scratch pid n) t).1, false, [],
      true⟩ := by
  unfold streamTable
  simp [h, hm]

/-- The calls on the scratch directory. -/
def worked (w : Fate) (src : Source) (D : Dst) (pid n : Nat) (t : Tree) : Run × Bool :=
  w.work (D.scratch pid n) ⟨(w.makes (D.scratch pid n) t).1, []⟩ src.ops

theorem stream_failed (h : ¬(w.refused = true ∨ Barred src D t))
    (hm : (w.makes (D.scratch pid n) t).2 = true) (hw : (worked w src D pid n t).2 = false) :
    streamTable w src D pid n t = ⟨w.drop (D.scratch pid n) (worked w src D pid n t).1.tree, false,
      (worked w src D pid n t).1.locs, true⟩ := by
  unfold worked at *
  unfold streamTable
  simp [h, hm, hw, Run.locs]

theorem stream_worked (h : ¬(w.refused = true ∨ Barred src D t))
    (hm : (w.makes (D.scratch pid n) t).2 = true) (hw : (worked w src D pid n t).2 = true) :
    streamTable w src D pid n t =
      ⟨(w.swap (D.scratch pid n) D.loc (worked w src D pid n t).1.tree).1,
        (w.swap (D.scratch pid n) D.loc (worked w src D pid n t).1.tree).2,
        (worked w src D pid n t).1.locs, true⟩ := by
  unfold worked at *
  unfold streamTable
  simp [h, hm, hw, Run.locs]

/-- A call that does its work was not cut short, and opened a file for every name. -/
theorem work_ok (hw : (worked w src D pid n t).2 = true) :
    worked w src D pid n t = runOps (D.scratch pid n) ⟨(w.makes (D.scratch pid n) t).1, []⟩ src.ops := by
  unfold worked Fate.work at hw ⊢
  rcases hstop : w.stop with _ | ⟨k, left⟩
  · rfl
  · simp [hstop] at hw

theorem makes_ok (hm : (w.makes s t).2 = true) :
    (w.makes s t).1 = (mkdirs t (above s)).1 ∧ (mkdirs t (above s)).2 = true := by
  unfold Fate.makes at hm ⊢
  rcases hmade : w.made with _ | k
  · simp only [hmade] at hm
    exact ⟨rfl, hm⟩
  · simp [hmade] at hm

/-! ## The swapped splay -/

theorem opened_get {files : List (List Char)} {i : Nat} (h : (opened t s files)[i]? = some l) :
    ∃ file, files[i]? = some file ∧ creates t s file = some l := by
  induction files generalizing i with
  | nil => simp [opened] at h
  | cons file files ih =>
    unfold opened at h
    rcases hc : creates t s file with _ | l'
    · simp [hc] at h
    · simp only [hc] at h
      cases i with
      | zero =>
        have hl : l' = l := by simpa using h
        exact ⟨file, rfl, hl ▸ hc⟩
      | succ i => exact ih (by simpa using h)

theorem creates_leaf {file : List Char} (h : creates t s file = some l) :
    ∃ b, l = b ++ [leaf file] := by
  unfold creates resolve at h
  split at h
  · cases h
  · obtain ⟨b, _, hb⟩ := Option.map_eq_some_iff.mp (Option.filter_eq_some_iff.mp h).1
    exact ⟨b, hb.symm⟩

/-- What stands at the file that a handle has open. -/
theorem node_of_file {r : Run} (hk : Kept t r) {h : Nat} {f : File} (hf : r.file h = some f) :
    ∃ l, r.locs[h]? = some l ∧ r.tree.node l = some (.file f.data) := by
  unfold Run.file at hf
  obtain ⟨⟨l, pos⟩, hget, hfile⟩ := Option.map_eq_some_iff.mp hf
  refine ⟨l, by rw [Run.locs, List.getElem?_map, hget]; rfl, ?_⟩
  obtain ⟨data, hdata⟩ := hk.files l (mem_locs hget)
  rw [hdata, ← hfile]
  simp [dataAt, hdata]

/-- The splay of the source, at `d`: every file holds what the layout says. -/
def Intact (src : Source) (d : Loc) (t : Tree) : Prop :=
  t.node (d ++ [".d".toList]) = some (.file (manifest src.names).data) ∧
    ∀ c name lt, src.names[c]? = some name → src.lts[c]? = some lt →
      t.node (d ++ [leaf name.toList]) = some (.file (columnFile lt (src.column c)).data)

/-- Every file that the names open stands in `s` itself, and no two of them are one. -/
def OwnFiles (t : Tree) (s : Loc) (files : List (List Char)) : Prop :=
  (∀ l ∈ opened t s files, ∃ x, l = s ++ [x]) ∧ (opened t s files).Nodup

/-- After all the calls the scratch directory holds the splay. -/
theorem intact_scratch (hown : OwnFiles t s src.files)
    (hok : (runOps s ⟨t, []⟩ src.ops).2 = true) :
    Intact src s (runOps s ⟨t, []⟩ src.ops).1.tree := by
  obtain ⟨hdirect, hnd⟩ := hown
  obtain ⟨hkept, hlocs, _⟩ := @runOps_kept t s _ (kept_start t) src.ops
  rw [names_ops] at hlocs
  have hlocs : (runOps s ⟨t, []⟩ src.ops).1.locs = opened t s src.files := hlocs
  rw [← hlocs] at hnd
  obtain ⟨hmanifest, hcolumns⟩ := runOps_files src hok hnd
  have hplace : ∀ h file f, src.files[h]? = some file →
      (runOps s ⟨t, []⟩ src.ops).1.file h = some f →
      (runOps s ⟨t, []⟩ src.ops).1.tree.node (s ++ [leaf file]) = some (.file f.data) :=
    fun h file f hfile hf => by
      obtain ⟨l, hget, hnode⟩ := node_of_file hkept hf
      rw [hlocs] at hget
      obtain ⟨file', hfile', hcreates⟩ := opened_get hget
      obtain rfl : file = file' := Option.some.inj (hfile.symm.trans hfile')
      obtain ⟨x, rfl⟩ := hdirect l (List.mem_of_getElem? hget)
      obtain ⟨b, hb⟩ := creates_leaf hcreates
      obtain ⟨_, hx⟩ := List.append_inj' hb rfl
      rw [← hx]
      exact hnode
  refine ⟨hplace 0 _ _ rfl hmanifest, fun c name lt hn hlt => ?_⟩
  refine hplace (c + 1) name.toList _ ?_ (hcolumns c name lt hn hlt)
  unfold Source.files
  rw [List.getElem?_cons_succ, List.getElem?_map, hn]
  rfl

/-- A swap that goes well leaves at the destination what stood in the scratch directory. -/
theorem swap_ok {D : Dst} (hs : (w.swap (D.scratch pid n) D.loc t).2 = true) (m : Loc) :
    (w.swap (D.scratch pid n) D.loc t).1.node (D.loc ++ m) = t.node (D.scratch pid n ++ m) := by
  unfold Fate.swap at hs ⊢
  dsimp only at hs ⊢
  split
  · rw [Tree.move_below]
    exact clear_outside (scratch_apart D pid n m).1
  · rename_i hfail
    rw [if_neg hfail] at hs
    cases hs

/-! ## The law -/

/-- What a stream into `D` may touch, and what it leaves when it comes to its end. -/
structure KeepsToItself (src : Source) (D : Dst) (s : Loc) (t : Tree) (o : Out) : Prop where
  direct : ∀ l ∈ o.opened, ∃ x, l = s ++ [x]
  apart : o.opened.Nodup
  frame : ∀ l, ¬s <+: l → ¬D.loc <+: l → o.tree.node l = t.node l
  intact : o.ok = true → Intact src D.loc o.tree

/-- The files that a call opens, where the scratch directory is `s`. -/
def touched (w : Fate) (src : Source) (s : Loc) (t : Tree) : List Loc :=
  opened (mkdirs t (above s)).1 s ((w.calls src.ops).filterMap Op.name)

theorem touched_first : touched w src s t <+: opened (mkdirs t (above s)).1 s src.files := by
  unfold touched
  rw [← names_ops]
  exact opened_prefix ((calls_first w src.ops).filterMap Op.name)

theorem worked_kept (hm : (w.makes (D.scratch pid n) t).2 = true) :
    Kept (mkdirs t (above (D.scratch pid n))).1 (worked w src D pid n t).1 ∧
      (worked w src D pid n t).1.locs = touched w src (D.scratch pid n) t := by
  obtain ⟨hmade, _⟩ := makes_ok hm
  unfold worked touched
  rw [hmade]
  exact work_kept w (kept_start _) rfl src.ops

theorem keeps_to_itself (hg : Grounded t D.parent)
    (hown : (mkdirs t (above (D.scratch pid n))).2 = true →
      OwnFiles (mkdirs t (above (D.scratch pid n))).1 (D.scratch pid n) src.files) :
    KeepsToItself src D (D.scratch pid n) t (streamTable w src D pid n t) := by
  by_cases hb : w.refused = true ∨ Barred src D t
  · rw [stream_barred hb]
    exact ⟨nofun, List.nodup_nil, fun _ _ _ => rfl, nofun⟩
  have hmakes : ∀ l, ¬D.scratch pid n <+: l →
      (w.makes (D.scratch pid n) t).1.node l = t.node l := fun l hl => makes_outside hg hl
  rcases hm : (w.makes (D.scratch pid n) t).2 with _ | _
  · rw [stream_unmade hb hm]
    exact ⟨nofun, List.nodup_nil, fun l hs _ => (drop_outside hs).trans (hmakes l hs), nofun⟩
  obtain ⟨hmade, hdone⟩ := makes_ok hm
  obtain ⟨hdirect, hnd⟩ := hown hdone
  obtain ⟨hkept, hlocs⟩ := @worked_kept w src D pid n t hm
  have hfirst := hlocs ▸ @touched_first w src t (D.scratch pid n)
  have hdirect' : ∀ l ∈ (worked w src D pid n t).1.locs, ∃ x, l = D.scratch pid n ++ [x] :=
    fun l hl => hdirect l (hfirst.subset hl)
  have hnd' : (worked w src D pid n t).1.locs.Nodup := hnd.sublist hfirst.sublist
  have hframe : ∀ l, ¬D.scratch pid n <+: l →
      (worked w src D pid n t).1.tree.node l = t.node l := fun l hl => by
    have hnot : l ∉ (worked w src D pid n t).1.locs := fun hmem => by
      obtain ⟨x, rfl⟩ := hdirect' l hmem
      exact hl (List.prefix_append _ _)
    rw [hkept.frame l hnot, ← hmade]
    exact hmakes l hl
  rcases hw : (worked w src D pid n t).2 with _ | _
  · rw [stream_failed hb hm hw]
    exact ⟨hdirect', hnd', fun l hs _ => (drop_outside hs).trans (hframe l hs), nofun⟩
  · rw [stream_worked hb hm hw]
    refine ⟨hdirect', hnd', fun l hs hd => (swap_outside hs hd).trans (hframe l hs), fun hok => ?_⟩
    have hrun := work_ok hw
    rw [hmade] at hrun
    rw [hrun] at hok hw ⊢
    obtain ⟨hmanifest, hcolumns⟩ := intact_scratch (hown hdone) hw
    exact ⟨(swap_ok hok _).trans hmanifest, fun c name lt hn hlt =>
      (swap_ok hok _).trans (hcolumns c name lt hn hlt)⟩

/-- Nothing goes wrong but the rename. -/
def Fate.good : Fate where
  refused := false
  made := none
  stop := none
  removed _ := false
  rename := false
  dropped := true
  gone _ := false

/-- Nothing goes wrong until `create_dir_all` stops after its first `k` directories. -/
def Fate.cut (k : Nat) : Fate := { Fate.good with made := some k }

/-- Plain names that are not `.d` and not twice the same open files of their own. -/
theorem own_of_plain {files : List (List Char)} (hp : ∀ file ∈ files, Plain file)
    (hnd : files.Nodup) : OwnFiles t s files := by
  have hfirst : opened t s files <+: files.map fun file => s ++ [file] := by
    clear hnd
    induction files with
    | nil => exact List.nil_prefix
    | cons file files ih =>
      have hrest := ih fun x hx => hp x (List.mem_cons_of_mem file hx)
      unfold opened
      rcases hc : creates t s file with _ | l
      · exact List.nil_prefix
      · have hl : l = s ++ [file] := by
          unfold creates at hc
          rw [resolve_plain (hp file List.mem_cons_self)] at hc
          exact (Option.some.inj (Option.filter_eq_some_iff.mp hc).1).symm
        rw [List.map_cons, ← hl]
        exact List.cons_prefix_cons.mpr ⟨rfl, hrest⟩
  refine ⟨fun l hl => ?_, ?_⟩
  · obtain ⟨file, _, rfl⟩ := List.mem_map.mp (hfirst.subset hl)
    exact ⟨file, rfl⟩
  · refine List.Nodup.sublist hfirst.sublist (hnd.map fun x y hxy => ?_)
    simpa using hxy

theorem own_of_keeps (hb : ¬Barred src D t) (hdone : (mkdirs t (above (D.scratch pid n))).2 = true)
    (h : KeepsToItself src D (D.scratch pid n) t (streamTable Fate.good src D pid n t)) :
    OwnFiles (mkdirs t (above (D.scratch pid n))).1 (D.scratch pid n) src.files := by
  have hb' : ¬(Fate.good.refused = true ∨ Barred src D t) := by simp [hb, Fate.good]
  obtain ⟨_, hlocs, _⟩ := @runOps_kept _ (D.scratch pid n) _
    (kept_start (mkdirs t (above (D.scratch pid n))).1) src.ops
  rw [names_ops] at hlocs
  have hopened : (streamTable Fate.good src D pid n t).opened =
      opened (mkdirs t (above (D.scratch pid n))).1 (D.scratch pid n) src.files := by
    rcases hw : (worked Fate.good src D pid n t).2 with _ | _
    · rw [stream_failed hb' hdone hw]
      exact hlocs
    · rw [stream_worked hb' hdone hw]
      exact hlocs
  exact ⟨hopened ▸ h.direct, hopened ▸ h.apart⟩

/-- A stream that is let to work keeps to its own splay, however it fails, exactly when the
directory of `dst` is there and the names open distinct files in the scratch directory. -/
theorem a_stream_keeps_to_its_splay_iff_its_names_do :
    (∀ w, KeepsToItself src D (D.scratch pid n) t (streamTable w src D pid n t)) ↔
      Barred src D t ∨ (Grounded t D.parent ∧ ((mkdirs t (above (D.scratch pid n))).2 = true →
        OwnFiles (mkdirs t (above (D.scratch pid n))).1 (D.scratch pid n) src.files)) := by
  refine ⟨fun h => ?_, fun h w => ?_⟩
  · by_cases hb : Barred src D t
    · exact .inl hb
    refine .inr ⟨fun p hp hnone => ?_, fun hdone => own_of_keeps hb hdone (h _)⟩
    -- A directory that is missing is made, when `create_dir_all` fails right after it.
    by_contra hfile
    have hlen := hp.length_le
    have hscratch : p <+: D.scratch pid n := hp.trans (List.prefix_append _ _)
    have houtside : ∀ a, ¬D.parent ++ [a] <+: p := fun a hpre => by
      have := hpre.length_le
      simp at this
      omega
    have hb' : ¬((Fate.cut (p.length + 1)).refused = true ∨ Barred src D t) := by
      simp [hb, Fate.good, Fate.cut]
    have hframe := (h (Fate.cut (p.length + 1))).frame p (houtside _) (houtside _)
    rw [stream_unmade hb' rfl] at hframe
    have hdone : (mkdirs t (above p)).2 = true := mkdirs_ok_iff.mpr fun q hq data hdata =>
      hfile ⟨q, data, mem_above.mp hq, hdata⟩
    have hdir := mkdirs_dir hdone (mem_above.mpr (List.prefix_refl p))
    have hmade : ((Fate.cut (p.length + 1)).makes (D.scratch pid n) t).1.node p = some .dir := by
      unfold Fate.makes Fate.cut
      simp only [above_take _ hscratch]
      exact hdir
    have hkept := (@drop_outside (Fate.cut (p.length + 1)) _ (D.scratch pid n) p
      (houtside _)).symm.trans hframe
    rw [hmade, hnone] at hkept
    cases hkept
  · rcases h with hb | ⟨hg, hown⟩
    · rw [stream_barred (.inr hb)]
      exact ⟨nofun, List.nodup_nil, fun _ _ _ => rfl, nofun⟩
    · exact keeps_to_itself hg hown

/-- One column of ints without rows, with a name that leads out of the scratch directory. -/
def strayed : Source where
  names := ["../x"]
  lts := [.KI]
  rg_rows := []
  groups := []
  lts_len := rfl
  cols_len := nofun

def splayDst : Dst where
  parent := []
  last := "t".toList
  plain := by decide

/-- A directory that holds a file `x`. -/
def beside : Tree where
  node l := if l = [] then some .dir else if l = ["x".toList] then some (.file [1, 2]) else none
  locs := [[], ["x".toList]]
  covers l hl := by
    split at hl
    · rename_i h
      exact h ▸ List.mem_cons_self
    · split at hl
      · rename_i h
        exact h ▸ List.mem_cons_of_mem _ List.mem_cons_self
      · exact absurd rfl hl

/-- The stream empties the file beside its destination. -/
theorem a_name_leads_out_of_the_scratch_directory :
    ["x".toList] ∈ (streamTable Fate.good strayed splayDst 7 0 beside).opened ∧
      ¬KeepsToItself strayed splayDst (splayDst.scratch 7 0) beside
        (streamTable Fate.good strayed splayDst 7 0 beside) := by
  have hmem : ["x".toList] ∈ (streamTable Fate.good strayed splayDst 7 0 beside).opened := by
    decide +kernel
  refine ⟨hmem, fun h => ?_⟩
  obtain ⟨x, hx⟩ := h.direct _ hmem
  have hlen := congrArg List.length hx
  simp [Dst.scratch, splayDst] at hlen

end parquet_interop.stream
