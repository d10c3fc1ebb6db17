-- The swap of a stream: the old splay is removed and the new one renamed over
-- it. What is left after every way that the removal, the rename and the guard
-- can end.
import ParquetInterop.StreamFrame

open lib.bytes lib.trees lib.wrapping
open parquet_interop.ffi parquet_interop.footer parquet_interop.read

namespace parquet_interop.stream

variable {w : Fate} {src : Source} {D : Dst} {pid n : Nat} {t : Tree} {s d l m : Loc}

/-! ## What each step leaves -/

theorem closed_below (ht : t.Closed) (h : t.node l = none) (m : Loc) : t.node (l ++ m) = none := by
  induction m using List.reverseRecOn with
  | nil => rw [List.append_nil, h]
  | append_singleton m a ih =>
    by_contra hne
    rw [← List.append_assoc] at hne
    have hdir := ht (l ++ m) a hne
    rw [ih] at hdir
    cases hdir

/-- A guard that removes all leaves nothing, and one that fails leaves the directory itself. -/
theorem drop_gone (hbelow : t.node s = none → ∀ m, t.node (s ++ m) = none) :
    (∀ m, (w.drop s t).node (s ++ m) = none) ↔ w.dropped = true ∨ t.node s = none := by
  refine ⟨fun h => ?_, fun h m => ?_⟩
  · by_contra hnot
    rw [not_or] at hnot
    have hs := h []
    rw [List.append_nil] at hs
    have hkeep : (w.drop s t).node s = t.node s := by
      apply Tree.remove_of_not
      simp [hnot.1]
    exact hnot.2 (hkeep.symm.trans hs)
  · by_cases hdropped : w.dropped = true
    · apply Tree.remove_of
      simp [hdropped]
    · have hnone := hbelow (h.resolve_left hdropped) m
      unfold Fate.drop Tree.remove
      simp [hnone]

theorem clear_node (m : Loc) :
    (w.clear d t).node (d ++ m) = if w.removed (d ++ m) then none else t.node (d ++ m) := by
  unfold Fate.clear Tree.remove
  simp

/-- What was removed of the destination was not there. -/
theorem clear_same :
    (∀ m, (w.clear d t).node (d ++ m) = t.node (d ++ m)) ↔
      ∀ m, t.node (d ++ m) ≠ none → w.removed (d ++ m) = false := by
  refine forall_congr' fun m => ?_
  rw [clear_node]
  by_cases hr : w.removed (d ++ m) = true
  · simp [hr, eq_comm]
  · simp [hr]

/-- Every entry of the destination goes. -/
def Cleared (w : Fate) (d : Loc) (t : Tree) : Prop :=
  ∀ m, m ≠ [] → t.node (d ++ m) ≠ none → w.removed (d ++ m) = true

theorem bare_cleared : (w.clear d t).bare d = true ↔ Cleared w d t := by
  rw [Tree.bare_iff]
  refine ⟨fun h m hm hnode => ?_, fun h l hl hne => ?_⟩
  · have hnone := h (d ++ m) (List.prefix_append d m) (by simpa using hm)
    rw [clear_node] at hnone
    by_contra hr
    rw [if_neg hr] at hnone
    exact hnode hnone
  · obtain ⟨m, rfl⟩ := hl
    rw [clear_node]
    by_cases hnode : t.node (d ++ m) = none
    · rw [hnode, ite_self]
    · rw [if_pos (h m (by simpa using hne) hnode)]

theorem renames_iff (hs : t.node s = some .dir) (hsd : ¬d <+: s) :
    w.renames s d (w.clear d t) = true ↔ w.rename = true ∧
      (w.removed d = true ∨ t.node d = none ∨ t.node d = some .dir) ∧ Cleared w d t := by
  have hs' : (w.clear d t).node s = some .dir := (clear_outside hsd).trans hs
  have hd' : (w.clear d t).node d = none ∨ (w.clear d t).node d = some .dir ↔
      w.removed d = true ∨ t.node d = none ∨ t.node d = some .dir := by
    have hroot := @clear_node w t d []
    rw [List.append_nil] at hroot
    rw [hroot]
    by_cases hr : w.removed d = true <;> simp [hr]
  unfold Fate.renames
  simp only [Bool.and_eq_true, Bool.or_eq_true, beq_iff_eq, hs', hd', bare_cleared, and_true,
    and_assoc]

/-! ## When the swap is reached -/

/-- The calls come to the swap: the directories are made, nothing stops them, and every name
opens. -/
def Reached (w : Fate) (src : Source) (s : Loc) (t : Tree) : Prop :=
  w.made = none ∧ (mkdirs t (above s)).2 = true ∧ w.stop = none ∧
    (opened (mkdirs t (above s)).1 s src.files).length = src.files.length

theorem reached_iff : Reached w src (D.scratch pid n) t ↔
    (w.makes (D.scratch pid n) t).2 = true ∧ (worked w src D pid n t).2 = true := by
  obtain ⟨_, _, hall⟩ := @runOps_kept _ (D.scratch pid n) _
    (kept_start (mkdirs t (above (D.scratch pid n))).1) src.ops
  rw [names_ops] at hall
  refine ⟨fun ⟨hmade, hdone, hstop, hopened⟩ => ?_, fun ⟨hm, hw⟩ => ?_⟩
  · have hmakes : w.makes (D.scratch pid n) t = mkdirs t (above (D.scratch pid n)) := by
      unfold Fate.makes
      rw [hmade]
    refine ⟨hmakes ▸ hdone, ?_⟩
    unfold worked Fate.work
    rw [hstop, hmakes]
    exact hall.mpr hopened
  · obtain ⟨hmakes, hdone⟩ := makes_ok hm
    have hrun := work_ok hw
    rw [hrun, hmakes] at hw
    refine ⟨?_, hdone, ?_, hall.mp hw⟩
    · unfold Fate.makes at hm
      rcases hmade : w.made with _ | k
      · rfl
      · simp [hmade] at hm
    · by_contra hstop
      obtain ⟨⟨k, left⟩, hstop⟩ := Option.ne_none_iff_exists'.mp hstop
      have hcut : (worked w src D pid n t).2 = false := by
        unfold worked Fate.work
        rw [hstop]
      rw [hrun, hmakes, hw] at hcut
      cases hcut

theorem not_reached (h : (w.makes (D.scratch pid n) t).2 = false ∨ (worked w src D pid n t).2 = false) :
    ¬Reached w src (D.scratch pid n) t := by
  intro hreached
  obtain ⟨hm, hw⟩ := reached_iff.mp hreached
  rcases h with h | h
  · cases hm.symm.trans h
  · cases hw.symm.trans h

/-! ## The tree that the swap is made in -/

theorem makes_dst (m : Loc) :
    (w.makes (D.scratch pid n) t).1.node (D.loc ++ m) = t.node (D.loc ++ m) := by
  obtain ⟨k, hk⟩ := makes_list w (D.scratch pid n) t
  rw [hk]
  rcases mkdirs_node t ((above (D.scratch pid n)).take k) (D.loc ++ m) with h | ⟨hmem, _, _⟩
  · exact h
  · have hpre := mem_above.mp (List.mem_of_mem_take hmem)
    exact absurd ((List.prefix_append D.loc m).trans hpre)
      (List.append_nil (D.scratch pid n) ▸ (scratch_apart D pid n []).1)

/-- Below the scratch directory `create_dir_all` makes nothing. -/
theorem makes_below (hm : m ≠ []) :
    (w.makes s t).1.node (s ++ m) = t.node (s ++ m) := by
  obtain ⟨k, hk⟩ := makes_list w s t
  rw [hk]
  rcases mkdirs_node t ((above s).take k) (s ++ m) with h | ⟨hmem, _, _⟩
  · exact h
  · have hlen := (mem_above.mp (List.mem_of_mem_take hmem)).length_le
    have hpos := List.length_pos_iff.mpr hm
    rw [List.length_append] at hlen
    omega

theorem makes_nothing (ht : t.Closed) (h : (w.makes s t).1.node s = none) (m : Loc) :
    (w.makes s t).1.node (s ++ m) = none := by
  by_cases hm : m = []
  · rw [hm, List.append_nil, h]
  · rw [makes_below hm]
    apply closed_below ht
    obtain ⟨k, hk⟩ := makes_list w s t
    rw [hk] at h
    rcases mkdirs_node t ((above s).take k) s with heq | ⟨_, hnone, _⟩
    · rw [← heq, h]
    · exact hnone

/-- The work leaves the scratch directory standing, and of the destination what it does not
open. -/
theorem worked_tree (hm : (w.makes (D.scratch pid n) t).2 = true) :
    (worked w src D pid n t).1.tree.node (D.scratch pid n) = some .dir ∧
      ∀ m, D.loc ++ m ∉ touched w src (D.scratch pid n) t →
        (worked w src D pid n t).1.tree.node (D.loc ++ m) = t.node (D.loc ++ m) := by
  obtain ⟨hmakes, hdone⟩ := makes_ok hm
  obtain ⟨hkept, hlocs⟩ := @worked_kept w src D pid n t hm
  refine ⟨?_, fun m hnot => ?_⟩
  · rw [hkept.dirs]
    exact mkdirs_dir hdone (mem_above.mpr (List.prefix_refl _))
  · rw [hkept.frame _ (hlocs ▸ hnot), ← hmakes]
    exact makes_dst m

/-- Calls that come to their end open all the names. -/
theorem touched_all (hw : (worked w src D pid n t).2 = true) :
    touched w src s t = opened (mkdirs t (above s)).1 s src.files := by
  have hstop : w.stop = none := by
    by_contra hstop
    obtain ⟨⟨k, left⟩, hstop⟩ := Option.ne_none_iff_exists'.mp hstop
    have hcut : (worked w src D pid n t).2 = false := by
      unfold worked Fate.work
      rw [hstop]
    rw [hcut] at hw
    cases hw
  unfold touched Fate.calls
  rw [hstop, names_ops]

/-- What stands in the destination when the swap comes: what stood there, and what was opened. -/
theorem worked_stands (hm : (w.makes (D.scratch pid n) t).2 = true) (m : Loc) :
    (worked w src D pid n t).1.tree.node (D.loc ++ m) ≠ none ↔
      t.node (D.loc ++ m) ≠ none ∨ D.loc ++ m ∈ touched w src (D.scratch pid n) t := by
  by_cases hmem : D.loc ++ m ∈ touched w src (D.scratch pid n) t
  · obtain ⟨hkept, hlocs⟩ := @worked_kept w src D pid n t hm
    obtain ⟨data, hdata⟩ := hkept.files _ (hlocs ▸ hmem)
    simp [hdata, hmem]
  · rw [(worked_tree hm).2 m hmem]
    simp [hmem]

/-! ## The law -/

/-- A stream that went well left its splay and nothing else at `dst`. One that failed left `dst` as
it was in `t`, and nothing of its scratch directory. -/
def AllOrNothing (src : Source) (D : Dst) (s : Loc) (t : Tree) (o : Out) : Prop :=
  if o.ok = true then
    o.tree.node D.loc = some .dir ∧ Intact src D.loc o.tree ∧
      ∀ m, m ≠ [] → (∀ file ∈ src.files, m ≠ [leaf file]) → o.tree.node (D.loc ++ m) = none
  else
    (∀ m, o.tree.node (D.loc ++ m) = t.node (D.loc ++ m)) ∧
      (o.named = true → ∀ m, o.tree.node (s ++ m) = none)

/-- What a stream opened: a file of its own in the scratch directory for each name, where it went
well, and no file of `dst`, where it failed. -/
def Apart (D : Dst) (s : Loc) (o : Out) : Prop :=
  if o.ok = true then (∀ l ∈ o.opened, ∃ x, l = s ++ [x]) ∧ o.opened.Nodup
  else ∀ l ∈ o.opened, ¬D.loc <+: l

/-- The world lets the swap come to its end: the rename, over a destination that is emptied, of the
files too that the names open there. -/
def Swapped (w : Fate) (src : Source) (D : Dst) (s : Loc) (t : Tree) : Prop :=
  Reached w src s t ∧ w.rename = true ∧ Cleared w D.loc t ∧
    ∀ m, D.loc ++ m ∈ opened (mkdirs t (above s)).1 s src.files → w.removed (D.loc ++ m) = true

/-- A swap puts a scratch directory in place that holds a file of its own for each name, and held no
other files before. A call that fails has opened no file of the destination. If it came to the swap,
nothing was removed, and the guard removes what `create_dir_all` made. -/
def Spared (w : Fate) (src : Source) (D : Dst) (s : Loc) (t : Tree) : Prop :=
  (w.refused = true ∨ Barred src D t) ∨
    (Swapped w src D s t ∧ OwnFiles (mkdirs t (above s)).1 s src.files ∧
      ∀ m, m ≠ [] → t.node (s ++ m) ≠ none → ∃ file ∈ src.files, m = [leaf file]) ∨
    (¬Swapped w src D s t ∧
      ((w.makes s t).2 = true → ∀ l ∈ touched w src s t, ¬D.loc <+: l) ∧
      (Reached w src s t → ∀ m, t.node (D.loc ++ m) ≠ none → w.removed (D.loc ++ m) = false) ∧
      (w.dropped = true ∨ (w.makes s t).1.node s = none))

theorem swap_fails (h : (w.swap s d t).2 = false) :
    (w.swap s d t).1 = w.drop s (w.clear d t) := by
  unfold Fate.swap at h ⊢
  dsimp only at h ⊢
  split at h
  · cases h
  · rename_i hfail
    rw [if_neg hfail]

theorem swap_renames : (w.swap s d t).2 = w.renames s d (w.clear d t) := by
  unfold Fate.swap
  dsimp only
  split
  · rename_i h
    exact h.symm
  · rename_i h
    exact (Bool.eq_false_iff.mpr h).symm

/-- What the swap puts in place is the splay and what else stood in the scratch directory. -/
theorem swapped_splay (hm : (w.makes (D.scratch pid n) t).2 = true)
    (hw : (worked w src D pid n t).2 = true)
    (hok : (w.swap (D.scratch pid n) D.loc (worked w src D pid n t).1.tree).2 = true)
    (hown : OwnFiles (mkdirs t (above (D.scratch pid n))).1 (D.scratch pid n) src.files) :
    ((w.swap (D.scratch pid n) D.loc (worked w src D pid n t).1.tree).1.node D.loc = some .dir ∧
      Intact src D.loc (w.swap (D.scratch pid n) D.loc (worked w src D pid n t).1.tree).1 ∧
      ∀ m, m ≠ [] → (∀ file ∈ src.files, m ≠ [leaf file]) →
        (w.swap (D.scratch pid n) D.loc (worked w src D pid n t).1.tree).1.node (D.loc ++ m) = none) ↔
      ∀ m, m ≠ [] → t.node (D.scratch pid n ++ m) ≠ none → ∃ file ∈ src.files, m = [leaf file] := by
  obtain ⟨hmade, hdone⟩ := makes_ok hm
  obtain ⟨hstands, _⟩ := @worked_tree w src D pid n t hm
  obtain ⟨hkept, hlocs⟩ := @worked_kept w src D pid n t hm
  have hfirst := hlocs ▸ @touched_first w src t (D.scratch pid n)
  have hroot := swap_ok hok []
  rw [List.append_nil, List.append_nil] at hroot
  have hrun := work_ok hw
  rw [hmade] at hrun
  obtain ⟨hmanifest, hcolumns⟩ := intact_scratch hown (hrun ▸ hw)
  have hintact : Intact src D.loc
      (w.swap (D.scratch pid n) D.loc (worked w src D pid n t).1.tree).1 :=
    ⟨(swap_ok hok _).trans (hrun ▸ hmanifest), fun c name lt hn hlt =>
      (swap_ok hok _).trans (hrun ▸ hcolumns c name lt hn hlt)⟩
  -- An entry that is no file of the splay stood there before.
  have hother : ∀ m, m ≠ [] → (∀ file ∈ src.files, m ≠ [leaf file]) →
      (w.swap (D.scratch pid n) D.loc (worked w src D pid n t).1.tree).1.node (D.loc ++ m) =
        t.node (D.scratch pid n ++ m) := fun m hne hfiles => by
    have hnot : D.scratch pid n ++ m ∉ (worked w src D pid n t).1.locs := fun hmem => by
      obtain ⟨x, hx⟩ := hown.1 _ (hfirst.subset hmem)
      obtain ⟨i, hi⟩ := List.mem_iff_getElem?.mp (hfirst.subset hmem)
      obtain ⟨file, hfile, hcreates⟩ := opened_get hi
      obtain ⟨b, hb⟩ := creates_leaf hcreates
      have hleaf := (List.append_inj' (hx.symm.trans hb) rfl).2
      rw [hleaf] at hx
      exact hfiles file (List.mem_of_getElem? hfile) (List.append_cancel_left hx)
    rw [swap_ok hok, hkept.frame _ hnot, ← hmade, makes_below hne]
  refine ⟨fun ⟨_, _, hrest⟩ m hne hnode => ?_, fun h => ⟨hroot.trans hstands, hintact, ?_⟩⟩
  · by_contra hfiles
    have hno : ∀ file ∈ src.files, m ≠ [leaf file] := fun file hf heq => hfiles ⟨file, hf, heq⟩
    exact hnode ((hother m hne hno).symm.trans (hrest m hne hno))
  · intro m hne hfiles
    rw [hother m hne hfiles]
    by_contra hnode
    obtain ⟨file, hf, heq⟩ := h m hne hnode
    exact hfiles file hf heq

/-- A swap that is reached comes to its end when the rename is let to, over an emptied
destination. -/
theorem swap_iff (hb : ¬Barred src D t) (hm : (w.makes (D.scratch pid n) t).2 = true)
    (hw : (worked w src D pid n t).2 = true) :
    (w.swap (D.scratch pid n) D.loc (worked w src D pid n t).1.tree).2 = true ↔
      Swapped w src D (D.scratch pid n) t := by
  obtain ⟨hstands, hsame⟩ := @worked_tree w src D pid n t hm
  have hreached : Reached w src (D.scratch pid n) t := reached_iff.mpr ⟨hm, hw⟩
  have hthere := @worked_stands w src D pid n t hm
  rw [touched_all hw] at hthere hsame
  have hapart := (scratch_apart D pid n []).1
  rw [List.append_nil] at hapart
  rw [swap_renames, renames_iff hstands hapart]
  unfold Swapped Cleared
  rw [and_iff_right hreached]
  refine and_congr_right fun _ => ⟨fun ⟨hroot, hbelow⟩ => ⟨?_, fun m hmem => ?_⟩, fun ⟨hold, hopen⟩ =>
    ⟨?_, fun m hm' hnode => ?_⟩⟩
  · exact fun m hm' hnode => hbelow m hm' ((hthere m).mpr (.inl hnode))
  · by_cases hm' : m = []
    · -- A file at the destination itself can only be removed.
      subst hm'
      obtain ⟨hkept, hlocs⟩ := @worked_kept w src D pid n t hm
      obtain ⟨data, hdata⟩ := hkept.files _ (hlocs ▸ touched_all hw ▸ hmem)
      rw [List.append_nil] at hdata ⊢
      simpa [hdata] using hroot
    · exact hbelow m hm' ((hthere m).mpr (.inr hmem))
  · by_cases hmem : D.loc ++ [] ∈ opened (mkdirs t (above (D.scratch pid n))).1 (D.scratch pid n) src.files
    · exact .inl (List.append_nil D.loc ▸ hopen [] hmem)
    · have hroot := hsame [] hmem
      rw [List.append_nil] at hroot
      rw [hroot]
      by_contra hfile
      rw [not_or, not_or] at hfile
      exact hb (.inr hfile.2)
  · exact ((hthere m).mp hnode).elim (hold m hm') (hopen m)

/-- A stream that is not refused goes well when the world lets its swap come to its end. -/
theorem stream_ok_iff (hb : ¬(w.refused = true ∨ Barred src D t)) :
    (streamTable w src D pid n t).ok = true ↔ Swapped w src D (D.scratch pid n) t := by
  rcases hm : (w.makes (D.scratch pid n) t).2 with _ | _
  · rw [stream_unmade hb hm]
    exact ⟨nofun, fun h => absurd h.1 (not_reached (.inl hm))⟩
  rcases hw : (worked w src D pid n t).2 with _ | _
  · rw [stream_failed hb hm hw]
    exact ⟨nofun, fun h => absurd h.1 (not_reached (.inr hw))⟩
  rw [stream_worked hb hm hw]
  exact swap_iff (fun h => hb (.inr h)) hm hw

theorem drop_dst (u : Tree) (m : Loc) :
    (w.drop (D.scratch pid n) u).node (D.loc ++ m) = u.node (D.loc ++ m) :=
  drop_outside (scratch_apart D pid n m).2

theorem makes_scratch (hm : (w.makes (D.scratch pid n) t).2 = true) :
    (w.makes (D.scratch pid n) t).1.node (D.scratch pid n) = some .dir := by
  obtain ⟨hmakes, hdone⟩ := makes_ok hm
  rw [hmakes]
  exact mkdirs_dir hdone (mem_above.mpr (List.prefix_refl _))

/-- Work that opens no file of the destination leaves it as it was. -/
theorem worked_dst (hm : (w.makes (D.scratch pid n) t).2 = true)
    (haside : ∀ l ∈ touched w src (D.scratch pid n) t, ¬D.loc <+: l) (m : Loc) :
    (worked w src D pid n t).1.tree.node (D.loc ++ m) = t.node (D.loc ++ m) :=
  (worked_tree hm).2 m fun hmem => haside _ hmem (List.prefix_append D.loc m)

theorem law_unmade (ht : t.Closed) (hb : ¬(w.refused = true ∨ Barred src D t))
    (hm : (w.makes (D.scratch pid n) t).2 = false) :
    AllOrNothing src D (D.scratch pid n) t (streamTable w src D pid n t) ∧
        Apart D (D.scratch pid n) (streamTable w src D pid n t) ↔
      w.dropped = true ∨ (w.makes (D.scratch pid n) t).1.node (D.scratch pid n) = none := by
  rw [stream_unmade hb hm]
  unfold AllOrNothing Apart
  simp only [true_implies, Bool.false_eq_true, if_false, drop_dst, List.not_mem_nil, false_implies,
    implies_true, and_true]
  rw [drop_gone (makes_nothing ht)]
  exact and_iff_right makes_dst

theorem law_failed (hb : ¬(w.refused = true ∨ Barred src D t))
    (hm : (w.makes (D.scratch pid n) t).2 = true) (hw : (worked w src D pid n t).2 = false) :
    AllOrNothing src D (D.scratch pid n) t (streamTable w src D pid n t) ∧
        Apart D (D.scratch pid n) (streamTable w src D pid n t) ↔
      (∀ l ∈ touched w src (D.scratch pid n) t, ¬D.loc <+: l) ∧
        (w.dropped = true ∨ (w.makes (D.scratch pid n) t).1.node (D.scratch pid n) = none) := by
  obtain ⟨hstands, _⟩ := @worked_tree w src D pid n t hm
  obtain ⟨_, hlocs⟩ := @worked_kept w src D pid n t hm
  rw [stream_failed hb hm hw]
  unfold AllOrNothing Apart
  simp only [true_implies, Bool.false_eq_true, if_false, drop_dst, hlocs]
  rw [drop_gone (fun h => absurd (hstands.symm.trans h) nofun), hstands, makes_scratch hm]
  exact ⟨fun ⟨⟨_, hguard⟩, haside⟩ => ⟨haside, hguard⟩,
    fun ⟨haside, hguard⟩ => ⟨⟨worked_dst hm haside, hguard⟩, haside⟩⟩

/-- A swap that fails has removed what it could, and it is spared when that was nothing. -/
theorem law_kept (hb : ¬(w.refused = true ∨ Barred src D t))
    (hm : (w.makes (D.scratch pid n) t).2 = true) (hw : (worked w src D pid n t).2 = true)
    (hs : (w.swap (D.scratch pid n) D.loc (worked w src D pid n t).1.tree).2 = false) :
    AllOrNothing src D (D.scratch pid n) t (streamTable w src D pid n t) ∧
        Apart D (D.scratch pid n) (streamTable w src D pid n t) ↔
      (∀ l ∈ touched w src (D.scratch pid n) t, ¬D.loc <+: l) ∧
        (∀ m, t.node (D.loc ++ m) ≠ none → w.removed (D.loc ++ m) = false) ∧
        (w.dropped = true ∨ (w.makes (D.scratch pid n) t).1.node (D.scratch pid n) = none) := by
  obtain ⟨hstands, _⟩ := @worked_tree w src D pid n t hm
  obtain ⟨_, hlocs⟩ := @worked_kept w src D pid n t hm
  have hcleared : (w.clear D.loc (worked w src D pid n t).1.tree).node (D.scratch pid n) =
      some .dir := by
    have hapart := (scratch_apart D pid n []).1
    rw [List.append_nil] at hapart
    exact (clear_outside hapart).trans hstands
  rw [stream_worked hb hm hw]
  unfold AllOrNothing Apart
  simp only [hs, true_implies, Bool.false_eq_true, if_false, swap_fails hs, drop_dst, hlocs]
  rw [and_comm]
  refine and_congr_right fun haside => ?_
  have hspared := @clear_same w (worked w src D pid n t).1.tree D.loc
  simp only [worked_dst hm haside] at hspared
  rw [hspared, drop_gone (fun h => absurd (hcleared.symm.trans h) nofun), hcleared, makes_scratch hm]

theorem law_swapped (hb : ¬(w.refused = true ∨ Barred src D t))
    (hm : (w.makes (D.scratch pid n) t).2 = true) (hw : (worked w src D pid n t).2 = true)
    (hs : (w.swap (D.scratch pid n) D.loc (worked w src D pid n t).1.tree).2 = true) :
    AllOrNothing src D (D.scratch pid n) t (streamTable w src D pid n t) ∧
        Apart D (D.scratch pid n) (streamTable w src D pid n t) ↔
      OwnFiles (mkdirs t (above (D.scratch pid n))).1 (D.scratch pid n) src.files ∧
        ∀ m, m ≠ [] → t.node (D.scratch pid n ++ m) ≠ none → ∃ file ∈ src.files, m = [leaf file] := by
  obtain ⟨_, hlocs⟩ := @worked_kept w src D pid n t hm
  rw [stream_worked hb hm hw]
  unfold AllOrNothing Apart
  simp only [hs, if_true, hlocs, touched_all hw]
  rw [and_comm]
  exact and_congr_right fun hown => swapped_splay hm hw hs hown

/-- A stream swaps its whole splay in or leaves `dst` as it was and nothing behind, exactly when no
rename fails after `remove_dir_all` took something, no guard fails, and the names open what they
should. -/
theorem a_stream_is_all_or_nothing_iff_the_swap_spares_the_old_splay (ht : t.Closed) :
    AllOrNothing src D (D.scratch pid n) t (streamTable w src D pid n t) ∧
        Apart D (D.scratch pid n) (streamTable w src D pid n t) ↔
      Spared w src D (D.scratch pid n) t := by
  unfold Spared
  by_cases hb : w.refused = true ∨ Barred src D t
  · rw [stream_barred hb]
    simp [AllOrNothing, Apart, hb]
  rcases hm : (w.makes (D.scratch pid n) t).2 with _ | _
  · rw [law_unmade ht hb hm]
    simp [hb, Swapped, not_reached (.inl hm)]
  rcases hw : (worked w src D pid n t).2 with _ | _
  · rw [law_failed hb hm hw]
    simp [hb, Swapped, not_reached (.inr hw)]
  have hreached : Reached w src (D.scratch pid n) t := reached_iff.mpr ⟨hm, hw⟩
  have hrename := swap_iff (fun h => hb (.inr h)) hm hw
  rcases hs : (w.swap (D.scratch pid n) D.loc (worked w src D pid n t).1.tree).2 with _ | _
  · have hnot : ¬Swapped w src D (D.scratch pid n) t := fun h => by
      rw [← hrename, hs] at h
      cases h
    rw [law_kept hb hm hw hs]
    simp [hb, hnot, hreached]
  · rw [law_swapped hb hm hw hs]
    simp [hb, hrename.mp hs]

/-- One column of ints without rows. -/
def plainInts : Source where
  names := ["x"]
  lts := [.KI]
  rg_rows := []
  groups := []
  lts_len := strayed.lts_len
  cols_len := nofun

/-- The tree of a splay with one column. -/
def oldSplay : Tree where
  node l :=
    if l = [] ∨ l = ["t".toList] then some .dir
    else if l = ["t".toList, "x".toList] then some (.file [1, 2])
    else none
  locs := [[], ["t".toList], ["t".toList, "x".toList]]
  covers l hl := by
    split at hl
    · rename_i h
      rcases h with rfl | rfl <;> decide
    · split at hl
      · rename_i h
        subst h
        decide
      · exact absurd rfl hl

/-- A stream whose third call fails leaves the old splay. -/
theorem a_stream_that_stops_keeps_the_old_splay :
    AllOrNothing plainInts splayDst (splayDst.scratch 7 0) oldSplay
      (streamTable { Fate.good with stop := some (2, []) } plainInts splayDst 7 0 oldSplay) := by
  refine ((a_stream_is_all_or_nothing_iff_the_swap_spares_the_old_splay fun l c h => ?_).mpr ?_).1
  · have hmem := oldSplay.covers _ h
    rcases List.mem_cons.mp hmem with hnil | hmem
    · simp at hnil
    rcases List.mem_cons.mp hmem with ht | hmem
    · have hsnoc : l ++ [c] = [] ++ ["t".toList] := ht
      obtain ⟨rfl, _⟩ := List.append_inj' hsnoc rfl
      decide
    · have hsnoc : l ++ [c] = ["t".toList] ++ ["x".toList] := List.mem_singleton.mp hmem
      obtain ⟨rfl, _⟩ := List.append_inj' hsnoc rfl
      decide
  · refine .inr (.inr ⟨fun h => ?_, fun _ l hl hdst => ?_, fun h => ?_, .inl rfl⟩)
    · cases h.1.2.2.1
    · have hown : OwnFiles (mkdirs oldSplay (above (splayDst.scratch 7 0))).1 (splayDst.scratch 7 0)
          plainInts.files := own_of_plain (by unfold Plain; decide) (by decide)
      obtain ⟨x, rfl⟩ := hown.1 l (touched_first.subset hl)
      exact (scratch_apart splayDst 7 0 [x]).1 hdst
    · cases h.2.2.1

/-- `remove_dir_all` takes the old splay, and the rename fails. -/
theorem a_failed_rename_loses_the_old_splay :
    ¬AllOrNothing plainInts splayDst (splayDst.scratch 7 0) oldSplay
      (streamTable { Fate.good with removed := fun _ => true } plainInts splayDst 7 0 oldSplay) := by
  have hok : (streamTable { Fate.good with removed := fun _ => true } plainInts splayDst 7 0
      oldSplay).ok = false := by
    decide +kernel
  have hlost : (streamTable { Fate.good with removed := fun _ => true } plainInts splayDst 7 0
      oldSplay).tree.node ["t".toList, "x".toList] = none := by
    decide +kernel
  intro h
  unfold AllOrNothing at h
  rw [if_neg (by simp [hok])] at h
  have hkept := h.1 ["x".toList]
  have hold : oldSplay.node (splayDst.loc ++ ["x".toList]) = some (.file [1, 2]) := by
    decide
  rw [hold] at hkept
  exact absurd (hlost.symm.trans hkept) nofun

end parquet_interop.stream
