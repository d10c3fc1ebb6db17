-- Directory trees: what stands at each location, the calls that make, fill,
-- remove and rename, and the walk that a kernel makes along a path.
import Mathlib.Data.List.Infix
import Mathlib.Logic.Function.Basic

namespace lib.trees

/-! ## Trees -/

abbrev Name := List Char

/-- The names from the root to an entry, the outermost first. -/
abbrev Loc := List Name

inductive Node where
  | dir
  | file (data : List UInt8)
  deriving DecidableEq

/-- What stands at each location. `locs` holds every location where something stands. -/
structure Tree where
  node : Loc → Option Node
  locs : List Loc
  covers : ∀ l, node l ≠ none → l ∈ locs

/-- Whatever stands somewhere stands in a directory. -/
def Tree.Closed (t : Tree) : Prop :=
  ∀ l c, t.node (l ++ [c]) ≠ none → t.node l = some .dir

def Tree.put (t : Tree) (l : Loc) (n : Node) : Tree where
  node := Function.update t.node l (some n)
  locs := l :: t.locs
  covers x hx := by
    by_cases h : x = l
    · exact h ▸ List.mem_cons_self
    · rw [Function.update_of_ne h] at hx
      exact List.mem_cons_of_mem l (t.covers x hx)

/-- Everything that `p` names is gone. -/
def Tree.remove (t : Tree) (p : Loc → Bool) : Tree where
  node l := if p l then none else t.node l
  locs := t.locs
  covers l hl := by
    split at hl
    · exact absurd rfl hl
    · exact t.covers l hl

/-- Nothing stands below `d`. -/
def Tree.bare (t : Tree) (d : Loc) : Bool :=
  t.locs.all fun l => !(d.isPrefixOf l && l != d) || (t.node l).isNone

/-- What stood at `a` and below stands at `b` and below. -/
def Tree.move (t : Tree) (a b : Loc) : Tree where
  node l :=
    if b <+: l then t.node (a ++ l.drop b.length) else if a <+: l then none else t.node l
  locs := t.locs ++ t.locs.map fun l => b ++ l.drop a.length
  covers l hl := by
    split at hl
    · rename_i hb
      have hmem := t.covers _ hl
      refine List.mem_append_right _ (List.mem_map.mpr ⟨_, hmem, ?_⟩)
      rw [List.drop_left]
      obtain ⟨m, rfl⟩ := hb
      rw [List.drop_left]
    · split at hl
      · exact absurd rfl hl
      · exact List.mem_append_left _ (t.covers l hl)

@[simp] theorem Tree.put_self (t : Tree) (l : Loc) (n : Node) : (t.put l n).node l = some n :=
  Function.update_self ..

theorem Tree.put_of_ne (t : Tree) {l x : Loc} (n : Node) (h : x ≠ l) :
    (t.put l n).node x = t.node x := Function.update_of_ne h ..

theorem Tree.remove_of {t : Tree} {p : Loc → Bool} {l : Loc} (h : p l = true) :
    (t.remove p).node l = none := if_pos h

theorem Tree.remove_of_not {t : Tree} {p : Loc → Bool} {l : Loc} (h : p l = false) :
    (t.remove p).node l = t.node l := if_neg (by simp [h])

theorem Tree.bare_iff {t : Tree} {d : Loc} :
    t.bare d = true ↔ ∀ l, d <+: l → l ≠ d → t.node l = none := by
  unfold Tree.bare
  simp only [List.all_eq_true, Bool.or_eq_true, Bool.not_eq_true', Bool.and_eq_false_iff,
    bne_eq_false_iff_eq, Option.isNone_iff_eq_none]
  refine ⟨fun h l hl hne => ?_, fun h l _ => ?_⟩
  · by_contra hnode
    rcases h l (t.covers l hnode) with (hp | heq) | hnone
    · rw [List.isPrefixOf_iff_prefix.mpr hl] at hp
      cases hp
    · exact hne heq
    · exact hnode hnone
  · by_cases hp : d <+: l
    · by_cases hne : l = d
      · exact .inl (.inr hne)
      · exact .inr (h l hp hne)
    · exact .inl (.inl (Bool.eq_false_iff.mpr fun h => hp (List.isPrefixOf_iff_prefix.mp h)))

theorem Tree.move_below (t : Tree) (a b m : Loc) :
    (t.move a b).node (b ++ m) = t.node (a ++ m) := by
  unfold Tree.move
  simp only
  rw [if_pos (List.prefix_append b m), List.drop_left]

theorem Tree.move_of_not {t : Tree} {a b l : Loc} (hb : ¬b <+: l) (ha : ¬a <+: l) :
    (t.move a b).node l = t.node l := by
  unfold Tree.move
  simp only
  rw [if_neg hb, if_neg ha]

/-! ## Paths -/

/-- The components of a path, with an empty one on each side of a slash that has no name there. -/
def comps : List Char → List Name
  | [] => [[]]
  | c :: cs =>
    if c = '/' then [] :: comps cs
    else
      match comps cs with
      | [] => [[c]]
      | x :: xs => (c :: x) :: xs

/-- One directory on the way. -/
def enter (t : Tree) (l : Loc) (c : Name) : Option Loc :=
  if c = [] ∨ c = ['.'] then some l
  else if c = ['.', '.'] then some l.dropLast
  else if t.node (l ++ [c]) = some .dir then some (l ++ [c])
  else none

def walk (t : Tree) (l : Loc) (cs : List Name) : Option Loc := cs.foldlM (enter t) l

/-- The last component of a path. -/
def leaf (path : List Char) : Name := (comps path).getLastD []

/-- Where a file of this path would be made, from the directory `base`. A path with a NUL is none,
and neither is one that ends in a slash, a dot or two. -/
def resolve (t : Tree) (base : Loc) (path : List Char) : Option Loc :=
  if '\x00' ∈ path ∨ leaf path ∈ [[], ['.'], ['.', '.']] then none
  else (walk t base (comps path).dropLast).map (· ++ [leaf path])

/-- The location that creating a file of this path makes or empties. A directory is refused. -/
def creates (t : Tree) (base : Loc) (path : List Char) : Option Loc :=
  (resolve t base path).filter fun l => t.node l ≠ some .dir

theorem comps_single {path : List Char} (h : '/' ∉ path) : comps path = [path] := by
  induction path with
  | nil => rfl
  | cons c cs ih =>
    have hc : c ≠ '/' := fun hc => h (hc ▸ List.mem_cons_self)
    rw [comps, if_neg hc, ih fun hcs => h (List.mem_cons_of_mem c hcs)]

/-- A path that is one plain name. -/
def Plain (path : List Char) : Prop :=
  '/' ∉ path ∧ '\x00' ∉ path ∧ path ∉ [[], ['.'], ['.', '.']]

theorem leaf_plain {path : List Char} (h : Plain path) : leaf path = path := by
  unfold leaf
  rw [comps_single h.1]
  rfl

theorem resolve_plain {t : Tree} {base : Loc} {path : List Char} (h : Plain path) :
    resolve t base path = some (base ++ [path]) := by
  unfold resolve
  rw [leaf_plain h, if_neg (not_or.mpr h.2), comps_single h.1]
  rfl

/-- Two trees with the same directories resolve paths alike. -/
theorem creates_congr {t u : Tree} (h : ∀ l, t.node l = some .dir ↔ u.node l = some .dir)
    (base : Loc) (path : List Char) : creates t base path = creates u base path := by
  have henter : enter t = enter u := by
    funext l c
    unfold enter
    simp only [h]
  unfold creates resolve walk
  simp only [henter, ne_eq, h]

/-- Every directory from the outermost on, until a file stands in the way. -/
def mkdirs (t : Tree) : List Loc → Tree × Bool
  | [] => (t, true)
  | l :: ls =>
    match t.node l with
    | none => mkdirs (t.put l .dir) ls
    | some .dir => mkdirs t ls
    | some (.file _) => (t, false)

/-- What was there stays, and only the listed locations become directories. -/
theorem mkdirs_node (t : Tree) (ls : List Loc) (l : Loc) :
    (mkdirs t ls).1.node l = t.node l ∨
      l ∈ ls ∧ t.node l = none ∧ (mkdirs t ls).1.node l = some .dir := by
  induction ls generalizing t with
  | nil => exact .inl rfl
  | cons x ls ih =>
    unfold mkdirs
    split
    · rename_i hx
      by_cases hl : l = x
      · subst hl
        rcases ih (t.put l .dir) with h | ⟨_, hnone, _⟩
        · exact .inr ⟨List.mem_cons_self, hx, by rw [h, Tree.put_self]⟩
        · rw [Tree.put_self] at hnone
          cases hnone
      · have hput := t.put_of_ne .dir hl
        rcases ih (t.put x .dir) with h | ⟨hmem, hnone, hdir⟩
        · exact .inl (h.trans hput)
        · exact .inr ⟨List.mem_cons_of_mem x hmem, hput ▸ hnone, hdir⟩
    · rcases ih t with h | ⟨hmem, hrest⟩
      · exact .inl h
      · exact .inr ⟨List.mem_cons_of_mem x hmem, hrest⟩
    · exact .inl rfl

/-- The making comes to its end exactly when no file stands in the way. -/
theorem mkdirs_ok_iff {t : Tree} {ls : List Loc} :
    (mkdirs t ls).2 = true ↔ ∀ l ∈ ls, ∀ data, t.node l ≠ some (.file data) := by
  induction ls generalizing t with
  | nil => simp [mkdirs]
  | cons x ls ih =>
    rw [List.forall_mem_cons]
    unfold mkdirs
    split
    · rename_i hx
      rw [ih]
      refine ⟨fun h => ⟨by simp [hx], fun l hl data => ?_⟩, fun h l hl data => ?_⟩
      · by_cases hlx : l = x
        · simp [hlx, hx]
        · rw [← t.put_of_ne .dir hlx]
          exact h l hl data
      · by_cases hlx : l = x
        · simp [hlx]
        · rw [t.put_of_ne .dir hlx]
          exact h.2 l hl data
    · rename_i hx
      rw [ih]
      simp [hx]
    · rename_i data hx
      simp [hx]

/-- When it comes to its end, every listed location is a directory. -/
theorem mkdirs_dir {t : Tree} {ls : List Loc} (h : (mkdirs t ls).2 = true) {l : Loc}
    (hl : l ∈ ls) : (mkdirs t ls).1.node l = some .dir := by
  induction ls generalizing t with
  | nil => cases hl
  | cons x ls ih =>
    unfold mkdirs at h ⊢
    rcases hx : t.node x with _ | (_ | data)
    · simp only [hx] at h
      rcases List.mem_cons.mp hl with rfl | hl
      · rcases mkdirs_node (t.put l .dir) ls l with hkeep | ⟨_, _, hdir⟩
        · exact hkeep.trans (Tree.put_self ..)
        · exact hdir
      · exact ih h hl
    · simp only [hx] at h
      rcases List.mem_cons.mp hl with rfl | hl
      · rcases mkdirs_node t ls l with hkeep | ⟨_, _, hdir⟩
        · exact hkeep.trans hx
        · exact hdir
      · exact ih h hl
    · simp only [hx] at h
      cases h

/-- Below a file nothing is made, when the outer locations come first. -/
theorem mkdirs_blocked {t : Tree} {ls : List Loc} (hord : ls.Pairwise fun x y => ¬y <+: x)
    {q l : Loc} {data : List UInt8} (hq : q ∈ ls) (hfile : t.node q = some (.file data))
    (hl : q <+: l) : (mkdirs t ls).1.node l = t.node l := by
  induction ls generalizing t with
  | nil => cases hq
  | cons x ls ih =>
    obtain ⟨hx, hord⟩ := List.pairwise_cons.mp hord
    unfold mkdirs
    split
    · rename_i hnone
      have hqx : q ≠ x := fun h => by
        rw [h, hnone] at hfile
        cases hfile
      have hmem := (List.mem_cons.mp hq).resolve_left hqx
      have hlx : l ≠ x := fun h => hx q hmem (h ▸ hl)
      rw [ih hord hmem (by rw [t.put_of_ne .dir hqx, hfile]), t.put_of_ne .dir hlx]
    · rename_i hdir
      have hqx : q ≠ x := fun h => by
        rw [h, hdir] at hfile
        cases hfile
      exact ih hord ((List.mem_cons.mp hq).resolve_left hqx) hfile
    · rfl

/-- The location itself and those above it, the outermost first. -/
def above (l : Loc) : List Loc := (List.range (l.length + 1)).map l.take

theorem mem_above {l p : Loc} : p ∈ above l ↔ p <+: l := by
  unfold above
  rw [List.mem_map]
  refine ⟨?_, fun h => ⟨p.length, ?_, ?_⟩⟩
  · rintro ⟨i, _, rfl⟩
    exact List.take_prefix i l
  · exact List.mem_range.mpr (Nat.lt_succ_of_le h.length_le)
  · exact (List.prefix_iff_eq_take.mp h).symm

theorem mem_above_take {l p : Loc} {k : Nat} :
    p ∈ (above l).take k ↔ p <+: l ∧ p.length < k := by
  unfold above
  rw [← List.map_take, List.take_range, List.mem_map]
  refine ⟨?_, fun ⟨h, hk⟩ => ⟨p.length, ?_, ?_⟩⟩
  · rintro ⟨i, hi, rfl⟩
    rw [List.mem_range] at hi
    exact ⟨List.take_prefix i l, by rw [List.length_take]; omega⟩
  · have := h.length_le
    exact List.mem_range.mpr (by omega)
  · exact (List.prefix_iff_eq_take.mp h).symm

theorem above_ordered (l : Loc) : (above l).Pairwise fun x y => ¬y <+: x := by
  unfold above
  rw [List.pairwise_map]
  refine List.pairwise_lt_range.imp_of_mem fun {i j} hi hj hij h => ?_
  have hlen := h.length_le
  rw [List.mem_range] at hi hj
  rw [List.length_take, List.length_take] at hlen
  omega

theorem above_take (l : Loc) {p : Loc} (h : p <+: l) :
    (above l).take (p.length + 1) = above p := by
  have hlen := h.length_le
  unfold above
  rw [← List.map_take, List.take_range, Nat.min_eq_left (by omega)]
  refine List.map_congr_left fun i hi => ?_
  rw [List.mem_range] at hi
  obtain ⟨m, rfl⟩ := h
  rw [List.take_append_of_le_length (by omega)]

end lib.trees
