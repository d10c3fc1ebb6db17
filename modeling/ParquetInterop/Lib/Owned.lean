-- Blocks that own what their slots point to: what making, storing and releasing
-- blocks does to them, and what a caller that made some still has to release.
import Mathlib.Data.List.Perm.Basic
import Mathlib.Data.List.Nodup

namespace lib.owned

/-! ## Blocks -/

abbrev Ref : Type := Nat

/-- A block says something, and its slots own other blocks. A slot in which nothing was stored yet
holds no address that can be followed. -/
structure Block (L : Type) where
  label : L
  slots : List (Option Ref)

/-- The blocks that live. None lives from `next` on. -/
structure Live (L : Type) where
  blk : Ref → Option (Block L)
  next : Nat
  fresh : ∀ a : Nat, next ≤ a → blk a = none

/-- A computation on the blocks. It has no result when it touches a block that does not live, or
follows a slot in which nothing was stored. -/
abbrev Alloc (L α : Type) : Type := StateT (Live L) Option α

variable {L α β : Type}

def update (blk : Ref → Option (Block L)) (a : Ref) (b : Option (Block L)) : Ref → Option (Block L) :=
  fun x => if x = a then b else blk x

theorem update_self (blk : Ref → Option (Block L)) (a : Ref) (b : Option (Block L)) :
    update blk a b a = b := if_pos rfl

theorem update_ne {blk : Ref → Option (Block L)} {a x : Ref} (b : Option (Block L)) (h : x ≠ a) :
    update blk a b x = blk x := if_neg h

/-- A new block. -/
def alloc (label : L) (slots : List (Option Ref)) : Alloc L Ref := fun h =>
  some (h.next,
    { blk := update h.blk h.next (some ⟨label, slots⟩), next := h.next + 1
      fresh := fun a ha => by
        rw [update_ne _ (Nat.ne_of_gt ha)]
        exact h.fresh a (Nat.le_of_succ_le ha) })

/-- Put an address in a slot of a block, over what was there. -/
def store (a : Ref) (i : Nat) (x : Ref) : Alloc L Unit := fun h =>
  match hb : h.blk a with
  | none => none
  | some b =>
    if i < b.slots.length then
      some ((),
        { blk := update h.blk a (some { b with slots := b.slots.set i (some x) }), next := h.next
          fresh := fun y hy => by
            rw [update_ne _ fun he => by rw [← he, h.fresh y hy] at hb; cases hb]
            exact h.fresh y hy })
    else none

/-- Release blocks, and what their slots own. Each turn ends a life. -/
def free : Nat → (Ref → Option (Block L)) → List Ref → Option (Ref → Option (Block L))
  | _, blk, [] => some blk
  | 0, _, _ :: _ => none
  | n + 1, blk, a :: rest =>
    match blk a with
    | none => none
    | some b =>
      match b.slots.mapM id with
      | none => none
      | some kids => free n (update blk a none) (kids ++ rest)

theorem free_none {n : Nat} {blk blk' : Ref → Option (Block L)} {as : List Ref}
    (h : free n blk as = some blk') : ∀ a, blk a = none → blk' a = none := by
  induction n generalizing blk as with
  | zero =>
    cases as with
    | nil =>
      cases h
      exact fun _ ha => ha
    | cons a rest => cases h
  | succ n ih =>
    cases as with
    | nil =>
      cases h
      exact fun _ ha => ha
    | cons a rest =>
      unfold free at h
      split at h
      · cases h
      · split at h
        · cases h
        · intro x hx
          apply ih h
          by_cases hxa : x = a
          · rw [hxa, update_self]
          · rw [update_ne _ hxa, hx]

/-- Release one block. No more blocks live than there are addresses below `next`. -/
def release (a : Ref) : Alloc L Unit := fun h =>
  match hf : free h.next h.blk [a] with
  | none => none
  | some blk => some ((), { blk, next := h.next, fresh := fun x hx => free_none hf x (h.fresh x hx) })

/-! ## Nests of blocks -/

inductive Nest (L : Type) where
  | node (label : L) (kids : List (Nest L))

/-- A block whose slots are all stored. -/
def full (label : L) (kids : List (Ref × Nest L)) : Block L := ⟨label, kids.map fun k => some k.1⟩

/-- Each root stands for its tree, and each block of `fp` is in one place of one of the trees. -/
inductive Forest (blk : Ref → Option (Block L)) : List (Ref × Nest L) → List Ref → Prop
  | nil : Forest blk [] []
  | cons {a : Ref} {label : L} {kids rest : List (Ref × Nest L)} {fk fr : List Ref} :
      blk a = some (full label kids) → Forest blk kids fk → Forest blk rest fr →
      (a :: (fk ++ fr)).Nodup →
      Forest blk ((a, .node label (kids.map (·.2))) :: rest) (a :: (fk ++ fr))

variable {blk blk' : Ref → Option (Block L)} {rs rs' : List (Ref × Nest L)} {fp gp : List Ref}

theorem Forest.nodup (h : Forest blk rs fp) : fp.Nodup := by
  cases h with
  | nil => exact List.nodup_nil
  | cons _ _ _ hnd => exact hnd

theorem Forest.lives (h : Forest blk rs fp) : ∀ a ∈ fp, ∃ b, blk a = some b := by
  induction h with
  | nil => simp
  | cons ha _ _ _ ihk ihr =>
    intro x hx
    rcases List.mem_cons.mp hx with rfl | hx
    · exact ⟨_, ha⟩
    · exact (List.mem_append.mp hx).elim (ihk x) (ihr x)

/-- A forest is not touched by what happens elsewhere. -/
theorem Forest.frame (h : Forest blk rs fp) (hsame : ∀ a ∈ fp, blk' a = blk a) : Forest blk' rs fp := by
  induction h with
  | nil => exact .nil
  | cons ha _ _ hnd ihk ihr =>
    refine .cons ((hsame _ (List.mem_cons_self ..)).trans ha) (ihk fun x hx => hsame x ?_)
      (ihr fun x hx => hsame x ?_) hnd
    · exact List.mem_cons_of_mem _ (List.mem_append_left _ hx)
    · exact List.mem_cons_of_mem _ (List.mem_append_right _ hx)

theorem Forest.append (h : Forest blk rs fp) (h' : Forest blk rs' gp) (hnd : (fp ++ gp).Nodup) :
    Forest blk (rs ++ rs') (fp ++ gp) := by
  induction h with
  | nil => exact h'
  | @cons a label kids rest fk fr ha hk hr _ _ ihr =>
    have hassoc : a :: (fk ++ fr) ++ gp = a :: (fk ++ (fr ++ gp)) := by
      rw [List.cons_append, List.append_assoc]
    rw [hassoc] at hnd ⊢
    exact .cons ha hk (ihr (List.nodup_append.mp (List.nodup_cons.mp hnd).2).2.1) hnd

/-- A forest is the forest of its first roots and the forest of the others. -/
theorem Forest.split (h : Forest blk (rs ++ rs') fp) :
    ∃ f g, Forest blk rs f ∧ Forest blk rs' g ∧ fp = f ++ g := by
  induction rs generalizing fp with
  | nil => exact ⟨[], fp, .nil, h, rfl⟩
  | cons r rs ih =>
    cases h with
    | @cons a label kids _ fk fr ha hk hr hnd =>
      obtain ⟨f, g, hf, hg, rfl⟩ := ih hr
      refine ⟨a :: (fk ++ f), g, .cons ha hk hf ?_, hg, by rw [List.cons_append, List.append_assoc]⟩
      refine hnd.sublist ?_
      rw [← List.append_assoc]
      exact (List.sublist_append_left (fk ++ f) g).cons_cons a

/-- The order of the roots is only that of the blocks. -/
theorem Forest.perm (h : Forest blk rs fp) (hp : rs.Perm rs') :
    ∃ gp, Forest blk rs' gp ∧ fp.Perm gp := by
  induction hp generalizing fp with
  | nil => exact ⟨fp, h, .refl _⟩
  | cons x _ ih =>
    cases h with
    | @cons a label kids _ fk fr ha hk hr hnd =>
      obtain ⟨gr, hgr, hpr⟩ := ih hr
      have hperm : (a :: (fk ++ fr)).Perm (a :: (fk ++ gr)) := (hpr.append_left fk).cons a
      exact ⟨_, .cons ha hk hgr (hperm.nodup hnd), hperm⟩
  | swap x y l =>
    cases h with
    | @cons a la ka _ fa fr ha hka hr hnd =>
      cases hr with
      | @cons b lb kb _ fb fl hb hkb hl hndb =>
        have hperm : (a :: (fa ++ b :: (fb ++ fl))).Perm (b :: (fb ++ a :: (fa ++ fl))) := by
          refine (List.perm_middle.cons a).trans ((List.Perm.swap b a _).trans (.cons b ?_))
          refine .trans ?_ List.perm_middle.symm
          refine .cons a ?_
          rw [← List.append_assoc, ← List.append_assoc]
          exact List.perm_append_comm.append_right fl
        have hnd' := hperm.nodup hnd
        refine ⟨_, .cons hb hkb (.cons ha hka hl ?_) hnd', hperm⟩
        exact (List.nodup_append.mp (List.nodup_cons.mp hnd').2).2.1
  | trans _ _ ih1 ih2 =>
    obtain ⟨g1, h1, p1⟩ := ih1 h
    obtain ⟨g2, h2, p2⟩ := ih2 h1
    exact ⟨g2, h2, p1.trans p2⟩

/-- The blocks without those of `fp`. -/
def without (blk : Ref → Option (Block L)) (fp : List Ref) : Ref → Option (Block L) :=
  fun x => if x ∈ fp then none else blk x

theorem mapM_full (label : L) (kids : List (Ref × Nest L)) :
    (full label kids).slots.mapM id = some (kids.map (·.1)) := by
  unfold full
  rw [List.mapM_map]
  exact List.mapM_pure

/-- Releasing the roots of a forest ends the life of its blocks, and of no other. -/
theorem free_forest (h : Forest blk rs fp) {n : Nat} (rest : List Ref) (hn : fp.length ≤ n)
    (hsame : ∀ a ∈ fp, blk' a = blk a) :
    free n blk' (rs.map (·.1) ++ rest) = free (n - fp.length) (without blk' fp) rest := by
  induction h generalizing n blk' rest with
  | nil =>
    congr 1
  | @cons a label kids others fk fr ha _ _ hnd ihk ihr =>
    rw [List.length_cons, List.length_append] at hn
    obtain ⟨n, rfl⟩ : ∃ k, n = k + 1 := ⟨n - 1, by omega⟩
    obtain ⟨hout, hnd'⟩ := List.nodup_cons.mp hnd
    obtain ⟨_, _, hdisj⟩ := List.nodup_append.mp hnd'
    have hk : ∀ x ∈ fk, update blk' a none x = blk x := by
      intro x hx
      have hxa : x ≠ a := fun he => hout (he ▸ List.mem_append_left _ hx)
      rw [update_ne _ hxa]
      exact hsame x (List.mem_cons_of_mem _ (List.mem_append_left _ hx))
    have hr : ∀ x ∈ fr, without (update blk' a none) fk x = blk x := by
      intro x hx
      have hxa : x ≠ a := fun he => hout (he ▸ List.mem_append_right _ hx)
      unfold without
      rw [if_neg fun hxk => hdisj x hxk x hx rfl, update_ne _ hxa]
      exact hsame x (List.mem_cons_of_mem _ (List.mem_append_right _ hx))
    have hwithout : without (without (update blk' a none) fk) fr = without blk' (a :: (fk ++ fr)) := by
      funext x
      simp only [without, update, List.mem_cons, List.mem_append]
      by_cases hxr : x ∈ fr <;> by_cases hxk : x ∈ fk <;> by_cases hxa : x = a <;> simp [hxr, hxk, hxa]
    rw [List.map_cons, List.cons_append, free, hsame a (List.mem_cons_self ..), ha]
    dsimp only
    rw [mapM_full]
    dsimp only
    rw [ihk _ (by omega) hk, ihr _ (by omega) hr, hwithout, List.length_cons, List.length_append]
    congr 1
    omega

/-! ## What a caller owns -/

/-- Since the blocks were those of `h0`, the caller made `fp` and the blocks `raws`. It knows what the
raw ones say, and it owns the trees at the roots. All else is as it was. -/
structure Owns (h0 h : Live L) (raws : List (Ref × Block L)) (roots : List (Ref × Nest L))
    (fp : List Ref) : Prop where
  forest : Forest h.blk roots fp
  raw : ∀ r ∈ raws, h.blk r.1 = some r.2
  nodup : (raws.map (·.1) ++ fp).Nodup
  same : ∀ a, a ∉ raws.map (·.1) ++ fp → h.blk a = h0.blk a
  made : ∀ a ∈ raws.map (·.1) ++ fp, h0.blk a = none
  grown : h0.next ≤ h.next

/-- The caller owns just these raw blocks and trees. -/
def Keeps (h0 h : Live L) (raws : List (Ref × Block L)) (roots : List (Ref × Nest L)) : Prop :=
  ∃ fp, Owns h0 h raws roots fp

variable {h0 h : Live L} {raws : List (Ref × Block L)} {roots : List (Ref × Nest L)}

theorem keeps_nothing (h : Live L) : Keeps h h [] [] :=
  ⟨[], .nil, by simp, List.nodup_nil, fun _ _ => rfl, by simp, Nat.le_refl _⟩

/-- Who owns nothing has left the blocks as they were. -/
theorem Keeps.restored (hk : Keeps h0 h [] []) : h.blk = h0.blk := by
  obtain ⟨fp, hown⟩ := hk
  have hfp : fp = [] := by
    cases hown.forest
    rfl
  subst hfp
  funext a
  exact hown.same a (by simp)

theorem Keeps.perm (hk : Keeps h0 h raws roots) {roots' : List (Ref × Nest L)}
    (hp : roots.Perm roots') : Keeps h0 h raws roots' := by
  obtain ⟨fp, hown⟩ := hk
  obtain ⟨gp, hgp, hperm⟩ := hown.forest.perm hp
  have hall := hperm.append_left (raws.map (·.1))
  exact ⟨gp, hgp, hown.raw, hall.nodup hown.nodup, fun a ha => hown.same a fun hm => ha (hall.subset hm),
    fun a ha => hown.made a (hall.symm.subset ha), hown.grown⟩

/-- A raw block whose slots are all stored is the root of the trees in them. -/
theorem Keeps.close {a : Ref} {label : L} (kids : List (Ref × Nest L))
    (hk : Keeps h0 h ((a, full label kids) :: raws) (kids ++ roots)) :
    Keeps h0 h raws ((a, .node label (kids.map (·.2))) :: roots) := by
  obtain ⟨fp, hown⟩ := hk
  obtain ⟨fk, fr, hfk, hfr, rfl⟩ := hown.forest.split
  have hperm : (((a, full label kids) :: raws).map (·.1) ++ (fk ++ fr)).Perm
      (raws.map (·.1) ++ a :: (fk ++ fr)) := by
    rw [List.map_cons, List.cons_append]
    exact List.perm_middle.symm
  have hnd := hperm.nodup hown.nodup
  refine ⟨a :: (fk ++ fr), .cons (hown.raw _ (List.mem_cons_self ..)) hfk hfr
    (List.nodup_append.mp hnd).2.1, fun r hr => hown.raw r (List.mem_cons_of_mem _ hr), hnd,
    fun x hx => hown.same x fun hm => hx (hperm.subset hm),
    fun x hx => hown.made x (hperm.symm.subset hx), hown.grown⟩

/-! ## Computations that go through -/

/-- The computation has a result, and this holds of it. -/
def Goes (c : Alloc L α) (h : Live L) (P : α → Live L → Prop) : Prop := ∃ a h', c h = some (a, h') ∧ P a h'

theorem goes_pure {a : α} {P : α → Live L → Prop} (hP : P a h) : Goes (pure a) h P := ⟨a, h, rfl, hP⟩

theorem Goes.bind {c : Alloc L α} {f : α → Alloc L β} {P : α → Live L → Prop} {R : β → Live L → Prop}
    (hc : Goes c h P) (hf : ∀ a h', P a h' → Goes (f a) h' R) : Goes (c >>= f) h R := by
  obtain ⟨a, h1, hrun, hP⟩ := hc
  obtain ⟨b, h2, hrun', hR⟩ := hf a h1 hP
  refine ⟨b, h2, ?_, hR⟩
  show Option.bind (c h) _ = _
  rw [hrun]
  exact hrun'

/-- What is read off a value that is there. -/
theorem goes_lift {o : Option α} {a : α} {P : α → Live L → Prop} (ho : o = some a) (hP : P a h) :
    Goes (liftM o : Alloc L α) h P := by
  subst ho
  exact ⟨a, h, rfl, hP⟩

theorem Goes.imp {c : Alloc L α} {P R : α → Live L → Prop} (hc : Goes c h P)
    (hPR : ∀ a h', P a h' → R a h') : Goes c h R := by
  obtain ⟨a, h', hrun, hP⟩ := hc
  exact ⟨a, h', hrun, hPR a h' hP⟩

/-- A new block is a raw one of the caller. -/
theorem Keeps.alloc (hk : Keeps h0 h raws roots) (label : L) (slots : List (Option Ref)) :
    Goes (alloc label slots) h fun a h' => Keeps h0 h' ((a, ⟨label, slots⟩) :: raws) roots := by
  obtain ⟨fp, hown⟩ := hk
  refine ⟨h.next, _, rfl, fp, ?_⟩
  have hdead : h.blk h.next = none := h.fresh _ (Nat.le_refl _)
  have hout : h.next ∉ raws.map (·.1) ++ fp := by
    intro hm
    rcases List.mem_append.mp hm with hm | hm
    · obtain ⟨r, hr, hnext⟩ := List.mem_map.mp hm
      rw [← hnext, hown.raw r hr] at hdead
      cases hdead
    · obtain ⟨b, hb⟩ := hown.forest.lives _ hm
      rw [hdead] at hb
      cases hb
  have hne : ∀ x ∈ raws.map (·.1) ++ fp, x ≠ h.next := fun x hx he => hout (he ▸ hx)
  refine ⟨hown.forest.frame fun x hx => update_ne _ (hne x (List.mem_append_right _ hx)), ?raw,
    List.nodup_cons.mpr ⟨hout, hown.nodup⟩, ?same, ?made, Nat.le_succ_of_le hown.grown⟩
  case raw =>
    intro r hr
    rcases List.mem_cons.mp hr with rfl | hr
    · exact update_self _ _ _
    · exact (update_ne _ (hne _ (List.mem_append_left _ (List.mem_map_of_mem hr)))).trans (hown.raw r hr)
  case same =>
    intro x hx
    rw [List.map_cons, List.cons_append, List.mem_cons, not_or] at hx
    exact (update_ne _ hx.1).trans (hown.same x hx.2)
  case made =>
    intro x hx
    rcases List.mem_cons.mp hx with rfl | hx
    · exact h0.fresh _ hown.grown
    · exact hown.made x hx

/-- A store in a raw block. -/
theorem Keeps.store {a : Ref} {b : Block L} (hk : Keeps h0 h ((a, b) :: raws) roots) {i : Nat}
    (hi : i < b.slots.length) (x : Ref) :
    Goes (store a i x) h fun _ h' =>
      Keeps h0 h' ((a, ⟨b.label, b.slots.set i (some x)⟩) :: raws) roots := by
  obtain ⟨fp, hown⟩ := hk
  have ha := hown.raw _ (List.mem_cons_self ..)
  dsimp only at ha
  obtain ⟨hout, hnd⟩ := List.nodup_cons.mp hown.nodup
  have hne : ∀ y ∈ raws.map (·.1) ++ fp, y ≠ a := fun y hy he => hout (he ▸ hy)
  have hrun : ∃ h', lib.owned.store a i x h = some ((), h') ∧ h'.next = h.next ∧
      h'.blk = update h.blk a (some ⟨b.label, b.slots.set i (some x)⟩) := by
    unfold lib.owned.store
    split
    · rename_i hnone
      rw [ha] at hnone
      cases hnone
    · rename_i b' hb
      rw [ha] at hb
      cases hb
      rw [if_pos hi]
      exact ⟨_, rfl, rfl, rfl⟩
  obtain ⟨h', hrun, hnext, hblk⟩ := hrun
  refine ⟨(), h', hrun, fp, ?_⟩
  refine ⟨hown.forest.frame fun y hy => ?_, ?raw, hown.nodup, ?same, hown.made, hnext ▸ hown.grown⟩
  · rw [hblk, update_ne _ (hne y (List.mem_append_right _ hy))]
  case raw =>
    intro r hr
    rw [hblk]
    rcases List.mem_cons.mp hr with rfl | hr
    · exact update_self _ _ _
    · rw [update_ne _ (hne _ (List.mem_append_left _ (List.mem_map_of_mem hr)))]
      exact hown.raw r (List.mem_cons_of_mem _ hr)
  case same =>
    intro y hy
    have hya : y ≠ a := by
      rintro rfl
      exact hy (List.mem_cons_self ..)
    rw [hblk, update_ne _ hya]
    exact hown.same y hy

/-- To release a tree is to own it no more. -/
theorem Keeps.release {a : Ref} {t : Nest L} (hk : Keeps h0 h raws ((a, t) :: roots)) :
    Goes (release a) h fun _ h' => Keeps h0 h' raws roots := by
  obtain ⟨fp, hown⟩ := hk
  have hforest : Forest h.blk ([(a, t)] ++ roots) fp := hown.forest
  obtain ⟨fa, fr, hfa, hfr, rfl⟩ := hforest.split
  have hbound : fa.length ≤ h.next := by
    have hlt : ∀ x ∈ fa, x < h.next := by
      intro x hx
      obtain ⟨b, hb⟩ := hfa.lives x hx
      by_contra hge
      rw [h.fresh x (Nat.not_lt.mp hge)] at hb
      cases hb
    have hsub : fa ⊆ List.range h.next := fun x hx => List.mem_range.mpr (hlt x hx)
    simpa using (List.subperm_of_subset hfa.nodup hsub).length_le
  have hfree : free h.next h.blk [a] = some (without h.blk fa) := by
    have hrun : free h.next h.blk ([a] ++ []) = _ := free_forest hfa [] hbound fun _ _ => rfl
    refine hrun.trans ?_
    cases h.next - fa.length <;> rfl
  have hrun : ∃ h', lib.owned.release a h = some ((), h') ∧ h'.next = h.next ∧
      h'.blk = without h.blk fa := by
    unfold lib.owned.release
    split
    · rename_i hnone
      rw [hfree] at hnone
      cases hnone
    · rename_i blk hsome
      rw [hfree] at hsome
      exact ⟨_, rfl, rfl, (Option.some.inj hsome).symm⟩
  obtain ⟨h', hrun, hnext, hblk⟩ := hrun
  have hperm : (raws.map (·.1) ++ (fa ++ fr)).Perm (fa ++ (raws.map (·.1) ++ fr)) := by
    rw [← List.append_assoc, ← List.append_assoc]
    exact List.perm_append_comm.append_right fr
  obtain ⟨_, hnd, hdisj⟩ := List.nodup_append.mp (hperm.nodup hown.nodup)
  have hkept : ∀ x ∈ raws.map (·.1) ++ fr, h'.blk x = h.blk x := by
    intro x hx
    rw [hblk, without, if_neg fun hxa => hdisj x hxa x hx rfl]
  refine ⟨(), h', hrun, fr, hfr.frame fun x hx => hkept x (List.mem_append_right _ hx), ?raw, hnd, ?same,
    ?made, hnext ▸ hown.grown⟩
  case raw =>
    intro r hr
    rw [hkept _ (List.mem_append_left _ (List.mem_map_of_mem hr))]
    exact hown.raw r hr
  case same =>
    intro x hx
    rw [hblk, without]
    split
    · rename_i hxa
      exact (hown.made x (List.mem_append_right _ (List.mem_append_left _ hxa))).symm
    · rename_i hxa
      refine hown.same x fun hm => ?_
      exact (List.mem_append.mp (hperm.subset hm)).elim hxa hx
  case made =>
    intro x hx
    exact hown.made x (hperm.symm.subset (List.mem_append_right _ hx))

/-- A new block without slots is a tree of its own. -/
theorem Keeps.leaf (hk : Keeps h0 h raws roots) (label : L) :
    Goes (lib.owned.alloc label []) h fun a h' => Keeps h0 h' raws ((a, .node label []) :: roots) :=
  (hk.alloc label []).imp fun _ _ hk' => Keeps.close [] hk'

/-- A new block over trees of the caller. -/
theorem Keeps.node {kids : List (Ref × Nest L)} (hk : Keeps h0 h raws (kids ++ roots)) (label : L) :
    Goes (lib.owned.alloc label (kids.map fun k => some k.1)) h fun a h' =>
      Keeps h0 h' raws ((a, .node label (kids.map (·.2))) :: roots) :=
  (hk.alloc label _).imp fun _ _ hk' => hk'.close kids

end lib.owned
