-- Stores into named vectors: what a list of stores leaves in memory, what it
-- leaves alone, and why lists of stores with separate footprints do not meet.
import Mathlib.Data.List.Induction

namespace lib.stores

/-- A place in memory: a vector and an index in it. -/
structure Addr (C : Type) where
  vec : C
  idx : Nat
  deriving DecidableEq

/-- One store: a value that is known, or a value that is read, changed and put elsewhere. -/
inductive Op (C V : Type) where
  | put (dst : Addr C) (v : V)
  | move (dst src : Addr C) (f : V → V)

variable {C V : Type}

/-- What the memory holds. -/
abbrev Mem (C V : Type) : Type := Addr C → V

def Op.dst : Op C V → Addr C
  | .put dst _ | .move dst _ _ => dst

/-- The place that a store reads. -/
def Op.src : Op C V → Option (Addr C)
  | .put _ _ => none
  | .move _ src _ => some src

/-- A store that reads and writes inside a footprint only. -/
def Op.Within (F : Addr C → Prop) (o : Op C V) : Prop := F o.dst ∧ ∀ a, o.src = some a → F a

/-! ## Stores along a vector -/

/-- The values `vs` from index `off` on. -/
def fill (c : C) (off : Nat) (vs : List V) : List (Op C V) :=
  vs.zipIdx.map fun (v, i) => .put ⟨c, off + i⟩ v

/-- `f` on each of the `n` elements from `off` on, in place. -/
def each (c : C) (off n : Nat) (f : V → V) : List (Op C V) :=
  (List.range n).map fun i => .move ⟨c, off + i⟩ ⟨c, off + i⟩ f

/-- The value `v` at the indices `is`, counted from `off`. -/
def blank (c : C) (off : Nat) (v : V) (is : List Nat) : List (Op C V) :=
  is.map fun i => .put ⟨c, off + i⟩ v

theorem fill_dst {c : C} {off : Nat} {vs : List V} {o : Op C V} (h : o ∈ fill c off vs) :
    ∃ i < vs.length, o.dst = ⟨c, off + i⟩ ∧ o.src = none := by
  simp only [fill, List.mem_map, Prod.exists] at h
  obtain ⟨v, i, hvi, rfl⟩ := h
  have := List.mem_zipIdx hvi
  exact ⟨i, by omega, rfl, rfl⟩

theorem each_dst {c : C} {off n : Nat} {f : V → V} {o : Op C V} (h : o ∈ each c off n f) :
    ∃ i < n, o.dst = ⟨c, off + i⟩ ∧ o.src = some ⟨c, off + i⟩ := by
  simp only [each, List.mem_map, List.mem_range] at h
  obtain ⟨i, hi, rfl⟩ := h
  exact ⟨i, hi, rfl, rfl⟩

theorem blank_dst {c : C} {off : Nat} {v : V} {is : List Nat} {o : Op C V}
    (h : o ∈ blank c off v is) : ∃ i ∈ is, o.dst = ⟨c, off + i⟩ ∧ o.src = none := by
  simp only [blank, List.mem_map] at h
  obtain ⟨i, hi, rfl⟩ := h
  exact ⟨i, hi, rfl, rfl⟩

theorem fill_snoc (c : C) (off : Nat) (vs : List V) (v : V) :
    fill c off (vs ++ [v]) = fill c off vs ++ [.put ⟨c, off + vs.length⟩ v] := by
  simp [fill, List.zipIdx_append]

theorem addr_ne {c : C} {off i k : Nat} (h : i ≠ k) : (⟨c, off + i⟩ : Addr C) ≠ ⟨c, off + k⟩ := by
  intro he
  injection he with _ hidx
  omega

/-! ## Memory -/

variable [DecidableEq C]

def Op.exec (m : Mem C V) : Op C V → Mem C V
  | .put dst v => fun a => if a = dst then v else m a
  | .move dst src f => fun a => if a = dst then f (m src) else m a

/-- The stores one after the other. -/
def run (m : Mem C V) (os : List (Op C V)) : Mem C V := os.foldl Op.exec m

/-! ## Runs of stores -/

@[simp] theorem run_nil (m : Mem C V) : run m [] = m := rfl

@[simp] theorem run_cons (m : Mem C V) (o : Op C V) (os : List (Op C V)) :
    run m (o :: os) = run (o.exec m) os := rfl

theorem run_append (m : Mem C V) (os us : List (Op C V)) :
    run m (os ++ us) = run (run m os) us := List.foldl_append

theorem exec_frame {m : Mem C V} {o : Op C V} {a : Addr C} (h : o.dst ≠ a) : o.exec m a = m a := by
  cases o <;> exact if_neg (Ne.symm h)

/-- A place that is no store's destination keeps its value. -/
theorem run_frame {m : Mem C V} {os : List (Op C V)} {a : Addr C} (h : ∀ o ∈ os, o.dst ≠ a) :
    run m os a = m a := by
  induction os generalizing m with
  | nil => rfl
  | cons o os ih =>
    rw [run_cons, ih fun o ho => h o (List.mem_cons_of_mem _ ho)]
    exact exec_frame (h o List.mem_cons_self)

/-- Inside its footprint, the effect of a store depends on the footprint alone. -/
theorem exec_congr {F : Addr C → Prop} {m m' : Mem C V} {o : Op C V} (ho : o.Within F)
    (h : ∀ a, F a → m a = m' a) : ∀ a, F a → o.exec m a = o.exec m' a := by
  intro a ha
  cases o with
  | put dst v =>
    simp only [Op.exec, h a ha]
  | move dst src f =>
    simp only [Op.exec, h a ha, h src (ho.2 src rfl)]

theorem run_congr {F : Addr C → Prop} {m m' : Mem C V} {os : List (Op C V)}
    (ho : ∀ o ∈ os, o.Within F) (h : ∀ a, F a → m a = m' a) :
    ∀ a, F a → run m os a = run m' os a := by
  induction os generalizing m m' with
  | nil => exact h
  | cons o os ih =>
    exact ih (fun o ho' => ho o (List.mem_cons_of_mem _ ho'))
      (exec_congr (ho o List.mem_cons_self) h)

/-! ## Runs along a vector -/

theorem run_fill (m : Mem C V) (c : C) (off : Nat) (vs : List V) {i : Nat} {v : V}
    (h : vs[i]? = some v) : run m (fill c off vs) ⟨c, off + i⟩ = v := by
  induction vs using List.reverseRecOn with
  | nil => cases h
  | append_singleton vs w ih =>
    rw [fill_snoc, run_append, run_cons, run_nil]
    by_cases hi : i = vs.length
    · subst hi
      rw [List.getElem?_concat_length] at h
      simpa [Op.exec] using Option.some.inj h
    · have hlt : i < vs.length := by
        have := (List.getElem?_eq_some_iff.mp h).1
        rw [List.length_append, List.length_singleton] at this
        omega
      rw [List.getElem?_append_left hlt] at h
      rw [exec_frame (fun he => hi (by injection he with _ hidx; omega))]
      exact ih h

theorem run_each (m : Mem C V) (c : C) (off n : Nat) (f : V → V) {i : Nat} (hi : i < n) :
    run m (each c off n f) ⟨c, off + i⟩ = f (m ⟨c, off + i⟩) := by
  induction n with
  | zero => cases hi
  | succ n ih =>
    have hsplit : each c off (n + 1) f = each c off n f ++ [.move ⟨c, off + n⟩ ⟨c, off + n⟩ f] := by
      simp [each, List.range_succ]
    have hkeep : ∀ k, n ≤ k → run m (each c off n f) ⟨c, off + k⟩ = m ⟨c, off + k⟩ := by
      intro k hk
      apply run_frame
      intro o ho
      obtain ⟨j, hj, hdst, _⟩ := each_dst ho
      rw [hdst]
      exact addr_ne (by omega)
    rw [hsplit, run_append, run_cons, run_nil]
    by_cases hin : i = n
    · subst hin
      simp [Op.exec, hkeep]
    · rw [exec_frame (addr_ne (Ne.symm hin))]
      exact ih (by omega)

theorem run_blank (m : Mem C V) (c : C) (off : Nat) (v : V) (is : List Nat) (i : Nat) :
    run m (blank c off v is) ⟨c, off + i⟩ = if i ∈ is then v else m ⟨c, off + i⟩ := by
  induction is using List.reverseRecOn with
  | nil => simp [blank]
  | append_singleton is k ih =>
    have hsplit : blank c off v (is ++ [k]) = blank c off v is ++ [.put ⟨c, off + k⟩ v] := by
      simp [blank]
    rw [hsplit, run_append, run_cons, run_nil]
    by_cases hik : i = k
    · subst hik
      simp [Op.exec]
    · rw [exec_frame (addr_ne (Ne.symm hik)), ih]
      simp [hik]

end lib.stores
