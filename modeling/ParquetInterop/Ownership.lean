-- Who owns the vectors and lists that a read makes: they are made, moved into one
-- another and released in the order of the source, around the decodes. What the
-- host does with them is the contract that `klist` is written against: `ktn` gives
-- a new block to its caller, a list, a dictionary and a table own what is put into
-- them, and one `r0` ends a block and all that it owns. No block here is shared, so
-- no count but one comes up.
import ParquetInterop.Lib.Owned
import ParquetInterop.RoundTrip
import ParquetInterop.SharedCursor

open lib.owned
open parquet_interop.ffi parquet_interop.footer parquet_interop.par_map parquet_interop.read

namespace parquet_interop.ownership

/-! ## The host's blocks -/

/-- What a block of the host says. A vector that the decode fills is its vector `v`. -/
inductive Node where
  | syms (xs : List Sym)
  | chars (xs : List Char)
  | long (x : Int64)
  | longs (xs : List Int64)
  | flags (xs : List Bool)
  | bounds (lt : LType) (xs : List Cell)
  | vec (lt : LType) (n v : Nat)
  | list
  | dict
  | table

abbrev Host : Type := Live Node

/-- `ktn` of a list: the caller owns the list, and nothing is stored in its slots yet. -/
def ktnList (n : Nat) : Alloc Node Ref := alloc .list (List.replicate n none)

def ktnSyms (xs : List Sym) : Alloc Node Ref := alloc (.syms xs) []

def ktnVec (lt : LType) (n v : Nat) : Alloc Node Ref := alloc (.vec lt n v) []

def storeFrom (r : Ref) : Nat → List Ref → Alloc Node Unit
  | _, [] => pure ()
  | i, x :: xs => do
    store r i x
    storeFrom r (i + 1) xs

/-- `klist`: a list that takes what it is given, so that one `r0` of it frees the whole tree. -/
def klist (xs : List Ref) : Alloc Node Ref := do
  let r ← ktnList xs.length
  storeFrom r 0 xs
  pure r

/-- The host's `xD` takes its two sides. -/
def xD (keys vals : Ref) : Alloc Node Ref := alloc .dict [some keys, some vals]

/-- The host's `xT` takes its dictionary. -/
def xT (dict : Ref) : Alloc Node Ref := alloc .table [some dict]

/-! ## The read -/

/-- The names of the answer, the list of its columns, and the columns. -/
structure Handles where
  names : Ref
  cols : Ref
  colv : List Ref

/-- The L type that the vector of a result position is made with. -/
def columnLt (sel : Sel) (cds : Nat → Option Codes) (p : Nat) : LType :=
  match cds p with
  | some c => c.lt
  | none => sel.lt p

/-- Each column is put in the list as soon as it is made. -/
def fillCols (lt : Nat → LType) (total : Nat) (cols : Ref) : List Nat → Alloc Node (List Ref)
  | [] => pure []
  | p :: ps => do
    let col ← ktnVec (lt p) total p
    store cols p col
    let colv ← fillCols lt total cols ps
    pure (col :: colv)

def namesOf (set : FileSet) (sel : Sel) : List Sym :=
  (List.range sel.out.length).map fun p => intern (utf8Bytes (set.names.getD (sel.col p) ""))

def allocate (set : FileSet) (sel : Sel) (total : Nat) (cds : Nat → Option Codes) :
    Alloc Node Handles := do
  let names ← ktnSyms (namesOf set sel)
  let cols ← ktnList sel.out.length
  let colv ← fillCols (columnLt sel cds) total cols (List.range sel.out.length)
  pure ⟨names, cols, colv⟩

/-- What a failed decode leads to: `r0` of the names and of the list. -/
def Handles.release (hs : Handles) : Alloc Node Unit := do
  lib.owned.release hs.names
  lib.owned.release hs.cols

/-- A second read that fails. -/
def Handles.giveUp (hs : Handles) (total v : Nat) : Alloc Node Unit := do
  let ks ← ktnVec .KS total v
  lib.owned.release ks
  hs.release

/-- A second read that goes through: its vector takes the place of the codes. -/
def Handles.swap (hs : Handles) (total v p : Nat) : Alloc Node Handles := do
  let ks ← ktnVec .KS total v
  let col ← (liftM hs.colv[p]? : Alloc Node Ref)
  lib.owned.release col
  store hs.cols p ks
  pure { hs with colv := hs.colv.set p ks }

/-- A column that is a pair becomes a list of its dictionary and its codes. -/
def Handles.pair (hs : Handles) (p : Nat) : Option Codes → Alloc Node Unit
  | none => pure ()
  | some c => do
    let d ← ktnSyms c.d
    let col ← (liftM hs.colv[p]? : Alloc Node Ref)
    let pr ← klist [d, col]
    store hs.cols p pr

def Handles.pairUp (hs : Handles) (cds : Nat → Option Codes) : List Nat → Alloc Node Unit
  | [] => pure ()
  | p :: ps => do
    hs.pair p (cds p)
    hs.pairUp cds ps

def Handles.finish (hs : Handles) (codes : Bool) (n : Nat) (cds : Nat → Option Codes) :
    Alloc Node Ref := do
  if codes then
    hs.pairUp cds (List.range n)
    xD hs.names hs.cols
  else
    let d ← xD hs.names hs.cols
    xT d

/-- How a call comes to its end: it answers or fails, it fails after a panic of a worker, or the
calling thread itself panics and the call unwinds. -/
inductive Outcome (T : Type) where
  | back (r : Except String T)
  | panicked (e : String)
  | unwound

/-- `decode` with panics. One without them is as before, and one with them is a run of the threads
over their shared cursor. -/
inductive DecodeEnds (W : World) (set : FileSet) (sel : Sel) (parts : List Part) (cols : Nat → Nat)
    (tasks : List Task) (cds : Nat → Option Codes) (who : String) (k : Nat) (m m' : Shared) :
    Outcome Unit → Prop
  | calm {r} : Decodes W set sel parts cols tasks cds who k m m' r →
      DecodeEnds W set sel parts cols tasks cds who k m m' (.back r)
  | panicked {s e} : tasks ≠ [] → lib.runs.Reachable
        (lib.cursor.system (decodeWork W set sel parts cols tasks cds who) (k - 1) SymCache.new) s →
      lib.cursor.Over s → ¬Calm s → DecodeAnswers tasks who s (.back (.error e)) →
      DecodeEnds W set sel parts cols tasks cds who k m m' (.panicked e)
  | unwound {s} : lib.runs.Reachable
        (lib.cursor.system (decodeWork W set sel parts cols tasks cds who) (k - 1) SymCache.new) s →
      lib.cursor.Over s → DecodeAnswers tasks who s .unwound →
      DecodeEnds W set sel parts cols tasks cds who k m m' .unwound

section

variable (W : World) (nthreads k : Nat) (set : FileSet) (sel : Sel) (g0 g1 : Nat) (codes : Bool)
  (who : String)

/-- The second reads of the given up pairs, with what they do to the blocks. No result when a block
is used that does not live. -/
inductive HeapRereads (rgs : List Rg) (total : Nat) (gives : Nat → Bool) :
    List Nat → Cols → Handles → Host → Option (Outcome (Cols × Handles) × Host) → Prop
  | nil {c hs h} : HeapRereads rgs total gives [] c hs h (some (.back (.ok (c, hs)), h))
  | keep {p ps c hs h x} : ¬((c.cds p).isSome ∧ gives p) →
      HeapRereads rgs total gives ps c hs h x → HeapRereads rgs total gives (p :: ps) c hs h x
  | failed {p ps c hs h m e} : (c.cds p).isSome ∧ gives p →
      Decodes W set (oneSel sel p) (split set (oneSel sel p) 1) (fun _ => sel.out.length + p)
        (tasksOf rgs 1) (fun _ => none) who k ⟨c.mem, fun _ => false⟩ m (.error e) →
      HeapRereads rgs total gives (p :: ps) c hs h
        ((hs.giveUp total (sel.out.length + p) h).map fun (_, h') => (.back (.error e), h'))
  | panicked {p ps c hs h m e} : (c.cds p).isSome ∧ gives p →
      DecodeEnds W set (oneSel sel p) (split set (oneSel sel p) 1) (fun _ => sel.out.length + p)
        (tasksOf rgs 1) (fun _ => none) who k ⟨c.mem, fun _ => false⟩ m (.panicked e) →
      HeapRereads rgs total gives (p :: ps) c hs h
        ((hs.giveUp total (sel.out.length + p) h).map fun (_, h') => (.panicked e, h'))
  | unwound {p ps c hs h m} : (c.cds p).isSome ∧ gives p →
      DecodeEnds W set (oneSel sel p) (split set (oneSel sel p) 1) (fun _ => sel.out.length + p)
        (tasksOf rgs 1) (fun _ => none) who k ⟨c.mem, fun _ => false⟩ m .unwound →
      -- Nobody holds a guard over the vector of the second read, nor over the others.
      HeapRereads rgs total gives (p :: ps) c hs h
        ((ktnVec .KS total (sel.out.length + p) h).map fun (_, h') => (.unwound, h'))
  | again {p ps c hs h m hs' h' x} : (c.cds p).isSome ∧ gives p →
      Decodes W set (oneSel sel p) (split set (oneSel sel p) 1) (fun _ => sel.out.length + p)
        (tasksOf rgs 1) (fun _ => none) who k ⟨c.mem, fun _ => false⟩ m (.ok ()) →
      hs.swap total (sel.out.length + p) p h = some (hs', h') →
      HeapRereads rgs total gives ps
        ⟨m.mem, fun q => if q = p then none else c.cds q,
          fun q => if q = p then sel.out.length + p else c.colv q⟩ hs' h' x →
      HeapRereads rgs total gives (p :: ps) c hs h x
  | fault {p ps c hs h m} : (c.cds p).isSome ∧ gives p →
      Decodes W set (oneSel sel p) (split set (oneSel sel p) 1) (fun _ => sel.out.length + p)
        (tasksOf rgs 1) (fun _ => none) who k ⟨c.mem, fun _ => false⟩ m (.ok ()) →
      hs.swap total (sel.out.length + p) p h = none →
      HeapRereads rgs total gives (p :: ps) c hs h none

/-- What is done with the blocks when the columns are finished. -/
def ended (x : Option (Outcome (Cols × Handles) × Host)) : Option (Outcome Ref × Host) :=
  match x with
  | none => none
  | some (.back (.error e), h) => some (.back (.error e), h)
  | some (.panicked e, h) => some (.panicked e, h)
  | some (.unwound, h) => some (.unwound, h)
  | some (.back (.ok (c, hs)), h) =>
    (hs.finish codes sel.out.length c.cds h).map fun (r, h') => (.back (.ok r), h')

/-- `read` again, with what it does to the blocks: what it answers, and the blocks that it leaves. A
call of the crates may panic while the plan is made, and in any of the decodes. -/
inductive HeapReads (m : lib.stores.Mem Nat Cell) (h : Host) : Option (Outcome Ref × Host) → Prop
  | refused {e} : planOf W nthreads set sel g0 g1 codes who = .error e →
      HeapReads m h (some (.back (.error e), h))
  | early : HeapReads m h (some (.unwound, h))
  | fault {plan} : planOf W nthreads set sel g0 g1 codes who = .ok plan →
      allocate set sel plan.total (fun p => (plan.cds[p]?).join) h = none → HeapReads m h none
  | failed {plan hs h' m' e} : planOf W nthreads set sel g0 g1 codes who = .ok plan →
      allocate set sel plan.total (fun p => (plan.cds[p]?).join) h = some (hs, h') →
      Decodes W set sel plan.parts id (tasksOf plan.rgs plan.parts.length)
        (fun p => (plan.cds[p]?).join) who k ⟨m, fun _ => false⟩ m' (.error e) →
      HeapReads m h ((hs.release h').map fun (_, h'') => (.back (.error e), h''))
  | panicked {plan hs h' m' e} : planOf W nthreads set sel g0 g1 codes who = .ok plan →
      allocate set sel plan.total (fun p => (plan.cds[p]?).join) h = some (hs, h') →
      DecodeEnds W set sel plan.parts id (tasksOf plan.rgs plan.parts.length)
        (fun p => (plan.cds[p]?).join) who k ⟨m, fun _ => false⟩ m' (.panicked e) →
      HeapReads m h ((hs.release h').map fun (_, h'') => (.panicked e, h''))
  | unwound {plan hs h' m'} : planOf W nthreads set sel g0 g1 codes who = .ok plan →
      allocate set sel plan.total (fun p => (plan.cds[p]?).join) h = some (hs, h') →
      DecodeEnds W set sel plan.parts id (tasksOf plan.rgs plan.parts.length)
        (fun p => (plan.cds[p]?).join) who k ⟨m, fun _ => false⟩ m' .unwound →
      HeapReads m h (some (.unwound, h'))
  | answered {plan hs h' m' x} : planOf W nthreads set sel g0 g1 codes who = .ok plan →
      allocate set sel plan.total (fun p => (plan.cds[p]?).join) h = some (hs, h') →
      Decodes W set sel plan.parts id (tasksOf plan.rgs plan.parts.length)
        (fun p => (plan.cds[p]?).join) who k ⟨m, fun _ => false⟩ m' (.ok ()) →
      HeapRereads W k set sel who plan.rgs plan.total m'.gives (List.range sel.out.length)
        ⟨m'.mem, fun p => (plan.cds[p]?).join, id⟩ hs h' x →
      (∀ c hs' h'', x = some (.back (.ok (c, hs')), h'') → c.Short sel) →
      HeapReads m h (ended sel codes x)

end

/-! ## What an answer says -/

variable {h0 h : Host} {raws : List (Ref × Block Node)} {roots : List (Ref × Nest Node)}

theorem storeFrom_keeps {r : Ref} {label : Node} {xs : List Ref} {done : List (Option Ref)}
    (hk : Keeps h0 h ((r, ⟨label, done ++ List.replicate xs.length none⟩) :: raws) roots) :
    Goes (storeFrom r done.length xs) h fun _ h' =>
      Keeps h0 h' ((r, ⟨label, done ++ xs.map some⟩) :: raws) roots := by
  induction xs generalizing done h with
  | nil => exact goes_pure hk
  | cons x xs ih =>
    have hlt : done.length < (done ++ List.replicate (x :: xs).length none).length := by simp
    refine (hk.store hlt x).bind fun _ h' hk' => ?_
    have hset : (done ++ List.replicate (x :: xs).length none).set done.length (some x) =
        (done ++ [some x]) ++ List.replicate xs.length none := by
      simp [List.replicate_succ]
    rw [hset] at hk'
    have hgo := ih hk'
    rw [List.length_append, List.length_singleton, List.append_assoc] at hgo
    exact hgo

/-- A list takes the trees that it is given. -/
theorem klist_keeps {kids : List (Ref × Nest Node)} (hk : Keeps h0 h raws (kids ++ roots)) :
    Goes (klist (kids.map (·.1))) h fun a h' =>
      Keeps h0 h' raws ((a, .node .list (kids.map (·.2))) :: roots) := by
  unfold klist ktnList
  refine (hk.alloc .list _).bind fun r h' hk' => ?_
  have hempty : Keeps h0 h' ((r, ⟨.list, [] ++ List.replicate (kids.map (·.1)).length none⟩) :: raws)
    (kids ++ roots) := hk'
  refine (storeFrom_keeps hempty).bind fun _ h'' hk'' => goes_pure ?_
  rw [List.nil_append, List.map_map] at hk''
  exact Keeps.close kids hk''

/-! ## The columns of a read -/

/-- The vector of a column that is not paired up. -/
def leaf (sel : Sel) (total : Nat) (cds : Nat → Option Codes) (colv : Nat → Nat) (p : Nat) :
    Nest Node := .node (.vec (columnLt sel cds p) total (colv p)) []

/-- The read owns the names, and the columns in their list. -/
structure Held (h0 h : Host) (names : List Sym) (hs : Handles) (kids : List (Ref × Nest Node)) :
    Prop where
  keeps : Keeps h0 h [(hs.cols, full .list kids)] ((hs.names, .node (.syms names) []) :: kids)
  colv : hs.colv = kids.map (·.1)

variable {names : List Sym} {hs : Handles} {kids : List (Ref × Nest Node)}

/-- The two releases of a failed decode leave nothing. -/
theorem Held.release (hh : Held h0 h names hs kids) :
    Goes hs.release h fun _ h' => h'.blk = h0.blk := by
  unfold Handles.release
  refine hh.keeps.release.bind fun _ h1 hk1 => ?_
  have hall : Keeps h0 h1 [(hs.cols, full .list kids)] (kids ++ []) := by
    rw [List.append_nil]
    exact hk1
  exact (hall.close kids).release.imp fun _ h2 hk3 => hk3.restored

theorem Held.giveUp (hh : Held h0 h names hs kids) (total v : Nat) :
    Goes (hs.giveUp total v) h fun _ h' => h'.blk = h0.blk := by
  unfold Handles.giveUp ktnVec
  refine (hh.keeps.leaf _).bind fun ks h1 hk1 => ?_
  refine hk1.release.bind fun _ h2 hk2 => ?_
  exact Held.release ⟨hk2, hh.colv⟩

/-- A tree takes the place of a column that was taken out of the trees. -/
theorem replace {cols : Ref} {x named : Ref × Nest Node} {p : Nat} (hp : p < kids.length)
    (hk : Keeps h0 h [(cols, full .list kids)] (x :: named :: kids.eraseIdx p)) :
    Goes (store cols p x.1) h fun _ h' =>
      Keeps h0 h' [(cols, full .list (kids.set p x))] (named :: kids.set p x) := by
  have hlt : p < (full Node.list kids).slots.length := by simpa [full] using hp
  refine (hk.store hlt x.1).imp fun _ h' hk' => ?_
  have hfull : (⟨Node.list, (full Node.list kids).slots.set p (some x.1)⟩ : Block Node) =
      full .list (kids.set p x) := by
    unfold full
    rw [List.map_set]
  have hk'' : Keeps h0 h' [(cols, full .list (kids.set p x))] (x :: named :: kids.eraseIdx p) := hfull ▸ hk'
  refine hk''.perm ((List.Perm.swap named x _).trans (.cons named ?_))
  exact (List.set_perm_cons_eraseIdx hp x).symm

theorem Held.swap (hh : Held h0 h names hs kids) (total v : Nat) {p : Nat} (hp : p < kids.length) :
    Goes (hs.swap total v p) h fun hs' h' => ∃ ks,
      Held h0 h' names hs' (kids.set p (ks, .node (.vec .KS total v) [])) := by
  unfold Handles.swap ktnVec
  refine (hh.keeps.leaf _).bind fun ks h1 hk1 => ?_
  have hcol : hs.colv[p]? = some kids[p].1 := by
    rw [hh.colv, List.getElem?_map, List.getElem?_eq_getElem hp]
    rfl
  have hlift : Goes (liftM hs.colv[p]? : Alloc Node Ref) h1 fun col h' => col = kids[p].1 ∧ h' = h1 :=
    goes_lift hcol ⟨rfl, rfl⟩
  refine hlift.bind fun col h' hcol' => ?_
  obtain ⟨rfl, rfl⟩ := hcol'
  have hperm : ((ks, Nest.node (Node.vec .KS total v) []) :: (hs.names, .node (.syms names) []) :: kids).Perm
      (kids[p] :: (ks, .node (.vec .KS total v) []) :: (hs.names, .node (.syms names) []) ::
        kids.eraseIdx p) := by
    have hout := ((List.getElem_cons_eraseIdx_perm hp).symm.cons (hs.names, Nest.node (.syms names) [])).cons
      (ks, Nest.node (Node.vec .KS total v) [])
    exact hout.trans (((List.Perm.swap _ _ _).cons _).trans (.swap _ _ _))
  refine (hk1.perm hperm).release.bind fun _ h2 hk2 => ?_
  refine (replace hp hk2).bind fun _ h3 hk3 => goes_pure ⟨ks, hk3, ?_⟩
  rw [List.map_set, ← hh.colv]

/-! ## Second reads -/

variable {W : World} {nthreads k : Nat} {set : FileSet} {sel : Sel} {g0 g1 : Nat} {codes : Bool}
  {who : String}

/-- The tags are read. -/
theorem tags_read : ∃ t, Reads tagWorld 2 2 ⟨[tagSrc], ["tag"], [.ok .KS]⟩ ⟨[0], [.KS], [0], [none]⟩ 0 2
    true "pq_read" (fun _ => .g 0) (.ok t) := by
  have hset : agree [tagSrc] "pq_read" = .ok ⟨[tagSrc], ["tag"], [.ok .KS]⟩ := rfl
  have hsel : select ⟨[tagSrc], ["tag"], [.ok .KS]⟩ none "pq_read" = .ok ⟨[0], [.KS], [0], [none]⟩ := rfl
  have hloaded : ∀ s ∈ [tagSrc], Loaded s := by
    intro s hs
    cases List.mem_singleton.mp hs
    exact ⟨rfl, rfl, rfl⟩
  obtain ⟨hW, hD, hsym⟩ := tagWorld_faithful
  have hraw : ∀ q rt, Sel.rawAt ⟨[0], [.KS], [0], [none]⟩ q ≠ some rt := by
    intro q rt
    match q with
    | 0 | q + 1 => nofun
  refine read_answers (select_selected hset hsel) hloaded hW hD hsym hraw
    (show countedRows (windowCounts [tagSrc] 0 2) < 2 ^ 64 by decide) 2 (fun _ => .g 0) tags_plan ?_
  intro p cd h
  match p with
  | 0 =>
    cases h
    decide
  | p + 1 => cases h

/-- The calling thread panics in the first task of the tags: the names and their column stay. -/
theorem a_panic_leaves_the_names_and_the_column : ∃ h',
    HeapReads tagWorld 2 1 ⟨[tagSrc], ["tag"], [.ok .KS]⟩ ⟨[0], [.KS], [0], [none]⟩ 0 2 true "pq_read"
      (fun _ => .g 0) ⟨fun _ => none, 0, fun _ _ => rfl⟩ (some (.unwound, h')) ∧
      h'.blk 0 = some ⟨.syms [⟨[116, 97, 103]⟩], []⟩ ∧ h'.blk 1 = some ⟨.list, [some 2]⟩ := by
  obtain ⟨s, hs⟩ : ∃ s, lib.runs.exec (lib.cursor.system (decodeWork tagWorld
      ⟨[tagSrc], ["tag"], [.ok .KS]⟩ ⟨[0], [.KS], [0], [none]⟩ [⟨[], [0], [0], [⟨[0]⟩]⟩] id
      (tasksOf [⟨0, 0, 0, 2⟩, ⟨0, 1, 2, 1⟩] 1) (fun p => ([some ⟨[⟨[97]⟩, ⟨[98]⟩, ⟨[]⟩],
        [([], 2), ([98], 1), ([97], 0)], 2, .KG⟩][p]?).join) "pq_read") 0 SymCache.new)
      (lib.cursor.start 0 SymCache.new) [.go 0, .go 0, .go 0, .panic 0] = some s := ⟨_, rfl⟩
  have hpcs : s.ts.map (·.pc) = [.panicked] := by
    have hend := congrArg (Option.map fun s => s.ts.map (·.pc)) hs
    exact Option.some.inj (hend.symm.trans rfl)
  obtain ⟨t, hts, hpc⟩ := List.map_eq_singleton_iff.mp hpcs
  have hover : lib.cursor.Over s := fun t' ht' => by
    rw [hts, List.mem_singleton] at ht'
    rw [ht', hpc]
    rfl
  have hunwound : s.unwound := ⟨t, by rw [hts]; rfl, hpc⟩
  have hends := @DecodeEnds.unwound _ _ _ _ _ _ _ _ 1 ⟨fun _ => .g 0, fun _ => false⟩
    ⟨fun _ => .g 0, fun _ => false⟩ s (.exec (.start rfl) _ hs) hover (.unwound (by decide) hunwound)
  exact ⟨_, .unwound tags_plan rfl hends, rfl, rfl⟩

end parquet_interop.ownership
