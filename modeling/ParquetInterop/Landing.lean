-- What a task that succeeds leaves behind: the rows of its columns, each as
-- its element or as its code, wherever the batches were cut.
import ParquetInterop.Read
import ParquetInterop.TaskRows
import ParquetInterop.ZeroCopy

open parquet_interop.ffi parquet_interop.footer parquet_interop.native
open lib.jobs lib.stores

namespace parquet_interop.read

/-! ## Acts on the shared state -/

/-- The stores among the acts. -/
def storesOf (acts : List Act) : List Store :=
  acts.filterMap fun
    | .store o => some o
    | .give _ => none

theorem mem_storesOf {acts : List Act} {o : Store} : o ∈ storesOf acts ↔ Act.store o ∈ acts := by
  unfold storesOf
  rw [List.mem_filterMap]
  constructor
  · rintro ⟨a, ha, ho⟩
    cases a with
    | store o' =>
      cases ho
      exact ha
    | give p => cases ho
  · exact fun h => ⟨_, h, rfl⟩

theorem storesOf_append (acts more : List Act) :
    storesOf (acts ++ more) = storesOf acts ++ storesOf more := List.filterMap_append

@[simp] theorem storesOf_stores (os : List Store) : storesOf (os.map .store) = os := by
  unfold storesOf
  rw [List.filterMap_map]
  exact List.filterMap_some

theorem foldl_exec_mem (m : Shared) (acts : List Act) :
    (acts.foldl Act.exec m).mem = run m.mem (storesOf acts) := by
  induction acts generalizing m with
  | nil => rfl
  | cons a acts ih =>
    rw [List.foldl_cons, ih]
    cases a <;> rfl

theorem foldl_exec_gives (m : Shared) (acts : List Act) (q : Nat) :
    (acts.foldl Act.exec m).gives q = true ↔ m.gives q = true ∨ Act.give q ∈ acts := by
  induction acts generalizing m with
  | nil => simp
  | cons a acts ih =>
    rw [List.foldl_cons, ih]
    cases a with
    | store o => simp [Act.exec]
    | give p =>
      simp only [Act.exec, Bool.or_eq_true, decide_eq_true_eq, List.mem_cons, Act.give.injEq]
      grind

/-! ## Codes of one array -/

/-- The bytes of a row of a symbol column. A null row reads as the empty symbol. -/
def rowBytes : Option Val → Option (List UInt8)
  | none => some []
  | some (.str v) => some (utf8Bytes v)
  | some _ => none

/-- The code of a row: the id of its bytes in the union. -/
def CodeOf (cd : Codes) (x : Option Val) (c : Cell) : Prop :=
  ∃ b id, rowBytes x = some b ∧ cd.ix.lookup b = some id ∧ c = narrow cd.lt id

/-- The id of the empty symbol is the id of the empty bytes, once they are in the union. -/
def Codes.Closed (cd : Codes) : Prop := ∀ i, cd.ix.lookup [] = some i → cd.empty = i

/-- `cd'` stores like `cd`, and every id that it knows is one of `cd`. -/
structure Codes.Under (cd' cd : Codes) : Prop where
  lt : cd'.lt = cd.lt
  empty : cd'.empty = cd.empty
  ix : ∀ b id, cd'.ix.lookup b = some id → cd.ix.lookup b = some id

/-- The table of a dictionary in the union of `cd`. -/
def lutOf (cd : Codes) (vs : List (Option String)) : Option (List UInt32) :=
  vs.mapM fun v => cd.ix.lookup ((v.map utf8Bytes).getD [])

/-- Every memo entry is the table of its dictionary in the union of the column it comes from. -/
def LutsFit (heap : Heap) (cds : Nat → Option Codes) (owner : ArrayId → Nat) (sel : Sel)
    (sy : SymCache) : Prop :=
  ∀ id t, (id, t) ∈ sy.luts → ∀ q cd, cds q = some cd → sel.col q = owner id →
    ∃ vs, heap id = .ok vs ∧ t = lutOf cd vs

/-- The code tables leave the symbols alone. -/
theorem lut_luts (heap : Heap) (sy : SymCache) (id : ArrayId) (cd : Codes) :
    ∃ luts, (sy.lut heap id cd).2 = { sy with luts } := by
  unfold SymCache.lut
  split
  · exact ⟨_, rfl⟩
  · split
    · exact ⟨sy.luts, rfl⟩
    · exact ⟨_, rfl⟩

/-- `lut` answers the table of the dictionary, whatever the memo holds, when a dictionary has one
union. -/
theorem lut_table {heap : Heap} {sy : SymCache} {unions : ArrayId → Codes → Prop}
    (hone : ∀ id cd cd', unions id cd → unions id cd' → cd = cd')
    (hl : ∀ id t, (id, t) ∈ sy.luts → ∀ cd, unions id cd → ∃ vs, heap id = .ok vs ∧ t = lutOf cd vs)
    {id : ArrayId} {cd : Codes} (hcd : unions id cd) :
    (sy.lut heap id cd).1 = (heap id).map (lutOf cd) ∧
      ∀ id' t, (id', t) ∈ (sy.lut heap id cd).2.luts → ∀ cd', unions id' cd' →
        ∃ vs, heap id' = .ok vs ∧ t = lutOf cd' vs := by
  unfold SymCache.lut
  split
  · rename_i t luts hm
    obtain ⟨ht, hsub⟩ := memoHit_mem hm
    obtain ⟨vs, hvs, rfl⟩ := hl id t ht cd hcd
    rw [hvs]
    exact ⟨rfl, fun id' t' ht' => hl id' t' (hsub _ ht')⟩
  · rcases hid : heap id with e | vs
    · exact ⟨rfl, hl⟩
    · refine ⟨rfl, fun id' t ht cd' hcd' => ?_⟩
      rcases memoInsert_mem ht with he | ht
      · cases he
        cases hone id cd cd' hcd hcd'
        exact ⟨vs, hid, rfl⟩
      · exact hl id' t ht cd' hcd'

theorem lut_spec {heap : Heap} {cds : Nat → Option Codes} {owner : ArrayId → Nat} {sel : Sel}
    {sy : SymCache} (hsy : sy.Coherent heap) (hl : LutsFit heap cds owner sel sy)
    (hinj : ∀ q q', cds q ≠ none → cds q' ≠ none → sel.col q = sel.col q' → q = q')
    {q : Nat} {cd : Codes} (hcd : cds q = some cd) {id : ArrayId} (hown : sel.col q = owner id)
    {vs : List (Option String)} (hid : heap id = .ok vs) :
    ∃ sy', sy.lut heap id cd = (.ok (lutOf cd vs), sy') ∧ sy'.Coherent heap ∧
      LutsFit heap cds owner sel sy' := by
  have hone : ∀ id cd cd', (∃ q, cds q = some cd ∧ sel.col q = owner id) →
      (∃ q, cds q = some cd' ∧ sel.col q = owner id) → cd = cd' := by
    rintro id cd cd' ⟨q, hq, hqo⟩ ⟨q', hq', hqo'⟩
    have hqq : q = q' := hinj q q' (by simp [hq]) (by simp [hq']) (hqo.trans hqo'.symm)
    subst hqq
    rw [hq] at hq'
    exact Option.some.inj hq'
  obtain ⟨hans, hl'⟩ := lut_table hone (fun id t ht cd ⟨q, hq, hqo⟩ => hl id t ht q cd hq hqo)
    ⟨q, hcd, hown⟩
  rw [hid] at hans
  obtain ⟨luts, hluts⟩ := lut_luts heap sy id cd
  refine ⟨(sy.lut heap id cd).2, Prod.ext hans rfl, ?_,
    fun id' t ht q' cd' hq' hqo' => hl' id' t ht cd' ⟨q', hq', hqo'⟩⟩
  rw [hluts]
  exact ⟨hsy.slots, hsy.dicts⟩

/-- A table has the id of each value. -/
theorem lutOf_get {cd : Codes} {vs : List (Option String)} {lut : List UInt32}
    (h : lutOf cd vs = some lut) (k : Nat) :
    (vs[k]?).map (fun v => cd.ix.lookup ((v.map utf8Bytes).getD [])) = (lut[k]?).map some := by
  unfold lutOf at h
  induction vs generalizing lut k with
  | nil =>
    cases h
    rfl
  | cons v vs ih =>
    simp only [List.mapM_cons, Option.pure_def, Option.bind_eq_bind, Option.bind_eq_some_iff,
      Option.some.injEq] at h
    obtain ⟨i, hi, rest, hrest, rfl⟩ := h
    cases k with
    | zero => simp [hi]
    | succ k => exact ih hrest k

/-- There is a table unless a value is not in the union. -/
theorem lutOf_eq_none {cd : Codes} {vs : List (Option String)} :
    lutOf cd vs = none ↔ ∃ v ∈ vs, cd.ix.lookup ((v.map utf8Bytes).getD []) = none := by
  unfold lutOf
  induction vs with
  | nil => simp
  | cons v vs ih =>
    rw [List.mapM_cons, List.exists_mem_cons_iff, ← ih]
    rcases cd.ix.lookup ((v.map utf8Bytes).getD []) with _ | id
    · simp
    · cases vs.mapM fun v => cd.ix.lookup ((v.map utf8Bytes).getD []) <;> simp

/-- One batch of codes: given up, or every row stored as its code. The keys are inside the
dictionary, and a null key has an id. -/
theorem fillCodes_lands {heap : Heap} {cds : Nat → Option Codes} {owner : ArrayId → Nat} {sel : Sel}
    {sy : SymCache} (hsy : sy.Coherent heap) (hl : LutsFit heap cds owner sel sy)
    (hinj : ∀ q q', cds q ≠ none → cds q' ≠ none → sel.col q = sel.col q' → q = q')
    {q : Nat} {cd' cd : Codes} (hcd : cds q = some cd') (hunder : cd'.Under cd) (hclosed : cd.Closed)
    (keys : Prim Int) {values : ArrayId} (hown : sel.col q = owner values) {vs : List (Option String)}
    (hvs : heap values = .ok vs) (hin : ∀ k, some k ∈ keys.content → asUsizeKey k < vs.length)
    (hempty : (cd.ix.lookup []).isSome = true) (col off : Nat) :
    ∃ acts sy', fillCodes heap keys values cd' q col off sy = (.ok acts, sy') ∧
      sy'.Coherent heap ∧ LutsFit heap cds owner sel sy' ∧
      (acts = [.give q] ∨ ∃ os, acts = os.map .store ∧ Fills os col off keys.values.length ∧
        Leaves os col off (CodeOf cd) ((ArrData.dict keys values).content heap)) := by
  obtain ⟨sy', hlut, hsy', hl'⟩ := lut_spec hsy hl hinj hcd hown hvs
  unfold fillCodes
  rw [hlut]
  rcases hlo : lutOf cd' vs with _ | lut
  · exact ⟨_, _, rfl, hsy', hl', Or.inl rfl⟩
  refine ⟨_, _, rfl, hsy', hl', Or.inr ⟨_, rfl, fill_nulls_fills keys col off _ _, ?_⟩⟩
  intro m i x hx
  simp only [ArrData.content, hvs, List.getElem?_map, Option.map_eq_some_iff] at hx
  obtain ⟨y, hy, rfl⟩ := hx
  rw [run_fill_nulls m keys col off _ _ hy]
  have hmem := List.mem_of_getElem? hy
  cases y with
  | none =>
    -- A null takes the id of the empty bytes.
    obtain ⟨id, hid⟩ := Option.isSome_iff_exists.mp hempty
    exact ⟨[], id, rfl, hid, by rw [← hclosed id hid, ← hunder.lt, ← hunder.empty]; rfl⟩
  | some k =>
    obtain ⟨v, hv⟩ : ∃ v, vs[asUsizeKey k]? = some v := ⟨_, List.getElem?_eq_getElem (hin k hmem)⟩
    have hk := lutOf_get hlo (asUsizeKey k)
    rw [hv, Option.map_some] at hk
    obtain ⟨id, ht, hid⟩ := Option.map_eq_some_iff.mp hk.symm
    refine ⟨(v.map utf8Bytes).getD [], id, ?_, hunder.ix _ _ hid.symm, ?_⟩
    · simp only [Option.bind_some, hv, Option.join_some]
      cases v <;> rfl
    · simp only [Option.map_some, Option.getD_some, ht, hunder.lt]

/-! ## Columns that land -/

/-- What the columns of a read are stored by: the plan of the pairs, the owner of each dictionary
array by file column, and the type of each result position. -/
structure Ground where
  W : World
  sel : Sel
  cols : Nat → Nat
  cds : Nat → Option Codes
  owner : ArrayId → Nat

/-- A plan that is made of symbol columns, no file column twice, with an id for the nulls of each. -/
structure Ground.Planned (G : Ground) : Prop where
  lawful : G.W.crate.Lawful
  inj : ∀ q q', G.cds q ≠ none → G.cds q' ≠ none → G.sel.col q = G.sel.col q' → q = q'
  closed : ∀ q cd, G.cds q = some cd → cd.Closed
  empty : ∀ q cd, G.cds q = some cd → (cd.ix.lookup []).isSome = true
  sym : ∀ q, G.cds q ≠ none → G.sel.lt q = .KS

/-- A cache that answers what an empty one would answer. -/
def Ground.Sane (G : Ground) (sy : SymCache) : Prop :=
  sy.Coherent G.W.crate.heap ∧ LutsFit G.W.crate.heap G.cds G.owner G.sel sy

/-- The plan `cds` may run where `G` says what is stored: it pairs the same columns, and what it
knows of them `G` knows. -/
structure Ground.Runs (G : Ground) (cds : Nat → Option Codes) : Prop where
  plain : ∀ q, cds q = none → G.cds q = none
  under : ∀ q cd', cds q = some cd' → ∃ cd, G.cds q = some cd ∧ cd'.Under cd

theorem Ground.runs_self (G : Ground) : G.Runs G.cds :=
  ⟨fun _ h => h, fun _ cd h => ⟨cd, h, rfl, rfl, fun _ _ h => h⟩⟩

/-- The ground whose plan is the one that runs. -/
def Ground.run (G : Ground) (cds : Nat → Option Codes) : Ground := { G with cds }

theorem Ground.Runs.pairs {G : Ground} {cds : Nat → Option Codes} (h : G.Runs cds) {q : Nat}
    (hq : cds q ≠ none) : G.cds q ≠ none := by
  obtain ⟨cd', hcd'⟩ := Option.ne_none_iff_exists'.mp hq
  obtain ⟨cd, hcd, -⟩ := h.under q cd' hcd'
  rw [hcd]
  exact Option.some_ne_none cd

/-- The element that a row of position `q` is stored as: its own, or its code. -/
def Ground.RowIs (G : Ground) (q : Nat) (dt : DataType) (x : Option Val) (c : Cell) : Prop :=
  match G.cds q with
  | none => c = cell (G.sel.lt q) dt x
  | some cd => CodeOf cd x c

/-- An array of position `q`, in a file where the column has type `dt`. -/
structure Ground.Suits (G : Ground) (q : Nat) (dt : DataType) (arr : Arr) : Prop where
  data_type : arr.data_type = dt
  typed : arr.Typed G.W.crate.heap
  lt : lTypeOf dt = .ok (G.sel.lt q)
  keyed : G.cds q ≠ none → ∀ keys values, arr.data = .dict keys values →
    G.sel.col q = G.owner values ∧
      ∀ vs, G.W.crate.heap values = .ok vs → ∀ k, some k ∈ keys.content → asUsizeKey k < vs.length

/-- The acts store the `n` rows from `off` on of the positions `qs`, each position whole, but for
the ones that are given up. -/
structure Ground.Lands (G : Ground) (acts : List Act) (qs : List Nat) (off n : Nat)
    (dt : Nat → DataType) (rows : Nat → List (Option Val)) : Prop where
  within : ∀ o ∈ storesOf acts, ∃ q ∈ qs, o.Within (Rows (G.cols q) off n)
  gives : ∀ q, Act.give q ∈ acts → q ∈ qs ∧ G.cds q ≠ none
  lands : ∀ q ∈ qs, Act.give q ∈ acts ∨
    Leaves (storesOf acts) (G.cols q) off (G.RowIs q (dt q)) (rows q)

section
variable {G : Ground} {dt : Nat → DataType}

theorem Leaves.left {os us : List Store} {col off : Nat} {R : Option Val → Cell → Prop}
    {xs : List (Option Val)} (h : Leaves os col off R xs)
    (hus : ∀ o ∈ us, ∀ i < xs.length, o.dst ≠ ⟨col, off + i⟩) : Leaves (os ++ us) col off R xs := by
  intro m i x hx
  rw [run_append, run_frame fun o ho => hus o ho i (List.getElem?_eq_some_iff.mp hx).1]
  exact h m i x hx

theorem Leaves.right {os us : List Store} {col off : Nat} {R : Option Val → Cell → Prop}
    {xs : List (Option Val)} (h : Leaves us col off R xs) : Leaves (os ++ us) col off R xs := by
  intro m i x hx
  rw [run_append]
  exact h _ i x hx

theorem Ground.Lands.nil (G : Ground) (off : Nat) (dt : Nat → DataType)
    (rows : Nat → List (Option Val)) (n : Nat) : G.Lands [] [] off n dt rows :=
  ⟨fun _ ho => absurd ho List.not_mem_nil, fun _ h => absurd h List.not_mem_nil,
    fun _ h => absurd h List.not_mem_nil⟩

/-- Other columns of the same rows. -/
theorem Ground.Lands.columns {acts more : List Act} {qs ps : List Nat} {off n : Nat}
    {rows : Nat → List (Option Val)} (h : G.Lands acts qs off n dt rows)
    (h' : G.Lands more ps off n dt rows) (hne : ∀ q ∈ qs, ∀ p ∈ ps, G.cols q ≠ G.cols p) :
    G.Lands (acts ++ more) (qs ++ ps) off n dt rows := by
  constructor
  case within =>
    intro o ho
    rw [storesOf_append] at ho
    rcases List.mem_append.mp ho with ho | ho
    · obtain ⟨q, hq, hin⟩ := h.within o ho
      exact ⟨q, List.mem_append_left _ hq, hin⟩
    · obtain ⟨q, hq, hin⟩ := h'.within o ho
      exact ⟨q, List.mem_append_right _ hq, hin⟩
  case gives =>
    intro q hq
    rcases List.mem_append.mp hq with hq | hq
    · exact ⟨List.mem_append_left _ (h.gives q hq).1, (h.gives q hq).2⟩
    · exact ⟨List.mem_append_right _ (h'.gives q hq).1, (h'.gives q hq).2⟩
  case lands =>
    intro q hq
    rw [storesOf_append]
    rcases List.mem_append.mp hq with hq | hq
    · rcases h.lands q hq with hg | hl
      · exact Or.inl (List.mem_append_left _ hg)
      · refine Or.inr (hl.left fun o ho i _ he => ?_)
        obtain ⟨p, hp, ⟨hvec, _⟩, _⟩ := h'.within o ho
        rw [he] at hvec
        exact hne q hq p hp hvec
    · rcases h'.lands q hq with hg | hl
      · exact Or.inl (List.mem_append_right _ hg)
      · exact Or.inr hl.right

/-- The next rows of the same columns. -/
theorem Ground.Lands.batches {acts more : List Act} {qs : List Nat} {off n n' : Nat}
    {rows rows' : Nat → List (Option Val)} (h : G.Lands acts qs off n dt rows)
    (h' : G.Lands more qs (off + n) n' dt rows') (hlen : ∀ q ∈ qs, (rows q).length = n) :
    G.Lands (acts ++ more) qs off (n + n') dt fun q => rows q ++ rows' q := by
  constructor
  case within =>
    intro o ho
    have hwiden : ∀ {c k l : Nat}, k + l ≤ n + n' → o.Within (Rows c (off + k) l) →
        o.Within (Rows c off (n + n')) := by
      have hrow : ∀ {c k l : Nat} {a : Addr Nat}, k + l ≤ n + n' → Rows c (off + k) l a →
          Rows c off (n + n') a := by
        rintro c k l a hkl ⟨h1, h2, h3⟩
        exact ⟨h1, by omega, by omega⟩
      rintro c k l hkl ⟨h1, h2⟩
      exact ⟨hrow hkl h1, fun a ha => hrow hkl (h2 a ha)⟩
    rw [storesOf_append] at ho
    rcases List.mem_append.mp ho with ho | ho
    · obtain ⟨q, hq, hin⟩ := h.within o ho
      exact ⟨q, hq, hwiden (k := 0) (l := n) (by omega) hin⟩
    · obtain ⟨q, hq, hin⟩ := h'.within o ho
      exact ⟨q, hq, hwiden (k := n) (l := n') le_rfl hin⟩
  case gives =>
    intro q hq
    rcases List.mem_append.mp hq with hq | hq
    · exact h.gives q hq
    · exact h'.gives q hq
  case lands =>
    intro q hq
    rw [storesOf_append]
    rcases h.lands q hq with hg | hl
    · exact Or.inl (List.mem_append_left _ hg)
    rcases h'.lands q hq with hg | hl'
    · exact Or.inl (List.mem_append_right _ hg)
    refine Or.inr (hl.append (fun o ho i hi he => ?_) ((hlen q hq).symm ▸ hl'))
    obtain ⟨p, _, ⟨_, hlow, _⟩, _⟩ := h'.within o ho
    rw [he] at hlow
    have := hlen q hq
    simp only at hlow
    omega

/-- One column of a batch lands, by its codes or as plain elements. -/
theorem arrowColumn_lands (hG : G.Planned) {cds : Nat → Option Codes} (hcds : G.Runs cds)
    {sy : SymCache} (hsy : (G.run cds).Sane sy) {q : Nat} {arr : Arr} {dt : Nat → DataType}
    (harr : G.Suits q (dt q) arr) (off : Nat) {rows : Nat → List (Option Val)}
    (hrows : rows q = arr.content G.W.crate.heap) :
    ∃ acts sy', arrowColumn G.W G.sel G.cols cds q arr off sy = ((acts, .ok ()), sy') ∧
      (G.run cds).Sane sy' ∧ G.Lands acts [q] off arr.len dt rows := by
  have hstored : ∀ {os : List Store}, Fills os (G.cols q) off arr.len →
      Leaves os (G.cols q) off (G.RowIs q (dt q)) (rows q) →
      G.Lands (os.map .store) [q] off arr.len dt rows := by
    intro os hos hl
    constructor
    case within =>
      intro o ho
      rw [storesOf_stores] at ho
      exact ⟨q, List.mem_singleton_self q, hos.within o ho⟩
    case gives => exact fun p hp => by simp at hp
    case lands =>
      intro p hp
      rw [List.mem_singleton] at hp
      subst hp
      rw [storesOf_stores]
      exact Or.inr hl
  have hsane : sy.Coherent G.W.crate.heap ∧ LutsFit G.W.crate.heap cds G.owner G.sel sy := hsy
  unfold arrowColumn
  rcases hcd' : cds q with _ | cd'
  · have hcd := hcds.plain q hcd'
    obtain ⟨os, sy', hos, hsy', hdel⟩ := fillCol_delivers hG.lawful hsane.1 harr.typed
      (harr.data_type ▸ harr.lt) (G.cols q) off
    have hluts := fillCol_luts G.W.crate (G.sel.lt q) (G.cols q) off arr sy
    rw [hos] at hluts
    refine ⟨_, sy', by rw [hos], ⟨hsy', ?_⟩, hstored (fillCol_fills hos) ?_⟩
    · unfold LutsFit
      rw [show sy'.luts = sy.luts from hluts]
      exact hsane.2
    · unfold Ground.RowIs
      rw [hcd, hrows, ← harr.data_type]
      exact hdel
  · obtain ⟨cd, hcd, hunder⟩ := hcds.under q cd' hcd'
    have hks := hG.sym q (by rw [hcd]; nofun)
    have hgive : G.Lands [.give q] [q] off arr.len dt rows := by
      constructor
      case within => exact fun o ho => by cases ho
      case gives =>
        intro p hp
        rw [List.mem_singleton, Act.give.injEq] at hp
        subst hp
        exact ⟨List.mem_singleton_self p, by rw [hcd]; nofun⟩
      case lands =>
        intro p hp
        rw [List.mem_singleton] at hp
        subst hp
        exact Or.inl (List.mem_singleton_self _)
    have hlt := harr.lt
    have hty := harr.typed
    have hkeyed := harr.keyed (by rw [hcd]; nofun)
    rw [hks] at hlt
    obtain ⟨adt, data⟩ := arr
    have hdt : adt = dt q := harr.data_type
    unfold symCodes
    cases adt with
    | dictionary k v =>
      cases data <;> first | exact hty.elim | skip
      rename_i keys values
      obtain ⟨hk, vs, hvs⟩ := hty
      obtain ⟨hown, hin⟩ := hkeyed keys values rfl
      obtain ⟨acts, sy', hacts, hsy', hl', hland⟩ := fillCodes_lands hsane.1 hsane.2
        (fun p p' hp hp' => hG.inj p p' (hcds.pairs hp) (hcds.pairs hp')) hcd' hunder
        (hG.closed q cd hcd) keys hown hvs (hin vs hvs) (hG.empty q cd hcd) (G.cols q) off
      refine ⟨acts, sy', by simp only [hk, if_true, hacts], ⟨hsy', hl'⟩, ?_⟩
      rcases hland with rfl | ⟨os, rfl, hfills, hleaves⟩
      · exact hgive
      · refine hstored hfills ?_
        unfold Ground.RowIs
        rw [hcd, hrows]
        exact hleaves
    | _ => exact ⟨_, sy, rfl, hsy, hgive⟩

/-- The columns of one batch land, one after the other. -/
theorem batchColumns_lands (hG : G.Planned) {cds : Nat → Option Codes} (hcds : G.Runs cds) {b : Batch}
    {rows : Nat → List (Option Val)}
    {places : List (Nat × Nat)} (hnd : (places.map fun x => G.cols x.1).Nodup)
    (hb : ∀ x ∈ places, ∃ arr, b.columns[x.2]? = some arr ∧ G.Suits x.1 (dt x.1) arr ∧
      rows x.1 = arr.content G.W.crate.heap) {sy : SymCache} (hsy : (G.run cds).Sane sy) (off : Nat) :
    ∃ acts sy', batchColumns G.W G.sel G.cols cds b off places sy = ((acts, .ok ()), sy') ∧
      (G.run cds).Sane sy' ∧ G.Lands acts (places.map Prod.fst) off b.num_rows dt rows := by
  induction places generalizing sy with
  | nil => exact ⟨[], sy, rfl, hsy, Ground.Lands.nil G off dt rows _⟩
  | cons x places ih =>
    obtain ⟨q, i⟩ := x
    obtain ⟨arr, harr, hsuits, hrows⟩ := hb (q, i) List.mem_cons_self
    obtain ⟨acts, sy1, hacts, hsy1, hland⟩ := arrowColumn_lands hG hcds hsy hsuits off hrows
    rw [List.map_cons, List.nodup_cons] at hnd
    obtain ⟨more, sy2, hmore, hsy2, hland'⟩ :=
      ih hnd.2 (fun y hy => hb y (List.mem_cons_of_mem _ hy)) hsy1
    rw [b.len_eq arr (List.mem_of_getElem? harr)] at hland
    refine ⟨acts ++ more, sy2, ?_, hsy2, ?_⟩
    · unfold batchColumns
      rw [harr]
      dsimp only
      rw [hacts]
      dsimp only
      rw [hmore]
    · refine hland.columns hland' fun p hp r hr he => hnd.1 ?_
      rw [List.mem_singleton] at hp
      subst hp
      obtain ⟨y, hy, rfl⟩ := List.mem_map.mp hr
      exact List.mem_map.mpr ⟨y, hy, he.symm⟩

variable (dt) in
/-- The batches of a row group land one behind the other: each column is whole, however it was
cut. -/
theorem arrowLoop_lands (hG : G.Planned) {cds : Nat → Option Codes} (hcds : G.Runs cds) (who : String)
    (rows : Batch → Nat → List (Option Val))
    {places : List (Nat × Nat)} (hnd : (places.map fun x => G.cols x.1).Nodup) {bs : List Batch}
    (hbs : ∀ b ∈ bs, ∀ x ∈ places, ∃ arr, b.columns[x.2]? = some arr ∧ G.Suits x.1 (dt x.1) arr ∧
      rows b x.1 = arr.content G.W.crate.heap) {sy : SymCache} (hsy : (G.run cds).Sane sy) (off : Nat) :
    ∃ acts sy', arrowLoop G.W G.sel G.cols who cds places (bs.map .ok) off sy =
        ((acts, .ok (off + (bs.map (·.num_rows)).sum)), sy') ∧ (G.run cds).Sane sy' ∧
      G.Lands acts (places.map Prod.fst) off (bs.map (·.num_rows)).sum dt
        fun q => bs.flatMap (rows · q) := by
  induction bs generalizing sy off with
  | nil =>
    refine ⟨[], sy, rfl, hsy, ?_, ?_, ?_⟩
    · exact fun o ho => absurd ho List.not_mem_nil
    · exact fun q hq => absurd hq List.not_mem_nil
    · exact fun q _ => Or.inr fun m i x hx => by cases hx
  | cons b bs ih =>
    obtain ⟨acts, sy1, hacts, hsy1, hland⟩ :=
      batchColumns_lands hG hcds hnd (hbs b List.mem_cons_self) hsy off
    obtain ⟨more, sy2, hmore, hsy2, hland'⟩ :=
      ih (fun b' hb' => hbs b' (List.mem_cons_of_mem _ hb')) hsy1 (off + b.num_rows)
    have hlen : ∀ q ∈ places.map Prod.fst, (rows b q).length = b.num_rows := by
      intro q hq
      obtain ⟨x, hx, rfl⟩ := List.mem_map.mp hq
      obtain ⟨arr, harr, hsuits, hrows⟩ := hbs b List.mem_cons_self x hx
      rw [hrows, hsuits.typed.length_content, b.len_eq arr (List.mem_of_getElem? harr)]
    refine ⟨acts ++ more, sy2, ?_, hsy2, ?_⟩
    · rw [List.map_cons]
      unfold arrowLoop
      rw [hacts]
      dsimp only
      rw [hmore, List.map_cons, List.sum_cons, Nat.add_assoc]
    · rw [List.map_cons, List.sum_cons]
      exact hland.batches hland' hlen

end

/-! ## Tasks that succeed -/

section
variable {W : World} {sel : Sel} {cols : Nat → Nat} {who : String} {set : FileSet}
  {cds : Nat → Option Codes}

/-- The loop gets to its end only over batches without an error, and it counts their rows. -/
theorem arrowLoop_ok {places : List (Nat × Nat)} {bs : List (Except String Batch)} {off fin : Nat}
    {sy sy' : SymCache} {acts : List Act}
    (h : arrowLoop W sel cols who cds places bs off sy = ((acts, .ok fin), sy')) :
    ∃ bs' : List Batch, bs = bs'.map .ok ∧ fin = off + (bs'.map (·.num_rows)).sum := by
  induction bs generalizing off sy acts with
  | nil =>
    cases h
    exact ⟨[], rfl, rfl⟩
  | cons b bs ih =>
    cases b with
    | error e => cases h
    | ok b =>
      unfold arrowLoop at h
      rcases hb : batchColumns W sel cols cds b off places sy with ⟨⟨acts0, r0⟩, sy1⟩
      rw [hb] at h
      cases r0 with
      | error e => cases h
      | ok u =>
        rcases hrest : arrowLoop W sel cols who cds places bs (off + b.num_rows) sy1 with
          ⟨⟨more, r⟩, sy2⟩
        dsimp only at h
        rw [hrest] at h
        simp only [Prod.mk.injEq] at h
        obtain ⟨⟨_, hr⟩, hsy⟩ := h
        subst hr hsy
        obtain ⟨bs', rfl, hfin⟩ := ih hrest
        refine ⟨b :: bs', rfl, ?_⟩
        rw [List.map_cons, List.sum_cons]
        omega

/-- An Arrow task that succeeds has stored all its batches, and they have the rows of the
footer. -/
theorem one_arrow_ok {outs : List Nat} {t : Task} {sy sy' : SymCache} {acts : List Act}
    (h : one W sel cols who set (arrowPart set sel outs) cds t sy = ((acts, .ok ()), sy')) :
    ∃ src, ∃ bs : List Batch, set.srcs[t.f]? = some src ∧
      W.batches src ⟨(outs.map sel.col).insertionSort (· ≤ ·)⟩ t.g = .ok (bs.map .ok) ∧
      (bs.map (·.num_rows)).sum = t.rows ∧
      arrowLoop W sel cols who cds ((arrowPart set sel outs).outs.zip (arrowPart set sel outs).bat)
        (bs.map .ok) t.off sy = ((acts, .ok (t.off + t.rows)), sy') := by
  unfold one at h
  split at h
  · cases h
  rename_i src hsrc
  split at h
  · cases h
  simp only [arrowPart, if_true] at h
  unfold arrowPass at h
  simp only [List.getElem?_map, hsrc, Option.map_some] at h
  split at h
  · cases h
  rename_i bs hbs
  split at h
  · cases h
  · rename_i acts' fin sy1 hloop
    simp only [Prod.mk.injEq] at h
    obtain ⟨⟨rfl, hr⟩, rfl⟩ := h
    split at hr
    · rename_i hrows
      obtain ⟨bs', rfl, hfin⟩ := arrowLoop_ok hloop
      have hsum : (bs'.map (·.num_rows)).sum = t.rows := by omega
      refine ⟨src, bs', hsrc, hbs, hsum, ?_⟩
      rw [← hsum, ← hfin]
      exact hloop
    · cases hr

/-- A zero-copy task that succeeds has read as many rows as the footer says. -/
theorem one_raw_ok {q : Nat} {t : Task} {sy sy' : SymCache} {acts : List Act}
    (h : one W sel cols who set ⟨[q], [], [], []⟩ cds t sy = ((acts, .ok ()), sy')) :
    sy' = sy ∧ ∃ src l rt os, set.srcs[t.f]? = some src ∧ src.leafOf (sel.col q) = some l ∧
      sel.rawAt q = some rt ∧ acts = os.map .store ∧
      rawCol (W.columnReader src t.g l) (((src.md.leaves[l]?).map (·.max_def_level)).getD 0) rt
        (sel.lt q) (cols q) t.off t.rows who = (os, .ok t.rows) := by
  unfold one at h
  split at h
  · cases h
  rename_i src hsrc
  split at h
  · cases h
  simp only [reduceCtorEq, if_false, if_true] at h
  split at h
  · cases h
  split at h
  · cases h
  · rename_i acts' hcols
    cases h
    unfold rawColumns at hcols
    split at hcols
    · cases hcols
    · rename_i acts0 hcol
      unfold rawColumn at hcol
      split at hcol
      · cases hcol
      · cases hcol
      · rename_i l rt hl hrt
        dsimp only at hcol
        split at hcol
        · cases hcol
        · rename_i n hn
          simp only [Prod.mk.injEq] at hcol
          obtain ⟨rfl, hr⟩ := hcol
          split at hr
          · rename_i hrows
            refine ⟨rfl, src, l, rt, _, hsrc, hl, hrt, ?_, Prod.ext rfl (hn.trans (hrows ▸ rfl))⟩
            simpa [rawColumns] using hcols.symm
          · cases hr

end

/-! ## What the crates are trusted with -/

/-- The rows of each column of each row group of a file, as the file holds them. -/
abbrev Content : Type := Src → Nat → Nat → List (Option Val)

/-- The rows of place `i` of a batch. -/
def batchRows (heap : Heap) (b : Batch) (i : Nat) : List (Option Val) :=
  ((b.columns[i]?).map (·.content heap)).getD []

/-- The crates hand out what the files hold: a reader that gets to the end of a row group, with
as many rows as its footer says, has brought the rows of each projected column, as arrays of the
column's type. -/
structure Faithful (W : World) (srcs : List Src) (content : Content) : Prop where
  lawful : W.crate.Lawful
  rows : ∀ s ∈ srcs, ∀ g n, s.rg_rows[g]? = some n → ∀ c, (content s g c).length = asUsize n
  typed : ∀ s ∈ srcs, ∀ (g : Nat) n roots (bs : List Batch), s.rg_rows[g]? = some n →
    roots.Pairwise (· < ·) → (∀ c ∈ roots, ∃ lt, lTypeOf (typeAt s c) = .ok lt) →
    W.batches s ⟨roots⟩ g = .ok (bs.map .ok) → (bs.map (·.num_rows)).sum = asUsize n →
    ∀ (i : Nat) c, roots[i]? = some c →
      (∀ b ∈ bs, ∃ arr, b.columns[i]? = some arr ∧ arr.data_type = typeAt s c ∧
        arr.Typed W.crate.heap) ∧
      bs.flatMap (batchRows W.crate.heap · i) = content s g c

/-- The reader of row group `g` brings an array of these keys and values for column `c`. -/
def Brings (W : World) (s : Src) (g c : Nat) (keys : Prim Int) (values : ArrayId) : Prop :=
  ∃ roots, ∃ bs : List Batch, ∃ b ∈ bs, ∃ (i : Nat) (arr : Arr),
    W.batches s ⟨roots⟩ g = .ok (bs.map .ok) ∧ roots[i]? = some c ∧ b.columns[i]? = some arr ∧
      arr.data = .dict keys values

/-- The dictionary arrays of column `c` are not shared with another column. -/
def Owned (W : World) (owner : ArrayId → Nat) (srcs : List Src) (c : Nat) : Prop :=
  ∀ s ∈ srcs, ∀ g keys values, Brings W s g c keys values → c = owner values

/-- The keys of the rows that are not null are inside the dictionary array. -/
def KeysInside (W : World) (srcs : List Src) (c : Nat) : Prop :=
  ∀ s ∈ srcs, ∀ g keys values, Brings W s g c keys values → ∀ vs, W.crate.heap values = .ok vs →
    ∀ k, some k ∈ keys.content → asUsizeKey k < vs.length

/-- The reader of the one flat leaf of column `c` reads the rows of the column. -/
def RawHolds (W : World) (srcs : List Src) (content : Content) (c : Nat) : Prop :=
  ∀ s ∈ srcs, ∀ (g : Nat) n, s.rg_rows[g]? = some n → ∀ (l : Nat) d, s.md.leaves[l]? = some d →
    d.root = c → (∀ (l' : Nat) d', s.md.leaves[l']? = some d' → d'.root = c → l' = l) →
    d.max_rep_level = 0 → (rawOf (typeAt s c) d.physical_type).isSome = true →
    ∃ (cr : ColumnReader) (xs : RawContent), W.columnReader s g l = .ok cr ∧
      cr.Holds d.max_def_level xs ∧ xs.physical = d.physical_type ∧ xs.rows = content s g c

/-! ## What a task that succeeds leaves -/

/-- The row ranges of the columns of a task. -/
def Ground.Foot (G : Ground) (part : Part) (t : Task) (a : Addr Nat) : Prop :=
  ∃ q ∈ part.positions, Rows (G.cols q) t.off t.rows a

/-- Position `q` of a task is in its vector, every row of it, or it is given up. -/
def Ground.Landed (G : Ground) (set : FileSet) (content : Content) (t : Task) (q : Nat)
    (m : Shared) : Prop :=
  (G.cds q ≠ none ∧ m.gives q = true) ∨ ∀ s, set.srcs[t.f]? = some s → ∀ (j : Nat) x,
    (content s t.g (G.sel.col q))[j]? = some x →
    G.RowIs q (typeAt s (G.sel.col q)) x (m.mem ⟨G.cols q, t.off + j⟩)

/-- The positions `Q` are the ones that something is known of. A zero-copy column is one of them
only when its readers are trusted. -/
structure Ground.Fits (G : Ground) (set : FileSet) (content : Content) (Q : Nat → Prop) : Prop
    extends G.Planned where
  selected : Selected set G.sel
  loaded : ∀ s ∈ set.srcs, Loaded s
  faithful : Faithful G.W set.srcs content
  owned : ∀ q, G.cds q ≠ none → Owned G.W G.owner set.srcs (G.sel.col q)
  inside : ∀ q, G.cds q ≠ none → KeysInside G.W set.srcs (G.sel.col q)
  raw : ∀ q rt, Q q → G.sel.rawAt q = some rt → RawHolds G.W set.srcs content (G.sel.col q)
  handles : ∀ p < G.sel.out.length, ∀ q < G.sel.out.length, G.cols p = G.cols q → p = q

structure Ground.Done (G : Ground) (set : FileSet) (content : Content) (Q : Nat → Prop)
    (part : Part) (t : Task) (acts : List Act) : Prop where
  dst : ∀ o ∈ storesOf acts, G.Foot part t o.dst
  within : (∃ q ∈ part.positions, Q q) → ∀ o ∈ storesOf acts, o.Within (G.Foot part t)
  landed : ∀ q ∈ part.positions, Q q → ∀ m, G.Landed set content t q (acts.foldl Act.exec m)

/-- A row group of the set, with the rows that its footer says. -/
def InSet (set : FileSet) (t : Task) : Prop :=
  ∃ s n, set.srcs[t.f]? = some s ∧ s.rg_rows[t.g]? = some n ∧ t.rows = asUsize n

section
variable {G : Ground} {set : FileSet} {content : Content} {Q : Nat → Prop} {who : String}

/-- A symbol column is not zero-copy. -/
theorem Selected.raw_ne_sym {sel : Sel} (hsel : Selected set sel) {q : Nat} {rt : Raw}
    (hrt : sel.rawAt q = some rt) {s : Src} (hs : s ∈ set.srcs) : sel.lt q ≠ .KS := by
  intro hks
  obtain ⟨hq, hraw⟩ := hsel.raw q rt hrt
  obtain ⟨_, d, _, _, hof, _⟩ := hraw s hs
  have hlt := hsel.lt q hq s hs
  rw [hks] at hlt
  rcases rawOf_cases hof with ⟨_, _, h | h | h⟩ | ⟨_, h, _⟩ | ⟨_, _, _, ⟨_, h⟩ | h⟩ | ⟨_, h, _⟩ |
    ⟨_, h, _⟩ <;> rw [h] at hlt <;> cases hlt

theorem Ground.Fits.raw_plain (hG : G.Fits set content Q) {q : Nat} {rt : Raw}
    (hrt : G.sel.rawAt q = some rt) {s : Src} (hs : s ∈ set.srcs) : G.cds q = none := by
  by_contra hcd
  exact hG.selected.raw_ne_sym hrt hs (hG.sym q hcd)

/-- The one leaf of a zero-copy column is the leaf that the reader is opened on. -/
theorem Ground.Fits.raw_leaf (hG : G.Fits set content Q) {q : Nat} {rt : Raw} (hQ : Q q)
    (hrt : G.sel.rawAt q = some rt) {s : Src} (hs : s ∈ set.srcs) {g : Nat} {n : Int64}
    (hn : s.rg_rows[g]? = some n) {l : Nat} (hl : s.leafOf (G.sel.col q) = some l) :
    ∃ (d : Leaf) (cr : ColumnReader) (xs : RawContent), s.md.leaves[l]? = some d ∧
      rawOf (typeAt s (G.sel.col q)) (RawContent.physical xs) = some rt ∧
      G.W.columnReader s g l = .ok cr ∧ cr.Holds d.max_def_level xs ∧
      xs.rows = content s g (G.sel.col q) := by
  obtain ⟨_, hraw⟩ := hG.selected.raw q rt hrt
  obtain ⟨l', d, hl', hd, hof, hrep⟩ := hraw s hs
  cases hl.symm.trans hl'
  have hmap : (leafMap s.md)[G.sel.col q]? = some (some l) := by
    rw [← (hG.loaded s hs).1]
    exact Option.join_eq_some_iff.mp hl
  obtain ⟨d', hd', hroot, huniq⟩ := leafMap_spec s.md hmap
  cases hd.symm.trans hd'
  obtain ⟨cr, xs, hcr, hholds, hphys, hrows⟩ :=
    hG.raw q rt hQ hrt s hs g n hn l d hd hroot huniq hrep (by rw [hof]; rfl)
  exact ⟨d, cr, xs, hd, hphys ▸ hof, hcr, hholds, hrows⟩

/-- The reader of a zero-copy column that is trusted delivers the rows of the row group. -/
theorem raw_lands (hG : G.Fits set content Q) {q : Nat} (hQ : Q q) {rt : Raw}
    (hrt : G.sel.rawAt q = some rt) {t : Task} (ht : InSet set t) {src : Src}
    (hsrc : set.srcs[t.f]? = some src) {l : Nat} (hl : src.leafOf (G.sel.col q) = some l)
    (who : String) :
    ∃ os, rawCol (G.W.columnReader src t.g l) (((src.md.leaves[l]?).map (·.max_def_level)).getD 0) rt
        (G.sel.lt q) (G.cols q) t.off t.rows who = (os, .ok t.rows) ∧
      (∀ o ∈ os, o.Within (Rows (G.cols q) t.off t.rows)) ∧
      Delivers os (G.cols q) t.off (G.sel.lt q) (typeAt src (G.sel.col q))
        (content src t.g (G.sel.col q)) := by
  have hmem : src ∈ set.srcs := List.mem_of_getElem? hsrc
  obtain ⟨s, n, hs, hn, hrows⟩ := ht
  cases hsrc.symm.trans hs
  obtain ⟨d, cr, xs, hd, hof, hcr, hholds, hxs⟩ := hG.raw_leaf hQ hrt hmem hn hl
  obtain ⟨os, hos, hin, hdel⟩ := rawCol_delivers hof
    (hG.selected.lt q (hG.selected.raw q rt hrt).1 src hmem) hholds (G.cols q) t.off who
  have hlen : xs.rows.length = t.rows := by
    rw [hxs, hG.faithful.rows src hmem t.g n hn, hrows]
  rw [hlen] at hos hin
  rw [hcr, hd]
  exact ⟨os, hos, hin, hxs ▸ hdel⟩

/-- A zero-copy task. -/
theorem raw_done (hG : G.Fits set content Q) {cds : Nat → Option Codes} {q : Nat} {t : Task}
    (ht : InSet set t) {sy sy' : SymCache} {acts : List Act}
    (h : one G.W G.sel G.cols who set ⟨[q], [], [], []⟩ cds t sy = ((acts, .ok ()), sy')) :
    sy' = sy ∧ G.Done set content Q ⟨[q], [], [], []⟩ t acts := by
  obtain ⟨rfl, src, l, rt, os, hsrc, hl, hrt, rfl, hraw⟩ := one_raw_ok h
  refine ⟨rfl, ?_⟩
  have hfoot : ∀ a, Rows (G.cols q) t.off t.rows a → G.Foot ⟨[q], [], [], []⟩ t a := fun a ha =>
    ⟨q, List.mem_singleton_self q, ha⟩
  have hpos : ∀ {p}, p ∈ Part.positions ⟨[q], [], [], []⟩ → p = q := fun hp =>
    List.mem_singleton.mp hp
  have hdel : Q q → (∀ o ∈ os, o.Within (Rows (G.cols q) t.off t.rows)) ∧
      Delivers os (G.cols q) t.off (G.sel.lt q) (typeAt src (G.sel.col q))
        (content src t.g (G.sel.col q)) := by
    intro hQ
    obtain ⟨os', hos', hlands⟩ := raw_lands hG hQ hrt ht hsrc hl who
    cases hos'.symm.trans hraw
    exact hlands
  constructor
  case dst =>
    intro o ho
    have hos := congrArg Prod.fst hraw
    dsimp only at hos
    rw [storesOf_stores, ← hos] at ho
    exact hfoot _ (rawCol_dst o ho)
  case within =>
    rintro ⟨p, hp, hQ⟩ o ho
    rw [storesOf_stores] at ho
    obtain ⟨h1, h2⟩ := (hdel (hpos hp ▸ hQ)).1 o ho
    exact ⟨hfoot _ h1, fun a ha => hfoot _ (h2 a ha)⟩
  case landed =>
    intro p hp hQ m
    cases hpos hp
    refine Or.inr fun s hs j x hx => ?_
    cases hsrc.symm.trans hs
    unfold Ground.RowIs
    rw [hG.raw_plain hrt (List.mem_of_getElem? hsrc), foldl_exec_mem, storesOf_stores]
    exact (hdel hQ).2 m.mem j x hx

/-- The projection of an Arrow part is in ascending file order. -/
theorem arrowPart_roots {set : FileSet} {sel : Sel} (hsel : Selected set sel) {outs : List Nat}
    (hnd : outs.Nodup) (hlt : ∀ q ∈ outs, q < sel.out.length) :
    ((outs.map sel.col).insertionSort (· ≤ ·)).Pairwise (· < ·) := by
  have hcols : (outs.map sel.col).Nodup := by
    rw [List.nodup_map_iff_inj_on hnd]
    exact fun p hp q hq he => hsel.col_inj (hlt p hp) (hlt q hq) he
  have hsorted := List.pairwise_insertionSort (· ≤ ·) (outs.map sel.col)
  have hnodup : ((outs.map sel.col).insertionSort (· ≤ ·)).Pairwise (· ≠ ·) :=
    (List.perm_insertionSort (· ≤ ·) (outs.map sel.col)).nodup_iff.mpr hcols
  exact hsorted.imp₂ (fun _ _ hle hne => Nat.lt_of_le_of_ne hle hne) hnodup

/-- What the batches of an Arrow part have to bring, for its columns to be stored. -/
structure Ground.Batched (G : Ground) (set : FileSet) (outs : List Nat) (src : Src)
    (bs : List Batch) : Prop where
  typed : ∀ (i : Nat) c, ((outs.map G.sel.col).insertionSort (· ≤ ·))[i]? = some c → ∀ b ∈ bs,
    ∃ arr, b.columns[i]? = some arr ∧ arr.data_type = typeAt src c ∧ arr.Typed G.W.crate.heap
  keyed : ∀ q ∈ outs, G.cds q ≠ none → ∀ b ∈ bs, ∀ (i : Nat) arr keys values,
    ((outs.map G.sel.col).insertionSort (· ≤ ·))[i]? = some (G.sel.col q) →
    b.columns[i]? = some arr → arr.data = .dict keys values →
    G.sel.col q = G.owner values ∧
      ∀ vs, G.W.crate.heap values = .ok vs → ∀ k, some k ∈ keys.content → asUsizeKey k < vs.length

/-- The columns of an Arrow part have L types. -/
theorem roots_typed {set : FileSet} {sel : Sel} (hsel : Selected set sel) {outs : List Nat}
    (houts : ∀ q ∈ outs, q < sel.out.length) {src : Src} (hmem : src ∈ set.srcs) :
    ∀ c ∈ (outs.map sel.col).insertionSort (· ≤ ·), ∃ lt, lTypeOf (typeAt src c) = .ok lt := by
  intro c hc
  rw [List.mem_insertionSort] at hc
  obtain ⟨q, hq, rfl⟩ := List.mem_map.mp hc
  exact ⟨_, hsel.lt q (houts q hq) src hmem⟩

/-- The root columns of an Arrow part, in file order. -/
def rootsOf (sel : Sel) (outs : List Nat) : List Nat := (outs.map sel.col).insertionSort (· ≤ ·)

/-- Each position of an Arrow part stands beside the place of its column. -/
theorem arrow_places (set : FileSet) (sel : Sel) (outs : List Nat) :
    (arrowPart set sel outs).outs.zip (arrowPart set sel outs).bat =
      outs.map fun q => (q, (rootsOf sel outs).idxOf (sel.col q)) := by
  simp only [arrowPart, rootsOf, List.map_map]
  have hzip := List.zip_map' (f := fun q : Nat => q)
    (g := ((outs.map sel.col).insertionSort (· ≤ ·)).idxOf ∘ sel.col) (l := outs)
  rwa [List.map_id'] at hzip

theorem root_place {sel : Sel} {outs : List Nat} {q : Nat} (hq : q ∈ outs) :
    (rootsOf sel outs)[(rootsOf sel outs).idxOf (sel.col q)]? = some (sel.col q) := by
  apply List.getElem?_idxOf
  rw [rootsOf, List.mem_insertionSort]
  exact List.mem_map_of_mem hq

/-- Each position finds its column in the batch, with the type of the file. -/
theorem Ground.Batched.suits (hsel : Selected set G.sel) {outs : List Nat}
    (houts : ∀ q ∈ outs, q < G.sel.out.length) {src : Src} (hmem : src ∈ set.srcs) {bs : List Batch}
    (hbs : G.Batched set outs src bs) {b : Batch} (hb : b ∈ bs) {q : Nat} (hq : q ∈ outs) :
    ∃ arr, b.columns[(rootsOf G.sel outs).idxOf (G.sel.col q)]? = some arr ∧
      G.Suits q (typeAt src (G.sel.col q)) arr := by
  obtain ⟨arr, harr, hdt, hty⟩ := hbs.typed _ _ (root_place hq) b hb
  refine ⟨arr, harr, hdt, hty, hsel.lt q (houts q hq) src hmem, ?_⟩
  intro hne keys values hd
  exact hbs.keyed q hq hne b hb _ arr keys values (root_place hq) harr hd

/-- The batches of an Arrow part are stored, however many rows they have. -/
theorem arrow_stores (hplanned : G.Planned) {cds : Nat → Option Codes} (hcds : G.Runs cds) (hsel : Selected set G.sel)
    (hhandles : ∀ p < G.sel.out.length, ∀ q < G.sel.out.length, G.cols p = G.cols q → p = q)
    {outs : List Nat} (hnd : outs.Nodup) (houts : ∀ q ∈ outs, q < G.sel.out.length) {src : Src}
    (hmem : src ∈ set.srcs) {bs : List Batch} (hbs : G.Batched set outs src bs) {sy : SymCache}
    (hsy : (G.run cds).Sane sy) (off : Nat) (who : String) :
    ∃ acts sy', arrowLoop G.W G.sel G.cols who cds
        ((arrowPart set G.sel outs).outs.zip (arrowPart set G.sel outs).bat) (bs.map .ok) off sy =
          ((acts, .ok (off + (bs.map (·.num_rows)).sum)), sy') ∧ (G.run cds).Sane sy' ∧
      G.Lands acts outs off (bs.map (·.num_rows)).sum (fun q => typeAt src (G.sel.col q))
        fun q => bs.flatMap (batchRows G.W.crate.heap ·
          (((outs.map G.sel.col).insertionSort (· ≤ ·)).idxOf (G.sel.col q))) := by
  have hfst : (outs.map fun q => (q, (rootsOf G.sel outs).idxOf (G.sel.col q))).map Prod.fst = outs := by
    rw [List.map_map]
    exact List.map_id _
  have hvecs : ((outs.map fun q => (q, (rootsOf G.sel outs).idxOf (G.sel.col q))).map fun x =>
      G.cols x.1).Nodup := by
    rw [List.map_map, List.nodup_map_iff_inj_on hnd]
    exact fun p hp q hq he => hhandles p (houts p hp) q (houts q hq) he
  have hsuits : ∀ b ∈ bs, ∀ x ∈ outs.map fun q => (q, (rootsOf G.sel outs).idxOf (G.sel.col q)),
      ∃ arr, b.columns[x.2]? = some arr ∧
        G.Suits x.1 (typeAt src (G.sel.col x.1)) arr ∧
        batchRows G.W.crate.heap b ((rootsOf G.sel outs).idxOf (G.sel.col x.1)) =
          arr.content G.W.crate.heap := by
    intro b hb x hx
    obtain ⟨q, hq, rfl⟩ := List.mem_map.mp hx
    obtain ⟨arr, harr, hsuits⟩ := hbs.suits hsel houts hmem hb hq
    refine ⟨arr, harr, hsuits, ?_⟩
    unfold batchRows
    rw [harr]
    rfl
  obtain ⟨acts, sy', hloop, hsy', hland⟩ := arrowLoop_lands
    (fun q => typeAt src (G.sel.col q)) hplanned hcds who
    (fun b q => batchRows G.W.crate.heap b ((rootsOf G.sel outs).idxOf (G.sel.col q))) hvecs hsuits hsy off
  rw [hfst] at hland
  rw [arrow_places]
  exact ⟨acts, sy', hloop, hsy', hland⟩

/-- Batches with the types of their columns can be stored, when the arrays of a pair are its own and
its keys inside. -/
theorem Ground.batched_of {G : Ground} {set : FileSet}
    (howned : ∀ q, G.cds q ≠ none → Owned G.W G.owner set.srcs (G.sel.col q))
    (hinside : ∀ q, G.cds q ≠ none → KeysInside G.W set.srcs (G.sel.col q)) {g : Nat} {src : Src}
    (hmem : src ∈ set.srcs) {outs : List Nat} {bs : List Batch}
    (hbs : G.W.batches src ⟨(outs.map G.sel.col).insertionSort (· ≤ ·)⟩ g = .ok (bs.map .ok))
    (htyped : ∀ (i : Nat) c, ((outs.map G.sel.col).insertionSort (· ≤ ·))[i]? = some c → ∀ b ∈ bs,
      ∃ arr, b.columns[i]? = some arr ∧ arr.data_type = typeAt src c ∧ arr.Typed G.W.crate.heap) :
    G.Batched set outs src bs := by
  refine ⟨htyped, fun q hq hne b hb i arr keys values hidx harr hd => ?_⟩
  have hbrings : Brings G.W src g (G.sel.col q) keys values := ⟨_, bs, b, hb, i, arr, hbs, hidx, harr, hd⟩
  exact ⟨howned q hne src hmem g keys values hbrings, hinside q hne src hmem g keys values hbrings⟩

/-- What the crates bring for an Arrow part of a row group of the set. -/
theorem Ground.Fits.batched (hG : G.Fits set content Q) {outs : List Nat} (hnd : outs.Nodup)
    (houts : ∀ q ∈ outs, q < G.sel.out.length) {t : Task} (ht : InSet set t) {src : Src}
    (hsrc : set.srcs[t.f]? = some src) {bs : List Batch}
    (hbs : G.W.batches src ⟨(outs.map G.sel.col).insertionSort (· ≤ ·)⟩ t.g = .ok (bs.map .ok))
    (hsum : (bs.map (·.num_rows)).sum = t.rows) :
    G.Batched set outs src bs ∧ ∀ q ∈ outs, bs.flatMap (batchRows G.W.crate.heap ·
      ((rootsOf G.sel outs).idxOf (G.sel.col q))) = content src t.g (G.sel.col q) := by
  obtain ⟨s, n, hs, hn, hrows⟩ := ht
  cases hsrc.symm.trans hs
  have hmem : src ∈ set.srcs := List.mem_of_getElem? hsrc
  have hlts := roots_typed hG.selected houts hmem
  have htyped := hG.faithful.typed src hmem t.g n _ bs hn (arrowPart_roots hG.selected hnd houts)
    hlts hbs (hsum.trans hrows)
  exact ⟨G.batched_of hG.owned hG.inside hmem hbs fun i c hc => (htyped i c hc).1,
    fun q hq => (htyped _ _ (root_place hq)).2⟩

/-- The batches of an Arrow part land the rows of the row group, each column whole. -/
theorem arrow_lands (hG : G.Fits set content Q) {cds : Nat → Option Codes} (hcds : G.Runs cds)
    {outs : List Nat} (hnd : outs.Nodup) (houts : ∀ q ∈ outs, q < G.sel.out.length) {t : Task}
    (ht : InSet set t) {src : Src} (hsrc : set.srcs[t.f]? = some src) {bs : List Batch}
    (hbs : G.W.batches src ⟨(outs.map G.sel.col).insertionSort (· ≤ ·)⟩ t.g = .ok (bs.map .ok))
    (hsum : (bs.map (·.num_rows)).sum = t.rows) {sy : SymCache} (hsy : (G.run cds).Sane sy)
    (who : String) :
    ∃ acts sy', arrowLoop G.W G.sel G.cols who cds
        ((arrowPart set G.sel outs).outs.zip (arrowPart set G.sel outs).bat) (bs.map .ok) t.off sy =
          ((acts, .ok (t.off + t.rows)), sy') ∧ (G.run cds).Sane sy' ∧
      G.Lands acts outs t.off t.rows (fun q => typeAt src (G.sel.col q))
        fun q => content src t.g (G.sel.col q) := by
  obtain ⟨hbatched, hcontent⟩ := hG.batched hnd houts ht hsrc hbs hsum
  obtain ⟨acts, sy', hloop, hsy', hland⟩ := arrow_stores hG.toPlanned hcds hG.selected hG.handles hnd
    houts (List.mem_of_getElem? hsrc) hbatched hsy t.off who
  rw [hsum] at hloop hland
  refine ⟨acts, sy', hloop, hsy', hland.within, hland.gives, fun q hq => ?_⟩
  rw [← hcontent q hq]
  exact hland.lands q hq

/-- An Arrow task. -/
theorem arrow_done (hG : G.Fits set content Q) {cds : Nat → Option Codes} (hcds : G.Runs cds)
    {outs : List Nat} (hnd : outs.Nodup) (houts : ∀ q ∈ outs, q < G.sel.out.length) {t : Task}
    (ht : InSet set t) {sy sy' : SymCache} (hsy : (G.run cds).Sane sy) {acts : List Act}
    (h : one G.W G.sel G.cols who set (arrowPart set G.sel outs) cds t sy =
      ((acts, .ok ()), sy')) :
    (G.run cds).Sane sy' ∧ G.Done set content Q (arrowPart set G.sel outs) t acts := by
  obtain ⟨src, bs, hsrc, hbs, hsum, hloop⟩ := one_arrow_ok h
  obtain ⟨acts', sy1, hloop', hsy1, hland⟩ := arrow_lands hG hcds hnd houts ht hsrc hbs hsum hsy who
  cases hloop.symm.trans hloop'
  refine ⟨hsy1, ?_⟩
  have hfoot : ∀ {a q}, q ∈ outs → Rows (G.cols q) t.off t.rows a →
      G.Foot (arrowPart set G.sel outs) t a := fun hq ha => ⟨_, hq, ha⟩
  have hwithin : ∀ o ∈ storesOf acts, o.Within (G.Foot (arrowPart set G.sel outs) t) := by
    intro o ho
    obtain ⟨q, hq, h1, h2⟩ := hland.within o ho
    exact ⟨hfoot hq h1, fun a ha => hfoot hq (h2 a ha)⟩
  constructor
  case dst => exact fun o ho => (hwithin o ho).1
  case within => exact fun _ => hwithin
  case landed =>
    intro q hq _ m
    unfold Ground.Landed
    rw [foldl_exec_gives, foldl_exec_mem]
    rcases hland.lands q hq with hg | hl
    · exact Or.inl ⟨(hland.gives q hg).2, Or.inr hg⟩
    · refine Or.inr fun s hs j x hx => ?_
      cases hsrc.symm.trans hs
      exact hl m.mem j x hx

/-- A task of a read, in whatever part: when it succeeds, its columns have landed. -/
theorem one_done (hG : G.Fits set content Q) {cds : Nat → Option Codes} (hcds : G.Runs cds) {k : Nat}
    {part : Part} (hpart : part ∈ split set G.sel k) {t : Task} (ht : InSet set t) {sy sy' : SymCache}
    (hsy : (G.run cds).Sane sy) {acts : List Act}
    (h : one G.W G.sel G.cols who set part cds t sy = ((acts, .ok ()), sy')) :
    (G.run cds).Sane sy' ∧ G.Done set content Q part t acts := by
  rcases split_cases hpart with ⟨q, rt, rfl, _, _⟩ | ⟨outs, _, rfl, hnd, houts⟩
  · obtain ⟨rfl, hdone⟩ := raw_done hG ht h
    exact ⟨hsy, hdone⟩
  · exact arrow_done hG hcds hnd (fun q hq => (houts q hq).1) ht hsy h

/-- The files open, and every row group delivers exactly the rows that its footer counts. -/
structure Delivering (W : World) (srcs : List Src) : Prop where
  fopen : ∀ s ∈ srcs, W.fopen s = .ok ()
  tryClone : ∀ s ∈ srcs, W.tryClone s = .ok ()
  batches : ∀ s ∈ srcs, ∀ (g : Nat) n roots, s.rg_rows[g]? = some n → roots.Pairwise (· < ·) →
    (∀ c ∈ roots, ∃ lt, lTypeOf (typeAt s c) = .ok lt) →
    ∃ bs : List Batch, W.batches s ⟨roots⟩ g = .ok (bs.map .ok) ∧
      (bs.map (·.num_rows)).sum = asUsize n

/-- Over files that deliver their rows, a task succeeds. -/
theorem one_succeeds (hG : G.Fits set content Q) {cds : Nat → Option Codes} (hcds : G.Runs cds)
    (hQ : ∀ q rt, G.sel.rawAt q = some rt → Q q) (hD : Delivering G.W set.srcs) {k : Nat} {part : Part}
    (hpart : part ∈ split set G.sel k) {t : Task} (ht : InSet set t) {sy : SymCache}
    (hsy : (G.run cds).Sane sy) (who : String) :
    ∃ acts sy', one G.W G.sel G.cols who set part cds t sy = ((acts, .ok ()), sy') := by
  obtain ⟨src, n, hsrc, hn, hrows⟩ := ht
  have ht : InSet set t := ⟨src, n, hsrc, hn, hrows⟩
  have hmem : src ∈ set.srcs := List.mem_of_getElem? hsrc
  unfold one
  simp only [hsrc, hD.fopen src hmem]
  rcases split_cases hpart with ⟨q, rt, rfl, hq, hrt⟩ | ⟨outs, _, rfl, hnd, houts⟩
  · obtain ⟨l, _, hl, _⟩ := (hG.selected.raw q rt hrt).2 src hmem
    obtain ⟨os, hos, _⟩ := raw_lands hG (hQ q rt hrt) hrt ht hsrc hl who
    have hcol : rawColumns G.W G.sel G.cols who src t [q] = (os.map .store, .ok ()) := by
      simp only [rawColumns, rawColumn, hl, hrt, hos, if_true, List.append_nil]
    refine ⟨os.map .store, sy, ?_⟩
    simp only [reduceCtorEq, if_false, hD.tryClone src hmem, hcol, if_true]
  · have houts := fun q hq => (houts q hq).1
    have hlts := roots_typed hG.selected houts hmem
    obtain ⟨bs, hbs, hsum⟩ :=
      hD.batches src hmem t.g n _ hn (arrowPart_roots hG.selected hnd houts) hlts
    obtain ⟨acts, sy', hloop, _⟩ :=
      arrow_lands hG hcds hnd houts ht hsrc hbs (hsum.trans hrows.symm) hsy who
    refine ⟨acts, sy', ?_⟩
    have hraw : (arrowPart set G.sel outs).raw = [] := rfl
    have hmask : (arrowPart set G.sel outs).masks[t.f]? =
        some ⟨(outs.map G.sel.col).insertionSort (· ≤ ·)⟩ := by
      simp only [arrowPart, List.getElem?_map, hsrc, Option.map_some]
    rw [if_pos hraw]
    unfold arrowPass
    simp only [hmask, hbs, hloop, Nat.add_sub_cancel_left, if_true]

end

end parquet_interop.read
