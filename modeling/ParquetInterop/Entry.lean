-- The five exports, from the word that the host hands over to the call of the
-- reader or the writer. What a call asks for depends on the value alone, not on
-- the words that carry it.
import ParquetInterop.Options
import ParquetInterop.Window

open lib.reading
open parquet_interop.ffi parquet_interop.host parquet_interop.args parquet_interop.footer
open parquet_interop.read parquet_interop.write parquet_interop.options

namespace parquet_interop.entry

/-! ## The exports -/

/-- `meta::open`, as the caller it names sees it. -/
abbrev OpenSet : Type := List (String × String) → String → Except String FileSet

/-- The answer of a call that reads no word. -/
def answer {T : Type} (r : Except String T) : Reading T := ExceptT.mk (some r)

/-- What a read was asked for. -/
structure ReadArgs where
  files : List (String × String)
  cols : Option (List String)
  codes : Bool
  deriving DecidableEq

/-- The arguments of `read::read`. -/
structure ReadCall where
  set : FileSet
  sel : Sel
  g0 : Nat
  g1 : Nat
  codes : Bool

variable (m : Memory)

def pqMeta (openSet : OpenSet) (x : K) : Reading FileSet := do
  let fs ← filesOf m x "pq_meta"
  answer (openSet fs "pq_meta")

/-- `b.then(|| *v_k(x).add(i))`. -/
def thenAt (x : K) (i : Nat) (b : Bool) : Reading (Option K) :=
  if b then some <$> liftM (vK m x i) else pure none

/-- A file and its columns, of a general list. -/
def listArgs (x : K) (who : String) : Reading (List (String × String) × Option (List String)) := do
  let f ← liftM (vK m x 0)
  let fs ← filesOf m f who
  let c ← liftM (vK m x 1)
  let cs ← colsOf m c who
  pure (fs, cs)

/-- A file and its column, of a vector of two symbols. -/
def pairArgs (x : K) (who : String) : Reading (List (String × String) × Option (List String)) := do
  let b ← liftM (vS m x 1)
  let col ← ptrStr m b who
  let p ← liftM (vS m x 0)
  let s ← ptrStr m p who
  let path ← ptrPath m p who
  pure ([(s, path)], if col.isEmpty then none else some [col])

/-- Files alone. -/
def fileArgs (x : K) (who : String) : Reading (List (String × String) × Option (List String)) := do
  let fs ← filesOf m x who
  pure (fs, none)

/-- The files and the columns, by the shape of the argument: a general list of two or three, a
vector of two symbols, or another. -/
def readParts (x : K) (gen two : Bool) (who : String) :
    Reading (List (String × String) × Option (List String)) :=
  if gen then listArgs m x who
  else if two then do
    let pair ← collapsedPair m x who
    if pair then pairArgs m x who else fileArgs m x who
  else fileArgs m x who

/-- The options first, then the files and the columns. -/
def readShape (x : K) (gen three two : Bool) (who : String) : Reading ReadArgs := do
  let w ← thenAt m x 2 three
  let codes ← rdOpts m w who
  let fc ← readParts m x gen two who
  pure ⟨fc.1, fc.2, codes⟩

/-- `pq_read` up to the call of `open`. -/
def pqReadArgs (x : K) : Reading ReadArgs := do
  let t ← liftM (kt m x)
  let n ← liftM (kn m x)
  let gen := t == 0 && (n == 2 || n == 3)
  readShape m x gen (gen && n == 3) (t == LType.KS.tag && n == 2) "pq_read"

def pqRead (openSet : OpenSet) (x : K) : Reading ReadCall := do
  let a ← pqReadArgs m x
  let set ← answer (openSet a.files "pq_read")
  let sel ← answer (select set a.cols "pq_read")
  pure ⟨set, sel, 0, set.nRg, a.codes⟩

/-- The check of a window. -/
def windowCall (set : FileSet) (sel : Sel) (codes : Bool) (lo hi : Int64) : Except String ReadCall :=
  let ng := Int64.ofNat set.nRg
  if lo < 0 ∨ hi < lo ∨ ng < hi then
    .error s!"pq_rg: [{lo.toInt},{hi.toInt}) of {ng.toInt} row groups"
  else .ok ⟨set, sel, lo.toInt.toNat, hi.toInt.toNat, codes⟩

def pqRg (openSet : OpenSet) (x : K) : Reading ReadCall := do
  let n ← liftM (kn m x)
  let t ← liftM (kt m x)
  if t ≠ 0 ∨ (n ≠ 4 ∧ n ≠ 5) then
    throw "pq_rg: (files;cols;lo;hi) or (files;cols;lo;hi;opts) expected"
  else do
    let w ← thenAt m x 4 (n == 5)
    let codes ← rdOpts m w "pq_rg"
    let f ← liftM (vK m x 0)
    let fs ← filesOf m f "pq_rg"
    let set ← answer (openSet fs "pq_rg")
    let c ← liftM (vK m x 1)
    let want ← colsOf m c "pq_rg"
    let sel ← answer (select set want "pq_rg")
    let l ← liftM (vK m x 2)
    let lo ← longOf m l "pq_rg"
    let h ← liftM (vK m x 3)
    let hi ← longOf m h "pq_rg"
    answer (windowCall set sel codes lo hi)

/-- `pq_write` up to the columns of the table: the path and the options. The word of the table is
checked here and not handed on. -/
def pqWrite (L : Levels) (x : K) : Reading (String × Opts) := do
  let n ← liftM (kn m x)
  let t ← liftM (kt m x)
  if t ≠ 0 ∨ (n ≠ 2 ∧ n ≠ 3) then throw "pq_write: (table;path) or (table;path;opts) expected"
  else do
    let tbl ← liftM (vK m x 0)
    let pw ← liftM (vK m x 1)
    let w ← thenAt m x 2 (n == 3)
    let path ← symPath m pw "pq_write"
    let o ← parseOpts L m w
    let tt ← liftM (kt m tbl)
    if tt ≠ XT then throw "pq_write: not a table" else pure (path, o)

/-- `pq_stream` up to the call of `stream_table`: the two paths. -/
def pqStream (x : K) : Reading (String × String) := do
  let f ← filesOf m x "pq_stream"
  match f with
  | [src, dst] => pure (src.2, dst.2)
  | _ => throw "pq_stream: (src;dst) expected"

/-! ## What a value asks for -/

def metaCall (openSet : OpenSet) (q : Q) : Except String FileSet := do
  let fs ← files "pq_meta" q
  openSet fs "pq_meta"

def optIn : Q → Option Q
  | .list [_, _, o] => some o
  | _ => none

/-- The files and the columns of a read. -/
def partsIn (who : String) : Q → Except String (List (String × String) × Option (List String))
  | .list [f, c] | .list [f, c, _] => do
    let fs ← files who f
    let cs ← cols who c
    .ok (fs, cs)
  | .syms [a, b] => do
    let ta ← text who a
    let tb ← text who b
    if tb.isEmpty || isHsym ta && !isHsym tb then
      .ok ([(ta, pathOf ta)], if tb.isEmpty then none else some [tb])
    else .ok ([(ta, pathOf ta), (tb, pathOf tb)], none)
  | q => do
    let fs ← files who q
    .ok (fs, none)

def readArgs (q : Q) : Except String ReadArgs := do
  let codes ← codesOf "pq_read" (optIn q)
  let fc ← partsIn "pq_read" q
  .ok ⟨fc.1, fc.2, codes⟩

def readCall (openSet : OpenSet) (q : Q) : Except String ReadCall := do
  let a ← readArgs q
  let set ← openSet a.files "pq_read"
  let sel ← select set a.cols "pq_read"
  .ok ⟨set, sel, 0, set.nRg, a.codes⟩

def rgWindow (openSet : OpenSet) (f c lo hi : Q) (o : Option Q) : Except String ReadCall := do
  let codes ← codesOf "pq_rg" o
  let fs ← files "pq_rg" f
  let set ← openSet fs "pq_rg"
  let want ← cols "pq_rg" c
  let sel ← select set want "pq_rg"
  let lo ← long "pq_rg" lo
  let hi ← long "pq_rg" hi
  windowCall set sel codes lo hi

def rgCall (openSet : OpenSet) : Q → Except String ReadCall
  | .list [f, c, lo, hi] => rgWindow openSet f c lo hi none
  | .list [f, c, lo, hi, o] => rgWindow openSet f c lo hi (some o)
  | _ => .error "pq_rg: (files;cols;lo;hi) or (files;cols;lo;hi;opts) expected"

def writeParts (L : Levels) (tbl path : Q) (o : Option Q) : Except String (String × Opts) := do
  let p ← args.path "pq_write" path
  let o ← optsIn L o
  if tbl.kt ≠ XT then .error "pq_write: not a table" else .ok (p, o)

def writeCall (L : Levels) : Q → Except String (String × Opts)
  | .list [tbl, path] => writeParts L tbl path none
  | .list [tbl, path, o] => writeParts L tbl path (some o)
  | _ => .error "pq_write: (table;path) or (table;path;opts) expected"

def streamCall (q : Q) : Except String (String × String) := do
  let f ← files "pq_stream" q
  match f with
  | [src, dst] => .ok (src.2, dst.2)
  | _ => .error "pq_stream: (src;dst) expected"

/-! ## The words of a value ask for what the value does -/

variable {m : Memory} {x : K} {q : Q}

theorem gives_answer {T : Type} (r : Except String T) : Gives (answer r) r := rfl

/-- The slot of a list that is there. -/
theorem thenAt_slot {β : Type} {k : Option K → Reading β} {xs : List Q} {i : Nat} {o : Q}
    {r : Except String β} (h : Value m x (.list xs)) (ho : xs[i]? = some o)
    (hk : ∀ y, Value m y o → Gives (k (some y)) r) : Gives (thenAt m x i true >>= k) r := by
  obtain ⟨y, hy, hval⟩ := value_slot h ho
  exact ((gives_read hy).map some).goes (hk y hval)

theorem pqMeta_value (openSet : OpenSet) (h : Value m x q) :
    Gives (pqMeta m openSet x) (metaCall openSet q) :=
  (filesOf_value "pq_meta" h).bind fun _ _ => gives_answer _

theorem pqStream_value (h : Value m x q) : Gives (pqStream m x) (streamCall q) := by
  refine (filesOf_value "pq_stream" h).bind fun f _ => ?_
  split
  · exact gives_pure _
  · exact gives_throw _

theorem listArgs_value {f c : Q} {xs : List Q} (who : String) (h : Value m x (.list (f :: c :: xs))) :
    Gives (listArgs m x who) (do
      let fs ← files who f
      let cs ← cols who c
      .ok (fs, cs)) := by
  obtain ⟨wf, hwf, hf⟩ := value_slot h (i := 0) rfl
  obtain ⟨wc, hwc, hc⟩ := value_slot h (i := 1) rfl
  refine Gives.read hwf ((filesOf_value who hf).bind fun fs _ => ?_)
  exact Gives.read hwc ((colsOf_value who hc).bind fun cs _ => gives_pure _)

theorem fileArgs_value (who : String) (h : Value m x q) :
    Gives (fileArgs m x who) (do
      let fs ← files who q
      .ok (fs, none)) :=
  (filesOf_value who h).bind fun _ _ => gives_pure _

/-- The two texts of a vector of two symbols, and whether the second is a column. -/
theorem pairArgs_value {a b : Sym} (who : String) (h : Value m x (.syms [a, b])) :
    Gives (do
      let pair ← collapsedPair m x who
      if pair then pairArgs m x who else fileArgs m x who) (partsIn who (.syms [a, b])) := by
  obtain ⟨pa, hpa, ha⟩ := value_text h (i := 0) rfl
  obtain ⟨pb, hpb, hb⟩ := value_text h (i := 1) rfl
  have hta := ptrStr_text who ha
  have htb := ptrStr_text who hb
  have hfiles := fileArgs_value who h
  simp only [files, texts, List.mapM_cons, List.mapM_nil] at hfiles
  cases hea : text who a with
  | error e =>
    rw [hea] at hta
    have hpair : Gives (collapsedPair m x who) (.error e) := Gives.read hpa hta.fails
    simp only [partsIn, hea]
    exact hpair.fails
  | ok ta =>
    rw [hea] at hta hfiles
    cases heb : text who b with
    | error e =>
      rw [heb] at htb
      have hpair : Gives (collapsedPair m x who) (.error e) :=
        Gives.read hpa (hta.goes (Gives.read hpb htb.fails))
      simp only [partsIn, hea, heb]
      exact hpair.fails
    | ok tb =>
      rw [heb] at htb hfiles
      have hpair : Gives (collapsedPair m x who) (.ok (tb.isEmpty || isHsym ta && !isHsym tb)) :=
        Gives.read hpa (hta.goes (Gives.read hpb (htb.goes (gives_pure _))))
      simp only [partsIn, hea, heb]
      refine hpair.goes ?_
      show Gives _ (if _ then _ else _)
      cases tb.isEmpty || isHsym ta && !isHsym tb with
      | false => exact hfiles
      | true =>
        refine Gives.read hpb (htb.goes (Gives.read hpa (hta.goes ?_)))
        exact (hta.bind_pure pathOf).goes (gives_pure _)

/-- An argument that is files alone. -/
theorem readShape_files (h : Value m x q) (hopt : optIn q = none)
    (hparts : partsIn "pq_read" q = do
      let fs ← files "pq_read" q
      .ok (fs, none)) : Gives (readShape m x false false false "pq_read") (readArgs q) := by
  unfold readArgs
  rw [hopt, hparts]
  refine Gives.goes (gives_pure none) ?_
  refine (rdOpts_value "pq_read" (.inl ⟨rfl, rfl⟩)).bind fun codes _ => ?_
  exact (fileArgs_value "pq_read" h).bind fun fc _ => gives_pure _

theorem readShape_list {f c : Q} (h : Value m x (.list [f, c])) :
    Gives (readShape m x true false false "pq_read") (readArgs (.list [f, c])) := by
  refine Gives.goes (gives_pure none) ?_
  refine (rdOpts_value "pq_read" (.inl ⟨rfl, rfl⟩)).bind fun codes _ => ?_
  exact (listArgs_value "pq_read" h).bind fun fc _ => gives_pure _

theorem readShape_opts {f c o : Q} (h : Value m x (.list [f, c, o])) :
    Gives (readShape m x true true false "pq_read") (readArgs (.list [f, c, o])) := by
  refine thenAt_slot h rfl fun y hy => ?_
  refine (rdOpts_value "pq_read" (.inr ⟨y, o, rfl, rfl, hy⟩)).bind fun codes _ => ?_
  exact (listArgs_value "pq_read" h).bind fun fc _ => gives_pure _

theorem readShape_pair {a b : Sym} (h : Value m x (.syms [a, b])) :
    Gives (readShape m x false false true "pq_read") (readArgs (.syms [a, b])) := by
  refine Gives.goes (gives_pure none) ?_
  refine (rdOpts_value "pq_read" (.inl ⟨rfl, rfl⟩)).bind fun codes _ => ?_
  exact (pairArgs_value "pq_read" h).bind fun fc _ => gives_pure _

theorem pqReadArgs_value (h : Value m x q) : Gives (pqReadArgs m x) (readArgs q) := by
  obtain ⟨n, hn, hcount⟩ := value_kn h
  refine Gives.read (value_kt h) (Gives.read hn ?_)
  by_cases hlist : q.kt = 0
  · obtain ⟨xs, rfl⟩ := kt_list h hlist
    obtain rfl : n = xs.length := hcount _ rfl
    match xs, h with
    | [f, c], h => exact readShape_list h
    | [f, c, o], h => exact readShape_opts h
    | [], h => exact readShape_files h rfl rfl
    | [_], h => exact readShape_files h rfl rfl
    | _ :: _ :: _ :: _ :: _, h => exact readShape_files h rfl rfl
  by_cases hvec : q.kt = LType.KS.tag
  · obtain ⟨xs, rfl⟩ := kt_syms h hvec
    obtain rfl : n = xs.length := hcount _ rfl
    match xs, h with
    | [a, b], h => exact readShape_pair h
    | [], h => exact readShape_files h rfl rfl
    | [_], h => exact readShape_files h rfl rfl
    | _ :: _ :: _ :: _, h => exact readShape_files h rfl rfl
  · have hshape : (q.kt == 0) = false ∧ (q.kt == LType.KS.tag) = false :=
      ⟨beq_false_of_ne hlist, beq_false_of_ne hvec⟩
    simp only [hshape, Bool.false_and]
    apply readShape_files h
    · cases q with
      | list xs => exact absurd rfl hlist
      | _ => rfl
    · cases q with
      | list xs => exact absurd rfl hlist
      | syms xs => exact absurd rfl hvec
      | _ => rfl

theorem pqRead_value (openSet : OpenSet) (h : Value m x q) :
    Gives (pqRead m openSet x) (readCall openSet q) := by
  refine (pqReadArgs_value h).bind fun a _ => ?_
  refine (gives_answer _).bind fun set _ => ?_
  exact (gives_answer _).bind fun sel _ => gives_pure _

theorem rgWindow_value {xs : List Q} (openSet : OpenSet) {f c lo hi : Q} {w : Option K} {o : Option Q}
    (h : Value m x (.list (f :: c :: lo :: hi :: xs)))
    (ho : (w = none ∧ o = none) ∨ ∃ y q, w = some y ∧ o = some q ∧ Value m y q) :
    Gives (do
      let codes ← rdOpts m w "pq_rg"
      let f ← liftM (vK m x 0)
      let fs ← filesOf m f "pq_rg"
      let set ← answer (openSet fs "pq_rg")
      let c ← liftM (vK m x 1)
      let want ← colsOf m c "pq_rg"
      let sel ← answer (select set want "pq_rg")
      let l ← liftM (vK m x 2)
      let lo ← longOf m l "pq_rg"
      let h ← liftM (vK m x 3)
      let hi ← longOf m h "pq_rg"
      answer (windowCall set sel codes lo hi)) (rgWindow openSet f c lo hi o) := by
  obtain ⟨wf, hwf, hf⟩ := value_slot h (i := 0) rfl
  obtain ⟨wc, hwc, hc⟩ := value_slot h (i := 1) rfl
  obtain ⟨wl, hwl, hl⟩ := value_slot h (i := 2) rfl
  obtain ⟨wh, hwh, hh⟩ := value_slot h (i := 3) rfl
  refine (rdOpts_value "pq_rg" ho).bind fun codes _ => ?_
  refine Gives.read hwf ((filesOf_value "pq_rg" hf).bind fun fs _ => ?_)
  refine (gives_answer _).bind fun set _ => ?_
  refine Gives.read hwc ((colsOf_value "pq_rg" hc).bind fun want _ => ?_)
  refine (gives_answer _).bind fun sel _ => ?_
  refine Gives.read hwl ((longOf_value "pq_rg" hl).bind fun lo _ => ?_)
  exact Gives.read hwh ((longOf_value "pq_rg" hh).bind fun hi _ => gives_answer _)

theorem pqRg_value (openSet : OpenSet) (h : Value m x q) : Gives (pqRg m openSet x) (rgCall openSet q) := by
  obtain ⟨n, hn, hcount⟩ := value_kn h
  refine Gives.read hn (Gives.read (value_kt h) ?_)
  by_cases hlist : q.kt = 0
  · obtain ⟨xs, rfl⟩ := kt_list h hlist
    obtain rfl : n = xs.length := hcount _ rfl
    match xs, h with
    | [f, c, lo, hi], h => exact rgWindow_value openSet h (.inl ⟨rfl, rfl⟩)
    | [f, c, lo, hi, o], h =>
      refine thenAt_slot h (i := 4) rfl fun y hy => ?_
      exact rgWindow_value openSet h (.inr ⟨y, o, rfl, rfl, hy⟩)
    | [], _ => exact gives_throw _
    | [_], _ => exact gives_throw _
    | [_, _], _ => exact gives_throw _
    | [_, _, _], _ => exact gives_throw _
    | _ :: _ :: _ :: _ :: _ :: _ :: _, _ =>
      rw [if_pos (by simp)]
      exact gives_throw _
  · rw [if_pos (.inl hlist)]
    cases q with
    | list xs => exact absurd rfl hlist
    | _ => exact gives_throw _

theorem writeParts_value {xs : List Q} (L : Levels) {tbl p : Q} {w : Option K} {o : Option Q}
    (h : Value m x (.list (tbl :: p :: xs)))
    (ho : (w = none ∧ o = none) ∨ ∃ y q, w = some y ∧ o = some q ∧ Value m y q) :
    ∃ tw pw, vK m x 0 = some tw ∧ vK m x 1 = some pw ∧ Gives (do
      let path ← symPath m pw "pq_write"
      let o ← parseOpts L m w
      let tt ← liftM (kt m tw)
      if tt ≠ XT then throw "pq_write: not a table" else pure (path, o)) (writeParts L tbl p o) := by
  obtain ⟨tw, htw, ht⟩ := value_slot h (i := 0) rfl
  obtain ⟨pw, hpw, hp⟩ := value_slot h (i := 1) rfl
  refine ⟨tw, pw, htw, hpw, ?_⟩
  refine (symPath_value "pq_write" hp).bind fun path _ => ?_
  refine (parseOpts_value ho).bind fun o _ => Gives.read (value_kt ht) ?_
  split
  · exact gives_throw _
  · exact gives_pure _

theorem pqWrite_value (L : Levels) (h : Value m x q) : Gives (pqWrite m L x) (writeCall L q) := by
  obtain ⟨n, hn, hcount⟩ := value_kn h
  refine Gives.read hn (Gives.read (value_kt h) ?_)
  by_cases hlist : q.kt = 0
  · obtain ⟨xs, rfl⟩ := kt_list h hlist
    obtain rfl : n = xs.length := hcount _ rfl
    match xs, h with
    | [tbl, p], h =>
      obtain ⟨tw, pw, htw, hpw, hparts⟩ := writeParts_value L h (.inl ⟨rfl, rfl⟩)
      exact Gives.read htw (Gives.read hpw hparts)
    | [tbl, p, o], h =>
      obtain ⟨tw, htw, _⟩ := value_slot h (i := 0) rfl
      obtain ⟨pw, hpw, _⟩ := value_slot h (i := 1) rfl
      refine Gives.read htw (Gives.read hpw (thenAt_slot h (i := 2) rfl fun y hy => ?_))
      obtain ⟨tw', pw', htw', hpw', hparts⟩ := writeParts_value L h (.inr ⟨y, o, rfl, rfl, hy⟩)
      obtain rfl : tw = tw' := Option.some.inj (htw.symm.trans htw')
      obtain rfl : pw = pw' := Option.some.inj (hpw.symm.trans hpw')
      exact hparts
    | [], _ => exact gives_throw _
    | [_], _ => exact gives_throw _
    | _ :: _ :: _ :: _ :: _, _ =>
      rw [if_pos (by simp)]
      exact gives_throw _
  · rw [if_pos (.inl hlist)]
    cases q with
    | list xs => exact absurd rfl hlist
    | _ => exact gives_throw _

/-! ## The window of a read -/

/-- `open`: every file is loaded, and they agree on one schema. `c` is the cache that the loads
find. -/
def openFiles (c : List Entry) (look : String → Except String OpenFile) : OpenSet := fun fs who =>
  if fs.isEmpty then .error s!"{who}: no files"
  else do
    let srcs ← fs.mapM fun f => (load c f.1 f.2 (look f.2) who).1
    agree srcs who

theorem parse_sameOk (f : OpenFile) (path who whom : String) :
    SameOk (parse f path who) (parse f path whom) := by
  unfold parse
  cases f.parsed with
  | error e => exact sameOk_errors _ _
  | ok base =>
    dsimp only
    split
    · exact sameOk_errors _ _
    · exact .refl _

theorem load_sameOk (c : List Entry) (orig path : String) (f : Except String OpenFile) (who whom : String) :
    SameOk (load c orig path f who).1 (load c orig path f whom).1 := by
  unfold load
  cases f with
  | error e => exact sameOk_errors _ _
  | ok f =>
    dsimp only
    cases lookup c f.key with
    | some ec => exact .refl _
    | none =>
      dsimp only
      have hparse := parse_sameOk f path who whom
      cases hp : parse f path who with
      | ok e =>
        rw [(hparse e).mp hp]
        exact .refl _
      | error e =>
        cases hp' : parse f path whom with
        | ok e' =>
          rw [(hparse e').mpr hp'] at hp
          cases hp
        | error e' => exact sameOk_errors _ _

theorem agree_sameOk (srcs : List Src) (who whom : String) : SameOk (agree srcs who) (agree srcs whom) := by
  unfold agree
  cases srcs with
  | nil => exact sameOk_errors _ _
  | cons s0 rest =>
    dsimp only
    split
    · exact sameOk_errors _ _
    · exact .refl _

/-- Who asks is in the messages alone. -/
theorem openFiles_sameOk (c : List Entry) (look : String → Except String OpenFile)
    (fs : List (String × String)) (who whom : String) :
    SameOk (openFiles c look fs who) (openFiles c look fs whom) := by
  unfold openFiles
  split
  · exact sameOk_errors _ _
  · have hload : ∀ f : String × String, SameOk (load c f.1 f.2 (look f.2) who).1
        (load c f.1 f.2 (look f.2) whom).1 := fun f => load_sameOk c f.1 f.2 (look f.2) who whom
    exact (sameOk_mapM hload fs).bind fun srcs => agree_sameOk srcs who whom

theorem text_sameOk (s : Sym) (who whom : String) : SameOk (text who s) (text whom s) := by
  unfold text
  cases utf8Of s.bytes with
  | none => exact sameOk_errors _ _
  | some t => exact .refl _

theorem texts_sameOk (q : Q) (who whom what : String) : SameOk (texts who what q) (texts whom what q) := by
  cases q with
  | sym s => exact (text_sameOk s who whom).map _
  | syms xs => exact sameOk_mapM (fun s => text_sameOk s who whom) xs
  | list xs =>
    refine sameOk_mapM (fun e => ?_) xs
    cases e with
    | sym s => exact text_sameOk s who whom
    | _ => exact sameOk_errors _ _
  | _ => exact sameOk_errors _ _

theorem codesOf_sameOk (o : Option Q) (who whom : String) : SameOk (codesOf who o) (codesOf whom o) := by
  cases o with
  | none => exact .refl _
  | some q =>
    have hturn : ∀ b e, SameOk (optTurn s!"{who}: symbol utf8" (codesStep who) b e)
        (optTurn s!"{whom}: symbol utf8" (codesStep whom) b e) := by
      intro b e
      unfold optTurn
      cases utf8Of e.1.bytes with
      | none => exact sameOk_errors _ _
      | some k =>
        dsimp only
        unfold codesStep
        split
        · cases e.2 with
          | bool b => exact .refl _
          | _ => exact sameOk_errors _ _
        · exact sameOk_errors _ _
    cases q with
    | dict keys vals =>
      cases keys with
      | syms ks => exact sameOk_foldlM hturn false _
      | _ =>
        unfold codesOf optsOf
        dsimp only
        split
        · exact .refl _
        · exact sameOk_errors _ _
    | _ => exact sameOk_errors _ _

theorem outOf_sameOk (set : FileSet) (ns : List String) (who whom : String) :
    SameOk (outOf set who ns) (outOf set whom ns) := by
  induction ns with
  | nil => exact .refl _
  | cons n ns ih =>
    unfold outOf
    split
    · exact ih.map _
    · exact sameOk_errors _ _

theorem select_sameOk (set : FileSet) (want : Option (List String)) (who whom : String) :
    SameOk (select set want who) (select set want whom) := by
  have hwanted : SameOk (wanted set who want) (wanted set whom want) := by
    cases want with
    | none => exact .refl _
    | some w => exact outOf_sameOk set w who whom
  unfold select
  cases hw : wanted set who want with
  | ok out =>
    rw [(hwanted out).mp hw]
    dsimp only
    cases ltsOf set out with
    | error e => exact sameOk_errors _ _
    | ok lts =>
      dsimp only
      split
      · exact sameOk_errors _ _
      · exact .refl _
  | error e =>
    cases hw' : wanted set whom want with
    | ok out =>
      rw [(hwanted out).mpr hw'] at hw
      cases hw
    | error e' => exact sameOk_errors _ _

theorem bind_ok {α β : Type} {r : Except String α} {f : α → Except String β} {b : β} :
    (r >>= f) = .ok b ↔ ∃ a, r = .ok a ∧ f a = .ok b := by
  cases r with
  | ok a =>
    constructor
    · intro h
      exact ⟨a, rfl, h⟩
    · rintro ⟨a', ha, h⟩
      cases ha
      exact h
  | error e =>
    constructor
    · intro h
      cases h
    · rintro ⟨a', ha, _⟩
      cases ha

theorem windowCall_ok {set : FileSet} {sel : Sel} {codes : Bool} {lo hi : Int64} {call : ReadCall} :
    windowCall set sel codes lo hi = .ok call ↔ 0 ≤ lo ∧ lo ≤ hi ∧ hi ≤ Int64.ofNat set.nRg ∧
      call = ⟨set, sel, lo.toInt.toNat, hi.toInt.toNat, codes⟩ := by
  unfold windowCall
  dsimp only
  split
  · rename_i hbad
    refine iff_of_false (by simp) ?_
    rintro ⟨h1, h2, h3, _⟩
    rcases hbad with h | h | h
    · exact Int64.not_lt.mpr h1 h
    · exact Int64.not_lt.mpr h2 h
    · exact Int64.not_lt.mpr h3 h
  · rename_i hgood
    simp only [not_or, Int64.not_lt] at hgood
    rw [Except.ok.injEq]
    exact ⟨fun h => ⟨hgood.1, hgood.2.1, hgood.2.2, h.symm⟩, fun h => h.2.2.2.symm⟩

theorem long_ok {who : String} {q : Q} {v : Int64} : long who q = .ok v ↔ q.asLong = some v := by
  unfold long
  cases q.asLong <;> simp

theorem files_sameOk (q : Q) (who whom : String) : SameOk (files who q) (files whom q) :=
  (texts_sameOk q who whom _).map _

theorem cols_sameOk (q : Q) (who whom : String) : SameOk (cols who q) (cols whom q) :=
  (texts_sameOk q who whom _).map _

/-- A window of a value is asked for just when the read of all is, and the window lies in it. -/
theorem rgWindow_read (c : List Entry) (look : String → Except String OpenFile) (f cl lo hi : Q)
    (o : Option Q) {rest : List Q} (hrest : optIn (.list (f :: cl :: rest)) = o) (hlen : rest.length ≤ 1)
    (call : ReadCall) :
    rgWindow (openFiles c look) f cl lo hi o = .ok call ↔
      ∃ all l h, readCall (openFiles c look) (.list (f :: cl :: rest)) = .ok all ∧
        lo.asLong = some l ∧ hi.asLong = some h ∧ 0 ≤ l ∧ l ≤ h ∧ h ≤ Int64.ofNat all.g1 ∧
        call = { all with g0 := l.toInt.toNat, g1 := h.toInt.toNat } := by
  have hparts : partsIn "pq_read" (.list (f :: cl :: rest)) = (do
      let fs ← files "pq_read" f
      let cs ← cols "pq_read" cl
      .ok (fs, cs)) := by
    match rest, hlen with
    | [], _ => rfl
    | [_], _ => rfl
  have hopen := fun fs => openFiles_sameOk c look fs "pq_rg" "pq_read"
  simp only [rgWindow, readCall, readArgs, hparts, hrest, bind_ok, windowCall_ok, long_ok]
  constructor
  · rintro ⟨codes, hcodes, fs, hfs, set, hset, want, hwant, sel, hsel, l, hl, h, hh, h0, hle, hng, rfl⟩
    have hcodes := (codesOf_sameOk o "pq_rg" "pq_read" codes).mp hcodes
    have hfs := (files_sameOk f "pq_rg" "pq_read" fs).mp hfs
    have hset := (hopen fs set).mp hset
    have hwant := (cols_sameOk cl "pq_rg" "pq_read" want).mp hwant
    have hsel := (select_sameOk set want "pq_rg" "pq_read" sel).mp hsel
    exact ⟨⟨set, sel, 0, set.nRg, codes⟩, l, h,
      ⟨⟨fs, want, codes⟩, ⟨codes, hcodes, (fs, want), ⟨fs, hfs, want, hwant, rfl⟩, rfl⟩, set, hset, sel,
        hsel, rfl⟩, hl, hh, h0, hle, hng, rfl⟩
  · rintro ⟨all, l, h,
      ⟨a, ⟨codes, hcodes, fc, ⟨fs, hfs, want, hwant, hfc⟩, ha⟩, set, hset, sel, hsel, hall⟩,
      hl, hh, h0, hle, hng, rfl⟩
    cases hfc
    cases ha
    cases hall
    have hcodes := (codesOf_sameOk o "pq_rg" "pq_read" codes).mpr hcodes
    have hfs := (files_sameOk f "pq_rg" "pq_read" fs).mpr hfs
    have hset := (hopen fs set).mpr hset
    have hwant := (cols_sameOk cl "pq_rg" "pq_read" want).mpr hwant
    have hsel := (select_sameOk set want "pq_rg" "pq_read" sel).mpr hsel
    exact ⟨codes, hcodes, fs, hfs, set, hset, want, hwant, sel, hsel, l, hl, h, hh, h0, hle, hng, rfl⟩

/-! ## The laws -/

/-- What an export asks for is a matter of the value alone. However its words carry the value, a
long inline or in a cell, a narrow atom with anything above its bits, options in a list or in a
typed vector, every export reads its argument within what the host keeps, at the widths that the
host filled, and comes to the call or the error of that value. -/
theorem the_words_ask_for_what_the_value_does (m : Memory) (x : K) (q : Q) (h : Value m x q)
    (openSet : OpenSet) (L : Levels) :
    Gives (pqMeta m openSet x) (metaCall openSet q) ∧ Gives (pqRead m openSet x) (readCall openSet q) ∧
      Gives (pqRg m openSet x) (rgCall openSet q) ∧ Gives (pqWrite m L x) (writeCall L q) ∧
      Gives (pqStream m x) (streamCall q) :=
  ⟨pqMeta_value openSet h, pqRead_value openSet h, pqRg_value openSet h, pqWrite_value L h,
    pqStream_value h⟩

def tFile : Q := .sym ⟨[58, 116]⟩

def tColumn : Q := .syms [⟨[116]⟩]

def codesOpt : Q := .dict (.syms [⟨[99, 111, 100, 101, 115]⟩]) (.bools [true])

theorem tColumn_value : Value callMemory 2 tColumn := .syms (by decide) rfl (.cons rfl .nil)

theorem codesOpt_value : Value callMemory 4 codesOpt := by
  have hkeys : Value callMemory 5 (.syms [⟨[99, 111, 100, 101, 115]⟩]) :=
    .syms (by decide) rfl (.cons rfl .nil)
  have hvals : Value callMemory 6 (.bools [true]) := .bools (by decide) rfl (.cons (by decide) .nil)
  exact .dict (by decide) rfl rfl rfl hkeys hvals

/-- The window from 1 to 2. The one bound is an inline long, and the other an int. -/
def tWindow : Q := .list [tFile, tColumn, .long 1, .int 2, codesOpt]

theorem tWindow_value : Value callMemory 1 tWindow := by
  refine value_list (by decide) rfl (.cons ?_ (.cons tColumn_value (.cons ?_ (.cons ?_
    (.cons codesOpt_value .nil)))))
  · exact .sym (by decide) rfl
  · exact .inline (by decide) (by decide)
  · exact .int (by decide) (by decide)

/-- One file of two row groups. -/
def tSet : FileSet := ⟨[stampFile "t" .nanosecond [2, 1]], ["t"], [.ok .KP]⟩

theorem a_window_is_read_out_of_its_words : ∃ sel,
    Gives (pqRg callMemory (fun _ _ => .ok tSet) 1) (.ok ⟨tSet, sel, 1, 2, true⟩) :=
  ⟨_, (the_words_ask_for_what_the_value_does callMemory 1 tWindow tWindow_value (fun _ _ => .ok tSet)
    ⟨fun _ => true, fun _ => true⟩).2.2.1⟩

/-- What the three spellings of a pair of symbols ask for. -/
theorem readArgs_pair {a b : Sym} {ta tb : String} (ha : utf8Of a.bytes = some ta)
    (hb : utf8Of b.bytes = some tb) :
    readArgs (.syms [a, b]) = .ok
      (if tb.isEmpty || isHsym ta && !isHsym tb then
        ⟨[(ta, pathOf ta)], if tb.isEmpty then none else some [tb], false⟩
      else ⟨[(ta, pathOf ta), (tb, pathOf tb)], none, false⟩) ∧
    readArgs (.list [.sym a, .syms [b]]) = .ok
      ⟨[(ta, pathOf ta)], if tb.isEmpty then none else some [tb], false⟩ ∧
    readArgs (.list [.syms [a, b], .syms []]) = .ok
      ⟨[(ta, pathOf ta), (tb, pathOf tb)], none, false⟩ := by
  have hta : text "pq_read" a = .ok ta := by rw [text, ha]
  have htb : text "pq_read" b = .ok tb := by rw [text, hb]
  have hfiles : files "pq_read" (.syms [a, b]) = .ok [(ta, pathOf ta), (tb, pathOf tb)] := by
    simp only [files, texts, List.mapM_cons, List.mapM_nil, hta, htb]
    rfl
  have hfile : files "pq_read" (.sym a) = .ok [(ta, pathOf ta)] := by
    simp only [files, texts, hta]
    rfl
  have hcol : cols "pq_read" (.syms [b]) = .ok (if tb.isEmpty then none else some [tb]) := by
    simp only [cols, texts, List.mapM_cons, List.mapM_nil, htb]
    show Except.ok (if [tb].all (·.isEmpty) then none else some [tb]) = _
    rw [List.all_cons, List.all_nil, Bool.and_true]
  have hpair : partsIn "pq_read" (.syms [a, b]) = if tb.isEmpty || isHsym ta && !isHsym tb then
      .ok ([(ta, pathOf ta)], if tb.isEmpty then none else some [tb])
      else .ok ([(ta, pathOf ta), (tb, pathOf tb)], none) := by
    simp only [partsIn, hta, htb]
    rfl
  refine ⟨?_, ?_, ?_⟩
  · unfold readArgs
    rw [hpair]
    cases tb.isEmpty || isHsym ta && !isHsym tb <;> rfl
  · simp only [readArgs, partsIn, hfile, hcol]
    rfl
  · simp only [readArgs, partsIn, hfiles]
    rfl

/-- q makes a vector of a pair of symbols, so the file and column that a caller wrote may arrive as
two files. The vector is read as the list that spells the pair out just when the second symbol is
empty, or the first has a colon and the second has none. In every other case it is read as the list
that spells two files out. -/
theorem a_collapsed_pair_is_read_by_the_rule (m : Memory) (x y z : K) (a b : Sym) (ta tb : String)
    (ha : utf8Of a.bytes = some ta) (hb : utf8Of b.bytes = some tb) (hx : Value m x (.syms [a, b]))
    (hy : Value m y (.list [.sym a, .syms [b]])) (hz : Value m z (.list [.syms [a, b], .syms []])) :
    ∃ r pair two, Gives (pqReadArgs m x) (.ok r) ∧ Gives (pqReadArgs m y) (.ok pair) ∧
      Gives (pqReadArgs m z) (.ok two) ∧
      (r = pair ↔ tb.isEmpty = true ∨ isHsym ta = true ∧ isHsym tb = false) ∧
      (r = two ↔ ¬(tb.isEmpty = true ∨ isHsym ta = true ∧ isHsym tb = false)) := by
  obtain ⟨h1, h2, h3⟩ := readArgs_pair ha hb
  have hrx := pqReadArgs_value hx
  have hry := pqReadArgs_value hy
  have hrz := pqReadArgs_value hz
  rw [h1] at hrx
  rw [h2] at hry
  rw [h3] at hrz
  refine ⟨_, _, _, hrx, hry, hrz, ?_⟩
  have hrule : (tb.isEmpty || isHsym ta && !isHsym tb) = true ↔
      (tb.isEmpty = true ∨ isHsym ta = true ∧ isHsym tb = false) := by simp
  rw [← hrule]
  split
  · rename_i hc
    simp [hc]
  · rename_i hc
    simp [hc]

/-- A path and a column. -/
theorem a_path_and_a_name_are_a_pair : ∃ r, Gives (pqReadArgs callMemory 7) (.ok r) ∧
    Gives (pqReadArgs callMemory 8) (.ok r) := by
  have hpair : Value callMemory 7 (.syms [⟨[58, 116]⟩, ⟨[116]⟩]) :=
    .syms (by decide) rfl (.cons rfl (.cons rfl .nil))
  have hlist : Value callMemory 8 (.list [.sym ⟨[58, 116]⟩, .syms [⟨[116]⟩]]) :=
    value_list (by decide) rfl (.cons (.sym (by decide) rfl) (.cons tColumn_value .nil))
  have htwo : Value callMemory 9 (.list [.syms [⟨[58, 116]⟩, ⟨[116]⟩], .syms []]) :=
    value_list (by decide) rfl (.cons hpair (.cons (.syms (by decide) rfl .nil) .nil))
  obtain ⟨r, pair, two, hr, hp, _, hrule, _⟩ := a_collapsed_pair_is_read_by_the_rule callMemory 7 8 9
    ⟨[58, 116]⟩ ⟨[116]⟩ ":t" "t" rfl rfl hpair hlist htwo
  obtain rfl := hrule.mpr (.inr ⟨by decide, by decide⟩)
  exact ⟨r, hr, hp⟩

/-- The fourth and the fifth form of a read. `pq_rg` asks for a window just when `pq_read` of the
same files, columns and options asks for all, and both bounds are integral atoms with the window in
the row groups of the set. It then asks for the same columns of the same files, from the first bound
to the second. -/
theorem a_window_is_asked_for_as_the_read_is (c : List Entry) (look : String → Except String OpenFile)
    (m : Memory) (x y : K) (f cl lo hi : Q) (rest : List Q) (hrest : rest.length ≤ 1)
    (hx : Value m x (.list (f :: cl :: lo :: hi :: rest))) (hy : Value m y (.list (f :: cl :: rest)))
    (call : ReadCall) :
    Gives (pqRg m (openFiles c look) x) (.ok call) ↔
      ∃ all l h, Gives (pqRead m (openFiles c look) y) (.ok all) ∧ lo.asLong = some l ∧
        hi.asLong = some h ∧ 0 ≤ l ∧ l ≤ h ∧ h ≤ Int64.ofNat all.g1 ∧
        call = { all with g0 := l.toInt.toNat, g1 := h.toInt.toNat } := by
  have hrg := pqRg_value (openFiles c look) hx
  have hread := pqRead_value (openFiles c look) hy
  have hcall : rgCall (openFiles c look) (.list (f :: cl :: lo :: hi :: rest)) =
      rgWindow (openFiles c look) f cl lo hi (optIn (.list (f :: cl :: rest))) := by
    match rest, hrest with
    | [], _ => rfl
    | [_], _ => rfl
  rw [hcall] at hrg
  have hok : ∀ {T : Type} {r : Reading T} {v : Except String T} {t : T}, Gives r v →
      (Gives r (.ok t) ↔ v = .ok t) := by
    intro T r v t hr
    constructor
    · intro h
      exact gives_unique hr h
    · rintro rfl
      exact hr
  rw [hok hrg, rgWindow_read c look f cl lo hi _ rfl hrest call]
  constructor
  · rintro ⟨all, l, h, hall, hwindow⟩
    exact ⟨all, l, h, (hok hread).mpr hall, hwindow⟩
  · rintro ⟨all, l, h, hall, hwindow⟩
    exact ⟨all, l, h, (hok hread).mp hall, hwindow⟩

/-- The footer of the file, as `File::open` leaves it. -/
def tOpen (_ : String) : Except String OpenFile :=
  .ok ⟨⟨"t", 0, 0, 0, (0, 0)⟩, .ok (stampFile "t" .nanosecond [2, 1]).md, fun _ => none⟩

theorem a_window_of_a_file_is_asked_for : ∃ call,
    Gives (pqRg callMemory (openFiles [] tOpen) 1) (.ok call) ∧ call.g0 = 1 ∧ call.g1 = 2 ∧
      call.codes = true := by
  have hall : Value callMemory 3 (.list [tFile, tColumn, codesOpt]) :=
    value_list (by decide) rfl
      (.cons (.sym (by decide) rfl) (.cons tColumn_value (.cons codesOpt_value .nil)))
  obtain ⟨call, hcall, hg1, hcodes⟩ : ∃ call,
      Gives (pqRead callMemory (openFiles [] tOpen) 3) (.ok call) ∧ call.g1 = 2 ∧ call.codes = true :=
    ⟨_, pqRead_value _ hall, rfl, rfl⟩
  refine ⟨{ call with g0 := 1, g1 := 2 }, ?_, rfl, rfl, hcodes⟩
  apply (a_window_is_asked_for_as_the_read_is [] tOpen callMemory 1 3 tFile tColumn (.long 1) (.int 2)
    [codesOpt] (by decide) tWindow_value hall _).mpr
  refine ⟨call, 1, 2, hcall, rfl, rfl, by decide, by decide, ?_, rfl⟩
  rw [hg1]
  decide

end parquet_interop.entry
