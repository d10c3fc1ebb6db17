-- The arguments of the entry points. Every export takes one value of L, and reads
-- the files, the columns, the window and the options out of it.
import ParquetInterop.Host
import ParquetInterop.Select

open lib.reading
open parquet_interop.ffi parquet_interop.host

namespace parquet_interop.args

/-! ## Texts -/

variable (m : Memory)

/-- An interned symbol as a string. -/
def ptrStr (p : Ptr) (who : String) : Reading String := do
  let b ← liftM (m.cstr p)
  match utf8Of b with
  | some s => pure s
  | none => throw s!"{who}: symbol utf8"

/-- `strip_prefix(':')`: the colon of a path symbol drops. -/
def pathOf (s : String) : String :=
  match s.toList with
  | ':' :: rest => String.ofList rest
  | _ => s

def ptrPath (p : Ptr) (who : String) : Reading String := do
  let s ← ptrStr m p who
  pure (pathOf s)

/-- A path out of a symbol atom. -/
def symPath (x : K) (who : String) : Reading String := do
  let t ← liftM (kt m x)
  if t ≠ -LType.KS.tag then throw s!"{who}: expected symbol path"
  else ptrPath m (ls x) who

/-- The texts of a symbol argument: an atom, a vector, or a list of atoms. -/
def symsOf (x : K) (who what : String) : Reading (List String) := do
  let t ← liftM (kt m x)
  if t = -LType.KS.tag then do
    let s ← ptrStr m (ls x) who
    pure [s]
  else if t = LType.KS.tag then do
    let n ← liftM (kn m x)
    (List.range n).mapM fun i => do
      let p ← liftM (vS m x i)
      ptrStr m p who
  else if t = 0 then do
    let n ← liftM (kn m x)
    (List.range n).mapM fun i => do
      let e ← liftM (vK m x i)
      let te ← liftM (kt m e)
      if te ≠ -LType.KS.tag then throw s!"{who}: expected {what}"
      else ptrStr m (ls e) who
  else throw s!"{who}: expected {what}"

/-- The text and the path of each file. -/
def filesOf (x : K) (who : String) : Reading (List (String × String)) := do
  let ss ← symsOf m x who "symbol path"
  pure (ss.map fun s => (s, pathOf s))

/-- `s.starts_with(':')`. -/
def isHsym (s : String) : Bool := s.toList.head? == some ':'

/-- A vector of two symbols is a file and a column when the second cannot be a file beside the
first. -/
def collapsedPair (x : K) (who : String) : Reading Bool := do
  let pa ← liftM (vS m x 0)
  let a ← ptrStr m pa who
  let pb ← liftM (vS m x 1)
  let b ← ptrStr m pb who
  pure (b.isEmpty || isHsym a && !isHsym b)

/-- The columns, or none for all of them. -/
def colsOf (x : K) (who : String) : Reading (Option (List String)) := do
  let names ← symsOf m x who "column symbol"
  pure (if names.all (·.isEmpty) then none else some names)

def longOf (x : K) (who : String) : Reading Int64 := do
  let v ← atomI64 m x
  match v with
  | some v => pure v
  | none => throw s!"{who}: expected long"

/-! ## Option values -/

/-- One value of a dict. `Bad` carries the type. -/
inductive Val where
  | Sym (p : Ptr)
  | Int (v : Int64)
  | Bool (b : Bool)
  | Bad (t : Int)

/-- A tagged atom, or a heap object in its place. -/
def atomVal (x : K) : Reading Val := do
  let t := vtag x
  if t = LType.KS.tag then pure (.Sym (va x))
  else if t = LType.KB.tag then do
    let v ← liftM (kjv m x)
    pure (.Bool (v.toUInt64.toUInt8 != 0))
  else if t ∈ [KJL, LType.KJ.tag, LType.KI.tag, LType.KH.tag] then do
    let v ← atomI64 m x
    pure ((v.map Val.Int).getD (.Bad (-t)))
  else if t = 0 then do
    let t ← liftM (vt m x)
    pure (.Bad t)
  else pure (.Bad (-t))

/-- Element `i` of the values of a dict, a list or a typed vector. -/
def valAt (vals : K) (i : Nat) : Reading Val := do
  let t ← liftM (vt m vals)
  if t = 0 then do
    let e ← liftM (vK m vals i)
    atomVal m e
  else if t = LType.KS.tag then Val.Sym <$> liftM (vS m vals i)
  else if t = LType.KJ.tag then Val.Int <$> liftM (vJ m vals i)
  else if t = LType.KI.tag then (fun v => Val.Int v.toInt64) <$> liftM (vI m vals i)
  else if t = LType.KH.tag then (fun v => Val.Int v.toInt64) <$> liftM (vH m vals i)
  else if t = LType.KB.tag then (fun v => Val.Bool (v != 0)) <$> liftM (vG m vals i)
  else pure (.Bad t)

/-- The loop of both option parsers: the key, its value, and what the parser does with them. -/
def eachOpt {σ : Type} (who badKey : String) (step : σ → String → Val → Reading σ) (x : K) (o : σ) :
    Reading σ := do
  let t ← liftM (kt m x)
  if t ≠ XD then throw s!"{who}: opts must be a dict"
  else do
    let keys ← liftM (vK m x 0)
    let vals ← liftM (vK m x 1)
    let n ← liftM (vn m keys)
    let tk ← liftM (vt m keys)
    if n ≠ 0 ∧ tk ≠ LType.KS.tag then throw s!"{who}: opts keys must be symbols"
    else
      (List.range n).foldlM (fun o i => do
        let p ← liftM (vS m keys i)
        let b ← liftM (m.cstr p)
        match utf8Of b with
        | none => throw badKey
        | some k => do
          let v ← valAt m vals i
          step o k v) o

/-- One option of a read. -/
def rdOpt (who : String) (_ : Bool) (k : String) (v : Val) : Reading Bool :=
  if k = "codes" ∨ k = "sym" then
    match v with
    | .Bool b => pure b
    | _ => throw (s!"{who}: opt " ++ "`" ++ s!"{k} wants a boolean")
  else throw (s!"{who}: unknown opt " ++ "`" ++ k)

/-- The options of a read: whether symbol columns may come back as pairs. -/
def rdOpts (x : Option K) (who : String) : Reading Bool :=
  match x with
  | none => pure false
  | some x => eachOpt m who s!"{who}: symbol utf8" (rdOpt who) x false

/-! ## What the values say -/

/-- The text of a symbol. -/
def text (who : String) (s : Sym) : Except String String :=
  match utf8Of s.bytes with
  | some t => .ok t
  | none => .error s!"{who}: symbol utf8"

/-- The texts of a symbol, of a symbol vector, or of a list of symbols. -/
def texts (who what : String) : Q → Except String (List String)
  | .sym s => (fun t => [t]) <$> text who s
  | .syms xs => xs.mapM (text who)
  | .list xs => xs.mapM fun
    | .sym s => text who s
    | _ => .error s!"{who}: expected {what}"
  | _ => .error s!"{who}: expected {what}"

def files (who : String) (q : Q) : Except String (List (String × String)) :=
  (fun ss => ss.map fun s => (s, pathOf s)) <$> texts who "symbol path" q

def path (who : String) : Q → Except String String
  | .sym s => pathOf <$> text who s
  | _ => .error s!"{who}: expected symbol path"

def cols (who : String) (q : Q) : Except String (Option (List String)) :=
  (fun names => if names.all (·.isEmpty) then none else some names) <$> texts who "column symbol" q

def long (who : String) (q : Q) : Except String Int64 :=
  match q.asLong with
  | some v => .ok v
  | none => .error s!"{who}: expected long"

/-- The value of an option. -/
inductive OptVal where
  | sym (s : Sym)
  | int (v : Int64)
  | bool (b : Bool)
  | bad (t : Int)

def valOf (q : Q) : OptVal :=
  match q with
  | .sym s => .sym s
  | .bool b => .bool b
  | .long v => .int v
  | .int v => .int v.toInt64
  | .short v => .int v.toInt64
  | q => .bad q.kt

/-- The values of a dict, whether q left them a list or made them a vector. -/
def valsOf : Q → List OptVal
  | .list xs => xs.map valOf
  | .syms xs => xs.map .sym
  | .longs xs => xs.map .int
  | .ints xs => xs.map fun v => .int v.toInt64
  | .shorts xs => xs.map fun v => .int v.toInt64
  | .bools xs => xs.map .bool
  | .heap t n => List.replicate n (.bad t)
  | _ => []

/-- One turn of the loop over the options. -/
def optTurn {σ : Type} (badKey : String) (step : σ → String → OptVal → Except String σ) (o : σ)
    (e : Sym × OptVal) : Except String σ :=
  match utf8Of e.1.bytes with
  | none => .error badKey
  | some k => step o k e.2

/-- The options of a dict, in order. -/
def optsOf {σ : Type} (who badKey : String) (step : σ → String → OptVal → Except String σ) (o : σ) :
    Q → Except String σ
  | .dict (.syms ks) vals => (ks.zip (valsOf vals)).foldlM (optTurn badKey step) o
  | .dict keys _ =>
    if keys.count = some 0 then .ok o else .error s!"{who}: opts keys must be symbols"
  | _ => .error s!"{who}: opts must be a dict"

def codesStep (who : String) (_ : Bool) (k : String) (v : OptVal) : Except String Bool :=
  if k = "codes" ∨ k = "sym" then
    match v with
    | .bool b => .ok b
    | _ => .error (s!"{who}: opt " ++ "`" ++ s!"{k} wants a boolean")
  else .error (s!"{who}: unknown opt " ++ "`" ++ k)

def codesOf (who : String) : Option Q → Except String Bool
  | none => .ok false
  | some q => optsOf who s!"{who}: symbol utf8" (codesStep who) false q

/-! ## The words of a value are read as the value -/

variable {m : Memory} {x : K} {q : Q}

theorem ptrStr_text {p : Ptr} {s : Sym} (who : String) (h : m.cstr p = some s.bytes) :
    Gives (ptrStr m p who) (text who s) := by
  refine Gives.read h ?_
  unfold text
  cases utf8Of s.bytes with
  | none => exact gives_throw _
  | some t => exact gives_pure t

theorem value_sym {s : Sym} (h : Value m x (.sym s)) : m.cstr (ls x) = some s.bytes := by
  cases h with
  | sym _ hb => exact hb

/-- Only a symbol reports as one. -/
theorem kt_sym (h : Value m x q) (hk : q.kt = -LType.KS.tag) : ∃ s, q = .sym s := by
  cases h with
  | @sym x b _ _ => exact ⟨⟨b⟩, rfl⟩
  | atom ht =>
    exfalso
    apply ht
    have htag : vtag x = LType.KS.tag := by
      simp only [Q.kt] at hk
      omega
    rw [htag]
    decide
  | heap _ _ hpos _ =>
    simp only [Q.kt, LType.tag] at hk
    omega
  | _ => simp [Q.kt, LType.tag, XD] at hk

/-- Only a symbol vector reports as one. -/
theorem kt_syms (h : Value m x q) (hk : q.kt = LType.KS.tag) : ∃ xs, q = .syms xs := by
  cases h with
  | syms _ _ _ => exact ⟨_, rfl⟩
  | atom ht =>
    have hpos : 0 ≤ vtag x := Int.natCast_nonneg _
    simp only [Q.kt, LType.tag] at hk
    omega
  | heap _ _ _ ht =>
    exfalso
    apply ht
    simp only [Q.kt] at hk
    rw [hk]
    decide
  | _ => simp [Q.kt, LType.tag, XD] at hk

/-- Only a general list reports as one. -/
theorem kt_list (h : Value m x q) (hk : q.kt = 0) : ∃ xs, q = .list xs := by
  cases h with
  | list _ _ _ _ => exact ⟨_, rfl⟩
  | atom ht =>
    exfalso
    apply ht
    have htag : vtag x = 0 := by
      simp only [Q.kt] at hk
      omega
    rw [htag]
    decide
  | heap _ _ _ ht =>
    exfalso
    apply ht
    simp only [Q.kt] at hk
    rw [hk]
    decide
  | _ => simp [Q.kt, LType.tag, XD] at hk

theorem kt_dict (h : Value m x q) (hk : q.kt = XD) : ∃ keys vals, q = .dict keys vals := by
  cases h with
  | dict _ _ _ _ _ _ => exact ⟨_, _, rfl⟩
  | atom ht =>
    have hpos : 0 ≤ vtag x := Int.natCast_nonneg _
    simp only [Q.kt, XD] at hk
    omega
  | heap _ _ _ ht =>
    exfalso
    apply ht
    simp only [Q.kt] at hk
    rw [hk]
    decide
  | _ => simp [Q.kt, LType.tag, XD] at hk

/-- The element of a symbol vector. -/
theorem value_text {xs : List Sym} (h : Value m x (.syms xs)) {i : Nat} {s : Sym}
    (hs : xs[i]? = some s) : ∃ p, vS m x i = some p ∧ m.cstr p = some s.bytes := by
  cases h with
  | @syms _ ps _ ht ho hall =>
    have hlen := hall.length_eq
    have hi := (List.getElem?_eq_some_iff.mp hs).1
    obtain ⟨p, hp⟩ : ∃ p, ps[i]? = some p := ⟨_, List.getElem?_eq_getElem (hlen ▸ hi)⟩
    refine ⟨p, (view_at ho rfl).trans hp, ?_⟩
    obtain ⟨h1, rfl⟩ := List.getElem?_eq_some_iff.mp hp
    obtain ⟨h2, rfl⟩ := List.getElem?_eq_some_iff.mp hs
    exact List.forall₂_iff_get.mp hall |>.2 i h1 h2

theorem symsOf_value (who what : String) (h : Value m x q) :
    Gives (symsOf m x who what) (texts who what q) := by
  refine Gives.read (value_kt h) ?_
  obtain ⟨n, hn, hcount⟩ := value_kn h
  by_cases hsym : q.kt = -LType.KS.tag
  · rw [if_pos hsym]
    obtain ⟨s, rfl⟩ := kt_sym h hsym
    exact (ptrStr_text who (value_sym h)).bind_pure _
  rw [if_neg hsym]
  by_cases hvec : q.kt = LType.KS.tag
  · rw [if_pos hvec]
    obtain ⟨xs, rfl⟩ := kt_syms h hvec
    refine Gives.read hn (gives_mapM (forall₂_range (hcount _ rfl) ?_))
    intro i s hs
    obtain ⟨p, hp, htext⟩ := value_text h hs
    exact Gives.read hp (ptrStr_text who htext)
  rw [if_neg hvec]
  by_cases hlist : q.kt = 0
  · rw [if_pos hlist]
    obtain ⟨xs, rfl⟩ := kt_list h hlist
    refine Gives.read hn (gives_mapM (forall₂_range (hcount _ rfl) ?_))
    intro i e he
    obtain ⟨w, hw, hval⟩ := value_slot h he
    refine Gives.read hw (Gives.read (value_kt hval) ?_)
    by_cases hes : e.kt = -LType.KS.tag
    · rw [if_neg (not_not.mpr hes)]
      obtain ⟨s, rfl⟩ := kt_sym hval hes
      exact ptrStr_text who (value_sym hval)
    · rw [if_pos hes]
      cases e with
      | sym s => exact absurd rfl hes
      | _ => exact gives_throw _
  · rw [if_neg hlist]
    cases q with
    | sym s => exact absurd rfl hsym
    | syms xs => exact absurd rfl hvec
    | list xs => exact absurd rfl hlist
    | _ => exact gives_throw _

theorem filesOf_value (who : String) (h : Value m x q) : Gives (filesOf m x who) (files who q) :=
  (symsOf_value who "symbol path" h).bind_pure _

theorem colsOf_value (who : String) (h : Value m x q) : Gives (colsOf m x who) (cols who q) :=
  (symsOf_value who "column symbol" h).bind_pure _

theorem symPath_value (who : String) (h : Value m x q) : Gives (symPath m x who) (path who q) := by
  refine Gives.read (value_kt h) ?_
  by_cases hsym : q.kt = -LType.KS.tag
  · rw [if_neg (not_not.mpr hsym)]
    obtain ⟨s, rfl⟩ := kt_sym h hsym
    exact (ptrStr_text who (value_sym h)).bind_pure _
  · rw [if_pos hsym]
    cases q with
    | sym s => exact absurd rfl hsym
    | _ => exact gives_throw _

theorem longOf_value (who : String) (h : Value m x q) : Gives (longOf m x who) (long who q) := by
  have hbind := (value_atomI64 h).bind (f := fun v => match v with
    | some v => pure v
    | none => throw s!"{who}: expected long") (g := fun v => match v with
    | some v => .ok v
    | none => .error s!"{who}: expected long") (by
      rintro (_ | v) _
      · exact gives_throw _
      · exact gives_pure v)
  exact hbind

/-! ## The options of a value -/

/-- What was read is the value of the option. -/
inductive ValIs (m : Memory) : Val → OptVal → Prop
  | sym {p : Ptr} {s : Sym} : m.cstr p = some s.bytes → ValIs m (.Sym p) (.sym s)
  | int (v : Int64) : ValIs m (.Int v) (.int v)
  | bool (b : Bool) : ValIs m (.Bool b) (.bool b)
  | bad (t : Int) : ValIs m (.Bad t) (.bad t)

theorem low_byte (x : K) : (Int64.ofBitVec (x &&& PTR_MASK)).toUInt64.toUInt8 ≠ 0 ↔ x.setWidth 8 ≠ 0 := by
  have hlow : (Int64.ofBitVec (x &&& PTR_MASK)).toUInt64.toUInt8.toBitVec = x.setWidth 8 := by
    show (x &&& PTR_MASK).setWidth 8 = _
    exact setWidth_va (by omega)
  rw [← hlow]
  constructor
  · intro hne h0
    exact hne (UInt8.toBitVec_inj.mp h0)
  · rintro hne rfl'
    apply hne
    rw [rfl']
    rfl

/-- An integral atom as an option. -/
theorem atomVal_int {v : Int64} (h : Value m x q) (hq : q.asLong = some v)
    (ht : vtag x ∈ [KJL, LType.KJ.tag, LType.KI.tag, LType.KH.tag]) :
    Gives (atomVal m x) (.ok (.Int v)) := by
  have hs : vtag x ≠ LType.KS.tag := by
    intro hs
    rw [hs] at ht
    exact absurd ht (by decide)
  have hb : vtag x ≠ LType.KB.tag := by
    intro hb
    rw [hb] at ht
    exact absurd ht (by decide)
  have hread := (value_atomI64 h).bind_pure fun v => (v.map Val.Int).getD (.Bad (-vtag x))
  rw [hq] at hread
  unfold atomVal
  dsimp only
  rw [if_neg hs, if_neg hb, if_pos ht]
  exact hread

theorem atomVal_heap {o : Obj} (ht : vtag x = 0) (ho : m.obj (va x) = some o) :
    Gives (atomVal m x) (.ok (.Bad o.vt)) := by
  have hvt : vt m x = some o.vt := by
    rw [vt, ho]
    rfl
  unfold atomVal
  dsimp only
  rw [ht, if_neg (by decide), if_neg (by decide), if_neg (by decide), if_pos rfl]
  exact Gives.read hvt (gives_pure _)

theorem atomVal_value (h : Value m x q) : ∃ v, Gives (atomVal m x) (.ok v) ∧ ValIs m v (valOf q) := by
  cases h with
  | @sym _ b ht hb =>
    refine ⟨.Sym (va x), ?_, .sym (s := ⟨b⟩) hb⟩
    unfold atomVal
    dsimp only
    rw [if_pos ht]
    exact gives_pure _
  | @bool _ b ht hb =>
    refine ⟨.Bool b, ?_, .bool b⟩
    have hkjv : kjv m x = some (Int64.ofBitVec (x &&& PTR_MASK)) := by
      unfold kjv
      dsimp only
      rw [ht, if_neg (by decide), if_neg (by decide)]
    have hbyte : ((Int64.ofBitVec (x &&& PTR_MASK)).toUInt64.toUInt8 != 0) = b := by
      rw [Bool.eq_iff_iff, bne_iff_ne, low_byte, hb]
    unfold atomVal
    dsimp only
    rw [ht, if_neg (by decide), if_pos rfl]
    refine Gives.read hkjv ?_
    rw [hbyte]
    exact gives_pure _
  | @short _ v ht hv =>
    exact ⟨_, atomVal_int (.short ht hv) rfl (by rw [ht]; decide), .int _⟩
  | @int _ v ht hv =>
    exact ⟨_, atomVal_int (.int ht hv) rfl (by rw [ht]; decide), .int _⟩
  | @inline _ v ht hv =>
    exact ⟨_, atomVal_int (.inline ht hv) rfl (by rw [ht]; decide), .int _⟩
  | @long _ v ht hv =>
    exact ⟨_, atomVal_int (.long ht hv) rfl (by rw [ht]; decide), .int _⟩
  | atom ht =>
    refine ⟨.Bad (-vtag x), ?_, .bad _⟩
    simp only [atomTags, List.mem_cons, List.not_mem_nil, or_false, not_or] at ht
    unfold atomVal
    dsimp only
    rw [if_neg ht.2.2.2.2.2.1, if_neg ht.2.1, if_neg (by simp [ht]), if_neg ht.1]
    exact gives_pure _
  | syms ht ho _ => exact ⟨_, atomVal_heap ht ho, .bad _⟩
  | bools ht ho _ => exact ⟨_, atomVal_heap ht ho, .bad _⟩
  | shorts ht ho => exact ⟨_, atomVal_heap ht ho, .bad _⟩
  | ints ht ho => exact ⟨_, atomVal_heap ht ho, .bad _⟩
  | longs ht ho => exact ⟨_, atomVal_heap ht ho, .bad _⟩
  | list ht ho _ _ => exact ⟨_, atomVal_heap ht ho, .bad _⟩
  | dict ht ho _ _ _ _ => exact ⟨_, atomVal_heap ht ho, .bad _⟩
  | heap ht ho _ _ => exact ⟨_, atomVal_heap ht ho, .bad _⟩

theorem valsOf_length {c : Nat} (hc : q.count = some c) : (valsOf q).length = c := by
  cases q <;> cases hc <;> simp [valsOf]

/-- A value of a dict, out of a list or out of a typed vector. -/
theorem valAt_value {c i : Nat} (h : Value m x q) (hc : q.count = some c) (hi : i < c) :
    ∃ v ov, Gives (valAt m x i) (.ok v) ∧ (valsOf q)[i]? = some ov ∧ ValIs m v ov := by
  have hvt := value_vt h hc
  cases q with
  | list xs =>
    have hlen : i < xs.length := Option.some.inj hc ▸ hi
    have he := List.getElem?_eq_getElem hlen
    obtain ⟨w, hw, hval⟩ := value_slot h he
    obtain ⟨v, hv, his⟩ := atomVal_value hval
    refine ⟨v, _, ?_, by rw [valsOf, List.getElem?_map, he]; rfl, his⟩
    cases h with
    | list ht ho _ _ => exact Gives.read hvt (Gives.read hw hv)
  | syms xs =>
    have hlen : i < xs.length := Option.some.inj hc ▸ hi
    have hs := List.getElem?_eq_getElem hlen
    obtain ⟨p, hp, htext⟩ := value_text h hs
    refine ⟨.Sym p, .sym xs[i], ?_, by rw [valsOf, List.getElem?_map, hs]; rfl, .sym htext⟩
    cases h with
    | syms ht ho _ => exact Gives.read hvt ((gives_read hp).map _)
  | longs xs =>
    have hlen : i < xs.length := Option.some.inj hc ▸ hi
    have hv := List.getElem?_eq_getElem hlen
    refine ⟨.Int xs[i], .int xs[i], ?_, by rw [valsOf, List.getElem?_map, hv]; rfl, .int _⟩
    cases h with
    | longs ht ho => exact Gives.read hvt ((gives_read ((view_at ho rfl).trans hv)).map _)
  | ints xs =>
    have hlen : i < xs.length := Option.some.inj hc ▸ hi
    have hv := List.getElem?_eq_getElem hlen
    refine ⟨.Int xs[i].toInt64, .int xs[i].toInt64, ?_, by rw [valsOf, List.getElem?_map, hv]; rfl, .int _⟩
    cases h with
    | ints ht ho => exact Gives.read hvt ((gives_read ((view_at ho rfl).trans hv)).map _)
  | shorts xs =>
    have hlen : i < xs.length := Option.some.inj hc ▸ hi
    have hv := List.getElem?_eq_getElem hlen
    refine ⟨.Int xs[i].toInt64, .int xs[i].toInt64, ?_, by rw [valsOf, List.getElem?_map, hv]; rfl, .int _⟩
    cases h with
    | shorts ht ho => exact Gives.read hvt ((gives_read ((view_at ho rfl).trans hv)).map _)
  | bools xs =>
    have hlen : i < xs.length := Option.some.inj hc ▸ hi
    have hv := List.getElem?_eq_getElem hlen
    refine ⟨.Bool xs[i], .bool xs[i], ?_, by rw [valsOf, List.getElem?_map, hv]; rfl, .bool _⟩
    cases h with
    | @bools _ gs _ ht ho hall =>
      obtain ⟨g, hg⟩ : ∃ g, gs[i]? = some g := ⟨_, List.getElem?_eq_getElem (hall.length_eq ▸ hlen)⟩
      have hbyte : (g != 0) = xs[i] := by
        obtain ⟨h1, rfl⟩ := List.getElem?_eq_some_iff.mp hg
        rw [Bool.eq_iff_iff, bne_iff_ne]
        exact (List.forall₂_iff_get.mp hall).2 i h1 hlen
      rw [← hbyte]
      exact Gives.read hvt ((gives_read ((view_at ho rfl).trans hg)).map _)
  | heap t n =>
    obtain rfl : n = c := Option.some.inj hc
    refine ⟨.Bad t, .bad t, ?_, by rw [valsOf, List.getElem?_replicate, if_pos hi], .bad t⟩
    cases h with
    | @heap _ o ht ho _ hmem =>
      simp only [heapTypes, List.mem_cons, List.not_mem_nil, or_false, not_or] at hmem
      refine Gives.read hvt ?_
      simp only [Q.kt, hmem, if_false]
      exact gives_pure _
  | _ => cases hc

theorem eachOpt_value {σ : Type} {who badKey : String} {step : σ → String → Val → Reading σ}
    {turn : σ → String → OptVal → Except String σ} (h : Value m x q)
    (hstep : ∀ o k v ov, ValIs m v ov → Gives (step o k v) (turn o k ov)) (o : σ) :
    Gives (eachOpt m who badKey step x o) (optsOf who badKey turn o q) := by
  refine Gives.read (value_kt h) ?_
  by_cases hdict : q.kt = XD
  · obtain ⟨keys, vals, rfl⟩ := kt_dict h hdict
    obtain ⟨kw, vw, c, hk, hv, hkeys, hvals, hck, hcv⟩ := value_sides h
    rw [if_neg (not_not.mpr hdict)]
    refine Gives.read hk (Gives.read hv (Gives.read (value_vn hkeys hck)
      (Gives.read (value_vt hkeys hck) ?_)))
    by_cases hsyms : keys.kt = LType.KS.tag
    · obtain ⟨ks, rfl⟩ := kt_syms hkeys hsyms
      obtain rfl : ks.length = c := Option.some.inj hck
      have hlen := valsOf_length hcv
      rw [if_neg (by simp [hsyms])]
      refine gives_foldlM (forall₂_range (by rw [List.length_zip, hlen, Nat.min_self]) ?_) o
      rintro i ⟨s, ov⟩ he o
      obtain ⟨hs, hov⟩ := List.getElem?_zip_eq_some.mp he
      obtain ⟨p, hp, htext⟩ := value_text hkeys hs
      obtain ⟨v, ov', hval, hov', his⟩ := valAt_value hvals hcv (List.getElem?_eq_some_iff.mp hs).1
      obtain rfl : ov' = ov := Option.some.inj (hov'.symm.trans hov)
      refine Gives.read hp (Gives.read htext ?_)
      unfold optTurn
      cases utf8Of s.bytes with
      | none => exact gives_throw _
      | some k =>
        refine hval.bind (g := fun _ => turn o k ov') ?_
        intro a ha
        obtain rfl : v = a := Except.ok.inj ha
        exact hstep o k v ov' his
    · by_cases hc : c = 0
      · subst hc
        rw [if_neg (by simp)]
        cases keys with
        | syms ks => exact absurd rfl hsyms
        | _ =>
          simp only [optsOf, hck, if_true]
          exact gives_pure o
      · rw [if_pos ⟨hc, hsyms⟩]
        cases keys with
        | syms ks => exact absurd rfl hsyms
        | _ =>
          simp only [optsOf, hck, Option.some.injEq, hc, if_false]
          exact gives_throw _
  · rw [if_pos hdict]
    cases q with
    | dict keys vals => exact absurd rfl hdict
    | _ => exact gives_throw _

theorem rdOpts_value {o : Option Q} {w : Option K} (who : String)
    (h : (w = none ∧ o = none) ∨ ∃ x q, w = some x ∧ o = some q ∧ Value m x q) :
    Gives (rdOpts m w who) (codesOf who o) := by
  rcases h with ⟨rfl, rfl⟩ | ⟨x, q, rfl, rfl, h⟩
  · exact gives_pure false
  · refine eachOpt_value h ?_ false
    intro o k v ov hv
    unfold rdOpt codesStep
    split
    · cases hv with
      | bool b => exact gives_pure b
      | _ => exact gives_throw _
    · exact gives_throw _

end parquet_interop.args
