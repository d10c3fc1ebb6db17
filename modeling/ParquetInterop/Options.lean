-- The options of a write: `parse_opts` reads the dict one key after another, and
-- folds the codec and its level together at the end.
import ParquetInterop.Args
import ParquetInterop.Lib.Settings
import ParquetInterop.WriteTable

open lib.reading lib.settings
open parquet_interop.ffi parquet_interop.host parquet_interop.args parquet_interop.write

namespace parquet_interop.options

/-! ## `parse_opts` -/

/-- The levels that the codecs of the crate take. -/
structure Levels where
  zstd : Int32 → Bool
  gzip : UInt32 → Bool

/-- The locals of the loop. -/
structure Found where
  rg : Nat
  dict : Bool
  stats : Bool
  codec : Option String
  level : Option Int64
  rg_pos : 0 < rg

def Found.new : Found where
  rg := ROW_GROUP
  dict := true
  stats := true
  codec := none
  level := none
  rg_pos := Nat.succ_pos _

/-- A wrong value, with its type when the tag is one that has a name. -/
def bad (key want : String) : OptVal → String
  | .bad t => "pq_write: opt `" ++ key ++ " wants a " ++ want ++ s!" (got type {t})"
  | _ => "pq_write: opt `" ++ key ++ " wants a " ++ want

/-- The value that `bad` is told about. Only the type of a bad one matters. -/
def told : Val → OptVal
  | .Bad t => .bad t
  | .Int v => .int v
  | .Bool b => .bool b
  | .Sym _ => .sym (intern [])

/-- One key of the dict. -/
def optStep (m : Memory) (o : Found) (k : String) (v : Val) : Reading Found :=
  if k = "codec" then
    match v with
    | .Sym p => do
      let b ← liftM (m.cstr p)
      match utf8Of b with
      | some s => pure { o with codec := some s }
      | none => throw "pq_write: opt `codec utf8"
    | v => throw (bad "codec" "symbol" (told v))
  else if k = "level" then
    match v with
    | .Int n => pure { o with level := some n }
    | v => throw (bad "level" "long" (told v))
  else if k = "rg" then
    match v with
    | .Int n =>
      if h : 0 < n.toInt then pure { o with rg := n.toInt.toNat, rg_pos := Int.pos_iff_toNat_pos.mp h }
      else throw "pq_write: opt `rg must be > 0"
    | v => throw (bad "rg" "long" (told v))
  else if k = "dict" then
    match v with
    | .Bool b => pure { o with dict := b }
    | v => throw (bad "dict" "boolean" (told v))
  else if k = "stats" then
    match v with
    | .Bool b => pure { o with stats := b }
    | v => throw (bad "stats" "boolean" (told v))
  else throw ("pq_write: unknown opt `" ++ k)

def outOfRange (c : String) : String := "pq_write: opt `level out of range for `" ++ c

/-- `i32::try_from`. -/
def toI32 (n : Int64) : Option Int32 :=
  if -2 ^ 31 ≤ n.toInt ∧ n.toInt < 2 ^ 31 then some n.toInt32 else none

/-- `u32::try_from`. -/
def toU32 (n : Int64) : Option UInt32 :=
  if 0 ≤ n.toInt ∧ n.toInt < 2 ^ 32 then some n.toUInt64.toUInt32 else none

/-- `ok_or_else`. -/
def okOr {T : Type} (o : Option T) (e : String) : Except String T :=
  match o with
  | some l => .ok l
  | none => .error e

/-- The codec and its level, folded together. A codec that has no level ignores the key. -/
def compOf (L : Levels) (codec : Option String) (level : Option Int64) : Except String Compression :=
  match codec with
  | none | some "none" => .ok .UNCOMPRESSED
  | some "zstd" => (okOr ((toI32 (level.getD 1)).filter L.zstd) (outOfRange "zstd")).map .ZSTD
  | some "snappy" => .ok .SNAPPY
  | some "lz4" => .ok .LZ4_RAW
  | some "gzip" => (okOr ((toU32 (level.getD 6)).filter L.gzip) (outOfRange "gzip")).map .GZIP
  | some c => .error ("pq_write: opt `codec `" ++ c ++ " (want `none`zstd`snappy`lz4`gzip)")

def Found.finish (L : Levels) (o : Found) : Except String Opts :=
  (compOf L o.codec o.level).map fun comp => ⟨comp, o.rg, o.dict, o.stats, o.rg_pos⟩

def badKey : String := "pq_write: opts key utf8"

def parseOpts (L : Levels) (m : Memory) (opts : Option K) : Reading Opts :=
  match opts with
  | none => pure Opts.default
  | some d => do
    let o ← eachOpt m "pq_write" badKey (optStep m) d Found.new
    ExceptT.mk (some (o.finish L))

/-! ## What an option sets -/

/-- What one key of the dict sets. -/
inductive Setting where
  | codec (s : String)
  | level (n : Int64)
  | rg (n : Int64) (pos : 0 < n.toInt)
  | dict (b : Bool)
  | stats (b : Bool)

/-- What a key and its value set, or what is wrong with them. -/
def setting (k : String) (v : OptVal) : Except String Setting :=
  if k = "codec" then
    match v with
    | .sym s =>
      match utf8Of s.bytes with
      | some t => .ok (.codec t)
      | none => .error "pq_write: opt `codec utf8"
    | v => .error (bad "codec" "symbol" v)
  else if k = "level" then
    match v with
    | .int n => .ok (.level n)
    | v => .error (bad "level" "long" v)
  else if k = "rg" then
    match v with
    | .int n => if h : 0 < n.toInt then .ok (.rg n h) else .error "pq_write: opt `rg must be > 0"
    | v => .error (bad "rg" "long" v)
  else if k = "dict" then
    match v with
    | .bool b => .ok (.dict b)
    | v => .error (bad "dict" "boolean" v)
  else if k = "stats" then
    match v with
    | .bool b => .ok (.stats b)
    | v => .error (bad "stats" "boolean" v)
  else .error ("pq_write: unknown opt `" ++ k)

def Found.set (o : Found) : Setting → Found
  | .codec s => { o with codec := some s }
  | .level n => { o with level := some n }
  | .rg n pos => { o with rg := n.toInt.toNat, rg_pos := Int.pos_iff_toNat_pos.mp pos }
  | .dict b => { o with dict := b }
  | .stats b => { o with stats := b }

/-- The options that a value gives. -/
def optsIn (L : Levels) : Option Q → Except String Opts
  | none => .ok Opts.default
  | some q => (optsOf "pq_write" badKey (fun o k v => (setting k v).map o.set) Found.new q).bind (·.finish L)

variable {m : Memory} {x : K} {q : Q} {L : Levels}

theorem told_eq {v : Val} {ov : OptVal} (h : ValIs m v ov) (key want : String) :
    bad key want (told v) = bad key want ov := by
  cases h <;> rfl

theorem optStep_value (o : Found) (k : String) {v : Val} {ov : OptVal} (h : ValIs m v ov) :
    Gives (optStep m o k v) ((setting k ov).map o.set) := by
  unfold optStep setting
  split
  · cases h with
    | @sym p s hs =>
      refine Gives.read hs ?_
      dsimp only
      cases utf8Of s.bytes with
      | none => exact gives_throw _
      | some t => exact gives_pure _
    | _ => exact gives_throw _
  split
  · cases h with
    | int n => exact gives_pure _
    | _ => exact gives_throw _
  split
  · cases h with
    | int n =>
      dsimp only
      split
      · exact gives_pure _
      · exact gives_throw _
    | _ => exact gives_throw _
  split
  · cases h with
    | bool b => exact gives_pure _
    | _ => exact gives_throw _
  split
  · cases h with
    | bool b => exact gives_pure _
    | _ => exact gives_throw _
  · exact gives_throw _

/-- The words of the options are read as their value. -/
theorem parseOpts_value {o : Option Q} {w : Option K}
    (h : (w = none ∧ o = none) ∨ ∃ x q, w = some x ∧ o = some q ∧ Value m x q) :
    Gives (parseOpts L m w) (optsIn L o) := by
  rcases h with ⟨rfl, rfl⟩ | ⟨x, q, rfl, rfl, h⟩
  · exact gives_pure _
  · exact (eachOpt_value h (fun o k v ov hv => optStep_value o k hv) Found.new).bind fun o _ => rfl

/-! ## The loop -/

/-- The key and the value of an entry. -/
def entrySetting (e : Sym × OptVal) : Except String Setting :=
  match utf8Of e.1.bytes with
  | none => .error badKey
  | some k => setting k e.2

/-- The loop checks every entry for itself, and then sets them in order. -/
theorem loop_settings (es : List (Sym × OptVal)) (o : Found) :
    es.foldlM (optTurn badKey fun o k v => (setting k v).map o.set) o =
      (es.mapM entrySetting).map (List.foldl Found.set o) := by
  apply foldlM_checked
  intro o e
  unfold optTurn entrySetting
  cases utf8Of e.1.bytes <;> rfl

def Setting.codec? : Setting → Option (Option String)
  | .codec s => some (some s)
  | _ => none

def Setting.level? : Setting → Option (Option Int64)
  | .level n => some (some n)
  | _ => none

def Setting.rg? : Setting → Option Nat
  | .rg n _ => some n.toInt.toNat
  | _ => none

def Setting.dict? : Setting → Option Bool
  | .dict b => some b
  | _ => none

def Setting.stats? : Setting → Option Bool
  | .stats b => some b
  | _ => none

/-- The last setting of a kind. -/
def last {α : Type} (pick : Setting → Option α) (ds : List Setting) : Option α := (ds.filterMap pick).getLast?

/-- The options of the settings: of each kind the last, and else the default. -/
theorem found_settings (ds : List Setting) :
    let o := ds.foldl Found.set Found.new
    o.rg = (last Setting.rg? ds).getD ROW_GROUP ∧ o.dict = (last Setting.dict? ds).getD true ∧
      o.stats = (last Setting.stats? ds).getD true ∧ o.codec = (last Setting.codec? ds).getD none ∧
      o.level = (last Setting.level? ds).getD none := by
  refine ⟨?_, ?_, ?_, ?_, ?_⟩
  · exact foldl_last Found.rg Setting.rg? (fun o d => by cases d <;> rfl) Found.new ds
  · exact foldl_last Found.dict Setting.dict? (fun o d => by cases d <;> rfl) Found.new ds
  · exact foldl_last Found.stats Setting.stats? (fun o d => by cases d <;> rfl) Found.new ds
  · exact foldl_last Found.codec Setting.codec? (fun o d => by cases d <;> rfl) Found.new ds
  · exact foldl_last Found.level Setting.level? (fun o d => by cases d <;> rfl) Found.new ds

/-! ## The messages -/

/-- The message holds the key with its backtick before it. -/
def Names (key msg : String) : Prop := ∃ pre post, msg = pre ++ "`" ++ key ++ post

theorem names_opt (key post : String) : Names key ("pq_write: opt `" ++ key ++ post) :=
  ⟨"pq_write: opt ", post, rfl⟩

theorem Names.append {key msg : String} (h : Names key msg) (more : String) : Names key (msg ++ more) := by
  obtain ⟨pre, post, rfl⟩ := h
  exact ⟨pre, post ++ more, String.append_assoc⟩

theorem bad_names (key want : String) (v : OptVal) : Names key (bad key want v) := by
  have hwants := (names_opt key " wants a ").append want
  cases v with
  | bad t => exact hwants.append _
  | _ => exact hwants

/-- What is wrong with a key names the key. -/
theorem setting_names {k e : String} {v : OptVal} (h : setting k v = .error e) : Names k e := by
  unfold setting at h
  split at h
  · rename_i hk
    rw [hk]
    split at h
    · split at h
      · cases h
      · cases h
        exact ⟨"pq_write: opt ", " utf8", rfl⟩
    · cases h
      exact bad_names _ _ _
  split at h
  · rename_i hk
    rw [hk]
    split at h
    · cases h
    · cases h
      exact bad_names _ _ _
  split at h
  · rename_i hk
    rw [hk]
    split at h
    · split at h
      · cases h
      · cases h
        exact ⟨"pq_write: opt ", " must be > 0", rfl⟩
    · cases h
      exact bad_names _ _ _
  split at h
  · rename_i hk
    rw [hk]
    split at h
    · cases h
    · cases h
      exact bad_names _ _ _
  split at h
  · rename_i hk
    rw [hk]
    split at h
    · cases h
    · cases h
      exact bad_names _ _ _
  · cases h
    exact ⟨"pq_write: unknown opt ", "", String.append_empty.symm⟩

/-! ## The codec -/

/-- The codec takes the level. A codec that has no level takes every one. -/
def Takes (L : Levels) : Option String → Option Int64 → Compression → Prop
  | none, _, .UNCOMPRESSED => True
  | some c, _, .UNCOMPRESSED => c = "none"
  | some c, _, .SNAPPY => c = "snappy"
  | some c, _, .LZ4_RAW => c = "lz4"
  | some c, level, .ZSTD l => c = "zstd" ∧ l.toInt = (level.getD 1).toInt ∧ L.zstd l = true
  | some c, level, .GZIP l => c = "gzip" ∧ (l.toNat : Int) = (level.getD 6).toInt ∧ L.gzip l = true
  | none, _, _ => False

theorem toI32_eq {n : Int64} {l : Int32} : toI32 n = some l ↔ l.toInt = n.toInt := by
  have hrange := l.toInt_lt
  have hlow := l.le_toInt
  unfold toI32
  split
  · rename_i hfit
    have hint : n.toInt32.toInt = n.toInt := by
      rw [Int64.toInt_toInt32]
      exact Int.bmod_eq_of_le (by omega) (by omega)
    rw [Option.some.injEq, ← Int32.toInt_inj, hint]
    exact eq_comm
  · rename_i hfit
    constructor
    · intro h
      cases h
    · intro h
      omega

theorem toU32_eq {n : Int64} {l : UInt32} : toU32 n = some l ↔ (l.toNat : Int) = n.toInt := by
  have hrange := l.toNat_lt
  unfold toU32
  split
  · rename_i hfit
    have hnat : (n.toUInt64.toUInt32.toNat : Int) = n.toInt := by
      have hbits : n.toUInt64.toNat = n.toBitVec.toNat := rfl
      have hint : n.toInt = n.toBitVec.toInt := rfl
      rw [UInt64.toNat_toUInt32, hbits]
      rw [hint, BitVec.toInt_eq_toNat_cond] at hfit ⊢
      split <;> omega
    rw [Option.some.injEq, ← UInt32.toNat_inj, ← Int.natCast_inj, hnat]
    exact eq_comm
  · rename_i hfit
    constructor
    · intro h
      cases h
    · intro h
      omega

theorem okOr_ok {T : Type} {o : Option T} {mk : T → Compression} {e : String} {c : Compression} :
    (okOr o e).map mk = .ok c ↔ ∃ l, o = some l ∧ mk l = c := by
  cases o <;> simp [okOr, Except.map]

theorem okOr_error {T : Type} {o : Option T} {mk : T → Compression} {e e' : String}
    (h : (okOr o e).map mk = .error e') : e' = e := by
  cases o with
  | none => exact (Except.error.inj h).symm
  | some l => cases h

theorem compOf_ok {codec : Option String} {level : Option Int64} {c : Compression} :
    compOf L codec level = .ok c ↔ Takes L codec level c := by
  unfold compOf
  split
  · cases c <;> simp [Takes]
  · cases c <;> simp [Takes]
  · have hfilter : ∀ l, (toI32 (level.getD 1)).filter L.zstd = some l ↔
        l.toInt = (level.getD 1).toInt ∧ L.zstd l = true := fun l => by
      rw [Option.filter_eq_some_iff, toI32_eq]
    rw [okOr_ok]
    constructor
    · rintro ⟨l, hl, rfl⟩
      exact ⟨rfl, (hfilter l).mp hl⟩
    · intro ht
      cases c with
      | ZSTD l => exact ⟨l, (hfilter l).mpr ht.2, rfl⟩
      | _ => simp [Takes] at ht
  · cases c <;> simp [Takes]
  · cases c <;> simp [Takes]
  · have hfilter : ∀ l, (toU32 (level.getD 6)).filter L.gzip = some l ↔
        (l.toNat : Int) = (level.getD 6).toInt ∧ L.gzip l = true := fun l => by
      rw [Option.filter_eq_some_iff, toU32_eq]
    rw [okOr_ok]
    constructor
    · rintro ⟨l, hl, rfl⟩
      exact ⟨rfl, (hfilter l).mp hl⟩
    · intro ht
      cases c with
      | GZIP l => exact ⟨l, (hfilter l).mpr ht.2, rfl⟩
      | _ => simp [Takes] at ht
  · rename_i h1 h2 h3 h4 h5
    refine iff_of_false (by simp) ?_
    intro ht
    cases c with
    | UNCOMPRESSED => exact h1 ht
    | SNAPPY => exact h3 ht
    | LZ4_RAW => exact h4 ht
    | ZSTD l => exact h2 ht.1
    | GZIP l => exact h5 ht.1

theorem compOf_names {codec : Option String} {level : Option Int64} {e : String}
    (h : compOf L codec level = .error e) : Names "codec" e ∨ Names "level" e := by
  have hrange : ∀ c, Names "level" (outOfRange c) := by
    intro c
    refine ⟨"pq_write: opt ", " out of range for `" ++ c, ?_⟩
    rw [← String.append_assoc]
    rfl
  unfold compOf at h
  split at h
  · cases h
  · cases h
  · rw [okOr_error h]
    exact .inr (hrange _)
  · cases h
  · cases h
  · rw [okOr_error h]
    exact .inr (hrange _)
  · rename_i c _ _ _ _ _
    cases h
    left
    have hcodec : Names "codec" ("pq_write: opt `codec `") := ⟨"pq_write: opt ", " `", rfl⟩
    exact (hcodec.append c).append _

/-! ## The law -/

/-- What a write is told by its options. An entry that is wrong stops the parse, and the first one
gives the message, which names its key. When all entries are right, the last of each key counts
wherever it stands, a key that is missing has its default, and the parse fails for the codec or its
level alone: there is an answer just when the codec is known and takes the level. -/
theorem the_last_of_each_option_counts (L : Levels) (m : Memory) (x : K) (ks : List Sym) (vals : Q)
    (h : Value m x (.dict (.syms ks) vals)) :
    (∃ ds, (ks.zip (valsOf vals)).map entrySetting = ds.map .ok ∧
      ((∃ o, Gives (parseOpts L m (some x)) (.ok o) ∧
          Takes L ((last Setting.codec? ds).getD none) ((last Setting.level? ds).getD none) o.comp ∧
          o.rg = (last Setting.rg? ds).getD ROW_GROUP ∧ o.dict = (last Setting.dict? ds).getD true ∧
          o.stats = (last Setting.stats? ds).getD true) ∨
        ∃ e, Gives (parseOpts L m (some x)) (.error e) ∧ (Names "codec" e ∨ Names "level" e) ∧
          ∀ c, ¬Takes L ((last Setting.codec? ds).getD none) ((last Setting.level? ds).getD none) c)) ∨
    ∃ pre a post e, ks.zip (valsOf vals) = pre ++ a :: post ∧
      (∀ b ∈ pre, ∃ d, entrySetting b = .ok d) ∧ entrySetting a = .error e ∧
      Gives (parseOpts L m (some x)) (.error e) ∧
      ∀ k, utf8Of a.1.bytes = some k → Names k e := by
  have hgives : Gives (parseOpts L m (some x)) (optsIn L (some (.dict (.syms ks) vals))) :=
    parseOpts_value (.inr ⟨x, _, rfl, rfl, h⟩)
  have hloop : optsIn L (some (.dict (.syms ks) vals)) =
      (((ks.zip (valsOf vals)).mapM entrySetting).map (List.foldl Found.set Found.new)).bind (·.finish L) := by
    rw [← loop_settings]
    rfl
  rw [hloop] at hgives
  rcases @mapM_first _ _ _ entrySetting (ks.zip (valsOf vals)) with ⟨ds, hds, hall⟩ | hfirst
  · left
    refine ⟨ds, hall, ?_⟩
    rw [hds] at hgives
    obtain ⟨hrg, hdict, hstats, hcodec, hlevel⟩ := found_settings ds
    have hfinish : Gives (parseOpts L m (some x)) ((ds.foldl Found.set Found.new).finish L) := hgives
    unfold Found.finish at hfinish
    rw [hcodec, hlevel] at hfinish
    cases hcomp : compOf L ((last Setting.codec? ds).getD none) ((last Setting.level? ds).getD none) with
    | ok c =>
      rw [hcomp] at hfinish
      exact .inl ⟨_, hfinish, compOf_ok.mp hcomp, hrg, hdict, hstats⟩
    | error e =>
      rw [hcomp] at hfinish
      refine .inr ⟨e, hfinish, compOf_names hcomp, fun c hc => ?_⟩
      rw [compOf_ok.mpr hc] at hcomp
      cases hcomp
  · right
    obtain ⟨pre, a, post, e, hsplit, hpre, ha, herr⟩ := hfirst
    rw [herr] at hgives
    refine ⟨pre, a, post, e, hsplit, hpre, ha, hgives, fun k hk => ?_⟩
    unfold entrySetting at ha
    rw [hk] at ha
    exact setting_names ha

/-- zstd and then gzip, and a level of 7. -/
def twoCodecs : Q :=
  .list [.sym ⟨[122, 115, 116, 100]⟩, .long 7, .sym ⟨[103, 122, 105, 112]⟩]

def twoCodecKeys : List Sym :=
  [⟨[99, 111, 100, 101, 99]⟩, ⟨[108, 101, 118, 101, 108]⟩, ⟨[99, 111, 100, 101, 99]⟩]

theorem twoCodecs_value : Value callMemory 11 (.dict (.syms twoCodecKeys) twoCodecs) := by
  have hkeys : Value callMemory 12 (.syms twoCodecKeys) :=
    .syms (by decide) rfl (.cons rfl (.cons rfl (.cons rfl .nil)))
  have hvals : Value callMemory 13 twoCodecs := by
    refine value_list (by decide) rfl (.cons ?_ (.cons ?_ (.cons ?_ .nil)))
    · exact .sym (by decide) rfl
    · exact .inline (by decide) (by decide)
    · exact .sym (by decide) rfl
  exact .dict (by decide) rfl rfl rfl hkeys hvals

theorem the_last_codec_counts : ∃ o,
    Gives (parseOpts ⟨fun _ => true, fun l => l ≤ 9⟩ callMemory (some 11)) (.ok o) ∧
      Takes ⟨fun _ => true, fun l => l ≤ 9⟩ (some "gzip") (some 7) o.comp ∧ o.rg = ROW_GROUP := by
  have hset : (twoCodecKeys.zip (valsOf twoCodecs)).map entrySetting =
      [.codec "zstd", .level 7, .codec "gzip"].map .ok := rfl
  rcases the_last_of_each_option_counts ⟨fun _ => true, fun l => l ≤ 9⟩ callMemory 11 _ _
    twoCodecs_value with ⟨ds, hds, hcase⟩ | ⟨pre, a, post, e, hsplit, _, ha, _⟩
  · have hds : [.codec "zstd", .level 7, .codec "gzip"] = ds :=
      List.map_injective_iff.mpr (fun _ _ => Except.ok.inj) (hset.symm.trans hds)
    subst hds
    rcases hcase with ⟨o, ho, htakes, hrg, _⟩ | ⟨e, _, _, hno⟩
    · exact ⟨o, ho, htakes, hrg⟩
    · exact absurd ⟨rfl, rfl, rfl⟩ (hno (.GZIP 7))
  · have hmem : entrySetting a ∈ [Setting.codec "zstd", .level 7, .codec "gzip"].map Except.ok := by
      rw [← hset, hsplit]
      exact List.mem_map_of_mem (List.mem_append_right _ List.mem_cons_self)
    rw [ha] at hmem
    simp at hmem

end parquet_interop.options
