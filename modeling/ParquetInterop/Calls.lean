-- A whole call of `pq_read` or `pq_rg`: the words of its argument are read, the files are
-- opened beside other calls, and the row groups of the window are decoded.
import ParquetInterop.Opening
import ParquetInterop.StreamRead

open lib.runs lib.reading
open parquet_interop.ffi parquet_interop.footer parquet_interop.read
open parquet_interop.host parquet_interop.args parquet_interop.entry
open parquet_interop.par_map parquet_interop.opening

namespace parquet_interop.calls

/-! ## The call -/

/-- `guard`: a call that unwinds answers an error. -/
def guarded {T : Type} : Answer (Except String T) → Except String T
  | .back r => r
  | .unwound => .error "pq: internal panic"

/-- What comes of the files of a call, on any number of threads, after any calls and beside any. -/
inductive Opens (d : Disk) (fs : List (String × String)) (who : String) : Except String FileSet → Prop
  | run {k : Nat} {s : opening.St} {ans : Answer (Except String FileSet)} :
      Reach (system d fs who k) (Honest d) s → Over s → OpenAnswers fs who s ans →
      Opens d fs who (guarded ans)

/-- `openSet` is what some run of each `open` answers. -/
def Served (d : Disk) (openSet : OpenSet) : Prop := ∀ fs who, Opens d fs who (openSet fs who)

/-- A call that asks for `ask`, and what it answers: an error of its argument or its files, or what
the read answers. -/
inductive CallReads (W : World) (d : Disk) (nthreads k : Nat) (ask : OpenSet → Reading ReadCall)
    (who : String) (m : lib.stores.Mem Nat Cell) : Except String Table → Prop
  | refused {openSet e} : Served d openSet → Gives (ask openSet) (.error e) →
      CallReads W d nthreads k ask who m (.error e)
  | reads {openSet call r} : Served d openSet → Gives (ask openSet) (.ok call) →
      Reads W nthreads k call.set call.sel call.g0 call.g1 call.codes who m r →
      CallReads W d nthreads k ask who m r

/-- The two exports: what each asks for by the words `x`, and by the value `q` of the words. -/
inductive Export (m : Memory) (x : K) (q : Q) :
    (OpenSet → Reading ReadCall) → (OpenSet → Except String ReadCall) → String → Prop
  | pq_read : Export m x q (fun o => pqRead m o x) (fun o => readCall o q) "pq_read"
  | pq_rg : Export m x q (fun o => pqRg m o x) (fun o => rgCall o q) "pq_rg"

/-! ## The files of a call -/

/-- The errors of a thread that panicked. -/
def Panicked (who e : String) : Prop := e = s!"{who}: footer panic" ∨ e = "pq: internal panic"

variable {d : Disk} {fs : List (String × String)} {who : String}

theorem opens_cases {r : Except String FileSet} (h : Opens d fs who r) :
    r = openFiles [] d.look fs who ∨ ∃ e, Panicked who e ∧ r = .error e := by
  cases h with
  | @run k s ans hreach hover hans =>
    by_cases hcalm : s.threw = [] ∧ s.refused = false
    · rw [open_calm hreach hover hcalm.1 hcalm.2 hans]
      exact .inl rfl
    · have hbad : s.threw ≠ [] ∨ s.refused = true := by
        rwa [not_and_or, Bool.not_eq_false] at hcalm
      by_cases hfs : fs = []
      · cases hans with
        | noFiles _ =>
          left
          rw [openFiles, hfs, List.isEmpty_nil, if_pos rfl]
          rfl
        | unwound hne => exact absurd hfs hne
        | panicked hne => exact absurd hfs hne
        | collected hne => exact absurd hfs hne
      · rcases open_panicked hreach hbad hfs hans with rfl | rfl
        · exact .inr ⟨_, .inr rfl, rfl⟩
        · exact .inr ⟨_, .inl rfl, rfl⟩

/-- The files can be opened with no thread in between. -/
theorem opens_alone (d : Disk) (fs : List (String × String)) (who : String) :
    Opens d fs who (openFiles [] d.look fs who) := by
  have hstart : Reach (system d fs who 0) (Honest d) (start 0 footers.St.new) :=
    .start ⟨footers.St.new, .start rfl, nofun, fun _ _ => rfl, rfl⟩
  obtain ⟨s, hreach, hover, hthrew, hrefused⟩ := open_alone hstart rfl nofun rfl rfl
  obtain ⟨ans, hans⟩ := open_answers fs who s
  have hrun := Opens.run hreach hover hans
  rwa [open_calm hreach hover hthrew hrefused hans] at hrun

theorem mapM_mem {α β : Type} {f : α → Except String β} {l : List α} {ys : List β}
    (h : l.mapM f = .ok ys) : ∀ y ∈ ys, ∃ x ∈ l, f x = .ok y := by
  induction l generalizing ys with
  | nil =>
    cases h
    exact nofun
  | cons a l ih =>
    rw [List.mapM_cons] at h
    obtain ⟨b, hb, h⟩ := bind_ok.mp h
    obtain ⟨bs, hbs, h⟩ := bind_ok.mp h
    cases h
    intro y hy
    rcases List.mem_cons.mp hy with rfl | hy
    · exact ⟨a, List.mem_cons_self, hb⟩
    · obtain ⟨x, hx, hfx⟩ := ih hbs y hy
      exact ⟨x, List.mem_cons_of_mem _ hx, hfx⟩

/-- A set of `openFiles` is of loaded files that agree. -/
theorem openFiles_ok {set : FileSet} (h : openFiles [] d.look fs who = .ok set) :
    ∃ srcs, agree srcs who = .ok set ∧ ∀ s ∈ srcs, Loaded s := by
  unfold openFiles at h
  split at h
  · cases h
  obtain ⟨srcs, hsrcs, hagree⟩ := bind_ok.mp h
  refine ⟨srcs, hagree, fun s hs => ?_⟩
  obtain ⟨f, _, hload⟩ := mapM_mem hsrcs s hs
  exact load_loaded (fun e he => absurd he List.not_mem_nil) hload

/-! ## What the exports ask for -/

variable {m : Memory} {x : K} {q : Q} {ask : OpenSet → Reading ReadCall}
  {call : OpenSet → Except String ReadCall}

theorem Export.gives (h : Export m x q ask call who) (hx : Value m x q) (openSet : OpenSet) :
    Gives (ask openSet) (call openSet) := by
  cases h with
  | pq_read => exact pqRead_value openSet hx
  | pq_rg => exact pqRg_value openSet hx

/-- What is asked for after the files are open. -/
theorem bind_served {openSet : OpenSet} (hserved : Served d openSet) (fs : List (String × String))
    (who : String) (f : FileSet → Except String ReadCall) :
    (openSet fs who >>= f) = (openFiles [] d.look fs who >>= f) ∨
      ∃ e, Panicked who e ∧ (openSet fs who >>= f) = .error e := by
  rcases opens_cases (hserved fs who) with h | ⟨e, he, h⟩
  · exact .inl (by rw [h])
  · exact .inr ⟨e, he, by rw [h]; rfl⟩

theorem rgWindow_served {openSet : OpenSet} (hserved : Served d openSet) (f c lo hi : Q) (o : Option Q) :
    rgWindow openSet f c lo hi o = rgWindow (openFiles [] d.look) f c lo hi o ∨
      ∃ e, Panicked "pq_rg" e ∧ rgWindow openSet f c lo hi o = .error e := by
  unfold rgWindow
  cases codesOf "pq_rg" o with
  | error e => exact .inl rfl
  | ok codes =>
    cases files "pq_rg" f with
    | error e => exact .inl rfl
    | ok fs => exact bind_served hserved fs "pq_rg" _

/-- An export asks for the same whatever run the files were opened by, but for a panic. -/
theorem Export.served (h : Export m x q ask call who) {openSet : OpenSet} (hserved : Served d openSet) :
    call openSet = call (openFiles [] d.look) ∨ ∃ e, Panicked who e ∧ call openSet = .error e := by
  cases h with
  | pq_read =>
    show readCall openSet q = _ ∨ _
    unfold readCall
    cases readArgs q with
    | error e => exact .inl rfl
    | ok a => exact bind_served hserved a.files "pq_read" _
  | pq_rg =>
    show rgCall openSet q = _ ∨ _
    unfold rgCall
    split
    · exact rgWindow_served hserved _ _ _ _ none
    · exact rgWindow_served hserved _ _ _ _ (some _)
    · exact .inl rfl

/-- What is asked for is a selection of loaded files. -/
theorem Export.selected (h : Export m x q ask call who) {c : ReadCall}
    (hc : call (openFiles [] d.look) = .ok c) : Selected c.set c.sel ∧ ∀ s ∈ c.set.srcs, Loaded s := by
  have hset : ∀ {fs want} {set : FileSet} {sel : Sel}, openFiles [] d.look fs who = .ok set →
      select set want who = .ok sel → Selected set sel ∧ ∀ s ∈ set.srcs, Loaded s := by
    intro fs want set sel hset hsel
    obtain ⟨srcs, hagree, hloaded⟩ := openFiles_ok hset
    have hsrcs := (agree_cases hagree).1
    exact ⟨select_selected hagree hsel, hsrcs ▸ hloaded⟩
  cases h with
  | pq_read =>
    obtain ⟨a, _, hc⟩ := bind_ok.mp hc
    obtain ⟨set, hopen, hc⟩ := bind_ok.mp hc
    obtain ⟨sel, hsel, hc⟩ := bind_ok.mp hc
    cases hc
    exact hset hopen hsel
  | pq_rg =>
    have hwindow : ∃ f cl lo hi o, rgWindow (openFiles [] d.look) f cl lo hi o = .ok c := by
      change rgCall (openFiles [] d.look) q = .ok c at hc
      unfold rgCall at hc
      split at hc
      · exact ⟨_, _, _, _, _, hc⟩
      · exact ⟨_, _, _, _, _, hc⟩
      · cases hc
    obtain ⟨f, cl, lo, hi, o, hc⟩ := hwindow
    obtain ⟨codes, _, hc⟩ := bind_ok.mp hc
    obtain ⟨fs, _, hc⟩ := bind_ok.mp hc
    obtain ⟨set, hopen, hc⟩ := bind_ok.mp hc
    obtain ⟨want, _, hc⟩ := bind_ok.mp hc
    obtain ⟨sel, hsel, hc⟩ := bind_ok.mp hc
    obtain ⟨l, _, hc⟩ := bind_ok.mp hc
    obtain ⟨r, _, hc⟩ := bind_ok.mp hc
    obtain ⟨_, _, _, rfl⟩ := windowCall_ok.mp hc
    exact hset hopen hsel

/-! ## The law of a call -/

/-- A call that asks for `e` or for a read comes to no other end, but for a panic. -/
theorem call_cases {W : World} {nthreads k : Nat} {mem : lib.stores.Mem Nat Cell}
    (hx : Value m x q) (hexp : Export m x q ask call who) {r : Except String Table}
    (h : CallReads W d nthreads k ask who mem r) :
    (∃ e, Panicked who e ∧ r = .error e) ∨
      (∃ e, call (openFiles [] d.look) = .error e ∧ r = .error e) ∨
      ∃ c, call (openFiles [] d.look) = .ok c ∧
        Reads W nthreads k c.set c.sel c.g0 c.g1 c.codes who mem r := by
  cases h with
  | @refused openSet e hserved hask =>
    have hcall := gives_unique (hexp.gives hx openSet) hask
    rcases hexp.served hserved with heq | ⟨e', he', heq⟩
    · exact .inr (.inl ⟨e, heq ▸ hcall, rfl⟩)
    · cases hcall.symm.trans heq
      exact .inl ⟨e, he', rfl⟩
  | @reads openSet c r hserved hask hreads =>
    have hcall := gives_unique (hexp.gives hx openSet) hask
    rcases hexp.served hserved with heq | ⟨e', he', heq⟩
    · exact .inr (.inr ⟨c, heq ▸ hcall, hreads⟩)
    · cases hcall.symm.trans heq

/-- A call that comes to a read answers its rows. -/
theorem call_answers {W : World} {nthreads k : Nat} {mem : lib.stores.Mem Nat Cell}
    (hx : Value m x q) (hexp : Export m x q ask call who) {c : ReadCall}
    (hcall : call (openFiles [] d.look) = .ok c) (hcodes : c.codes = false) (hk : 0 < k)
    {content : Content} (hW : Whole W c.set.srcs content)
    (hrows : countedRows (windowCounts c.set.srcs c.g0 c.g1) ≤ I32_MAX) :
    CallReads W d nthreads k ask who mem (.ok (windowTable content c.set c.sel c.g0 c.g1)) ∧
      ∀ r, CallReads W d nthreads k ask who mem r →
        r = .ok (windowTable content c.set c.sel c.g0 c.g1) ∨ ∃ e, Panicked who e ∧ r = .error e := by
  have hserved : Served d (openFiles [] d.look) := opens_alone d
  have hgives := hexp.gives hx (openFiles [] d.look)
  rw [hcall] at hgives
  obtain ⟨hsel, hloaded⟩ := hexp.selected hcall
  have hanswers := read_plain hsel hloaded hW hrows who
  constructor
  · obtain ⟨r, hr⟩ := hanswers.returns nthreads k mem
    obtain rfl := hanswers.answer nthreads k mem r hk hr
    exact .reads hserved hgives (hcodes ▸ hr)
  · intro r hr
    rcases call_cases hx hexp hr with hpanic | ⟨e, he, _⟩ | ⟨c', hc', hreads⟩
    · exact .inr hpanic
    · cases hcall.symm.trans he
    · cases hcall.symm.trans hc'
      rw [hcodes] at hreads
      exact .inl (hanswers.answer nthreads k mem r hk hreads)

/-- A call of `pq_read` or `pq_rg` answers the error that the value or the files lead to, or the
table of the row groups that its value asks for, where it asks for no codes, the files deliver what
their footers count, and one vector holds the window. The order in which the threads open the files,
what other calls do to the footer cache meanwhile or did before, and the order in which the row groups
are decoded have no part in it, but that a thread which panics while it opens a file ends the call. -/
theorem a_call_answers_the_rows_of_its_files (hx : Value m x q) (hexp : Export m x q ask call who)
    (W : World) (d : Disk) (nthreads k : Nat) (mem : lib.stores.Mem Nat Cell) :
    match call (openFiles [] d.look) with
    | .error e => CallReads W d nthreads k ask who mem (.error e) ∧
        ∀ r, CallReads W d nthreads k ask who mem r →
          r = .error e ∨ ∃ e', Panicked who e' ∧ r = .error e'
    | .ok c => c.codes = false → 0 < k → ∀ content, Whole W c.set.srcs content →
        countedRows (windowCounts c.set.srcs c.g0 c.g1) ≤ I32_MAX →
        CallReads W d nthreads k ask who mem (.ok (windowTable content c.set c.sel c.g0 c.g1)) ∧
        ∀ r, CallReads W d nthreads k ask who mem r →
          r = .ok (windowTable content c.set c.sel c.g0 c.g1) ∨ ∃ e', Panicked who e' ∧ r = .error e' := by
  cases hcall : call (openFiles [] d.look) with
  | error e =>
    have hgives := hexp.gives hx (openFiles [] d.look)
    rw [hcall] at hgives
    refine ⟨.refused (opens_alone d) hgives, fun r hr => ?_⟩
    rcases call_cases hx hexp hr with hpanic | ⟨e', he', rfl⟩ | ⟨c, hc, _⟩
    · exact .inr hpanic
    · cases hcall.symm.trans he'
      exact .inl rfl
    · cases hcall.symm.trans hc
  | ok c => exact fun hcodes hk content hW hrows => call_answers hx hexp hcall hcodes hk hW hrows

/-- A file of three timestamps in two row groups. -/
def epochDisk : Disk where
  look path :=
    if path = "t" then
      .ok ⟨⟨path, 1, 2, 300, (4, 5)⟩, .ok (stampFile "t" .nanosecond [2, 1]).md, fun _ => none⟩
    else .error "not found"
  keyed path f h := by
    split at h
    · cases h
      rfl
    · cases h

def epochRows (_ : Src) (g : Nat) : List (Option Int64) := ([[some NS2000, none], [some NS2000]][g]?).getD []

theorem three_epochs_are_read : CallReads (stampWorld epochRows) epochDisk 2 2
    (fun o => pqRead callMemory o 2) "pq_read" (fun _ => .g 0)
    (.ok ⟨[intern [116]], [.vec .KP [.j 0, .j NJ, .j 0]], true⟩) := by
  have hlaw := a_call_answers_the_rows_of_its_files tColumn_value .pq_read (stampWorld epochRows) epochDisk
    2 2 fun _ => .g 0
  have hcall : ∃ raw, readCall (openFiles [] epochDisk.look) tColumn = .ok
      ⟨⟨[stampFile "t" .nanosecond [2, 1]], ["t"], [.ok .KP]⟩, ⟨[0], [.KP], [0], raw⟩, 0, 2, false⟩ :=
    ⟨_, rfl⟩
  obtain ⟨raw, hcall⟩ := hcall
  simp only [hcall] at hlaw
  have hwhole : Whole (stampWorld epochRows) [stampFile "t" .nanosecond [2, 1]]
      fun s g _ => (epochRows s g).map (·.map Val.i64) := by
    refine stampWorld_whole fun s hs => ?_
    rw [List.mem_singleton] at hs
    refine ⟨"t", .nanosecond, [2, 1], hs, fun g n hn => ?_⟩
    match g, hn with
    | 0, hn =>
      cases hn
      rfl
    | 1, hn =>
      cases hn
      rfl
  exact (hlaw trivial Nat.two_pos _ hwhole (by decide)).1

/-! ## A call after a write -/

/-- One file is a set of its own. -/
theorem openFiles_one {path orig : String} {s : Src} (h : fresh d ⟨orig, path, who⟩ = .ok s) :
    openFiles [] d.look [(orig, path)] who = .ok (write.oneSet s) := by
  have hload : (load [] orig path (d.look path) who).1 = .ok s := h
  simp only [openFiles, List.isEmpty_cons, Bool.false_eq_true, if_false, List.mapM_cons, List.mapM_nil, hload]
  exact write.agree_one s who

/-- A call that names a written file and no columns answers the table that was written, as the write
hands it back: over every schedule of the write, of the opens beside other calls and of the decodes,
and in whatever words the call is put. -/
theorem a_call_answers_the_table_that_was_written {T : write.LTable} (hT : T.Writable) (o : write.Opts)
    {file : List (List write_queue.Chunk)} (hfile : write.Queued T o file) :
    ∃ w, write.writeTable T o file = .ok w ∧
      ∀ {d : Disk} {path f}, d.look path = .ok f → write.FooterOf w f →
      ∀ {m x q orig}, Value m x q → readArgs q = .ok ⟨[(orig, path)], none, false⟩ →
      ∃ s, fresh d ⟨orig, path, "pq_read"⟩ = .ok s ∧
        ∀ {W content}, Whole W [s] content → write.Returns w s content →
        ∀ (nthreads k : Nat) (mem : lib.stores.Mem Nat Cell), 0 < k →
          CallReads W d nthreads k (fun openSet => pqRead m openSet x) "pq_read" mem (.ok T.back) ∧
          ∀ r, CallReads W d nthreads k (fun openSet => pqRead m openSet x) "pq_read" mem r →
            r = .ok T.back ∨ ∃ e, Panicked "pq_read" e ∧ r = .error e := by
  obtain ⟨columns, hok, hfields⟩ := stream.prepare_written hT o
  refine ⟨⟨o, columns, file.map fun g => g.map T.encode⟩, by simp [write.writeTable, hok, Except.map], ?_⟩
  intro d path f hlook hf m x q orig hx hargs
  obtain ⟨s, hload, _, hrows, hs⟩ :=
    write.load_written hf hfields (fun e he => absurd he List.not_mem_nil) orig path "pq_read"
  have hfresh : fresh d ⟨orig, path, "pq_read"⟩ = .ok s := by
    unfold fresh
    rw [hlook]
    exact hload
  refine ⟨s, hfresh, fun {W content} hW hret nthreads k mem hk => ?_⟩
  obtain ⟨sel, hsel, hout, hlts⟩ := write.select_written hs "pq_read"
  have hcall : readCall (openFiles [] d.look) q =
      .ok ⟨write.oneSet s, sel, 0, (write.oneSet s).nRg, false⟩ := by
    unfold readCall
    rw [hargs]
    show (openFiles [] d.look [(orig, path)] "pq_read" >>= _) = _
    rw [openFiles_one hfresh]
    show (select (write.oneSet s) none "pq_read" >>= _) = _
    rw [hsel]
    rfl
  have htable : windowTable content (write.oneSet s) sel 0 (write.oneSet s).nRg = T.back :=
    write.table_back hs hout hlts fun c v hv =>
      write.cells_back hT o.rg_pos (write.queued_groups hfile) hs hrows hret hv
  have hshort : countedRows (windowCounts [s] 0 (write.oneSet s).nRg) ≤ I32_MAX := by
    have hcounted := stream.rows_written hT hfile hs hrows hW hret
    have hn : (write.oneSet s).nRg = s.rg_rows.length := rfl
    rw [hn, hcounted]
    exact hT.short
  rw [← htable]
  exact call_answers hx .pq_read hcall rfl hk hW hshort

theorem the_stamps_are_answered_after_their_write : ∃ w,
    write.writeTable write.threeStamps write.byTwo write.stampGroups = .ok w ∧
      CallReads (stampWorld write.stampRows) epochDisk 2 2 (fun openSet => pqRead callMemory openSet 2)
        "pq_read" (fun _ => .g 0) (.ok ⟨[intern [116]], [.vec .KP [.j 1, .j NJ, .j NJ]], true⟩) := by
  obtain ⟨w, hw, hread⟩ := a_call_answers_the_table_that_was_written
    ⟨by decide, by decide, by decide, by decide⟩ write.byTwo stream.stamps_queued
  refine ⟨w, hw, ?_⟩
  obtain ⟨_, hfooter⟩ := stream.stamps_footer hw
  obtain ⟨s, hfresh, hanswers⟩ := @hread epochDisk "t" _ rfl ⟨hfooter.parsed, hfooter.tryNew⟩ _ _ _ "t"
    tColumn_value rfl
  cases hfresh
  exact (hanswers stream.stamps_whole (stream.stamps_returned hw) 2 2 _ Nat.two_pos).1

end parquet_interop.calls
