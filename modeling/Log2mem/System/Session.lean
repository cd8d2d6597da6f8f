import Log2mem.System.Report
import Log2mem.Tool.Settable

/-! A memmap behaves like a store, for the program and for the tool.

    Requests go to the memmap and to the store; whatever the getters return and the tool prints is the
    store's. The tool maps the file of the memmap, takes its command line apart twice, sets variables and
    prints sections; the program goes on with what it left.

        program:  req ─ req ─┐               ┌─ req ─ req ─▶ getters
        tool:                └─ argv ─ argv ─┘               sections
                  Store.step ▶ Store.step ▶ … ▶ Store.step   report       -/

namespace Log2mem
open Schemes

/-! ### What can be observed -/

/-- What the getters return, and what the tool prints, is the store's. -/
structure Observed (G : Geometry) (date : List UInt8) (m : Mem) (S : Store) : Prop where
  get : ∀ (t : VarTable) (id : UInt32), t.get G.handle id m = some (S.vars t (id.toNat % G.numVars)).value
  used : ∀ (t : VarTable) (id : UInt32), varUsed t G.handle id m =
    some (if (S.vars t (id.toNat % G.numVars)).used then eUsed else 0)
  attach : log2memAttach G.ps m = some G.handle
  sections : ∀ (g : Globals) (p : Printf) (fuel : ℕ) (sec : Section), G.rowLen < fuel →
    printSection g p fuel G.ps G.handle m sec = some (S.report g p G date sec)

/-- From here on every allowed list of requests is done, and what can be observed then is the store's. -/
def BehavesLike (f : Sscanf) (G : Geometry) (date : List UInt8) (s : LogState) (S : Store) : Prop :=
  ∀ reqs, AllowedRun (Store.step f G.shape) (Request.Allowed G.shape) S reqs →
    ∃ s', exec (Request.call f G.handle) s reqs = some s' ∧
      Observed G date s'.mem (reqs.foldl (Store.step f G.shape) S)

section Observed
variable {G : Geometry} {date : List UInt8} {s : LogState} {S : Store} {f : Sscanf}

theorem StoreHolds.observed (h : StoreHolds G date s S) (hn : 1 ≤ G.numVars) : Observed G date s.mem S :=
  have hv := h.mapped.varTables hn
  { get := fun t _ => (h.vars t _ (hv.mod_lt rfl)).get_eq hv rfl
    used := fun t _ => (h.vars t _ (hv.mod_lt rfl)).used_eq hv rfl
    attach := h.mapped.attach_eq
    sections := fun _ _ _ sec hfuel => h.printSection_eq hn hfuel sec }

theorem StoreHolds.behaves (h : StoreHolds G date s S) (hn : 1 ≤ G.numVars) : BehavesLike f G date s S :=
  fun _ hreqs =>
    let ⟨s', e, h'⟩ := (StoreHolds.step hn).run h hreqs
    ⟨s', e, h'.observed hn⟩

theorem Geometry.size_pages (G : Geometry) :
    (G.layout.size + G.ps.bytes - 1) / G.ps.bytes * G.ps.bytes = G.layout.size := by
  have hpos := G.ps.bytes_pos
  obtain ⟨q, hq⟩ : ∃ q : ℤ, G.layout.size = q * G.ps.bytes := by
    rw [G.layout_eq]
    exact ⟨_, rfl⟩
  rw [hq, show q * G.ps.bytes + G.ps.bytes - 1 = G.ps.bytes - 1 + q * G.ps.bytes by ring,
    Int.add_mul_ediv_right _ _ (by omega), Int.ediv_eq_zero_of_lt (by omega) (by omega), zero_add]

/-- The pages the file of a memmap is mapped to hold the store as well. -/
theorem StoreHolds.pages (h : StoreHolds G date s S) : StoreHolds G date ⟨filePages G.ps s.mem, s.rows⟩ S := by
  have hsize := h.mapped.size
  have hf : Mem.Frame (Set.Ici G.layout.size) s.mem (filePages G.ps s.mem) := by
    refine ⟨?_, fun x hx => if_pos ?_⟩
    · simp only [filePages, hsize, G.size_pages]
      omega
    · rw [hsize]
      simpa using hx
  have horder := G.section_order
  refine h.on_tables hf (fun x hx => ?_) (fun i hi => (h.counters i hi).elsewhere hi hf fun x hx hin => ?_)
    fun t i hi => (h.vars t i hi).frame_of hf fun x hx => ?_
  · have : G.layout.size ≤ x := hx
    omega
  · have : G.layout.size ≤ x := hx
    have := G.counterBytes_aside.2 x hin
    omega
  · have : G.layout.size ≤ x := hx
    have := (G.var_room t hi).2
    rw [Geometry.var] at this
    omega

end Observed

/-! ### The operations of the tool -/

/-- Some variable in use has this name. -/
def Store.named (sh : Shape) (S : Store) (label : Text) : Bool :=
  [VarTable.double, .int].any fun t => (List.range sh.vars).any fun i =>
    (S.vars t i).used && labelText (S.vars t i).label = label

/-- What an operation prints: a warning about a name that no variable has. -/
def SetOp.warning (sh : Shape) (S : Store) : SetOp → Text
  | .index .. => []
  | .name label _ =>
    if label = [] ∨ S.named sh label then []
    else ascii "warning, no variable found with name \"" ++ label ++ ascii "\"\n"

/-- What the operations of a command line print, one after the other. -/
def Store.warnings (f : Sscanf) (sh : Shape) : Store → List SetOp → Text
  | _, [] => []
  | S, op :: ops => op.warning sh S ++ Store.warnings f sh (S.step f sh (.tool op)) ops

section Operations
variable {G : Geometry} {date : List UInt8} {s : LogState} {S : Store} {f : Sscanf}

/-- What was printed before makes no difference. -/
theorem SetOp.run_out (h : Handle) (m : Mem) (out : Text) (op : SetOp) : op.run f h ⟨m, out⟩ =
    (op.run f h ⟨m, []⟩).map fun w => ⟨w.mem, out ++ w.out⟩ := by
  cases op with
  | index t idx val => cases h' : t.set h idx val m <;> simp [SetOp.run, h']
  | name label p =>
    simp only [SetOp.run, setNamed]
    split
    · simp
    · cases searchVars f .double h label p 4294967296 0 false m with
      | none => rfl
      | some x =>
        simp only [Option.bind_eq_bind, Option.bind_some]
        cases searchVars f .int h label p 4294967296 0 x.2 x.1 with
        | none => rfl
        | some y => simp only [Option.bind_some]; split <;> simp

/-- A name is warned about when no variable has it. -/
theorem StoreHolds.named_out (h : StoreHolds G date s S) (hn : 1 ≤ G.numVars) {label p : Text}
    (hlabel : 0 ∉ label) {w : World} (e : setNamed f G.handle label p ⟨s.mem, []⟩ = some w) :
    w.out = SetOp.warning G.shape S (.name label p) := by
  have hv := h.mapped.varTables hn
  have he : TextsEnd G.handle G.numVars s.mem := fun t i hi => (h.vars t i hi).varText_eq.1
  have hlt : G.numVars < 4294967296 := G.cfg.numVars.toNat_lt
  obtain ⟨m₁, found₁, e₁, h₁, hfound₁, -⟩ := searchVars_spec (f := f) (p := p) (t := .double) hlabel
    4294967296 0 false hv he (Nat.zero_le _) (by omega)
  obtain ⟨m₂, found₂, e₂, h₂, hfound₂, -⟩ := searchVars_spec (f := f) (p := p) (t := .int) hlabel
    4294967296 0 found₁ h₁.tables' (h₁.textsEnd he) (Nat.zero_le _) (by omega)
  have hfound : ∀ t : VarTable, (∃ j, 0 ≤ j ∧ j < G.numVars ∧ Named G.handle s.mem label t j) ↔
      ((List.range G.shape.vars).any fun i =>
        (S.vars t i).used && labelText (S.vars t i).label = label) = true := by
    intro t
    simp only [List.any_eq_true, List.mem_range, Bool.and_eq_true, decide_eq_true_eq]
    exact exists_congr fun j => ⟨fun ⟨_, hj, hnamed⟩ => ⟨hj, ((h.vars t j hj).named_iff label).mp hnamed⟩,
      fun ⟨hj, hnamed⟩ => ⟨Nat.zero_le j, hj, ((h.vars t j hj).named_iff label).mpr hnamed⟩⟩
  have hnamed : found₂ = S.named G.shape label := by
    have hint : (∃ j, 0 ≤ j ∧ j < G.numVars ∧ Named G.handle m₁ label .int j) ↔
        ∃ j, 0 ≤ j ∧ j < G.numVars ∧ Named G.handle s.mem label .int j :=
      exists_congr fun j => and_congr_right fun _ => and_congr_right fun hj => h₁.named_iff hj
    rw [Bool.eq_iff_iff, hfound₂, hfound₁, hint, hfound, hfound]
    simp [Store.named]
  rw [setNamed] at e
  by_cases hnil : label = []
  · rw [if_pos hnil, Option.pure_def, Option.some.injEq] at e
    simp [SetOp.warning, hnil, ← e]
  · simp only [if_neg hnil, e₁, e₂, Option.bind_eq_bind, Option.bind_some, Option.pure_def] at e
    cases hf : found₂ with
    | true =>
      rw [hf] at e hnamed
      simp [SetOp.warning, ← hnamed, ← Option.some.inj e]
    | false =>
      rw [hf] at e hnamed
      simp [SetOp.warning, hnil, ← hnamed, ← Option.some.inj e]

/-- OPERATION: the tool does on the memmap what the request means, and prints its warning. -/
theorem StoreHolds.operation (h : StoreHolds G date s S) (hn : 1 ≤ G.numVars) {op : SetOp}
    (hop : op.NulFree) (out : Text) :
    ∃ m', op.run f G.handle ⟨s.mem, out⟩ = some ⟨m', out ++ op.warning G.shape S⟩ ∧
      StoreHolds G date ⟨m', s.rows⟩ (S.step f G.shape (.tool op)) := by
  have hok : (Request.tool op).Allowed G.shape S := by
    cases op with
    | index t idx val => trivial
    | name label p => exact hop
  obtain ⟨s', e, h'⟩ := StoreHolds.step (f := f) hn s S (.tool op) h hok
  simp only [Request.call, LogState.onMem, Option.map_map, Option.map_eq_some_iff, Function.comp] at e
  obtain ⟨w, e, rfl⟩ := e
  have hprinted : w.out = op.warning G.shape S := by
    cases op with
    | index t idx val =>
      obtain ⟨m', -, rfl⟩ := Option.map_eq_some_iff.mp e
      rfl
    | name label p => exact h.named_out hn hop e
  exact ⟨w.mem, by rw [SetOp.run_out, e, Option.map_some, hprinted], h'⟩

/-- OPERATIONS: so do all of a command line. -/
theorem StoreHolds.operations (hn : 1 ≤ G.numVars) : ∀ {ops : List SetOp} {s : LogState} {S : Store}
    (out : Text), StoreHolds G date s S → (∀ op ∈ ops, op.NulFree) →
    ∃ m', exec (SetOp.run f G.handle) ⟨s.mem, out⟩ ops = some ⟨m', out ++ S.warnings f G.shape ops⟩ ∧
      StoreHolds G date ⟨m', s.rows⟩ ((ops.map Request.tool).foldl (Store.step f G.shape) S)
  | [], s, S, out, h, _ => ⟨s.mem, by simp [exec, Store.warnings], h⟩
  | op :: ops, s, S, out, h, hops => by
    obtain ⟨m₁, e₁, h₁⟩ := h.operation (f := f) hn (hops op (List.mem_cons_self ..)) out
    obtain ⟨m₂, e₂, h₂⟩ := StoreHolds.operations hn (out ++ op.warning G.shape S) h₁
      fun op' hop' => hops op' (List.mem_cons_of_mem op hop')
    refine ⟨m₂, ?_, h₂⟩
    rw [exec, e₁, Option.bind_some, e₂, Store.warnings, List.append_assoc]

end Operations

/-! ### The command line -/

/-- What a part of the command line assigns to the globals, if anything. -/
structure Settings where
  terse : Option Bool
  showdelim : Option Bool
  delim : Option Text

/-- The assignments. -/
def Settings.assign (c : Settings) (g : Globals) : Globals :=
  ⟨c.terse.getD g.terse, c.showdelim.getD g.showdelim, c.delim.getD g.delim⟩

/-- The sections a pass prints when it comes to its end. -/
def ArgState.shown (s : ArgState) : List Section :=
  sections (if s.defaultshow ∧ s.toshow = 0 then 0xFFFF else s.toshow)

section Passes
variable {env : ToolEnv} {argv : List CStr}

theorem Settings.assign_assign (c : Settings) (g : Globals) : c.assign (c.assign g) = c.assign g := by
  obtain ⟨_ | _, _ | _, _ | _⟩ := c <;> rfl

theorem Settings.assign_trans (a b : Settings) : ∃ c : Settings, ∀ g, c.assign g = b.assign (a.assign g) :=
  ⟨⟨b.terse.or a.terse, b.showdelim.or a.showdelim, b.delim.or a.delim⟩, fun g => by
    obtain ⟨_ | _, _ | _, _ | _⟩ := b <;> rfl⟩

/-- An argument assigns to the globals, and reads none of them. -/
theorem readArg_settings (env : ToolEnv) (argv : List CStr) (s : ArgState) :
    ∃ c : Settings, ∀ g, readArg env argv { s with globals := g } =
      (readArg env argv s).map fun x => ({ x.1 with globals := c.assign g }, x.2) := by
  unfold readArg
  dsimp only
  cases branch (argAt argv s.i) with
  | delim =>
    cases argv[s.i + 1]? with
    | none => exact ⟨⟨none, none, none⟩, fun g => rfl⟩
    | some delim => exact ⟨⟨none, some true, some delim.chars⟩, fun g => rfl⟩
  | noDelim => exact ⟨⟨none, some false, none⟩, fun g => rfl⟩
  | terse => exact ⟨⟨some true, none, none⟩, fun g => rfl⟩
  | setDouble => exact ⟨⟨none, none, none⟩, fun g => by cases processSetVarArg argv s.i optDouble <;> rfl⟩
  | setInt => exact ⟨⟨none, none, none⟩, fun g => by cases processSetVarArg argv s.i optInt <;> rfl⟩
  | setString => exact ⟨⟨none, none, none⟩, fun g => by cases processSetVarArg argv s.i optString <;> rfl⟩
  | setByName => exact ⟨⟨none, none, none⟩, fun g => by cases nameArg argv s.i <;> rfl⟩
  | filename => exact ⟨⟨none, none, none⟩, fun g => by cases s.filename <;> rfl⟩
  | _ => exact ⟨⟨none, none, none⟩, fun g => rfl⟩

theorem readArgs_settings (env : ToolEnv) (argv : List CStr) (rounds : ℕ) : ∀ s : ArgState,
    ∃ c : Settings, ∀ g, readArgs env argv rounds { s with globals := g } =
      (readArgs env argv rounds s).map fun x => ({ x.1 with globals := c.assign g }, x.2) := by
  induction rounds with
  | zero => exact fun s => ⟨⟨none, none, none⟩, fun g => rfl⟩
  | succ rounds ih =>
    intro s
    simp only [readArgs]
    by_cases hi : s.i < argv.length
    · simp only [if_pos hi]
      obtain ⟨a, hone⟩ := readArg_settings env argv s
      cases hr : readArg env argv s with
      | error e => exact ⟨a, fun g => by rw [hone, hr]; rfl⟩
      | ok x =>
        obtain ⟨b, hrest⟩ := ih { x.1 with i := x.1.i + 1 }
        obtain ⟨c, hc⟩ := a.assign_trans b
        refine ⟨c, fun g => ?_⟩
        rw [hone, hr]
        have hrest := hrest (a.assign g)
        simp only [Except.map, bind, Except.bind, pure, Except.pure, hrest]
        cases readArgs env argv rounds { x.1 with i := x.1.i + 1 } with
        | error e => rfl
        | ok y => rw [hc]
    · simp only [if_neg hi]
      exact ⟨⟨none, none, none⟩, fun g => rfl⟩

/-- AGAIN: read with the globals it leaves, a command line is read the same. -/
theorem readArgs_again {rounds : ℕ} {s st : ArgState} {ops : List SetOp}
    (hr : readArgs env argv rounds s = .ok (st, ops)) :
    readArgs env argv rounds { s with globals := st.globals } = .ok (st, ops) := by
  obtain ⟨c, hc⟩ := readArgs_settings env argv rounds s
  have hstart := hc s.globals
  simp only [hr, Except.map, Except.ok.injEq, Prod.mk.injEq] at hstart
  have hst : st = { st with globals := c.assign s.globals } := hstart.1
  have hglobals : st.globals = c.assign s.globals := congrArg ArgState.globals hst
  rw [hc, hr, hglobals, c.assign_assign]
  exact congrArg (fun x => Except.ok (x, ops)) hst.symm

/-- DONE: on a command line that is read to its end, with a filename that can be attached to, the program
    runs the operations and prints the sections asked for, with the globals of the first pass. -/
theorem dumpMain_done {attach : CStr → Except Text Handle} {st : ArgState} {ops : List SetOp}
    {filename : CStr} {h : Handle} {w w' : World}
    (hr : readArgs env argv argv.length (.start .start) = .ok (st, ops))
    (hname : st.filename = some filename) (ha : attach filename = .ok h)
    (hexec : exec (SetOp.run env.sscanf h) w ops = some w') :
    dumpMain env attach argv w = .done ⟨st.filename, st.globals, st.shown⟩ w' := by
  have hone : parseArgs env argv true none .start w = .done ⟨st.filename, st.globals, []⟩ w := by
    rw [parseArgs, parseLoop_none, hr]
    rfl
  have hagain : readArgs env argv argv.length (.start st.globals) = .ok (st, ops) := readArgs_again hr
  have htwo : parseArgs env argv false (some h) st.globals w =
      .done ⟨st.filename, st.globals, st.shown⟩ w' := by
    rw [parseArgs, parseLoop_some h argv.length hagain, hexec]
    rfl
  rw [dumpMain, hone]
  simp only [hname, ha]
  rw [htwo, hname]

end Passes

/-! ### The system -/

/-- STORE: a created memmap behaves like the empty store, for all that is requested of it afterwards. -/
theorem memmap_behaves_like_store {G : Geometry} {os : Os} {date : List UInt8} {h : Handle} {m₀ : Mem}
    (f : Sscanf) (hn : 1 ≤ G.numVars) (hc : create os G.ps date G.config = some (h, m₀)) :
    h = G.handle ∧ BehavesLike f G date ⟨m₀, []⟩ .empty :=
  have hstart := StoreHolds.start hn hc
  ⟨hstart.1, hstart.2.behaves hn⟩

/-- A row `x`, the variable `hi` and the counter `ho`. -/
def hiRequests : List Request :=
  [.log (.write (some (oneChar 120 (by decide))) none 0 smallEnv), .var initHi,
    .counter (.label 0 ⟨ascii "ho", by decide⟩), .counter (.add 0 7)]

/-- These, a second row with a 4, a time set on it, the tool setting `hi`, and one more amount. -/
def manyRequests : List Request :=
  hiRequests ++ [.log (.getRow none 0 smallEnv), .log (.append 1 (.int 4)), .setTs 1 9,
    .tool (.name (ascii "hi") (ascii "1")), .counter (.add 0 2)]

/-- After these the variable is 1, and rows, counter and variable are printed. -/
theorem memmap_behaves_like_store_many : ∃ m₀ s,
    create ⟨true, true⟩ twoRows.ps [] twoRows.config = some (twoRows.handle, m₀) ∧
    exec (Request.call plainSscanf twoRows.handle) ⟨m₀, []⟩ manyRequests = some s ∧
    VarTable.int.get twoRows.handle 0 s.mem = some (1 : Int32) ∧
    log2memAttach twoRows.ps s.mem = some twoRows.handle ∧
    [.rows, .counters, .vars].map
        (printSection ⟨true, true, [32]⟩ oneDigit 17 twoRows.ps twoRows.handle s.mem) =
      [some (ascii "x\n4\n"), some (ascii "counter[0] ho : 9\n"), some (ascii "int[0] hi : 1\n")] := by
  obtain ⟨m₀, hc, -⟩ := twoRows.created []
  have hreqs : AllowedRun (Store.step plainSscanf twoRows.shape) (Request.Allowed twoRows.shape) .empty
      manyRequests := by
    have hnone : ∀ x ∈ (none : Option CStr), x.Short := by simp
    have hx : ∀ x ∈ some (oneChar 120 (by decide)), x.Short := by simp [oneChar, CStr.Short]
    have htime : Retained 2 2 1 := by decide
    have hname : 0 ∉ ascii "hi" := by decide
    exact ⟨⟨hx, hnone⟩, trivial, trivial, trivial, hnone, ⟨htime, trivial⟩, htime, hname, trivial, trivial⟩
  obtain ⟨s, e, hs⟩ := (memmap_behaves_like_store plainSscanf (by decide) hc).2 _ hreqs
  refine ⟨m₀, s, hc, e, (hs.get .int 0).trans (by decide), hs.attach, ?_⟩
  have hsec := fun sec => hs.sections ⟨true, true, [32]⟩ oneDigit 17 sec (by decide)
  simp only [List.map_cons, List.map_nil, hsec]
  decide

/-- SESSION: after any requests the tool attaches to the file of the memmap. On a command line that is
    read to its end and names a file it comes to its end: its operations are what they mean for the
    store, it warns of the names no variable has, and prints the report of what is then stored, section
    by section. What it leaves behaves like the store from there on. -/
theorem tool_session {G : Geometry} {os : Os} {date : List UInt8} {h : Handle} {m₀ : Mem} {env : ToolEnv}
    (hn : 1 ≤ G.numVars) (hc : create os G.ps date G.config = some (h, m₀)) {reqs : List Request}
    (hreqs : AllowedRun (Store.step env.sscanf G.shape) (Request.Allowed G.shape) .empty reqs)
    {argv : List CStr} {st : ArgState} {ops : List SetOp} {filename : CStr}
    (hr : readArgs env argv argv.length (.start .start) = .ok (st, ops))
    (hname : st.filename = some filename) (strerr : Text) :
    ∃ s m', exec (Request.call env.sscanf h) ⟨m₀, []⟩ reqs = some s ∧
      let S := reqs.foldl (Store.step env.sscanf G.shape) .empty
      let S' := (ops.map Request.tool).foldl (Store.step env.sscanf G.shape) S
      dumpMain env (fun _ => attachFile G.ps s.mem strerr) argv ⟨filePages G.ps s.mem, []⟩ =
        .done ⟨some filename, st.globals, st.shown⟩ ⟨m', S.warnings env.sscanf G.shape ops⟩ ∧
      (∀ (p : Printf) (fuel : ℕ), G.rowLen < fuel →
        printSections st.globals p fuel G.ps h m' st.shown =
          some (st.shown.flatMap (S'.report st.globals p G date))) ∧
      BehavesLike env.sscanf G date ⟨m', s.rows⟩ S' := by
  obtain ⟨rfl, hstart⟩ := StoreHolds.start hn hc
  obtain ⟨s, e, hs⟩ := (StoreHolds.step hn).run hstart hreqs
  obtain ⟨m', e', hm'⟩ := StoreHolds.operations (f := env.sscanf) hn [] hs.pages
    (readArgs_nul_free argv.length hr)
  have hattach : attachFile G.ps s.mem strerr = .ok G.handle := by
    rw [attachFile, hs.mapped.attach_eq]
  refine ⟨s, m', e, ?_, fun p fuel hfuel => hm'.printSections_eq hn hfuel st.shown, hm'.behaves hn⟩
  rw [dumpMain_done hr hname hattach e', hname, List.nil_append]

/-- `dump mm -t -r -c -v --hi=1 --ho=2`. -/
def hiArgs : List CStr :=
  [⟨ascii "dump", by decide⟩, ⟨ascii "mm", by decide⟩, ⟨ascii "-t", by decide⟩,
    ⟨ascii "-r", by decide⟩, ⟨ascii "-c", by decide⟩, ⟨ascii "-v", by decide⟩,
    ⟨ascii "--hi=1", by decide⟩, ⟨ascii "--ho=2", by decide⟩]

/-- There `hi` is set, `ho` is warned about, and the row, the counter and the variable are printed. -/
theorem tool_session_hi : ∃ m₀ s m',
    create ⟨true, true⟩ twoRows.ps [] twoRows.config = some (twoRows.handle, m₀) ∧
    exec (Request.call plainEnv.sscanf twoRows.handle) ⟨m₀, []⟩ hiRequests = some s ∧
    dumpMain plainEnv (fun _ => attachFile twoRows.ps s.mem []) hiArgs ⟨filePages twoRows.ps s.mem, []⟩ =
      .done ⟨some ⟨ascii "mm", by decide⟩, ⟨true, true, [32]⟩, [.rows, .counters, .vars]⟩
        ⟨m', ascii "warning, no variable found with name \"ho\"\n"⟩ ∧
    printSections ⟨true, true, [32]⟩ oneDigit 17 twoRows.ps twoRows.handle m' [.rows, .counters, .vars] =
      some (ascii "x\ncounter[0] ho : 7\nint[0] hi : 1\n") := by
  obtain ⟨m₀, hc, -⟩ := twoRows.created []
  have hread : ∃ st, readArgs plainEnv hiArgs hiArgs.length (.start .start) =
      .ok (st, [.name (ascii "hi") (ascii "1"), .name (ascii "ho") (ascii "2")]) ∧
      st.filename = some ⟨ascii "mm", by decide⟩ ∧ st.globals = ⟨true, true, [32]⟩ ∧
      st.shown = [.rows, .counters, .vars] := ⟨_, rfl, rfl, rfl, rfl⟩
  obtain ⟨st, hr, hname, hglobals, hshown⟩ := hread
  have hreqs : AllowedRun (Store.step plainEnv.sscanf twoRows.shape) (Request.Allowed twoRows.shape) .empty
      hiRequests := by
    simp [hiRequests, initHi, AllowedRun, Request.Allowed, Op.Allowed, oneChar, CStr.Short]
  obtain ⟨s, m', e, hmain, hprint, -⟩ := tool_session (by decide) hc hreqs hr hname []
  have hprint := hprint oneDigit 17 (by decide)
  have hprinted : (hiRequests.foldl (Store.step plainEnv.sscanf twoRows.shape) .empty).warnings plainEnv.sscanf
      twoRows.shape [.name (ascii "hi") (ascii "1"), .name (ascii "ho") (ascii "2")] =
        ascii "warning, no variable found with name \"ho\"\n" := by decide
  rw [hglobals, hshown] at hmain hprint
  rw [hprinted] at hmain
  exact ⟨m₀, s, m', hc, e, hmain, hprint.trans (by decide)⟩

end Log2mem
