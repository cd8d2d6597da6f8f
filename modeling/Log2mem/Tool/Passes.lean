import Log2mem.Schemes.Runs
import Log2mem.Tool.ByName
import Log2mem.Tool.ByIndex

/-! The two passes over the command line (`parse_args`, `main`).

    The first pass has no memmap and only checks the syntax; the second has one, and sets variables as it
    goes. Both take every argument apart in the same way, so once the first has come to the end the
    second never ends the program: its set operations are run one after the other, and only an access
    outside the mapping stops them.

        argv ──pass 1──┬─ exit: nothing was set
                       └─ filename ──attach──▶ pass 2: op ─▶ op ─▶ … ─▶ sections shown -/

namespace Log2mem
open Schemes

/-- The locals of `parse_args`, and the globals it sets. -/
structure ArgState where
  i : ℕ
  filename : Option CStr
  defaultshow : Bool
  toshow : UInt32
  globals : Globals

/-- The locals before the loop. -/
def ArgState.start (g : Globals) : ArgState :=
  { i := 1, filename := none, defaultshow := true, toshow := 0, globals := g }

/-- `g_delim`, `g_showdelim` and `g_terse` as the program starts. -/
def Globals.start : Globals := { terse := false, showdelim := true, delim := [32] }

/-- The body of the loop of `parse_args`. -/
def parseArg (env : ToolEnv) (argv : List CStr) (handle : Option Handle) (s : ArgState) (w : World) :
    Outcome ArgState :=
  match branch (argAt argv s.i) with
  | .help => .exit .help w
  | .show bits => .done { s with toshow := s.toshow ||| bits } w
  | .delim =>
    match argv[s.i + 1]? with
    | none => .exit (.die (ascii "missing argument to -F") []) w
    | some delim =>
      .done { s with i := s.i + 1, globals := { s.globals with delim := delim.chars, showdelim := true } } w
  | .noDelim => .done { s with globals := { s.globals with showdelim := false } } w
  | .terse => .done { s with globals := { s.globals with terse := true } } w
  | .version => .exit .version w
  | .setDouble => (setVarDouble env argv s.i handle w).map fun i => { s with i, defaultshow := false }
  | .setInt => (setVarInt env argv s.i handle w).map fun i => { s with i, defaultshow := false }
  | .setString => (setVarString argv s.i w).map fun i => { s with i, defaultshow := false }
  | .setByName => (setVarByName env argv s.i handle w).map fun i => { s with i, defaultshow := false }
  | .filename =>
    match s.filename with
    | none => .done { s with filename := argv[s.i]? } w
    | some _ => .exit (.die (ascii "unexpected argument: ") (argAt argv s.i)) w

/-- The loop of `parse_args`; `argc` rounds are enough. -/
def parseLoop (env : ToolEnv) (argv : List CStr) (handle : Option Handle) :
    ℕ → ArgState → World → Outcome ArgState
  | 0, s, w => .done s w
  | rounds + 1, s, w =>
    if s.i < argv.length then
      match parseArg env argv handle s w with
      | .done s w => parseLoop env argv handle rounds { s with i := s.i + 1 } w
      | .exit e w => .exit e w
      | .fault => .fault
    else .done s w

/-- The sections `parse_args` prints, in this order. -/
inductive Section where
  | summary
  | rows
  | counters
  | vars

/-- The sections asked for by `toshow`. -/
def sections (toshow : UInt32) : List Section :=
  (if toshow &&& eSummary ≠ 0 then [.summary] else []) ++ (if toshow &&& eRows ≠ 0 then [.rows] else []) ++
  (if toshow &&& eCounters ≠ 0 then [.counters] else []) ++ (if toshow &&& eVars ≠ 0 then [.vars] else [])

/-- What `parse_args` returns, the globals it leaves, and the sections it prints. -/
structure Parsed where
  filename : Option CStr
  globals : Globals
  shown : List Section

/-- `parse_args`. -/
def parseArgs (env : ToolEnv) (argv : List CStr) (parseonly : Bool) (handle : Option Handle)
    (g : Globals) (w : World) : Outcome Parsed :=
  (parseLoop env argv handle argv.length (.start g) w).map fun s =>
    let toshow := if s.defaultshow ∧ s.toshow = 0 then 0xFFFF else s.toshow
    { filename := s.filename, globals := s.globals, shown := if parseonly then [] else sections toshow }

/-- `main`; `attach` is `log2mem_attach` on the file system, or the text of its error. -/
def dumpMain (env : ToolEnv) (attach : CStr → Except Text Handle) (argv : List CStr) (w : World) :
    Outcome Parsed :=
  match parseArgs env argv true none .start w with
  | .done parsed w =>
    match parsed.filename with
    | none => .exit (.die (ascii "please specify filename of log2mem memmap") []) w
    | some filename =>
      match attach filename with
      | .error strerr => .exit (.notAttached filename.chars strerr) w
      | .ok h => parseArgs env argv false (some h) parsed.globals w
  | .exit e w => .exit e w
  | .fault => .fault

/-- What an argument does to the memmap. -/
inductive SetOp where
  | index (t : VarTable) (idx : UInt32) (val : t.Value)
  | name (label p : Text)

/-- The operation on a memmap. -/
def SetOp.run (f : Sscanf) (h : Handle) (w : World) : SetOp → Option World
  | index t idx val => (t.set h idx val w.mem).map fun m => { w with mem := m }
  | name label p => setNamed f h label p w

/-- One argument, without a memmap: what the locals become, and the operation it asks for. -/
def readArg (env : ToolEnv) (argv : List CStr) (s : ArgState) : Except Exit (ArgState × Option SetOp) :=
  match branch (argAt argv s.i) with
  | .help => .error .help
  | .show bits => .ok ({ s with toshow := s.toshow ||| bits }, none)
  | .delim =>
    match argv[s.i + 1]? with
    | none => .error (.die (ascii "missing argument to -F") [])
    | some delim => .ok ({ s with i := s.i + 1, globals :=
        { s.globals with delim := delim.chars, showdelim := true } }, none)
  | .noDelim => .ok ({ s with globals := { s.globals with showdelim := false } }, none)
  | .terse => .ok ({ s with globals := { s.globals with terse := true } }, none)
  | .version => .error .version
  | .setDouble => (processSetVarArg argv s.i optDouble).map fun x => ({ s with i := x.2.2, defaultshow := false },
      some (.index .double x.1 ((env.sscanf.scan .double x.2.1).getD (env.uninit .double s.i))))
  | .setInt => (processSetVarArg argv s.i optInt).map fun x => ({ s with i := x.2.2, defaultshow := false },
      some (.index .int x.1 ((env.sscanf.scan .int x.2.1).getD (env.uninit .int s.i))))
  | .setString => (processSetVarArg argv s.i optString).map fun x =>
      ({ s with i := x.2.2, defaultshow := false }, none)
  | .setByName => (nameArg argv s.i).map fun x => ({ s with i := x.2.2, defaultshow := false },
      some (.name x.1 x.2.1))
  | .filename =>
    match s.filename with
    | none => .ok ({ s with filename := argv[s.i]? }, none)
    | some _ => .error (.die (ascii "unexpected argument: ") (argAt argv s.i))

/-- The command line, without a memmap: the locals at its end and its operations in order. -/
def readArgs (env : ToolEnv) (argv : List CStr) : ℕ → ArgState → Except Exit (ArgState × List SetOp)
  | 0, s => .ok (s, [])
  | rounds + 1, s =>
    if s.i < argv.length then do
      let (s', op) ← readArg env argv s
      let (s'', ops) ← readArgs env argv rounds { s' with i := s'.i + 1 }
      return (s'', op.toList ++ ops)
    else return (s, [])

section Read
variable {env : ToolEnv} {argv : List CStr} {s : ArgState} {w : World}

theorem setVarNumber_none (t : VarTable) (p : Text) (i : ℕ) : setVarNumber t p env argv i none w =
    match processSetVarArg argv i p with
    | .error e => .exit e w
    | .ok x => .done x.2.2 w := by
  rw [setVarNumber]
  cases processSetVarArg argv i p <;> rfl

theorem setVarNumber_some (t : VarTable) (p : Text) (i : ℕ) (h : Handle) :
    setVarNumber t p env argv i (some h) w =
      match processSetVarArg argv i p with
      | .error e => .exit e w
      | .ok x => .ofEffect x.2.2 (SetOp.run env.sscanf h w
          (.index t x.1 ((env.sscanf.scan t x.2.1).getD (env.uninit t i)))) := by
  rw [setVarNumber]
  cases processSetVarArg argv i p <;> rfl

theorem Outcome.map_ofEffect {α β : Type} (f : α → β) (a : α) (e : Option World) :
    (Outcome.ofEffect a e).map f = .ofEffect (f a) e := by
  cases e <;> rfl

/-- PASS 1: without a memmap an argument is read, and nothing changes. -/
theorem parseArg_none : parseArg env argv none s w =
    match readArg env argv s with
    | .error e => .exit e w
    | .ok (s', _) => .done s' w := by
  unfold parseArg readArg
  cases branch (argAt argv s.i) with
  | setDouble =>
    simp only [setVarDouble, setVarNumber_none]
    cases processSetVarArg argv s.i optDouble <;> rfl
  | setInt =>
    simp only [setVarInt, setVarNumber_none]
    cases processSetVarArg argv s.i optInt <;> rfl
  | setString =>
    simp only [setVarString]
    cases processSetVarArg argv s.i optString <;> rfl
  | setByName =>
    simp only [setVarByName]
    cases nameArg argv s.i <;> rfl
  | delim => cases argv[s.i + 1]? <;> rfl
  | filename => cases s.filename <;> rfl
  | _ => rfl

/-- PASS 2: with a memmap the same is read, and the operation is run. -/
theorem parseArg_some (h : Handle) : parseArg env argv (some h) s w =
    match readArg env argv s with
    | .error e => .exit e w
    | .ok (s', none) => .done s' w
    | .ok (s', some op) => .ofEffect s' (op.run env.sscanf h w) := by
  unfold parseArg readArg
  cases branch (argAt argv s.i) with
  | setDouble =>
    simp only [setVarDouble, setVarNumber_some]
    cases processSetVarArg argv s.i optDouble with
    | error e => rfl
    | ok x => exact Outcome.map_ofEffect ..
  | setInt =>
    simp only [setVarInt, setVarNumber_some]
    cases processSetVarArg argv s.i optInt with
    | error e => rfl
    | ok x => exact Outcome.map_ofEffect ..
  | setString =>
    simp only [setVarString]
    cases processSetVarArg argv s.i optString <;> rfl
  | setByName =>
    simp only [setVarByName]
    cases nameArg argv s.i with
    | error e => rfl
    | ok x => exact Outcome.map_ofEffect ..
  | delim => cases argv[s.i + 1]? <;> rfl
  | filename => cases s.filename <;> rfl
  | _ => rfl

/-- RUN 1: the first pass reads the command line, and changes nothing. -/
theorem parseLoop_none (rounds : ℕ) : ∀ {s : ArgState}, parseLoop env argv none rounds s w =
    match readArgs env argv rounds s with
    | .error e => .exit e w
    | .ok (s', _) => .done s' w := by
  induction rounds with
  | zero => intro s; rfl
  | succ rounds ih =>
    intro s
    rw [parseLoop, readArgs]
    by_cases hi : s.i < argv.length
    · rw [if_pos hi, if_pos hi, parseArg_none]
      cases hr : readArg env argv s with
      | error e => rfl
      | ok x =>
        simp only [ih]
        cases hrest : readArgs env argv rounds { x.1 with i := x.1.i + 1 } <;>
          simp [bind, Except.bind, pure, Except.pure, hrest]
    · rw [if_neg hi, if_neg hi]
      rfl

/-- What a command line that is read to its end is made of. -/
theorem readArgs_succ {rounds : ℕ} {s' : ArgState} {ops : List SetOp} (hi : s.i < argv.length)
    (h : readArgs env argv (rounds + 1) s = .ok (s', ops)) : ∃ s₁ op rest,
    readArg env argv s = .ok (s₁, op) ∧
    readArgs env argv rounds { s₁ with i := s₁.i + 1 } = .ok (s', rest) ∧ ops = op.toList ++ rest := by
  rw [readArgs, if_pos hi] at h
  cases hr : readArg env argv s with
  | error e => simp [hr, bind, Except.bind] at h
  | ok x =>
    obtain ⟨s₁, op⟩ := x
    cases hrest : readArgs env argv rounds { s₁ with i := s₁.i + 1 } with
    | error e => simp [hr, hrest, bind, Except.bind] at h
    | ok y =>
      simp only [hr, hrest, bind, Except.bind, pure, Except.pure, Except.ok.injEq, Prod.mk.injEq] at h
      exact ⟨s₁, op, y.2, rfl, by rw [hrest, ← h.1], h.2.symm⟩

/-- RUN 2: on a command line that is read to its end, the second pass runs its operations, one after the
    other. -/
theorem parseLoop_some (h : Handle) (rounds : ℕ) : ∀ {s s' : ArgState} {ops : List SetOp} {w : World},
    readArgs env argv rounds s = .ok (s', ops) → parseLoop env argv (some h) rounds s w =
      .ofEffect s' (exec (SetOp.run env.sscanf h) w ops) := by
  induction rounds with
  | zero =>
    intro s s' ops w hr
    rw [readArgs, Except.ok.injEq, Prod.mk.injEq] at hr
    rw [← hr.1, ← hr.2]
    rfl
  | succ rounds ih =>
    intro s s' ops w hr
    rw [parseLoop]
    by_cases hi : s.i < argv.length
    · obtain ⟨s₁, op, rest, hone, hrest, rfl⟩ := readArgs_succ hi hr
      rw [if_pos hi, parseArg_some, hone]
      cases op with
      | none => exact ih hrest
      | some op =>
        rw [Option.toList_some, List.singleton_append, exec]
        cases hop : SetOp.run env.sscanf h w op with
        | none => simp [hop, Outcome.ofEffect]
        | some w₁ =>
          simp only [hop, Outcome.ofEffect, Option.bind_some]
          exact ih hrest
    · rw [if_neg hi]
      rw [readArgs, if_neg hi] at hr
      simp only [pure, Except.pure, Except.ok.injEq, Prod.mk.injEq] at hr
      rw [← hr.1, ← hr.2]
      rfl

end Read

/-! ### The program as a whole -/

/-- `log2mem_attach` on a file, with the text of its error. -/
def attachFile (ps : PageSize) (file : Mem) (strerr : Text) : Except Text Handle :=
  match log2memAttach ps file with
  | some h => .ok h
  | none => .error strerr

section Passes
variable {env : ToolEnv} {argv : List CStr}

/-- The label of an operation, as every C string, has no NUL. -/
def SetOp.NulFree : SetOp → Prop
  | index .. => True
  | name label _ => 0 ∉ label

theorem argAt_nul_free (argv : List CStr) (i : ℕ) : 0 ∉ argAt argv i := by
  rw [argAt]
  cases argv[i]? with
  | none => simp
  | some s => exact s.nul_free

theorem nameArg_nul_free {argi : ℕ} {x : Text × Text × ℕ} (h : nameArg argv argi = .ok x) : 0 ∉ x.1 := by
  have hdrop : 0 ∉ (argAt argv argi).drop 2 := fun h0 => argAt_nul_free argv argi (List.mem_of_mem_drop h0)
  simp only [nameArg] at h
  split at h
  · rw [Except.ok.injEq] at h
    rw [← h]
    exact fun h0 => hdrop ((List.takeWhile_sublist _).subset h0)
  · split at h
    · exact absurd h (by simp)
    · rw [Except.ok.injEq] at h
      rw [← h]
      exact hdrop

theorem readArg_nul_free {s s' : ArgState} {op : SetOp}
    (h : readArg env argv s = .ok (s', some op)) : op.NulFree := by
  unfold readArg at h
  cases hb : branch (argAt argv s.i) with
  | setByName =>
    simp only [hb] at h
    cases hn : nameArg argv s.i with
    | error e => simp [hn, Except.map] at h
    | ok x =>
      simp only [hn, Except.map, Except.ok.injEq, Prod.mk.injEq, Option.some.injEq] at h
      rw [← h.2]
      exact nameArg_nul_free hn
  | setDouble =>
    simp only [hb] at h
    cases hp : processSetVarArg argv s.i optDouble with
    | error e => simp [hp, Except.map] at h
    | ok x =>
      simp only [hp, Except.map, Except.ok.injEq, Prod.mk.injEq, Option.some.injEq] at h
      rw [← h.2]
      trivial
  | setInt =>
    simp only [hb] at h
    cases hp : processSetVarArg argv s.i optInt with
    | error e => simp [hp, Except.map] at h
    | ok x =>
      simp only [hp, Except.map, Except.ok.injEq, Prod.mk.injEq, Option.some.injEq] at h
      rw [← h.2]
      trivial
  | setString =>
    simp only [hb] at h
    cases hp : processSetVarArg argv s.i optString <;> simp [hp, Except.map] at h
  | delim =>
    simp only [hb] at h
    cases hd : argv[s.i + 1]? <;> simp [hd] at h
  | filename =>
    simp only [hb] at h
    cases hf : s.filename <;> simp [hf] at h
  | _ => simp [hb] at h

theorem readArgs_nul_free (rounds : ℕ) : ∀ {s s' : ArgState} {ops : List SetOp},
    readArgs env argv rounds s = .ok (s', ops) → ∀ op ∈ ops, op.NulFree := by
  induction rounds with
  | zero =>
    intro s s' ops hr
    rw [readArgs, Except.ok.injEq, Prod.mk.injEq] at hr
    rw [← hr.2]
    simp
  | succ rounds ih =>
    intro s s' ops hr
    by_cases hi : s.i < argv.length
    · obtain ⟨s₁, op, rest, hone, hrest, rfl⟩ := readArgs_succ hi hr
      intro op' hop'
      rcases List.mem_append.mp hop' with hop' | hop'
      · rw [Option.mem_toList] at hop'
        rw [hop'] at hone
        exact readArg_nul_free hone
      · exact ih hrest op' hop'
    · rw [readArgs, if_neg hi] at hr
      simp only [pure, Except.pure, Except.ok.injEq, Prod.mk.injEq] at hr
      rw [← hr.2]
      simp

end Passes

end Log2mem
