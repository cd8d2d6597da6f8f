import Log2mem.Tool.Names
import Log2mem.Tool.Passes

/-! One variable, set by index and by name.

    Both ways hand the value to `sscanf`. By index it converts into a local, which is stored whether or
    not there was a conversion; by name it converts straight into the slot, which keeps its value when
    there was none. A label with a `=` in it is cut there, so that by name another variable is meant.

        --int[3]=v ──sscanf──▶ local ──▶ slot 3      v converts: the same value
        --name=v ────────sscanf────────▶ slot 3      v does not: what the local held, or no change -/

namespace Log2mem
open Schemes

namespace VarTable

/-- The branch of `parse_args` for the option. -/
def branch : VarTable → Branch
  | double => .setDouble
  | int => .setInt

/-- The value 1; a `double` is its bits. -/
def one : (t : VarTable) → t.Value
  | double => (4607182418800017408 : UInt64)
  | int => (1 : Int32)

end VarTable

/-- `--label=v`. -/
def labelArg (label v : Text) : Text := ascii "--" ++ label ++ 61 :: v

section Dispatch
variable {env : ToolEnv} {argv : List CStr} {s : ArgState} {t : VarTable}

/-- A typed option is taken before names are looked up. -/
theorem VarTable.branch_option {arg : Text} (h : t.option <+: arg) : Log2mem.branch arg = t.branch := by
  obtain ⟨rest, rfl⟩ := h
  have hdouble : optDouble = [45, 45, 100, 111, 117, 98, 108, 101] := rfl
  have hint : optInt = [45, 45, 105, 110, 116] := rfl
  cases t with
  | double => simp [Log2mem.branch, VarTable.option, VarTable.branch, hdouble, ascii]
  | int => simp [Log2mem.branch, VarTable.option, VarTable.branch, hdouble, hint, ascii]

theorem readArg_index (h : t.option <+: argAt argv s.i) : readArg env argv s =
    (processSetVarArg argv s.i t.option).map fun x => ({ s with i := x.2.2, defaultshow := false },
      some (.index t x.1 ((env.sscanf.scan t x.2.1).getD (env.uninit t s.i)))) := by
  rw [readArg, t.branch_option h]
  cases t <;> rfl

theorem readArg_name (h : branch (argAt argv s.i) = .setByName) : readArg env argv s =
    (nameArg argv s.i).map fun x => ({ s with i := x.2.2, defaultshow := false },
      some (.name x.1 x.2.1)) := by
  rw [readArg, h]

end Dispatch

section Effects
variable (env : ToolEnv) {argv : List CStr} {s : ArgState} {t : VarTable} {h : Handle} {n : ℕ} {m : Mem}
  {d v label : Text} {next : ℕ} (out : Text)

/-- INDEX: what a numeric argument leaves. -/
theorem parseArg_index (hv : VarTables h n m) (hoption : t.option <+: argAt argv s.i)
    (hform : IndexForm argv s.i t.option d v next) : ∃ m',
    parseArg env argv (some h) s ⟨m, out⟩ = .done { s with i := next, defaultshow := false } ⟨m', out⟩ ∧
    (VarUsed h m t (decimal d % n) → ValuesOnly h n m m') ∧
    ∀ (t' : VarTable) (j : ℕ), j < n → varValue t' h j m' = if t = t' ∧ decimal d % n = j then
      leBytes t.width (t.bits ((env.sscanf.scan t v).getD (env.uninit t s.i))) else varValue t' h j m := by
  obtain ⟨b, hb, hn⟩ := hv.pow2
  have hid : (decimal32 0 d).toNat % n = decimal d % n := decimal32_mod hform.1 (by omega) hn
  obtain ⟨m', e, hf, hvalue⟩ :=
    hv.set_values hid ((env.sscanf.scan t v).getD (env.uninit t s.i))
  refine ⟨m', ?_, hf, hvalue⟩
  rw [parseArg_some, readArg_index hoption, hform.process]
  simp [Except.map, SetOp.run, e, Outcome.ofEffect]

/-- NAME: what an argument that is taken for a name leaves. -/
theorem parseArg_name (hv : VarTables h n m) (he : TextsEnd h n m)
    (hbranch : branch (argAt argv s.i) = .setByName) (harg : nameArg argv s.i = .ok (label, v, next)) :
    ∃ w, parseArg env argv (some h) s ⟨m, out⟩ = .done { s with i := next, defaultshow := false } w ∧
    ValuesOnly h n m w.mem ∧ ∀ (t : VarTable) (j : ℕ), j < n → varValue t h j w.mem =
      if label ≠ [] ∧ Named h m label t j then scanned env.sscanf t v (varValue t h j m)
      else varValue t h j m := by
  obtain ⟨w, e, hf, hvalue⟩ := setNamed_spec (f := env.sscanf) (p := v) (w := ⟨m, out⟩)
    (nameArg_nul_free harg) hv he
  refine ⟨w, ?_, hf, hvalue⟩
  rw [parseArg_some, readArg_name hbranch, harg]
  simp [Except.map, SetOp.run, e, Outcome.ofEffect]

theorem nameArg_labelArg {argi : ℕ} (harg : argAt argv argi = labelArg label v) : nameArg argv argi =
    .ok ((label ++ 61 :: v).takeWhile (· ≠ 61), ((label ++ 61 :: v).dropWhile (· ≠ 61)).tail, argi) := by
  have hdrop : (argAt argv argi).drop 2 = label ++ 61 :: v := by
    rw [harg, labelArg, List.append_assoc]
    rfl
  simp [nameArg, hdrop]

/-- A label without a `=` ends at the one behind it. -/
theorem label_whole (hmem : 61 ∉ label) : (label ++ 61 :: v).takeWhile (· ≠ 61) = label ∧
    ((label ++ 61 :: v).dropWhile (· ≠ 61)).tail = v := by
  have hall : ∀ c ∈ label, decide (c ≠ 61) = true := fun c hc => decide_eq_true fun h61 => hmem (h61 ▸ hc)
  obtain ⟨htake, hdrop⟩ := span_unique (61 :: v) hall (by simp)
  exact ⟨htake, by rw [hdrop, List.tail_cons]⟩

end Effects

/-! ### Agreement -/

section Agreement
variable {f : Sscanf} {h : Handle} {n i : ℕ} {m : Mem} {t : VarTable} {label d : Text} {v : CStr}

theorem VarTable.one_ne_zero (t : VarTable) :
    leBytes t.width (t.bits t.one) ≠ leBytes t.width (t.bits t.zero) := by
  cases t <;> decide

end Agreement

/-- `log2mem_var_int_init(0, 5, "hi")`. -/
def initHi : VarCall := .intInit 0 5 (some ⟨ascii "hi", by decide⟩)

end Log2mem
