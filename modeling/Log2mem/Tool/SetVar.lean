import Log2mem.Tool.Args

/-! What an argument that sets a variable does to the memmap (`set_var_double`, `set_var_int`,
    `set_var_string`, `set_var_by_name`).

    By index, `sscanf` converts into a local, which is then stored through `log2mem_var_double_set` or
    `log2mem_var_int_set` whether or not there was a conversion. By name, the variables in use are
    searched, and `sscanf` converts straight into the memmap.

        argv ──taken apart──┬─ no handle: nothing more
                            └─ handle ─┬─ index: sscanf ─▶ local ─▶ slot idx & (num_vars - 1)
                                       └─ label: each used slot with that text ◀─ sscanf -/

namespace Log2mem
open Schemes

/-- The conversions of `sscanf`; `none` when none is possible, and then nothing is stored. -/
structure Sscanf where
  /-- `%i` -/
  int : Text → Option Int32
  /-- `%lf`, the bits of the `double` -/
  double : Text → Option UInt64

/-- The conversion for the values of a table. -/
def Sscanf.scan (f : Sscanf) : (t : VarTable) → Text → Option t.Value
  | .double => f.double
  | .int => f.int

/-- What the tool gets from its surroundings. -/
structure ToolEnv where
  sscanf : Sscanf
  /-- what the uninitialised local holds while argument `i` is processed -/
  uninit : (t : VarTable) → (i : ℕ) → t.Value

/-- The memmap, and what was printed so far. -/
structure World where
  mem : Mem
  out : Text

/-- The outcome of a function of the tool; `fault` is an access outside the mapping. -/
inductive Outcome (α : Type) where
  | done (a : α) (w : World)
  | exit (e : Exit) (w : World)
  | fault

namespace Outcome

def map {α β : Type} (f : α → β) : Outcome α → Outcome β
  | done a w => done (f a) w
  | exit e w => exit e w
  | fault => fault

/-- The outcome of an effect on the memmap that may fault. -/
def ofEffect {α : Type} (a : α) : Option World → Outcome α
  | some w => done a w
  | none => fault

end Outcome

/-- `log2mem_var_double_set` or `log2mem_var_int_set`. -/
def VarTable.set : (t : VarTable) → Handle → UInt32 → t.Value → Mem → Option Mem
  | double => log2memVarDoubleSet
  | int => log2memVarIntSet

/-- The body shared by `set_var_double` and `set_var_int`. -/
def setVarNumber (t : VarTable) ( optionprefix : Text) (env : ToolEnv) (argv : List CStr) (i : ℕ)
    (handle : Option Handle) (w : World) : Outcome ℕ :=
  match processSetVarArg argv i optionprefix with
  | .error e => .exit e w
  | .ok (idx, ptr, i') =>
    match handle with
    | none => .done i' w
    | some h =>
      let val := (env.sscanf.scan t ptr).getD (env.uninit t i)
      .ofEffect i' ((t.set h idx val w.mem).map fun m => { w with mem := m })

/-- `set_var_double`. -/
def setVarDouble : ToolEnv → List CStr → ℕ → Option Handle → World → Outcome ℕ :=
  setVarNumber .double optDouble

/-- `set_var_int`. -/
def setVarInt : ToolEnv → List CStr → ℕ → Option Handle → World → Outcome ℕ :=
  setVarNumber .int optInt

/-- `set_var_string`; its body behind the test of the handle is commented out. -/
def setVarString (argv : List CStr) (i : ℕ) (w : World) : Outcome ℕ :=
  match processSetVarArg argv i optString with
  | .error e => .exit e w
  | .ok (_, _, i') => .done i' w

/-- `strcmp(label, text) == 0`, comparing up to the first difference. -/
def strcmpEq : Text → ℤ → Mem → Option Bool
  | [], a, m => do
    let c ← m.load8 a
    return c = 0
  | x :: label, a, m => do
    let c ← m.load8 a
    if c = x then strcmpEq label (a + 1) m else return false

/-- One round of the search: a variable in use with this text takes what `sscanf` converts. -/
def visitVar (f : Sscanf) (t : VarTable) (h : Handle) (label p : Text) (i : ℕ) (m : Mem) :
    Option (Mem × Bool) := do
  let var := t.addr h i
  let flags ← m.load32 (var + t.width)
  if flags &&& eUsed = 0 then return (m, false)
  else
    let equal ← strcmpEq label (var + t.width + 4) m
    if equal then
      match f.scan t p with
      | some value =>
        let m ← m.store var (leBytes t.width (t.bits value))
        return (m, true)
      | none => return (m, true)
    else return (m, false)

/-- The search through one table from variable `i` on; `num_vars` is read in every round. -/
def searchVars (f : Sscanf) (t : VarTable) (h : Handle) (label p : Text) :
    ℕ → ℕ → Bool → Mem → Option (Mem × Bool)
  | 0, _, _, _ => none
  | fuel + 1, i, found, m => do
    let numVars ← hdrNumVars m
    if i < numVars then
      let (m, hit) ← visitVar f t h label p i m
      searchVars f t h label p fuel (i + 1) (found || hit) m
    else return (m, found)

/-- The part of `set_var_by_name` behind the parse-only test. No round has an index of `2 ^ 32` or
    more, since `num_vars` is an `unsigned`. -/
def setNamed (f : Sscanf) (h : Handle) (label p : Text) (w : World) : Option World := do
  if label = [] then return w
  else
    let (m, found) ← searchVars f .double h label p 4294967296 0 false w.mem
    let (m, found) ← searchVars f .int h label p 4294967296 0 found m
    if found then return { w with mem := m }
    else
      return { mem := m
               out := w.out ++ ascii "warning, no variable found with name \"" ++ label ++ ascii "\"\n" }

/-- `set_var_by_name`. -/
def setVarByName (env : ToolEnv) (argv : List CStr) (argi : ℕ) (handle : Option Handle) (w : World) :
    Outcome ℕ :=
  match nameArg argv argi with
  | .error e => .exit e w
  | .ok (label, p, argi') =>
    match handle with
    | none => .done argi' w
    | some h => .ofEffect argi' (setNamed env.sscanf h label p w)

/-! ### The bytes of the variables -/

/-- The bytes that hold values. -/
def valueBytes (h : Handle) (n : ℕ) : Set ℤ :=
  {x | ∃ (t : VarTable) (i : ℕ), i < n ∧ t.addr h i ≤ x ∧ x < t.addr h i + t.width}

/-- The text of a variable, up to its NUL. -/
def varText (t : VarTable) (h : Handle) (i : ℕ) (m : Mem) : Text :=
  strText (m.get (t.addr h i + t.width + 4) 64)

/-- Every text of a memmap ends within its 64 bytes. -/
def TextsEnd (h : Handle) (n : ℕ) (m : Mem) : Prop :=
  ∀ (t : VarTable) (i : ℕ), i < n → 0 ∈ m.get (t.addr h i + t.width + 4) 64

/-- A variable in use with this text. -/
def Named (h : Handle) (m : Mem) (label : Text) (t : VarTable) (i : ℕ) : Prop :=
  VarUsed h m t i ∧ varText t h i m = label

instance (h : Handle) (m : Mem) (t : VarTable) (i : ℕ) : Decidable (VarUsed h m t i) :=
  inferInstanceAs (Decidable (_ ≠ _))

instance (h : Handle) (m : Mem) (label : Text) (t : VarTable) (i : ℕ) : Decidable (Named h m label t i) :=
  inferInstanceAs (Decidable (_ ∧ _))

/-- The bytes of the value of a variable. -/
def varValue (t : VarTable) (h : Handle) (i : ℕ) (m : Mem) : List UInt8 := m.get (t.addr h i) t.width

section Values
variable {h : Handle} {n i : ℕ} {m m' : Mem} {t : VarTable} {label p : Text}

theorem mem_valueBytes (hi : i < n) {x : ℤ} (h0 : t.addr h i ≤ x) (h1 : x < t.addr h i + t.width) :
    x ∈ valueBytes h n := ⟨t, i, hi, h0, h1⟩

theorem VarTables.not_mem_valueBytes (hv : VarTables h n m) (hi : i < n) {x : ℤ}
    (h0 : t.addr h i + t.width ≤ x) (h1 : x < t.addr h i + t.size) : x ∉ valueBytes h n := by
  rintro ⟨t', j, hj, hx0, hx1⟩
  obtain ⟨hw, hs⟩ := t.width_size
  obtain ⟨hw', hs'⟩ := t'.width_size
  by_cases heq : t = t' ∧ i = j
  · obtain ⟨rfl, rfl⟩ := heq
    omega
  · rcases hv.entry_disjoint hi hj heq with hd | hd <;> omega

theorem VarTables.valueBytes_ge (hv : VarTables h n m) {x : ℤ} (hx : x ∈ valueBytes h n) : 92 ≤ x := by
  obtain ⟨t, i, hi, h0, -⟩ := hx
  have := (hv.entry t hi).1
  omega

/-- A memmap whose values are changed, and nothing else. -/
structure ValuesOnly (h : Handle) (n : ℕ) (m m' : Mem) : Prop where
  tables : VarTables h n m
  frame : Mem.Frame (valueBytes h n) m m'

namespace ValuesOnly

theorem tables' (hf : ValuesOnly h n m m') : VarTables h n m' :=
  hf.tables.frame hf.frame fun _ hx => hf.tables.valueBytes_ge hx

theorem refl (hv : VarTables h n m) : ValuesOnly h n m m := ⟨hv, .refl ..⟩

theorem trans {m'' : Mem} (hf : ValuesOnly h n m m') (hf' : ValuesOnly h n m' m'') :
    ValuesOnly h n m m'' := ⟨hf.tables, hf.frame.trans hf'.frame⟩

theorem flags_eq (hf : ValuesOnly h n m m') (hi : i < n) :
    m'.word (t.addr h i + t.width) = m.word (t.addr h i + t.width) := by
  obtain ⟨hw, hs⟩ := t.width_size
  exact hf.frame.word_eq fun x h0 h1 => hf.tables.not_mem_valueBytes hi h0 (by omega)

theorem text_eq (hf : ValuesOnly h n m m') (hi : i < n) :
    m'.get (t.addr h i + t.width + 4) 64 = m.get (t.addr h i + t.width + 4) 64 := by
  obtain ⟨hw, hs⟩ := t.width_size
  exact hf.frame.get_eq fun x h0 h1 =>
    hf.tables.not_mem_valueBytes (t := t) hi (by omega) (by push_cast at h1; omega)

theorem named_iff (hf : ValuesOnly h n m m') (hi : i < n) :
    Named h m' label t i ↔ Named h m label t i := by
  rw [Named, Named, VarUsed, VarUsed, varText, varText, hf.flags_eq hi, hf.text_eq hi]

theorem textsEnd (hf : ValuesOnly h n m m') (he : TextsEnd h n m) : TextsEnd h n m' := by
  intro t i hi
  rw [hf.text_eq hi]
  exact he t i hi

end ValuesOnly

/-- A slot's value is unchanged by a change of another slot's. -/
theorem VarTables.varValue_of_frame (hv : VarTables h n m) {t' : VarTable} {j : ℕ} (hi : i < n)
    (hj : j < n) (hne : ¬ (t = t' ∧ i = j)) {hi' : ℤ} (hle : hi' ≤ t.addr h i + t.size)
    (hf : Mem.Frame (Set.Ico (t.addr h i) hi') m m') : varValue t' h j m' = varValue t' h j m := by
  obtain ⟨hw, hs⟩ := t'.width_size
  exact hf.get_of_outside (hv.outside_entry hi hj hne hle) (le_refl _) (by omega)

end Values

end Log2mem
