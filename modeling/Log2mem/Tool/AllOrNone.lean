import Log2mem.Tool.Passes

/-! All or none: what can stop the second pass (`parse_args`, `main`).

    `log2mem_attach` compares the architecture of a file, and leaves the comparison of its size with the
    layout as a TODO. So a table may end behind the pages; a set operation then faults, with those before
    it already stored.

    An operation looks at flags and texts, and changes values and the flags of what it sets by index. Where
    the tables keep clear of the header and of each other, an operation therefore sees what the file has,
    and in use what the operations before it have put to use.

        variable     │ value │ flags │ text │
        looked at                ✓      ✓
        changed          ✓       ✓                 -/

namespace Log2mem
open Schemes

/-! ### Operations inside the mapping -/

/-- The bytes of a text that a comparison with a label looks at are in the mapping. -/
def CompareInside (m : Mem) : Text → ℤ → Prop
  | [], a => m.InBounds a 1
  | x :: label, a => m.InBounds a 1 ∧ (m.byte a = x → CompareInside m label (a + 1))

/-- What a round of the search looks at and sets is in the mapping: the flags, of a variable in use the
    text as far as it is compared, and the value if it is set. -/
def VisitInside (f : Sscanf) (t : VarTable) (h : Handle) (label p : Text) (i : ℕ) (m : Mem) : Prop :=
  m.InBounds (t.addr h i + t.width) 4 ∧ (VarUsed h m t i →
    CompareInside m label (t.addr h i + t.width + 4) ∧
    (strcmpEq label (t.addr h i + t.width + 4) m = some true → (f.scan t p).isSome →
      m.InBounds (t.addr h i) t.width))

/-- So does every round of the search from variable `i` on, and the word `num_vars` is in the mapping. -/
def SearchInside (f : Sscanf) (t : VarTable) (h : Handle) (label p : Text) : ℕ → ℕ → Mem → Prop
  | 0, _, _ => False
  | fuel + 1, i, m => m.InBounds 48 4 ∧ (i < m.word 48 → VisitInside f t h label p i m ∧
      ∀ m' hit, visitVar f t h label p i m = some (m', hit) →
        SearchInside f t h label p fuel (i + 1) m')

/-- What an operation looks at and sets is in the mapping. -/
def SetOp.Inside (f : Sscanf) (h : Handle) (w : World) : SetOp → Prop
  | index t idx _ => w.mem.InBounds 48 4 ∧
      w.mem.InBounds (t.addr h (maskIdx idx.toNat (w.mem.word 48))) (t.width + 4)
  | name label p => label = [] ∨ SearchInside f .double h label p 4294967296 0 w.mem ∧
      ∀ m' found, searchVars f .double h label p 4294967296 0 false w.mem = some (m', found) →
        SearchInside f .int h label p 4294967296 0 m'

section Inside
variable {f : Sscanf} {t : VarTable} {h : Handle} {label p : Text} {m : Mem} {i : ℕ}

theorem varSet_eq {idx : UInt32} (hin : m.InBounds 48 4) (value : ℕ) : varSet t h idx value m =
    (m.store (t.addr h (maskIdx idx.toNat (m.word 48))) (leBytes t.width value)).bind
      (orFlags (t.addr h (maskIdx idx.toNat (m.word 48)) + t.width) eUsed) := by
  simp only [varSet, hdrNumVars, Mem.load32_eq hin, Option.bind_eq_bind, Option.bind_some]

end Inside

/-! ### Operations inside the file -/

/-- The bytes that set operations change: values and flags. -/
def setBytes (h : Handle) (n : ℕ) : Set ℤ :=
  {x | ∃ (t : VarTable) (i : ℕ), i < n ∧ t.addr h i ≤ x ∧ x < t.addr h i + t.width + 4}

/-- The tables that the header announces lie behind the config, and do not overlap. -/
structure TablesClear (h : Handle) (m : Mem) : Prop where
  behind : ∀ t : VarTable, 52 ≤ t.base h
  apart : h.doubleVars + 80 * m.word 48 ≤ h.intVars ∨ h.intVars + 72 * m.word 48 ≤ h.doubleVars

/-- A text that lies in the mapping ends within its 64 bytes. -/
def TextsEndInside (h : Handle) (m : Mem) : Prop :=
  ∀ (t : VarTable) (i : ℕ), i < m.word 48 → m.InBounds (t.addr h i + t.width + 4) 64 →
    0 ∈ m.get (t.addr h i + t.width + 4) 64

/-- In use in the file, or set by index by one of the operations. -/
def InUse (h : Handle) (m : Mem) (done : List SetOp) (t : VarTable) (i : ℕ) : Prop :=
  VarUsed h m t i ∨ ∃ idx val, SetOp.index t idx val ∈ done ∧ maskIdx idx.toNat (m.word 48) = i

/-- What an operation looks at and sets, after those of `done`, is in the file: by index, the value and the
    flags of a variable of the table; by name, the flags of every variable, and the texts of those in use as
    far as they are compared, which end. -/
def SetOp.InFile (h : Handle) (m : Mem) (done : List SetOp) : SetOp → Prop
  | index t idx _ => 1 ≤ m.word 48 ∧ m.InBounds (t.addr h (maskIdx idx.toNat (m.word 48))) (t.width + 4)
  | name label _ => label = [] ∨ TextsEndInside h m ∧ ∀ (t : VarTable) (i : ℕ), i < m.word 48 →
      m.InBounds (t.addr h i + t.width) 4 ∧
      (InUse h m done t i → CompareInside m label (t.addr h i + t.width + 4))

section InFile
variable {f : Sscanf} {t : VarTable} {h : Handle} {label p : Text} {m m₁ m₂ : Mem} {i : ℕ}

namespace TablesClear

theorem addr_ge (hc : TablesClear h m) (t : VarTable) (i : ℕ) : 52 ≤ t.addr h i := by
  have hb := hc.behind t
  have hi : 0 ≤ (i : ℤ) * t.size := by positivity
  rw [VarTable.addr]
  omega

theorem flags_clear (hc : TablesClear h m) (t : VarTable) (hi : i < m.word 48) :
    ∀ x ∈ valueBytes h (m.word 48),
    x < t.addr h i + t.width ∨ t.addr h i + t.width + 4 ≤ x := by
  rintro x ⟨t', j, hj, h0, h1⟩
  obtain ⟨-, hs⟩ := t.width_size
  obtain ⟨-, hs'⟩ := t'.width_size
  by_cases heq : t = t' ∧ i = j
  · obtain ⟨rfl, rfl⟩ := heq
    exact Or.inl (by omega)
  · rcases VarTable.entries_apart hc.apart hi hj heq with hd | hd
    · exact Or.inr (by omega)
    · exact Or.inl (by omega)

theorem word_eq (hc : TablesClear h m) (hf : Mem.Frame (setBytes h (m.word 48)) m m₁) :
    m₁.word 48 = m.word 48 := by
  have hbehind : ∀ x ∈ setBytes h (m.word 48), x < 48 ∨ 52 ≤ x := fun x hx => by
    obtain ⟨t, j, -, h0, -⟩ := hx
    have := hc.addr_ge t j
    omega
  exact hf.word_of_outside hbehind (by omega) (by omega)

theorem used_iff (hc : TablesClear h m) (hf : Mem.Frame (valueBytes h (m.word 48)) m₁ m₂)
    (hi : i < m.word 48) : VarUsed h m₂ t i ↔ VarUsed h m₁ t i := by
  rw [VarUsed, VarUsed, hf.word_of_outside (hc.flags_clear t hi) (by omega) (by omega)]

end TablesClear

theorem valueBytes_subset (h : Handle) (n : ℕ) : valueBytes h n ⊆ setBytes h n := by
  rintro x ⟨t, i, hi, h0, h1⟩
  exact ⟨t, i, hi, h0, by omega⟩

theorem visitVar_frame {hit : Bool} {n : ℕ} (hi : i < n)
    (hv : visitVar f t h label p i m = some (m₁, hit)) : Mem.Frame (valueBytes h n) m m₁ := by
  obtain ⟨flags, -, hv⟩ := Option.bind_eq_some_iff.mp hv
  split at hv
  · obtain ⟨rfl, -⟩ := Prod.mk.inj (Option.some.inj hv)
    exact .refl ..
  · obtain ⟨equal, -, hv⟩ := Option.bind_eq_some_iff.mp hv
    split at hv
    · split at hv
      · obtain ⟨m', e, hv⟩ := Option.bind_eq_some_iff.mp hv
        obtain ⟨rfl, -⟩ := Prod.mk.inj (Option.some.inj hv)
        refine (Mem.store_some e).2.mono fun x hx => ⟨t, i, hi, hx.1, ?_⟩
        have := hx.2
        rwa [leBytes_length] at this
      · obtain ⟨rfl, -⟩ := Prod.mk.inj (Option.some.inj hv)
        exact .refl ..
    · obtain ⟨rfl, -⟩ := Prod.mk.inj (Option.some.inj hv)
      exact .refl ..

theorem TablesClear.searchVars_frame (hc : TablesClear h m) : ∀ (fuel : ℕ) {i : ℕ} {m₁ m₂ : Mem}
    {found found' : Bool}, Mem.Frame (setBytes h (m.word 48)) m m₁ →
    searchVars f t h label p fuel i found m₁ = some (m₂, found') →
    Mem.Frame (valueBytes h (m.word 48)) m₁ m₂ := by
  intro fuel
  induction fuel with
  | zero => exact fun _ hs => absurd hs (by simp [searchVars])
  | succ fuel ih =>
    intro i m₁ m₂ found found' hf hs
    obtain ⟨numVars, hn, hs⟩ := Option.bind_eq_some_iff.mp hs
    have hword : numVars = m.word 48 := (Mem.load32_some hn).2.trans (hc.word_eq hf)
    split at hs
    · obtain ⟨⟨m', hit⟩, hv, hs⟩ := Option.bind_eq_some_iff.mp hs
      have hvisit : Mem.Frame (valueBytes h (m.word 48)) m₁ m' := visitVar_frame (by omega) hv
      exact hvisit.trans (ih (hf.trans (hvisit.mono (valueBytes_subset ..))) hs)
    · obtain ⟨rfl, -⟩ := Prod.mk.inj (Option.some.inj hs)
      exact .refl ..

/-- A set by index changes the value and the flags of one variable, which is in use from then on. -/
theorem varSet_frame {idx : UInt32} {value : ℕ} (hin : m.InBounds 48 4)
    (e : varSet t h idx value m = some m₁) (hi : maskIdx idx.toNat (m.word 48) = i) :
    Mem.Frame (Set.Ico (t.addr h i) (t.addr h i + t.width + 4)) m m₁ ∧ VarUsed h m₁ t i := by
  rw [varSet_eq hin, hi] at e
  obtain ⟨m₂, e₁, e₂⟩ := Option.bind_eq_some_iff.mp e
  have f₁ := (Mem.store_some e₁).2
  rw [leBytes_length] at f₁
  obtain ⟨old, hload, -⟩ := Option.bind_eq_some_iff.mp e₂
  obtain ⟨m₃, e₃, w, f₂⟩ := orFlags_spec (Mem.load32_some hload).1 eUsed
  rw [e₂, Option.some.injEq] at e₃
  subst e₃
  refine ⟨(f₁.ico_mono (le_refl _) (by omega)).trans (f₂.ico_mono (by omega) (by omega)), ?_⟩
  have hlt : m₂.word (t.addr h i + t.width) ||| eUsed < 4294967296 :=
    Nat.or_lt_two_pow (n := 32) (m₂.word_lt _) (by decide)
  rw [VarUsed, w, Nat.mod_eq_of_lt hlt, Nat.and_or_distrib_right, Nat.and_self]
  exact fun hz => absurd (Nat.or_eq_zero_iff.mp hz).2 (by decide)

/-- A set by name changes values only. -/
theorem TablesClear.setNamed_frame (hc : TablesClear h m) {w w' : World}
    (hf : Mem.Frame (setBytes h (m.word 48)) m w.mem) (e : setNamed f h label p w = some w') :
    Mem.Frame (valueBytes h (m.word 48)) w.mem w'.mem := by
  rw [setNamed] at e
  split at e
  · rw [← Option.some.inj e]
    exact .refl ..
  · obtain ⟨⟨m₁, found₁⟩, e₁, e⟩ := Option.bind_eq_some_iff.mp e
    obtain ⟨⟨m₂, found₂⟩, e₂, e⟩ := Option.bind_eq_some_iff.mp e
    have f₁ := hc.searchVars_frame _ hf e₁
    have f₂ := hc.searchVars_frame _ (hf.trans (f₁.mono (valueBytes_subset ..))) e₂
    cases found₂
    all_goals
      rw [← Option.some.inj e]
      exact f₁.trans f₂

/-- What the operations of `done` have made of the file: other values, and other variables in use. -/
structure Reached (h : Handle) (m : Mem) (done : List SetOp) (m₁ : Mem) : Prop where
  frame : Mem.Frame (setBytes h (m.word 48)) m m₁
  used : ∀ (t : VarTable) (i : ℕ), i < m.word 48 → (VarUsed h m₁ t i ↔ InUse h m done t i)

theorem maskIdx_lt {n : ℕ} (h0 : 1 ≤ n) (h1 : n ≤ 2147483648) (idx : UInt32) :
    ∃ i < n, maskIdx idx.toNat n = i := by
  have hmask : toU32 ((n : ℤ) - 1) = n - 1 := by
    have := toU32_of_range (x := (n : ℤ) - 1) (by omega) (by omega)
    omega
  have hle : toU32 (idx.toNat : ℤ) &&& (n - 1) ≤ n - 1 := Nat.and_le_right
  exact ⟨toU32 (idx.toNat : ℤ) &&& (n - 1), by omega,
    by rw [maskIdx, hmask, toInt32_of_range (by omega) (by omega)]⟩

namespace Reached
variable {done : List SetOp} {w w' : World} {op : SetOp}

theorem start (h : Handle) (m : Mem) : Reached h m [] m :=
  ⟨.refl .., fun t i _ => by simp [InUse]⟩

/-- STEP: an operation in the file makes of it what is reached with that operation. -/
theorem step (hr : Reached h m done w.mem) (hc : TablesClear h m) (h48 : m.InBounds 48 4)
    (hcount : m.word 48 ≤ 2147483648) (hin : op.InFile h m done) (e : SetOp.run f h w op = some w') :
    Reached h m (done ++ [op]) w'.mem := by
  cases op with
  | index t idx val =>
    obtain ⟨i, hi, hmask⟩ := maskIdx_lt hin.1 hcount idx
    rw [SetOp.run, t.set_eq] at e
    obtain ⟨m₁, hset, rfl⟩ := Option.map_eq_some_iff.mp e
    have h48' : w.mem.InBounds 48 4 := ⟨h48.1, by rw [hr.frame.size]; exact h48.2⟩
    obtain ⟨hf, hu⟩ := varSet_frame h48' hset (by rw [hc.word_eq hr.frame, hmask])
    refine ⟨hr.frame.trans (hf.mono fun x hx => ⟨t, i, hi, hx.1, hx.2⟩), fun t' j hj => ?_⟩
    by_cases heq : t = t' ∧ i = j
    · obtain ⟨rfl, rfl⟩ := heq
      exact iff_of_true hu (Or.inr ⟨idx, val, by simp, hmask⟩)
    · obtain ⟨-, hs⟩ := t.width_size
      obtain ⟨-, hs'⟩ := t'.width_size
      have hkept : VarUsed h m₁ t' j ↔ VarUsed h w.mem t' j := by
        rw [VarUsed, VarUsed, hf.word_of_Ico]
        rcases VarTable.entries_apart hc.apart hi hj heq with hd | hd
        · exact Or.inr (by omega)
        · exact Or.inl (by omega)
      rw [hkept, hr.used t' j hj, InUse, InUse]
      refine or_congr_right ⟨?_, ?_⟩
      · rintro ⟨idx', val', hmem, hm⟩
        exact ⟨idx', val', List.mem_append_left _ hmem, hm⟩
      · rintro ⟨idx', val', hmem, hm⟩
        rcases List.mem_append.mp hmem with hmem | hmem
        · exact ⟨idx', val', hmem, hm⟩
        · cases List.mem_singleton.mp hmem
          exact absurd ⟨rfl, by exact_mod_cast hmask.symm.trans hm⟩ heq
  | name label p =>
    have hf := hc.setNamed_frame hr.frame e
    refine ⟨hr.frame.trans (hf.mono (valueBytes_subset ..)), fun t i hi => ?_⟩
    rw [hc.used_iff hf hi, hr.used t i hi]
    simp [InUse]

end Reached

end InFile

/-! ### All or none -/

section Passes
variable {env : ToolEnv} {ps : PageSize} {argv : List CStr} {file : Mem}

/-- An accepted file has its header in the pages, and counts that are far below `1 << 31` if its tables do
    not overlap. -/
theorem TablesClear.attached {h : Handle} (ha : log2memAttach ps file = some h)
    (hc : TablesClear h (filePages ps file)) :
    (filePages ps file).InBounds 48 4 ∧ (filePages ps file).word 48 ≤ 2147483648 := by
  obtain ⟨hsize, rfl⟩ := log2memAttach_some ha
  have hpages := filePages_size ps file
  have hapart := hc.apart
  rw [fileHandle, Layout.handle_doubleVars, Layout.handle_intVars, calculateLayout_doubleVarsOff,
    calculateLayout_intVarsOff] at hapart
  have h0 := toInt32_ge (exactLayout ps (fileConfig file)).doubleVarsOff
  have h1 := toInt32_lt (exactLayout ps (fileConfig file)).doubleVarsOff
  have h2 := toInt32_ge (exactLayout ps (fileConfig file)).intVarsOff
  have h3 := toInt32_lt (exactLayout ps (fileConfig file)).intVarsOff
  exact ⟨⟨by omega, by push_cast; omega⟩, by omega⟩

end Passes

end Log2mem
