import Log2mem.Tool.SetVar

/-! Setting variables by index: `--double[I]=N`, `--int[I]=N` and their variants.

    The digits are accumulated in an `unsigned int`, which wraps, and the result is masked into the
    table. Since the number of variables is a power of two, neither loses the residue of the numeral's
    value, so the slot is the one that unbounded arithmetic gives.

        --int[4294967299]=v ──wraps──▶ 3 ──& (num_vars - 1)──▶ slot 4294967299 % num_vars -/

namespace Log2mem
open Schemes

namespace VarTable

/-- `OPT_DOUBLE` or `OPT_INT`. -/
def option : VarTable → Text
  | double => optDouble
  | int => optInt

theorem set_eq (t : VarTable) (h : Handle) (idx : UInt32) (val : t.Value) :
    t.set h idx val = varSet t h idx (t.bits val) := by
  cases t <;> rfl

end VarTable

section Store
variable {h : Handle} {n i : ℕ} {m : Mem} {idx : UInt32}

/-- STORE: the masked slot takes the value and is in use. -/
theorem VarTables.set_spec (hv : VarTables h n m) (t : VarTable) (hid : idx.toNat % n = i)
    (val : t.Value) : ∃ m', t.set h idx val m = some m' ∧
      varValue t h i m' = leBytes t.width (t.bits val) ∧
      m'.word (t.addr h i + t.width) = m.word (t.addr h i + t.width) ||| eUsed ∧
      Mem.Frame (Set.Ico (t.addr h i) (t.addr h i + t.width + 4)) m m' := by
  obtain ⟨m', e, hvalue, hflags, -, hf⟩ := hv.varSet_spec t hid (t.bits val)
  refine ⟨m', by rw [t.set_eq]; exact e, hvalue, ?_, hf⟩
  have hlt : m.word (t.addr h i + t.width) ||| eUsed < 4294967296 :=
    Nat.or_lt_two_pow (n := 32) (m.word_lt _) (by decide)
  rw [hflags, Nat.mod_eq_of_lt hlt]

theorem or_eUsed_of_and {flags : ℕ} (h : flags &&& eUsed ≠ 0) : flags ||| eUsed = flags := by
  refine Nat.eq_of_testBit_eq fun b => ?_
  rw [Nat.testBit_or]
  by_cases hb : b = 1
  · have hbit : flags.testBit 1 = true := by
      by_contra hoff
      refine h (Nat.eq_of_testBit_eq fun k => ?_)
      rw [Nat.testBit_and, Nat.zero_testBit, show eUsed = 2 ^ 1 from rfl, Nat.testBit_two_pow]
      by_cases hk : 1 = k
      · rw [← hk, Bool.eq_false_iff.mpr hoff, Bool.false_and]
      · simp [hk]
    rw [hb, hbit, Bool.true_or]
  · have hoff : eUsed.testBit b = false := by
      rw [show eUsed = 2 ^ 1 from rfl, Nat.testBit_two_pow]
      simp [Ne.symm hb]
    rw [hoff, Bool.or_false]

/-- Storing changes one value, and in a slot in use nothing else. -/
theorem VarTables.set_values (hv : VarTables h n m) {t : VarTable} (hid : idx.toNat % n = i)
    (val : t.Value) : ∃ m', t.set h idx val m = some m' ∧
      (VarUsed h m t i → ValuesOnly h n m m') ∧
      ∀ (t' : VarTable) (j : ℕ), j < n → varValue t' h j m' =
        if t = t' ∧ i = j then leBytes t.width (t.bits val) else varValue t' h j m := by
  obtain ⟨m', e, hvalue, hflags, hf⟩ := hv.set_spec t hid val
  have hi := hv.mod_lt hid
  obtain ⟨hw, hs⟩ := t.width_size
  refine ⟨m', e, fun hused => ⟨hv, hf.size, fun x hx => ?_⟩, fun t' j hj => ?_⟩
  · have hsame : m'.get (t.addr h i + t.width) 4 = m.get (t.addr h i + t.width) 4 := by
      rw [Mem.get_four, Mem.get_four, hflags, or_eUsed_of_and hused]
    by_cases hin : t.addr h i + t.width ≤ x ∧ x < t.addr h i + t.width + 4
    · have hat := List.map_inj_left.mp hsame (x - (t.addr h i + t.width)).toNat
        (List.mem_range.mpr (by omega))
      rwa [show t.addr h i + t.width + ((x - (t.addr h i + t.width)).toNat : ℤ) = x by omega] at hat
    · refine hf.byte x fun hx' => hx (mem_valueBytes hi hx'.1 ?_)
      have := hx'.2
      omega
  · split
    · rename_i heq
      obtain ⟨rfl, rfl⟩ := heq
      exact hvalue
    · rename_i hne
      exact hv.varValue_of_frame hi hj hne (by omega) hf

end Store

/-- A `sscanf` that converts numerals without leading zeros for `%i`, and `0` and `1` for `%lf`. -/
def plainSscanf : Sscanf where
  int s := if s ≠ [] ∧ s.all isDigit ∧ (s.head? = some 48 → s.length = 1) then
    some (Int32.ofNat (decimal s)) else none
  double s := if s = [48] then some 0 else if s = [49] then some 4607182418800017408 else none

/-- The tool where uninitialised locals hold 42. -/
def plainEnv : ToolEnv where
  sscanf := plainSscanf
  uninit t _ := match t with
    | .double => (42 : UInt64)
    | .int => (42 : Int32)

end Log2mem
