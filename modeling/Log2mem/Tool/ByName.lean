import Log2mem.Tool.SetVar

/-! Setting variables by name on a memmap that holds its tables.

    The search visits every slot of both tables. A slot in use whose text is the label takes what
    `sscanf` converts, or keeps its value when there is no conversion; nothing else of the memmap
    changes, so the flags and texts that the search still has to read are those it started with.

        slot i, used, text = label ──sscanf──▶ value'        any other slot ──▶ as it was -/

namespace Log2mem
open Schemes

/-- The bytes of a value after `sscanf` was pointed at it. -/
def scanned (f : Sscanf) (t : VarTable) (p : Text) (old : List UInt8) : List UInt8 :=
  match f.scan t p with
  | some value => leBytes t.width (t.bits value)
  | none => old

section Compare
variable {m : Mem}

/-- A comparison with a text whose NUL lies in the mapping. -/
theorem strcmpEq_spec {payload : List UInt8} : ∀ {label : Text} {a : ℤ}, 0 ∉ label → 0 ∈ payload →
    m.InBounds a payload.length → m.get a payload.length = payload →
    strcmpEq label a m = some (decide (strText payload = label)) := by
  induction payload with
  | nil => exact fun _ h0 => absurd h0 (by simp)
  | cons c payload ih =>
    intro label a hlabel h0 hin hget
    obtain ⟨ha, hb⟩ := hin
    rw [List.length_cons] at hb
    have hlen : (c :: payload).length = 1 + payload.length := by rw [List.length_cons, Nat.add_comm]
    rw [hlen, m.get_add, m.get_one, List.singleton_append, List.cons.injEq, Nat.cast_one] at hget
    obtain ⟨hc, hget⟩ := hget
    have hload : m.load8 a = some c := by rw [Mem.load8_eq ⟨ha, by omega⟩, hc]
    cases label with
    | nil => by_cases hz : c = 0 <;> simp [strcmpEq, hload, strText, hz]
    | cons x label =>
      have hx : x ≠ 0 := fun hx => hlabel (by simp [hx])
      rw [strcmpEq, hload, Option.bind_eq_bind, Option.bind_some]
      by_cases hcx : c = x
      · have hmem : 0 ∈ payload :=
          (List.mem_cons.mp h0).resolve_left fun h => hx (hcx.symm.trans h.symm)
        have hrest : 0 ∉ label := fun h => hlabel (List.mem_cons_of_mem _ h)
        rw [if_pos hcx, ih hrest hmem ⟨by omega, by omega⟩ hget, hcx]
        simp [strText, hx]
      · rw [if_neg hcx]
        by_cases hz : c = 0 <;> simp [strText, hz, hcx]

end Compare

section Search
variable {h : Handle} {n : ℕ} {m : Mem} {t : VarTable} {label p : Text} {f : Sscanf}

/-- VISIT: a round of the search sets the slot if it has the name, and changes nothing else. -/
theorem visitVar_spec (hv : VarTables h n m) (he : TextsEnd h n m) (hlabel : 0 ∉ label) {i : ℕ}
    (hi : i < n) : ∃ m', visitVar f t h label p i m = some (m', decide (Named h m label t i)) ∧
      ValuesOnly h n m m' ∧ ∀ (t' : VarTable) (j : ℕ), j < n → varValue t' h j m' =
        if t = t' ∧ i = j ∧ Named h m label t' j then scanned f t' p (varValue t' h j m)
        else varValue t' h j m := by
  obtain ⟨hlo, hhi⟩ := hv.entry t hi
  obtain ⟨hw, hs⟩ := t.width_size
  have hload : m.load32 (t.addr h i + t.width) = some (m.word (t.addr h i + t.width)) :=
    Mem.load32_eq ⟨by omega, by push_cast; omega⟩
  have hcmp : strcmpEq label (t.addr h i + t.width + 4) m = some (decide (varText t h i m = label)) := by
    have hlen := m.get_length (t.addr h i + t.width + 4) 64
    refine strcmpEq_spec hlabel (he t i hi) ⟨by omega, by rw [hlen]; push_cast; omega⟩ ?_
    rw [hlen]
  rw [visitVar, hload, Option.bind_eq_bind, Option.bind_some, hcmp]
  by_cases hu : m.word (t.addr h i + t.width) &&& eUsed = 0
  · have hnot : ¬ Named h m label t i := fun hn => hn.1 hu
    refine ⟨m, by simp [hu, hnot], .refl hv, fun t' j hj => (if_neg ?_).symm⟩
    rintro ⟨rfl, rfl, hn⟩
    exact hnot hn
  · by_cases htext : varText t h i m = label
    · have hn : Named h m label t i := ⟨hu, htext⟩
      cases hscan : f.scan t p with
      | none =>
        refine ⟨m, by simp [hu, htext, hn], .refl hv, fun t' j hj => ?_⟩
        split
        · rename_i hhit
          obtain ⟨rfl, rfl, -⟩ := hhit
          simp [scanned, hscan]
        · rfl
      | some value =>
        obtain ⟨m', e, hf, hget⟩ := Mem.store_spec m (t.addr h i) (leBytes t.width (t.bits value))
          ⟨by omega, by rw [leBytes_length]; omega⟩
        rw [leBytes_length] at hf hget
        refine ⟨m', by simp [hu, htext, hn, e], ⟨hv, hf.mono fun x hx => mem_valueBytes hi hx.1 hx.2⟩,
          fun t' j hj => ?_⟩
        split
        · rename_i hhit
          obtain ⟨rfl, rfl, -⟩ := hhit
          rw [varValue, hget, scanned, hscan]
        · rename_i hmiss
          refine hv.varValue_of_frame hi hj (fun heq => hmiss ?_) (by omega) hf
          obtain ⟨rfl, rfl⟩ := heq
          exact ⟨rfl, rfl, hn⟩
    · have hnot : ¬ Named h m label t i := fun hn => htext hn.2
      refine ⟨m, by simp [hu, htext, hnot], .refl hv, fun t' j hj => (if_neg ?_).symm⟩
      rintro ⟨rfl, rfl, hn⟩
      exact hnot hn

/-- SEARCH: from variable `i` on, each slot of the table that has the name is set, and nothing else
    changes. -/
theorem searchVars_spec (hlabel : 0 ∉ label) : ∀ (fuel i : ℕ) {m : Mem} (found : Bool),
    VarTables h n m → TextsEnd h n m → i ≤ n → n < fuel + i →
    ∃ m' found', searchVars f t h label p fuel i found m = some (m', found') ∧ ValuesOnly h n m m' ∧
      (found' = true ↔ found = true ∨ ∃ j, i ≤ j ∧ j < n ∧ Named h m label t j) ∧
      ∀ (t' : VarTable) (j : ℕ), j < n → varValue t' h j m' =
        if t = t' ∧ i ≤ j ∧ Named h m label t' j then scanned f t' p (varValue t' h j m)
        else varValue t' h j m := by
  intro fuel
  induction fuel with
  | zero =>
    intro i m found hv he hi hfuel
    omega
  | succ fuel ih =>
    intro i m found hv he hi hfuel
    rw [searchVars, hv.hdrNumVars_eq, Option.bind_eq_bind, Option.bind_some]
    by_cases hlt : i < n
    · obtain ⟨m₁, e₁, h₁, hvalue₁⟩ := visitVar_spec (f := f) (p := p) hv he hlabel (t := t) hlt
      obtain ⟨m₂, found₂, e₂, h₂, hfound, hvalue₂⟩ := ih (i + 1)
        (found || decide (Named h m label t i)) h₁.tables' (h₁.textsEnd he) (by omega) (by omega)
      refine ⟨m₂, found₂, ?_, h₁.trans h₂, ?_, fun t' j hj => ?_⟩
      · rw [if_pos hlt, e₁, Option.bind_eq_bind, Option.bind_some]
        exact e₂
      · rw [hfound, Bool.or_eq_true, decide_eq_true_eq, or_assoc]
        refine or_congr_right ⟨?_, ?_⟩
        · rintro (hn | ⟨j, h0, h1, hn⟩)
          · exact ⟨i, le_refl i, hlt, hn⟩
          · exact ⟨j, by omega, h1, (h₁.named_iff h1).mp hn⟩
        · rintro ⟨j, h0, h1, hn⟩
          rcases Nat.eq_or_lt_of_le h0 with rfl | hgt
          · exact Or.inl hn
          · exact Or.inr ⟨j, hgt, h1, (h₁.named_iff h1).mpr hn⟩
      · rw [hvalue₂ t' j hj, hvalue₁ t' j hj]
        simp only [h₁.named_iff hj]
        rcases Nat.lt_trichotomy i j with hij | rfl | hij
        · simp [show i ≠ j by omega, show i + 1 ≤ j by omega, show i ≤ j by omega]
        · simp
        · simp [show i ≠ j by omega, show ¬ i + 1 ≤ j by omega, show ¬ i ≤ j by omega]
    · refine ⟨m, found, if_neg hlt, .refl hv, ?_, fun t' j hj => (if_neg ?_).symm⟩
      · refine ⟨Or.inl, ?_⟩
        rintro (hf | ⟨j, h0, h1, -⟩)
        · exact hf
        · omega
      · rintro ⟨-, h0, -⟩
        omega

/-- NAMED: every variable in use with the label as its text is set, whichever its table, and nothing else
    changes; an empty label names none. -/
theorem setNamed_spec {w : World} (hlabel : 0 ∉ label) (hv : VarTables h n w.mem)
    (he : TextsEnd h n w.mem) : ∃ w', setNamed f h label p w = some w' ∧ ValuesOnly h n w.mem w'.mem ∧
      ∀ (t : VarTable) (j : ℕ), j < n → varValue t h j w'.mem =
        if label ≠ [] ∧ Named h w.mem label t j then scanned f t p (varValue t h j w.mem)
        else varValue t h j w.mem := by
  by_cases hnil : label = []
  · exact ⟨w, by simp [setNamed, hnil], .refl hv, fun t j hj => (if_neg fun hne => hne.1 hnil).symm⟩
  · obtain ⟨b, hb, hn⟩ := hv.pow2
    have hlt : n < 4294967296 := by
      rw [hn]
      exact Nat.pow_lt_pow_right (a := 2) (m := b) (n := 32) (by omega) (by omega)
    obtain ⟨m₁, found₁, e₁, h₁, -, hvalue₁⟩ := searchVars_spec (f := f) (p := p) (t := .double) hlabel
      4294967296 0 false hv he (Nat.zero_le n) (by omega)
    obtain ⟨m₂, found₂, e₂, h₂, -, hvalue₂⟩ := searchVars_spec (f := f) (p := p) (t := .int) hlabel
      4294967296 0 found₁ h₁.tables' (h₁.textsEnd he) (Nat.zero_le n) (by omega)
    have hmem : ∀ t j, j < n → varValue t h j m₂ =
        if label ≠ [] ∧ Named h w.mem label t j then scanned f t p (varValue t h j w.mem)
        else varValue t h j w.mem := by
      intro t j hj
      rw [hvalue₂ t j hj, hvalue₁ t j hj]
      simp only [h₁.named_iff hj]
      cases t <;> simp [hnil]
    rw [setNamed, if_neg hnil, e₁, Option.bind_eq_bind, Option.bind_some]
    simp only [e₂, Option.bind_some, Option.pure_def]
    cases found₂
    · exact ⟨_, rfl, h₁.trans h₂, hmem⟩
    · exact ⟨_, rfl, h₁.trans h₂, hmem⟩

end Search

end Log2mem
