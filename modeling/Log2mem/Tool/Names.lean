import Log2mem.Tool.ByName

/-! The names variables are registered under.

    The first `init` of a slot decides its text for good: it stores the first 63 bytes of its label and
    marks the slot used. Whatever happens to the memmap afterwards, values that are set by the program or
    by the tool and writes to other sections, the slots in use under a text are those whose first label
    starts with it.

        init j "abc"   set j   rows, counters   --abc=5   init j "xyz"
             │                                                  └ ignored
             └──▶ text of slot j = "abc", in use, from here on               -/

namespace Log2mem
open Schemes

/-- What happens to a memmap that is in use. -/
inductive VarEvent where
  /-- the program, or the tool by index -/
  | call (c : VarCall)
  /-- the tool, by name -/
  | named (label : CStr) (p : Text)
  /-- a change of other sections, to this memmap -/
  | elsewhere (m' : Mem)

/-- The bytes that are neither `num_vars` nor part of a variable. -/
def elsewhereBytes (h : Handle) (n : ℕ) : Set ℤ :=
  {x | (x < 48 ∨ 52 ≤ x) ∧ ∀ t : VarTable, x < t.base h ∨ t.base h + t.size * n ≤ x}

/-- The memmap an event leaves, and the calls made so far. -/
def VarEvent.step (f : Sscanf) (h : Handle) (s : Mem × List VarCall) : VarEvent → Option (Mem × List VarCall)
  | call c => (c.run h s.1).map fun m => (m, s.2 ++ [c])
  | named label p => (setNamed f h label.chars p ⟨s.1, []⟩).map fun w => (w.mem, s.2)
  | elsewhere m' => some (m', s.2)

/-- A change of other sections leaves the variables as they are. -/
def VarEvent.Ok (h : Handle) (n : ℕ) (s : Mem × List VarCall) : VarEvent → Prop
  | elsewhere m' => Mem.Frame (elsewhereBytes h n) s.1 m'
  | _ => True

/-- The memmap `m` is reached from a fresh one; `calls` are the calls made on the way. -/
def VarsReached (f : Sscanf) (h : Handle) (n : ℕ) (calls : List VarCall) (m : Mem) : Prop :=
  ∃ m₀, VarTables h n m₀ ∧ FreshVars h n m₀ ∧ Run (VarEvent.step f h) (VarEvent.Ok h n) (m₀, []) (m, calls)

/-- The first `init` of slot `i` of a table gave it this name. -/
def Registered (n : ℕ) (calls : List VarCall) (name : Text) (t : VarTable) (i : ℕ) : Prop :=
  ∃ s : CStr, firstLabel (history n i t calls) = some (some s) ∧ s.chars = name

/-- Every slot holds a latch that has the first label of the calls addressed to it. -/
def Latched (h : Handle) (n : ℕ) (s : Mem × List VarCall) : Prop :=
  VarTables h n s.1 ∧ ∃ cells : (t : VarTable) → ℕ → Latch t.Value (Option CStr),
    ∀ t i, i < n → VarHolds t h i s.1 (cells t i) ∧
      (cells t i).label = firstLabel (history n i t s.2) ∧
      ((cells t i).label.isSome → (cells t i).used = true)

section Steps
variable {h : Handle} {n i : ℕ} {m m' : Mem} {t : VarTable} {f : Sscanf}

theorem history_concat (calls : List VarCall) (c : VarCall) : history n i t (calls ++ [c]) =
    history n i t calls ++ (c.addressed n i t).toList := by
  rw [history, List.filterMap_append, ← history]
  cases hc : c.addressed n i t <;> simp [hc]

theorem VarCall.latch_label {calls : List VarCall} {l : Latch t.Value (Option CStr)}
    (hlabel : l.label = firstLabel (history n i t calls)) (hused : l.label.isSome → l.used = true)
    (c : VarCall) : (c.latch n i t l).label = firstLabel (history n i t (calls ++ [c])) ∧
      ((c.latch n i t l).label.isSome → (c.latch n i t l).used = true) := by
  unfold VarCall.latch
  rw [history_concat]
  cases c.addressed n i t with
  | none => exact ⟨by rw [Option.toList_none, List.append_nil]; exact hlabel, hused⟩
  | some op => exact ⟨Latch.step_label hlabel op, fun _ => Latch.step_used op hused⟩

/-- CALL: a call takes the latches it addresses one step. -/
theorem Latched.call {calls : List VarCall} (hl : Latched h n (m, calls)) {c : VarCall}
    (hr : c.run h m = some m') : Latched h n (m', calls ++ [c]) := by
  obtain ⟨hv, cells, hcells⟩ := hl
  obtain ⟨m₁, e, hv', hstep⟩ := c.run_spec hv fun t i hi => (hcells t i hi).1
  rw [e, Option.some.injEq] at hr
  rw [hr] at hv' hstep
  refine ⟨hv', fun t i => c.latch n i t (cells t i), fun t i hi => ⟨hstep t i hi, ?_⟩⟩
  obtain ⟨-, hlabel, hused⟩ := hcells t i hi
  exact VarCall.latch_label hlabel hused c

/-- A latch whose value alone was changed. -/
theorem VarHolds.of_values {c : Latch t.Value (Option CStr)} (hc : VarHolds t h i m c)
    (hf : ValuesOnly h n m m') (hi : i < n) {value : t.Value}
    (hvalue : varValue t h i m' = leBytes t.width (t.bits value)) :
    VarHolds t h i m' { c with value } :=
  ⟨hvalue, (hf.flags_eq hi).trans hc.flags, (hf.text_eq hi).trans hc.text⟩

theorem Latched.textsEnd {calls : List VarCall} (hl : Latched h n (m, calls)) : TextsEnd h n m := by
  obtain ⟨-, cells, hcells⟩ := hl
  intro t i hi
  have hlen := labelText_length_le (cells t i).label
  rw [(hcells t i hi).1.text]
  exact List.mem_append_right _ (List.mem_replicate.mpr ⟨by omega, rfl⟩)

/-- NAMED: the tool changes values, and no label. -/
theorem Latched.named {calls : List VarCall} (hl : Latched h n (m, calls)) {label : CStr} {p : Text}
    {w : World} (hr : setNamed f h label.chars p ⟨m, []⟩ = some w) : Latched h n (w.mem, calls) := by
  obtain ⟨w', e, hf, hvalue⟩ := setNamed_spec (f := f) (p := p) (w := ⟨m, []⟩) label.nul_free hl.1 hl.textsEnd
  rw [e, Option.some.injEq] at hr
  rw [hr] at hf hvalue
  obtain ⟨hv, cells, hcells⟩ := hl
  refine ⟨hf.tables', fun t i => { cells t i with
    value := if label.chars ≠ [] ∧ Named h m label.chars t i then (f.scan t p).getD (cells t i).value
      else (cells t i).value }, fun t i hi => ?_⟩
  obtain ⟨hhold, hlabel, hused⟩ := hcells t i hi
  refine ⟨hhold.of_values hf hi ?_, hlabel, hused⟩
  have hold : varValue t h i m = leBytes t.width (t.bits (cells t i).value) := hhold.value
  rw [hvalue t i hi]
  split
  · rw [scanned, hold]
    cases f.scan t p <;> rfl
  · exact hold

/-- ELSEWHERE: other sections hold no latch. -/
theorem Latched.elsewhere {calls : List VarCall} (hl : Latched h n (m, calls))
    (hf : Mem.Frame (elsewhereBytes h n) m m') : Latched h n (m', calls) := by
  obtain ⟨hv, cells, hcells⟩ := hl
  have hin : ∀ (t : VarTable) (i : ℕ), i < n → ∀ x, t.addr h i ≤ x → x < t.addr h i + t.size →
      x ∉ elsewhereBytes h n := by
    rintro t i hi x h0 h1 ⟨-, hout⟩
    have hlt : (i + 1 : ℤ) ≤ n := by omega
    specialize hout t
    unfold VarTable.addr at h0 h1
    cases t <;> simp only [VarTable.size] at h0 h1 hout <;> push_cast at h0 h1 hout <;> omega
  refine ⟨⟨?_, hv.pow2, fun t => ?_, hv.apart⟩, cells, fun t i hi => ?_⟩
  · rw [hf.word_eq, hv.numVars]
    rintro x h0 h1 ⟨hx, -⟩
    omega
  · rw [hf.size]
    exact hv.room t
  · obtain ⟨hhold, hlabel, hused⟩ := hcells t i hi
    obtain ⟨hw, hs⟩ := t.width_size
    refine ⟨⟨?_, ?_, ?_⟩, hlabel, hused⟩
    · rw [hf.get_eq fun x h0 h1 => hin t i hi x h0 (by omega), hhold.value]
    · rw [hf.word_eq fun x h0 h1 => hin t i hi x (by omega) (by omega), hhold.flags]
    · rw [hf.get_eq fun x h0 h1 => hin t i hi x (by omega) (by push_cast at h1; omega), hhold.text]

/-- STEP: every event keeps the latches. -/
theorem Latched.event {s s' : Mem × List VarCall} {e : VarEvent} (hl : Latched h n s)
    (hok : e.Ok h n s) (hs : e.step f h s = some s') : Latched h n s' := by
  cases e with
  | call c =>
    obtain ⟨m', hr, rfl⟩ := Option.map_eq_some_iff.mp hs
    exact hl.call hr
  | named label p =>
    obtain ⟨w, hr, rfl⟩ := Option.map_eq_some_iff.mp hs
    exact hl.named hr
  | elsewhere m' =>
    rw [VarEvent.step, Option.some.injEq] at hs
    rw [← hs]
    exact hl.elsewhere hok

end Steps

section Names
variable {h : Handle} {n i : ℕ} {m : Mem} {t : VarTable} {f : Sscanf} {calls : List VarCall} {name : Text}

/-- RUN: every memmap that is reached holds latches. -/
theorem VarsReached.latched (hr : VarsReached f h n calls m) : Latched h n (m, calls) := by
  obtain ⟨m₀, hv, hz, hrun⟩ := hr
  refine hrun.invariant (I := Latched h n) ⟨hv, fun t _ => .fresh t.zero, fun t i hi => ?_⟩
    fun _ _ _ hl hok hs => hl.event hok hs
  exact ⟨hz.holds t hi, rfl, fun hsome => absurd hsome (by simp [Latch.fresh])⟩

theorem VarsReached.start (hv : VarTables h n m) (hz : FreshVars h n m) : VarsReached f h n [] m :=
  ⟨m, hv, hz, .refl⟩

theorem VarsReached.call (hr : VarsReached f h n calls m) (c : VarCall) :
    ∃ m', VarsReached f h n (calls ++ [c]) m' := by
  obtain ⟨hv, cells, hcells⟩ := hr.latched
  obtain ⟨m', e, -, -⟩ := c.run_spec hv fun t i hi => (hcells t i hi).1
  obtain ⟨m₀, hv₀, hz, hrun⟩ := hr
  exact ⟨m', m₀, hv₀, hz, hrun.tail (a := .call c) trivial (by simp [VarEvent.step, e])⟩

theorem VarsReached.varText_eq (hr : VarsReached f h n calls m) (hi : i < n) :
    varText t h i m = labelText (firstLabel (history n i t calls)) := by
  obtain ⟨-, cells, hcells⟩ := hr.latched
  obtain ⟨hhold, hlabel, -⟩ := hcells t i hi
  have hfree : ∀ b ∈ labelText (cells t i).label, decide (b ≠ 0) = true := by
    intro b hb
    rcases hc : (cells t i).label with _ | _ | s
    · simp [hc, labelText] at hb
    · simp [hc, labelText] at hb
    · rw [hc] at hb
      have hs : b ∈ s.chars := List.mem_of_mem_take hb
      refine decide_eq_true fun h0 => s.nul_free ?_
      rwa [← h0]
  have hlen := labelText_length_le (cells t i).label
  rw [varText, hhold.text, strText, List.takeWhile_append_of_pos hfree, ← hlabel]
  cases hk : 64 - (labelText (cells t i).label).length with
  | zero => omega
  | succ k => simp [List.replicate_succ]

theorem VarsReached.used (hr : VarsReached f h n calls m) (hi : i < n)
    (hreg : Registered n calls name t i) : VarUsed h m t i := by
  obtain ⟨-, cells, hcells⟩ := hr.latched
  obtain ⟨hhold, hlabel, hused⟩ := hcells t i hi
  obtain ⟨s, hs, -⟩ := hreg
  have hset : (cells t i).used = true := hused (by rw [hlabel, hs]; rfl)
  rw [VarUsed, hhold.flags, latchFlags_used, hset]
  decide

/-- TEXTS: the slots in use under a name are those whose first label starts with it, up to 63 bytes. -/
theorem VarsReached.named_iff (hr : VarsReached f h n calls m) (hi : i < n) (hne : name ≠ []) :
    Named h m name t i ↔ ∃ s : CStr, firstLabel (history n i t calls) = some (some s) ∧
      s.chars.take 63 = name := by
  rw [Named, hr.varText_eq hi]
  constructor
  · rintro ⟨-, htext⟩
    rcases hl : firstLabel (history n i t calls) with _ | _ | s
    · exact absurd htext.symm (by simpa [hl, labelText] using hne)
    · exact absurd htext.symm (by simpa [hl, labelText] using hne)
    · rw [hl] at htext
      exact ⟨s, rfl, htext⟩
  · rintro ⟨s, hs, htake⟩
    exact ⟨hr.used hi ⟨s, hs, rfl⟩, by rw [hs]; exact htake⟩

end Names

end Log2mem
