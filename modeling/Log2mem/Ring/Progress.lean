import Log2mem.Ring.Invariant

/-! Every call completes by its own steps: no owner waits for another one.

    The memory accesses still to come of a call are counted by `rank`; each one succeeds, and what the
    call has offered and will still offer stays the same. So any number of rows can be logged, one
    after the other, and each ends up with exactly what its owner offered. -/

namespace Log2mem
open Schemes

/-- The jobs of the current call that are still to be completed. -/
def Owner.pending (options : ℕ) (o : Owner) : List Job :=
  match o.pc with
  | .stampTid | .stampTs | .stampId | .reset | .location => o.start.jobs options
  | .ready | .finished => o.todo
  | .addr j | .write j _ | .load j | .store j _ => j :: o.todo

/-- A bound on the memory accesses of the current call that are still to come. -/
def Owner.rank (o : Owner) : ℕ :=
  match o.pc with
  | .stampTid => 15
  | .stampTs => 14
  | .stampId => 13
  | .reset => 12
  | .location => 11
  | .ready => 5 * o.todo.length
  | .addr _ => 5 * o.todo.length + 4
  | .write _ _ => 5 * o.todo.length + 3
  | .load _ => 5 * o.todo.length + 2
  | .store _ _ => 5 * o.todo.length + 1
  | .finished => 0

/-- Every group offered once the current call is complete. -/
def Owner.promised (options : ℕ) (o : Owner) : List (List Rec) :=
  o.done ++ (o.pending options).map Job.recs

theorem Start.jobs_length_le (options : ℕ) (start : Start) : (start.jobs options).length ≤ 2 := by
  cases start with
  | row filename lineno =>
    cases filename with
    | none => simp [Start.jobs, locationPushes]
    | some s =>
      simp only [Start.jobs, locationPushes]
      split <;> simp
  | event e => simp [Start.jobs]

section Step
variable {o o' : Owner} {m m' : Mem}

/-- Each access brings the call closer to its end, and keeps what it promised. -/
theorem Owner.step_promised {options : ℕ} (hopt : hdrOptions m = some options)
    (hs : o.step m = some (o', m')) :
    o'.promised options = o.promised options ∧ o'.rank < o.rank ∧
      (∀ j ∈ o'.pending options, j ∈ o.pending options) ∧ o'.pc ≠ .finished := by
  have hlen := o.start.jobs_length_le options
  cases hpc : o.pc with
  | location =>
    simp only [Owner.step, hpc, hopt, Option.bind_eq_bind, Option.bind_some, Option.pure_def,
      Option.some.injEq, Prod.mk.injEq] at hs
    obtain ⟨rfl, rfl⟩ := hs
    refine ⟨by simp [Owner.promised, Owner.pending, hpc], ?_, by simp [Owner.pending, hpc], by simp⟩
    simp only [Owner.rank, hpc]
    omega
  | ready =>
    simp only [Owner.step, hpc] at hs
    cases htd : o.todo with
    | nil => simp [htd] at hs
    | cons j js =>
      simp only [htd, Option.bind_eq_bind, Option.bind_eq_some_iff] at hs
      obtain ⟨b, -, hs⟩ := hs
      cases b with
      | true =>
        simp only [if_true, Option.pure_def, Option.some.injEq, Prod.mk.injEq] at hs
        obtain ⟨rfl, rfl⟩ := hs
        cases j <;> simp [Owner.promised, Owner.pending, Owner.rank, Job.placed, hpc, htd] <;> omega
      | false =>
        simp only [Bool.false_eq_true, if_false, Option.pure_def, Option.some.injEq,
          Prod.mk.injEq] at hs
        obtain ⟨rfl, rfl⟩ := hs
        refine ⟨by simp [Owner.promised, Owner.pending, hpc, htd], ?_, ?_, by simp⟩
        · simp only [Owner.rank, hpc, htd, List.length_cons]
          omega
        · simp only [Owner.pending, hpc, htd]
          exact fun j' hj' => List.mem_cons_of_mem _ hj'
  | finished => simp [Owner.step, hpc] at hs
  | store j d =>
    simp only [Owner.step, hpc, Option.bind_eq_bind, Option.bind_eq_some_iff, Option.pure_def,
      Option.some.injEq, Prod.mk.injEq] at hs
    obtain ⟨m1, -, rfl, rfl⟩ := hs
    refine ⟨by simp [Owner.promised, Owner.pending, hpc], by simp [Owner.rank, hpc], ?_, by simp⟩
    simp only [Owner.pending, hpc]
    exact fun j' hj' => List.mem_cons_of_mem _ hj'
  | stampTid | stampTs | stampId | reset | addr | write | load =>
    simp only [Owner.step, hpc, Option.bind_eq_bind, Option.bind_eq_some_iff, Option.pure_def,
      Option.some.injEq, Prod.mk.injEq] at hs
    obtain ⟨_, -, rfl, rfl⟩ := hs
    exact ⟨by simp [Owner.promised, Owner.pending, hpc], by simp [Owner.rank, hpc],
      by simp [Owner.pending, hpc], by simp⟩

theorem Owner.idle_promised {options : ℕ} (h : o.idle = true) : o.promised options = o.done := by
  obtain ⟨hpc, htd⟩ := Owner.idle_iff.mp h
  simp [Owner.promised, Owner.pending, hpc, htd]

end Step

section Run
variable {G : Geometry} {s : State}

theorem Ring.hdrOptions_eq (hr : Ring G s) : hdrOptions s.mem = some G.cfg.options.toNat :=
  hr.mapped.header.hdrOptions_eq (by have := hr.mapped.size_ge; omega)

/-- PROGRESS: on its own steps alone, a retained owner whose current call has exact lengths completes
    the call, and has then offered what the call promised. -/
theorem Ring.completes {k : ℕ} : ∀ (r : ℕ) {s : State} {o : Owner}, o.rank = r → Ring G s →
    s.owners[k]? = some o → s.owners.length ≤ k + G.numRows → o.pc ≠ .finished →
    (∀ j ∈ o.pending G.cfg.options.toNat, j.Exact) →
    ∃ s' o', Run (step G.handle) (Timely G.numRows) s s' ∧ Ring G s' ∧
      s'.owners = s.owners.set k o' ∧ o'.idle = true ∧ o'.done = o.promised G.cfg.options.toNat := by
  intro r
  induction r using Nat.strong_induction_on with
  | _ r ih =>
    intro s o hrank hr hk hret hfin hex
    by_cases hidle : o.idle = true
    · exact ⟨s, o, .refl, hr, (set_self_of_some hk).symm, hidle, (Owner.idle_promised hidle).symm⟩
    · obtain ⟨hid, hrow⟩ := hr.owner k o hk
      have hslot : k % G.numRows < G.numRows := Nat.mod_lt _ G.numRows_pos
      have hwrite : ∀ j off, o.pc = .write j off → j.Exact := fun j off hpc =>
        hex j (by simp [Owner.pending, hpc])
      obtain ⟨o₁, m₁, e, hok₁, -⟩ := Owner.step_spec hr.mapped hslot hrow (by omega)
        (hr.held k o hk hret) (by simpa using hidle) hfin hwrite
      obtain ⟨hprom, hlt, hpend, hfin₁⟩ := Owner.step_promised hr.hdrOptions_eq e
      have hstep : step G.handle s (.advance k) = some ⟨m₁, s.owners.set k o₁⟩ := by
        simp [step, hk, e]
      have hr₁ := hr.step_ok (a := .advance k) trivial hstep
      have hk₁ : (s.owners.set k o₁)[k]? = some o₁ := by
        simp [lt_of_getElem?_some hk]
      obtain ⟨s', o', hrun, hr', hown, hidle', hdone⟩ := ih o₁.rank (by omega) rfl hr₁ hk₁
        (by simpa using hret) hfin₁ fun j hj => hex j (hpend j hj)
      refine ⟨s', o', (Run.single trivial hstep).trans hrun,
        hr', ?_, hidle', hdone.trans hprom⟩
      rw [hown]
      simp

/-- Every owner is done with its row. -/
def Quiet (s : State) : Prop := ∀ o ∈ s.owners, o.pc = .finished

/-- From a quiet ring, one more row with one character in it can be logged. -/
theorem Ring.logs_char (hr : Ring G s) (hq : Quiet s) (env : Env) (d : UInt8) :
    ∃ s' o, Run (step G.handle) (Timely G.numRows) s s' ∧ s'.owners = s.owners ++ [o] ∧
      o.pc = .finished ∧ o.done = [[⟨.char, [d]⟩]] := by
  have hpos := G.numRows_pos
  -- the fetch-add, and the header of the slot
  have htimely : Timely G.numRows s (.acquire (.row none 0) env) := fun k o _ hk =>
    hq o (List.mem_of_getElem? hk)
  obtain ⟨m₁, e₁, -⟩ := hr.acquire (.row none 0) env
  have hr₁ := hr.step_ok htimely e₁
  obtain ⟨s₂, o₂, hrun₂, hr₂, hown₂, hidle₂, hdone₂⟩ := Ring.completes (k := s.owners.length) _ rfl hr₁
    (List.getElem?_concat_length) (by simp; omega) (by simp)
    (by simp [Owner.pending, Start.jobs, locationPushes])
  rw [List.set_append_right _ _ (le_refl _), Nat.sub_self, List.set_cons_zero] at hown₂
  have hdone : o₂.done = [] := by
    rw [hdone₂]
    simp [Owner.promised, Owner.pending, Start.jobs, locationPushes]
  -- the append call
  obtain ⟨hpc₂, htd₂⟩ := Owner.idle_iff.mp hidle₂
  have hk₂ : s₂.owners[s.owners.length]? = some o₂ := by rw [hown₂]; simp
  let o₃ : Owner := { o₂ with todo := [.push (.value (.char d))] }
  have e₃ : step G.handle s₂ (.append s.owners.length (.char d)) =
      some { s₂ with owners := s₂.owners.set s.owners.length o₃ } := by
    simp [step, hk₂, hidle₂, Append.pushes, o₃]
  have hr₃ := hr₂.step_ok (a := .append s.owners.length (.char d)) trivial e₃
  obtain ⟨s₄, o₄, hrun₄, hr₄, hown₄, hidle₄, hdone₄⟩ := Ring.completes (k := s.owners.length)
    (o := o₃) _ rfl hr₃ (by simp [hown₂]) (by simp [hown₂]; omega) (by simp [o₃, hpc₂])
    (by simp [o₃, Owner.pending, hpc₂, Job.Exact, Push.Exact])
  simp only [hown₂, List.set_append_right _ _ (le_refl _), Nat.sub_self, List.set_cons_zero] at hown₄
  -- the owner is done
  have hk₄ : s₄.owners[s.owners.length]? = some o₄ := by rw [hown₄]; simp
  let o₅ : Owner := { o₄ with pc := .finished }
  have e₅ : step G.handle s₄ (.finish s.owners.length) =
      some { s₄ with owners := s₄.owners.set s.owners.length o₅ } := by
    simp [step, hk₄, hidle₄, o₅]
  refine ⟨⟨s₄.mem, s₄.owners.set s.owners.length o₅⟩, o₅, ?_, ?_, rfl, ?_⟩
  · have hrun₃ : Run (step G.handle) (Timely G.numRows) s ⟨s₂.mem, s₂.owners.set s.owners.length o₃⟩ :=
      ((Run.single htimely e₁).trans hrun₂).tail (a := .append s.owners.length (.char d)) trivial e₃
    exact (hrun₃.trans hrun₄).tail (a := .finish s.owners.length) trivial e₅
  · simp [hown₄]
  · show o₄.done = _
    rw [hdone₄]
    simp [o₃, Owner.promised, Owner.pending, hpc₂, hdone, Job.recs, Push.recs, Value.type, Value.bytes]

/-- Any number of one-character rows can be logged on a fresh memmap. -/
theorem exists_quiet {os : Os} {date : List UInt8} {h : Handle} {m₀ : Mem}
    (hc : create os G.ps date G.config = some (h, m₀)) (env : Env) (d : UInt8) (n : ℕ) :
    ∃ s, Run (step h) (Timely G.numRows) ⟨m₀, []⟩ s ∧ s.owners.length = n ∧ Quiet s ∧
      ∀ o ∈ s.owners, o.done = [[⟨.char, [d]⟩]] := by
  induction n with
  | zero => exact ⟨_, .refl, rfl, by simp [Quiet], by simp⟩
  | succ n ih =>
    obtain ⟨s, hrun, hlen, hq, hdone⟩ := ih
    obtain ⟨rfl, hr⟩ := Ring.run hc hrun
    obtain ⟨s', o, hrun', hown, hpc, hdone'⟩ := hr.logs_char hq env d
    refine ⟨s', hrun.trans hrun', by simp [hown, hlen], fun o₁ h₁ => ?_, fun o₁ h₁ => ?_⟩ <;>
      rw [hown] at h₁ <;> rcases List.mem_append.mp h₁ with h₁ | h₁
    · exact hq o₁ h₁
    · rw [List.mem_singleton.mp h₁]; exact hpc
    · exact hdone o₁ h₁
    · rw [List.mem_singleton.mp h₁]; exact hdone'

end Run

end Log2mem
