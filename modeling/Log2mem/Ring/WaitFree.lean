import Log2mem.Ring.Isolation

/-! Calls on a row wait for nobody (`log2mem_write`, the append functions, `log2mem_time_event4`).

    A call has no loop over shared memory: its accesses are those of its own program, at most fifteen,
    whatever the other threads do between them. None of them can fail while the owner is not overtaken.

        acquire, stamp ×3, reset, options      test, address, write, load, store      … and once more
        ───────── 15 … 11 ─────────────▶ 10 ─────────────────────────────────▶ 5 ───────────────▶ 0 -/

namespace Log2mem
open Schemes

/-- A memory access of owner `k`. -/
def Act.advances (k : ℕ) : Act → Bool
  | .advance j => j = k
  | _ => false

/-- A call, or the end, of owner `k`: it starts something new. -/
def Act.Starts (k : ℕ) : Act → Prop
  | .append j _ | .finish j => j = k
  | _ => False

section Steps
variable {G : Geometry} {h : Handle} {s s' : State} {k : ℕ} {o : Owner} {a : Act}

theorem step_others (hs : step h s a = some s') (hk : s.owners[k]? = some o)
    (hadv : a.advances k = false) (hst : ¬ a.Starts k) : s'.owners[k]? = some o := by
  cases a with
  | acquire start env =>
    obtain ⟨m, rowid, r, -, -, rfl⟩ := step_acquire hs
    rw [List.getElem?_append_left (lt_of_getElem?_some hk)]
    exact hk
  | advance j =>
    obtain ⟨o₁, o', m, -, -, rfl⟩ := step_advance hs
    rw [List.getElem?_set_ne (by simpa [Act.advances] using hadv)]
    exact hk
  | append j b =>
    obtain ⟨o₁, -, -, -, rfl⟩ := step_append hs
    rw [List.getElem?_set_ne (by exact hst)]
    exact hk
  | finish j =>
    obtain ⟨o₁, -, -, -, rfl⟩ := step_finish hs
    rw [List.getElem?_set_ne (by exact hst)]
    exact hk

/-- A retained owner in the middle of a call of exact lengths can take its next access. -/
theorem Ring.can_advance (hr : Ring G s) (hk : s.owners[k]? = some o) (hfin : o.pc ≠ .finished)
    (hidle : o.idle = false) (hex : ∀ j ∈ o.pending G.cfg.options.toNat, j.Exact) :
    ∃ s', step G.handle s (.advance k) = some s' := by
  obtain ⟨hid, hrow⟩ := hr.owner k o hk
  obtain ⟨o', m', e, -⟩ := Owner.step_spec hr.mapped (Nat.mod_lt _ G.numRows_pos) hrow (by omega)
    (hr.held k o hk (hr.retained hk hfin)) hidle hfin
    fun j off hpc => hex j (by simp [Owner.pending, hpc])
  exact ⟨⟨m', s.owners.set k o'⟩, by simp [step, hk, e]⟩

theorem Append.pushes_length_le (a : Append) : a.pushes.length ≤ 1 := by
  cases a with
  | str s => cases s <;> simp [Append.pushes]
  | str2 s len => cases s <;> simp [Append.pushes]
  | _ => simp [Append.pushes]

/-- STEP: no owner ever has more than fifteen accesses ahead. -/
theorem Ring.rank_step (hr : Ring G s) (hle : ∀ o ∈ s.owners, o.rank ≤ 15)
    (hs : step G.handle s a = some s') : ∀ o ∈ s'.owners, o.rank ≤ 15 := by
  intro o ho
  cases a with
  | acquire start env =>
    obtain ⟨m, rowid, r, -, -, rfl⟩ := step_acquire hs
    rcases List.mem_append.mp ho with ho | ho
    · exact hle o ho
    · rw [List.mem_singleton.mp ho]
      exact le_refl 15
  | advance j =>
    obtain ⟨o₁, o', m, hj, e, rfl⟩ := step_advance hs
    rcases List.mem_or_eq_of_mem_set ho with ho | rfl
    · exact hle o ho
    · have hlt := (Owner.step_promised hr.hdrOptions_eq e).2.1
      have := hle o₁ (List.mem_of_getElem? hj)
      omega
  | append j b =>
    obtain ⟨o₁, hj, hpc, -, rfl⟩ := step_append hs
    rcases List.mem_or_eq_of_mem_set ho with ho | rfl
    · exact hle o ho
    · have := b.pushes_length_le
      simp only [Owner.rank, hpc, List.length_map]
      omega
  | finish j =>
    obtain ⟨o₁, hj, hpc, -, rfl⟩ := step_finish hs
    rcases List.mem_or_eq_of_mem_set ho with ho | rfl
    · exact hle o ho
    · simp [Owner.rank]

/-- RUN: whatever the others do, each access of an owner uses up one of those its call has ahead, and the
    call still promises the same. -/
theorem Ring.uses_up : ∀ {as : List Act} {s t : State} {o : Owner}, Ring G s → s.owners[k]? = some o →
    o.pc ≠ .finished → (∀ j ∈ o.pending G.cfg.options.toNat, j.Exact) →
    (∀ a ∈ as, ¬ a.Starts k) → AllOk (step G.handle) (Timely G.numRows) s as →
    exec (step G.handle) s as = some t → Ring G t ∧ ∃ o', t.owners[k]? = some o' ∧ o'.pc ≠ .finished ∧
      as.countP (Act.advances k) + o'.rank ≤ o.rank ∧
      o'.promised G.cfg.options.toNat = o.promised G.cfg.options.toNat ∧
      ∀ j ∈ o'.pending G.cfg.options.toNat, j.Exact
  | [], s, t, o, hr, hk, hfin, hex, _, _, he => by
    rw [exec, Option.some.injEq] at he
    subst he
    exact ⟨hr, o, hk, hfin, by simp, rfl, hex⟩
  | a :: as, s, t, o, hr, hk, hfin, hex, hst, ⟨hok, hall⟩, he => by
    rw [exec] at he
    obtain ⟨u, hu, he⟩ := Option.bind_eq_some_iff.mp he
    have hru := hr.step_ok hok hu
    have hst' : ∀ b ∈ as, ¬ b.Starts k := fun b hb => hst b (List.mem_cons_of_mem a hb)
    cases hadv : a.advances k with
    | false =>
      have hk' := step_others hu hk hadv (hst a (List.mem_cons_self ..))
      obtain ⟨hrt, o', ho', hfin', hle, hprom, hex'⟩ := uses_up hru hk' hfin hex hst' (hall u hu) he
      exact ⟨hrt, o', ho', hfin', by rw [List.countP_cons_of_neg (by simp [hadv])]; exact hle, hprom, hex'⟩
    | true =>
      obtain rfl : a = .advance k := by
        cases a <;> simp_all [Act.advances]
      obtain ⟨o₁, o₂, m, hk₁, e, rfl⟩ := step_advance hu
      rw [hk, Option.some.injEq] at hk₁
      subst hk₁
      obtain ⟨hprom₂, hlt, hpend, hfin₂⟩ := Owner.step_promised hr.hdrOptions_eq e
      obtain ⟨hrt, o', ho', hfin', hle, hprom, hex'⟩ := uses_up hru (getElem?_set_self_some hk) hfin₂
        (fun j hj => hex j (hpend j hj)) hst' (hall _ hu) he
      refine ⟨hrt, o', ho', hfin', ?_, hprom.trans hprom₂, hex'⟩
      rw [List.countP_cons_of_pos (by simp [hadv])]
      omega

end Steps

/-- WAIT-FREE: in every run in which no owner is overtaken while writing, an owner whose current call has
    exact lengths has at most fifteen accesses ahead of it; from there on, in every interleaving with what
    the other threads do, none of its accesses can fail, and after those accesses the call has stored all
    that it promised. -/
theorem ring_wait_free {G : Geometry} {os : Os} {date : List UInt8} {h : Handle} {m₀ : Mem} {s t : State}
    {k : ℕ} {o : Owner} {as : List Act} (hc : create os G.ps date G.config = some (h, m₀))
    (hrun : Run (step h) (Timely G.numRows) ⟨m₀, []⟩ s) (hk : s.owners[k]? = some o)
    (hfin : o.pc ≠ .finished) (hex : ∀ j ∈ o.pending G.cfg.options.toNat, j.Exact)
    (hst : ∀ a ∈ as, ¬ a.Starts k) (hok : AllOk (step h) (Timely G.numRows) s as)
    (he : exec (step h) s as = some t) :
    o.rank ≤ 15 ∧ as.countP (Act.advances k) ≤ o.rank ∧
    ∃ o', t.owners[k]? = some o' ∧
      (o'.idle = false → ∃ u, step h t (.advance k) = some u) ∧
      (as.countP (Act.advances k) = o.rank → o'.idle = true) ∧
      (o'.idle = true → o'.done = o.promised G.cfg.options.toNat ∧
        Stored G t.mem (G.slot (k % G.numRows)) (k % 4294967296) o'.done) := by
  obtain ⟨rfl, hm, hn, hz⟩ := G.of_create hc
  obtain ⟨hr, hrank⟩ : Ring G s ∧ ∀ o ∈ s.owners, o.rank ≤ 15 := by
    refine hrun.invariant (I := fun s => Ring G s ∧ ∀ o ∈ s.owners, o.rank ≤ 15)
      ⟨.start hm hn hz, by simp⟩ ?_
    rintro u a v ⟨hr, hle⟩ hok hs
    exact ⟨hr.step_ok hok hs, hr.rank_step hle hs⟩
  obtain ⟨hrt, o', ho', hfin', hle, hprom, hex'⟩ := hr.uses_up hk hfin hex hst hok he
  refine ⟨hrank o (List.mem_of_getElem? hk), by omega, o', ho',
    fun hidle => hrt.can_advance ho' hfin' hidle hex', fun hcount => ?_, fun hidle => ?_⟩
  · -- an owner with no access ahead is idle
    by_contra hidle
    obtain ⟨u, hu⟩ := hrt.can_advance ho' hfin' (by simpa using hidle) hex'
    obtain ⟨o₁, o₂, m, hk₁, e, -⟩ := step_advance hu
    rw [ho', Option.some.injEq] at hk₁
    subst hk₁
    have hlt := (Owner.step_promised hrt.hdrOptions_eq e).2.1
    omega
  · rw [Owner.idle_promised hidle] at hprom
    obtain ⟨hid, hrow⟩ := hrt.owner k o' ho'
    have hstored : Stored G t.mem o'.row o'.rowid o'.done := by
      have hheld := hrt.held k o' ho' (hrt.retained ho' hfin')
      rw [OwnerOk, (Owner.idle_iff.mp hidle).1] at hheld
      exact hheld.1
    rw [hrow, hid] at hstored
    exact ⟨hprom, hstored⟩

/-- Two acquisitions, whose accesses alternate. -/
def wovenActs : List Act :=
  [.acquire (.row none 0) ⟨1, 2, 3, 4, 5, 6⟩, .advance 0, .advance 1, .advance 0, .advance 0, .advance 1,
    .advance 0, .advance 0]

/-- On a ring of two the first of them is complete after its own five accesses, and has its row. -/
theorem ring_wait_free_woven : ∃ t : State, t.owners.length = 2 ∧
    Stored twoRows t.mem (twoRows.slot 0) 0 [] := by
  obtain ⟨m₀, hc, hm, hn, hz⟩ := twoRows.created []
  have hexec : ((create ⟨true, true⟩ twoRows.ps [] twoRows.config).bind fun x =>
      (step x.1 ⟨x.2, []⟩ (.acquire (.row none 0) ⟨1, 2, 3, 4, 5, 6⟩)).bind fun s =>
        exec (step x.1) s wovenActs).any
      (fun t => decide (t.owners.length = 2) && t.owners[0]?.any fun o => o.idle) = true := by
    decide +kernel
  obtain ⟨m, hacquire, -⟩ := (Ring.start hm hn hz).acquire (.row none 0) ⟨1, 2, 3, 4, 5, 6⟩
  obtain ⟨t, ht, hend⟩ := (Option.any_eq_true ..).mp hexec
  rw [hc, Option.bind_some, hacquire, Option.bind_some] at ht
  rw [Bool.and_eq_true, decide_eq_true_eq] at hend
  obtain ⟨hlen, hidle⟩ := hend
  obtain ⟨o, ho, hidle⟩ := (Option.any_eq_true ..).mp hidle
  obtain ⟨-, -, o', ho', -, -, hdone⟩ := ring_wait_free (k := 0) hc
    (Run.single (by simp [Timely]) hacquire) rfl (by simp)
    (by simp [Owner.pending, Start.jobs, locationPushes]) (by simp [wovenActs, Act.Starts])
    (by simp [wovenActs, AllOk, Timely, show twoRows.numRows = 2 from rfl]) ht
  rw [ho, Option.some.injEq] at ho'
  subst ho'
  obtain ⟨hpromised, hstored⟩ := hdone hidle
  rw [hpromised] at hstored
  exact ⟨t, hlen, hstored⟩

end Log2mem
