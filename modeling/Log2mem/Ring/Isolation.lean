import Log2mem.Ring.Progress

/-! Ring isolation: as long as no owner is overtaken by a full ring while it writes, the slots hold
    exactly the last `num_rows` rows, each with its own id and the records its own owner asked for.

        actions   acquire   append 0   acquire   append 1   append 0   acquire   append 2   …
        asked 0   location  ╰ pushes                        ╰ pushes
        slots     │ n-3 % N │ n-2 % N │ n-1 % N │ …        one retained row each, the others blank -/

namespace Log2mem
open Schemes

variable {G : Geometry} {s : State}

/-- Two owners that are both still writing own different slots. -/
theorem Ring.unfinished_rows (hr : Ring G s) {k k' : ℕ} {o o' : Owner} (hk : s.owners[k]? = some o)
    (hk' : s.owners[k']? = some o') (hne : k ≠ k') (hpc : o.pc ≠ .finished)
    (hpc' : o'.pc ≠ .finished) : o.row ≠ o'.row := fun he => by
  rw [(hr.owner k o hk).2, (hr.owner k' o' hk').2] at he
  exact hne (Retained.slot_inj ⟨lt_of_getElem?_some hk, hr.retained hk hpc⟩
    ⟨lt_of_getElem?_some hk', hr.retained hk' hpc'⟩ (G.slot_inj he))

/-- A finished retained row is in its slot, under its id, with exactly its owner's records. -/
theorem Ring.stored (hr : Ring G s) {k : ℕ} {o : Owner} (hk : s.owners[k]? = some o)
    (hret : s.owners.length ≤ k + G.numRows) (hpc : o.pc = .finished) :
    Stored G s.mem (G.slot (k % G.numRows)) (k % 4294967296) o.done := by
  obtain ⟨hid, hrow⟩ := hr.owner k o hk
  have hok := hr.held k o hk hret
  simp only [OwnerOk, hpc] at hok
  rwa [hid, hrow] at hok

/-- A slot belongs to a retained row, or nothing was ever written to it. -/
theorem Ring.slot_cases (hr : Ring G s) {j : ℕ} (hj : j < G.numRows) :
    (∃ k ∈ window G.numRows s.owners.length, k % G.numRows = j) ∨
      (s.owners.length ≤ j ∧ s.mem.word (G.slot j + 16) = 0 ∧ s.mem.word (G.slot j + 20) = 0) := by
  by_cases h : s.owners.length ≤ j
  · exact Or.inr ⟨h, hr.blank j h hj⟩
  · exact Or.inl (exists_window_slot hj (by omega))

/-! ### What an owner asks for -/

/-- The pushes that an action asks of the owner of acquisition `k`, after `n` acquisitions. -/
def Act.asks (options k n : ℕ) : Act → List Job
  | .acquire start _ => if n = k then start.jobs options else []
  | .append j a => if j = k then a.pushes.map .push else []
  | .advance _ | .finish _ => []

/-- The acquisitions in an action. -/
def Act.acquired : Act → ℕ
  | .acquire _ _ => 1
  | .advance _ | .append _ _ | .finish _ => 0

/-- All that the owner of acquisition `k` asks for in the actions after the first `n` acquisitions: the
    pushes its row is acquired with, and those of its append calls. -/
def asked (options k : ℕ) : ℕ → List Act → List Job
  | _, [] => []
  | n, a :: as => a.asks options k n ++ asked options k (n + a.acquired) as

/-- Every group that acquisition `k` has offered once its current call is complete. -/
def State.promised (options : ℕ) (s : State) (k : ℕ) : List (List Rec) :=
  s.owners[k]?.elim [] (Owner.promised options)

section Asked
variable {h : Handle} {s' : State} {options : ℕ} {a : Act}

theorem State.promised_of_some {k : ℕ} {o : Owner} (hk : s.owners[k]? = some o) :
    s.promised options k = o.promised options := by
  rw [State.promised, hk, Option.elim_some]

theorem step_acquired (hs : step h s a = some s') :
    s'.owners.length = s.owners.length + a.acquired := by
  cases a with
  | acquire start env =>
    obtain ⟨m, rowid, r, -, -, rfl⟩ := step_acquire hs
    rw [List.length_append, List.length_singleton, Act.acquired]
  | advance j =>
    obtain ⟨o, o', m, -, -, rfl⟩ := step_advance hs
    rw [List.length_set, Act.acquired, Nat.add_zero]
  | append j b =>
    obtain ⟨o, -, -, -, rfl⟩ := step_append hs
    rw [List.length_set, Act.acquired, Nat.add_zero]
  | finish j =>
    obtain ⟨o, -, -, -, rfl⟩ := step_finish hs
    rw [List.length_set, Act.acquired, Nat.add_zero]

theorem State.promised_set {m : Mem} {j : ℕ} {o o' : Owner} {js : List Job} (hj : s.owners[j]? = some o)
    (ho : o'.promised options = o.promised options ++ js.map Job.recs) (k : ℕ) :
    State.promised options ⟨m, s.owners.set j o'⟩ k =
      s.promised options k ++ (if j = k then js else []).map Job.recs := by
  by_cases he : j = k
  · subst he
    rw [State.promised_of_some (getElem?_set_self_some hj), State.promised_of_some hj, ho, if_pos rfl]
  · rw [State.promised, List.getElem?_set_ne he, if_neg he, List.map_nil, List.append_nil, State.promised]

/-- STEP: what an action asks of an owner is what the owner promises in addition. -/
theorem State.step_promised (hopt : hdrOptions s.mem = some options) (hs : step h s a = some s') (k : ℕ) :
    s'.promised options k =
      s.promised options k ++ (a.asks options k s.owners.length).map Job.recs := by
  cases a with
  | acquire start env =>
    obtain ⟨m, rowid, r, -, -, rfl⟩ := step_acquire hs
    rcases Nat.lt_trichotomy k s.owners.length with hlt | rfl | hgt
    · rw [State.promised, List.getElem?_append_left hlt, Act.asks, if_neg (by omega), List.map_nil,
        List.append_nil, State.promised]
    · rw [State.promised_of_some List.getElem?_concat_length, Act.asks, if_pos rfl, State.promised,
        List.getElem?_eq_none (le_refl _), Option.elim_none]
      rfl
    · rw [State.promised, List.getElem?_eq_none (by rw [List.length_append, List.length_singleton]; omega),
        Act.asks, if_neg (by omega), State.promised, List.getElem?_eq_none (by omega)]
      rfl
  | advance j =>
    obtain ⟨o, o', m, hj, e, rfl⟩ := step_advance hs
    have hsame : o'.promised options = o.promised options ++ [].map Job.recs := by
      rw [(Owner.step_promised hopt e).1, List.map_nil, List.append_nil]
    have hkeep := State.promised_set (m := m) hj hsame k
    rwa [ite_self] at hkeep
  | append j b =>
    obtain ⟨o, hj, hpc, htd, rfl⟩ := step_append hs
    refine State.promised_set hj ?_ k
    simp only [Owner.promised, Owner.pending, hpc, htd, List.map_nil, List.append_nil]
  | finish j =>
    obtain ⟨o, hj, hpc, htd, rfl⟩ := step_finish hs
    have hsame : Owner.promised options { o with pc := .finished } =
        o.promised options ++ [].map Job.recs := by
      simp only [Owner.promised, Owner.pending, hpc, List.map_nil, List.append_nil]
    have hkeep := State.promised_set (m := s.mem) hj hsame k
    rwa [ite_self] at hkeep

/-- RUN: so does every owner, of all that it asks for. -/
theorem Ring.asked_run : ∀ {as : List Act} {s t : State}, Ring G s →
    AllOk (step G.handle) (Timely G.numRows) s as → exec (step G.handle) s as = some t →
    t.owners.length = s.owners.length + (as.map Act.acquired).sum ∧
    ∀ k, t.promised G.cfg.options.toNat k = s.promised G.cfg.options.toNat k ++
      (asked G.cfg.options.toNat k s.owners.length as).map Job.recs
  | [], s, t, _, _, he => by
    rw [exec, Option.some.injEq] at he
    rw [he]
    exact ⟨rfl, fun k => by rw [asked, List.map_nil, List.append_nil]⟩
  | a :: as, s, t, hr, ⟨hok, hall⟩, he => by
    rw [exec] at he
    obtain ⟨u, hu, he⟩ := Option.bind_eq_some_iff.mp he
    obtain ⟨hlen, hprom⟩ := Ring.asked_run (hr.step_ok hok hu) (hall u hu) he
    have hlen' := step_acquired hu
    refine ⟨by rw [hlen, hlen', List.map_cons, List.sum_cons, Nat.add_assoc], fun k => ?_⟩
    rw [hprom k, State.step_promised hr.hdrOptions_eq hu k, hlen', asked, List.map_append,
      List.append_assoc]

/-- An owner finishes between two calls, with nothing left to do. -/
theorem Ring.finished_run (hr : Ring G s) (hrun : Run (step G.handle) (Timely G.numRows) s s')
    (h : ∀ o ∈ s.owners, o.pc = .finished → o.todo = []) :
    ∀ o ∈ s'.owners, o.pc = .finished → o.todo = [] := by
  refine (hrun.invariant (I := fun s => Ring G s ∧ ∀ o ∈ s.owners, o.pc = .finished → o.todo = [])
    ⟨hr, h⟩ ?_).2
  rintro t a u ⟨hr, h⟩ hok hs
  refine ⟨hr.step_ok hok hs, fun o ho hpc => ?_⟩
  cases a with
  | acquire start env =>
    obtain ⟨m, rowid, r, -, -, rfl⟩ := step_acquire hs
    rcases List.mem_append.mp ho with ho | ho
    · exact h o ho hpc
    · rw [List.mem_singleton.mp ho]
  | advance j =>
    obtain ⟨o₁, o₂, m, -, e, rfl⟩ := step_advance hs
    rcases List.mem_or_eq_of_mem_set ho with ho | rfl
    · exact h o ho hpc
    · exact absurd hpc (Owner.step_promised hr.hdrOptions_eq e).2.2.2
  | append j b =>
    obtain ⟨o₁, -, hready, -, rfl⟩ := step_append hs
    rcases List.mem_or_eq_of_mem_set ho with ho | rfl
    · exact h o ho hpc
    · exact absurd (hready.symm.trans hpc) Pc.noConfusion
  | finish j =>
    obtain ⟨o₁, -, -, htd, rfl⟩ := step_finish hs
    rcases List.mem_or_eq_of_mem_set ho with ho | rfl
    · exact h o ho hpc
    · exact htd

end Asked

/-- ISOLATION: in every run in which the owner of acquisition `k` has finished before acquisition
    `k + num_rows` is made, acquisition `k` uses slot `k % num_rows` and the row id `k % 2 ^ 32`, no two
    unfinished rows share a slot, and once all owners have finished the slots hold exactly the last
    `min n num_rows` rows, in different slots, each under its own id with exactly the records its own
    owner asked for and there was room for, while the remaining slots are blank. -/
theorem ring_isolation {os : Os} {date : List UInt8} {h : Handle} {m₀ : Mem} {as : List Act}
    (hc : create os G.ps date G.config = some (h, m₀))
    (hok : AllOk (step h) (Timely G.numRows) ⟨m₀, []⟩ as) (he : exec (step h) ⟨m₀, []⟩ as = some s) :
    s.owners.length = (as.map Act.acquired).sum ∧
    (∀ (k : ℕ) (o : Owner), s.owners[k]? = some o →
      o.row = G.slot (k % G.numRows) ∧ o.rowid = k % 4294967296) ∧
    (∀ (k k' : ℕ) (o o' : Owner), s.owners[k]? = some o → s.owners[k']? = some o' → k ≠ k' →
      o.pc ≠ .finished → o'.pc ≠ .finished → o.row ≠ o'.row) ∧
    (Quiet s →
      ((window G.numRows s.owners.length).map (· % G.numRows)).Nodup ∧
      (window G.numRows s.owners.length).length = min s.owners.length G.numRows ∧
      (∀ k ∈ window G.numRows s.owners.length,
        s.mem.word (G.slot (k % G.numRows) + 16) = k % 4294967296 ∧
        RowHolds G.rowLen s.mem (G.slot (k % G.numRows))
          (recFormat.fit G.rowLen ((asked G.cfg.options.toNat k 0 as).map Job.recs))) ∧
      ∀ j < G.numRows, (∀ k ∈ window G.numRows s.owners.length, k % G.numRows ≠ j) →
        s.mem.word (G.slot j + 20) = 0) := by
  have hrun := Run.of_exec he hok
  obtain ⟨rfl, hm, hn, hz⟩ := G.of_create hc
  have hstart : Ring G ⟨m₀, []⟩ := .start hm hn hz
  obtain ⟨-, hr⟩ := Ring.run hc hrun
  obtain ⟨hlen, hprom⟩ := hstart.asked_run hok he
  have hfin := hstart.finished_run hrun (by simp)
  refine ⟨by rw [hlen]; exact Nat.zero_add _, fun k o hk => (hr.owner k o hk).symm,
    fun k k' o o' hk hk' => hr.unfinished_rows hk hk',
    fun hq => ⟨window_slots_nodup .., window_length .., fun k hk => ?_, fun j hj hne => ?_⟩⟩
  · obtain ⟨hlt, hret⟩ := mem_window.mp hk
    have hget := List.getElem?_eq_getElem hlt
    have hmem := List.getElem_mem hlt
    have hst := hr.stored hget hret (hq _ hmem)
    -- a finished owner has offered what it promised, which is what it asked for
    have hdone : s.owners[k].done = (asked G.cfg.options.toNat k 0 as).map Job.recs := by
      have hk' := hprom k
      rw [State.promised_of_some hget, Owner.promised, Owner.pending, hq _ hmem, hfin _ hmem (hq _ hmem),
        List.map_nil, List.append_nil] at hk'
      exact hk'
    rw [hdone] at hst
    exact ⟨hst.id, hst.holds⟩
  · rcases hr.slot_cases hj with ⟨k, hk, he⟩ | ⟨-, -, hd⟩
    · exact absurd he (hne k hk)
    · exact hd

/-- A ring of two rows of 16 bytes. -/
def twoRows : Geometry :=
  .of page4096 ⟨0, 1, 2, 16, 1⟩ (by decide)

/-- Three rows on it: the first two are written to in turns, and the first is finished when the third takes
    over its slot. -/
def threeActs : List Act :=
  [.acquire (.row none 0) ⟨1, 2, 3, 4, 5, 6⟩, .acquire (.row none 0) ⟨1, 2, 3, 4, 5, 6⟩] ++
    (List.replicate 5 [.advance 0, .advance 1]).flatten ++
    [.append 0 (.char 120), .append 1 (.char 121)] ++
    (List.replicate 5 [.advance 0, .advance 1]).flatten ++
    [.finish 0, .acquire (.row none 0) ⟨1, 2, 3, 4, 5, 6⟩] ++
    List.replicate 5 (.advance 2) ++
    [.append 1 (.int 7), .append 2 (.str (some ⟨[122, 122], by decide⟩)), .advance 1] ++
    List.replicate 5 (.advance 2) ++ [.finish 1, .finish 2]

theorem ring_isolation_three : ∃ (m₀ : Mem) (s : State),
    create ⟨true, true⟩ twoRows.ps [] twoRows.config = some (twoRows.handle, m₀) ∧
    exec (step twoRows.handle) ⟨m₀, []⟩ threeActs = some s ∧
    s.mem.word (twoRows.slot 0 + 16) = 2 ∧ RowHolds 16 s.mem (twoRows.slot 0) [⟨.string, [122, 122, 0]⟩] ∧
    s.mem.word (twoRows.slot 1 + 16) = 1 ∧ RowHolds 16 s.mem (twoRows.slot 1) [⟨.char, [121]⟩] := by
  have hexec : ((create ⟨true, true⟩ twoRows.ps [] twoRows.config).any fun x =>
      decide (AllOk (step x.1) (Timely twoRows.numRows) ⟨x.2, []⟩ threeActs) &&
        (exec (step x.1) ⟨x.2, []⟩ threeActs).any fun s =>
          decide (∀ o ∈ s.owners, o.pc = .finished)) = true := by
    decide +kernel
  obtain ⟨⟨h, m₀⟩, hc, hend⟩ := (Option.any_eq_true ..).mp hexec
  obtain ⟨rfl, -⟩ := twoRows.of_create hc
  rw [Bool.and_eq_true, decide_eq_true_eq] at hend
  obtain ⟨hok, hend⟩ := hend
  obtain ⟨s, hs, hq⟩ := (Option.any_eq_true ..).mp hend
  obtain ⟨hlen, -, -, hquiet⟩ := ring_isolation hc hok hs
  obtain ⟨-, -, hrows, -⟩ := hquiet (show ∀ o ∈ s.owners, o.pc = .finished from of_decide_eq_true hq)
  rw [hlen, show twoRows.numRows = 2 by decide, show twoRows.rowLen = 16 by decide] at hrows
  obtain ⟨h1, hrow1⟩ := hrows 1 (by decide)
  obtain ⟨h2, hrow2⟩ := hrows 2 (by decide)
  rw [show recFormat.fit 16 ((asked twoRows.cfg.options.toNat 1 0 threeActs).map Job.recs) =
    [⟨.char, [121]⟩] by decide +kernel] at hrow1
  rw [show recFormat.fit 16 ((asked twoRows.cfg.options.toNat 2 0 threeActs).map Job.recs) =
    [⟨.string, [122, 122, 0]⟩] by decide +kernel] at hrow2
  exact ⟨m₀, s, hc, hs, h2, hrow2, h1, hrow1⟩

end Log2mem
