import Mathlib.Algebra.BigOperators.Group.List.Basic
import Log2mem.Schemes.Fair
import Log2mem.Init.Once

/-! What must happen during initialisation (`log2mem_init`, `log2mem_atomic_spinlock`).

    A call that finds the lock taken spins, so its own steps bring it no further. It is let in because the
    call under the lock goes on to release it, and because once `g_log2mem` is assigned no call comes to
    the lock any more: those that wait there are used up.

        prepare ──▶ test ──▶ lock ──▶ retest ──▶ create ──▶ creating ──▶ assign ──▶ unlock ──▶ ready
           └──────────┴──────────────────┴───── g_log2mem set ──────────────────────────┴────────▲ -/

namespace Log2mem
open Schemes

/-- Call `k` stands at a point that `P` describes. -/
def InitState.At (s : InitState) (k : ℕ) (P : InitPc → Prop) : Prop :=
  ∃ c, s.calls[k]? = some c ∧ P c.pc

/-- An access of call `k`. -/
def InitAct.IsOf (k : ℕ) : InitAct → Prop
  | .advance j _ _ => j = k
  | _ => False

/-- A call that has not returned is let go on again and again. As a creation that fails takes no step, this
    includes that none does. -/
def InitFair {ps : PageSize} (b : Behaviour (initStep ps)) : Prop :=
  ∀ k, b.Fair (fun s => s.At k fun pc => pc.returned = false) (InitAct.IsOf k)

/-- The lock is only taken while some call is under it. -/
def Taken (s : InitState) : Prop := s.shared.lock = true → ∃ j, s.At j fun pc => pc.inside = true

/-- What is known at every instant. -/
structure Orderly (ps : PageSize) (s : InitState) : Prop where
  once : Once ps s
  taken : Taken s

/-- How far a call under the lock is from leaving it. -/
def InitPc.depth : InitPc → ℕ
  | .retest => 5
  | .create => 4
  | .creating => 3
  | .assign _ => 2
  | .unlock => 1
  | _ => 0

/-- What a call at the lock, or under it, has still to do once `g_log2mem` is set. -/
def InitPc.queued : InitPc → ℕ
  | .lock => 3
  | .retest => 2
  | .unlock => 1
  | _ => 0

/-- All the calls that are still at the lock. -/
def InitState.contention (s : InitState) : ℕ := (s.calls.map fun c => c.pc.queued).sum

theorem sum_map_set {α : Type*} (f : α → ℕ) : ∀ {l : List α} {k : ℕ} {a b : α}, l[k]? = some b →
    ((l.set k a).map f).sum + f b = (l.map f).sum + f a
  | [], _, _, _, h => by simp at h
  | x :: l, 0, a, b, h => by
    rw [List.getElem?_cons_zero, Option.some.injEq] at h
    subst h
    simp only [List.set_cons_zero, List.map_cons, List.sum_cons]
    omega
  | x :: l, k + 1, a, b, h => by
    rw [List.getElem?_cons_succ] at h
    have ih := sum_map_set f (a := a) h
    simp only [List.set_cons_succ, List.map_cons, List.sum_cons]
    omega

section Steps
variable {ps : PageSize} {s s' : InitState} {k j : ℕ} {c : InitCall} {a : InitAct}

/-- OTHERS: a call stays where it is while others go on. -/
theorem initStep_other (hs : initStep ps s a = some s') (hk : s.calls[k]? = some c) (ha : ¬ a.IsOf k) :
    s'.calls[k]? = some c := by
  cases a with
  | init userconfig configsize =>
    rw [initStep, Option.some.injEq] at hs
    rw [← hs, List.getElem?_append_left (lt_of_getElem?_some hk)]
    exact hk
  | api =>
    rw [initStep, Option.some.injEq] at hs
    rw [← hs, List.getElem?_append_left (lt_of_getElem?_some hk)]
    exact hk
  | advance j os date =>
    obtain ⟨d, shared, pc, -, -, rfl⟩ := initStep_advance hs
    rw [List.getElem?_set_ne (by exact ha)]
    exact hk

theorem InitState.At.other {P : InitPc → Prop} (hs : initStep ps s a = some s') (hp : s.At k P)
    (ha : ¬ a.IsOf k) : s'.At k P := by
  obtain ⟨c, hk, hc⟩ := hp
  exact ⟨c, initStep_other hs hk ha, hc⟩

/-- MINE: an access of a call moves that call. -/
theorem initStep_mine (hs : initStep ps s a = some s') (hk : s.calls[k]? = some c) (ha : a.IsOf k) :
    ∃ os date shared pc, c.step ps os date k s.shared = some (shared, pc) ∧
      s' = ⟨shared, s.calls.set k { c with pc }⟩ := by
  cases a with
  | advance j os date =>
    have hj : j = k := ha
    subst hj
    obtain ⟨d, shared, pc, hd, hstep, rfl⟩ := initStep_advance hs
    rw [hk, Option.some.injEq] at hd
    subst hd
    exact ⟨os, date, shared, pc, hstep, rfl⟩
  | _ => exact absurd ha (by simp [InitAct.IsOf])

section Points
variable {os : Os} {date : List UInt8} {x shared : InitShared} {pc : InitPc}

/-- Away from the lock a call changes nothing, and comes no further than the lock. -/
theorem step_outside (h : c.step ps os date k x = some (shared, pc)) (hin : c.pc.inside = false)
    (hlock : c.pc ≠ .lock) : shared = x ∧ pc.inside = false ∧
      (pc = .lock → x.g = none) ∧ (c.pc = .prepare → pc = .test ∨ pc.returned = true) ∧
      (c.pc = .test → pc = .lock ∨ pc.returned = true) := by
  unfold InitCall.step at h
  cases hc : c.pc with
  | prepare =>
    simp only [hc, Option.some.injEq, Prod.mk.injEq] at h
    obtain ⟨rfl, rfl⟩ := h
    by_cases hg : x.g = none <;> simp [hg, InitPc.inside, InitPc.returned]
  | test =>
    simp only [hc, Option.some.injEq, Prod.mk.injEq] at h
    obtain ⟨rfl, rfl⟩ := h
    by_cases hg : x.g = none <;> simp [hg, InitPc.inside, InitPc.returned]
  | ready =>
    simp only [hc, Option.some.injEq, Prod.mk.injEq] at h
    obtain ⟨rfl, rfl⟩ := h
    simp [InitPc.inside]
  | used g => simp [hc] at h
  | lock => exact absurd hc hlock
  | _ => simp [hc, InitPc.inside] at hin

/-- At the lock a call spins while it is taken, and takes it when it is free. -/
theorem step_lock (h : c.step ps os date k x = some (shared, pc)) (hc : c.pc = .lock) :
    shared = { x with lock := true } ∧
      (x.lock = true ∧ pc = .lock ∨ x.lock = false ∧ pc = .retest) := by
  simp only [InitCall.step, hc, Option.some.injEq, Prod.mk.injEq] at h
  obtain ⟨rfl, rfl⟩ := h
  cases x.lock <;> simp

/-- Under the lock every access brings a call closer to the release. -/
theorem step_inside (h : c.step ps os date k x = some (shared, pc)) (hin : c.pc.inside = true) :
    (pc.inside = true ∧ pc.depth < c.pc.depth ∧ shared.lock = x.lock ∧
      (c.pc = .retest → shared = x ∧ (x.g ≠ none → pc = .unlock))) ∨
    (c.pc = .unlock ∧ pc = .ready ∧ shared = { x with lock := false }) := by
  unfold InitCall.step at h
  cases hc : c.pc with
  | retest =>
    simp only [hc, Option.some.injEq, Prod.mk.injEq] at h
    obtain ⟨rfl, rfl⟩ := h
    by_cases hg : x.g = none <;> simp [hg, InitPc.inside, InitPc.depth]
  | create =>
    simp only [hc, Option.some.injEq, Prod.mk.injEq] at h
    obtain ⟨rfl, rfl⟩ := h
    simp [InitPc.inside, InitPc.depth]
  | creating =>
    simp only [hc, Option.bind_eq_bind] at h
    obtain ⟨⟨handle, m⟩, -, h⟩ := Option.bind_eq_some_iff.mp h
    obtain ⟨rfl, rfl⟩ := Prod.mk.inj (Option.some.inj h)
    simp [InitPc.inside, InitPc.depth]
  | assign i =>
    simp only [hc, Option.some.injEq, Prod.mk.injEq] at h
    obtain ⟨rfl, rfl⟩ := h
    simp [InitPc.inside, InitPc.depth]
  | unlock =>
    simp only [hc, Option.some.injEq, Prod.mk.injEq] at h
    obtain ⟨rfl, rfl⟩ := h
    exact Or.inr ⟨rfl, rfl, rfl⟩
  | _ => simp [hc, InitPc.inside] at hin

end Points

/-- STEP: the lock stays taken by some call, or is released. -/
theorem Taken.step (h : Taken s) (hs : initStep ps s a = some s') : Taken s' := by
  intro hlock
  cases a with
  | init userconfig configsize =>
    obtain ⟨j, hj⟩ := h (by rw [initStep, Option.some.injEq] at hs; rw [← hs] at hlock; exact hlock)
    exact ⟨j, hj.other hs (by simp [InitAct.IsOf])⟩
  | api =>
    obtain ⟨j, hj⟩ := h (by rw [initStep, Option.some.injEq] at hs; rw [← hs] at hlock; exact hlock)
    exact ⟨j, hj.other hs (by simp [InitAct.IsOf])⟩
  | advance k os date =>
    obtain ⟨c, shared, pc, hk, hstep, rfl⟩ := initStep_advance hs
    have hself : (s.calls.set k { c with pc })[k]? = some { c with pc } := getElem?_set_self_some hk
    by_cases hin : c.pc.inside = true
    · rcases step_inside hstep hin with ⟨hin', -⟩ | ⟨-, -, rfl⟩
      · exact ⟨k, _, hself, hin'⟩
      · exact absurd hlock (by simp)
    · rw [Bool.not_eq_true] at hin
      -- whoever is under the lock is not the call that moves
      have hother : ∀ {j : ℕ} {d : InitCall}, s.calls[j]? = some d → d.pc.inside = true →
          (s.calls.set k { c with pc })[j]? = some d := fun {j d} hj hd => by
        rw [List.getElem?_set_ne, hj]
        rintro rfl
        rw [hk, Option.some.injEq] at hj
        rw [← hj, hin] at hd
        exact absurd hd (by simp)
      by_cases hl : c.pc = .lock
      · obtain ⟨rfl, ⟨htaken, rfl⟩ | ⟨-, rfl⟩⟩ := step_lock hstep hl
        · obtain ⟨j, d, hj, hd⟩ := h htaken
          exact ⟨j, d, hother hj hd, hd⟩
        · exact ⟨k, _, hself, rfl⟩
      · obtain ⟨rfl, -⟩ := step_outside hstep hin hl
        obtain ⟨j, d, hj, hd⟩ := h hlock
        exact ⟨j, d, hother hj hd, hd⟩

theorem not_returned_of_inside {pc : InitPc} (h : pc.inside = true) : pc.returned = false := by
  cases pc <;> simp_all [InitPc.inside, InitPc.returned]

theorem InitPc.queued_of_outside {p : InitPc} (hin : p.inside = false) (hlock : p ≠ .lock) :
    p.queued = 0 := by
  cases p with
  | lock => exact absurd rfl hlock
  | retest => simp [InitPc.inside] at hin
  | unlock => simp [InitPc.inside] at hin
  | _ => rfl

/-- With `g_log2mem` set, a call under the lock has nothing to create. -/
theorem Once.inside_cases (h : Once ps s) (hg : s.shared.g ≠ none) (hk : s.calls[k]? = some c)
    (hin : c.pc.inside = true) : c.pc = .retest ∨ c.pc = .unlock := by
  have hok := h.pcs k c hk
  cases hc : c.pc with
  | retest => exact Or.inl rfl
  | unlock => exact Or.inr rfl
  | create => rw [hc] at hok; exact absurd hok.1 hg
  | creating => rw [hc] at hok; exact absurd hok.1 hg
  | assign i => rw [hc] at hok; exact absurd hok.1 hg
  | _ => simp [hc, InitPc.inside] at hin

/-- STEP: with `g_log2mem` set no call comes to the lock any more; a step that uses up none of those that are
    there leaves the lock as it is, and is none of a call under it. -/
theorem Once.contention_step (h : Once ps s) (hg : s.shared.g ≠ none) (hs : initStep ps s a = some s') :
    s'.shared.g ≠ none ∧ (s'.contention < s.contention ∨ (s'.contention = s.contention ∧
      s'.shared.lock = s.shared.lock ∧ ∀ j, a.IsOf j → ¬ s.At j fun pc => pc.inside = true)) := by
  refine ⟨?_, ?_⟩
  · rcases h.g_step hs with he | ⟨hn, -⟩
    · rw [he]
      exact hg
    · exact absurd hn hg
  cases a with
  | init userconfig configsize =>
    rw [initStep, Option.some.injEq] at hs
    subst hs
    exact Or.inr ⟨by simp [InitState.contention, InitPc.queued], rfl, by simp [InitAct.IsOf]⟩
  | api =>
    rw [initStep, Option.some.injEq] at hs
    subst hs
    exact Or.inr ⟨by simp [InitState.contention, InitPc.queued], rfl, by simp [InitAct.IsOf]⟩
  | advance k os date =>
    obtain ⟨c, shared, pc, hk, hstep, rfl⟩ := initStep_advance hs
    have hsum : InitState.contention ⟨shared, s.calls.set k { c with pc }⟩ + c.pc.queued =
        s.contention + pc.queued := sum_map_set _ hk
    have hof : ∀ j, (InitAct.advance k os date).IsOf j → c.pc.inside = false →
        ¬ s.At j fun pc => pc.inside = true := by
      rintro j rfl hout ⟨d, hd, hin⟩
      rw [hk, Option.some.injEq] at hd
      rw [← hd, hout] at hin
      exact absurd hin (by simp)
    by_cases hin : c.pc.inside = true
    · refine Or.inl ?_
      rcases h.inside_cases hg hk hin with hc | hc
      · rcases step_inside hstep hin with ⟨-, -, -, hret⟩ | ⟨hu, -⟩
        · obtain rfl := (hret hc).2 hg
          rw [hc] at hsum
          simp only [InitPc.queued] at hsum
          omega
        · rw [hc] at hu
          exact absurd hu (by simp)
      · rcases step_inside hstep hin with ⟨hin', hlt, -⟩ | ⟨-, rfl, -⟩
        · rw [hc] at hlt
          cases pc <;> simp [InitPc.depth, InitPc.inside] at hlt hin'
        · rw [hc] at hsum
          simp only [InitPc.queued] at hsum
          omega
    · rw [Bool.not_eq_true] at hin
      -- whoever is under the lock is not the call that moves
      have hother : ∀ {j : ℕ} {d : InitCall}, s.calls[j]? = some d → d.pc.inside = true →
          (s.calls.set k { c with pc })[j]? = some d := fun {j d} hj hd => by
        rw [List.getElem?_set_ne, hj]
        rintro rfl
        rw [hk, Option.some.injEq] at hj
        rw [← hj, hin] at hd
        exact absurd hd (by simp)
      by_cases hl : c.pc = .lock
      · obtain ⟨rfl, ⟨htaken, rfl⟩ | ⟨-, rfl⟩⟩ := step_lock hstep hl
        · rw [hl] at hsum
          exact Or.inr ⟨by omega, htaken.symm, fun j hj => hof j hj hin⟩
        · rw [hl] at hsum
          simp only [InitPc.queued] at hsum
          exact Or.inl (by omega)
      · obtain ⟨rfl, hout, hlock, -⟩ := step_outside hstep hin hl
        rw [InitPc.queued_of_outside hin hl, InitPc.queued_of_outside hout fun he => hg (hlock he)] at hsum
        exact Or.inr ⟨by omega, rfl, fun j hj => hof j hj hin⟩

end Steps

/-- A call at the lock, with `g_log2mem` set. -/
def Spins (k : ℕ) (s : InitState) : Prop := (s.At k fun pc => pc = .lock) ∧ s.shared.g ≠ none

/-- Call `k` is let in, or another one was used up. -/
def Nearer (k r : ℕ) (s : InitState) : Prop :=
  (s.At k fun pc => pc.inside = true) ∨ (Spins k s ∧ s.contention < r)

/-- FREE: a call at the lock gets under it when the lock is free. -/
theorem InitState.At.enters {ps : PageSize} {s s' : InitState} {k : ℕ} {a : InitAct}
    (hat : s.At k fun pc => pc = .lock) (hfree : s.shared.lock = false) (hs : initStep ps s a = some s')
    (ha : a.IsOf k) : s'.At k fun pc => pc.inside = true := by
  obtain ⟨c, hc, hpc⟩ := hat
  obtain ⟨os, date, shared, pc, hstep, rfl⟩ := initStep_mine hs hc ha
  obtain ⟨-, ⟨ht, -⟩ | ⟨-, rfl⟩⟩ := step_lock hstep hpc
  · rw [hfree] at ht
    exact absurd ht (by simp)
  · exact ⟨_, getElem?_set_self_some hc, rfl⟩

/-- STEP: a call at the lock comes nearer, or everything there stays as it is. -/
theorem Spins.step {ps : PageSize} {s s' : InitState} {k r : ℕ} {a : InitAct} (h : Orderly ps s)
    (hk : Spins k s) (hr : s.contention = r) (hs : initStep ps s a = some s') : Nearer k r s' ∨
      (Spins k s' ∧ s'.contention = r ∧ s'.shared.lock = s.shared.lock ∧
        ∀ j, a.IsOf j → ¬ s.At j fun pc => pc.inside = true) := by
  obtain ⟨hat, hg⟩ := hk
  obtain ⟨hg', hcont⟩ := h.once.contention_step hg hs
  have hpos : (s'.At k fun pc => pc.inside = true) ∨ Spins k s' := by
    by_cases ha : a.IsOf k
    · obtain ⟨c, hk, hc⟩ := hat
      obtain ⟨os, date, shared, pc, hstep, rfl⟩ := initStep_mine hs hk ha
      obtain ⟨-, ⟨-, rfl⟩ | ⟨-, rfl⟩⟩ := step_lock hstep hc
      · exact Or.inr ⟨⟨_, getElem?_set_self_some hk, rfl⟩, hg'⟩
      · exact Or.inl ⟨_, getElem?_set_self_some hk, rfl⟩
    · exact Or.inr ⟨hat.other hs ha, hg'⟩
  rcases hpos with hin | hsp
  · exact Or.inl (Or.inl hin)
  · rcases hcont with hlt | ⟨heq, hlock, hnot⟩
    · exact Or.inl (Or.inr ⟨hsp, hr ▸ hlt⟩)
    · exact Or.inr ⟨hsp, heq.trans hr, hlock, hnot⟩

/-- Beyond the tests of `g_log2mem` outside the lock. -/
def InitPc.arrived (pc : InitPc) : Prop := pc = .lock ∨ pc.inside = true ∨ pc.returned = true

section Fair
variable {ps : PageSize} {b : Behaviour (initStep ps)} {k : ℕ}

theorem InitState.At.arrived_step {s s' : InitState} {a : InitAct} (h : s.At k InitPc.arrived)
    (hs : initStep ps s a = some s') : s'.At k InitPc.arrived := by
  by_cases ha : a.IsOf k
  · obtain ⟨c, hk, hc⟩ := h
    obtain ⟨os, date, shared, pc, hstep, rfl⟩ := initStep_mine hs hk ha
    refine ⟨_, getElem?_set_self_some hk, ?_⟩
    rcases hc with hc | hc | hc
    · obtain ⟨-, ⟨-, rfl⟩ | ⟨-, rfl⟩⟩ := step_lock hstep hc
      · exact Or.inl rfl
      · exact Or.inr (Or.inl rfl)
    · rcases step_inside hstep hc with ⟨hin, -⟩ | ⟨-, rfl, -⟩
      · exact Or.inr (Or.inl hin)
      · exact Or.inr (Or.inr rfl)
    · cases hpc : c.pc with
      | ready =>
        simp only [InitCall.step, hpc, Option.some.injEq, Prod.mk.injEq] at hstep
        obtain ⟨-, rfl⟩ := hstep
        exact Or.inr (Or.inr rfl)
      | used g => simp [InitCall.step, hpc] at hstep
      | _ => simp [hpc, InitPc.returned] at hc
  · exact h.other hs ha

theorem arrived_later {n m : ℕ} (h : (b.state n).At k InitPc.arrived) (hm : n ≤ m) :
    (b.state m).At k InitPc.arrived := by
  induction m, hm using Nat.le_induction with
  | base => exact h
  | succ m _ ih =>
    rcases b.next m with ⟨-, he⟩ | ⟨a, -, hs⟩
    · rw [he]
      exact ih
    · exact ih.arrived_step hs

theorem Orderly.start : Orderly ps .start :=
  ⟨.start, fun h => absurd h (by simp [InitState.start])⟩

theorem orderly_at (h0 : b.state 0 = .start) (n : ℕ) : Orderly ps (b.state n) :=
  b.invariant (by rw [h0]; exact .start) (fun _ _ _ h hs => ⟨h.once.step_ok hs, h.taken.step hs⟩) n

variable (h0 : b.state 0 = .start) (hfair : InitFair b)
include h0 hfair

/-- RELEASE: a call under the lock leaves it. -/
theorem leaves_lock (k : ℕ) : b.LeadsTo (fun s => s.At k fun pc => pc.inside = true)
    (fun s => s.At k fun pc => pc.returned = true) := by
  refine .of_rank (fun s => (s.calls[k]?.map fun c => c.pc.depth).getD 0) fun r => ?_
  refine .of_fair (orderly_at h0) (hfair k) ?_ ?_ ?_
  · rintro s ⟨⟨c, hk, hin⟩, -⟩
    exact ⟨c, hk, not_returned_of_inside hin⟩
  · rintro s a t - ⟨⟨c, hk, hin⟩, hr⟩ hs ha
    have ht := initStep_other hs hk ha
    exact Or.inl ⟨⟨c, ht, hin⟩, by rw [ht]; rw [hk] at hr; exact hr⟩
  · rintro s a t - ⟨⟨c, hk, hin⟩, hr⟩ hs ha
    obtain ⟨os, date, shared, pc, hstep, rfl⟩ := initStep_mine hs hk ha
    have hself : (s.calls.set k { c with pc })[k]? = some { c with pc } := getElem?_set_self_some hk
    rcases step_inside hstep hin with ⟨hin', hlt, -⟩ | ⟨-, rfl, -⟩
    · refine Or.inr ⟨⟨_, hself, hin'⟩, ?_⟩
      rw [hk] at hr
      show ((s.calls.set k { c with pc })[k]?.map fun c => c.pc.depth).getD 0 < r
      rw [hself, ← hr]
      exact hlt
    · exact Or.inl ⟨_, hself, rfl⟩

/-- LET IN: with `g_log2mem` set, a call at the lock gets under it, as the others there are used up. -/
theorem passes_lock (k : ℕ) : b.LeadsTo (Spins k) (fun s => s.At k fun pc => pc.inside = true) := by
  refine .of_rank InitState.contention fun r n ⟨hk, hr⟩ => ?_
  -- while the lock is taken it is for the call under it to move, else for call `k`
  by_cases hlock : (b.state n).shared.lock = true
  · obtain ⟨j, hj⟩ := (orderly_at h0 n).taken hlock
    have hnext : b.LeadsTo (fun s => (Spins k s ∧ s.contention = r) ∧ s.At j fun pc => pc.inside = true)
        (Nearer k r) := by
      refine .of_fair (orderly_at h0) (hfair j) ?_ ?_ ?_
      · rintro s ⟨-, c, hc, hin⟩
        exact ⟨c, hc, not_returned_of_inside hin⟩
      · rintro s a t h ⟨⟨hk, hr⟩, hj⟩ hs ha
        rcases hk.step h hr hs with hq | ⟨hk', hr', -⟩
        · exact Or.inr hq
        · exact Or.inl ⟨⟨hk', hr'⟩, hj.other hs ha⟩
      · rintro s a t h ⟨⟨hk, hr⟩, hj⟩ hs ha
        rcases hk.step h hr hs with hq | ⟨-, -, -, hnot⟩
        · exact hq
        · exact absurd hj (hnot j ha)
    exact hnext n ⟨⟨hk, hr⟩, hj⟩
  · have hnext : b.LeadsTo (fun s => (Spins k s ∧ s.contention = r) ∧ s.shared.lock = false)
        (Nearer k r) := by
      refine .of_fair (orderly_at h0) (hfair k) ?_ ?_ ?_
      · rintro s ⟨⟨⟨⟨c, hc, hpc⟩, -⟩, -⟩, -⟩
        exact ⟨c, hc, by rw [hpc]; rfl⟩
      · rintro s a t h ⟨⟨hk, hr⟩, hfree⟩ hs -
        rcases hk.step h hr hs with hq | ⟨hk', hr', hl, -⟩
        · exact Or.inr hq
        · exact Or.inl ⟨⟨hk', hr'⟩, hl.trans hfree⟩
      · rintro s a t - ⟨⟨⟨hat, -⟩, -⟩, hfree⟩ hs ha
        exact Or.inl (hat.enters hfree hs ha)
    exact hnext n ⟨⟨hk, hr⟩, by simpa using hlock⟩

/-- SET: a call at the lock gets under it, or `g_log2mem` is set while it is there. -/
theorem waits_at_lock (k : ℕ) : b.LeadsTo (fun s => s.At k fun pc => pc = .lock)
    (fun s => (s.At k fun pc => pc.returned = true) ∨
      ((s.At k fun pc => pc.inside = true) ∨ Spins k s)) := by
  -- a call under the lock leaves it with `g_log2mem` set
  have hheld : b.LeadsTo (fun s => (s.At k fun pc => pc = .lock) ∧ ∃ j, s.At j fun pc => pc.inside = true)
      (fun s => (s.At k fun pc => pc.returned = true) ∨
        ((s.At k fun pc => pc.inside = true) ∨ Spins k s)) := by
    rintro n ⟨⟨c, hc, hpc⟩, j, hj⟩
    obtain ⟨m, hm, d, hd, hret⟩ := leaves_lock h0 hfair j n hj
    have hg : (b.state m).shared.g ≠ none := by
      have hok := (orderly_at h0 m).once.pcs j d hd
      cases hdp : d.pc with
      | ready => rw [hdp] at hok; exact hok
      | used g => rw [hdp] at hok; exact hok.2
      | _ => simp [hdp, InitPc.returned] at hret
    obtain ⟨c', hc', hl | hin | hr⟩ := arrived_later ⟨c, hc, Or.inl hpc⟩ hm
    · exact ⟨m, hm, Or.inr (Or.inr ⟨⟨c', hc', hl⟩, hg⟩)⟩
    · exact ⟨m, hm, Or.inr (Or.inl ⟨c', hc', hin⟩)⟩
    · exact ⟨m, hm, Or.inl ⟨c', hc', hr⟩⟩
  intro n hat
  by_cases hlock : (b.state n).shared.lock = true
  · exact hheld n ⟨hat, (orderly_at h0 n).taken hlock⟩
  · have hfree : b.LeadsTo (fun s => (s.At k fun pc => pc = .lock) ∧ s.shared.lock = false)
        (fun s => (s.At k fun pc => pc.inside = true) ∨
          ((s.At k fun pc => pc = .lock) ∧ ∃ j, s.At j fun pc => pc.inside = true)) := by
      refine .of_fair (orderly_at h0) (hfair k) ?_ ?_ ?_
      · rintro s ⟨⟨c, hc, hpc⟩, -⟩
        exact ⟨c, hc, by rw [hpc]; rfl⟩
      · rintro s a t h ⟨hat, -⟩ hs ha
        by_cases ht : t.shared.lock = true
        · exact Or.inr (Or.inr ⟨hat.other hs ha, (h.taken.step hs) ht⟩)
        · exact Or.inl ⟨hat.other hs ha, by simpa using ht⟩
      · rintro s a t - ⟨hat, hfree⟩ hs ha
        exact Or.inl (hat.enters hfree hs ha)
    obtain ⟨m, hm, hin | hheld'⟩ := hfree n ⟨hat, by simpa using hlock⟩
    · exact ⟨m, hm, Or.inr (Or.inl hin)⟩
    · obtain ⟨l, hl, hq⟩ := hheld m hheld'
      exact ⟨l, hm.trans hl, hq⟩

/-- ARRIVE: a call that has not returned comes to the lock, or finds `g_log2mem` set before. -/
theorem arrives (k : ℕ) : b.LeadsTo (fun s => s.At k fun pc => pc.returned = false)
    (fun s => s.At k InitPc.arrived) := by
  have hstep : ∀ pc₀ : InitPc, pc₀ = .prepare ∨ pc₀ = .test →
      b.LeadsTo (fun s => s.At k fun pc => pc = pc₀)
        (fun s => s.At k fun pc => pc.arrived ∨ (pc₀ = .prepare ∧ pc = .test)) := by
    intro pc₀ hpc₀
    refine .of_fair (orderly_at h0) (hfair k) ?_ ?_ ?_
    · rintro s ⟨c, hc, rfl⟩
      refine ⟨c, hc, ?_⟩
      rcases hpc₀ with he | he <;> rw [he] <;> rfl
    · rintro s a t - hat hs ha
      exact Or.inl (hat.other hs ha)
    · rintro s a t - ⟨c, hc, rfl⟩ hs ha
      obtain ⟨os, date, shared, pc, hstep, rfl⟩ := initStep_mine hs hc ha
      have hout : c.pc.inside = false ∧ c.pc ≠ .lock := by
        rcases hpc₀ with he | he <;> rw [he] <;> exact ⟨rfl, by simp⟩
      obtain ⟨-, -, -, hprep, htest⟩ := step_outside hstep hout.1 hout.2
      refine ⟨_, getElem?_set_self_some hc, ?_⟩
      rcases hpc₀ with he | he
      · exact (hprep he).elim (fun h => Or.inr ⟨he, h⟩) fun h => Or.inl (Or.inr (Or.inr h))
      · exact Or.inl ((htest he).imp id fun h => Or.inr h)
  have htest : b.LeadsTo (fun s => s.At k fun pc => pc = .test) (fun s => s.At k InitPc.arrived) :=
    (hstep .test (Or.inr rfl)).trans (.of_imp fun n ⟨c, hc, h⟩ =>
      ⟨c, hc, h.resolve_right fun he => absurd he.1 (by simp)⟩)
  rintro n ⟨c, hc, hret⟩
  by_cases ha : c.pc.arrived
  · exact ⟨n, le_refl n, c, hc, ha⟩
  · cases hpc : c.pc with
    | prepare =>
      obtain ⟨m, hm, d, hd, hpos⟩ := hstep .prepare (Or.inl rfl) n ⟨c, hc, hpc⟩
      rcases hpos with harr | ⟨-, ht⟩
      · exact ⟨m, hm, d, hd, harr⟩
      · obtain ⟨l, hl, hq⟩ := htest m ⟨d, hd, ht⟩
        exact ⟨l, hm.trans hl, hq⟩
    | test => exact htest n ⟨c, hc, hpc⟩
    | _ => simp [hpc, InitPc.arrived, InitPc.inside, InitPc.returned] at ha hret

end Fair

/-- RETURNS: in every behaviour that lets each call go on, every call of `log2mem_init`, and every API call
    that finds `g_log2mem` unset, returns from initialisation, with the one handle that was made. -/
theorem init_returns {ps : PageSize} {b : Behaviour (initStep ps)} (h0 : b.state 0 = .start)
    (hfair : InitFair b) (k : ℕ) :
    b.LeadsTo (fun s => k < s.calls.length) (fun s => ∃ c i, s.calls[k]? = some c ∧
      c.pc.returned = true ∧ s.shared.g = some i ∧ Made ps s i) := by
  -- a call that has returned has the handle
  have hend : b.LeadsTo (fun s => s.At k fun pc => pc.returned = true) (fun s => ∃ c i,
      s.calls[k]? = some c ∧ c.pc.returned = true ∧ s.shared.g = some i ∧ Made ps s i) :=
    .of_imp fun n ⟨c, hc, hret⟩ => by
      have ho := (orderly_at h0 n).once
      have hok := ho.pcs k c hc
      have hg : (b.state n).shared.g ≠ none := by
        cases hpc : c.pc with
        | ready => rw [hpc] at hok; exact hok
        | used g => rw [hpc] at hok; exact hok.2
        | _ => simp [hpc, InitPc.returned] at hret
      obtain ⟨i, hi⟩ := Option.ne_none_iff_exists'.mp hg
      exact ⟨c, i, hc, hret, hi, (ho.made i hi).2⟩
  have hinside := (leaves_lock h0 hfair k).trans hend
  have hspins := (passes_lock h0 hfair k).trans hinside
  intro n hlt
  obtain ⟨c, hc⟩ : ∃ c, (b.state n).calls[k]? = some c := ⟨_, List.getElem?_eq_getElem hlt⟩
  by_cases hret : c.pc.returned = true
  · exact hend n ⟨c, hc, hret⟩
  · obtain ⟨m, hm, d, hd, hlock | hin | hret'⟩ := arrives h0 hfair k n ⟨c, hc, by simpa using hret⟩
    · obtain ⟨l, hl, hret' | hin | hspin⟩ := waits_at_lock h0 hfair k m ⟨d, hd, hlock⟩
      · obtain ⟨e, he, hq⟩ := hend l hret'
        exact ⟨e, (hm.trans hl).trans he, hq⟩
      · obtain ⟨e, he, hq⟩ := hinside l hin
        exact ⟨e, (hm.trans hl).trans he, hq⟩
      · obtain ⟨e, he, hq⟩ := hspins l hspin
        exact ⟨e, (hm.trans hl).trans he, hq⟩
    · obtain ⟨l, hl, hq⟩ := hinside m ⟨d, hd, hin⟩
      exact ⟨l, hm.trans hl, hq⟩
    · obtain ⟨l, hl, hq⟩ := hend m ⟨d, hd, hret'⟩
      exact ⟨l, hm.trans hl, hq⟩

/-- A list of accesses after which every call has returned, and rest, is fair. -/
theorem initFair_ofExec {ps : PageSize} {t : InitState} {as : List InitAct}
    (h : exec (initStep ps) .start as = some t) (hall : t.calls.all (fun c => c.pc.returned) = true) :
    InitFair (.ofExec h) := fun k => by
  refine Behaviour.ofExec_fair h _ ?_
  rintro ⟨c, hc, hret⟩
  rw [List.all_eq_true] at hall
  rw [hall c (List.mem_of_getElem? hc)] at hret
  exact absurd hret (by simp)

/-- In the race of `log2mem_init` with an API call that spins, the API call returns. -/
theorem init_returns_race : ∃ (b : Behaviour (initStep page4096)) (m : ℕ) (c : InitCall) (i : Inst),
    (b.state m).calls[1]? = some c ∧ c.pc.returned = true ∧ (b.state m).shared.g = some i := by
  have hdone : (exec (initStep page4096) .start raceActs).any
      (fun s => s.calls.all (fun c => c.pc.returned) && decide (1 < s.calls.length)) = true := by
    decide +kernel
  obtain ⟨t, ht, hall⟩ := (Option.any_eq_true ..).mp hdone
  rw [Bool.and_eq_true, decide_eq_true_eq] at hall
  obtain ⟨m, -, c, i, hc, hret, hg, -⟩ := init_returns (Behaviour.ofExec_zero ht)
    (initFair_ofExec ht hall.1) 1 raceActs.length (by rw [Behaviour.ofExec_rest ht (le_refl _)]; exact hall.2)
  exact ⟨_, m, c, i, hc, hret, hg⟩

/-- What a call has still to do, when it is let go on alone. -/
def InitPc.ahead : InitPc → ℕ
  | .prepare => 8
  | .test => 7
  | .lock => 6
  | pc => pc.depth

/-- A creation with this config succeeds where the kernel is willing. -/
def Creatable (ps : PageSize) (config : Config) : Prop :=
  ∃ os date r, create os ps date config = some r

/-- ALONE: a call that has not returned, and finds the lock free or is under it, gets on. -/
theorem InitCall.gets_on {ps : PageSize} {k : ℕ} {c : InitCall} {x : InitShared}
    (hret : c.pc.returned = false) (hfree : c.pc.inside = true ∨ x.lock = false)
    (hcreate : Creatable ps c.config) : ∃ os date shared pc,
      c.step ps os date k x = some (shared, pc) ∧ pc.ahead < c.pc.ahead := by
  obtain ⟨os, date, ⟨handle, m⟩, hcr⟩ := hcreate
  refine ⟨os, date, ?_⟩
  cases hpc : c.pc with
  | prepare => by_cases hg : x.g = none <;> simp [InitCall.step, hpc, hg, InitPc.ahead, InitPc.depth]
  | test => by_cases hg : x.g = none <;> simp [InitCall.step, hpc, hg, InitPc.ahead, InitPc.depth]
  | lock =>
    have hl : x.lock = false := hfree.resolve_left (by simp [hpc, InitPc.inside])
    simp [InitCall.step, hpc, hl, InitPc.ahead, InitPc.depth]
  | retest => by_cases hg : x.g = none <;> simp [InitCall.step, hpc, hg, InitPc.ahead, InitPc.depth]
  | creating => simp [InitCall.step, hpc, hcr, InitPc.ahead, InitPc.depth]
  | ready => simp [hpc, InitPc.returned] at hret
  | used g => simp [hpc, InitPc.returned] at hret
  | _ => simp [InitCall.step, hpc, InitPc.ahead, InitPc.depth]

/-- NEVER STUCK: from every state that any interleaving reaches, as long as no creation need fail, all the
    calls made so far can return, and leave the lock free. -/
theorem init_never_stuck {ps : PageSize} {s : InitState}
    (hrun : Run (initStep ps) (fun _ _ => True) .start s)
    (hcreate : ∀ (k : ℕ) (c : InitCall), s.calls[k]? = some c → Creatable ps c.config) :
    ∃ t, Run (initStep ps) (fun _ _ => True) s t ∧ t.calls.length = s.calls.length ∧
      t.shared.lock = false ∧ ∀ (k : ℕ) (c : InitCall), t.calls[k]? = some c → c.pc.returned = true := by
  have horder : Orderly ps s := hrun.invariant .start
    fun _ _ _ h _ hs => ⟨h.once.step_ok hs, h.taken.step hs⟩
  clear hrun
  -- by induction on what all the calls have still to do
  generalize hr : (s.calls.map fun c => c.pc.ahead).sum = r
  induction r using Nat.strongRecOn generalizing s with
  | ind r ih =>
    by_cases hall : ∀ (k : ℕ) (c : InitCall), s.calls[k]? = some c → c.pc.returned = true
    · refine ⟨s, .refl, rfl, ?_, hall⟩
      rw [← Bool.not_eq_true]
      intro hlock
      obtain ⟨j, c, hj, hin⟩ := horder.taken hlock
      have hret := hall j c hj
      rw [not_returned_of_inside hin] at hret
      exact absurd hret (by simp)
    · -- the call under the lock, or else any that has not returned
      obtain ⟨k, c, hk, hret, hfree⟩ : ∃ (k : ℕ) (c : InitCall), s.calls[k]? = some c ∧ c.pc.returned = false ∧
          (c.pc.inside = true ∨ s.shared.lock = false) := by
        by_cases hlock : s.shared.lock = true
        · obtain ⟨j, c, hj, hin⟩ := horder.taken hlock
          exact ⟨j, c, hj, not_returned_of_inside hin, Or.inl hin⟩
        · push Not at hall
          obtain ⟨k, c, hk, hret⟩ := hall
          exact ⟨k, c, hk, by simpa using hret, Or.inr (by simpa using hlock)⟩
      obtain ⟨os, date, shared, pc, hstep, hlt⟩ := c.gets_on hret hfree (hcreate k c hk) (k := k)
      have hs : initStep ps s (.advance k os date) =
          some ⟨shared, s.calls.set k { c with pc }⟩ := by
        rw [initStep, hk, Option.bind_eq_bind, Option.bind_some, hstep]
        rfl
      have hsum := sum_map_set (fun c : InitCall => c.pc.ahead) (a := { c with pc }) hk
      have hlt' : (((s.calls.set k { c with pc }).map fun c => c.pc.ahead).sum) < r := by
        simp only at hsum
        omega
      obtain ⟨t, hrun, hlen, hdone⟩ := ih _ hlt' (s := ⟨shared, s.calls.set k { c with pc }⟩)
        (fun j d hj => by
          rcases getElem?_set_some hj with ⟨rfl, rfl⟩ | ⟨-, hj⟩
          · exact hcreate j c hk
          · exact hcreate j d hj)
        ⟨horder.once.step_ok hs, horder.taken.step hs⟩ rfl
      exact ⟨t, (Run.single trivial hs).trans hrun, by simpa using hlen, hdone⟩

/-- Where one call is about to create and the other spins, both can return. -/
theorem init_never_stuck_spinning : ∃ s t, exec (initStep page4096) .start (raceActs.take 7) = some s ∧
    Run (initStep page4096) (fun _ _ => True) s t ∧ t.shared.lock = false ∧
    ∀ (k : ℕ) (c : InitCall), t.calls[k]? = some c → c.pc.returned = true := by
  have hcan : (exec (initStep page4096) .start (raceActs.take 7)).any (fun s => s.calls.all
      fun c => (create ⟨true, true⟩ page4096 [] c.config).isSome) = true := by
    decide +kernel
  obtain ⟨s, hs, hall⟩ := (Option.any_eq_true ..).mp hcan
  rw [List.all_eq_true] at hall
  obtain ⟨t, hrun, -, hlock, hdone⟩ := init_never_stuck
    (Run.of_exec hs (AllOk.of_forall fun _ _ => trivial))
    fun k c hc => ⟨_, _, Option.isSome_iff_exists.mp (hall c (List.mem_of_getElem? hc))⟩
  exact ⟨s, t, hs, hrun, hlock, hdone⟩

end Log2mem
