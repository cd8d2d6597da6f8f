import Log2mem.Init.Steps

/-! The memmap is created once, whatever the interleaving.

    The invariant says who may be where: the calls between spinlock and spinunlock are at most one, and
    it holds the lock; a creation has been started only if `g_log2mem` is set or the call that started it
    is still making; and a call past its tests has seen `g_log2mem` set.

        creates = []   ──create──▶   creates = [k], k making   ──assign──▶   g = made by k, for good -/

namespace Log2mem
open Schemes

/-- What a program counter says about the shared state. -/
def PcOk (ps : PageSize) (s : InitState) (k : ℕ) : InitPc → Prop
  | .create => s.shared.g = none ∧ s.shared.creates = []
  | .creating => s.shared.g = none ∧ s.shared.creates = [k]
  | .assign i => s.shared.g = none ∧ s.shared.creates = [k] ∧ i.creator = k ∧ Made ps s i
  | .unlock | .ready => s.shared.g ≠ none
  | .used g => g = s.shared.g ∧ s.shared.g ≠ none
  | _ => True

/-- The creations so far: none, or one that is still being made or has been published. -/
def Creations (s : InitState) : Prop :=
  s.shared.creates = [] ∨ ∃ k, s.shared.creates = [k] ∧
    (s.shared.g ≠ none ∨ ∃ c, s.calls[k]? = some c ∧ c.pc.making = true)

/-- The invariant of every run. -/
structure Once (ps : PageSize) (s : InitState) : Prop where
  excl : ∀ (j k : ℕ) (c d : InitCall), s.calls[j]? = some c → s.calls[k]? = some d →
    c.pc.inside = true → d.pc.inside = true → j = k
  held : ∀ (k : ℕ) (c : InitCall), s.calls[k]? = some c → c.pc.inside = true → s.shared.lock = true
  creations : Creations s
  made : ∀ i, s.shared.g = some i → s.shared.creates = [i.creator] ∧ Made ps s i
  pcs : ∀ (k : ℕ) (c : InitCall), s.calls[k]? = some c → PcOk ps s k c.pc

theorem InitPc.inside_of_making {p : InitPc} (h : p.making = true) : p.inside = true := by
  cases p <;> simp_all [InitPc.making, InitPc.inside]

section Steps
variable {ps : PageSize} {s : InitState} {k : ℕ} {c : InitCall} {i : Inst}

theorem Made.set (h : Made ps s i) (hk : s.calls[k]? = some c) (pc : InitPc) {shared : InitShared}
    (hm : shared.mem = s.shared.mem) : Made ps ⟨shared, s.calls.set k { c with pc }⟩ i := by
  obtain ⟨d, m, os, date, hd, hmem, hcreate⟩ := h
  by_cases he : i.creator = k
  · rw [he, hk, Option.some.injEq] at hd
    exact ⟨{ c with pc }, m, os, date, by rw [he]; exact getElem?_set_self_some hk, hm.trans hmem,
      by rw [hd]; exact hcreate⟩
  · exact ⟨d, m, os, date, by rw [List.getElem?_set_ne (fun h => he h.symm)]; exact hd, hm.trans hmem,
      hcreate⟩

theorem Made.concat (h : Made ps s i) (d : InitCall) : Made ps ⟨s.shared, s.calls ++ [d]⟩ i := by
  obtain ⟨c, m, os, date, hc, hmem, hcreate⟩ := h
  exact ⟨c, m, os, date, by rw [List.getElem?_append_left (lt_of_getElem?_some hc)]; exact hc, hmem,
    hcreate⟩

/-- An access that leaves the shared state alone keeps what the program counters say. -/
theorem PcOk.set {j : ℕ} {p : InitPc} (h : PcOk ps s j p) (hk : s.calls[k]? = some c) (pc : InitPc) :
    PcOk ps ⟨s.shared, s.calls.set k { c with pc }⟩ j p := by
  cases p with
  | assign i =>
    obtain ⟨hg, hcr, hi, hmade⟩ := h
    exact ⟨hg, hcr, hi, hmade.set hk pc rfl⟩
  | _ => exact h

theorem PcOk.concat {j : ℕ} {p : InitPc} (h : PcOk ps s j p) (d : InitCall) :
    PcOk ps ⟨s.shared, s.calls ++ [d]⟩ j p := by
  cases p with
  | assign i =>
    obtain ⟨hg, hcr, hi, hmade⟩ := h
    exact ⟨hg, hcr, hi, hmade.concat d⟩
  | _ => exact h

theorem PcOk.outside {s' : InitState} {j : ℕ} {p : InitPc} (h : PcOk ps s j p) (hp : p.inside = false)
    (hg : s.shared.g ≠ none → s'.shared.g = s.shared.g) : PcOk ps s' j p := by
  cases p with
  | ready =>
    have hne : s.shared.g ≠ none := h
    show s'.shared.g ≠ none
    rw [hg hne]
    exact hne
  | used g =>
    obtain ⟨he, hne⟩ := h
    refine ⟨he.trans (hg hne).symm, ?_⟩
    rw [hg hne]
    exact hne
  | prepare => trivial
  | test => trivial
  | lock => trivial
  | _ => exact absurd hp (by simp [InitPc.inside])

theorem Creations.of_made (h : ∀ i, s.shared.g = some i → s.shared.creates = [i.creator] ∧ Made ps s i)
    (hg : s.shared.g ≠ none) : Creations s := by
  obtain ⟨i, hi⟩ := Option.ne_none_iff_exists'.mp hg
  exact Or.inr ⟨i.creator, (h i hi).1, Or.inl hg⟩

theorem Once.start_call (h : Once ps s) {d : InitCall} (hd : d.pc.inside = false)
    (hok : PcOk ps s s.calls.length d.pc) : Once ps ⟨s.shared, s.calls ++ [d]⟩ := by
  have hold : ∀ {j : ℕ} {e : InitCall}, (s.calls ++ [d])[j]? = some e → e.pc.inside = true →
      s.calls[j]? = some e := fun hj hin => by
    rcases getElem?_concat_some hj with hj | ⟨-, rfl⟩
    · exact hj
    · rw [hd] at hin
      exact absurd hin (by simp)
  refine ⟨fun j j' e e' hj hj' hin hin' => h.excl j j' e e' (hold hj hin) (hold hj' hin') hin hin',
    fun j e hj hin => h.held j e (hold hj hin) hin, ?_, fun i hi => ?_, fun j e hj => ?_⟩
  · rcases h.creations with h0 | ⟨j, hj, hg | ⟨e, he, hmk⟩⟩
    · exact Or.inl h0
    · exact Or.inr ⟨j, hj, Or.inl hg⟩
    · refine Or.inr ⟨j, hj, Or.inr ⟨e, ?_, hmk⟩⟩
      rw [List.getElem?_append_left (lt_of_getElem?_some he)]
      exact he
  · obtain ⟨hcr, hmade⟩ := h.made i hi
    exact ⟨hcr, hmade.concat d⟩
  · rcases getElem?_concat_some hj with hj | ⟨rfl, rfl⟩
    · exact (h.pcs j e hj).concat d
    · exact hok.concat e

theorem Once.move (h : Once ps s) (hk : s.calls[k]? = some c) {pc : InitPc}
    (hin : pc.inside = true → c.pc.inside = true) (hmk : c.pc.making = false)
    (hok : PcOk ps s k pc) : Once ps ⟨s.shared, s.calls.set k { c with pc }⟩ := by
  have hold : ∀ {j : ℕ} {e : InitCall}, (s.calls.set k { c with pc })[j]? = some e →
      e.pc.inside = true → ∃ e', s.calls[j]? = some e' ∧ e'.pc.inside = true := fun hj hi => by
    rcases getElem?_set_some hj with ⟨rfl, rfl⟩ | ⟨-, hj⟩
    · exact ⟨c, hk, hin hi⟩
    · exact ⟨_, hj, hi⟩
  refine ⟨fun j j' e e' hj hj' hi hi' => ?_, fun j e hj hi => ?_, ?_, fun i hi => ?_, fun j e hj => ?_⟩
  · obtain ⟨d, hd, hdi⟩ := hold hj hi
    obtain ⟨d', hd', hdi'⟩ := hold hj' hi'
    exact h.excl j j' d d' hd hd' hdi hdi'
  · obtain ⟨d, hd, hdi⟩ := hold hj hi
    exact h.held j d hd hdi
  · rcases h.creations with h0 | ⟨j, hj, hg | ⟨e, he, hm⟩⟩
    · exact Or.inl h0
    · exact Or.inr ⟨j, hj, Or.inl hg⟩
    · refine Or.inr ⟨j, hj, Or.inr ⟨e, ?_, hm⟩⟩
      have hne : k ≠ j := by
        rintro rfl
        rw [hk, Option.some.injEq] at he
        rw [← he, hmk] at hm
        exact absurd hm (by simp)
      rw [List.getElem?_set_ne hne]
      exact he
  · obtain ⟨hcr, hmade⟩ := h.made i hi
    exact ⟨hcr, hmade.set hk pc rfl⟩
  · rcases getElem?_set_some hj with ⟨rfl, rfl⟩ | ⟨-, hj⟩
    · exact hok.set hk pc
    · exact (h.pcs j e hj).set hk pc

/-- An access of the one call under the lock: the others are outside, and only see `g_log2mem` set. -/
theorem Once.inside_step (h : Once ps s) (hk : s.calls[k]? = some c) (hc : c.pc.inside = true)
    {shared : InitShared} {pc : InitPc} (hlock : pc.inside = true → shared.lock = true)
    (hg : s.shared.g ≠ none → shared.g = s.shared.g)
    (hcr : Creations ⟨shared, s.calls.set k { c with pc }⟩)
    (hmade : ∀ i, shared.g = some i →
      shared.creates = [i.creator] ∧ Made ps ⟨shared, s.calls.set k { c with pc }⟩ i)
    (hok : PcOk ps ⟨shared, s.calls.set k { c with pc }⟩ k pc) :
    Once ps ⟨shared, s.calls.set k { c with pc }⟩ := by
  have hothers : ∀ {j : ℕ} {e : InitCall}, j ≠ k → s.calls[j]? = some e → e.pc.inside = false :=
    fun hne hj => Bool.eq_false_iff.mpr fun hi => hne (h.excl _ _ _ _ hj hk hi hc)
  have hself : ∀ {j : ℕ} {e : InitCall}, (s.calls.set k { c with pc })[j]? = some e →
      e.pc.inside = true → j = k ∧ pc.inside = true := fun hj hi => by
    rcases getElem?_set_some hj with ⟨rfl, rfl⟩ | ⟨hne, hj⟩
    · exact ⟨rfl, hi⟩
    · rw [hothers hne hj] at hi
      exact absurd hi (by simp)
  refine ⟨fun j j' e e' hj hj' hi hi' => ?_, fun j e hj hi => hlock (hself hj hi).2, hcr, hmade,
    fun j e hj => ?_⟩
  · exact (hself hj hi).1.trans (hself hj' hi').1.symm
  · rcases getElem?_set_some hj with ⟨rfl, rfl⟩ | ⟨hne, hj⟩
    · exact hok
    · exact (h.pcs j e hj).outside (hothers hne hj) hg

theorem Once.acquire_lock (h : Once ps s) (hk : s.calls[k]? = some c)
    (hfree : s.shared.lock = false) :
    Once ps ⟨{ s.shared with lock := true }, s.calls.set k { c with pc := .retest }⟩ := by
  have hnone : ∀ {j : ℕ} {e : InitCall}, s.calls[j]? = some e → e.pc.inside = false := fun hj =>
    Bool.eq_false_iff.mpr fun hi => by
      rw [h.held _ _ hj hi] at hfree
      exact absurd hfree (by simp)
  have hself : ∀ {j : ℕ} {e : InitCall},
      (s.calls.set k { c with pc := .retest })[j]? = some e → e.pc.inside = true → j = k := fun hj hi => by
    rcases getElem?_set_some hj with ⟨rfl, rfl⟩ | ⟨-, hj⟩
    · rfl
    · rw [hnone hj] at hi
      exact absurd hi (by simp)
  refine ⟨fun j j' e e' hj hj' hi hi' => (hself hj hi).trans (hself hj' hi').symm, fun _ _ _ _ => rfl, ?_,
    fun i hi => ?_, fun j e hj => ?_⟩
  · rcases h.creations with h0 | ⟨j, hj, hg | ⟨e, he, hm⟩⟩
    · exact Or.inl h0
    · exact Or.inr ⟨j, hj, Or.inl hg⟩
    · have := InitPc.inside_of_making hm
      rw [hnone he] at this
      exact absurd this (by simp)
  · obtain ⟨hcr, hmade⟩ := h.made i hi
    exact ⟨hcr, hmade.set hk _ rfl⟩
  · rcases getElem?_set_some hj with ⟨rfl, rfl⟩ | ⟨-, hj⟩
    · trivial
    · exact (h.pcs j e hj).outside (hnone hj) fun _ => rfl

/-- Under the lock, with `g_log2mem` unset and this call not making, nothing was created. -/
theorem Once.creates_nil (h : Once ps s) (hk : s.calls[k]? = some c) (hc : c.pc = .retest)
    (hg : s.shared.g = none) : s.shared.creates = [] := by
  rcases h.creations with h0 | ⟨j, -, hne | ⟨e, he, hm⟩⟩
  · exact h0
  · exact absurd hg hne
  · have hin : c.pc.inside = true := by rw [hc]; rfl
    have hj := h.excl j k e c he hk (InitPc.inside_of_making hm) hin
    rw [hj, hk, Option.some.injEq] at he
    rw [← he, hc] at hm
    exact absurd hm (by simp [InitPc.making])

theorem Once.enter_create (h : Once ps s) (hk : s.calls[k]? = some c) (hc : c.pc = .create) :
    Once ps ⟨{ s.shared with creates := s.shared.creates ++ [k] },
      s.calls.set k { c with pc := .creating }⟩ := by
  have hok := h.pcs k c hk
  rw [hc] at hok
  obtain ⟨hg, hnil⟩ := hok
  have hin : c.pc.inside = true := by rw [hc]; rfl
  have hone : s.shared.creates ++ [k] = [k] := by rw [hnil, List.nil_append]
  refine h.inside_step hk hin (fun _ => h.held k c hk hin) (fun _ => rfl)
    (Or.inr ⟨k, hone, Or.inr ⟨_, getElem?_set_self_some hk, rfl⟩⟩) (fun i hi => ?_) ⟨hg, hone⟩
  rw [show s.shared.g = none from hg] at hi
  exact absurd hi (by simp)

theorem Once.leave_create (h : Once ps s) (hk : s.calls[k]? = some c) (hc : c.pc = .creating) {os : Os}
    {date : List UInt8} {handle : Handle} {m : Mem}
    (hcreate : create os ps date c.config = some (handle, m)) :
    Once ps ⟨{ s.shared with mem := some m }, s.calls.set k { c with pc := .assign ⟨k, handle⟩ }⟩ := by
  have hok := h.pcs k c hk
  rw [hc] at hok
  obtain ⟨hg, hone⟩ := hok
  have hin : c.pc.inside = true := by rw [hc]; rfl
  refine h.inside_step hk hin (fun _ => h.held k c hk hin) (fun _ => rfl)
    (Or.inr ⟨k, hone, Or.inr ⟨_, getElem?_set_self_some hk, rfl⟩⟩) (fun i hi => ?_)
    ⟨hg, hone, rfl, _, m, os, date, getElem?_set_self_some hk, rfl, hcreate⟩
  rw [show s.shared.g = none from hg] at hi
  exact absurd hi (by simp)

theorem Once.publish (h : Once ps s) (hk : s.calls[k]? = some c) (hc : c.pc = .assign i) :
    Once ps ⟨{ s.shared with g := some i }, s.calls.set k { c with pc := .unlock }⟩ := by
  have hok := h.pcs k c hk
  rw [hc] at hok
  obtain ⟨hg, hone, rfl, hmade⟩ := hok
  have hin : c.pc.inside = true := by rw [hc]; rfl
  refine h.inside_step hk hin (fun _ => h.held _ c hk hin) (fun hne => absurd hg hne)
    (Or.inr ⟨i.creator, hone, Or.inl (by simp)⟩) (fun i' hi' => ?_) (Option.some_ne_none i)
  rw [Option.some.injEq] at hi'
  subst hi'
  exact ⟨hone, hmade.set hk _ rfl⟩

theorem Once.release_lock (h : Once ps s) (hk : s.calls[k]? = some c) (hc : c.pc = .unlock) :
    Once ps ⟨{ s.shared with lock := false }, s.calls.set k { c with pc := .ready }⟩ := by
  have hok := h.pcs k c hk
  rw [hc] at hok
  have hin : c.pc.inside = true := by rw [hc]; rfl
  have hmade : ∀ i, s.shared.g = some i → s.shared.creates = [i.creator] ∧
      Made ps ⟨{ s.shared with lock := false }, s.calls.set k { c with pc := .ready }⟩ i := fun i hi =>
    ⟨(h.made i hi).1, (h.made i hi).2.set hk _ rfl⟩
  exact h.inside_step hk hin (by simp [InitPc.inside]) (fun _ => rfl) (Creations.of_made hmade hok)
    hmade hok

/-- STEP: every access of every call keeps the invariant. -/
theorem Once.advance (h : Once ps s) (hk : s.calls[k]? = some c) {os : Os} {date : List UInt8}
    {shared : InitShared} {pc : InitPc} (hs : c.step ps os date k s.shared = some (shared, pc)) :
    Once ps ⟨shared, s.calls.set k { c with pc }⟩ := by
  have hok := h.pcs k c hk
  unfold InitCall.step at hs
  cases hc : c.pc with
  | prepare =>
    simp only [hc, Option.some.injEq, Prod.mk.injEq] at hs
    obtain ⟨rfl, rfl⟩ := hs
    refine h.move hk (by split <;> simp [InitPc.inside]) (by simp [hc, InitPc.making]) ?_
    split
    · trivial
    · assumption
  | test =>
    simp only [hc, Option.some.injEq, Prod.mk.injEq] at hs
    obtain ⟨rfl, rfl⟩ := hs
    refine h.move hk (by split <;> simp [InitPc.inside]) (by simp [hc, InitPc.making]) ?_
    split
    · trivial
    · assumption
  | lock =>
    simp only [hc, Option.some.injEq, Prod.mk.injEq] at hs
    obtain ⟨rfl, rfl⟩ := hs
    cases hl : s.shared.lock with
    | false => exact h.acquire_lock hk hl
    | true =>
      have hsame : ({ s.shared with lock := true } : InitShared) = s.shared := by rw [← hl]
      rw [hsame, if_pos rfl]
      exact h.move hk (by simp [InitPc.inside]) (by simp [hc, InitPc.making]) trivial
  | retest =>
    simp only [hc, Option.some.injEq, Prod.mk.injEq] at hs
    obtain ⟨rfl, rfl⟩ := hs
    refine h.move hk (fun _ => by simp [hc, InitPc.inside]) (by simp [hc, InitPc.making]) ?_
    split
    · rename_i hg
      exact ⟨hg, h.creates_nil hk hc hg⟩
    · assumption
  | create =>
    simp only [hc, Option.some.injEq, Prod.mk.injEq] at hs
    obtain ⟨rfl, rfl⟩ := hs
    exact h.enter_create hk hc
  | creating =>
    simp only [hc, Option.bind_eq_bind, Option.bind_eq_some_iff, Option.pure_def, Option.some.injEq,
      Prod.mk.injEq] at hs
    obtain ⟨⟨handle, m⟩, hcreate, rfl, rfl⟩ := hs
    exact h.leave_create hk hc hcreate
  | assign i =>
    simp only [hc, Option.some.injEq, Prod.mk.injEq] at hs
    obtain ⟨rfl, rfl⟩ := hs
    exact h.publish hk hc
  | unlock =>
    simp only [hc, Option.some.injEq, Prod.mk.injEq] at hs
    obtain ⟨rfl, rfl⟩ := hs
    exact h.release_lock hk hc
  | ready =>
    simp only [hc, Option.some.injEq, Prod.mk.injEq] at hs
    obtain ⟨rfl, rfl⟩ := hs
    rw [hc] at hok
    exact h.move hk (by simp [InitPc.inside]) (by simp [hc, InitPc.making]) ⟨rfl, hok⟩
  | used g =>
    simp only [hc] at hs
    exact absurd hs (by simp)

theorem Once.step_ok (h : Once ps s) {a : InitAct} {s' : InitState} (hs : initStep ps s a = some s') :
    Once ps s' := by
  cases a with
  | init userconfig configsize =>
    rw [initStep, Option.some.injEq] at hs
    exact hs ▸ h.start_call rfl trivial
  | api =>
    rw [initStep, Option.some.injEq] at hs
    exact hs ▸ h.start_call rfl trivial
  | advance k os date =>
    obtain ⟨c, shared, pc, hk, hst, rfl⟩ := initStep_advance hs
    exact h.advance hk hst

theorem Once.start : Once ps InitState.start :=
  ⟨by simp [InitState.start], by simp [InitState.start], Or.inl rfl, by simp [InitState.start],
    by simp [InitState.start]⟩

/-- RUN: the invariant holds after every run. -/
theorem Once.run (hrun : Run (initStep ps) (fun _ _ => True) .start s) : Once ps s :=
  hrun.invariant Once.start fun _ _ _ h _ hs => h.step_ok hs

/-- Only the assignment under the lock changes `g_log2mem`, and it is unset before. -/
theorem Once.g_step (h : Once ps s) {a : InitAct} {s' : InitState} (hs : initStep ps s a = some s') :
    s'.shared.g = s.shared.g ∨ s.shared.g = none ∧ ∃ i, s'.shared.g = some i ∧ Made ps s i := by
  cases a with
  | init userconfig configsize =>
    rw [initStep, Option.some.injEq] at hs
    exact Or.inl (by rw [← hs])
  | api =>
    rw [initStep, Option.some.injEq] at hs
    exact Or.inl (by rw [← hs])
  | advance k os date =>
    obtain ⟨c, shared, pc, hk, hst, rfl⟩ := initStep_advance hs
    have hok := h.pcs k c hk
    unfold InitCall.step at hst
    cases hc : c.pc with
    | assign i =>
      rw [hc] at hok
      simp only [hc, Option.some.injEq, Prod.mk.injEq] at hst
      obtain ⟨rfl, rfl⟩ := hst
      exact Or.inr ⟨hok.1, i, rfl, hok.2.2.2⟩
    | creating =>
      simp only [hc, Option.bind_eq_bind, Option.bind_eq_some_iff, Option.pure_def, Option.some.injEq,
        Prod.mk.injEq] at hst
      obtain ⟨_, -, rfl, -⟩ := hst
      exact Or.inl rfl
    | used g =>
      simp only [hc] at hst
      exact absurd hst (by simp)
    | _ =>
      simp only [hc, Option.some.injEq, Prod.mk.injEq] at hst
      obtain ⟨rfl, -⟩ := hst
      exact Or.inl rfl

theorem Once.g_run (h : Once ps s) {t : InitState} (hrun : Run (initStep ps) (fun _ _ => True) s t)
    (hi : s.shared.g = some i) : t.shared.g = some i := by
  have hboth : Once ps t ∧ t.shared.g = some i := by
    refine hrun.invariant (I := fun t => Once ps t ∧ t.shared.g = some i) ⟨h, hi⟩ ?_
    rintro t a u ⟨ht, hg⟩ - hs
    refine ⟨ht.step_ok hs, ?_⟩
    rcases ht.g_step hs with he | ⟨hnone, -⟩
    · exact he.trans hg
    · rw [hnone] at hg
      exact absurd hg (by simp)
  exact hboth.2

end Steps

/-! ### Who calls, and with what -/

/-- The call that an action makes. -/
def InitAct.entry? : InitAct → Option InitEntry
  | .init userconfig configsize => some (.init userconfig configsize)
  | .api => some .api
  | .advance _ _ _ => none

/-- The header stores the rounded config of the call: the first `configsize` bytes of its `userconfig` with
    zeros behind them, or the default config. -/
def InitEntry.StoredIn (m : Mem) : InitEntry → Prop
  | .init userconfig configsize => ∃ config : Config,
    config.bytes = (List.range sizeofConfig).map (fun i => if i < configsize then userconfig i else 0) ∧
    loadConfig m = some (normalise config)
  | .api => loadConfig m = some (normalise defaultConfig)

section Entries
variable {ps : PageSize} {s : InitState}

/-- CALLS: the calls of a state are those that its actions made, in their order. -/
theorem entries_exec : ∀ {as : List InitAct} {s t : InitState}, exec (initStep ps) s as = some t →
    t.calls.map InitCall.entry = s.calls.map InitCall.entry ++ as.filterMap InitAct.entry?
  | [], s, t, he => by
    rw [exec, Option.some.injEq] at he
    rw [he, List.filterMap_nil, List.append_nil]
  | a :: as, s, t, he => by
    rw [exec] at he
    obtain ⟨u, hu, he⟩ := Option.bind_eq_some_iff.mp he
    rw [entries_exec he]
    cases a with
    | init userconfig configsize =>
      rw [initStep, Option.some.injEq] at hu
      rw [← hu, List.map_append, List.append_assoc]
      rfl
    | api =>
      rw [initStep, Option.some.injEq] at hu
      rw [← hu, List.map_append, List.append_assoc]
      rfl
    | advance k os date =>
      obtain ⟨c, shared, pc, hk, -, rfl⟩ := initStep_advance hu
      have hkeep : (s.calls.set k { c with pc }).map InitCall.entry = s.calls.map InitCall.entry := by
        rw [List.map_set]
        exact set_self_of_some (by rw [List.getElem?_map, hk]; rfl)
      rw [hkeep, List.filterMap_cons_none rfl]

/-- A creation stores the config of its call. -/
theorem InitCall.stored {os : Os} {date : List UInt8} {c : InitCall} {h : Handle} {m : Mem}
    (hc : create os ps date c.config = some (h, m)) : c.entry.StoredIn m := by
  have hload := create_config hc
  rw [InitCall.config] at hload
  cases he : c.entry with
  | init userconfig configsize =>
    rw [he] at hload
    exact ⟨_, copyConfig_bytes userconfig configsize, hload⟩
  | api =>
    rw [he] at hload
    exact hload.trans (by rw [copyConfig_image])

end Entries

/-- ONCE: after every run, `__log2mem_create` was executed at most once; at most one call is between
    spinlock and spinunlock; `g_log2mem`, if set, is the finished creation of one call, the memmap stores
    the rounded config that this call was made with, and `g_log2mem` stays so in every continuation; a step
    changes it only from null to a creation finished before; and every call that returned from
    initialisation has found it set, to what it is now. -/
theorem init_once {ps : PageSize} {s : InitState} {as : List InitAct}
    (he : exec (initStep ps) .start as = some s) :
    s.calls.map InitCall.entry = as.filterMap InitAct.entry? ∧
    s.shared.creates.length ≤ 1 ∧
    (∀ (j k : ℕ) (c d : InitCall), s.calls[j]? = some c → s.calls[k]? = some d →
      c.pc.inside = true → d.pc.inside = true → j = k) ∧
    (∀ i, s.shared.g = some i → s.shared.creates = [i.creator] ∧ Made ps s i ∧
      (∃ e m, (as.filterMap InitAct.entry?)[i.creator]? = some e ∧ s.shared.mem = some m ∧ e.StoredIn m) ∧
      ∀ t, Run (initStep ps) (fun _ _ => True) s t → t.shared.g = some i) ∧
    (∀ a s', initStep ps s a = some s' → s'.shared.g = s.shared.g ∨
      s.shared.g = none ∧ ∃ i, s'.shared.g = some i ∧ Made ps s i) ∧
    ∀ (k : ℕ) (c : InitCall), s.calls[k]? = some c → c.pc.returned = true →
      ∃ i, s.shared.g = some i ∧ ∀ g, c.pc = .used g → g = some i := by
  have hrun : Run (initStep ps) (fun _ _ => True) .start s :=
    Run.of_exec he (AllOk.of_forall fun _ _ => trivial)
  have h := Once.run hrun
  have hentries : s.calls.map InitCall.entry = as.filterMap InitAct.entry? := entries_exec he
  refine ⟨hentries, ?_, h.excl, fun i hi => ?_, fun a s' hs => h.g_step hs, fun k c hk hret => ?_⟩
  · rcases h.creations with h0 | ⟨k, hk, -⟩
    · simp [h0]
    · simp [hk]
  · obtain ⟨hcr, hmade⟩ := h.made i hi
    obtain ⟨c, m, os, date, hc, hm, hcreate⟩ := hmade
    have hentry : (as.filterMap InitAct.entry?)[i.creator]? = some c.entry := by
      rw [← hentries, List.getElem?_map, hc]
      rfl
    exact ⟨hcr, ⟨c, m, os, date, hc, hm, hcreate⟩, ⟨_, m, hentry, hm, InitCall.stored hcreate⟩,
      fun t ht => h.g_run ht hi⟩
  · have hok := h.pcs k c hk
    cases hc : c.pc with
    | ready =>
      rw [hc] at hok
      obtain ⟨i, hi⟩ := Option.ne_none_iff_exists'.mp hok
      exact ⟨i, hi, by simp⟩
    | used g =>
      rw [hc] at hok
      obtain ⟨i, hi⟩ := Option.ne_none_iff_exists'.mp hok.2
      refine ⟨i, hi, fun g' hg' => ?_⟩
      rw [← InitPc.used.inj hg', hok.1, hi]
    | _ => simp [hc, InitPc.returned] at hret

/-- What a caller passes that knows the first four fields only. -/
def shortConfig : Config :=
  { options := 1, numCounters := 3, numRows := 5, rowLen := 40, numVars := 7 }

/-- `log2mem_init` with 16 bytes of a config races with an API call: both pass the first test, and the API
    call spins while the other creates. -/
def raceActs : List InitAct :=
  [.init shortConfig.image 16, .api] ++
    [0, 1, 1, 0, 1, 0, 0, 0, 0, 0, 1, 1, 1, 1].map fun k => .advance k ⟨true, true⟩ []

/-- The API call returns with the handle that call 0 created; the header has the four fields, rounded, and
    no variables. -/
theorem init_once_race : ∃ s m, exec (initStep page4096) .start raceActs = some s ∧
    s.shared.creates.length ≤ 1 ∧ s.shared.mem = some m ∧ loadConfig m = some ⟨1, 4, 8, 40, 0⟩ ∧
    ∃ c g, s.calls[1]? = some c ∧ c.pc = .used g ∧ s.shared.g = g := by
  have hused : (exec (initStep page4096) .start raceActs).any (fun s =>
      decide (s.shared.g.map Inst.creator = some 0) && s.calls[1]?.any fun c =>
        match c.pc with
        | .used _ => true
        | _ => false) = true := by
    decide +kernel
  obtain ⟨s, hs, hcall⟩ := (Option.any_eq_true ..).mp hused
  rw [Bool.and_eq_true, decide_eq_true_eq] at hcall
  obtain ⟨hcreator, hcall⟩ := hcall
  obtain ⟨c, hc, hpc⟩ := (Option.any_eq_true ..).mp hcall
  obtain ⟨-, hcreates, -, hset, -, hreturned⟩ := init_once hs
  obtain ⟨i, hi, hcreator⟩ := Option.map_eq_some_iff.mp hcreator
  obtain ⟨-, -, ⟨e, m, hentry, hm, hstored⟩, -⟩ := hset i hi
  rw [hcreator] at hentry
  obtain rfl : InitEntry.init shortConfig.image 16 = e := Option.some.inj hentry
  obtain ⟨config, hbytes, hload⟩ := hstored
  obtain rfl : config = ⟨1, 3, 5, 40, 0⟩ := Config.bytes_injective (hbytes.trans (by decide))
  split at hpc
  · rename_i g hg
    obtain ⟨i', hi', huse⟩ := hreturned 1 c hc (by rw [hg]; rfl)
    exact ⟨s, m, hs, hcreates, hm, hload.trans (by decide), c, g, hc, hg, hi'.trans (huse g hg).symm⟩
  · exact absurd hpc (by simp)

end Log2mem
