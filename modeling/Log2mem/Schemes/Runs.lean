import Mathlib.Logic.Basic

/-! Runs of a labelled transition system given by a partial step function.

    `Run step ok s t` says that `t` is reached from `s` by steps that each satisfied the side
    condition `ok` in the state they were taken from. An invariant is proved once per step and holds
    after every run. -/

namespace Schemes

variable {σ α : Type*}

/-- `t` is reached from `s` by actions that were each `ok` in the state they started from. -/
inductive Run (step : σ → α → Option σ) (ok : σ → α → Prop) (s : σ) : σ → Prop
  | refl : Run step ok s s
  | tail {t u : σ} {a : α} : Run step ok s t → ok t a → step t a = some u → Run step ok s u

namespace Run

variable {step : σ → α → Option σ} {ok ok' : σ → α → Prop} {s t u : σ}

/-- The run rule: what holds at the start and is kept by every `ok` step holds at the end. -/
theorem invariant {I : σ → Prop} (h0 : I s)
    (hstep : ∀ t a u, I t → ok t a → step t a = some u → I u) (h : Run step ok s t) : I t := by
  induction h with
  | refl => exact h0
  | tail _ hok hs ih => exact hstep _ _ _ ih hok hs

theorem trans (h : Run step ok s t) (h' : Run step ok t u) : Run step ok s u := by
  induction h' with
  | refl => exact h
  | tail _ hok hs ih => exact ih.tail hok hs

theorem single {a : α} (hok : ok s a) (hs : step s a = some t) : Run step ok s t :=
  Run.refl.tail hok hs

/-- The map rule: where another system runs along with every step, it runs along with the run. -/
theorem map {τ β : Type*} {step' : τ → β → Option τ} {ok' : τ → β → Prop} (img : σ → τ)
    (hstep : ∀ t a u, Run step ok s t → ok t a → step t a = some u → Run step' ok' (img t) (img u))
    (h : Run step ok s t) : Run step' ok' (img s) (img t) := by
  induction h with
  | refl => exact refl
  | tail hrun hok hs ih => exact ih.trans (hstep _ _ _ hrun hok hs)

end Run

/-- Execute a list of actions. -/
def exec (step : σ → α → Option σ) : σ → List α → Option σ
  | s, [] => some s
  | s, a :: as => (step s a).bind fun t => exec step t as

/-- The side condition holds at every step of an executed list. -/
def AllOk (step : σ → α → Option σ) (ok : σ → α → Prop) : σ → List α → Prop
  | _, [] => True
  | s, a :: as => ok s a ∧ ∀ t, step s a = some t → AllOk step ok t as

instance AllOk.decidable {step : σ → α → Option σ} {ok : σ → α → Prop} [∀ s a, Decidable (ok s a)] :
    ∀ (s : σ) (as : List α), Decidable (AllOk step ok s as)
  | _, [] => .isTrue trivial
  | s, a :: as =>
    have : ∀ t, Decidable (AllOk step ok t as) := fun t => AllOk.decidable t as
    inferInstanceAs (Decidable (ok s a ∧ ∀ t ∈ step s a, AllOk step ok t as))

theorem AllOk.of_forall {step : σ → α → Option σ} {ok : σ → α → Prop} (h : ∀ s a, ok s a) :
    ∀ {as : List α} {s : σ}, AllOk step ok s as
  | [], _ => trivial
  | _ :: _, _ => ⟨h _ _, fun _ _ => AllOk.of_forall h⟩

/-- A list is executed when every step succeeds that extends the history so far; what each step
    establishes of the longer history holds of the whole list in the end. -/
theorem exec_history {step : σ → α → Option σ} {P : α → Prop} {R : List α → σ → Prop}
    (hstep : ∀ done s a, R done s → P a → ∃ t, step s a = some t ∧ R (done ++ [a]) t) :
    ∀ {as done : List α} {s : σ}, (∀ a ∈ as, P a) → R done s →
      ∃ t, exec step s as = some t ∧ R (done ++ as) t
  | [], done, s, _, h => ⟨s, rfl, by rw [List.append_nil]; exact h⟩
  | a :: as, done, s, hP, h => by
    obtain ⟨t, ht, hR⟩ := hstep done s a h (hP a (List.mem_cons_self ..))
    obtain ⟨u, hu, hR'⟩ := exec_history hstep (fun b hb => hP b (List.mem_cons_of_mem a hb)) hR
    rw [List.append_assoc, List.singleton_append] at hR'
    exact ⟨u, by rw [exec, ht, Option.bind_some, hu], hR'⟩

theorem exec_invariant {step : σ → α → Option σ} {P : α → Prop} {I : σ → Prop}
    (hstep : ∀ s a t, I s → P a → step s a = some t → I t) :
    ∀ {as : List α} {s t : σ}, (∀ a ∈ as, P a) → I s → exec step s as = some t → I t
  | [], s, t, _, hI, h => by
    rw [exec, Option.some.injEq] at h
    rw [← h]
    exact hI
  | a :: as, s, t, hP, hI, h => by
    rw [exec] at h
    obtain ⟨u, hu, h⟩ := Option.bind_eq_some_iff.mp h
    exact exec_invariant hstep (fun b hb => hP b (List.mem_cons_of_mem a hb))
      (hstep s a u hI (hP a (List.mem_cons_self ..)) hu) h

theorem Run.of_exec {step : σ → α → Option σ} {ok : σ → α → Prop} : ∀ {as : List α} {s t : σ},
    exec step s as = some t → AllOk step ok s as → Run step ok s t
  | [], s, t, h, _ => by
    rw [exec, Option.some.injEq] at h
    rw [h]
    exact Run.refl
  | a :: as, s, t, h, ⟨hok, hall⟩ => by
    rw [exec] at h
    obtain ⟨u, hu, ht⟩ := Option.bind_eq_some_iff.mp h
    exact (Run.single hok hu).trans (Run.of_exec ht (hall u hu))

end Schemes
