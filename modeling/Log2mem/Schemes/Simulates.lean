import Log2mem.Schemes.Runs

/-! A system that does whatever its specification allows, and stays related to it.

    The specification is a function: it says what a request leaves, and which requests it makes sense to
    ask. The system may fail; related to the specification it does not, as long as it is asked nothing
    that is not allowed at that point.

        spec:    t ──a──▶ spec t a ──b──▶ …
                 │ R         │ R
        system:  s ──a──▶    s'    ──b──▶ …       -/

namespace Schemes

variable {σ τ α : Type*}

/-- Every request of a list is allowed when its turn comes. -/
def AllowedRun (spec : τ → α → τ) (ok : τ → α → Prop) : τ → List α → Prop
  | _, [] => True
  | t, a :: as => ok t a ∧ AllowedRun spec ok (spec t a) as

/-- What is allowed is done, and keeps system and specification related. -/
def Simulates (step : σ → α → Option σ) (spec : τ → α → τ) (ok : τ → α → Prop) (R : σ → τ → Prop) : Prop :=
  ∀ s t a, R s t → ok t a → ∃ s', step s a = some s' ∧ R s' (spec t a)

section Run
variable {step : σ → α → Option σ} {spec : τ → α → τ} {ok : τ → α → Prop} {R : σ → τ → Prop}

/-- RUN: a list of allowed requests is done, and leaves what the specification says. -/
theorem Simulates.run (h : Simulates step spec ok R) {as : List α} : ∀ {s : σ} {t : τ}, R s t →
    AllowedRun spec ok t as → ∃ s', exec step s as = some s' ∧ R s' (as.foldl spec t) := by
  induction as with
  | nil => exact fun {s t} hR _ => ⟨s, rfl, hR⟩
  | cons a as ih =>
    rintro s t hR ⟨hok, hrest⟩
    obtain ⟨s₁, e₁, hR₁⟩ := h s t a hR hok
    obtain ⟨s₂, e₂, hR₂⟩ := ih hR₁ hrest
    exact ⟨s₂, by rw [exec, e₁, Option.bind_some, e₂], hR₂⟩

end Run

end Schemes
