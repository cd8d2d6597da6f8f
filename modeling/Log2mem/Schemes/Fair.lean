import Mathlib.Order.Nat
import Log2mem.Schemes.Runs

/-! Infinite runs of a step function, and what happens in them under weak fairness.

    A behaviour takes one action at an instant, or rests. Weak fairness towards a process: when it waits
    from some instant on, one of its actions is taken. What must happen is chained from single hand-overs.

        P ──(others)──▶ P        P ──(mine)──▶ Q        ⟹   P leads to Q
        P at rank r leads to Q, or to P at a lower rank   ⟹   P leads to Q -/

namespace Schemes

variable {σ α : Type*}

/-- An infinite run; at an instant without an action the system rests. -/
structure Behaviour (step : σ → α → Option σ) where
  state : ℕ → σ
  act : ℕ → Option α
  next : ∀ n, (act n = none ∧ state (n + 1) = state n) ∨
    ∃ a, act n = some a ∧ step (state n) a = some (state (n + 1))

namespace Behaviour

variable {step : σ → α → Option σ} (b : Behaviour step)

/-- Weak fairness: a process that waits from some instant on takes one of its actions. -/
def Fair (waits : σ → Prop) (mine : α → Prop) : Prop :=
  ∀ n, (∀ m, n ≤ m → waits (b.state m)) → ∃ m a, n ≤ m ∧ b.act m = some a ∧ mine a

/-- Whenever `P` holds, `Q` holds then or later. -/
def LeadsTo (P Q : σ → Prop) : Prop := ∀ n, P (b.state n) → ∃ m, n ≤ m ∧ Q (b.state m)

variable {b} {P Q R : σ → Prop}

theorem run (b : Behaviour step) (n : ℕ) : Run step (fun _ _ => True) (b.state 0) (b.state n) := by
  induction n with
  | zero => exact .refl
  | succ n ih =>
    rcases b.next n with ⟨-, he⟩ | ⟨a, -, hs⟩
    · rw [he]
      exact ih
    · exact ih.tail trivial hs

/-- What holds at the start and is kept by every step holds at every instant. -/
theorem invariant {I : σ → Prop} (h0 : I (b.state 0))
    (hstep : ∀ s a t, I s → step s a = some t → I t) (n : ℕ) : I (b.state n) :=
  (b.run n).invariant h0 fun s a t hI _ hs => hstep s a t hI hs

namespace LeadsTo

theorem of_imp (h : ∀ n, P (b.state n) → Q (b.state n)) : b.LeadsTo P Q := fun n hp =>
  ⟨n, le_refl n, h n hp⟩

theorem trans (h : b.LeadsTo P Q) (h' : b.LeadsTo Q R) : b.LeadsTo P R := fun n hp => by
  obtain ⟨m, hm, hq⟩ := h n hp
  obtain ⟨l, hl, hr⟩ := h' m hq
  exact ⟨l, hm.trans hl, hr⟩

/-- HAND-OVER: a process that waits in `P`, where the others keep `P` unless `Q` comes about, and whose own
    action brings about `Q`. -/
theorem of_fair {waits : σ → Prop} {mine : α → Prop} {I : σ → Prop} (hI : ∀ n, I (b.state n))
    (hfair : b.Fair waits mine) (hwaits : ∀ s, P s → waits s)
    (hkeep : ∀ s a t, I s → P s → step s a = some t → ¬ mine a → P t ∨ Q t)
    (hact : ∀ s a t, I s → P s → step s a = some t → mine a → Q t) : b.LeadsTo P Q := by
  intro n hp
  by_contra hnever
  have hnot : ∀ m, n ≤ m → ¬ Q (b.state m) := fun m hm hq => hnever ⟨m, hm, hq⟩
  -- until `Q` comes about `P` stays, so the process waits for ever and is let go
  have hstay : ∀ d, P (b.state (n + d)) := fun d => by
    induction d with
    | zero => exact hp
    | succ d ih =>
      rcases b.next (n + d) with ⟨-, he⟩ | ⟨a, -, hs⟩
      · rw [← Nat.add_assoc, he]
        exact ih
      · by_cases hmine : mine a
        · exact absurd (hact _ a _ (hI _) ih hs hmine) (hnot (n + d + 1) (by omega))
        · exact (hkeep _ a _ (hI _) ih hs hmine).resolve_right (hnot (n + d + 1) (by omega))
  have hp' : ∀ m, n ≤ m → P (b.state m) := fun m hm => by
    have h := hstay (m - n)
    rwa [Nat.add_sub_cancel' hm] at h
  obtain ⟨m, a, hm, ha, hmine⟩ := hfair n fun m hm => hwaits _ (hp' m hm)
  rcases b.next m with ⟨hn, -⟩ | ⟨a', ha', hs⟩
  · rw [ha] at hn
    exact absurd hn (by simp)
  · rw [ha, Option.some.injEq] at ha'
    subst ha'
    exact hnot (m + 1) (by omega) (hact _ a _ (hI m) (hp' m hm) hs hmine)

/-- RANK: what leads to `Q` or to a lower rank leads to `Q`. -/
theorem of_rank (rank : σ → ℕ)
    (h : ∀ r, b.LeadsTo (fun s => P s ∧ rank s = r) (fun s => Q s ∨ (P s ∧ rank s < r))) :
    b.LeadsTo P Q := by
  have hall : ∀ r n, P (b.state n) → rank (b.state n) = r → ∃ m, n ≤ m ∧ Q (b.state m) := fun r => by
    induction r using Nat.strongRecOn with
    | ind r ih =>
      intro n hp hr
      obtain ⟨m, hm, hq | ⟨hp', hlt⟩⟩ := h r n ⟨hp, hr⟩
      · exact ⟨m, hm, hq⟩
      · obtain ⟨l, hl, hq⟩ := ih _ hlt m hp' rfl
        exact ⟨l, hm.trans hl, hq⟩
  exact fun n hp => hall _ n hp rfl

end LeadsTo

section Finite

variable {s t : σ} {as : List α}

theorem exec_concat (step : σ → α → Option σ) (a : α) : ∀ (s : σ) (as : List α),
    exec step s (as ++ [a]) = (exec step s as).bind fun t => step t a
  | s, [] => by simp [exec]
  | s, b :: as => by
    rw [List.cons_append, exec, exec, Option.bind_assoc]
    exact congrArg _ (funext fun t => exec_concat step a t as)

theorem exec_take_some (h : exec step s as = some t) (n : ℕ) : ∃ u, exec step s (as.take n) = some u := by
  induction as generalizing s n with
  | nil => exact ⟨s, by simp [exec]⟩
  | cons a as ih =>
    cases n with
    | zero => exact ⟨s, rfl⟩
    | succ n =>
      rw [exec] at h
      obtain ⟨u, hu, h⟩ := Option.bind_eq_some_iff.mp h
      obtain ⟨v, hv⟩ := ih h n
      exact ⟨v, by rw [List.take_succ_cons, exec, hu, Option.bind_some, hv]⟩

/-- An executed list, and rest ever after. -/
def ofExec (h : exec step s as = some t) : Behaviour step where
  state n := (exec step s (as.take n)).getD t
  act n := as[n]?
  next n := by
    obtain ⟨u, hu⟩ := exec_take_some h n
    obtain ⟨v, hv⟩ := exec_take_some h (n + 1)
    rw [hu, hv, Option.getD_some, Option.getD_some]
    by_cases hn : n < as.length
    · rw [List.take_add_one, List.getElem?_eq_getElem hn, Option.toList_some, exec_concat, hu,
        Option.bind_some] at hv
      exact Or.inr ⟨as[n], List.getElem?_eq_getElem hn, hv⟩
    · have hle : as.length ≤ n := Nat.le_of_not_lt hn
      rw [List.take_of_length_le (Nat.le_succ_of_le hle)] at hv
      rw [List.take_of_length_le hle, hv, Option.some.injEq] at hu
      exact Or.inl ⟨List.getElem?_eq_none hle, hu⟩

@[simp] theorem ofExec_zero (h : exec step s as = some t) : (ofExec h).state 0 = s := by
  simp [ofExec, exec]

theorem ofExec_rest (h : exec step s as = some t) {n : ℕ} (hn : as.length ≤ n) :
    (ofExec h).state n = t := by
  simp [ofExec, List.take_of_length_le hn, h]

/-- A process that does not wait at the end was treated fairly. -/
theorem ofExec_fair (h : exec step s as = some t) {waits : σ → Prop} (mine : α → Prop) (hend : ¬ waits t) :
    (ofExec h).Fair waits mine := fun n hall => by
  have hwait := hall (max n as.length) (le_max_left ..)
  rw [ofExec_rest h (le_max_right ..)] at hwait
  exact absurd hwait hend

end Finite

end Behaviour

end Schemes
