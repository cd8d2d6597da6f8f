import Mathlib.Algebra.BigOperators.Group.List.Basic
import Mathlib.Tactic.Abel
import Log2mem.Schemes.Lookup
import Log2mem.Schemes.Runs

/-! Threads that execute lists of operations on a shared state, interleaved in any way.

    A step takes any thread and executes its next operation, which may expand into further operations of
    that thread. A quantity that each operation keeps, counted together with the operations it expands
    into, is kept by every interleaving: what the shared state has gained is what the threads have given
    up.

        shared ◀── a ── thread 0:  a :: as
               ◀─────── thread 1:  b :: bs          value shared + Σ weight (todo)  is constant
               ◀─────── thread 2:  []                                                    -/

namespace Schemes

variable {σ α M : Type*}

/-- A shared state and, for each thread, the operations it has still to execute. -/
structure Threads (σ α : Type*) where
  shared : σ
  todo : List (List α)

namespace Threads

section Defs
variable (micro : σ → α → Option (σ × List α))

/-- Thread `k` executes its next operation. -/
def step (s : Threads σ α) (k : ℕ) : Option (Threads σ α) :=
  match s.todo[k]? with
  | some (a :: as) => (micro s.shared a).map fun x => ⟨x.1, s.todo.set k (x.2 ++ as)⟩
  | _ => none

/-- `t` is reached from `s` by some interleaving. -/
abbrev Reaches (s t : Threads σ α) : Prop := Run (step micro) (fun _ _ => True) s t

/-- No thread has anything left to execute. -/
def Finished (s : Threads σ α) : Prop := ∀ as ∈ s.todo, as = []

/-- Every operation that a thread has still to execute satisfies `V`. -/
def Holds (V : α → Prop) (s : Threads σ α) : Prop := ∀ a ∈ s.todo.flatten, V a

/-- The total weight of what the threads have still to execute. -/
def pending [AddCommMonoid M] (w : α → M) (s : Threads σ α) : M := (s.todo.flatten.map w).sum

/-- `I` on the shared state and `V` on the operations are kept by every operation. -/
def Keeps (I : σ → Prop) (V : α → Prop) : Prop :=
  ∀ s a s' new, I s → V a → micro s a = some (s', new) → I s' ∧ ∀ b ∈ new, V b

end Defs

section Steps
variable {micro : σ → α → Option (σ × List α)} {s t : Threads σ α} {k : ℕ}

/-- STEP: one thread's first operation is replaced by what it expands into. -/
theorem step_some (h : step micro s k = some t) : ∃ before after a as s' new,
    s.todo = before ++ (a :: as) :: after ∧ micro s.shared a = some (s', new) ∧
    t = ⟨s', before ++ (new ++ as) :: after⟩ := by
  unfold step at h
  split at h
  · rename_i a as hk
    obtain ⟨⟨s', new⟩, hmicro, ht⟩ := Option.map_eq_some_iff.mp h
    obtain ⟨hlt, hget⟩ := List.getElem?_eq_some_iff.mp hk
    have hsplit : s.todo = s.todo.take k ++ (a :: as) :: s.todo.drop (k + 1) := by
      rw [← hget, List.cons_getElem_drop_succ, List.take_append_drop]
    refine ⟨s.todo.take k, s.todo.drop (k + 1), a, as, s', new, hsplit, hmicro, ?_⟩
    rw [← ht, List.set_eq_take_append_cons_drop, if_pos hlt]
  · exact absurd h (by simp)

theorem step_eq (before after : List (List α)) {a : α} (as : List α) {s' : σ} {new : List α}
    {shared : σ} (h : micro shared a = some (s', new)) :
    step micro ⟨shared, before ++ (a :: as) :: after⟩ before.length =
      some ⟨s', before ++ (new ++ as) :: after⟩ := by
  simp [step, h]

variable {I : σ → Prop} {V : α → Prop}

theorem Keeps.step (hk : Keeps micro I V) (hI : I s.shared) (hV : s.Holds V)
    (h : step micro s k = some t) : I t.shared ∧ t.Holds V := by
  obtain ⟨before, after, a, as, s', new, htodo, hmicro, rfl⟩ := step_some h
  simp only [Holds, htodo, List.flatten_append, List.flatten_cons, List.mem_append,
    List.mem_cons] at hV ⊢
  obtain ⟨hI', hnew⟩ := hk s.shared a s' new hI (hV a (by simp)) hmicro
  refine ⟨hI', fun b hb => ?_⟩
  rcases hb with hb | (hb | hb) | hb
  · exact hV b (Or.inl hb)
  · exact hnew b hb
  · exact hV b (by simp [hb])
  · exact hV b (by simp [hb])

/-- RUN: what every operation keeps holds after every interleaving. -/
theorem Keeps.run (hk : Keeps micro I V) (hI : I s.shared) (hV : s.Holds V) (h : Reaches micro s t) :
    I t.shared ∧ t.Holds V :=
  h.invariant (I := fun t => I t.shared ∧ t.Holds V) ⟨hI, hV⟩ fun _ _ _ ht _ hs =>
    hk.step ht.1 ht.2 hs

/-- CONSERVED: a value that every operation keeps, together with the weight of what it expands into, is
    kept with the weight of all that is still to be executed. -/
theorem Keeps.conserved [AddCommMonoid M] (value : σ → M) (weight : α → M) (hk : Keeps micro I V)
    (hw : ∀ s a s' new, I s → V a → micro s a = some (s', new) →
      value s' + (new.map weight).sum = value s + weight a)
    (hI : I s.shared) (hV : s.Holds V) (h : Reaches micro s t) :
    value t.shared + t.pending weight = value s.shared + s.pending weight := by
  induction h with
  | refl => rfl
  | @tail t u k hrun _ hs ih =>
    rw [← ih]
    obtain ⟨hI', hV'⟩ := hk.run hI hV hrun
    obtain ⟨before, after, a, as, s', new, htodo, hmicro, rfl⟩ := step_some hs
    have ha : V a := hV' a (by simp [htodo])
    have hkeep := hw t.shared a s' new hI' ha hmicro
    simp only [pending, htodo, List.flatten_append, List.flatten_cons, List.map_append, List.map_cons,
      List.sum_append, List.sum_cons]
    calc value s' + ((before.flatten.map weight).sum +
          ((new.map weight).sum + (as.map weight).sum + (after.flatten.map weight).sum))
        = (value s' + (new.map weight).sum) + ((before.flatten.map weight).sum +
          ((as.map weight).sum + (after.flatten.map weight).sum)) := by abel
      _ = (value t.shared + weight a) + ((before.flatten.map weight).sum +
          ((as.map weight).sum + (after.flatten.map weight).sum)) := by rw [hkeep]
      _ = value t.shared + ((before.flatten.map weight).sum +
          (weight a + (as.map weight).sum + (after.flatten.map weight).sum)) := by abel

/-- Nothing is left of the weight of threads that have finished. -/
theorem Finished.pending [AddCommMonoid M] (h : s.Finished) (weight : α → M) :
    s.pending weight = 0 := by
  have hnil : s.todo.flatten = [] := List.flatten_eq_nil_iff.mpr h
  rw [Threads.pending, hnil]
  rfl

/-- PROGRESS: where every operation can be executed, and expands into less than it was, every
    interleaving can be completed. -/
theorem Keeps.completes (hk : Keeps micro I V) (cost : α → ℕ)
    (hp : ∀ s a, I s → V a → ∃ s' new, micro s a = some (s', new) ∧ (new.map cost).sum < cost a)
    (hI : I s.shared) (hV : s.Holds V) : ∃ t, Reaches micro s t ∧ t.Finished := by
  induction hn : s.pending cost using Nat.strong_induction_on generalizing s with
  | _ n ih =>
    by_cases hfin : s.Finished
    · exact ⟨s, .refl, hfin⟩
    · obtain ⟨l, hl, hne⟩ : ∃ l ∈ s.todo, l ≠ [] := by
        simpa [Finished] using hfin
      obtain ⟨a, as, rfl⟩ := List.exists_cons_of_ne_nil hne
      obtain ⟨before, after, htodo⟩ := List.append_of_mem hl
      have ha : V a := hV a (by simp [htodo])
      obtain ⟨s', new, hmicro, hcost⟩ := hp s.shared a hI ha
      have hs : Threads.step micro s before.length = some ⟨s', before ++ (new ++ as) :: after⟩ := by
        have heq := step_eq before after as hmicro
        rwa [← htodo] at heq
      obtain ⟨hI', hV'⟩ := hk.step hI hV hs
      have hlt : (⟨s', before ++ (new ++ as) :: after⟩ : Threads σ α).pending cost < n := by
        rw [← hn]
        simp only [Threads.pending, htodo, List.flatten_append, List.flatten_cons, List.map_append,
          List.map_cons, List.sum_append, List.sum_cons]
        omega
      obtain ⟨t, hrun, hfin'⟩ := ih _ hlt hI' hV' rfl
      exact ⟨t, (Run.single trivial hs).trans hrun, hfin'⟩

theorem solo {shared s' : σ} {a : α} (as : List α) {new : List α} (h : micro shared a = some (s', new)) :
    Reaches micro ⟨shared, [a :: as]⟩ ⟨s', [new ++ as]⟩ :=
  Run.single trivial (step_eq [] [] as h)

theorem solo_done {shared s' : σ} {a : α} (as : List α) (h : micro shared a = some (s', [])) :
    Reaches micro ⟨shared, [a :: as]⟩ ⟨s', [as]⟩ := solo as h

theorem solo_last {shared s' : σ} {a : α} {new : List α} (h : micro shared a = some (s', new)) :
    Reaches micro ⟨shared, [[a]]⟩ ⟨s', [new]⟩ := by
  have hsolo := solo [] h
  rwa [List.append_nil] at hsolo

/-- AMONG: what some threads can do, they can do with others about. -/
theorem among (before after : List (List α)) (h : Reaches micro s t) :
    Reaches micro ⟨s.shared, before ++ s.todo ++ after⟩ ⟨t.shared, before ++ t.todo ++ after⟩ := by
  induction h with
  | refl => exact .refl
  | @tail t u k _ _ hs ih =>
    obtain ⟨before', after', a, as, s', new, htodo, hmicro, rfl⟩ := step_some hs
    have heq := step_eq (before ++ before') (after' ++ after) as hmicro
    rw [htodo] at ih
    simp only [List.append_assoc, List.cons_append] at ih heq ⊢
    exact ih.trans (Run.single trivial heq)

end Steps

end Threads

end Schemes
