import Mathlib.Data.List.Basic

/-! A register that is initialised once and may be set at any time.

    The first initialisation stores its value and its label and marks the register; later ones do
    nothing, so that a program that is started again does not undo what was set meanwhile. Setting
    stores a value and nothing else. What a history leaves is read off the history itself.

        set a   set b   init k ℓ   set c   init k' ℓ'   set d
                        └ label ℓ                       └ value d      -/

namespace Schemes

variable {V L : Type*}

/-- An operation on the register. -/
inductive LatchOp (V L : Type*) where
  | init (value : V) (label : L)
  | set (value : V)

/-- The register; `label` is the label of the first initialisation, when there was one. -/
structure Latch (V L : Type*) where
  value : V
  label : Option L
  used : Bool

/-- The value an operation sets. -/
def LatchOp.setting : LatchOp V L → Option V
  | init .. => none
  | set value => some value

/-- The value that was set last. -/
def lastSet (ops : List (LatchOp V L)) : Option V := (ops.filterMap LatchOp.setting).getLast?

/-- The first initialisation: its value, its label and the operations after it. -/
def firstInit : List (LatchOp V L) → Option (V × L × List (LatchOp V L))
  | [] => none
  | .init value label :: ops => some (value, label, ops)
  | .set _ :: ops => firstInit ops

/-- What a history leaves in a register that held `value`. -/
def finalValue (value : V) (ops : List (LatchOp V L)) : V :=
  match firstInit ops with
  | some (first, _, after) => (lastSet after).getD first
  | none => (lastSet ops).getD value

/-- The label of the first initialisation. -/
def firstLabel (ops : List (LatchOp V L)) : Option L := (firstInit ops).map fun k => k.2.1

namespace Latch

/-- One operation. -/
def step (c : Latch V L) : LatchOp V L → Latch V L
  | .init value label => if c.label.isSome then c else ⟨value, some label, true⟩
  | .set value => { c with value, used := true }

/-- A register nothing was done to. -/
def fresh (value : V) : Latch V L := ⟨value, none, false⟩

theorem lastSet_cons_init (value : V) (label : L) (ops : List (LatchOp V L)) :
    lastSet (.init value label :: ops) = lastSet ops := rfl

theorem lastSet_cons_set (value : V) (ops : List (LatchOp V L)) :
    lastSet (.set value :: ops) = some ((lastSet ops).getD value) := by
  simp [lastSet, LatchOp.setting, List.getLast?_cons]

/-- An initialised register only takes what is set. -/
theorem run_initialised {c : Latch V L} {label : L} (hlabel : c.label = some label)
    (hused : c.used = true) (ops : List (LatchOp V L)) :
    ops.foldl step c = ⟨(lastSet ops).getD c.value, some label, true⟩ := by
  induction ops generalizing c with
  | nil =>
    cases c
    simp_all [lastSet]
  | cons op ops ih =>
    cases op with
    | init value label' =>
      have hskip : c.step (.init value label') = c := by simp [step, hlabel]
      rw [List.foldl_cons, hskip, ih hlabel hused, lastSet_cons_init]
    | set value =>
      rw [List.foldl_cons, lastSet_cons_set, ih (c := c.step (.set value)) hlabel rfl]
      rfl

/-- LATCH: what a history leaves is the last value set after the first initialisation, or that
    initialisation's own, and its label; without one it is the last value set. -/
theorem run_eq (value : V) (ops : List (LatchOp V L)) : ops.foldl step (fresh value) =
    ⟨finalValue value ops, firstLabel ops, !ops.isEmpty⟩ := by
  suffices h : ∀ (c : Latch V L), c.label = none → ops.foldl step c =
      ⟨finalValue c.value ops, firstLabel ops, c.used || !ops.isEmpty⟩ by
    exact h (fresh value) rfl
  induction ops with
  | nil =>
    intro c hc
    cases c
    simp_all [finalValue, firstLabel, firstInit, lastSet]
  | cons op ops ih =>
    intro c hc
    rw [List.foldl_cons]
    cases op with
    | init first label =>
      have hinit : c.step (.init first label) = ⟨first, some label, true⟩ := by simp [step, hc]
      rw [hinit, run_initialised rfl rfl]
      simp [finalValue, firstLabel, firstInit]
    | set v =>
      rw [ih (c.step (.set v)) hc]
      have hvalue : finalValue c.value (.set v :: ops) = finalValue v ops := by
        simp only [finalValue, firstInit, lastSet_cons_set]
        cases firstInit ops <;> simp
      simp [hvalue, firstLabel, firstInit, step]

/-- APPEND: the first label of a history that goes on. -/
theorem firstLabel_append (ops ops' : List (LatchOp V L)) :
    firstLabel (ops ++ ops') = (firstLabel ops).or (firstLabel ops') := by
  induction ops with
  | nil => rfl
  | cons op ops ih =>
    cases op with
    | init value label => rfl
    | set value => exact ih

theorem step_label {c : Latch V L} {ops : List (LatchOp V L)} (hc : c.label = firstLabel ops)
    (op : LatchOp V L) : (c.step op).label = firstLabel (ops ++ [op]) := by
  rw [firstLabel_append, ← hc]
  cases op with
  | init value label => cases hl : c.label <;> simp [step, hl, firstLabel, firstInit]
  | set value => cases hl : c.label <;> simp [step, hl, firstLabel, firstInit]

theorem step_used {c : Latch V L} (op : LatchOp V L) (hc : c.label.isSome → c.used = true) :
    (c.step op).used = true := by
  cases op with
  | init value label =>
    by_cases hl : c.label.isSome
    · rw [step, if_pos hl]
      exact hc hl
    · rw [step, if_neg hl]
  | set value => rfl

end Latch

end Schemes
