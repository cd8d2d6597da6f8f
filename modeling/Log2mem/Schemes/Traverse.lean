import Mathlib.Data.List.Basic

/-! Partial computations, one after another and along a list.

    A traversal returns as soon as every visit does; its result is then the pure traversal of the
    visits' results, and conversely a traversal that returned has returned at every visit. -/

namespace Schemes

variable {α β : Type*}

theorem mapM_eq_some {f : α → Option β} {g : α → β} : ∀ {l : List α},
    (∀ x ∈ l, f x = some (g x)) → l.mapM f = some (l.map g)
  | [], _ => rfl
  | x :: l, h => by
    simp [List.mapM_cons, h x (List.mem_cons_self ..),
      mapM_eq_some fun y hy => h y (List.mem_cons_of_mem x hy)]

theorem foldlM_eq_some {f : β → α → Option β} {g : β → α → β} : ∀ {l : List α} {b : β},
    (∀ b, ∀ x ∈ l, f b x = some (g b x)) → l.foldlM f b = some (l.foldl g b)
  | [], _, _ => rfl
  | x :: l, b, h => by
    rw [List.foldlM_cons, h b x (List.mem_cons_self ..), Option.bind_eq_bind, Option.bind_some,
      List.foldl_cons]
    exact foldlM_eq_some fun b y hy => h b y (List.mem_cons_of_mem x hy)

/-- A traversal returns exactly when every visit does. -/
theorem mapM_some_iff {f : α → Option β} {l : List α} :
    (∃ bs, l.mapM f = some bs) ↔ ∀ x ∈ l, ∃ b, f x = some b := by
  induction l with
  | nil => exact ⟨fun _ x hx => absurd hx (by simp), fun _ => ⟨[], rfl⟩⟩
  | cons a l ih =>
    rw [List.forall_mem_cons, ← ih, List.mapM_cons]
    constructor
    · rintro ⟨bs, hbs⟩
      obtain ⟨b, hb, hbs⟩ := Option.bind_eq_some_iff.mp hbs
      obtain ⟨bs', hbs', -⟩ := Option.bind_eq_some_iff.mp hbs
      exact ⟨⟨b, hb⟩, bs', hbs'⟩
    · rintro ⟨⟨b, hb⟩, bs, hbs⟩
      exact ⟨b :: bs, by rw [hb, hbs]; rfl⟩

/-! ### Parts that are left out -/

theorem mapM_nothing {ι β : Type} {visit : ι → Option (List β)} {l : List ι}
    (h : ∀ i ∈ l, visit i = some []) : ∃ found, l.mapM visit = some found ∧ found.flatten = [] := by
  refine ⟨_, mapM_eq_some h, List.flatten_eq_nil_iff.mpr fun text htext => ?_⟩
  obtain ⟨i, -, rfl⟩ := List.mem_map.mp htext
  rfl

section Omitted
variable {a b : α → List β} {is : List α}

theorem length_flatten_le (h : ∀ i ∈ is, a i = b i ∨ a i = []) :
    (is.map a).flatten.length ≤ (is.map b).flatten.length := by
  induction is with
  | nil => exact Nat.le_refl _
  | cons i is ih =>
    have hrest := ih fun j hj => h j (List.mem_cons_of_mem i hj)
    simp only [List.map_cons, List.flatten_cons, List.length_append]
    rcases h i (List.mem_cons_self ..) with he | he <;> rw [he]
    · omega
    · rw [List.length_nil]
      omega

/-- A text from which parts may have been left out is complete exactly when none was. -/
theorem flatten_eq_iff (h : ∀ i ∈ is, a i = b i ∨ a i = []) :
    (is.map a).flatten = (is.map b).flatten ↔ ∀ i ∈ is, a i = b i := by
  induction is with
  | nil => simp
  | cons i is ih =>
    have hrest : ∀ j ∈ is, a j = b j ∨ a j = [] := fun j hj => h j (List.mem_cons_of_mem i hj)
    rw [List.forall_mem_cons, ← ih hrest, List.map_cons, List.map_cons, List.flatten_cons,
      List.flatten_cons]
    rcases h i (List.mem_cons_self ..) with he | he
    · rw [he, List.append_right_inj]
      exact ⟨fun heq => ⟨rfl, heq⟩, fun heq => heq.2⟩
    · constructor
      · intro heq
        have hlen := congrArg List.length heq
        have hle := length_flatten_le hrest
        rw [he, List.nil_append, List.length_append] at hlen
        have hb : b i = [] := List.length_eq_zero_iff.mp (by omega)
        rw [he, hb, List.nil_append, List.nil_append] at heq
        exact ⟨by rw [he, hb], heq⟩
      · rintro ⟨hi, heq⟩
        rw [hi, heq]

end Omitted

/-! ### One computation after another -/

theorem bind_some_iff.{u} {α β : Type u} {x : Option α} (k : α → β) :
    (∃ y, (x >>= fun a => pure (k a)) = some y) ↔ ∃ a, x = some a := by
  cases x with
  | none => simp
  | some a => simp

/-- A computation that reads more returns the same. -/
theorem bind_mono.{u} {α β : Type u} {x y : Option α} {k : α → Option β} {z : β}
    (hxy : ∀ a, x = some a → y = some a) (h : (x >>= k) = some z) : (y >>= k) = some z := by
  obtain ⟨a, ha, hz⟩ := Option.bind_eq_some_iff.mp h
  rw [hxy a ha]
  exact hz

end Schemes
