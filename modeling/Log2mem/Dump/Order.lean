import Log2mem.Dump.Rows
import Log2mem.Ring.Isolation

/-! The order in which `print_rows` meets the rows of a ring at rest.

    The stored ids are 32 bits wide. While they do not wrap within the ring the lowest one is the
    oldest row's and the visit is in acquisition order; once they do, the visit starts at the row that
    got id 0 and the older rows, whose ids are numerically higher, come last.

        acquisitions   2³² - 2   2³² - 1 │ 2³²   2³² + 1
        stored ids      …FFFE     …FFFF  │  0       1        printed: 2³², 2³² + 1, 2³² - 2, 2³² - 1 -/

namespace Log2mem
open Schemes

/-- What the visit prints for acquisition `k`. -/
def rowLines (G : Geometry) (g : Globals) (f : Printf) (m : Mem) (rows : ℕ → List Rec) (k : ℕ) :
    List Printed :=
  if recFormat.total (rows k) = 0 then []
  else [⟨G.slot (k % G.numRows), rowLine g f m (G.slot (k % G.numRows)) (rows k)⟩]

theorem Geometry.numRows_le (G : Geometry) : G.numRows ≤ 4294967296 :=
  Nat.le_of_dvd (by omega) G.numRows_dvd

section Rest
variable {G : Geometry} {m : Mem} {n : ℕ} {rows : ℕ → List Rec}

/-- The lowest stored id is that of the row at the wrap point. -/
theorem AtRest.lowestRowid_eq (h : AtRest G m n rows) :
    lowestRowid G.handle m = some (wrapPoint 4294967296 G.numRows n % 4294967296) := by
  have hpos := G.numRows_pos
  have hle := G.numRows_le
  obtain ⟨a, ha, hmin, j, hj, hja⟩ := h.mapped.lowestRowid_spec
  rw [ha]
  refine congrArg some (le_antisymm ?_ ?_)
  · rcases Nat.eq_zero_or_pos n with rfl | hn
    · have := hmin 0 hpos
      rw [(h.blank 0 (le_refl 0) hpos).1] at this
      omega
    · have hlast := Nat.div_mul_le_self (n - 1) 4294967296
      have hret : Retained G.numRows n (wrapPoint 4294967296 G.numRows n) :=
        ⟨max_lt (by omega) (by omega), by have := le_wrapPoint 4294967296 G.numRows n; omega⟩
      rw [← h.id _ hret]
      exact hmin _ (Nat.mod_lt _ hpos)
  · by_cases hblank : n ≤ j
    · rw [wrapPoint_eq_zero hle (by omega)]
      exact Nat.zero_le _
    · obtain ⟨k, hk, rfl⟩ := exists_window_slot hj (by omega : j < n)
      rw [hja, h.id k (mem_window.mp hk)]
      exact wrapPoint_lowest (by omega) hle (mem_window.mp hk)

theorem Geometry.round_slot (G : Geometry) (w i : ℕ) :
    toU32 ((w % 4294967296 : ℕ) + (i : ℕ)) &&& toU32 ((G.numRows : ℤ) - 1) = (w + i) % G.numRows := by
  have hpos := G.numRows_pos
  have hle := G.numRows_le
  obtain ⟨b, -, hN⟩ := G.numRows_pow2
  have hmask : toU32 ((G.numRows : ℤ) - 1) = G.numRows - 1 := by
    have := toU32_of_range (x := (G.numRows : ℤ) - 1) (by omega) (by omega)
    omega
  have hsum : toU32 ((w % 4294967296 : ℕ) + (i : ℕ)) = (w + i) % 4294967296 := by
    rw [← Nat.cast_add, toU32_natCast, Nat.mod_add_mod]
  rw [hmask, and_mask ⟨b, hN⟩, hsum, G.wrapped_slot]

/-- Round `i` of the visit prints a retained row, or a blank slot. -/
theorem AtRest.printRow_round (h : AtRest G m n rows) (g : Globals) (f : Printf) {fuel : ℕ}
    (hfuel : G.rowLen < fuel) {i : ℕ} (hi : i < G.numRows) :
    printRow g f fuel (G.slot ((wrapPoint 4294967296 G.numRows n + i) % G.numRows)) m =
      some (if wrapPoint 4294967296 G.numRows n + i < n then
          rowLines G g f m rows (wrapPoint 4294967296 G.numRows n + i)
        else if G.numRows ≤ n then
          rowLines G g f m rows (wrapPoint 4294967296 G.numRows n + i - G.numRows)
        else []) := by
  have hlo := le_wrapPoint 4294967296 G.numRows n
  have hhi := wrapPoint_le 4294967296 G.numRows n
  have hshort := wrapPoint_eq_zero G.numRows_le (n := n)
  have hline : ∀ k, Retained G.numRows n k →
      printRow g f fuel (G.slot (k % G.numRows)) m = some (rowLines G g f m rows k) := fun k hk =>
    (h.holds k hk).printRow_eq h.mapped (Nat.mod_lt _ G.numRows_pos) (h.typed k hk) g f hfuel
  generalize wrapPoint 4294967296 G.numRows n = w at hlo hhi hshort ⊢
  split
  · exact hline _ ⟨by omega, by omega⟩
  · split
    · have hk := hline (w + i - G.numRows) ⟨by omega, by omega⟩
      rwa [← Nat.mod_eq_sub_mod (by omega)] at hk
    · rw [hshort (by omega), Nat.zero_add, Nat.mod_eq_of_lt hi]
      exact h.mapped.printRow_blank hi (h.blank i (by omega) hi).2 g f fuel

/-- The visit prints the rows from the wrap point on, and the older ones after them. -/
theorem AtRest.printRows_eq (h : AtRest G m n rows) (g : Globals) (f : Printf) {fuel : ℕ}
    (hfuel : G.rowLen < fuel) : printRows g f fuel G.handle m =
      some ((visitOrder 4294967296 G.numRows n).flatMap (rowLines G g f m rows)) := by
  have hsize := h.mapped.size_ge
  have hrounds := flatMap_rounds G.numRows_le (n := n) (rowLines G g f m rows)
  simp only [printRows, h.mapped.header.hdrNumRows_eq (show 52 ≤ m.size by omega),
    h.mapped.header.hdrRowLen_eq (show 52 ≤ m.size by omega), h.lowestRowid_eq,
    Option.bind_eq_bind, Option.bind_some, Option.pure_def]
  rw [show G.cfg.numRows.toNat = G.numRows from rfl, show G.cfg.rowLen.toNat = G.rowLen from rfl,
    mapM_eq_some fun i hi => by
      rw [G.round_slot, G.dumpRowAddr_eq (Nat.mod_lt _ G.numRows_pos)]
      exact h.printRow_round g f hfuel (List.mem_range.mp hi),
    Option.bind_some, ← List.flatMap_def, hrounds]

end Rest

/-! ### From runs to rings at rest -/

/-- Every group the owner has offered consists of well-typed records. -/
def Owner.Typed (o : Owner) : Prop := ∀ g ∈ o.done, ∀ x ∈ g, x.WellTyped

theorem Job.wellTyped (j : Job) : ∀ x ∈ j.recs, x.WellTyped := by
  cases j with
  | push p => exact p.wellTyped
  | event e => exact e.wellTyped

theorem Owner.step_done {o o' : Owner} {m m' : Mem} (hs : o.step m = some (o', m')) :
    o'.done = o.done ∨ ∃ j : Job, o'.done = o.done ++ [j.recs] := by
  cases hpc : o.pc with
  | ready =>
    cases htd : o.todo with
    | nil => simp [Owner.step, hpc, htd] at hs
    | cons j js =>
      simp only [Owner.step, hpc, htd, Option.bind_eq_bind, Option.bind_eq_some_iff] at hs
      obtain ⟨b, -, hs⟩ := hs
      cases b <;> simp only [Bool.false_eq_true, if_true, if_false, Option.pure_def, Option.some.injEq,
        Prod.mk.injEq] at hs <;> obtain ⟨rfl, rfl⟩ := hs
      · exact Or.inr ⟨j, rfl⟩
      · exact Or.inl rfl
  | store j d =>
    simp only [Owner.step, hpc, Option.bind_eq_bind, Option.bind_eq_some_iff, Option.pure_def,
      Option.some.injEq, Prod.mk.injEq] at hs
    obtain ⟨_, -, rfl, -⟩ := hs
    exact Or.inr ⟨j, rfl⟩
  | finished => simp [Owner.step, hpc] at hs
  | stampTid | stampTs | stampId | reset | location | addr | write | load =>
    simp only [Owner.step, hpc, Option.bind_eq_bind, Option.bind_eq_some_iff, Option.pure_def,
      Option.some.injEq, Prod.mk.injEq] at hs
    obtain ⟨_, -, rfl, -⟩ := hs
    exact Or.inl rfl

theorem typed_run {h : Handle} {ok : State → Act → Prop} {m₀ : Mem} {s : State}
    (hrun : Run (step h) ok ⟨m₀, []⟩ s) : ∀ o ∈ s.owners, o.Typed := by
  refine hrun.invariant (I := fun s => ∀ o ∈ s.owners, o.Typed) (by simp) fun t a u ht _ hs => ?_
  have hset : ∀ (k : ℕ) (o : Owner), o.Typed → ∀ o' ∈ t.owners.set k o, o'.Typed := fun k o ho o' ho' => by
    rcases List.mem_or_eq_of_mem_set ho' with h' | rfl
    · exact ht o' h'
    · exact ho
  cases a with
  | acquire start env =>
    obtain ⟨m, rowid, r, -, -, rfl⟩ := step_acquire hs
    intro o ho
    rcases List.mem_append.mp ho with ho | ho
    · exact ht o ho
    · rw [List.mem_singleton.mp ho]
      simp [Owner.Typed]
  | advance k =>
    obtain ⟨o, o', m, hk, hst, rfl⟩ := step_advance hs
    have ho := ht o (List.mem_of_getElem? hk)
    refine hset k o' ?_
    rcases Owner.step_done hst with he | ⟨j, he⟩
    · rw [Owner.Typed, he]; exact ho
    · rw [Owner.Typed, he]
      intro g hg
      rcases List.mem_append.mp hg with hg | hg
      · exact ho g hg
      · rw [List.mem_singleton.mp hg]; exact j.wellTyped
  | append k a =>
    obtain ⟨o, hk, -, -, rfl⟩ := step_append hs
    exact hset k _ (ht o (List.mem_of_getElem? hk))
  | finish k =>
    obtain ⟨o, hk, -, -, rfl⟩ := step_finish hs
    exact hset k _ (ht o (List.mem_of_getElem? hk))

/-- The records stored by acquisition `k`. -/
def State.kept (G : Geometry) (s : State) (k : ℕ) : List Rec :=
  match s.owners[k]? with
  | some o => G.fill o.done
  | none => []

section Order
variable {G : Geometry} {s : State}

theorem Ring.atRest (hr : Ring G s) (hq : Quiet s) (ht : ∀ o ∈ s.owners, o.Typed) :
    AtRest G s.mem s.owners.length (s.kept G) := by
  have hget : ∀ k, Retained G.numRows s.owners.length k → ∃ o, s.owners[k]? = some o ∧ o ∈ s.owners ∧
      Stored G s.mem (G.slot (k % G.numRows)) (k % 4294967296) o.done ∧ s.kept G k = G.fill o.done :=
    fun k ⟨hlt, hret⟩ => by
      have hk := List.getElem?_eq_getElem hlt
      have ho := List.getElem_mem hlt
      exact ⟨_, hk, ho, hr.stored hk hret (hq _ ho), by rw [State.kept, hk]⟩
  refine ⟨hr.mapped, fun k hk => ?_, fun k hk => ?_, fun k hk x hx => ?_, hr.blank⟩
  · obtain ⟨o, -, -, hst, -⟩ := hget k hk
    exact hst.id
  · obtain ⟨o, -, -, hst, he⟩ := hget k hk
    rw [he]
    exact hst.holds
  · obtain ⟨o, -, ho, -, he⟩ := hget k hk
    rw [he] at hx
    obtain ⟨g, hg, hxg⟩ := recFormat.mem_of_mem_fit hx
    exact ht o ho g hg x hxg

/-- The slot of acquisition `k` has data. -/
def HasData (G : Geometry) (m : Mem) (k : ℕ) : Bool := m.word (G.slot (k % G.numRows) + 20) ≠ 0

/-- `print_rows` prints the retained rows with data each once, the oldest first and the newest last. -/
def OldestFirst (G : Geometry) (s : State) : Prop :=
  ∀ (g : Globals) (f : Printf) (fuel : ℕ), G.rowLen < fuel →
    ∃ lines, printRows g f fuel G.handle s.mem = some lines ∧
      lines.map Printed.row = ((window G.numRows s.owners.length).filter (HasData G s.mem)).map
        fun k => G.slot (k % G.numRows)

theorem map_inj_on {α β : Type*} {f : α → β} : ∀ {l l' : List α},
    (∀ x ∈ l, ∀ y ∈ l', f x = f y → x = y) → l.map f = l'.map f → l = l'
  | [], [], _, _ => rfl
  | [], _ :: _, _, h => by simp at h
  | _ :: _, [], _, h => by simp at h
  | x :: l, y :: l', hf, h => by
    rw [List.map_cons, List.map_cons, List.cons.injEq] at h
    rw [hf x (List.mem_cons_self ..) y (List.mem_cons_self ..) h.1,
      map_inj_on (fun a ha b hb => hf a (List.mem_cons_of_mem _ ha) b (List.mem_cons_of_mem _ hb)) h.2]

theorem AtRest.printed_rows {m : Mem} {n : ℕ} {rows : ℕ → List Rec} (h : AtRest G m n rows)
    (g : Globals) (f : Printf) : ∀ {ks : List ℕ}, (∀ k ∈ ks, Retained G.numRows n k) →
    (ks.flatMap (rowLines G g f m rows)).map Printed.row =
      (ks.filter (HasData G m)).map fun k => G.slot (k % G.numRows)
  | [], _ => rfl
  | k :: ks, hks => by
    have hd := (h.holds k (hks k (List.mem_cons_self ..))).datalen
    have ih := h.printed_rows g f fun k' hk' => hks k' (List.mem_cons_of_mem k hk')
    rw [List.flatMap_cons, List.map_append, ih, rowLines]
    by_cases h0 : recFormat.total (rows k) = 0
    · have hno : HasData G m k = false := by simp [HasData, hd, h0]
      rw [if_pos h0, List.filter_cons_of_neg (by simp [hno])]
      rfl
    · have hyes : HasData G m k = true := by simp [HasData, hd, h0]
      rw [if_neg h0, List.filter_cons_of_pos hyes]
      rfl

/-- A quiet ring prints its rows oldest first exactly when no multiple of `2 ^ 32` separates two
    retained rows with data. -/
theorem Ring.oldestFirst_iff (hr : Ring G s) (hq : Quiet s) (ht : ∀ o ∈ s.owners, o.Typed) :
    OldestFirst G s ↔ ∀ k k', Retained G.numRows s.owners.length k →
      Retained G.numRows s.owners.length k' → HasData G s.mem k → HasData G s.mem k' →
      k / 4294967296 = k' / 4294967296 := by
  have hrest := hr.atRest hq ht
  have hvisit : ∀ k ∈ visitOrder 4294967296 G.numRows s.owners.length,
      Retained G.numRows s.owners.length k := fun k hk => mem_visitOrder.mp hk
  have hsame : OldestFirst G s ↔
      (visitOrder 4294967296 G.numRows s.owners.length).filter (HasData G s.mem) =
        (window G.numRows s.owners.length).filter (HasData G s.mem) := by
    constructor
    · intro h
      obtain ⟨lines, hl, hrows⟩ := h ⟨true, true, []⟩ quiet (G.rowLen + 1) (Nat.lt_succ_self _)
      rw [hrest.printRows_eq _ _ (Nat.lt_succ_self _), Option.some.injEq] at hl
      rw [← hl, hrest.printed_rows _ _ hvisit] at hrows
      refine map_inj_on (fun k hk k' hk' he => ?_) hrows
      exact Retained.slot_inj (hvisit k (List.mem_of_mem_filter hk))
        (mem_window.mp (List.mem_of_mem_filter hk')) (G.slot_inj he)
    · intro h g f fuel hfuel
      exact ⟨_, hrest.printRows_eq g f hfuel, by rw [hrest.printed_rows g f hvisit, h]⟩
  have hM : 0 < 4294967296 := by omega
  rw [hsame, filter_visitOrder_iff]
  constructor
  · intro h k k' hk hk' hp hp'
    rw [div_eq_of_same_side hM G.numRows_le hk hk']
    rcases h with h | h
    · exact iff_of_true (h k (mem_window.mpr hk) hp) (h k' (mem_window.mpr hk') hp')
    · exact iff_of_false (h k (mem_window.mpr hk) hp) (h k' (mem_window.mpr hk') hp')
  · intro h
    by_contra hboth
    rw [not_or] at hboth
    obtain ⟨h1, h2⟩ := hboth
    push Not at h1 h2
    obtain ⟨k, hk, hp, hge⟩ := h1
    obtain ⟨k', hk', hp', hlt⟩ := h2
    have hside := (div_eq_of_same_side hM G.numRows_le (mem_window.mp hk) (mem_window.mp hk')).mp
      (h k k' (mem_window.mp hk) (mem_window.mp hk') hp hp')
    exact absurd (hside.mpr hlt) (by omega)

end Order

/-- ORDER: after every run in which no owner was overtaken while writing, once all owners have finished,
    `print_rows` prints the retained rows with data each once and in acquisition order exactly when no
    multiple of `2 ^ 32` separates two of them. -/
theorem print_rows_oldest_first_iff {G : Geometry} {os : Os} {date : List UInt8} {h : Handle}
    {m₀ : Mem} {s : State} (hc : create os G.ps date G.config = some (h, m₀))
    (hrun : Run (step h) (Timely G.numRows) ⟨m₀, []⟩ s) (hq : Quiet s) :
    OldestFirst G s ↔ ∀ k k', Retained G.numRows s.owners.length k →
      Retained G.numRows s.owners.length k' → HasData G s.mem k → HasData G s.mem k' →
      k / 4294967296 = k' / 4294967296 :=
  (Ring.run hc hrun).2.oldestFirst_iff hq (typed_run hrun)

/-- Three rows on a ring of two are printed oldest first. -/
theorem print_rows_oldest_first_three : ∃ s : State, s.owners.length = 3 ∧ OldestFirst twoRows s := by
  obtain ⟨m₀, hc, -⟩ := twoRows.created []
  obtain ⟨s, hrun, hlen, hq, -⟩ := exists_quiet hc ⟨1, 2, 3, 4, 5, 6⟩ 120 3
  refine ⟨s, hlen, (print_rows_oldest_first_iff hc hrun hq).mpr fun k k' hk hk' _ _ => ?_⟩
  have := hk.1
  have := hk'.1
  rw [Nat.div_eq_of_lt (by omega), Nat.div_eq_of_lt (by omega)]

/-- After `2 ^ 32 + 1` one-character rows on a ring of two, the newest row has id 0 and is printed
    first. -/
theorem print_rows_not_oldest_first : ¬ ∀ (G : Geometry) (os : Os) (date : List UInt8) (h : Handle)
    (m₀ : Mem) (s : State), create os G.ps date G.config = some (h, m₀) →
    Run (step h) (Timely G.numRows) ⟨m₀, []⟩ s → Quiet s → OldestFirst G s := by
  intro hall
  obtain ⟨m₀, hc, -⟩ := twoRows.created []
  obtain ⟨s, hrun, hlen, hq, hdone⟩ := exists_quiet hc ⟨1, 2, 3, 4, 5, 6⟩ 120 4294967297
  have hr := (Ring.run hc hrun).2
  have hN : twoRows.numRows = 2 := by decide
  have hL : twoRows.rowLen = 16 := by decide
  have hdata : ∀ k, Retained twoRows.numRows s.owners.length k → HasData twoRows s.mem k := fun k hk => by
    have hget := List.getElem?_eq_getElem hk.1
    have ho := List.getElem_mem hk.1
    have hst := hr.stored hget hk.2 (hq _ ho)
    have hd := hst.holds.datalen
    rw [hdone _ ho, Geometry.fill, hL] at hd
    simp only [HasData, hd]
    decide
  have h1 : Retained twoRows.numRows s.owners.length 4294967295 := by rw [hN, hlen]; decide
  have h2 : Retained twoRows.numRows s.owners.length 4294967296 := by rw [hN, hlen]; decide
  have heq := (hr.oldestFirst_iff hq (typed_run hrun)).mp (hall _ _ _ _ _ s hc hrun hq) _ _ h1 h2
    (hdata _ h1) (hdata _ h2)
  exact absurd heq (by decide)

end Log2mem
