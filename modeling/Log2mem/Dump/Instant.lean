import Log2mem.Dump.Order

/-! The ring at any instant: what its slots hold while owners are in the middle of their accesses.

    An acquisition writes the header of its slot first, and the records of the row before it stay there
    until `datalen = 0`. From then on the slot holds the groups completed so far: a record is written
    behind `datalen` before `datalen` counts it.

        owner of k    tid ──▶ ts ──▶ id ──▶ datalen = 0 ──▶ push ──▶ push
        id            k - N          │  k
        records       of k - N                       │  []      a prefix of what is promised -/

namespace Log2mem
open Schemes

/-- The header is being written, `datalen` is still that of the row before. -/
def Pc.heading : Pc → Bool
  | .stampTid | .stampTs | .stampId | .reset => true
  | _ => false

/-- The records that the acquisition of the slot of `k` one round earlier has left. -/
def State.before (G : Geometry) (s : State) (k : ℕ) : List Rec :=
  if G.numRows ≤ k then s.kept G (k - G.numRows) else []

/-- The records in the slot of acquisition `k`. -/
def State.inSlot (G : Geometry) (s : State) (k : ℕ) : List Rec :=
  match s.owners[k]? with
  | some o => if o.pc.heading then s.before G k else G.fill o.done
  | none => []

/-- The records in slot `j`, those of the retained acquisition that has it. -/
def State.slotRecs (G : Geometry) (s : State) (j : ℕ) : List Rec :=
  match (window G.numRows s.owners.length).find? fun k => k % G.numRows = j with
  | some k => s.inSlot G k
  | none => []

/-- What is known of a slot whose header is being written: `recs` are still there. -/
structure Heading (G : Geometry) (m : Mem) (k : ℕ) (pc : Pc) (recs : List Rec) : Prop where
  holds : RowHolds G.rowLen m (G.slot (k % G.numRows)) recs
  id : pc ≠ .reset → m.word (G.slot (k % G.numRows) + 16) =
    if G.numRows ≤ k then (k - G.numRows) % 4294967296 else 0

/-- The ring, with what is in the slots whose header is being written. -/
structure Whole (G : Geometry) (s : State) : Prop where
  ring : Ring G s
  heading : ∀ k o, s.owners[k]? = some o → s.owners.length ≤ k + G.numRows → o.pc.heading = true →
    Heading G s.mem k o.pc (s.before G k)

section Step
variable {G : Geometry} {s s' : State} {m m' : Mem} {o o' : Owner} {k : ℕ} {pc : Pc} {recs : List Rec}

theorem Heading.frame {S : Set ℤ} (h : Heading G m k pc recs) (hf : Mem.Frame S m m')
    (h44 : ∀ x ∈ S, x < 44 ∨ 48 ≤ x)
    (hS : ∀ x ∈ S, x < G.slot (k % G.numRows) ∨ G.slot (k % G.numRows) + 24 + G.rowLen ≤ x) :
    Heading G m' k pc recs where
  holds := h.holds.frame hf h44 fun x hx => by have := hS x hx; omega
  id hpc := (hf.word_of_outside hS (by omega) (by omega)).trans (h.id hpc)

/-- Past the reset, a slot holds what its owner has completed. -/
theorem OwnerOk.stored (h : OwnerOk G m o) (hpc : o.pc.heading = false) :
    Stored G m o.row o.rowid o.done := by
  cases he : o.pc <;> simp only [OwnerOk, Pc.heading, he, Bool.true_eq_false] at h hpc
  case location | ready | addr | write | load | store => exact h.1
  case finished => exact h

/-- Stamps leave `datalen` and the records alone, and all but the last of them the id. -/
theorem Heading.stamp {lo hi : ℤ} (h : Heading G m k pc recs) (hf : Mem.Frame (Set.Ico lo hi) m m')
    (hlo : G.slot (k % G.numRows) ≤ lo) (hhi : hi ≤ G.slot (k % G.numRows) + 20) {pc' : Pc}
    (hid : pc' ≠ .reset → pc ≠ .reset ∧ hi ≤ G.slot (k % G.numRows) + 16) :
    Heading G m' k pc' recs where
  holds := by
    have hbase := h.holds.base
    exact h.holds.frame hf (Mem.outside_Ico (by omega)) (Mem.outside_Ico (by omega))
  id hpc := by
    obtain ⟨hpc, hle⟩ := hid hpc
    exact (hf.word_of_Ico (by omega)).trans (h.id hpc)

theorem Owner.step_heading (hr : HeadRoom m o.row) (hid : o.rowid < 4294967296)
    (hrow : o.row = G.slot (k % G.numRows)) (h : o.pc.heading = true → Heading G m k o.pc recs)
    (hs : o.step m = some (o', m')) (hpc' : o'.pc.heading = true) : Heading G m' k o'.pc recs := by
  cases hpc : o.pc with
  | stampTid =>
    obtain ⟨m₁, e, f⟩ := stampTid_spec hr o.env
    rw [hpc] at h
    simp only [Owner.step, hpc, e, Option.bind_eq_bind, Option.bind_some, Option.pure_def,
      Option.some.injEq, Prod.mk.injEq] at hs
    obtain ⟨rfl, rfl⟩ := hs
    exact (h rfl).stamp f hrow.ge (by omega) fun _ => ⟨Pc.noConfusion, by omega⟩
  | stampTs =>
    obtain ⟨m₁, e, f⟩ := stampTs_spec hr o.env
    rw [hpc] at h
    simp only [Owner.step, hpc, e, Option.bind_eq_bind, Option.bind_some, Option.pure_def,
      Option.some.injEq, Prod.mk.injEq] at hs
    obtain ⟨rfl, rfl⟩ := hs
    exact (h rfl).stamp f (by omega) (by omega) fun _ => ⟨Pc.noConfusion, by omega⟩
  | stampId =>
    obtain ⟨m₁, e, -, f⟩ := stampId_spec hr hid
    rw [hpc] at h
    simp only [Owner.step, hpc, e, Option.bind_eq_bind, Option.bind_some, Option.pure_def,
      Option.some.injEq, Prod.mk.injEq] at hs
    obtain ⟨rfl, rfl⟩ := hs
    exact (h rfl).stamp f (by omega) (by omega) fun hne => absurd rfl hne
  | ready =>
    cases htd : o.todo with
    | nil => simp [Owner.step, hpc, htd] at hs
    | cons j js =>
      simp only [Owner.step, hpc, htd, Option.bind_eq_bind, Option.bind_eq_some_iff] at hs
      obtain ⟨b, -, hs⟩ := hs
      cases b <;> simp only [Bool.false_eq_true, if_true, if_false, Option.pure_def, Option.some.injEq,
        Prod.mk.injEq] at hs <;> obtain ⟨rfl, rfl⟩ := hs
      · exact absurd hpc' (by simp [Pc.heading])
      · cases j <;> exact absurd hpc' (by simp [Pc.heading, Job.placed])
  | finished => simp [Owner.step, hpc] at hs
  | reset | location | addr | write | load | store =>
    simp only [Owner.step, hpc, Option.bind_eq_bind, Option.bind_eq_some_iff, Option.pure_def,
      Option.some.injEq, Prod.mk.injEq] at hs
    obtain ⟨_, -, rfl, -⟩ := hs
    exact absurd hpc' (by simp [Pc.heading])

theorem State.before_set (hret : s.owners.length ≤ k + G.numRows) {k' : ℕ} (hk' : k' < s.owners.length)
    (o : Owner) (m : Mem) : State.before G ⟨m, s.owners.set k o⟩ k' = s.before G k' := by
  have hpos := G.numRows_pos
  unfold State.before State.kept
  by_cases hN : G.numRows ≤ k'
  · rw [if_pos hN, if_pos hN, List.getElem?_set_ne (by omega)]
  · rw [if_neg hN, if_neg hN]

theorem Whole.replace (hw : Whole G s) (hk : s.owners[k]? = some o)
    (hret : s.owners.length ≤ k + G.numRows) (hring : Ring G ⟨m', s.owners.set k o'⟩)
    (hf : Mem.Frame (G.slotBytes (k % G.numRows)) s.mem m')
    (hhead : o'.pc.heading = true → Heading G m' k o'.pc (s.before G k)) :
    Whole G ⟨m', s.owners.set k o'⟩ where
  ring := hring
  heading k' o₁ h hret' hpc := by
    have hlen := lt_of_getElem?_some hk
    have hlen' := lt_of_getElem?_some h
    rw [List.length_set] at hlen' hret'
    rw [State.before_set hret hlen']
    rcases getElem?_set_some h with ⟨rfl, rfl⟩ | ⟨hne, h⟩
    · exact hhead hpc
    · have hne' : k % G.numRows ≠ k' % G.numRows := fun he =>
        hne (Retained.slot_inj ⟨hlen', hret'⟩ ⟨hlen, hret⟩ he.symm)
      refine (hw.heading k' o₁ h hret' hpc).frame hf (fun x hx => ?_) fun x hx =>
        G.mem_slotBytes_of_ne hne' hx
      have := G.le_of_mem_slotBytes hx
      omega

/-- The slot that the next acquisition takes over is blank, or whole. -/
theorem Ring.next_slot (hr : Ring G s) {start : Start} {env : Env}
    (hok : Timely G.numRows s (.acquire start env)) :
    Heading G s.mem s.owners.length .stampTid (s.before G s.owners.length) := by
  have hpos := G.numRows_pos
  have hslot := Nat.mod_lt s.owners.length hpos
  by_cases hN : G.numRows ≤ s.owners.length
  · obtain ⟨k, hk⟩ : ∃ k, k + G.numRows = s.owners.length := ⟨_, Nat.sub_add_cancel hN⟩
    have hlt : k < s.owners.length := by omega
    have hget := List.getElem?_eq_getElem hlt
    have hst := hr.stored hget (by omega) (hok k _ hk hget)
    have hsub : s.owners.length - G.numRows = k := by omega
    have hbefore : s.before G s.owners.length = G.fill s.owners[k].done := by
      rw [State.before, if_pos hN, hsub, State.kept, hget]
    have hmod : s.owners.length % G.numRows = k % G.numRows := by rw [← hk, Nat.add_mod_right]
    rw [hbefore]
    exact ⟨hmod ▸ hst.holds, fun _ => by rw [if_pos hN, hsub, hmod, hst.id]⟩
  · have hsmall : s.owners.length % G.numRows = s.owners.length := Nat.mod_eq_of_lt (by omega)
    obtain ⟨hid, hlen⟩ := hr.blank _ (le_refl _) (by omega)
    rw [State.before, if_neg hN]
    refine ⟨(hr.mapped.slotRoom hslot).empty ?_, fun _ => ?_⟩
    · rw [hsmall, hlen]
    · rw [if_neg hN, hsmall, hid]

theorem Whole.concat (hw : Whole G s) (f : Mem.Frame (Set.Ico 28 32) s.mem m)
    (w : m.word 28 = (s.owners.length + 1) % 4294967296) {start : Start} {env : Env}
    (hok : Timely G.numRows s (.acquire start env)) :
    Whole G { mem := m, owners := s.owners ++ [⟨G.slot (s.owners.length % G.numRows),
      s.owners.length % 4294967296, start, env, .stampTid, [], []⟩] } where
  ring := hw.ring.concat f w hok
  heading k o h hret hpc := by
    have hpos := G.numRows_pos
    have hbase := G.slot_base (k % G.numRows)
    rw [List.length_append, List.length_singleton] at hret
    have hlen : k ≤ s.owners.length := by
      have := lt_of_getElem?_some h
      rw [List.length_append, List.length_singleton] at this
      omega
    have hbefore : State.before G { mem := m, owners := s.owners ++ [⟨G.slot (s.owners.length % G.numRows),
        s.owners.length % 4294967296, start, env, .stampTid, [], []⟩] } k = s.before G k := by
      unfold State.before State.kept
      by_cases hN : G.numRows ≤ k
      · rw [if_pos hN, if_pos hN, List.getElem?_append_left (by omega)]
      · rw [if_neg hN, if_neg hN]
    rw [hbefore]
    rcases getElem?_concat_some h with h | ⟨rfl, rfl⟩
    · exact (hw.heading k o h (by omega) hpc).frame f (Mem.outside_Ico (by omega))
        (Mem.outside_Ico (by omega))
    · exact (hw.ring.next_slot hok).frame f (Mem.outside_Ico (by omega)) (Mem.outside_Ico (by omega))

/-- STEP: every timely step keeps the slots whole. -/
theorem Whole.step_ok (hw : Whole G s) {a : Act} (hok : Timely G.numRows s a)
    (hs : step G.handle s a = some s') : Whole G s' := by
  have hr := hw.ring
  have hring := hr.step_ok hok hs
  cases a with
  | acquire start env =>
    obtain ⟨m, e, f, w⟩ := hr.acquire start env
    rw [e, Option.some.injEq] at hs
    subst hs
    exact hw.concat f w hok
  | advance k =>
    obtain ⟨o, o', m, hk, hst, rfl⟩ := step_advance hs
    obtain ⟨hid, hrow⟩ := hr.owner k o hk
    have hslot : k % G.numRows < G.numRows := Nat.mod_lt _ G.numRows_pos
    have hret := hr.retained hk (Owner.step_some hr.mapped hrow hst).2.1
    have hframe := (Owner.step_ok hr.mapped hslot hrow (by omega) (hr.held k o hk hret) hst).2.2.2
    exact hw.replace hk hret hring hframe fun hpc => Owner.step_heading
      (hrow ▸ (hr.mapped.slotRoom hslot).head) (by omega) hrow (hw.heading k o hk hret) hst hpc
  | append k a =>
    obtain ⟨o, hk, hpc, -, rfl⟩ := step_append hs
    have hret := hr.retained hk (by rw [hpc]; exact Pc.noConfusion)
    exact hw.replace hk hret hring (.refl ..) fun h => by simp [hpc, Pc.heading] at h
  | finish k =>
    obtain ⟨o, hk, hpc, -, rfl⟩ := step_finish hs
    have hret := hr.retained hk (by rw [hpc]; exact Pc.noConfusion)
    exact hw.replace hk hret hring (.refl ..) fun h => by simp [Pc.heading] at h

theorem Whole.start (hr : Ring G ⟨m, []⟩) : Whole G ⟨m, []⟩ := ⟨hr, fun k o h => by simp at h⟩

end Step

section Slots
variable {G : Geometry} {s : State} {k j : ℕ} {o : Owner}

theorem fill_prefix (G : Geometry) (done more : List (List Rec)) : G.fill done <+: G.fill (done ++ more) := by
  induction more using List.reverseRecOn with
  | nil => exact (List.append_nil done).symm ▸ List.prefix_refl _
  | append_singleton more g ih =>
    rw [← List.append_assoc]
    refine ih.trans ?_
    rw [Geometry.fill, Geometry.fill, recFormat.fit_concat, Format.keep]
    split
    · exact List.prefix_append ..
    · exact List.prefix_refl _

/-- What a slot holds is a prefix of what it will hold when the current call is complete. -/
theorem Owner.fill_promised (G : Geometry) (options : ℕ) (o : Owner) :
    G.fill o.done <+: G.fill (o.promised options) := fill_prefix ..

/-- SLOT: the slot of an acquisition that is retained. -/
theorem Whole.inSlot (hw : Whole G s) (hk : Retained G.numRows s.owners.length k) :
    RowHolds G.rowLen s.mem (G.slot (k % G.numRows)) (s.inSlot G k) := by
  have hget := List.getElem?_eq_getElem hk.1
  obtain ⟨-, hrow⟩ := hw.ring.owner k _ hget
  simp only [State.inSlot, hget]
  split
  · rename_i hpc
    exact (hw.heading k _ hget hk.2 hpc).holds
  · rename_i hpc
    rw [← hrow]
    exact ((hw.ring.held k _ hget hk.2).stored (Bool.eq_false_iff.mpr hpc)).holds

theorem State.slotRecs_retained (G : Geometry) (hk : Retained G.numRows s.owners.length k) :
    s.slotRecs G (k % G.numRows) = s.inSlot G k := by
  obtain ⟨k', hk'⟩ : ∃ k', (window G.numRows s.owners.length).find?
      (fun k' => decide (k' % G.numRows = k % G.numRows)) = some k' :=
    Option.isSome_iff_exists.mp (List.find?_isSome.mpr ⟨k, mem_window.mpr hk, by simp⟩)
  have hret := mem_window.mp (List.mem_of_find?_eq_some hk')
  have hmod : k' % G.numRows = k % G.numRows := by simpa using List.find?_some hk'
  simp only [State.slotRecs, hk', hret.slot_inj hk hmod]

theorem State.slotRecs_blank (G : Geometry) (hj : s.owners.length ≤ j) (hN : j < G.numRows) :
    s.slotRecs G j = [] := by
  have hnone : (window G.numRows s.owners.length).find? (fun k => decide (k % G.numRows = j)) = none := by
    refine List.find?_eq_none.mpr fun k hk hmod => ?_
    have hlt := (mem_window.mp hk).1
    have hmod := of_decide_eq_true hmod
    rw [Nat.mod_eq_of_lt (by omega)] at hmod
    omega
  simp only [State.slotRecs, hnone]

/-- SLOTS: every slot stores whole records. -/
theorem Whole.slotRecs (hw : Whole G s) (hj : j < G.numRows) :
    RowHolds G.rowLen s.mem (G.slot j) (s.slotRecs G j) := by
  rcases hw.ring.slot_cases hj with ⟨k, hk, rfl⟩ | ⟨hle, -, hlen⟩
  · rw [State.slotRecs_retained G (mem_window.mp hk)]
    exact hw.inSlot (mem_window.mp hk)
  · rw [State.slotRecs_blank G hle hj]
    exact (hw.ring.mapped.slotRoom hj).empty hlen

theorem State.slotRecs_typed (G : Geometry) (ht : ∀ o ∈ s.owners, o.Typed) (j : ℕ) :
    ∀ x ∈ s.slotRecs G j, x.WellTyped := by
  have hfill : ∀ o ∈ s.owners, ∀ x ∈ G.fill o.done, x.WellTyped := fun o ho x hx => by
    obtain ⟨g, hg, hxg⟩ := recFormat.mem_of_mem_fit hx
    exact ht o ho g hg x hxg
  have hkept : ∀ k, ∀ x ∈ s.kept G k, x.WellTyped := fun k x hx => by
    unfold State.kept at hx
    split at hx
    · rename_i o ho
      exact hfill o (List.mem_of_getElem? ho) x hx
    · simp at hx
  intro x hx
  unfold State.slotRecs State.inSlot State.before at hx
  split at hx
  · split at hx
    · rename_i o ho
      split at hx
      · split at hx
        · exact hkept _ x hx
        · simp at hx
      · exact hfill o (List.mem_of_getElem? ho) x hx
    · simp at hx
  · simp at hx

end Slots

/-! ### What is printed of it -/

/-- What the visit prints for slot `j`. -/
def slotLines (G : Geometry) (g : Globals) (f : Printf) (m : Mem) (recs : ℕ → List Rec) (j : ℕ) :
    List Printed :=
  if recFormat.total (recs j) = 0 then [] else [⟨G.slot j, rowLine g f m (G.slot j) (recs j)⟩]

section Print
variable {G : Geometry} {m : Mem} {recs : ℕ → List Rec}

/-- PRINT: where every slot stores whole records, `print_rows` prints each slot once, from the slot of the
    lowest id on. -/
theorem Mapped.printRows_slots (h : Mapped G m)
    (hrow : ∀ j < G.numRows, RowHolds G.rowLen m (G.slot j) (recs j))
    (hwt : ∀ j < G.numRows, ∀ x ∈ recs j, x.WellTyped) (g : Globals) (f : Printf) {fuel : ℕ}
    (hfuel : G.rowLen < fuel) : ∃ start, lowestRowid G.handle m = some start ∧
      printRows g f fuel G.handle m = some ((List.range G.numRows).flatMap fun i =>
        slotLines G g f m recs ((start + i) % G.numRows)) := by
  have hsize := h.size_ge
  obtain ⟨start, hstart, -, j, hj, hid⟩ := h.lowestRowid_spec
  have hlt : start % 4294967296 = start := Nat.mod_eq_of_lt (hid ▸ m.word_lt _)
  refine ⟨start, hstart, ?_⟩
  simp only [printRows, h.header.hdrNumRows_eq (show 52 ≤ m.size by omega),
    h.header.hdrRowLen_eq (show 52 ≤ m.size by omega), hstart, Option.bind_eq_bind, Option.bind_some,
    Option.pure_def]
  rw [show G.cfg.numRows.toNat = G.numRows from rfl, show G.cfg.rowLen.toNat = G.rowLen from rfl,
    mapM_eq_some fun i hi => by
      have hslot : (start + i) % G.numRows < G.numRows := Nat.mod_lt _ G.numRows_pos
      have hround := G.round_slot start i
      rw [hlt] at hround
      rw [hround, G.dumpRowAddr_eq hslot]
      exact (hrow _ hslot).printRow_eq h hslot (hwt _ hslot) g f hfuel,
    Option.bind_some, ← List.flatMap_def]
  rfl

end Print

end Log2mem
