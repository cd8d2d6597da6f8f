import Log2mem.Dump.Instant
import Log2mem.Log.Stamps

/-! The headers of the rows at any instant.

    An acquisition stamps its slot field by field, over the header of the row one round earlier. Until its
    last store the slot shows a header of both: what has been stored is the new row's, the rest is still
    that of the row before, and the records are that row's to the end.

        stores      tid ──▶ ts ──▶ id ──▶ datalen = 0 ──▶ pushes
        tid         │ k
        ts          k - N   │ k
        id          k - N          │ k
        records     k - N                 │ k -/

namespace Log2mem
open Schemes

/-- The thread id has been stored. -/
def Pc.tidStored : Pc → Bool
  | .stampTid => false
  | _ => true

/-- The time has been stored. -/
def Pc.tsStored : Pc → Bool
  | .stampTid | .stampTs => false
  | _ => true

/-- The id has been stored. -/
def Pc.idStored : Pc → Bool
  | .stampTid | .stampTs | .stampId => false
  | _ => true

/-- The number in the slot of acquisition `k`, where `prev` was before. -/
def Pc.shownId (pc : Pc) (k prev : ℕ) : ℕ := if pc.idStored then k else prev

/-- The stamp in the slot of an owner, where `prev` was before. -/
def Owner.shownStamp (options : ℕ) (o : Owner) (prev : Stamp) : Stamp where
  ts := if o.pc.tsStored then (o.env.stamp options).ts else prev.ts
  tid := if o.pc.tidStored then o.env.tid else prev.tid

/-- The stamp of acquisition `k`. -/
def State.stamp (G : Geometry) (s : State) (k : ℕ) : Stamp :=
  match s.owners[k]? with
  | some o => o.env.stamp G.cfg.options.toNat
  | none => ⟨0, 0⟩

/-- The number of the acquisition of the slot of `k` one round earlier, zero in a blank slot. -/
def Geometry.numberBefore (G : Geometry) (k : ℕ) : ℕ := if G.numRows ≤ k then k - G.numRows else 0

/-- Its stamp, zeros in a blank slot. -/
def State.stampBefore (G : Geometry) (s : State) (k : ℕ) : Stamp :=
  if G.numRows ≤ k then s.stamp G (k - G.numRows) else ⟨0, 0⟩

/-- Slots are whole, and stamped by their owners as far as these have come. -/
structure Headed (G : Geometry) (s : State) : Prop where
  whole : Whole G s
  stamp : ∀ k o, s.owners[k]? = some o → s.owners.length ≤ k + G.numRows →
    Stamped G.cfg.options.toNat s.mem (G.slot (k % G.numRows))
      (o.shownStamp G.cfg.options.toNat (s.stampBefore G k))
  blank : ∀ j, s.owners.length ≤ j → j < G.numRows →
    Stamped G.cfg.options.toNat s.mem (G.slot j) ⟨0, 0⟩

section Step
variable {G : Geometry} {s s' : State} {m m' : Mem} {o o' : Owner} {k : ℕ} {prev : Stamp}

theorem Owner.step_env (hs : o.step m = some (o', m')) : o'.env = o.env := by
  cases hpc : o.pc with
  | ready =>
    cases htd : o.todo with
    | nil => simp [Owner.step, hpc, htd] at hs
    | cons j js =>
      simp only [Owner.step, hpc, htd, Option.bind_eq_bind, Option.bind_eq_some_iff] at hs
      obtain ⟨b, -, hs⟩ := hs
      cases b <;> simp only [Bool.false_eq_true, if_true, if_false, Option.pure_def, Option.some.injEq,
        Prod.mk.injEq] at hs <;> obtain ⟨rfl, rfl⟩ := hs <;> rfl
  | finished => simp [Owner.step, hpc] at hs
  | stampTid | stampTs | stampId | reset | location | addr | write | load | store =>
    simp only [Owner.step, hpc, Option.bind_eq_bind, Option.bind_eq_some_iff, Option.pure_def,
      Option.some.injEq, Prod.mk.injEq] at hs
    obtain ⟨_, -, rfl, -⟩ := hs
    rfl

/-- Once the time has been stored, an owner leaves the stamp of its slot alone. -/
theorem Owner.step_behind (hm : Mapped G m) (hk : k < G.numRows) (hrow : o.row = G.slot k)
    (hid : o.rowid < 4294967296) (hok : OwnerOk G m o) (hs : o.step m = some (o', m'))
    (hpc : o.pc.tsStored = true) : o'.pc.tsStored = true ∧ o'.pc.tidStored = true ∧
      Mem.Frame (Set.Ico (o.row + 16) (o.row + (24 + G.rowLen))) m m' := by
  have hroom := hm.slotRoom hk
  rw [← hrow] at hroom
  cases he : o.pc with
  | stampTid | stampTs => simp [Pc.tsStored, he] at hpc
  | stampId =>
    obtain ⟨m₁, e, -, f⟩ := stampId_spec hroom.head hid
    simp only [Owner.step, he, e, Option.bind_eq_bind, Option.bind_some, Option.pure_def,
      Option.some.injEq, Prod.mk.injEq] at hs
    obtain ⟨rfl, rfl⟩ := hs
    exact ⟨rfl, rfl, f.ico_mono (le_refl _) (by omega)⟩
  | reset =>
    obtain ⟨m₁, e, -, f⟩ := resetDatalen_spec hroom.head
    simp only [Owner.step, he, e, Option.bind_eq_bind, Option.bind_some, Option.pure_def,
      Option.some.injEq, Prod.mk.injEq] at hs
    obtain ⟨rfl, rfl⟩ := hs
    exact ⟨rfl, rfl, f.ico_mono (by omega) (by omega)⟩
  | location | addr | load =>
    simp only [Owner.step, he, Option.bind_eq_bind, Option.bind_eq_some_iff, Option.pure_def,
      Option.some.injEq, Prod.mk.injEq] at hs
    obtain ⟨_, -, rfl, rfl⟩ := hs
    exact ⟨rfl, rfl, .refl ..⟩
  | ready =>
    cases htd : o.todo with
    | nil => simp [Owner.step, he, htd] at hs
    | cons j js =>
      simp only [Owner.step, he, htd, Option.bind_eq_bind, Option.bind_eq_some_iff] at hs
      obtain ⟨b, -, hs⟩ := hs
      cases b <;> simp only [Bool.false_eq_true, if_true, if_false, Option.pure_def, Option.some.injEq,
        Prod.mk.injEq] at hs <;> obtain ⟨rfl, rfl⟩ := hs
      · exact ⟨rfl, rfl, .refl ..⟩
      · cases j <;> exact ⟨rfl, rfl, .refl ..⟩
  | write j off =>
    simp only [OwnerOk, he] at hok
    obtain ⟨hst, hR, rfl, -⟩ := hok
    have hexact := (Owner.step_some hm hrow hs).2.2 j _ he
    obtain ⟨m₁, e, -, -, f⟩ := hst.write_spec hexact (hR hexact)
    simp only [Owner.step, he, e, Option.bind_eq_bind, Option.bind_some, Option.pure_def,
      Option.some.injEq, Prod.mk.injEq] at hs
    obtain ⟨rfl, rfl⟩ := hs
    exact ⟨rfl, rfl, f.ico_mono (by omega) (le_refl _)⟩
  | store j d =>
    simp only [OwnerOk, he] at hok
    obtain ⟨hst, hpl, rfl, -⟩ := hok
    obtain ⟨m₁, e, -, f⟩ := hpl.store_spec hst
    simp only [Owner.step, he, e, Option.bind_eq_bind, Option.bind_some, Option.pure_def,
      Option.some.injEq, Prod.mk.injEq] at hs
    obtain ⟨rfl, rfl⟩ := hs
    exact ⟨rfl, rfl, f.ico_mono (by omega) (by omega)⟩
  | finished => simp [Owner.step, he] at hs

/-- STEP: an owner stamps its slot field by field. -/
theorem Owner.step_stamped (hm : Mapped G m) (hk : k < G.numRows) (hrow : o.row = G.slot k)
    (hid : o.rowid < 4294967296) (hok : OwnerOk G m o) (hs : o.step m = some (o', m'))
    (hst : Stamped G.cfg.options.toNat m (G.slot k) (o.shownStamp G.cfg.options.toNat prev)) :
    Stamped G.cfg.options.toNat m' (G.slot k) (o'.shownStamp G.cfg.options.toNat prev) := by
  have henv := Owner.step_env hs
  have hroom := (hm.slotRoom hk).head
  have hopt : m.word 32 = G.cfg.options.toNat := hm.header.options
  rw [← hrow] at hroom hst ⊢
  by_cases hbehind : o.pc.tsStored = true
  · obtain ⟨hts, htid, f⟩ := Owner.step_behind hm hk hrow hid hok hs hbehind
    have htid₀ : o.pc.tidStored = true := by
      cases he : o.pc <;> simp [Pc.tsStored, Pc.tidStored, he] at hbehind ⊢
    have hsame : o'.shownStamp G.cfg.options.toNat prev = o.shownStamp G.cfg.options.toNat prev := by
      simp only [Owner.shownStamp, hts, htid, hbehind, htid₀, henv, if_true]
    rw [hsame]
    exact hst.frame f fun x hx => Or.inr hx.1
  · cases hpc : o.pc with
    | stampTid =>
      obtain ⟨m₁, e, w, f⟩ := stampTid_stores hroom o.env
      simp only [Owner.step, hpc, e, Option.bind_eq_bind, Option.bind_some, Option.pure_def,
        Option.some.injEq, Prod.mk.injEq] at hs
      obtain ⟨rfl, rfl⟩ := hs
      rw [hopt] at w
      refine ⟨w, fun ho => ?_⟩
      refine (f.get_eq fun x hx _ hxS => by have := hxS.2; omega).trans ?_
      simpa [Owner.shownStamp, Pc.tsStored, hpc] using hst.ts ho
    | stampTs =>
      obtain ⟨m₁, e, w, f⟩ := stampTs_stores hroom o.env
      simp only [Owner.step, hpc, e, Option.bind_eq_bind, Option.bind_some, Option.pure_def,
        Option.some.injEq, Prod.mk.injEq] at hs
      obtain ⟨rfl, rfl⟩ := hs
      rw [hopt] at w
      refine ⟨fun ho => ?_, w⟩
      refine (f.word_of_Ico (by omega)).trans ?_
      simpa [Owner.shownStamp, Pc.tidStored, hpc] using hst.tid ho
    | stampId | reset | location | ready | addr | write | load | store | finished =>
      exact absurd (by rw [hpc]; rfl) hbehind

theorem State.stamp_set (hk : s.owners[k]? = some o) (henv : o'.env = o.env) (m' : Mem) (k' : ℕ) :
    State.stamp G ⟨m', s.owners.set k o'⟩ k' = s.stamp G k' := by
  by_cases hkk : k = k'
  · subst hkk
    simp only [State.stamp, List.getElem?_set_self (lt_of_getElem?_some hk), hk, henv]
  · simp only [State.stamp, List.getElem?_set_ne hkk]

theorem State.stampBefore_set (hk : s.owners[k]? = some o) (henv : o'.env = o.env) (m' : Mem) (k' : ℕ) :
    State.stampBefore G ⟨m', s.owners.set k o'⟩ k' = s.stampBefore G k' := by
  simp only [State.stampBefore, State.stamp_set hk henv]

theorem State.stampBefore_concat (G : Geometry) {m m' : Mem} {os : List Owner} (o : Owner)
    (hk : k ≤ os.length) : State.stampBefore G ⟨m', os ++ [o]⟩ k = State.stampBefore G ⟨m, os⟩ k := by
  have hpos := G.numRows_pos
  unfold State.stampBefore State.stamp
  by_cases hN : G.numRows ≤ k
  · rw [if_pos hN, if_pos hN, List.getElem?_append_left (by omega)]
  · rw [if_neg hN, if_neg hN]

theorem Headed.replace (h : Headed G s) (hk : s.owners[k]? = some o)
    (hret : s.owners.length ≤ k + G.numRows) (hwhole : Whole G ⟨m', s.owners.set k o'⟩)
    (hf : Mem.Frame (G.slotBytes (k % G.numRows)) s.mem m') (henv : o'.env = o.env)
    (hst : Stamped G.cfg.options.toNat m' (G.slot (k % G.numRows))
      (o'.shownStamp G.cfg.options.toNat (s.stampBefore G k))) :
    Headed G ⟨m', s.owners.set k o'⟩ where
  whole := hwhole
  stamp k' o₁ h₁ hret' := by
    have hlen := lt_of_getElem?_some hk
    have hlen' := lt_of_getElem?_some h₁
    rw [List.length_set] at hlen' hret'
    rw [State.stampBefore_set hk henv]
    rcases getElem?_set_some h₁ with ⟨rfl, rfl⟩ | ⟨hne, h₁⟩
    · exact hst
    · have hne' : k % G.numRows ≠ k' % G.numRows := fun he =>
        hne (Retained.slot_inj ⟨hlen', hret'⟩ ⟨hlen, hret⟩ he.symm)
      exact (h.stamp k' o₁ h₁ hret').frame hf fun x hx => by
        have := G.mem_slotBytes_of_ne hne' hx
        omega
  blank j hj hj' := by
    rw [List.length_set] at hj
    have hlen := lt_of_getElem?_some hk
    have hne : k % G.numRows ≠ j := fun he => by
      have := Nat.mod_le k G.numRows
      omega
    exact (h.blank j hj hj').frame hf fun x hx => by
      have := G.mem_slotBytes_of_ne hne hx
      omega

/-- The slot that the next acquisition takes over has the stamp of the row before, or none. -/
theorem Headed.next_slot (h : Headed G s) {start : Start} {env : Env}
    (hok : Timely G.numRows s (.acquire start env)) :
    Stamped G.cfg.options.toNat s.mem (G.slot (s.owners.length % G.numRows))
      (s.stampBefore G s.owners.length) := by
  have hpos := G.numRows_pos
  by_cases hN : G.numRows ≤ s.owners.length
  · obtain ⟨k, hk⟩ : ∃ k, k + G.numRows = s.owners.length := ⟨_, Nat.sub_add_cancel hN⟩
    have hget := List.getElem?_eq_getElem (show k < s.owners.length by omega)
    have hfin := hok k _ hk hget
    have hst := h.stamp k _ hget hk.ge
    have hbefore : s.stampBefore G s.owners.length = s.owners[k].env.stamp G.cfg.options.toNat := by
      simp only [State.stampBefore, if_pos hN, show s.owners.length - G.numRows = k by omega, State.stamp,
        hget]
    have hown : s.owners[k].shownStamp G.cfg.options.toNat (s.stampBefore G k) =
        s.owners[k].env.stamp G.cfg.options.toNat := by
      simp only [Owner.shownStamp, hfin, Pc.tsStored, Pc.tidStored, if_true]
      rfl
    rwa [hown, ← hbefore, ← Nat.add_mod_right, hk] at hst
  · rw [State.stampBefore, if_neg hN, Nat.mod_eq_of_lt (by omega)]
    exact h.blank _ (le_refl _) (by omega)

theorem Headed.concat (h : Headed G s) (f : Mem.Frame (Set.Ico 28 32) s.mem m)
    {start : Start} {env : Env} (hok : Timely G.numRows s (.acquire start env)) {r : ℤ} {rowid : ℕ}
    (hwhole : Whole G ⟨m, s.owners ++ [⟨r, rowid, start, env, .stampTid, [], []⟩]⟩) :
    Headed G ⟨m, s.owners ++ [⟨r, rowid, start, env, .stampTid, [], []⟩]⟩ where
  whole := hwhole
  stamp k o hk hret := by
    have hbase := G.slot_base (k % G.numRows)
    have hclear : ∀ x ∈ Set.Ico (28 : ℤ) 32, x < G.slot (k % G.numRows) ∨ G.slot (k % G.numRows) + 16 ≤ x :=
      Mem.outside_Ico (by omega)
    rw [List.length_append, List.length_singleton] at hret
    rcases getElem?_concat_some hk with hk | ⟨rfl, rfl⟩
    · rw [State.stampBefore_concat (m := s.mem) G _ (lt_of_getElem?_some hk).le]
      exact (h.stamp k o hk (by omega)).frame f hclear
    · rw [State.stampBefore_concat (m := s.mem) G _ (le_refl _)]
      exact (h.next_slot hok).frame f hclear
  blank j hj hj' := by
    have hbase := G.slot_base j
    rw [List.length_append, List.length_singleton] at hj
    exact (h.blank j (by omega) hj').frame f (Mem.outside_Ico (by omega))

/-- STEP: every timely step keeps the headers. -/
theorem Headed.step_ok (h : Headed G s) {a : Act} (hok : Timely G.numRows s a)
    (hs : step G.handle s a = some s') : Headed G s' := by
  have hr := h.whole.ring
  have hwhole := h.whole.step_ok hok hs
  cases a with
  | acquire start env =>
    obtain ⟨m, e, f, -⟩ := hr.acquire start env
    rw [e, Option.some.injEq] at hs
    subst hs
    exact h.concat f hok hwhole
  | advance k =>
    obtain ⟨o, o', m, hk, hst, rfl⟩ := step_advance hs
    obtain ⟨hid, hrow⟩ := hr.owner k o hk
    have hslot : k % G.numRows < G.numRows := Nat.mod_lt _ G.numRows_pos
    have hret := hr.retained hk (Owner.step_some hr.mapped hrow hst).2.1
    have hheld := hr.held k o hk hret
    have hframe := (Owner.step_ok hr.mapped hslot hrow (by omega) hheld hst).2.2.2
    exact h.replace hk hret hwhole hframe (Owner.step_env hst)
      (Owner.step_stamped hr.mapped hslot hrow (by omega) hheld hst (h.stamp k o hk hret))
  | append k a =>
    obtain ⟨o, hk, hpc, -, rfl⟩ := step_append hs
    have hret := hr.retained hk (by rw [hpc]; exact Pc.noConfusion)
    exact h.replace hk hret hwhole (.refl ..) rfl (h.stamp k o hk hret)
  | finish k =>
    obtain ⟨o, hk, hpc, -, rfl⟩ := step_finish hs
    have hret := hr.retained hk (by rw [hpc]; exact Pc.noConfusion)
    have hst := h.stamp k o hk hret
    simp only [Owner.shownStamp, hpc, Pc.tsStored, Pc.tidStored] at hst
    exact h.replace hk hret hwhole (.refl ..) rfl hst

theorem Headed.start (hr : Ring G ⟨m, []⟩) (hz : ∀ x, 92 ≤ x → m.byte x = 0) : Headed G ⟨m, []⟩ where
  whole := .start hr
  stamp k o h := by simp at h
  blank j _ _ := by
    have hbase := G.slot_base j
    exact ⟨fun _ => Mem.word_eq_zero fun x hx => hz x (by omega), fun _ =>
      List.eq_replicate_iff.mpr ⟨m.get_length _ _, fun b hb => by
        obtain ⟨i, -, rfl⟩ := List.mem_map.mp hb
        exact hz _ (by omega)⟩⟩

end Step

section Shown
variable {G : Geometry} {s : State} {k : ℕ} {o : Owner}

/-- The id of a slot is that of its owner once it is stored, and of the row before until then. -/
theorem Headed.id (h : Headed G s) (hk : Retained G.numRows s.owners.length k)
    (ho : s.owners[k]? = some o) : s.mem.word (G.slot (k % G.numRows) + 16) =
      o.pc.shownId k (G.numberBefore k) % 4294967296 := by
  obtain ⟨hid, hrow⟩ := h.whole.ring.owner k o ho
  have hheld := h.whole.ring.held k o ho hk.2
  by_cases hpc : o.pc.heading = true
  · have hhead := (h.whole.heading k o ho hk.2 hpc).id
    cases he : o.pc with
    | stampTid | stampTs | stampId =>
      rw [hhead (by rw [he]; exact Pc.noConfusion)]
      simp only [Pc.shownId, Pc.idStored, Bool.false_eq_true, if_false, Geometry.numberBefore]
      split <;> rfl
    | reset =>
      simp only [OwnerOk, he] at hheld
      rw [← hrow, hheld.2, hid]
      rfl
    | location | ready | addr | write | load | store | finished => simp [Pc.heading, he] at hpc
  · have hst := (hheld.stored (Bool.eq_false_iff.mpr hpc)).id
    rw [hrow, hid] at hst
    rw [hst]
    cases he : o.pc <;> simp [Pc.heading, Pc.shownId, Pc.idStored, he] at hpc ⊢

/-- PREFIX: what `print_rows` prints before the items of a slot. -/
theorem Headed.rowPrefix_eq (h : Headed G s) (hk : Retained G.numRows s.owners.length k)
    (ho : s.owners[k]? = some o) (g : Globals) (f : Printf) :
    rowPrefix g f (G.slot (k % G.numRows)) s.mem = some (stampText g f G.cfg.options.toNat
      (o.pc.shownId k (G.numberBefore k))
      (o.shownStamp G.cfg.options.toNat (s.stampBefore G k))) := by
  have hm := h.whole.ring.mapped
  have hsize := hm.size_ge
  have hroom := hm.slotRoom (Nat.mod_lt k G.numRows_pos)
  have hbase := hroom.base
  have hend := hroom.room
  exact (h.stamp k o ho hk.2).rowPrefix_eq (hm.header.hdrOptions_eq (by omega)) ⟨by omega, by omega⟩
    (h.id hk ho) g f

end Shown

end Log2mem
