import Log2mem.Ring.Invariant

/-! Slot bounds when writers are lapped.

    The space test, the write address and the update of a push each load `row->datalen` again. A store
    of `datalen` by another owner of the same slot in between may leave too little room for the record;
    then the record is written past the end of the slot. Without such a store every write stays inside
    its slot, however many owners share it.

        owner k   test ──────────────▶ addr ─▶ write ─▶ load ─▶ store
        owner k'         … store d' ──▲  d' + totlen' + totlen ≤ row_len ? -/

namespace Log2mem
open Schemes

/-! ### The bytes a record write touches -/

def Push.extent : Push → ℕ
  | .value v => 8 + v.bytes.length
  | .string len _ => 8 + toSize len.toInt + 1
  | .filename len _ => 8 + toSize len.toInt + 1

def Event.extent (e : Event) : ℕ :=
  24 + match e.msg with
    | some _ => 8 + toSize e.len.toInt + 1
    | none => 0

/-- The number of bytes written from the write address on. -/
def Job.extent : Job → ℕ
  | .push p => p.extent
  | .event e => e.extent

theorem strRecs_total (type : DataType) {len : Int32} (str : Buf) (h : ExactLen len) :
    recFormat.total (strRecs type len str) = 8 + toSize len.toInt + 1 := by
  have hlen := strRec_length type str h.1
  have hsz := toSize_of_range h.1 (by have := h.2; omega)
  rw [strRecs_of_exact _ _ h, recFormat.total_cons, recFormat.total_nil, size_rec]
  omega

/-- An exact length covers exactly the bytes written. -/
theorem Job.extent_eq {j : Job} (h : j.Exact) : j.extent = recFormat.total j.recs := by
  cases j with
  | push p =>
    cases p with
    | value v => rfl
    | string len str => exact (strRecs_total .string str h).symm
    | filename len str => exact (strRecs_total .filename str h).symm
  | event e =>
    have htotal := e.total_recs
    simp only [Job.extent, Event.extent, Job.recs]
    cases hm : e.msg with
    | none =>
      simp only [hm, Option.isSome_none, Bool.false_eq_true, if_false] at htotal
      simp only
      omega
    | some str =>
      have hpos := e.msg_pos hm
      have hsz := toSize_of_range (le_of_lt hpos) (by have := e.len.toInt_lt; omega)
      simp only [hm, Option.isSome_some, if_true] at htotal
      simp only
      omega

/-! ### The condition and the property -/

/-- The job of a push between its passed space test and the load for its update. -/
def Pc.claim : Pc → Option Job
  | .addr j | .write j _ | .load j => some j
  | _ => none

/-- What a step must respect: no job passes the space test whose length is not exact, and `datalen` is
    never stored so that a push on the same slot that has passed its space test no longer fits. -/
def Guarded (G : Geometry) (s : State) : Act → Prop
  | .advance k => ∀ o, s.owners[k]? = some o →
      (o.pc = .ready → ∀ j ∈ o.todo.head?, fits o.row j.totlen s.mem = some true → j.Exact) ∧
      ∀ j d, o.pc = .store j d → ∀ k' o' j', k' ≠ k → s.owners[k']? = some o' → o'.row = o.row →
        o'.pc.claim = some j' → d + j.extent + j'.extent ≤ G.rowLen
  | _ => True

/-- The store of an update: its job, and the `datalen` that was loaded. -/
def Pc.update : Pc → Option (Job × ℕ)
  | .store j d => some (j, d)
  | _ => none

theorem Pc.update_eq {pc : Pc} {j : Job} {d : ℕ} : pc.update = some (j, d) ↔ pc = .store j d := by
  cases pc <;> simp [Pc.update]

instance (len : Int32) : Decidable (ExactLen len) := inferInstanceAs (Decidable (_ ∧ _))

instance : ∀ j : Job, Decidable j.Exact
  | .push (.value _) => .isTrue trivial
  | .push (.string len _) | .push (.filename len _) => inferInstanceAs (Decidable (ExactLen len))
  | .event e => inferInstanceAs (Decidable (e.msg.isSome → e.len.toInt ≤ 2147483614))

instance (G : Geometry) (s : State) : ∀ a, Decidable (Guarded G s a)
  | .advance k =>
    decidable_of_iff (∀ o ∈ s.owners[k]?,
        (o.pc = .ready → ∀ j ∈ o.todo.head?, fits o.row j.totlen s.mem = some true → j.Exact) ∧
        ∀ x ∈ o.pc.update, ∀ k' < s.owners.length, k' ≠ k → ∀ o' ∈ s.owners[k']?, o'.row = o.row →
          ∀ j' ∈ o'.pc.claim, x.2 + x.1.extent + j'.extent ≤ G.rowLen)
      ⟨fun h o ho => ⟨(h o ho).1, fun j d hpc k' o' j' hne ho' hrow hj' =>
          (h o ho).2 (j, d) (Pc.update_eq.mpr hpc) k' (lt_of_getElem?_some ho') hne o' ho' hrow j' hj'⟩,
        fun h o ho => ⟨(h o ho).1, fun x hx k' _ hne o' ho' hrow j' hj' =>
          (h o ho).2 x.1 x.2 (Pc.update_eq.mp hx) k' o' j' hne ho' hrow hj'⟩⟩
  | .acquire _ _ | .append _ _ | .finish _ => .isTrue trivial

/-- Every slot's `datalen` is within `row_len`, and every record about to be written stays inside the
    payload of its slot. -/
structure Bounded (G : Geometry) (s : State) : Prop where
  datalen : ∀ i < G.numRows, s.mem.word (G.slot i + 20) ≤ G.rowLen
  writes : ∀ (k : ℕ) (o : Owner) (j : Job) (off : ℕ), s.owners[k]? = some o → o.pc = .write j off →
    off + j.extent ≤ G.rowLen

/-! ### The invariant -/

/-- What a push in progress relies on: the room found by its space test is still there. -/
def Holding (G : Geometry) (m : Mem) (o : Owner) : Prop :=
  (∀ j, o.pc.claim = some j → j.Exact ∧ m.word (o.row + 20) + j.extent ≤ G.rowLen) ∧
  match o.pc with
  | .write j off => off + j.extent ≤ G.rowLen
  | .store j d => j.Exact ∧ d + j.extent ≤ G.rowLen
  | _ => True

/-- The invariant of guarded runs. -/
structure Shared (G : Geometry) (s : State) : Prop where
  mapped : Mapped G s.mem
  datalen : ∀ i < G.numRows, s.mem.word (G.slot i + 20) ≤ G.rowLen
  owner : ∀ (k : ℕ) (o : Owner), s.owners[k]? = some o →
    (∃ i < G.numRows, o.row = G.slot i) ∧ Holding G s.mem o

theorem Shared.bounded {G : Geometry} {s : State} (h : Shared G s) : Bounded G s where
  datalen := h.datalen
  writes k o j off hk hpc := by
    have hold := (h.owner k o hk).2.2
    simp only [hpc] at hold
    exact hold

section Step
variable {G : Geometry} {s s' : State} {m m' : Mem} {o o' : Owner} {i : ℕ}

theorem Holding.quiet (hc : o.pc.claim = none) (hs : ∀ j d, o.pc ≠ .store j d) : Holding G m o := by
  refine ⟨fun j hj => absurd hj (by simp [hc]), ?_⟩
  split
  · rename_i j off hpc
    rw [hpc] at hc
    exact absurd hc (by simp [Pc.claim])
  · rename_i j d hpc
    exact absurd hpc (hs j d)
  · trivial

/-- The bytes of slot `i` outside its `datalen`. -/
def restOfSlot (G : Geometry) (i : ℕ) : Set ℤ :=
  Set.Ico (G.slot i) (G.slot i + 20) ∪ Set.Ico (G.slot i + 24) (G.slot i + 24 + G.rowLen)

theorem restOfSlot_subset : restOfSlot G i ⊆ G.slotBytes i := by
  rintro x (hx | hx)
  · exact ⟨hx.1, by have := hx.2; omega⟩
  · exact ⟨by have := hx.1; omega, by have := hx.2; omega⟩

theorem datalen_frame_ne (hf : Mem.Frame (G.slotBytes i) m m') {i' : ℕ} (hne : i ≠ i') :
    m'.word (G.slot i' + 20) = m.word (G.slot i' + 20) :=
  hf.word_of_outside (fun _ hx => G.mem_slotBytes_of_ne hne hx) (by omega) (by omega)

theorem datalen_frame (hf : Mem.Frame (restOfSlot G i) m m') (i' : ℕ) :
    m'.word (G.slot i' + 20) = m.word (G.slot i' + 20) := by
  by_cases hne : i = i'
  · subst hne
    exact hf.word_of_outside (Mem.outside_union (Or.inr (le_refl _)) (Or.inl (le_refl _))) (le_refl _)
      (by omega)
  · exact datalen_frame_ne (hf.mono restOfSlot_subset) hne

/-- A step that leaves every `datalen` alone only has to account for its own owner. -/
theorem Shared.replace (h : Shared G s) {k : ℕ} (hk : s.owners[k]? = some o)
    (hf : Mem.Frame (restOfSlot G i) s.mem m') (hrow : o'.row = o.row) (hold : Holding G m' o') :
    Shared G ⟨m', s.owners.set k o'⟩ := by
  have hlen := lt_of_getElem?_some hk
  refine ⟨h.mapped.frame_slot (hf.mono restOfSlot_subset), fun i' hi' => ?_, fun k' o₁ h₁ => ?_⟩
  · rw [datalen_frame hf]
    exact h.datalen i' hi'
  · rcases getElem?_set_some h₁ with ⟨rfl, rfl⟩ | ⟨-, h₁⟩
    · rw [hrow]
      exact ⟨(h.owner k' o hk).1, hold⟩
    · obtain ⟨⟨i', hi', hrow'⟩, hclaim, hpc⟩ := h.owner k' o₁ h₁
      refine ⟨⟨i', hi', hrow'⟩, fun j hj => ?_, hpc⟩
      simp only [hrow', datalen_frame hf]
      simpa only [hrow'] using hclaim j hj

/-- A step that changes its own slot's `datalen` also has to leave room for the pushes in progress
    there. -/
theorem Shared.replace_datalen (h : Shared G s) {k : ℕ} (hk : s.owners[k]? = some o)
    (horow : o.row = G.slot i)
    (hf : Mem.Frame (Set.Ico (G.slot i + 20) (G.slot i + 24)) s.mem m') (hrow : o'.row = o.row)
    (hold : Holding G m' o') (hle : m'.word (G.slot i + 20) ≤ G.rowLen)
    (hroom : ∀ k' o₁ j, k' ≠ k → s.owners[k']? = some o₁ → o₁.row = o.row → o₁.pc.claim = some j →
      m'.word (G.slot i + 20) + j.extent ≤ G.rowLen) :
    Shared G ⟨m', s.owners.set k o'⟩ := by
  have hlen := lt_of_getElem?_some hk
  have hf' : Mem.Frame (G.slotBytes i) s.mem m' := hf.ico_mono (by omega) (by omega)
  have hother : ∀ i' < G.numRows, i' ≠ i → m'.word (G.slot i' + 20) = s.mem.word (G.slot i' + 20) :=
    fun i' _ hne => datalen_frame_ne hf' (Ne.symm hne)
  refine ⟨h.mapped.frame_slot hf', fun i' hi' => ?_, fun k' o₁ h₁ => ?_⟩
  · by_cases hne : i' = i
    · rw [hne]; exact hle
    · rw [hother i' hi' hne]; exact h.datalen i' hi'
  · rcases getElem?_set_some h₁ with ⟨rfl, rfl⟩ | ⟨hk', h₁⟩
    · rw [hrow]
      exact ⟨(h.owner k' o hk).1, hold⟩
    · obtain ⟨⟨i', hi', hrow'⟩, hclaim, hpc⟩ := h.owner k' o₁ h₁
      refine ⟨⟨i', hi', hrow'⟩, fun j hj => ⟨(hclaim j hj).1, ?_⟩, hpc⟩
      by_cases hne : i' = i
      · have := hroom k' o₁ j hk' h₁ (by rw [hrow', horow, hne]) hj
        rwa [hrow', hne]
      · have := (hclaim j hj).2
        rw [hrow'] at this ⊢
        rwa [hother i' hi' hne]

theorem Shared.reset (h : Shared G s) {k : ℕ} (hk : s.owners[k]? = some o) (hrow : o.row = G.slot i)
    (hzero : m'.word (o.row + 20) = 0)
    (hf : Mem.Frame (Set.Ico (o.row + 20) (o.row + 24)) s.mem m') :
    Shared G ⟨m', s.owners.set k { o with pc := .location }⟩ := by
  rw [hrow] at hzero hf
  refine h.replace_datalen hk hrow hf rfl ⟨fun j hj => absurd hj (by simp [Pc.claim]), trivial⟩
    (by omega) fun k' o₁ j _ h₁ _ hj => ?_
  have hroom := ((h.owner k' o₁ h₁).2.1 j hj).2
  omega

/-- A passed space test is a claim on the room it found. -/
theorem Shared.pass_test (h : Shared G s) {k : ℕ} (hk : s.owners[k]? = some o) {j : Job} (js : List Job)
    (hex : j.Exact) (hfit : j.totlen ≤ G.rowLen - s.mem.word (o.row + 20)) :
    Shared G ⟨s.mem, s.owners.set k { o with pc := j.placed, todo := js }⟩ := by
  have htot := (Job.writes hex).totlen
  have hext := Job.extent_eq hex
  have hle : s.mem.word (o.row + 20) + j.extent ≤ G.rowLen := by omega
  refine h.replace (i := 0) hk (.refl ..) rfl ⟨fun j' hj' => ?_, ?_⟩
  · have hj : j = j' := by
      cases j <;> exact Option.some.inj hj'
    exact hj ▸ ⟨hex, hle⟩
  · cases j with
    | push p => exact trivial
    | event e => show 0 + _ ≤ G.rowLen; omega

/-- A record is written into the room claimed for it, and the claim stands. -/
theorem Shared.write (h : Shared G s) {k : ℕ} (hk : s.owners[k]? = some o) (hi : i < G.numRows)
    (hrow : o.row = G.slot i) {j : Job} {off : ℕ} (hpc : o.pc = .write j off) :
    ∃ m', j.put (o.row + 24 + off) s.mem = some m' ∧
      Shared G ⟨m', s.owners.set k { o with pc := .load j }⟩ := by
  obtain ⟨-, hclaim, hoff⟩ := h.owner k o hk
  obtain ⟨hex, hle⟩ := hclaim j (by rw [hpc]; rfl)
  simp only [hpc] at hoff
  have hroom := h.mapped.slotRoom hi
  have hbase := hroom.base
  have hend := hroom.room
  have hext := Job.extent_eq hex
  obtain ⟨m', e, f, -⟩ := (Job.writes hex).put s.mem (o.row + 24 + off) ⟨by omega, by omega⟩
  have hf : Mem.Frame (restOfSlot G i) s.mem m' := f.mono fun x ⟨h0, h1⟩ => Or.inr ⟨by omega, by omega⟩
  refine ⟨m', e, h.replace hk hf rfl ⟨fun j' hj' => ?_, trivial⟩⟩
  obtain rfl : j = j' := Option.some.inj hj'
  refine ⟨hex, ?_⟩
  rw [hrow] at hle ⊢
  rw [datalen_frame hf]
  exact hle

/-- A store of `datalen` that leaves room for the other claims on the slot. -/
theorem Shared.store (h : Shared G s) {k : ℕ} (hk : s.owners[k]? = some o) (hi : i < G.numRows)
    (hrow : o.row = G.slot i) {j : Job} {d : ℕ} (hpc : o.pc = .store j d)
    (hstore : ∀ k' o' j', k' ≠ k → s.owners[k']? = some o' → o'.row = o.row →
      o'.pc.claim = some j' → d + j.extent + j'.extent ≤ G.rowLen) :
    ∃ m', s.mem.store32 (o.row + 20) (toU32 (d + j.totlen)) = some m' ∧
      Shared G ⟨m', s.owners.set k { o with pc := .ready, done := o.done ++ [j.recs] }⟩ := by
  have hheld := (h.owner k o hk).2.2
  simp only [hpc] at hheld
  obtain ⟨hex, hle⟩ := hheld
  have hroom := h.mapped.slotRoom hi
  have hbase := hroom.base
  have hend := hroom.room
  have htot := (Job.writes hex).totlen
  have hext := Job.extent_eq hex
  have hlt := G.rowLen_lt
  obtain ⟨m', e, f, w⟩ := Mem.store32_spec (m := s.mem) (a := o.row + 20)
    ⟨by omega, by push_cast; omega⟩ (toU32 (d + j.totlen))
  have hu := toU32_of_range (x := (d : ℤ) + j.totlen) (by omega) (by omega)
  have hnew : m'.word (G.slot i + 20) = d + j.extent := by rw [← hrow, w]; omega
  rw [hrow] at f
  refine ⟨m', e, h.replace_datalen hk hrow (f.ico_mono (le_refl _) (by omega)) rfl
    ⟨fun j' hj' => absurd hj' (by simp [Pc.claim]), trivial⟩ (by omega) fun k' o₁ j' hne h₁ hr hj' => ?_⟩
  rw [hnew]
  exact hstore k' o₁ j' hne h₁ hr hj'

/-- STEP: every guarded step of an owner keeps the invariant. -/
theorem Shared.advance (h : Shared G s) {k : ℕ} (hk : s.owners[k]? = some o)
    (hg : Guarded G s (.advance k)) (hs : o.step s.mem = some (o', m')) :
    Shared G ⟨m', s.owners.set k o'⟩ := by
  obtain ⟨⟨i, hi, hrow⟩, hclaim, -⟩ := h.owner k o hk
  obtain ⟨htest, hstore⟩ := hg o hk
  have hroom := h.mapped.slotRoom hi
  have hd := h.datalen i hi
  rw [← hrow] at hroom hd
  have hstamp : ∀ {pc : Pc} {lo hi' : ℤ} {m₁ : Mem}, pc.claim = none → (∀ j d, pc ≠ .store j d) →
      Mem.Frame (Set.Ico lo hi') s.mem m₁ → G.slot i ≤ lo → hi' ≤ G.slot i + 20 →
      Shared G ⟨m₁, s.owners.set k { o with pc }⟩ := fun hc hne hf h1 h2 =>
    h.replace (i := i) hk (hf.mono fun x ⟨h3, h4⟩ => Or.inl ⟨by omega, by omega⟩) rfl (.quiet hc hne)
  cases hpc : o.pc with
  | stampTid =>
    obtain ⟨m₁, e, f⟩ := stampTid_spec hroom.head o.env
    simp only [Owner.step, hpc, e, Option.bind_eq_bind, Option.bind_some, Option.pure_def,
      Option.some.injEq, Prod.mk.injEq] at hs
    obtain ⟨rfl, rfl⟩ := hs
    exact hstamp rfl (by simp) f (by omega) (by omega)
  | stampTs =>
    obtain ⟨m₁, e, f⟩ := stampTs_spec hroom.head o.env
    simp only [Owner.step, hpc, e, Option.bind_eq_bind, Option.bind_some, Option.pure_def,
      Option.some.injEq, Prod.mk.injEq] at hs
    obtain ⟨rfl, rfl⟩ := hs
    exact hstamp rfl (by simp) f (by omega) (by omega)
  | stampId =>
    simp only [Owner.step, hpc, Option.bind_eq_bind, Option.bind_eq_some_iff, Option.pure_def,
      Option.some.injEq, Prod.mk.injEq] at hs
    obtain ⟨m₁, e, rfl, rfl⟩ := hs
    have f := (Mem.store_some e).2
    rw [leBytes_length] at f
    exact hstamp rfl (by simp) f (by omega) (by omega)
  | reset =>
    obtain ⟨m₁, e, hzero, f⟩ := resetDatalen_spec hroom.head
    simp only [Owner.step, hpc, e, Option.bind_eq_bind, Option.bind_some, Option.pure_def,
      Option.some.injEq, Prod.mk.injEq] at hs
    obtain ⟨rfl, rfl⟩ := hs
    exact h.reset hk hrow hzero f
  | location =>
    simp only [Owner.step, hpc, Option.bind_eq_bind, Option.bind_eq_some_iff, Option.pure_def,
      Option.some.injEq, Prod.mk.injEq] at hs
    obtain ⟨_, -, rfl, rfl⟩ := hs
    exact h.replace (i := i) hk (.refl ..) rfl (.quiet rfl (by simp))
  | ready =>
    cases htd : o.todo with
    | nil => simp [Owner.step, hpc, htd] at hs
    | cons j js =>
      have hfits := hroom.fits_eq hd j.totlen
      simp only [Owner.step, hpc, htd, hfits, Option.bind_eq_bind, Option.bind_some] at hs
      split at hs
      · rename_i hfit
        simp only [Option.pure_def, Option.some.injEq, Prod.mk.injEq] at hs
        obtain ⟨rfl, rfl⟩ := hs
        have hex := htest hpc j (by simp [htd]) (by rw [hfits, hfit])
        exact h.pass_test hk js hex (of_decide_eq_true hfit)
      · simp only [Option.pure_def, Option.some.injEq, Prod.mk.injEq] at hs
        obtain ⟨rfl, rfl⟩ := hs
        exact h.replace (i := i) hk (.refl ..) rfl (.quiet (by simp [Pc.claim]) (by simp))
  | addr j =>
    obtain ⟨hex, hle⟩ := hclaim j (by simp [hpc, Pc.claim])
    simp only [Owner.step, hpc, hroom.head.rowDatalen_eq, Option.bind_eq_bind, Option.bind_some,
      Option.pure_def, Option.some.injEq, Prod.mk.injEq] at hs
    obtain ⟨rfl, rfl⟩ := hs
    refine h.replace (i := i) hk (.refl ..) rfl ⟨fun j' hj' => ?_, hle⟩
    obtain rfl : j = j' := Option.some.inj hj'
    exact ⟨hex, hle⟩
  | write j off =>
    obtain ⟨m₁, e, hwritten⟩ := h.write hk hi hrow hpc
    simp only [Owner.step, hpc, e, Option.bind_eq_bind, Option.bind_some, Option.pure_def,
      Option.some.injEq, Prod.mk.injEq] at hs
    obtain ⟨rfl, rfl⟩ := hs
    exact hwritten
  | load j =>
    obtain ⟨hex, hle⟩ := hclaim j (by simp [hpc, Pc.claim])
    simp only [Owner.step, hpc, hroom.head.rowDatalen_eq, Option.bind_eq_bind, Option.bind_some,
      Option.pure_def, Option.some.injEq, Prod.mk.injEq] at hs
    obtain ⟨rfl, rfl⟩ := hs
    exact h.replace (i := i) hk (.refl ..) rfl
      ⟨fun j' hj' => absurd hj' (by simp [Pc.claim]), hex, hle⟩
  | store j d =>
    obtain ⟨m₁, e, hstored⟩ := h.store hk hi hrow hpc (hstore j d hpc)
    simp only [Owner.step, hpc, e, Option.bind_eq_bind, Option.bind_some, Option.pure_def,
      Option.some.injEq, Prod.mk.injEq] at hs
    obtain ⟨rfl, rfl⟩ := hs
    exact hstored
  | finished => simp [Owner.step, hpc] at hs

/-- STEP: every guarded step keeps the invariant. -/
theorem Shared.step_ok (h : Shared G s) {a : Act} (hg : Guarded G s a)
    (hs : step G.handle s a = some s') : Shared G s' := by
  cases a with
  | acquire start env =>
    obtain ⟨m, rowid, r, hfetch, hptr, rfl⟩ := step_acquire hs
    obtain ⟨hf, hid⟩ := fetchRowid_some hfetch
    have hm : Mapped G m := h.mapped.frame hf fun x hx => by have := hx.2; omega
    rw [hm.rowPtr_eq hid, Option.some.injEq] at hptr
    have hword : ∀ i : ℕ, m.word (G.slot i + 20) = s.mem.word (G.slot i + 20) := fun i =>
      hf.word_of_Ico (by have := G.slot_base i; omega)
    refine ⟨hm, fun i hi => by rw [hword]; exact h.datalen i hi, fun k o hk => ?_⟩
    rcases getElem?_concat_some hk with hk | ⟨rfl, rfl⟩
    · obtain ⟨⟨i, hi, hrow⟩, hclaim, hpc⟩ := h.owner k o hk
      refine ⟨⟨i, hi, hrow⟩, fun j hj => ?_, hpc⟩
      have := hclaim j hj
      rw [hrow] at this ⊢
      rwa [hword]
    · exact ⟨⟨_, Nat.mod_lt _ G.numRows_pos, hptr.symm⟩,
        fun j hj => absurd hj (by simp [Pc.claim]), trivial⟩
  | advance k =>
    obtain ⟨o, o', m, hk, hst, rfl⟩ := step_advance hs
    exact h.advance hk hg hst
  | append k a =>
    obtain ⟨o, hk, hpc, -, rfl⟩ := step_append hs
    refine h.replace (i := 0) hk (.refl ..) rfl ⟨fun j hj => absurd hj (by simp [hpc, Pc.claim]), ?_⟩
    simp [hpc]
  | finish k =>
    obtain ⟨o, hk, hpc, -, rfl⟩ := step_finish hs
    exact h.replace (i := 0) hk (.refl ..) rfl ⟨fun j hj => absurd hj (by simp [Pc.claim]), trivial⟩

end Step

/-- LAPPED: in every guarded run, whoever overtakes whom, every `datalen` stays within `row_len` and
    every record is written inside the payload of its slot. -/
theorem lapped_bounded {G : Geometry} {os : Os} {date : List UInt8} {h : Handle} {m₀ : Mem} {s : State}
    (hc : create os G.ps date G.config = some (h, m₀))
    (hrun : Run (step h) (Guarded G) ⟨m₀, []⟩ s) : Bounded G s := by
  obtain ⟨rfl, hm, hn, hz⟩ := G.of_create hc
  have hstart : Shared G ⟨m₀, []⟩ := by
    refine ⟨hm, fun i hi => ?_, by simp⟩
    have := ((Ring.start hm hn hz).blank i (Nat.zero_le _) hi).2
    simp only at this ⊢
    omega
  exact (hrun.invariant hstart fun t a u hr hok hs => hr.step_ok hok hs).bounded

/-- Owner 0 passes its space test on the empty row and is preempted; owner 1 takes the slot over and
    stores a record; owner 0 then loads `datalen` again for its write address. -/
def lappedRun : List Act :=
  let env : Env := ⟨1, 2, 3, 4, 5, 6⟩
  [.acquire (.row none 0) env] ++ List.replicate 5 (.advance 0) ++ [.append 0 (.char 97), .advance 0] ++
    [.acquire (.row none 0) env] ++ List.replicate 5 (.advance 1) ++ [.append 1 (.char 98)] ++
    List.replicate 5 (.advance 1) ++ [.advance 0]

/-- A ring of one row of 32 bytes. -/
def wideRow : Geometry := .of page4096 ⟨0, 1, 1, 32, 1⟩ (by decide)

/-- There is room for both records in it: owner 0 writes behind owner 1, and stores a `datalen` of 18. -/
theorem lapped_bounded_two : ∃ (m₀ : Mem) (s : State),
    create ⟨true, true⟩ wideRow.ps [] wideRow.config = some (wideRow.handle, m₀) ∧
    exec (step wideRow.handle) ⟨m₀, []⟩ (lappedRun ++ List.replicate 3 (.advance 0)) = some s ∧
    s.mem.word (wideRow.slot 0 + 20) = 18 ∧ Bounded wideRow s := by
  have hexec : ((create ⟨true, true⟩ wideRow.ps [] wideRow.config).any fun x =>
      decide (AllOk (step x.1) (Guarded wideRow) ⟨x.2, []⟩ (lappedRun ++ List.replicate 3 (.advance 0))) &&
        (exec (step x.1) ⟨x.2, []⟩ (lappedRun ++ List.replicate 3 (.advance 0))).any fun s =>
          decide (s.mem.word (wideRow.slot 0 + 20) = 18)) = true := by
    decide +kernel
  obtain ⟨⟨h, m₀⟩, hc, hend⟩ := (Option.any_eq_true ..).mp hexec
  obtain ⟨rfl, -⟩ := wideRow.of_create hc
  rw [Bool.and_eq_true, decide_eq_true_eq] at hend
  obtain ⟨s, hs, hdatalen⟩ := (Option.any_eq_true ..).mp hend.2
  exact ⟨m₀, s, hc, hs, of_decide_eq_true hdatalen, lapped_bounded hc (Run.of_exec hs hend.1)⟩

/-- A ring of one row of 16 bytes. -/
def oneRow : Geometry := .of page4096 ⟨0, 1, 1, 16, 1⟩ (by decide)

/-- The record of owner 0 is about to be written at offset 9, and does not end within 16 bytes. -/
theorem lapped_unbounded : ¬ ∀ (G : Geometry) (os : Os) (date : List UInt8) (h : Handle) (m₀ : Mem)
    (s : State), create os G.ps date G.config = some (h, m₀) →
    Run (step h) (fun _ _ => True) ⟨m₀, []⟩ s → Bounded G s := by
  intro hall
  have hbad : ((create ⟨true, true⟩ oneRow.ps [] oneRow.config).bind fun x =>
      exec (step x.1) ⟨x.2, []⟩ lappedRun).any (fun s => s.owners[0]?.any fun o =>
        match o.pc with
        | .write j off => decide (16 < off + j.extent)
        | _ => false) = true := by
    decide +kernel
  obtain ⟨s, hs, hover⟩ := (Option.any_eq_true ..).mp hbad
  obtain ⟨⟨h, m₀⟩, hc, hexec⟩ := Option.bind_eq_some_iff.mp hs
  obtain ⟨o, ho, hover⟩ := (Option.any_eq_true ..).mp hover
  have hok : AllOk (step h) (fun _ _ => True) ⟨m₀, []⟩ lappedRun := AllOk.of_forall fun _ _ => trivial
  have hrun := Run.of_exec hexec hok
  have hb := (hall oneRow _ _ _ _ _ hc hrun).writes 0 o
  have hlen : oneRow.rowLen = 16 := by decide
  split at hover
  · rename_i j off hpc
    have := hb j off ho hpc
    have := of_decide_eq_true hover
    omega
  · exact absurd hover (by simp)

end Log2mem
