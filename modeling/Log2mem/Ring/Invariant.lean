import Log2mem.Ring.Steps

/-! The invariant of the ring while no owner is overtaken by a full ring as it writes.

    Each step of an owner changes bytes of its own slot only, so what is known of every other slot
    stands; and it keeps what is known of its own, from `datalen = 0` on: the id it fetched and the
    greedy fill of what it has offered.

        acquisition k ──▶ slot k % num_rows          id k % 2³²
        retained: n - num_rows ≤ k < n      older ones have finished -/

namespace Log2mem
open Schemes

section Owners
variable (G : Geometry)

/-- The records stored by an owner that has offered `done`. -/
def Geometry.fill (done : List (List Rec)) : List Rec := recFormat.fit G.rowLen done

/-- The slot at `r` carries the id `rowid` and exactly the records kept of `done`. -/
structure Stored (m : Mem) (r : ℤ) (rowid : ℕ) (done : List (List Rec)) : Prop where
  id : m.word (r + 16) = rowid
  holds : RowHolds G.rowLen m r (G.fill done)

/-- There is room for the job's records. -/
def RoomFor (done : List (List Rec)) (j : Job) : Prop :=
  j.Exact → recFormat.total j.recs ≤ G.rowLen - recFormat.total (G.fill done)

/-- The job's records stand behind the stored ones; `datalen` does not count them yet. -/
structure Placed (m : Mem) (r : ℤ) (done : List (List Rec)) (j : Job) : Prop where
  exact : j.Exact
  room : recFormat.total j.recs ≤ G.rowLen - recFormat.total (G.fill done)
  chain : recFormat.Chain m (r + 24) (G.fill done ++ j.recs)

/-- The pushes to come of the current call: an event is alone on an empty row. -/
def TodoOk (o : Owner) : Prop :=
  (∀ j ∈ o.todo, j.isPush = true) ∨ (o.done = [] ∧ o.todo.length = 1)

/-- What is known of an owner's slot at each point of its program. -/
def OwnerOk (m : Mem) (o : Owner) : Prop :=
  match o.pc with
  | .stampTid | .stampTs | .stampId => o.done = []
  | .reset => o.done = [] ∧ m.word (o.row + 16) = o.rowid
  | .location => Stored G m o.row o.rowid o.done ∧ o.done = []
  | .ready => Stored G m o.row o.rowid o.done ∧ TodoOk o
  | .addr j => Stored G m o.row o.rowid o.done ∧ RoomFor G o.done j ∧ ∀ j ∈ o.todo, j.isPush = true
  | .write j off => Stored G m o.row o.rowid o.done ∧ RoomFor G o.done j ∧
      off = recFormat.total (G.fill o.done) ∧ ∀ j ∈ o.todo, j.isPush = true
  | .load j => Stored G m o.row o.rowid o.done ∧ Placed G m o.row o.done j ∧ ∀ j ∈ o.todo, j.isPush = true
  | .store j d => Stored G m o.row o.rowid o.done ∧ Placed G m o.row o.done j ∧
      d = recFormat.total (G.fill o.done) ∧ ∀ j ∈ o.todo, j.isPush = true
  | .finished => Stored G m o.row o.rowid o.done

variable {G} {m m' : Mem} {r : ℤ} {rowid : ℕ} {done : List (List Rec)} {j : Job} {o : Owner}

theorem Stored.frame {S : Set ℤ} (h : Stored G m r rowid done) (hf : Mem.Frame S m m')
    (h44 : ∀ x ∈ S, x < 44 ∨ 48 ≤ x) (hS : ∀ x ∈ S, x < r + 16 ∨ r + 24 + G.rowLen ≤ x) :
    Stored G m' r rowid done :=
  ⟨(hf.word_of_outside hS (le_refl _) (by omega)).trans h.id,
    h.holds.frame hf h44 fun x hx => by have := hS x hx; omega⟩

theorem Placed.frame {S : Set ℤ} (h : Placed G m r done j) (hst : Stored G m r rowid done)
    (hf : Mem.Frame S m m') (hS : ∀ x ∈ S, x < r + 24 ∨ r + 24 + G.rowLen ≤ x) :
    Placed G m' r done j := by
  refine ⟨h.exact, h.room, recFormat.chain_frame hf (fun x _ hx hS' => ?_) h.chain⟩
  have := hS x hS'
  have := hst.holds.le
  have := h.room
  have := recFormat.total_append (G.fill done) j.recs
  omega

theorem OwnerOk.frame {S : Set ℤ} (h : OwnerOk G m o) (hf : Mem.Frame S m m')
    (h44 : ∀ x ∈ S, x < 44 ∨ 48 ≤ x) (hS : ∀ x ∈ S, x < o.row ∨ o.row + 24 + G.rowLen ≤ x) :
    OwnerOk G m' o := by
  have hst : Stored G m o.row o.rowid o.done → Stored G m' o.row o.rowid o.done := fun h =>
    h.frame hf h44 fun x hx => by have := hS x hx; omega
  have hpl : ∀ j, Stored G m o.row o.rowid o.done → Placed G m o.row o.done j →
      Placed G m' o.row o.done j := fun j h h' =>
    h'.frame h hf fun x hx => by have := hS x hx; omega
  cases hpc : o.pc <;> simp only [OwnerOk, hpc] at h ⊢
  case stampTid | stampTs | stampId => exact h
  case reset =>
    exact ⟨h.1, by rw [hf.word_of_outside hS (by omega) (by omega), h.2]⟩
  case location | ready | addr | write => exact ⟨hst h.1, h.2⟩
  case load | store => exact ⟨hst h.1, hpl _ h.1 h.2.1, h.2.2⟩
  case finished => exact hst h

/-- Storing the sum of an update counts the records already in place. -/
theorem Placed.store_spec (hp : Placed G m r done j) (hst : Stored G m r rowid done) :
    ∃ m', m.store32 (r + 20) (toU32 (recFormat.total (G.fill done) + j.totlen)) = some m' ∧
      Stored G m' r rowid (done ++ [j.recs]) ∧ Mem.Frame (Set.Ico (r + 20) (r + 24)) m m' := by
  have h := hst.holds
  have hroom := hp.room
  have hle := h.le
  have hbase := h.base
  obtain ⟨m', e, hrow, f⟩ := growDatalen_spec h.cap h.lt hbase h.room h.datalen (by omega) hp.chain
  rw [growDatalen, h.rowDatalen_eq, Option.bind_eq_bind, Option.bind_some,
    ← (Job.writes hp.exact).totlen] at e
  refine ⟨m', e, ⟨(f.word_of_Ico (by omega)).trans hst.id, ?_⟩, f⟩
  rw [Geometry.fill, recFormat.fit_concat]
  exact (recFormat.keep_of_fits hroom).symm ▸ hrow

/-- A job the space test refuses is offered and dropped. -/
theorem Stored.dropped (hst : Stored G m r rowid done)
    (hno : ¬ j.totlen ≤ G.rowLen - recFormat.total (G.fill done)) :
    Stored G m r rowid (done ++ [j.recs]) := by
  refine ⟨hst.id, ?_⟩
  have hkeep : recFormat.keep G.rowLen (G.fill done) j.recs = G.fill done := by
    by_cases hex : j.Exact
    · have := (Job.writes hex).totlen
      have := hst.holds.le
      exact recFormat.keep_of_not_fits (by omega)
    · exact (Job.overruns hex).keep_eq G.rowLen_lt _
  rw [Geometry.fill, recFormat.fit_concat]
  exact hkeep.symm ▸ hst.holds

/-- The records of a job written behind the stored ones leave those in place. -/
theorem Stored.write_spec (hst : Stored G m r rowid done) (hex : j.Exact)
    (hfit : recFormat.total j.recs ≤ G.rowLen - recFormat.total (G.fill done)) :
    ∃ m', j.put (r + 24 + recFormat.total (G.fill done)) m = some m' ∧ Stored G m' r rowid done ∧
      Placed G m' r done j ∧ Mem.Frame (Set.Ico (r + 24) (r + (24 + G.rowLen))) m m' := by
  have h := hst.holds
  have hle := h.le
  have hbase := h.base
  have hroom := h.room
  obtain ⟨m', e, f, c⟩ := (Job.writes hex).put m (r + 24 + recFormat.total (G.fill done))
    ⟨by omega, by omega⟩
  have hkept : recFormat.Chain m' (r + 24) (G.fill done) :=
    recFormat.chain_frame f (fun x _ h2 hx => by have := hx.1; omega) h.chain
  refine ⟨m', e, ⟨(f.word_of_Ico (by omega)).trans hst.id, ?_⟩, ⟨hex, hfit, ?_⟩,
    f.ico_mono (by omega) (by omega)⟩
  · exact ⟨(f.word_of_Ico (by omega)).trans h.cap, h.lt, hbase, by rw [f.size]; exact hroom,
      (f.word_of_Ico (by omega)).trans h.datalen, hle, hkept⟩
  · rw [recFormat.chain_append]
    exact ⟨hkept, c⟩

theorem TodoOk.tail {js : List Job} (h : TodoOk o) (htd : o.todo = j :: js) :
    ∀ j' ∈ js, j'.isPush = true := by
  rcases h with hp | ⟨-, hl⟩
  · exact fun j' hj' => hp j' (by rw [htd]; exact List.mem_cons_of_mem _ hj')
  · rw [htd, List.length_cons, Nat.add_eq_right, List.length_eq_zero_iff] at hl
    simp [hl]

theorem TodoOk.event {js : List Job} {e : Event} (h : TodoOk o) (htd : o.todo = .event e :: js) :
    o.done = [] := by
  rcases h with hp | ⟨hd, -⟩
  · exact absurd (hp (.event e) (by rw [htd]; exact List.mem_cons_self ..)) (by simp [Job.isPush])
  · exact hd

/-- STEP: a step of an owner whose current job has an exact length succeeds, changes its own slot
    only, and keeps what is known of it. -/
theorem Owner.step_spec {k : ℕ} (hm : Mapped G m) (hk : k < G.numRows) (hrow : o.row = G.slot k)
    (hid : o.rowid < 4294967296) (hok : OwnerOk G m o) (hidle : o.idle = false)
    (hfin : o.pc ≠ .finished) (hex : ∀ j off, o.pc = .write j off → j.Exact) :
    ∃ o' m', o.step m = some (o', m') ∧ OwnerOk G m' o' ∧ o'.row = o.row ∧ o'.rowid = o.rowid ∧
      Mem.Frame (G.slotBytes k) m m' := by
  have hroom := hm.slotRoom hk
  rw [← hrow] at hroom
  have hslot : ∀ {lo hi : ℤ} {m' : Mem}, Mem.Frame (Set.Ico lo hi) m m' → o.row ≤ lo →
      hi ≤ o.row + (24 + G.rowLen) → Mem.Frame (G.slotBytes k) m m' := fun hf h1 h2 => by
    rw [Geometry.slotBytes, ← hrow]
    exact hf.ico_mono h1 h2
  cases hpc : o.pc with
  | stampTid =>
    obtain ⟨m', e, f⟩ := stampTid_spec hroom.head o.env
    simp only [OwnerOk, hpc] at hok
    exact ⟨{ o with pc := .stampTs }, m', by simp [Owner.step, hpc, e], hok, rfl, rfl,
      hslot f (le_refl _) (by omega)⟩
  | stampTs =>
    obtain ⟨m', e, f⟩ := stampTs_spec hroom.head o.env
    simp only [OwnerOk, hpc] at hok
    exact ⟨{ o with pc := .stampId }, m', by simp [Owner.step, hpc, e], hok, rfl, rfl,
      hslot f (by omega) (by omega)⟩
  | stampId =>
    obtain ⟨m', e, w, f⟩ := stampId_spec hroom.head hid
    simp only [OwnerOk, hpc] at hok
    exact ⟨{ o with pc := .reset }, m', by simp [Owner.step, hpc, e], ⟨hok, w⟩, rfl, rfl,
      hslot f (by omega) (by omega)⟩
  | reset =>
    obtain ⟨m', e, hzero, f⟩ := resetDatalen_spec hroom.head
    have hrow' := (hroom.frame_ico f (by have := hroom.base; omega)).empty hzero
    simp only [OwnerOk, hpc] at hok
    refine ⟨{ o with pc := .location }, m', by simp [Owner.step, hpc, e], ⟨⟨?_, ?_⟩, hok.1⟩, rfl, rfl,
      hslot f (by omega) (by omega)⟩
    · exact (f.word_of_Ico (by simp only; omega)).trans hok.2
    · simpa only [Geometry.fill, hok.1, Format.fit_nil] using hrow'
  | location =>
    simp only [OwnerOk, hpc] at hok
    refine ⟨{ o with pc := .ready, todo := o.start.jobs (m.word 32) }, m, ?_, ⟨hok.1, ?_⟩, rfl, rfl,
      .refl ..⟩
    · simp [Owner.step, hpc, hdrOptions_room hroom.head]
    · cases hs : o.start with
      | row filename lineno => exact Or.inl (by simp [Start.jobs, Job.isPush])
      | event e => exact Or.inr ⟨hok.2, rfl⟩
  | ready =>
    simp only [OwnerOk, hpc] at hok
    obtain ⟨hst, htodo⟩ := hok
    cases htd : o.todo with
    | nil => exact absurd (Owner.idle_iff.mpr ⟨hpc, htd⟩) (by simp [hidle])
    | cons j js =>
      have htest := hst.holds.fits_eq j.totlen
      have htail := htodo.tail htd
      by_cases hfit : j.totlen ≤ G.rowLen - recFormat.total (G.fill o.done)
      · have hR : RoomFor G o.done j := fun hex => by
          have := (Job.writes hex).totlen
          have := hst.holds.le
          omega
        refine ⟨{ o with pc := j.placed, todo := js }, m, ?_, ?_, rfl, rfl, .refl ..⟩
        · simp [Owner.step, hpc, htd, htest, hfit]
        · cases j with
          | push p => exact ⟨hst, hR, htail⟩
          | event e => exact ⟨hst, hR, by simp [Geometry.fill, htodo.event htd], htail⟩
      · refine ⟨{ o with pc := .ready, todo := js, done := o.done ++ [j.recs] }, m, ?_,
          ⟨hst.dropped hfit, Or.inl htail⟩, rfl, rfl, .refl ..⟩
        simp [Owner.step, hpc, htd, htest, hfit]
  | addr j =>
    simp only [OwnerOk, hpc] at hok
    obtain ⟨hst, hR, htd⟩ := hok
    exact ⟨{ o with pc := .write j (recFormat.total (G.fill o.done)) }, m,
      by simp [Owner.step, hpc, hst.holds.rowDatalen_eq], ⟨hst, hR, rfl, htd⟩, rfl, rfl, .refl ..⟩
  | write j off =>
    simp only [OwnerOk, hpc] at hok
    obtain ⟨hst, hR, rfl, htd⟩ := hok
    have hexact := hex j _ hpc
    obtain ⟨m', e, hst', hpl, f⟩ := hst.write_spec hexact (hR hexact)
    exact ⟨{ o with pc := .load j }, m', by simp [Owner.step, hpc, e], ⟨hst', hpl, htd⟩, rfl, rfl,
      hslot f (by omega) (le_refl _)⟩
  | load j =>
    simp only [OwnerOk, hpc] at hok
    obtain ⟨hst, hpl, htd⟩ := hok
    exact ⟨{ o with pc := .store j (recFormat.total (G.fill o.done)) }, m,
      by simp [Owner.step, hpc, hst.holds.rowDatalen_eq], ⟨hst, hpl, rfl, htd⟩, rfl, rfl, .refl ..⟩
  | store j d =>
    simp only [OwnerOk, hpc] at hok
    obtain ⟨hst, hpl, rfl, htd⟩ := hok
    obtain ⟨m', e, hst', f⟩ := hpl.store_spec hst
    exact ⟨{ o with pc := .ready, done := o.done ++ [j.recs] }, m', by simp [Owner.step, hpc, e],
      ⟨hst', Or.inl htd⟩, rfl, rfl, hslot f (by omega) (by omega)⟩
  | finished => exact absurd hpc hfin

/-- A step that succeeds is not taken by an idle or finished owner, and writes an exact length. -/
theorem Owner.step_some {k : ℕ} {o' : Owner} (hm : Mapped G m)
    (hrow : o.row = G.slot k) (hs : o.step m = some (o', m')) :
    o.idle = false ∧ o.pc ≠ .finished ∧ ∀ j off, o.pc = .write j off → j.Exact := by
  refine ⟨?_, fun hpc => ?_, fun j off hpc => ?_⟩
  · by_contra hidle
    obtain ⟨hpc, htd⟩ := Owner.idle_iff.mp (by simpa using hidle)
    simp [Owner.step, hpc, htd] at hs
  · simp [Owner.step, hpc] at hs
  · by_contra hex
    have hbase := G.slot_base k
    have hfault := (Job.overruns hex).faults m (o.row + 24 + off) (by omega) hm.size_lt
    simp [Owner.step, hpc, hfault] at hs

/-- Every successful step of an owner changes its own slot only, and keeps what is known of it. -/
theorem Owner.step_ok {k : ℕ} {o' : Owner} (hm : Mapped G m) (hk : k < G.numRows)
    (hrow : o.row = G.slot k) (hid : o.rowid < 4294967296) (hok : OwnerOk G m o)
    (hs : o.step m = some (o', m')) :
    OwnerOk G m' o' ∧ o'.row = o.row ∧ o'.rowid = o.rowid ∧ Mem.Frame (G.slotBytes k) m m' := by
  obtain ⟨hidle, hfin, hex⟩ := Owner.step_some hm hrow hs
  obtain ⟨o₂, m₂, e, h⟩ := Owner.step_spec hm hk hrow hid hok hidle hfin hex
  rw [hs, Option.some.injEq, Prod.mk.injEq] at e
  obtain ⟨rfl, rfl⟩ := e
  exact h

end Owners

/-! ### The ring -/

/-- The invariant of the ring: acquisition `k` owns slot `k % num_rows` under the id `k % 2 ^ 32`, the
    slots of the last `num_rows` acquisitions are theirs alone, and the others have finished. -/
structure Ring (G : Geometry) (s : State) : Prop where
  mapped : Mapped G s.mem
  nextrow : s.mem.word 28 = s.owners.length % 4294967296
  owner : ∀ k o, s.owners[k]? = some o →
    o.rowid = k % 4294967296 ∧ o.row = G.slot (k % G.numRows)
  held : ∀ k o, s.owners[k]? = some o → s.owners.length ≤ k + G.numRows → OwnerOk G s.mem o
  lapped : ∀ k o, s.owners[k]? = some o → k + G.numRows < s.owners.length → o.pc = .finished
  blank : ∀ j, s.owners.length ≤ j → j < G.numRows →
    s.mem.word (G.slot j + 16) = 0 ∧ s.mem.word (G.slot j + 20) = 0

section Ring
variable {G : Geometry} {s s' : State}

theorem Ring.start {m : Mem} (hm : Mapped G m) (hn : m.word 28 = 0)
    (hz : ∀ x, 92 ≤ x → m.byte x = 0) : Ring G ⟨m, []⟩ where
  mapped := hm
  nextrow := by simpa using hn
  owner := by simp
  held := by simp
  lapped := by simp
  blank j _ _ := by
    have hbase := G.slot_base j
    exact ⟨Mem.word_eq_zero fun x hx => hz x (by omega), Mem.word_eq_zero fun x hx => hz x (by omega)⟩

/-- A retained owner may change its own slot: all the others are left alone. -/
theorem Ring.replace (hr : Ring G s) {k : ℕ} {o o' : Owner} {m' : Mem} (hk : s.owners[k]? = some o)
    (hret : s.owners.length ≤ k + G.numRows)
    (hf : Mem.Frame (G.slotBytes (k % G.numRows)) s.mem m') (hok : OwnerOk G m' o')
    (hrow : o'.row = o.row) (hid : o'.rowid = o.rowid) :
    Ring G { mem := m', owners := s.owners.set k o' } := by
  have hlen := lt_of_getElem?_some hk
  have hslot : k % G.numRows < G.numRows := Nat.mod_lt _ G.numRows_pos
  refine ⟨hr.mapped.frame_slot hf, ?_, fun k' o₁ h => ?_, fun k' o₁ h hlen' => ?_,
    fun k' o₁ h hlap => ?_, fun j hj hj' => ?_⟩
  · rw [List.length_set,
      hf.word_eq fun x _ hx hx' => by have := G.le_of_mem_slotBytes hx'; omega]
    exact hr.nextrow
  · rcases getElem?_set_some h with ⟨rfl, rfl⟩ | ⟨-, h⟩
    · rw [hrow, hid]; exact hr.owner k' o hk
    · exact hr.owner k' o₁ h
  · rw [List.length_set] at hlen'
    rcases getElem?_set_some h with ⟨rfl, rfl⟩ | ⟨hne, h⟩
    · exact hok
    · have hlt := lt_of_getElem?_some h
      have hne' : k % G.numRows ≠ k' % G.numRows := fun he =>
        hne (Retained.slot_inj ⟨hlt, hlen'⟩ ⟨hlen, hret⟩ he.symm)
      refine (hr.held k' o₁ h hlen').frame hf (fun x hx => ?_) (fun x hx => ?_)
      · have := G.le_of_mem_slotBytes hx
        omega
      · rw [(hr.owner k' o₁ h).2]
        exact G.mem_slotBytes_of_ne hne' hx
  · rw [List.length_set] at hlap
    rcases getElem?_set_some h with ⟨rfl, rfl⟩ | ⟨-, h⟩
    · omega
    · exact hr.lapped k' o₁ h hlap
  · rw [List.length_set] at hj
    have hne : k % G.numRows ≠ j := fun he => by
      have := Nat.mod_le k G.numRows
      omega
    have hout : ∀ x ∈ G.slotBytes (k % G.numRows), x < G.slot j ∨ G.slot j + 24 + G.rowLen ≤ x :=
      fun x hx => G.mem_slotBytes_of_ne hne hx
    have hid : m'.word (G.slot j + 16) = s.mem.word (G.slot j + 16) :=
      hf.word_of_outside hout (by omega) (by omega)
    have hlen : m'.word (G.slot j + 20) = s.mem.word (G.slot j + 20) :=
      hf.word_of_outside hout (by omega) (by omega)
    rw [hid, hlen]
    exact hr.blank j hj hj'

theorem Ring.retained (hr : Ring G s) {k : ℕ} {o : Owner} (hk : s.owners[k]? = some o)
    (hpc : o.pc ≠ .finished) : s.owners.length ≤ k + G.numRows := by
  by_contra hlt
  exact hpc (hr.lapped k o hk (by omega))

/-- The fetch-add of acquisition `n` hands out slot `n % num_rows` under the id `n % 2 ^ 32`. -/
theorem Ring.acquire (hr : Ring G s) (start : Start) (env : Env) :
    ∃ m, step G.handle s (.acquire start env) = some
        { mem := m, owners := s.owners ++ [⟨G.slot (s.owners.length % G.numRows),
          s.owners.length % 4294967296, start, env, .stampTid, [], []⟩] } ∧
      Mem.Frame (Set.Ico 28 32) s.mem m ∧ m.word 28 = (s.owners.length + 1) % 4294967296 := by
  obtain ⟨m, e, w, f⟩ := hr.mapped.fetchRowid_spec
  have hm : Mapped G m := hr.mapped.frame f fun x hx => by have := hx.2; omega
  have hptr := hm.rowPtr_eq (s.mem.word_lt 28)
  rw [hr.nextrow, G.wrapped_slot] at hptr
  refine ⟨m, ?_, f, by rw [w, hr.nextrow, Nat.mod_add_mod]⟩
  simp [step, e, hr.nextrow, hptr]

/-- A new acquisition takes over the slot of one that has finished. -/
theorem Ring.concat (hr : Ring G s) {m : Mem} (f : Mem.Frame (Set.Ico 28 32) s.mem m)
    (w : m.word 28 = (s.owners.length + 1) % 4294967296) {start : Start} {env : Env}
    (hok : Timely G.numRows s (.acquire start env)) :
    Ring G { mem := m, owners := s.owners ++ [⟨G.slot (s.owners.length % G.numRows),
      s.owners.length % 4294967296, start, env, .stampTid, [], []⟩] } := by
  have hlast : (s.owners ++ [(⟨G.slot (s.owners.length % G.numRows), s.owners.length % 4294967296, start,
      env, .stampTid, [], []⟩ : Owner)]).length = s.owners.length + 1 := by
    rw [List.length_append, List.length_singleton]
  refine ⟨hr.mapped.frame f fun x hx => by have := hx.2; omega, ?_, fun k o h => ?_,
    fun k o h hlen => ?_, fun k o h hlap => ?_, fun j hj hj' => ?_⟩
  · rw [hlast, w]
  · rcases getElem?_concat_some h with h | ⟨rfl, rfl⟩
    · exact hr.owner k o h
    · exact ⟨rfl, rfl⟩
  · rw [hlast] at hlen
    rcases getElem?_concat_some h with h | ⟨rfl, rfl⟩
    · have hbase := G.slot_base (k % G.numRows)
      have hrow := (hr.owner k o h).2
      exact (hr.held k o h (by omega)).frame f (Mem.outside_Ico (by omega)) (Mem.outside_Ico (by omega))
    · exact rfl
  · rw [hlast] at hlap
    rcases getElem?_concat_some h with h | ⟨rfl, rfl⟩
    · rcases Nat.lt_or_ge (k + G.numRows) s.owners.length with hlt | hge
      · exact hr.lapped k o h hlt
      · exact hok k o (by omega) h
    · have hpos := G.numRows_pos
      omega
  · rw [hlast] at hj
    have hbase := G.slot_base j
    rw [f.word_of_Ico (by omega), f.word_of_Ico (by omega)]
    exact hr.blank j (by omega) hj'

/-- STEP: every timely step keeps the ring. -/
theorem Ring.step_ok (hr : Ring G s) {a : Act} (hok : Timely G.numRows s a)
    (hs : step G.handle s a = some s') : Ring G s' := by
  cases a with
  | acquire start env =>
    obtain ⟨m, e, f, w⟩ := hr.acquire start env
    rw [e, Option.some.injEq] at hs
    subst hs
    exact hr.concat f w hok
  | advance k =>
    obtain ⟨o, o', m, hk, hst, rfl⟩ := step_advance hs
    obtain ⟨hid, hrow⟩ := hr.owner k o hk
    have hslot : k % G.numRows < G.numRows := Nat.mod_lt _ G.numRows_pos
    have hret := hr.retained hk (Owner.step_some hr.mapped hrow hst).2.1
    obtain ⟨hok', hrow', hid', hf⟩ := Owner.step_ok hr.mapped hslot hrow (by omega)
      (hr.held k o hk hret) hst
    exact hr.replace hk hret hf hok' hrow' hid'
  | append k a =>
    obtain ⟨o, hk, hpc, htd, rfl⟩ := step_append hs
    have hret := hr.retained hk (by rw [hpc]; exact Pc.noConfusion)
    have hok' := hr.held k o hk hret
    simp only [OwnerOk, hpc] at hok'
    refine hr.replace hk hret (.refl ..) ?_ rfl rfl
    simp only [OwnerOk, hpc]
    exact ⟨hok'.1, Or.inl (by simp [Job.isPush])⟩
  | finish k =>
    obtain ⟨o, hk, hpc, htd, rfl⟩ := step_finish hs
    have hret := hr.retained hk (by rw [hpc]; exact Pc.noConfusion)
    have hok' := hr.held k o hk hret
    simp only [OwnerOk, hpc] at hok'
    exact hr.replace hk hret (.refl ..) hok'.1 rfl rfl

/-- RUN: every timely run from a fresh memmap keeps the ring. -/
theorem Ring.run {os : Os} {date : List UInt8} {h : Handle} {m₀ : Mem}
    (hc : create os G.ps date G.config = some (h, m₀))
    (hrun : Run (step h) (Timely G.numRows) ⟨m₀, []⟩ s) : h = G.handle ∧ Ring G s := by
  obtain ⟨rfl, hm, hn, hz⟩ := G.of_create hc
  exact ⟨rfl, hrun.invariant (Ring.start hm hn hz) fun t a u hr hok hs => hr.step_ok hok hs⟩

end Ring

end Log2mem
