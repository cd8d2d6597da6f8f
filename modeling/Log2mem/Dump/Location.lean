import Log2mem.Row.Paths

/-! The source location of a row: two best-effort pushes, and the group `(file:line) ` that
    `print_rows` makes of them.

    With `MEMLOG_FILELINE` a row starts with the pushes of the file name and of the line number. Each is
    tested for its own room, so a row may keep one and drop the other; `print_rows` prints the opening
    of the group for the one and its end for the other. Neither is affected by what is appended later.

        row_len   0 ……… 11 │ 12 ……… strlen + 8 │ strlen + 9 ……… strlen + 20 │ strlen + 21 ………
        kept      nothing   │ line number only   │ file name only             │ both           -/

namespace Log2mem
open Schemes

/-- A record of the source location. -/
def Rec.IsLocation (x : Rec) : Prop := x.type = .filename ∨ x.type = .lineno

/-- The two records of a source location. -/
def locationRecs (filename : CStr) (lineno : Int32) : List Rec :=
  [⟨.filename, filename.chars ++ [0]⟩, ⟨.lineno, leBytes 4 lineno.toUInt32.toNat⟩]

/-- `"(%s:"` and `"%d) "`, unless `g_terse`. -/
def locationText (g : Globals) (f : Printf) (filename : CStr) (lineno : Int32) : Text :=
  if g.terse then [] else [40] ++ filename.chars ++ [58] ++ f.int lineno.toInt ++ [41, 32]

/-- The row at `r` has its location whole, as its first two records, or not at all; and `print_rows`
    prints the whole group or none of it. -/
def WholeLocation (filename : CStr) (lineno : Int32) (r : ℤ) (m : Mem) : Prop :=
  ∃ loc rest, (loc = [] ∨ loc = locationRecs filename lineno) ∧ (∀ x ∈ rest, ¬ x.IsLocation) ∧
    m.word (r + 20) = recFormat.total (loc ++ rest) ∧ recFormat.Chain m (r + 24) (loc ++ rest) ∧
    ∀ (g : Globals) (f : Printf) (fuel : ℕ), (loc ++ rest).length < fuel →
      ∃ w, walk g f r fuel .start m = some w ∧
        w.out = (if loc = [] then [] else locationText g f filename lineno) ++ (recsText g f false rest).1

/-- `__log2mem_init_row` produces a row, and after whatever is appended its location is whole or not
    there. -/
def LocationKept (h : Handle) (env : Env) (filename : CStr) (lineno : Int32) (r : ℤ) (m : Mem) : Prop :=
  ∃ m₀, initRow h env (some filename) lineno m = some (m₀, r) ∧
    ∀ as m', runAppends r as m₀ = some m' → WholeLocation filename lineno r m'

/-- A slot in a mapping, for any `row_len`: from `2 ^ 31` on, `(int) row_len` is negative and no byte of
    the payload is ever in use. -/
structure AnySlot (rowLen : UInt32) (m : Mem) (r : ℤ) : Prop where
  cap : m.word 44 = rowLen.toNat
  base : 92 ≤ r
  room : r + 24 + (toInt32 rowLen.toNat).toNat ≤ m.size
  size : m.size < 2147483648

/-- Both records fit, or neither passes its space test; `remain` is `(int) row_len`. -/
def LocationFits (remain : ℤ) (len : ℕ) : Prop :=
  len + 21 ≤ remain ∨ remain < 12 ∧ remain < toInt32 (len + 9)

/-! ### Records and their bytes -/

theorem Rec.At.unique {m : Mem} {a : ℤ} {x y : Rec} (hx : x.At m a) (hy : y.At m a) : x = y := by
  obtain ⟨type, payload⟩ := x
  obtain ⟨type', payload'⟩ := y
  obtain ⟨ht, hl, hp⟩ := hx
  obtain ⟨ht', hl', hp'⟩ := hy
  simp only at ht hl hp ht' hl' hp'
  have htype : type = type' := by
    have hcode := congrArg DataType.ofCode (ht.symm.trans ht')
    rwa [DataType.ofCode_code, DataType.ofCode_code, Option.some.injEq] at hcode
  have hlen : payload.length = payload'.length := by omega
  rw [hlen] at hp
  rw [htype, hp.symm.trans hp']

/-- Every `totlen` of a string push is the exact size of its record, taken as an `int`. -/
theorem strTotlen_eq (len : Int32) : strTotlen len = toInt32 (len.toInt + 9) := by
  have hone := toInt32_emod (len.toInt + 1)
  rw [strTotlen, toInt32_toSize]
  exact toInt32_congr (by omega)

theorem CStr.strTotlen_eq (s : CStr) : strTotlen s.strlen = toInt32 (s.chars.length + 9) := by
  have hlen : s.strlen.toInt % 4294967296 = (s.chars.length : ℤ) % 4294967296 := by
    rw [CStr.strlen, Int32.toInt_ofNat']
    exact Int.bmod_emod
  rw [Log2mem.strTotlen_eq]
  exact toInt32_congr (by omega)

section Appends
variable {rowLen : ℕ} {m m' : Mem} {r : ℤ} {recs : List Rec}

/-- Whatever its length, a push that returns has made one step of the greedy fill. -/
theorem Push.run_some {p : Push} (h : RowHolds rowLen m r recs) (hsize : m.size < 2147483648)
    (hs : p.run r m = some m') :
    RowHolds rowLen m' r (recFormat.keep rowLen recs p.recs) ∧ m'.size = m.size := by
  by_cases hp : p.Exact
  · obtain ⟨m₁, e, hrow, f⟩ := Push.run_spec hp h
    rw [hs, Option.some.injEq] at e
    rw [e]
    exact ⟨hrow, f.size⟩
  · have hover := Push.overruns hp
    rw [Push.run_eq] at hs
    by_cases hfit : p.totlen ≤ rowLen - recFormat.total recs
    · have hbase := h.base
      rw [h.pushRecord_room hfit, hover.faults m _ (by omega) hsize] at hs
      exact absurd hs (by simp)
    · rw [pushRecord_dropped h hfit, Option.some.injEq] at hs
      rw [← hs, hover.keep_eq h.lt]
      exact ⟨h, rfl⟩

theorem Append.not_location {a : Append} {p : Push} (hp : p ∈ a.pushes) :
    ∀ x ∈ p.recs, ¬ x.IsLocation := by
  have hstr : ∀ (len : Int32) (b : Buf), ∀ x ∈ strRecs .string len b, ¬ x.IsLocation := by
    intro len b x hx
    unfold strRecs at hx
    split at hx
    · rw [List.mem_singleton.mp hx]
      simp [Rec.IsLocation, strRec]
    · exact absurd hx (by simp)
  rcases a with (_ | s) | ⟨_ | b, len⟩ | _ | _ | _ | _ | _ | _ | _ <;>
    simp only [Append.pushes, List.not_mem_nil, List.mem_singleton] at hp <;> subst hp
  · exact hstr s.strlen s.buf
  · exact hstr len b
  all_goals
    intro x hx
    rw [List.mem_singleton.mp hx]
    simp [Rec.IsLocation, Value.type]

theorem runPushes_some {ps : List Push} (hps : ∀ p ∈ ps, ∀ x ∈ p.recs, ¬ x.IsLocation) :
    ∀ {m m' : Mem} {recs : List Rec}, RowHolds rowLen m r recs → m.size < 2147483648 →
    runPushes r ps m = some m' → ∃ rest, RowHolds rowLen m' r (recs ++ rest) ∧ m'.size = m.size ∧
      ∀ x ∈ rest, ¬ x.IsLocation ∧ x.WellTyped := by
  induction ps with
  | nil =>
    intro m m' recs h _ hs
    rw [runPushes, Option.some.injEq] at hs
    exact ⟨[], by simpa [hs] using h, by rw [hs], by simp⟩
  | cons p ps ih =>
    intro m m' recs h hsize hs
    obtain ⟨m₁, e, hs⟩ := Option.bind_eq_some_iff.mp hs
    obtain ⟨hrow, hsz⟩ := Push.run_some h hsize e
    obtain ⟨g, hg, hkeep⟩ : ∃ g, (∀ x ∈ g, x ∈ p.recs) ∧ recFormat.keep rowLen recs p.recs = recs ++ g := by
      unfold Format.keep
      split
      · exact ⟨p.recs, fun _ hx => hx, rfl⟩
      · exact ⟨[], by simp, by simp⟩
    rw [hkeep] at hrow
    obtain ⟨rest, hrow', hsz', hrest⟩ := ih (fun q hq => hps q (List.mem_cons_of_mem p hq)) hrow
      (by omega) hs
    refine ⟨g ++ rest, by rwa [← List.append_assoc], hsz'.trans hsz, fun x hx => ?_⟩
    rcases List.mem_append.mp hx with hx | hx
    · exact ⟨hps p (List.mem_cons_self ..) x (hg x hx), p.wellTyped x (hg x hx)⟩
    · exact hrest x hx

/-- RUN: later appends only add records that are no location. -/
theorem runAppends_some {as : List Append} : ∀ {m m' : Mem} {recs : List Rec},
    RowHolds rowLen m r recs → m.size < 2147483648 → runAppends r as m = some m' →
    ∃ rest, RowHolds rowLen m' r (recs ++ rest) ∧ ∀ x ∈ rest, ¬ x.IsLocation ∧ x.WellTyped := by
  induction as with
  | nil =>
    intro m m' recs h _ hs
    rw [runAppends, Option.some.injEq] at hs
    exact ⟨[], by simpa [hs] using h, by simp⟩
  | cons a as ih =>
    intro m m' recs h hsize hs
    obtain ⟨m₁, e, hs⟩ := Option.bind_eq_some_iff.mp hs
    rw [a.run_eq] at e
    obtain ⟨rest, hrow, hsz, hrest⟩ := runPushes_some (fun p hp => Append.not_location hp) h hsize e
    obtain ⟨rest', hrow', hrest'⟩ := ih hrow (by omega) hs
    refine ⟨rest ++ rest', by rwa [← List.append_assoc], fun x hx => ?_⟩
    rcases List.mem_append.mp hx with hx | hx
    · exact hrest x hx
    · exact hrest' x hx

end Appends

/-! ### Whole or not -/

section Whole
variable {rowLen : ℕ} {m m' : Mem} {r : ℤ} {recs rest : List Rec} {filename : CStr} {lineno : Int32}

theorem locationRecs_wellTyped : ∀ x ∈ locationRecs filename lineno, x.WellTyped := by
  intro x hx
  rcases List.mem_cons.mp hx with rfl | hx
  · simp [Rec.WellTyped]
  · rw [List.mem_singleton.mp hx]
    simp [Rec.WellTyped]

theorem recsText_location (g : Globals) (f : Printf) (rest : List Rec) :
    (recsText g f false (locationRecs filename lineno ++ rest)).1 =
      locationText g f filename lineno ++ (recsText g f false rest).1 := by
  cases hg : g.terse <;>
    simp [locationRecs, locationText, recsText, recText, hg, strText_nul filename.nul_free, toInt32_int32]

/-- A row of whole records has its location whole, or not at all. -/
theorem RowHolds.wholeLocation {loc : List Rec} (h : RowHolds rowLen m r (loc ++ rest))
    (hloc : loc = [] ∨ loc = locationRecs filename lineno)
    (hrest : ∀ x ∈ rest, ¬ x.IsLocation ∧ x.WellTyped) : WholeLocation filename lineno r m := by
  have hwt : ∀ x ∈ loc ++ rest, x.WellTyped := by
    intro x hx
    rcases List.mem_append.mp hx with hx | hx
    · rcases hloc with rfl | rfl
      · exact absurd hx (by simp)
      · exact locationRecs_wellTyped x hx
    · exact (hrest x hx).2
  refine ⟨loc, rest, hloc, fun x hx => (hrest x hx).1, h.datalen, h.chain, fun g f fuel hfuel => ?_⟩
  refine ⟨_, h.walk_eq hwt g f m.size hfuel (by have := h.room; have := h.le; omega), ?_⟩
  rcases hloc with rfl | rfl
  · simp
  · rw [if_neg (by simp [locationRecs])]
    exact recsText_location g f rest

theorem RowHolds.starts_of_whole (h : RowHolds rowLen m r recs) (hw : WholeLocation filename lineno r m)
    {x : Rec} (hx : x ∈ recs) (hloc : x.IsLocation) :
    ∃ rest, recs = locationRecs filename lineno ++ rest ∧ ∀ x ∈ rest, ¬ x.IsLocation := by
  obtain ⟨loc, rest, hcases, hrest, hd, hc, -⟩ := hw
  have heq : recs = loc ++ rest :=
    recFormat.chain_unique Rec.At.unique h.chain hc (h.datalen.symm.trans hd)
  rcases hcases with rfl | rfl
  · exact absurd hloc (hrest x (by rwa [heq] at hx))
  · exact ⟨rest, heq, hrest⟩

end Whole

/-! ### The two pushes -/

section Pushes
variable {m m' : Mem} {r : ℤ} {filename : CStr} {lineno : Int32}

theorem locationPushes_some {options : ℕ} (h : options &&& optFileLine ≠ 0) (filename : CStr)
    (lineno : Int32) : locationPushes options (some filename) lineno =
      [.filename filename.strlen filename.buf, .value (.lineno lineno)] := if_pos h

theorem HeadRoom.fits_empty (h : HeadRoom m r) (hd : m.word (r + 20) = 0) (totlen : ℤ) :
    fits r totlen m = some (decide (totlen ≤ toInt32 (m.word 44))) := by
  simp [fits, h.hdrRowLen_eq, h.rowDatalen_eq, hd]

theorem HeadRoom.push_skip (h : HeadRoom m r) (hd : m.word (r + 20) = 0) {p : Push}
    (hn : ¬ p.totlen ≤ toInt32 (m.word 44)) : p.run r m = some m := by
  simp [Push.run_eq, pushRecord, h.fits_empty hd, hn]

theorem HeadRoom.push_fault (h : HeadRoom m r) (hd : m.word (r + 20) = 0) (hsize : m.size < 2147483648)
    {p : Push} (hp : ¬ p.Exact) (hle : p.totlen ≤ toInt32 (m.word 44)) : p.run r m = none := by
  have hbase := h.base
  have hput := (Push.overruns hp).faults m (r + 24) (by omega) hsize
  simp [Push.run_eq, pushRecord, h.fits_empty hd, hle, h.rowDatalen_eq, hd, hput]

/-- In a row whose `row_len` is negative as an `int`, whatever is pushed and returns changes nothing. -/
theorem push_overfull {p : Push} (h : HeadRoom m r) (hd : m.word (r + 20) = 0)
    (hsize : m.size < 2147483648) (hneg : toInt32 (m.word 44) < 0) (hs : p.run r m = some m') : m' = m := by
  by_cases hle : p.totlen ≤ toInt32 (m.word 44)
  · by_cases hp : p.Exact
    · have hw := (Push.writes hp).totlen
      omega
    · rw [h.push_fault hd hsize hp hle] at hs
      exact absurd hs (by simp)
  · rw [h.push_skip hd hle, Option.some.injEq] at hs
    exact hs.symm

theorem runAppends_overfull (h : HeadRoom m r) (hd : m.word (r + 20) = 0) (hsize : m.size < 2147483648)
    (hneg : toInt32 (m.word 44) < 0) (as : List Append) (hs : runAppends r as m = some m') : m' = m := by
  induction as with
  | nil =>
    rw [runAppends, Option.some.injEq] at hs
    exact hs.symm
  | cons a as ih =>
    obtain ⟨m₁, e, hs⟩ := Option.bind_eq_some_iff.mp hs
    have hm : m₁ = m := by
      rw [a.run_eq] at e
      rcases a with (_ | s) | ⟨_ | b, len⟩ | _ | _ | _ | _ | _ | _ | _
      case str.none | str2.none => exact (Option.some.inj e).symm
      all_goals
        rw [Append.pushes, runPushes_singleton] at e
        exact push_overfull h hd hsize hneg e
    rw [hm] at hs
    exact ih hs

end Pushes

/-! ### When the location is kept -/

section Kept
variable {rowLen : UInt32} {m m₀ m₁ : Mem} {r : ℤ} {filename : CStr} {lineno : Int32}

theorem toInt32_nonneg {n : ℕ} (h : n < 4294967296) (h0 : 0 ≤ toInt32 n) :
    toInt32 n = n ∧ n < 2147483648 := by
  unfold toInt32 at h0 ⊢
  split at h0 <;> omega

theorem AnySlot.slotRoom (h : AnySlot rowLen m r) (h0 : 0 ≤ toInt32 rowLen.toNat) :
    SlotRoom rowLen.toNat m r := by
  obtain ⟨he, hlt⟩ := toInt32_nonneg rowLen.toNat_lt h0
  have hroom := h.room
  exact ⟨h.cap, hlt, h.base, by omega⟩

/-- FIT: the two records of a location that fits an empty row are both kept. -/
theorem fit_location {cap : ℕ} (hin : filename.InRange) (hfit : filename.chars.length + 21 ≤ cap) :
    recFormat.fit cap (offered [Push.filename filename.strlen filename.buf, .value (.lineno lineno)]) =
      locationRecs filename lineno := by
  have h1 : recFormat.total [(⟨.filename, filename.chars ++ [0]⟩ : Rec)] = filename.chars.length + 9 := by
    simp [size_rec]
    omega
  have h2 : recFormat.total [(⟨.lineno, leBytes 4 lineno.toUInt32.toNat⟩ : Rec)] = 12 := by
    simp [size_rec]
  have hoff : offered [Push.filename filename.strlen filename.buf, .value (.lineno lineno)] =
      [[⟨.filename, filename.chars ++ [0]⟩], [⟨.lineno, leBytes 4 lineno.toUInt32.toNat⟩]] := by
    simp [offered, Push.recs, filename.strRecs_eq hin, Value.type, Value.bytes]
  have hk₁ : recFormat.keep cap [] [⟨.filename, filename.chars ++ [0]⟩] =
      [⟨.filename, filename.chars ++ [0]⟩] :=
    recFormat.keep_of_fits (by rw [h1, recFormat.total_nil]; omega)
  have hk₂ : recFormat.keep cap [⟨.filename, filename.chars ++ [0]⟩]
      [⟨.lineno, leBytes 4 lineno.toUInt32.toNat⟩] = locationRecs filename lineno :=
    recFormat.keep_of_fits (by rw [h1, h2]; omega)
  rw [hoff, Format.fit, List.foldl_cons, List.foldl_cons, List.foldl_nil, hk₁, hk₂]

theorem location_kept_pushes (lineno : Int32) (h : AnySlot rowLen m r) (hd : m.word (r + 20) = 0)
    (hfit : LocationFits (toInt32 rowLen.toNat) filename.chars.length) :
    ∃ m₀, runPushes r [.filename filename.strlen filename.buf, .value (.lineno lineno)] m = some m₀ ∧
      ∀ as m', runAppends r as m₀ = some m' → WholeLocation filename lineno r m' := by
  have hhead : HeadRoom m r := ⟨h.base, by have := h.room; omega⟩
  have hlineno : (Push.value (.lineno lineno)).totlen = 12 := by
    rw [Push.totlen, Value.bytes, leBytes_length]
    decide
  rcases hfit with hboth | ⟨hline, hfile⟩
  · have hroom := h.slotRoom (by omega)
    obtain ⟨he, hlt⟩ := toInt32_nonneg rowLen.toNat_lt (by omega)
    have hin : filename.InRange := by unfold CStr.InRange; omega
    have hexact : ∀ p ∈ [Push.filename filename.strlen filename.buf, .value (.lineno lineno)], p.Exact := by
      intro p hp
      rcases List.mem_cons.mp hp with rfl | hp
      · exact filename.exactLen hin
      · rw [List.mem_singleton.mp hp]
        trivial
    have hnone : RowHolds rowLen.toNat m r (recFormat.fit rowLen.toNat []) := hroom.empty hd
    obtain ⟨m₀, e, hrow, f⟩ := runPushes_spec hexact hnone
    rw [List.nil_append, fit_location hin (by omega)] at hrow
    refine ⟨m₀, e, fun as m' hs => ?_⟩
    obtain ⟨rest, hrow', hrest⟩ := runAppends_some hrow (by rw [f.size]; exact h.size) hs
    exact hrow'.wholeLocation (Or.inr rfl) hrest
  · have hskip₁ : (Push.filename filename.strlen filename.buf).run r m = some m := by
      refine hhead.push_skip hd ?_
      rw [Push.totlen, filename.strTotlen_eq, h.cap]
      omega
    have hskip₂ : (Push.value (.lineno lineno)).run r m = some m :=
      hhead.push_skip hd (by rw [hlineno, h.cap]; omega)
    refine ⟨m, by simp [runPushes, hskip₁, hskip₂], fun as m' hs => ?_⟩
    by_cases hneg : toInt32 rowLen.toNat < 0
    · have hm := runAppends_overfull hhead hd h.size (by rw [h.cap]; exact hneg) as hs
      rw [hm]
      refine ⟨[], [], Or.inl rfl, by simp, hd, trivial,
        fun g f fuel hfuel => ⟨.start, ?_, by simp [Walk.start, recsText]⟩⟩
      obtain ⟨n, rfl⟩ : ∃ n, fuel = n + 1 := ⟨fuel - 1, by simp at hfuel; omega⟩
      simp [walk, hhead.rowDatalen_eq, hd]
    · obtain ⟨rest, hrow, hrest⟩ := runAppends_some ((h.slotRoom (by omega)).empty hd) h.size hs
      exact hrow.wholeLocation (Or.inl rfl) hrest

/-- A file name that passes its test is stored, or its copy faults; without room for the line number it
    stays alone. -/
theorem filename_alone (h : AnySlot rowLen m r) (hd : m.word (r + 20) = 0)
    (hfit : ¬ filename.chars.length + 21 ≤ toInt32 rowLen.toNat)
    (htest : toInt32 (filename.chars.length + 9) ≤ toInt32 rowLen.toNat)
    (e₁ : (Push.filename filename.strlen filename.buf).run r m = some m₁)
    (e₂ : (Push.value (.lineno lineno)).run r m₁ = some m₀) : ¬ WholeLocation filename lineno r m₀ := by
  intro hw
  have hhead : HeadRoom m r := ⟨h.base, by have := h.room; omega⟩
  have htotlen : (Push.filename filename.strlen filename.buf).totlen =
      toInt32 (filename.chars.length + 9) := filename.strTotlen_eq
  by_cases hexact : (Push.filename filename.strlen filename.buf).Exact
  · have htot := (Push.writes hexact).totlen
    have hlen := recFormat.length_le_total (Push.filename filename.strlen filename.buf).recs
    rw [Push.recs, strRecs_of_exact _ _ hexact, List.length_singleton] at hlen
    have htot' := htot
    rw [Push.recs, strRecs_of_exact _ _ hexact] at htot'
    have hroom := h.slotRoom (by omega)
    obtain ⟨hcap, -⟩ := toInt32_nonneg rowLen.toNat_lt (show 0 ≤ toInt32 rowLen.toNat by omega)
    obtain ⟨hrow₁, hsz⟩ := Push.run_some (hroom.empty hd) h.size e₁
    rw [recFormat.keep_of_fits (by rw [recFormat.total_nil]; omega), Push.recs,
      strRecs_of_exact _ _ hexact, List.nil_append] at hrow₁
    obtain ⟨hrow₂, -⟩ := Push.run_some hrow₁ (by rw [hsz]; exact h.size) e₂
    have hmem : strRec .filename filename.strlen filename.buf ∈ recFormat.keep rowLen.toNat
        [strRec .filename filename.strlen filename.buf] (Push.value (.lineno lineno)).recs := by
      unfold Format.keep
      split <;> simp
    obtain ⟨rest, hrecs, -⟩ := hrow₂.starts_of_whole hw hmem (Or.inl rfl)
    have hle := hrow₂.le
    rw [hrecs, recFormat.total_append] at hle
    have hlocation : recFormat.total (locationRecs filename lineno) = filename.chars.length + 21 := by
      simp [locationRecs, size_rec]
      omega
    omega
  · rw [hhead.push_fault hd h.size hexact (by rw [htotlen, h.cap]; exact htest)] at e₁
    exact absurd e₁ (by simp)

/-- A line number stored without its file name is not a whole location. -/
theorem lineno_alone (h : AnySlot rowLen m r) (hd : m.word (r + 20) = 0)
    (hfit : 12 ≤ toInt32 rowLen.toNat) (e : (Push.value (.lineno lineno)).run r m = some m₀) :
    ¬ WholeLocation filename lineno r m₀ := by
  intro hw
  have hroom := h.slotRoom (by omega)
  obtain ⟨hcap, -⟩ := toInt32_nonneg rowLen.toNat_lt (show 0 ≤ toInt32 rowLen.toNat by omega)
  obtain ⟨hrow, -⟩ := Push.run_some (hroom.empty hd) h.size e
  have htotal : recFormat.total (Push.value (.lineno lineno)).recs = 12 := by
    simp [Push.recs, Value.bytes, size_rec]
  rw [recFormat.keep_of_fits (by rw [htotal, recFormat.total_nil]; omega), List.nil_append] at hrow
  obtain ⟨rest, hrecs, -⟩ := hrow.starts_of_whole hw (List.mem_singleton.mpr rfl) (Or.inr rfl)
  simp [locationRecs, Push.recs, Value.type] at hrecs

/-- A location that does not fit is not kept: one of its records is stored without the other, or the
    copy of the file name faults. -/
theorem location_not_kept_pushes (h : AnySlot rowLen m r) (hd : m.word (r + 20) = 0)
    (hfit : ¬ LocationFits (toInt32 rowLen.toNat) filename.chars.length)
    (e : runPushes r [.filename filename.strlen filename.buf, .value (.lineno lineno)] m = some m₀) :
    ¬ WholeLocation filename lineno r m₀ := by
  obtain ⟨hboth, hnone⟩ := not_or.mp hfit
  obtain ⟨m₁, e₁, e₂⟩ := Option.bind_eq_some_iff.mp e
  rw [runPushes_singleton] at e₂
  by_cases htest : toInt32 (filename.chars.length + 9) ≤ toInt32 rowLen.toNat
  · exact filename_alone h hd hboth htest e₁ e₂
  · -- the file name is dropped, and the line number has its room
    have hhead : HeadRoom m r := ⟨h.base, by have := h.room; omega⟩
    have hskip : (Push.filename filename.strlen filename.buf).run r m = some m := by
      refine hhead.push_skip hd ?_
      rw [Push.totlen, filename.strTotlen_eq, h.cap]
      exact htest
    rw [hskip, Option.some.injEq] at e₁
    rw [← e₁] at e₂
    exact lineno_alone h hd (by omega) e₂

/-- ACQUIRED: what is left to do on an acquired row are the two pushes of its location. -/
theorem AnySlot.header {h : Handle} (hr : AnySlot rowLen m r) (ha : Acquires h m r)
    (hopt : m.word 32 &&& optFileLine ≠ 0) (env : Env) (filename : CStr) (lineno : Int32) :
    ∃ m₁, initRow h env (some filename) lineno m =
        (runPushes r [.filename filename.strlen filename.buf, .value (.lineno lineno)] m₁).map
          (fun m' => (m', r)) ∧ m₁.word (r + 20) = 0 ∧ AnySlot rowLen m₁ r := by
  have hbase := hr.base
  have hhead : HeadRoom m r := ⟨hbase, by have := hr.room; omega⟩
  obtain ⟨m₁, e₁, d₁, f₁⟩ := ha.header hhead env (some filename) lineno
  rw [locationPushes_some hopt] at e₁
  refine ⟨m₁, e₁, d₁, ?_, hbase, by rw [f₁.size]; exact hr.room, by rw [f₁.size]; exact hr.size⟩
  rw [f₁.word_eq (a := 44), hr.cap]
  rintro x h0 h1 (hx | hx)
  · have := hx.2
    omega
  · have := hx.1
    omega

theorem AnySlot.location_kept {h : Handle} (hr : AnySlot rowLen m r) (ha : Acquires h m r)
    (hopt : m.word 32 &&& optFileLine ≠ 0) (env : Env) (lineno : Int32)
    (hfit : LocationFits (toInt32 rowLen.toNat) filename.chars.length) :
    LocationKept h env filename lineno r m := by
  obtain ⟨m₁, e₁, d₁, h₁⟩ := hr.header ha hopt env filename lineno
  obtain ⟨m₀, e₀, hkept⟩ := location_kept_pushes lineno h₁ d₁ hfit
  exact ⟨m₀, by rw [e₁, e₀]; rfl, hkept⟩

theorem AnySlot.location_not_kept {h : Handle} (hr : AnySlot rowLen m r) (ha : Acquires h m r)
    (hopt : m.word 32 &&& optFileLine ≠ 0) (env : Env) (lineno : Int32)
    (hfit : ¬ LocationFits (toInt32 rowLen.toNat) filename.chars.length) :
    ¬ LocationKept h env filename lineno r m := by
  rintro ⟨m₀, e₀, hkept⟩
  obtain ⟨m₁, e₁, d₁, h₁⟩ := hr.header ha hopt env filename lineno
  rw [e₁] at e₀
  obtain ⟨m₂, e₂, hm⟩ := Option.map_eq_some_iff.mp e₀
  rw [Prod.mk.injEq] at hm
  rw [hm.1] at e₂
  exact location_not_kept_pushes h₁ d₁ hfit e₂ (hkept [] m₀ rfl)

end Kept

/-- LOCATION: for every `row_len`, every file name and every line number, the location of a row is
    stored and printed whole or not at all, whatever is appended, exactly when both records fit, or there
    are less than 12 bytes and not even the size of the file name's record, as an `int`, is within
    them. -/
theorem location_whole_iff {h : Handle} {m : Mem} {r : ℤ} {rowLen : UInt32} (ha : Acquires h m r)
    (hr : AnySlot rowLen m r) (hopt : m.word 32 &&& optFileLine ≠ 0) (env : Env) (filename : CStr)
    (lineno : Int32) : LocationKept h env filename lineno r m ↔
      filename.chars.length + 21 ≤ toInt32 rowLen.toNat ∨
        toInt32 rowLen.toNat < 12 ∧ toInt32 rowLen.toNat < toInt32 (filename.chars.length + 9) := by
  constructor
  · intro hkept
    by_contra hfit
    exact hr.location_not_kept ha hopt env lineno hfit hkept
  · intro hfit
    exact hr.location_kept ha hopt env lineno hfit

theorem smallMem_anySlot : AnySlot 64 smallMem 100 :=
  ⟨by decide, by decide, by decide, by decide⟩

/-- On a row of 64 bytes the location `a.c:7` is whole. -/
theorem location_whole_small : LocationKept smallHandle smallEnv smallFile 7 100 smallMem :=
  (location_whole_iff smallMem_acquires smallMem_anySlot (by decide) smallEnv smallFile 7).mpr
    (Or.inl (by decide))

/-- A file name of 50 bytes. -/
def longFile : CStr := ⟨List.replicate 50 97, by decide⟩

/-- On a row of 64 bytes, of which the name's record takes 59 and the line number's would take 12, the
    location is not whole. -/
theorem location_split : ¬ ∀ (h : Handle) (m : Mem) (r : ℤ) (rowLen : UInt32), Acquires h m r →
    AnySlot rowLen m r → m.word 32 &&& optFileLine ≠ 0 → ∀ (env : Env) (filename : CStr) (lineno : Int32),
    LocationKept h env filename lineno r m := by
  intro hall
  have hkept := hall smallHandle smallMem 100 64 smallMem_acquires smallMem_anySlot (by decide) smallEnv
    longFile 7
  have hlen : longFile.chars.length = 50 := by decide
  have hfit : ¬ LocationFits (toInt32 (64 : UInt32).toNat) longFile.chars.length := by
    rw [hlen]
    unfold LocationFits
    decide
  exact smallMem_anySlot.location_not_kept smallMem_acquires (by decide) smallEnv 7 hfit hkept

end Log2mem
