import Log2mem.Schemes.Fields
import Log2mem.Row.Acquire

/-! Packed timestamps on both data models (`log2mem_time`, the timestamp of `__log2mem_init_row`,
    `log2mem_ts_to_timespec` and `log2mem_ts_to_timeval`).

    `MEMLOG_BITS_NANO` splits a timestamp into 34 bits of seconds above 30 bits of nanoseconds. The
    shift is done in the type of `tv_sec`, before the sum is widened to `log2mem_ts`: with a 64-bit
    `time_t` all 34 bits survive it, with a 32-bit one only the two lowest do.

        tv_sec ──<< 30──▶ long ──+ nanoseconds──▶ long ──uint64_t──▶ │ seconds (34) │ nanosec (30) │ -/

namespace Log2mem
open Schemes

/-- The data models: `long` and `time_t` of 32 bits, or of 64. -/
inductive DataModel where
  | ilp32
  | lp64
  deriving DecidableEq

/-- Conversion to a 64-bit `long`. -/
def toInt64 (x : ℤ) : ℤ :=
  if x % 18446744073709551616 < 9223372036854775808 then x % 18446744073709551616
  else x % 18446744073709551616 - 18446744073709551616

/-- Conversion to `long`, two's complement. -/
def DataModel.long (x : ℤ) : DataModel → ℤ
  | ilp32 => toInt32 x
  | lp64 => toInt64 x

/-- One more than the largest `time_t`. -/
def DataModel.timeMax : DataModel → ℤ
  | ilp32 => 2147483648
  | lp64 => 9223372036854775808

/-- `(tv_sec << MEMLOG_BITS_NANO) + nanos`, each operation in `long`, the result a `log2mem_ts`. -/
def DataModel.pack (dm : DataModel) (sec nanos : ℤ) : ℕ :=
  toSize (dm.long (dm.long (sec * 1073741824) + nanos))

/-- `tv_usec*1000`: "normalise to nanosec". -/
def DataModel.nanosec (dm : DataModel) (usec : ℤ) : ℤ := dm.long (usec * 1000)

/-- `log2mem_time`, on a valid handle. -/
def log2memTime (dm : DataModel) (options : ℕ) (env : Env) : ℕ :=
  match options &&& 12 with
  | 12 => env.rdtsc.toNat
  | 4 => dm.pack env.tvSec.toInt (dm.nanosec env.tvUsec.toInt)
  | 8 => dm.pack env.tsSec.toInt env.tsNsec.toInt
  | _ => 0

/-- The timestamp `__log2mem_init_row` stores, if any. -/
def initRowTs (dm : DataModel) (options : ℕ) (env : Env) : Option ℕ :=
  match options &&& 12 with
  | 12 => some env.rdtsc.toNat
  | 4 => some (dm.pack env.tvSec.toInt (dm.nanosec env.tvUsec.toInt))
  | 8 => some (dm.pack env.tsSec.toInt env.tsNsec.toInt)
  | _ => none

/-- `(ts >> MEMLOG_BITS_NANO) & MEMLOG_MASK_SECS`, assigned to a `time_t`. -/
def DataModel.tsSeconds (dm : DataModel) (ts : ℕ) : ℤ := dm.long (ts >>> 30 &&& 0x3FFFFFFFF : ℕ)

/-- `log2mem_ts_to_timespec`: `tv_sec` and `tv_nsec`. -/
def log2memTsToTimespec (dm : DataModel) (ts : ℕ) : ℤ × ℤ :=
  (dm.tsSeconds ts, dm.long (ts &&& 0x3FFFFFFF : ℕ))

/-- `log2mem_ts_to_timeval`: `tv_sec` and `tv_usec`. -/
def log2memTsToTimeval (dm : DataModel) (ts : ℕ) : ℤ × ℤ :=
  (dm.tsSeconds ts, dm.long ((ts &&& 0x3FFFFFFF) / 1000 : ℕ))

/-! ### The property -/

/-- Clock readings of the data model: seconds in 34 bits, and in range below the second. -/
structure Reading (dm : DataModel) (env : Env) : Prop where
  tsSec : 0 ≤ env.tsSec.toInt ∧ env.tsSec.toInt < 17179869184 ∧ env.tsSec.toInt < dm.timeMax
  tsNsec : 0 ≤ env.tsNsec.toInt ∧ env.tsNsec.toInt ≤ 999999999
  tvSec : 0 ≤ env.tvSec.toInt ∧ env.tvSec.toInt < 17179869184 ∧ env.tvSec.toInt < dm.timeMax
  tvUsec : 0 ≤ env.tvUsec.toInt ∧ env.tvUsec.toInt ≤ 999999

/-- `ts` is what either encoder makes of the readings. -/
def Packed (dm : DataModel) (options : ℕ) (env : Env) (ts : ℕ) : Prop :=
  log2memTime dm options env = ts ∨ initRowTs dm options env = some ts

/-- Whatever either encoder packs, the decoder of its clock source gives back. -/
structure Survives (dm : DataModel) (env : Env) : Prop where
  timespec : ∀ options ts, options &&& 12 = 8 → Packed dm options env ts →
    log2memTsToTimespec dm ts = (env.tsSec.toInt, env.tsNsec.toInt)
  timeval : ∀ options ts, options &&& 12 = 4 → Packed dm options env ts →
    log2memTsToTimeval dm ts = (env.tvSec.toInt, env.tvUsec.toInt)

/-- Packed readings are ordered as the readings are, lexicographically. -/
structure Ordered (dm : DataModel) (env env' : Env) : Prop where
  timespec : ∀ options ts ts', options &&& 12 = 8 → Packed dm options env ts →
    Packed dm options env' ts' →
    (ts < ts' ↔ toLex (env.tsSec.toInt, env.tsNsec.toInt) < toLex (env'.tsSec.toInt, env'.tsNsec.toInt))
  timeval : ∀ options ts ts', options &&& 12 = 4 → Packed dm options env ts →
    Packed dm options env' ts' →
    (ts < ts' ↔ toLex (env.tvSec.toInt, env.tvUsec.toInt) < toLex (env'.tvSec.toInt, env'.tvUsec.toInt))

/-! ### Conversions -/

theorem toInt64_of_range {x : ℤ} (h0 : 0 ≤ x) (h1 : x < 9223372036854775808) : toInt64 x = x := by
  unfold toInt64
  split <;> omega

theorem toInt64_emod (x : ℤ) : toInt64 x % 18446744073709551616 = x % 18446744073709551616 := by
  unfold toInt64
  split <;> omega

theorem DataModel.long_of_range {dm : DataModel} {x : ℤ} (h0 : 0 ≤ x) (h1 : x < 2147483648) :
    dm.long x = x := by
  cases dm with
  | ilp32 => exact toInt32_of_range (by omega) h1
  | lp64 => exact toInt64_of_range h0 (by omega)

theorem DataModel.nanosec_eq {dm : DataModel} {usec : ℤ} (h0 : 0 ≤ usec) (h1 : usec ≤ 999999) :
    dm.nanosec usec = usec * 1000 := DataModel.long_of_range (by omega) (by omega)

/-- The two encoders agree. -/
theorem packed_timespec {dm : DataModel} {options : ℕ} {env : Env} {ts : ℕ} (h : options &&& 12 = 8) :
    Packed dm options env ts ↔ dm.pack env.tsSec.toInt env.tsNsec.toInt = ts := by
  simp [Packed, log2memTime, initRowTs, h]

theorem packed_timeval {dm : DataModel} {options : ℕ} {env : Env} {ts : ℕ} (h : options &&& 12 = 4) :
    Packed dm options env ts ↔ dm.pack env.tvSec.toInt (dm.nanosec env.tvUsec.toInt) = ts := by
  simp [Packed, log2memTime, initRowTs, h]

theorem initRowTs_lp64 (options : ℕ) (env : Env) : initRowTs .lp64 options env = rowTs options env := by
  have hpack : ∀ sec nanos nanos' : ℤ, nanos % 18446744073709551616 = nanos' % 18446744073709551616 →
      DataModel.lp64.pack sec nanos = packTs sec nanos' := fun sec nanos nanos' hn => by
    have h1 := toInt64_emod (sec * 1073741824)
    have h2 := toInt64_emod (toInt64 (sec * 1073741824) + nanos)
    have h3 := toSize_cast (toInt64 (toInt64 (sec * 1073741824) + nanos))
    have h4 := toSize_cast (sec * 1073741824 + nanos')
    show toSize (toInt64 (toInt64 (sec * 1073741824) + nanos)) = toSize (sec * 1073741824 + nanos')
    omega
  have hval := hpack env.tvSec.toInt (DataModel.lp64.nanosec env.tvUsec.toInt) _ (toInt64_emod _)
  have hspec := hpack env.tsSec.toInt env.tsNsec.toInt _ rfl
  rw [initRowTs, hval, hspec]
  rfl

/-! ### What the shift leaves -/

theorem seconds_join {s n : ℕ} (hn : n < 1073741824) :
    join 1073741824 s n >>> 30 &&& 0x3FFFFFFFF = s % 17179869184 := by
  rw [Nat.shiftRight_eq_div_pow, show (2 : ℕ) ^ 30 = 1073741824 from rfl, join_div hn]
  exact Nat.and_two_pow_sub_one_eq_mod s 34

theorem nanos_join {s n : ℕ} (hn : n < 1073741824) : join 1073741824 s n &&& 0x3FFFFFFF = n :=
  (Nat.and_two_pow_sub_one_eq_mod _ 30).trans (join_mod hn)

/-- With a 64-bit `time_t` the packed value is the two fields side by side. -/
theorem pack_lp64 {sec nanos : ℤ} (h0 : 0 ≤ sec) (h1 : sec < 17179869184) (n0 : 0 ≤ nanos)
    (n1 : nanos < 1073741824) : DataModel.lp64.pack sec nanos = join 1073741824 sec.toNat nanos.toNat := by
  have e1 := toInt64_emod (sec * 1073741824)
  have e2 := toInt64_emod (toInt64 (sec * 1073741824) + nanos)
  have e3 := toSize_cast (toInt64 (toInt64 (sec * 1073741824) + nanos))
  show toSize (toInt64 (toInt64 (sec * 1073741824) + nanos)) = sec.toNat * 1073741824 + nanos.toNat
  omega

/-- With a 32-bit `time_t` the two lowest bits of the seconds are all that the shift leaves, and the
    higher of them is taken for the sign. -/
theorem pack_ilp32 {sec nanos : ℤ} (n0 : 0 ≤ nanos) (n1 : nanos < 1073741824) :
    DataModel.ilp32.pack sec nanos = join 1073741824
      (if sec % 4 < 2 then sec % 4 else 17179869184 + (sec % 4 - 4)).toNat nanos.toNat := by
  have e1 := toInt32_emod (sec * 1073741824)
  have l1 := toInt32_lt (sec * 1073741824)
  have g1 := toInt32_ge (sec * 1073741824)
  have e2 := toInt32_of_range (x := toInt32 (sec * 1073741824) + nanos) (by omega) (by omega)
  have e3 := toSize_cast (toInt32 (sec * 1073741824) + nanos)
  show toSize (toInt32 (toInt32 (sec * 1073741824) + nanos)) = _ * 1073741824 + nanos.toNat
  rw [e2]
  split <;> omega

/-- The shift of these seconds loses nothing. -/
def Fits (dm : DataModel) (sec : ℤ) : Prop := dm = .lp64 ∨ sec < 2

section Pack
variable {dm : DataModel} {sec nanos sec' nanos' : ℤ}

theorem pack_of_fits (hf : Fits dm sec) (h0 : 0 ≤ sec) (h1 : sec < 17179869184) (n0 : 0 ≤ nanos)
    (n1 : nanos < 1073741824) : dm.pack sec nanos = join 1073741824 sec.toNat nanos.toNat := by
  cases dm with
  | lp64 => exact pack_lp64 h0 h1 n0 n1
  | ilp32 =>
    have hlt : sec < 2 := hf.resolve_left (by simp)
    rw [pack_ilp32 n0 n1, Int.emod_eq_of_lt h0 (by omega), if_pos hlt]

theorem tsSeconds_of_fits (hf : Fits dm sec) (h0 : 0 ≤ sec) (h1 : sec < 17179869184) (n0 : 0 ≤ nanos)
    (n1 : nanos < 1073741824) : dm.tsSeconds (dm.pack sec nanos) = sec := by
  rw [DataModel.tsSeconds, pack_of_fits hf h0 h1 n0 n1, seconds_join (by omega),
    Nat.mod_eq_of_lt (by omega), Int.toNat_of_nonneg h0]
  cases dm with
  | lp64 => exact toInt64_of_range h0 (by omega)
  | ilp32 =>
    have hlt : sec < 2 := hf.resolve_left (by simp)
    exact toInt32_of_range (by omega) (by omega)

/-- Seconds that do not fit are not read back: two bits are left of them. -/
theorem tsSeconds_of_not_fits (hf : ¬ Fits dm sec) (n0 : 0 ≤ nanos) (n1 : nanos < 1073741824) :
    dm.tsSeconds (dm.pack sec nanos) ≠ sec := by
  obtain ⟨hdm, hlt⟩ := not_or.mp hf
  cases dm with
  | lp64 => exact absurd rfl hdm
  | ilp32 =>
    rw [pack_ilp32 n0 n1, DataModel.tsSeconds, seconds_join (by omega)]
    show toInt32 _ ≠ sec
    unfold toInt32
    split <;> split <;> omega

/-- Packed values of seconds that fit are ordered as the pairs are. -/
theorem pack_lt_pack (hf : Fits dm sec) (hf' : Fits dm sec') (h0 : 0 ≤ sec) (h1 : sec < 17179869184)
    (n0 : 0 ≤ nanos) (n1 : nanos < 1073741824) (h0' : 0 ≤ sec') (h1' : sec' < 17179869184)
    (n0' : 0 ≤ nanos') (n1' : nanos' < 1073741824) :
    dm.pack sec nanos < dm.pack sec' nanos' ↔ toLex (sec, nanos) < toLex (sec', nanos') := by
  rw [pack_of_fits hf h0 h1 n0 n1, pack_of_fits hf' h0' h1' n0' n1', join_lt_join (by omega) (by omega),
    Prod.Lex.toLex_lt_toLex, Prod.Lex.toLex_lt_toLex]
  simp only
  omega

end Pack

/-! ### The two clocks -/

section Clocks
variable {dm : DataModel} {env env' : Env}

/-- Readings survive exactly when the seconds of both clocks fit. -/
theorem survives_iff (h : Reading dm env) :
    Survives dm env ↔ Fits dm env.tsSec.toInt ∧ Fits dm env.tvSec.toInt := by
  obtain ⟨⟨s0, s1, -⟩, ⟨n0, n1⟩, ⟨v0, v1, -⟩, ⟨u0, u1⟩⟩ := h
  have husec : dm.nanosec env.tvUsec.toInt = env.tvUsec.toInt * 1000 := DataModel.nanosec_eq u0 u1
  constructor
  · intro hs
    have hspec := hs.timespec 8 _ rfl ((packed_timespec rfl).mpr rfl)
    have hval := hs.timeval 4 _ rfl ((packed_timeval rfl).mpr rfl)
    refine ⟨?_, ?_⟩
    · by_contra hf
      exact tsSeconds_of_not_fits hf n0 (by omega) (congrArg Prod.fst hspec)
    · by_contra hf
      exact tsSeconds_of_not_fits hf (by omega) (by omega) (congrArg Prod.fst hval)
  · rintro ⟨hf, hf'⟩
    refine ⟨fun options ts ho hp => ?_, fun options ts ho hp => ?_⟩
    · rw [← (packed_timespec ho).mp hp, log2memTsToTimespec, tsSeconds_of_fits hf s0 s1 n0 (by omega),
        pack_of_fits hf s0 s1 n0 (by omega), nanos_join (by omega), Int.toNat_of_nonneg n0,
        DataModel.long_of_range n0 (by omega)]
    · have hdiv : ((env.tvUsec.toInt * 1000).toNat / 1000 : ℕ) = env.tvUsec.toInt := by omega
      rw [← (packed_timeval ho).mp hp, husec, log2memTsToTimeval,
        tsSeconds_of_fits hf' v0 v1 (by omega) (by omega),
        pack_of_fits hf' v0 v1 (by omega) (by omega), nanos_join (by omega), hdiv,
        DataModel.long_of_range u0 (by omega)]

theorem ordered_of_fits (h : Reading dm env) (h' : Reading dm env')
    (hf : Fits dm env.tsSec.toInt ∧ Fits dm env.tvSec.toInt)
    (hf' : Fits dm env'.tsSec.toInt ∧ Fits dm env'.tvSec.toInt) : Ordered dm env env' := by
  obtain ⟨⟨s0, s1, -⟩, ⟨n0, n1⟩, ⟨v0, v1, -⟩, ⟨u0, u1⟩⟩ := h
  obtain ⟨⟨s0', s1', -⟩, ⟨n0', n1'⟩, ⟨v0', v1', -⟩, ⟨u0', u1'⟩⟩ := h'
  refine ⟨fun options ts ts' ho hp hp' => ?_, fun options ts ts' ho hp hp' => ?_⟩
  · rw [← (packed_timespec ho).mp hp, ← (packed_timespec ho).mp hp']
    exact pack_lt_pack hf.1 hf'.1 s0 s1 n0 (by omega) s0' s1' n0' (by omega)
  · rw [← (packed_timeval ho).mp hp, ← (packed_timeval ho).mp hp', DataModel.nanosec_eq u0 u1,
      DataModel.nanosec_eq u0' u1', pack_lt_pack hf.2 hf'.2 v0 v1 (by omega) (by omega) v0' v1' (by omega)
      (by omega), Prod.Lex.toLex_lt_toLex, Prod.Lex.toLex_lt_toLex]
    simp only
    omega

end Clocks

/-- TIMESTAMPS: two readings of the clocks survive packing, and are ordered by it, exactly when the data
    model is LP64 or all their seconds are below 2. -/
theorem timestamps_survive_iff {dm : DataModel} {env env' : Env} (h : Reading dm env)
    (h' : Reading dm env') :
    Survives dm env ∧ Survives dm env' ∧ Ordered dm env env' ↔ dm = .lp64 ∨
      env.tsSec.toInt < 2 ∧ env.tvSec.toInt < 2 ∧ env'.tsSec.toInt < 2 ∧ env'.tvSec.toInt < 2 := by
  rw [survives_iff h, survives_iff h']
  constructor
  · rintro ⟨⟨h1, h2⟩, ⟨h3, h4⟩, -⟩
    unfold Fits at h1 h2 h3 h4
    tauto
  · intro hdm
    have hf : Fits dm env.tsSec.toInt ∧ Fits dm env.tvSec.toInt := by
      unfold Fits
      tauto
    have hf' : Fits dm env'.tsSec.toInt ∧ Fits dm env'.tvSec.toInt := by
      unfold Fits
      tauto
    exact ⟨hf, hf', ordered_of_fits h h' hf hf'⟩

/-- Both clocks at `sec` seconds, just before the next. -/
def lateReading (sec : Int64) : Env := ⟨0, 0, sec, 999999, sec, 999999999⟩

/-- On LP64 the last second of the 34 bits survives. -/
theorem timestamps_survive_late : Survives .lp64 (lateReading 17179869183) :=
  have h : Reading .lp64 (lateReading 17179869183) := ⟨by decide, by decide, by decide, by decide⟩
  ((timestamps_survive_iff h h).mpr (Or.inl rfl)).1

/-- On ILP32 a time of June 2013 does not survive. -/
theorem timestamps_lost : ¬ ∀ (dm : DataModel) (env env' : Env), Reading dm env → Reading dm env' →
    Survives dm env ∧ Survives dm env' ∧ Ordered dm env env' := by
  intro hall
  have h : Reading .ilp32 (lateReading 1370000000) := ⟨by decide, by decide, by decide, by decide⟩
  have hfits := ((survives_iff h).mp (hall _ _ _ h h).1).1
  unfold Fits at hfits
  exact absurd hfits (by decide)

end Log2mem
