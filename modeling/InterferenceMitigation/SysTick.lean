import InterferenceMitigation.ControlLoop
import InterferenceMitigation.TickDivision

/-!
The microsecond time base of the bare-metal program. The system counter is divided by the
whole number of ticks per microsecond, which is the counter frequency in hertz over a
million, truncated. The base is exact when the frequency is a whole number of megahertz.
At any other frequency every interval is stretched by the remainder, and a wait is cut
short by it.
-/

namespace InterferenceMitigation.SysTick

open MachineInt TickDivision ControlLoop

/-- `get_freq() as u64 / 1000000`. -/
def ticksPerUs (freq : U32) : Except Panic U64 := div (freq.setWidth 64) 1000000

/-- `get_time_us` at the counter value `cnt`. -/
def getTimeUs (freq : U32) (cnt : U64) : Except Panic U64 := do
  let perUs ← ticksPerUs freq
  div cnt perUs

/-- `end` in `wait_us`, for the counter value `cnt` it reads first. -/
def deadline (p : Profile) (freq : U32) (us cnt : U64) : Except Panic U64 := do
  let perUs ← ticksPerUs freq
  let ticks ← mul p us perUs
  add p cnt ticks

/-- The loop of `wait_us` over the successive counter values: the one it returns at, or
`none` while it is still polling. -/
def poll (stop : U64) : List U64 → Option U64
  | [] => none
  | cnt :: rest => if cnt ≥ stop then some cnt else poll stop rest

def waitUs (p : Profile) (freq : U32) (us cnt : U64) (readings : List U64) :
    Except Panic (Option U64) := do
  let stop ← deadline p freq us cnt
  return poll stop readings

/-- `dt` between the counter values `c1` and `c2`. -/
def elapsedUs (p : Profile) (freq : U32) (c1 c2 : U64) : Except Panic U64 := do
  let last ← getTimeUs freq c1
  let current ← getTimeUs freq c2
  sub p current last

/-- Whole ticks per microsecond. -/
def perUs (freq : U32) : ℕ := freq.toNat / 1000000

variable {freq : U32}

theorem perUs_pos (hfreq : 1000000 ≤ freq.toNat) : 0 < perUs freq := Nat.div_pos hfreq (by decide)

theorem ticksPerUs_eq (hfreq : 1000000 ≤ freq.toNat) :
    ∃ k : U64, ticksPerUs freq = .ok k ∧ k.toNat = perUs freq ∧ k ≠ 0 := by
  have hwide : (freq.setWidth 64).toNat = freq.toNat := BitVec.toNat_setWidth_of_le (by omega)
  have hval : (freq.setWidth 64 / 1000000 : U64).toNat = perUs freq := by
    rw [BitVec.toNat_udiv, hwide]
    rfl
  refine ⟨freq.setWidth 64 / 1000000, div_eq_ok (by decide), hval, ?_⟩
  rw [Ne, ← toNat_eq_zero_iff, hval]
  exact (perUs_pos hfreq).ne'

theorem getTimeUs_eq (hfreq : 1000000 ≤ freq.toNat) (cnt : U64) :
    ∃ t, getTimeUs freq cnt = .ok t ∧ t.toNat = cnt.toNat / perUs freq := by
  obtain ⟨k, hk, hval, hne⟩ := ticksPerUs_eq hfreq
  refine ⟨cnt / k, ?_, ?_⟩
  · rw [getTimeUs, hk, ok_bind, div_eq_ok hne]
  · rw [BitVec.toNat_udiv, hval]

/-- A reading is only taken where the counter has a whole tick for each microsecond. -/
theorem freq_of_getTimeUs {cnt t : U64} (h : getTimeUs freq cnt = .ok t) :
    1000000 ≤ freq.toNat := by
  simp only [getTimeUs, ticksPerUs, bind_eq_ok] at h
  obtain ⟨k, hk, ht⟩ := h
  obtain ⟨-, rfl⟩ := div_inv hk
  obtain ⟨hne, -⟩ := div_inv ht
  by_contra hslow
  apply hne
  have hwide : (freq.setWidth 64).toNat = freq.toNat := BitVec.toNat_setWidth_of_le (by omega)
  rw [← toNat_eq_zero_iff, BitVec.toNat_udiv, hwide]
  exact Nat.div_eq_of_lt (Nat.lt_of_not_le hslow)

/-- Later readings are not smaller, so `dt` never underflows. -/
theorem elapsedUs_eq (p : Profile) (hfreq : 1000000 ≤ freq.toNat) {c1 c2 : U64} (hle : c1 ≤ c2) :
    ∃ dt, elapsedUs p freq c1 c2 = .ok dt ∧
      dt.toNat = c2.toNat / perUs freq - c1.toNat / perUs freq := by
  obtain ⟨last, hlast, hlastval⟩ := getTimeUs_eq hfreq c1
  obtain ⟨current, hcurrent, hcurrentval⟩ := getTimeUs_eq hfreq c2
  have hmono : last.toNat ≤ current.toNat := by
    rw [hlastval, hcurrentval]
    exact Nat.div_le_div_right (BitVec.le_def.mp hle)
  refine ⟨current - last, ?_, ?_⟩
  · rw [elapsedUs, hlast, ok_bind, hcurrent, ok_bind, sub_eq_ok p hmono]
  · rw [BitVec.toNat_sub_of_le (BitVec.le_def.mpr hmono), hlastval, hcurrentval]

/-- The measured time between two counter values is the real one to within a microsecond. -/
def Faithful (p : Profile) (freq : U32) (c1 c2 : U64) : Prop :=
  ∃ dt, elapsedUs p freq c1 c2 = .ok dt ∧
    |(dt.toNat : ℚ) - ((c2.toNat : ℚ) - c1.toNat) * 1000000 / freq.toNat| ≤ 1

/-- The time gained over the interval by the frequency's remainder stays within a microsecond. -/
def SmallGain (freq : U32) (c1 c2 : U64) : Prop :=
  WithinUnit freq.toNat 1000000 c1.toNat (c2.toNat - c1.toNat)

theorem faithful_iff (p : Profile) (hfreq : 1000000 ≤ freq.toNat) {c1 c2 : U64} (hle : c1 ≤ c2) :
    Faithful p freq c1 c2 ↔ SmallGain freq c1 c2 := by
  obtain ⟨dt, hdt, hval⟩ := elapsedUs_eq p hfreq hle
  have hticks : c1.toNat + (c2.toNat - c1.toNat) = c2.toNat :=
    Nat.add_sub_of_le (BitVec.le_def.mp hle)
  have hcast : ((c2.toNat - c1.toNat : ℕ) : ℚ) = (c2.toNat : ℚ) - c1.toNat :=
    Nat.cast_sub (BitVec.le_def.mp hle)
  have hreading := abs_reading_sub_le_iff (by decide) hfreq c1.toNat (c2.toNat - c1.toNat)
  rw [hticks, hcast, ← perUs, ← hval] at hreading
  rw [SmallGain, ← hreading]
  constructor
  · rintro ⟨dt', hdt', hclose⟩
    obtain rfl := Except.ok.inj (hdt.symm.trans hdt')
    exact hclose
  · intro hclose
    exact ⟨dt, hdt, hclose⟩

/-- The loop only returns at a reading that has reached the deadline. -/
theorem poll_ge {stop c : U64} {readings : List U64} (h : poll stop readings = some c) :
    stop ≤ c ∧ c ∈ readings := by
  induction readings with
  | nil => simp [poll] at h
  | cons cnt rest ih =>
    unfold poll at h
    split at h
    · rename_i hreached
      obtain rfl := Option.some.inj h
      exact ⟨hreached, List.mem_cons_self ..⟩
    · obtain ⟨hstop, hmem⟩ := ih h
      exact ⟨hstop, List.mem_cons_of_mem _ hmem⟩

theorem poll_isSome {stop c : U64} {readings : List U64} (hmem : c ∈ readings) (hstop : stop ≤ c) :
    (poll stop readings).isSome := by
  induction readings with
  | nil => simp at hmem
  | cons cnt rest ih =>
    unfold poll
    split
    · rfl
    · rename_i hnot
      rcases List.mem_cons.mp hmem with rfl | hrest
      · exact absurd hstop hnot
      · exact ih hrest

/-- Without an overflow the deadline is the counter value at the call plus the ticks. -/
theorem deadline_eq (p : Profile) (hfreq : 1000000 ≤ freq.toNat) {us cnt : U64}
    (hfit : cnt.toNat + us.toNat * perUs freq < 2 ^ 64) :
    ∃ stop, deadline p freq us cnt = .ok stop ∧
      stop.toNat = cnt.toNat + us.toNat * perUs freq := by
  obtain ⟨k, hk, hval, -⟩ := ticksPerUs_eq hfreq
  have hmul : us.toNat * k.toNat < 2 ^ 64 := by
    rw [hval]
    omega
  have hticks : (us * k).toNat = us.toNat * perUs freq := by
    rw [BitVec.toNat_mul_of_lt hmul, hval]
  have hadd : cnt.toNat + (us * k).toNat < 2 ^ 64 := by rwa [hticks]
  refine ⟨cnt + us * k, ?_, ?_⟩
  · rw [deadline, hk, ok_bind, mul_eq_ok p hmul, ok_bind, add_eq_ok p hadd]
  · rw [BitVec.toNat_add_of_lt hadd, hticks]

/-- Past the end of the counter a checked build stops, and a wrapping build computes a
deadline that has passed already. -/
theorem deadline_overflow (hfreq : 1000000 ≤ freq.toNat) {us cnt : U64}
    (hticks : us.toNat * perUs freq < 2 ^ 64)
    (hover : 2 ^ 64 ≤ cnt.toNat + us.toNat * perUs freq) :
    deadline .checked freq us cnt = .error .addOverflow ∧
      ∃ stop, deadline .wrapping freq us cnt = .ok stop ∧ stop ≤ cnt := by
  obtain ⟨k, hk, hval, -⟩ := ticksPerUs_eq hfreq
  have hmul : us.toNat * k.toNat < 2 ^ 64 := by rwa [hval]
  have hval' : (us * k).toNat = us.toNat * perUs freq := by
    rw [BitVec.toNat_mul_of_lt hmul, hval]
  have hnot : ¬ cnt.toNat + (us * k).toNat < 2 ^ 64 := by
    rw [hval']
    omega
  have hadd (p : Profile) : deadline p freq us cnt = overflow p .addOverflow (cnt + us * k) := by
    rw [deadline, hk, ok_bind, mul_eq_ok p hmul, ok_bind, add, if_neg hnot]
  refine ⟨hadd .checked, cnt + us * k, hadd .wrapping, ?_⟩
  rw [BitVec.le_def, BitVec.toNat_add]
  omega

/-- A wait that returns has lasted its number of microseconds, in ticks of the counter.
`cnt` and `readings` are the successive values read, which never go back. -/
def WaitsLongEnough (p : Profile) (freq : U32) (us cnt : U64) : Prop :=
  ∀ (readings : List U64) (c : U64), (cnt :: readings).Pairwise (· ≤ ·) →
    waitUs p freq us cnt readings = .ok (some c) →
    (us.toNat : ℚ) * freq.toNat / 1000000 ≤ (c.toNat : ℚ) - cnt.toNat

theorem ticks_cast_iff (us : U64) (d : ℕ) :
    (us.toNat : ℚ) * freq.toNat / 1000000 ≤ d ↔ us.toNat * freq.toNat ≤ d * 1000000 := by
  rw [div_le_iff₀ (by norm_num)]
  exact_mod_cast Iff.rfl

/-- It returns, once the counter has reached the deadline. -/
theorem waitUs_returns (p : Profile) (hfreq : 1000000 ≤ freq.toNat) {us cnt c : U64}
    (hfit : cnt.toNat + us.toNat * perUs freq < 2 ^ 64) {readings : List U64} (hmem : c ∈ readings)
    (hreached : cnt.toNat + us.toNat * perUs freq ≤ c.toNat) :
    ∃ c', waitUs p freq us cnt readings = .ok (some c') := by
  obtain ⟨stop, hstop, hval⟩ := deadline_eq p hfreq hfit
  have hle : stop ≤ c := by
    rw [BitVec.le_def, hval]
    exact hreached
  obtain ⟨c', hc'⟩ := Option.isSome_iff_exists.mp (poll_isSome hmem hle)
  refine ⟨c', ?_⟩
  rw [waitUs, hstop, ok_bind, hc']
  rfl

theorem waits_iff_of_fits (p : Profile) (hfreq : 1000000 ≤ freq.toNat) {us cnt : U64}
    (hfit : cnt.toNat + us.toNat * perUs freq < 2 ^ 64) :
    WaitsLongEnough p freq us cnt ↔ us = 0 ∨ 1000000 ∣ freq.toNat := by
  obtain ⟨stop, hstop, hval⟩ := deadline_eq p hfreq hfit
  rw [← toNat_eq_zero_iff, ← mul_le_truncated_iff, ← perUs, ← ticks_cast_iff]
  have hspan : ((us.toNat * perUs freq : ℕ) : ℚ) = (stop.toNat : ℚ) - cnt.toNat := by
    rw [hval]
    push_cast
    ring
  rw [hspan]
  constructor
  · intro h
    -- the counter may be read exactly at the deadline
    apply h [stop] stop
    · have hle : cnt ≤ stop := by
        rw [BitVec.le_def]
        omega
      simpa using hle
    · simp [waitUs, hstop, poll, pure, Except.pure]
  · intro h readings c _ hreturn
    rw [waitUs, hstop, ok_bind] at hreturn
    obtain ⟨hreached, -⟩ := poll_ge (Except.ok.inj hreturn)
    have hlate : (stop.toNat : ℚ) ≤ c.toNat := by exact_mod_cast BitVec.le_def.mp hreached
    linarith

theorem waits_iff_of_overflow (p : Profile) (hfreq : 1000000 ≤ freq.toNat) {us cnt : U64}
    (hticks : us.toNat * perUs freq < 2 ^ 64)
    (hover : 2 ^ 64 ≤ cnt.toNat + us.toNat * perUs freq) :
    WaitsLongEnough p freq us cnt ↔ p = .checked := by
  obtain ⟨hchecked, stop, hwrapping, hstop⟩ := deadline_overflow hfreq hticks hover
  cases p with
  | checked =>
    refine ⟨fun _ => rfl, ?_⟩
    intro _ readings c _ hreturn
    rw [waitUs, hchecked] at hreturn
    simp [bind, Except.bind] at hreturn
  | wrapping =>
    refine ⟨?_, fun h => absurd h (by decide)⟩
    intro h
    have hreturn : waitUs .wrapping freq us cnt [cnt] = .ok (some cnt) := by
      simp [waitUs, hwrapping, poll, hstop, pure, Except.pure]
    have hshort := h [cnt] cnt (by simp) hreturn
    rw [sub_self] at hshort
    have hpos : 0 < us.toNat := by
      by_contra hnot
      have hus : us.toNat = 0 := by omega
      rw [hus, Nat.zero_mul] at hover
      omega
    have hlong : (0 : ℚ) < (us.toNat : ℚ) * freq.toNat / 1000000 := by
      have husq : (0 : ℚ) < us.toNat := by exact_mod_cast hpos
      have hfreqq : (0 : ℚ) < freq.toNat := by exact_mod_cast Nat.lt_of_lt_of_le (by decide) hfreq
      exact div_pos (mul_pos husq hfreqq) (by norm_num)
    linarith

theorem waits_iff (p : Profile) (hfreq : 1000000 ≤ freq.toNat) {us cnt : U64}
    (hticks : us.toNat * perUs freq < 2 ^ 64) :
    WaitsLongEnough p freq us cnt ↔
      if cnt.toNat + us.toNat * perUs freq < 2 ^ 64 then us = 0 ∨ 1000000 ∣ freq.toNat
      else p = .checked := by
  by_cases hfit : cnt.toNat + us.toNat * perUs freq < 2 ^ 64
  · rw [if_pos hfit]
    exact waits_iff_of_fits p hfreq hfit
  · rw [if_neg hfit]
    exact waits_iff_of_overflow p hfreq hticks (Nat.le_of_not_lt hfit)

/-- The time base at one counter frequency, over all counter values and all waits whose
tick computation, the deadline included, does not overflow. -/
structure FaithfulBase (p : Profile) (freq : U32) : Prop where
  elapsed : ∀ c1 c2 : U64, c1 ≤ c2 → Faithful p freq c1 c2
  wait : ∀ us cnt : U64, us.toNat * perUs freq < 2 ^ 64 →
    cnt.toNat + us.toNat * perUs freq < 2 ^ 64 → WaitsLongEnough p freq us cnt

/-- A remainder shows within `freq + 1` microseconds, long before the counter ends. -/
theorem exists_not_smallGain (hfreq : 1000000 ≤ freq.toNat) (hdvd : ¬ 1000000 ∣ freq.toNat) :
    ∃ c2 : U64, ¬ SmallGain freq 0 c2 := by
  have hper : perUs freq < 2 ^ 32 := by
    unfold perUs
    omega
  have hfreqlt : freq.toNat + 1 ≤ 2 ^ 32 := freq.isLt
  have hfit : perUs freq * (freq.toNat + 1) < 2 ^ 64 :=
    calc perUs freq * (freq.toNat + 1) ≤ perUs freq * 2 ^ 32 := Nat.mul_le_mul_left _ hfreqlt
      _ < 2 ^ 32 * 2 ^ 32 := Nat.mul_lt_mul_of_pos_right hper (by decide)
      _ = 2 ^ 64 := by norm_num
  refine ⟨BitVec.ofNat 64 (perUs freq * (freq.toNat + 1)), ?_⟩
  have hval : (BitVec.ofNat 64 (perUs freq * (freq.toNat + 1))).toNat =
      perUs freq * (freq.toNat + 1) := by
    rw [BitVec.toNat_ofNat, Nat.mod_eq_of_lt hfit]
  have hzero : (0 : U64).toNat = 0 := by simp
  rw [SmallGain, hval, hzero, Nat.sub_zero]
  exact not_withinUnit (by decide) hfreq hdvd

theorem faithfulBase_iff (p : Profile) (hfreq : 1000000 ≤ freq.toNat) :
    FaithfulBase p freq ↔ 1000000 ∣ freq.toNat := by
  constructor
  · intro h
    by_contra hdvd
    obtain ⟨c2, hgain⟩ := exists_not_smallGain hfreq hdvd
    have hle : (0 : U64) ≤ c2 := BitVec.le_def.mpr (by simp)
    exact hgain ((faithful_iff p hfreq hle).mp (h.elapsed 0 c2 hle))
  · intro hdvd
    constructor
    · intro c1 c2 hle
      exact (faithful_iff p hfreq hle).mpr (withinUnit_of_dvd (by decide) hfreq hdvd _ _)
    · intro us cnt _ hfit
      exact (waits_iff_of_fits p hfreq hfit).mpr (Or.inr hdvd)

/-- Which intervals are measured to within a microsecond, which waits last long enough, and
at which frequencies both hold throughout. -/
theorem timeBase_exact (p : Profile) (freq : U32) (hfreq : 1000000 ≤ freq.toNat) :
    (∀ c1 c2 : U64, c1 ≤ c2 → (Faithful p freq c1 c2 ↔ SmallGain freq c1 c2)) ∧
      (∀ us cnt : U64, us.toNat * perUs freq < 2 ^ 64 →
        (WaitsLongEnough p freq us cnt ↔
          if cnt.toNat + us.toNat * perUs freq < 2 ^ 64 then us = 0 ∨ 1000000 ∣ freq.toNat
          else p = .checked)) ∧
      (FaithfulBase p freq ↔ 1000000 ∣ freq.toNat) := by
  refine ⟨?_, ?_, faithfulBase_iff p hfreq⟩
  · intro c1 c2 hle
    exact faithful_iff p hfreq hle
  · intro us cnt hticks
    exact waits_iff p hfreq hticks

/-- The counter of the default target, at 62.5 MHz. -/
def qemuFreq : U32 := 62500000

theorem timeBase_exact_qemu :
    (∀ c1 c2 : U64, c1 ≤ c2 →
        (Faithful .checked qemuFreq c1 c2 ↔ SmallGain qemuFreq c1 c2)) ∧
      (∀ us cnt : U64, us.toNat * perUs qemuFreq < 2 ^ 64 →
        (WaitsLongEnough .checked qemuFreq us cnt ↔
          if cnt.toNat + us.toNat * perUs qemuFreq < 2 ^ 64
          then us = 0 ∨ 1000000 ∣ qemuFreq.toNat else Profile.checked = .checked)) ∧
      (FaithfulBase .checked qemuFreq ↔ 1000000 ∣ qemuFreq.toNat) :=
  timeBase_exact .checked qemuFreq (by decide)

/-- There a second is measured as 1008064 us, and the wait of a second at the start of
`main` can end after 62000000 ticks. -/
theorem qemu_not_faithful :
    ¬ Faithful .checked qemuFreq 0 62500000 ∧ ¬ WaitsLongEnough .checked qemuFreq 1000000 0 := by
  constructor
  · intro h
    have hgain := (faithful_iff .checked (by decide) (by decide)).mp h
    exact absurd hgain (by unfold SmallGain WithinUnit carry; decide)
  · intro h
    have hwhole := (waits_iff_of_fits .checked (by decide) (by decide)).mp h
    exact absurd hwhole (by decide)

/-- `dt` in an update of the runner is the difference of its two clock readings. -/
theorem dt_of_run {r : WasmRunner} {p : Profile} {flag : Bool} {c : Chunk}
    {u : DeadlineGuard.RefuelUpdate} {r' : WasmRunner} (h : r.run p flag c = .ok (u, r')) :
    sub p c.current c.last = .ok u.dt := by
  unfold WasmRunner.run at h
  split at h
  · simp at h
  · simp only [bind_eq_ok] at h
    obtain ⟨dt, hdt, ⟨df, resumeable⟩, _, accT, _, accF, _, h⟩ := h
    -- the update is the same whether the run goes on or has finished
    split at h
    all_goals
      simp only [bind_eq_ok] at h
      obtain ⟨_, _, hret⟩ := h
      obtain ⟨rfl, -⟩ := Prod.mk.inj (Except.ok.inj hret)
      exact hdt

/-- At a whole number of megahertz every recorded `dt` is right to within a microsecond. -/
theorem dt_close_of_run {r : WasmRunner} {p : Profile} {flag : Bool} {c : Chunk}
    {u : DeadlineGuard.RefuelUpdate} {r' : WasmRunner} (hfreq : 1000000 ≤ freq.toNat)
    (hdvd : 1000000 ∣ freq.toNat) {c1 c2 : U64} (hle : c1 ≤ c2)
    (hlast : getTimeUs freq c1 = .ok c.last) (hcurrent : getTimeUs freq c2 = .ok c.current)
    (h : r.run p flag c = .ok (u, r')) :
    |(u.dt.toNat : ℚ) - ((c2.toNat : ℚ) - c1.toNat) * 1000000 / freq.toNat| ≤ 1 := by
  obtain ⟨dt, hdt, hclose⟩ := ((faithfulBase_iff p hfreq).mpr hdvd).elapsed c1 c2 hle
  have helapsed : elapsedUs p freq c1 c2 = .ok u.dt := by
    rw [elapsedUs, hlast, ok_bind, hcurrent, ok_bind]
    exact dt_of_run h
  obtain rfl := Except.ok.inj (hdt.symm.trans helapsed)
  exact hclose

end InterferenceMitigation.SysTick
