import InterferenceMitigation.FreezeControl

/-!
How long the average of the Linux mitigator is exact. The picoseconds of a run are computed
in 128 bits, which hold every duration, and narrowed to 64 bits before they are divided by
the fuel. Below 2 ^ 64 ps, about 213 days, the decision is that of the exact average. From
there on the average is too small, and the intruder of an overdue run can be released.
-/

namespace InterferenceMitigation.ExactAverage

open MachineInt Durations FreezeControl

/-- Dropping a multiple of `b` lowers every quotient by a divisor up to `b`. -/
theorem mod_div_lt_div {n b d : ℕ} (hd : 0 < d) (hdb : d ≤ b) (hn : b ≤ n) :
    n % b / d < n / d := by
  have hsplit := Nat.mod_add_div n b
  have hquot : 1 ≤ n / b := (Nat.one_le_div_iff (by omega)).mpr hn
  have hdrop : n % b + d ≤ n := by
    have hmul : b * 1 ≤ b * (n / b) := Nat.mul_le_mul_left b hquot
    omega
  calc n % b / d < n % b / d + 1 := Nat.lt_succ_self _
    _ = (n % b + d) / d := (Nat.add_div_right _ hd).symm
    _ ≤ n / d := Nat.div_le_div_right hdrop

theorem mod_div_eq_div_iff {n b d : ℕ} (hd : 0 < d) (hdb : d ≤ b) :
    n % b / d = n / d ↔ n < b := by
  constructor
  · intro heq
    by_contra hn
    have hlt := mod_div_lt_div hd hdb (Nat.le_of_not_lt hn)
    omega
  · intro hn
    rw [Nat.mod_eq_of_lt hn]

/-- The mean time per unit of fuel in whole picoseconds, over unbounded integers. -/
def exactAverage (t : Duration) (f : U32) : ℕ := t.nanos * 1000 / f.toNat

/-- The duration is shorter than `2 ^ 64` picoseconds. -/
def Narrow (t : Duration) : Prop := t.nanos * 1000 < 2 ^ 64

theorem exactAverage_mono {t t' : Duration} (f : U32) (h : t.nanos ≤ t'.nanos) :
    exactAverage t f ≤ exactAverage t' f :=
  Nat.div_le_div_right (Nat.mul_le_mul_right 1000 h)

/-- The computed average is the exact one for the durations below `2 ^ 64` ps and no others. -/
theorem picos_div_eq_iff (t : Duration) {f : U32} (hf : f ≠ 0) :
    picos t / f.toNat = exactAverage t f ↔ Narrow t := by
  have hfit : f.toNat ≤ 2 ^ 64 := by omega
  exact mod_div_eq_div_iff (BitVec.toNat_pos_of_ne_zero hf) hfit

/-- The narrowing never makes the average too large. -/
theorem picos_div_le (t : Duration) (f : U32) : picos t / f.toNat ≤ exactAverage t f :=
  Nat.div_le_div_right (Nat.mod_le _ _)

/-- The mitigator `run_wasm` builds for the worst case `w`, with some remembered command. -/
def remembering (w : U64) (last : Option Irq) : Mitigator :=
  { Mitigator.forRun (some w) with lastIrq := last }

theorem low_eq (p : Profile) (w : U64) (last : Option Irq) :
    ∃ low, sub p w (remembering w last).wctpfHyst = .ok low ∧
      low.toNat = w.toNat - w.toNat / 10 := by
  have hdiv : (w / 10).toNat = w.toNat / 10 := BitVec.toNat_udiv ..
  have hle : (w / 10).toNat ≤ w.toNat := by omega
  refine ⟨w - w / 10, sub_eq_ok p hle, ?_⟩
  rw [BitVec.toNat_sub_of_le (BitVec.le_def.mpr hle), hdiv]

/-- The decision as a function of the computed average. -/
theorem mitigate_remembering (p : Profile) (w : U64) (last : Option Irq) (t : Duration) {f : U32}
    (hf : f ≠ 0) :
    (remembering w last).mitigate p t (some f) =
      .ok (if w.toNat < picos t / f.toNat then some (.freeze 1)
        else if picos t / f.toNat < w.toNat - w.toNat / 10 then some (.unfreeze 1)
        else last) := by
  obtain ⟨avg, havg, hval⟩ := avgtpf_eq p t hf
  obtain ⟨low, hlow, hlowval⟩ := low_eq p w last
  have habove : avg > w ↔ w.toNat < picos t / f.toNat := by
    rw [gt_iff_lt, BitVec.lt_def, hval]
  have hbelow : avg < low ↔ picos t / f.toNat < w.toNat - w.toNat / 10 := by
    rw [BitVec.lt_def, hval, hlowval]
  have hwctpf : (remembering w last).wctpf = some w := rfl
  have hlast : (remembering w last).lastIrq = last := rfl
  simp only [Mitigator.mitigate, havg, Except.map, ok_bind, hwctpf, hlow, habove, hbelow, hlast]
  by_cases hfreeze : w.toNat < picos t / f.toNat
  · simp only [hfreeze, if_true]
    rfl
  · by_cases hunfreeze : picos t / f.toNat < w.toNat - w.toNat / 10
    · simp only [hfreeze, hunfreeze, if_true, if_false]
      rfl
    · simp only [hfreeze, hunfreeze, if_false]
      rfl

/-- A freeze that is not the remembered command is due, whatever the duration: the narrowing
only ever releases. -/
theorem above_of_freeze (p : Profile) {w : U64} {last : Option Irq}
    (hlast : last ≠ some (.freeze 1)) {t : Duration} {f : U32} (hf : f ≠ 0)
    (h : (remembering w last).mitigate p t (some f) = .ok (some (.freeze 1))) :
    w.toNat < exactAverage t f := by
  rw [mitigate_remembering p w last t hf] at h
  have hchoice := Except.ok.inj h
  by_cases hfreeze : w.toNat < picos t / f.toNat
  · exact Nat.lt_of_lt_of_le hfreeze (picos_div_le t f)
  · rw [if_neg hfreeze] at hchoice
    by_cases hunfreeze : picos t / f.toNat < w.toNat - w.toNat / 10
    · simp [hunfreeze] at hchoice
    · exact absurd (by simpa [hunfreeze] using hchoice) hlast

/-- What the decision on `f` units of fuel spent in `t` owes to the exact average. -/
structure ExactDecision (p : Profile) (w : U64) (last : Option Irq) (t : Duration) (f : U32) :
    Prop where
  average : ∃ avg, avgtpf p t f = .ok avg ∧ avg.toNat = exactAverage t f
  freeze : w.toNat < exactAverage t f →
    (remembering w last).mitigate p t (some f) = .ok (some (.freeze 1))
  unfreeze : exactAverage t f < w.toNat - w.toNat / 10 →
    (remembering w last).mitigate p t (some f) = .ok (some (.unfreeze 1))
  -- once a shorter time is too long for the fuel, so is this one
  kept : ∀ t' : Duration, t'.nanos ≤ t.nanos → w.toNat < exactAverage t' f →
    (remembering w last).mitigate p t (some f) = .ok (some (.freeze 1))
  low : ∃ low, sub .checked w (remembering w last).wctpfHyst = .ok low ∧
    low.toNat = w.toNat - w.toNat / 10

theorem Narrow.freeze {t : Duration} (h : Narrow t) (p : Profile) {w : U64} (last : Option Irq)
    {f : U32} (hf : f ≠ 0) (habove : w.toNat < exactAverage t f) :
    (remembering w last).mitigate p t (some f) = .ok (some (.freeze 1)) := by
  rw [mitigate_remembering p w last t hf, (picos_div_eq_iff t hf).mpr h, if_pos habove]

theorem Narrow.unfreeze {t : Duration} (h : Narrow t) (p : Profile) {w : U64} (last : Option Irq)
    {f : U32} (hf : f ≠ 0) (hbelow : exactAverage t f < w.toNat - w.toNat / 10) :
    (remembering w last).mitigate p t (some f) = .ok (some (.unfreeze 1)) := by
  have hnot : ¬ w.toNat < exactAverage t f := by omega
  rw [mitigate_remembering p w last t hf, (picos_div_eq_iff t hf).mpr h, if_neg hnot,
    if_pos hbelow]

/-- The decision is the exact one for the durations below `2 ^ 64` ps and no others. -/
theorem exactDecision_iff (p : Profile) (w : U64) (last : Option Irq) (t : Duration) {f : U32}
    (hf : f ≠ 0) : ExactDecision p w last t f ↔ Narrow t := by
  constructor
  · intro h
    obtain ⟨avg, havg, hexact⟩ := h.average
    obtain ⟨avg', havg', hval⟩ := avgtpf_eq p t hf
    obtain rfl : avg = avg' := Except.ok.inj (havg.symm.trans havg')
    exact (picos_div_eq_iff t hf).mp (hval.symm.trans hexact)
  · intro h
    refine ⟨?_, h.freeze p last hf, h.unfreeze p last hf, ?_, low_eq .checked w last⟩
    · obtain ⟨avg, havg, hval⟩ := avgtpf_eq p t hf
      exact ⟨avg, havg, hval.trans ((picos_div_eq_iff t hf).mpr h)⟩
    · intro t' hle habove
      exact h.freeze p last hf (Nat.lt_of_lt_of_le habove (exactAverage_mono f hle))

theorem exactDecision_second : ExactDecision .checked 100 none (.ofNanos 1000000000) 7 := by
  apply (exactDecision_iff .checked 100 none (.ofNanos 1000000000) (by decide)).mpr
  unfold Narrow
  decide

/-- The shortest overdue run whose average is lost: 384 ps are left of it. -/
def overlong : Duration := .ofNanos 18446744073709552

/-- At one unit of fuel the run is far above `wctpf = 1000`, and the intruder is released. -/
theorem overlong_not_exact :
    ¬ ∀ (p : Profile) (w : U64) (last : Option Irq) (t : Duration) (f : U32), f ≠ 0 →
      ExactDecision p w last t f := by
  intro h
  have hexact := (h .checked 1000 (some (.freeze 1)) overlong 1 (by decide)).freeze (by decide)
  exact absurd hexact (by decide)

end InterferenceMitigation.ExactAverage
