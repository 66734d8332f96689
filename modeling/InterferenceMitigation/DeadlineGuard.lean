import InterferenceMitigation.MachineInt
import InterferenceMitigation.TruncatedProjection
import Mathlib.Algebra.Order.Field.Rat
import Mathlib.Data.Rat.Cast.Order
import Mathlib.Tactic.FieldSimp

/-!
The bare-metal mitigator. After every refuel of the measured program it projects
the completion time of the run from the time and the fuel spent so far, and asks
the intruder cores to stop when the projection leaves less than the hysteresis
before the deadline. Times are microseconds; the mean cost of a unit of fuel is
kept in whole nanoseconds.
-/

namespace InterferenceMitigation.DeadlineGuard

open MachineInt TruncatedProjection

/-- Performance counters read after one stretch of execution. -/
structure PerfInfo where
  cycles : Option U64
  instr : Option U64
  l1dAccess : Option U32
  l1dRefill : Option U32
  l2dAccess : Option U32
  l2dRefill : Option U32
  deriving DecidableEq, Repr

/-- The record emitted after every stretch of execution; `usize` is 64 bits wide
on the target. -/
structure RefuelUpdate where
  timestamp : U64
  fuel : Option U64
  runIdx : U64
  refuelIdx : U64
  intruderBreak : Bool
  intruderSetMask : U64
  dt : U64
  df : Option U64
  accT : U64
  accF : Option U64
  perfInfo : Option PerfInfo
  deriving DecidableEq, Repr

/-- The call by which a decision reaches the intruder cores. -/
inductive IntruderCall
  | intruderBreak
  | intruderCont
  deriving DecidableEq, Repr

structure Mitigator where
  totalFuel : U64
  deadline : U64
  hyst : U64
  deriving DecidableEq, Repr

namespace Mitigator

/-- The local `est_t` of `mitigate`, in the order the source evaluates it. -/
def estT (m : Mitigator) (p : Profile) (accT accF : U64) : Except Panic U64 := do
  let spentNs ← mul p accT 1000
  let avgtpfNs ← div spentNs accF
  let rest ← sub p m.totalFuel accF
  let restNs ← mul p avgtpfNs rest
  let restUs ← div restNs 1000
  add p accT restUs

/-- The threshold of the comparison, `deadline - hyst`. -/
def limit (m : Mitigator) (p : Profile) : Except Panic U64 := sub p m.deadline m.hyst

/-- `none` when the update carries no fuel accounting and no call is made. -/
def mitigate (m : Mitigator) (p : Profile) (update : RefuelUpdate) :
    Except Panic (Option IntruderCall) :=
  match update.fuel, update.accF with
  | some _, some accF => do
    let estT ← m.estT p update.accT accF
    let limit ← m.limit p
    return some (if estT > limit then .intruderBreak else .intruderCont)
  | _, _ => .ok none

/-- A decision taken on a metered update is the comparison of the estimate with the
threshold, both as the build computes them. -/
theorem mitigate_inv {m : Mitigator} {p : Profile} {update : RefuelUpdate} {fuel accF : U64}
    {decision : Option IntruderCall} (hfuel : update.fuel = some fuel)
    (hacc : update.accF = some accF) (h : m.mitigate p update = .ok decision) :
    ∃ est lim, m.estT p update.accT accF = .ok est ∧ m.limit p = .ok lim ∧
      decision = some (if est > lim then .intruderBreak else .intruderCont) := by
  simp only [mitigate, hfuel, hacc, bind_eq_ok] at h
  obtain ⟨est, hest, lim, hlim, hret⟩ := h
  exact ⟨est, lim, hest, hlim, (Except.ok.inj hret).symm⟩

/-- Neither product of the estimate reaches `2 ^ 64`. -/
def ProductsFit (m : Mitigator) (accT accF : U64) : Prop :=
  accT.toNat * 1000 < 2 ^ 64 ∧
    accT.toNat * 1000 / accF.toNat * (m.totalFuel.toNat - accF.toNat) < 2 ^ 64

instance (m : Mitigator) (accT accF : U64) : Decidable (m.ProductsFit accT accF) :=
  inferInstanceAs (Decidable (_ ∧ _))

/-- Without wrapping the estimate is the truncated projection at nanosecond scale. -/
theorem estT_eq (m : Mitigator) (p : Profile) {accT accF : U64} (hpos : accF ≠ 0)
    (hle : accF.toNat ≤ m.totalFuel.toNat) (hfit : m.ProductsFit accT accF) :
    ∃ e, m.estT p accT accF = .ok e ∧
      e.toNat = estimate accT.toNat accF.toNat m.totalFuel.toNat 1000 := by
  obtain ⟨hspent, hrest⟩ := hfit
  have hspent : accT.toNat * (1000 : U64).toNat < 2 ^ 64 := hspent
  have hmul : (accT * 1000).toNat = accT.toNat * 1000 := BitVec.toNat_mul_of_lt hspent
  have havg : (accT * 1000 / accF).toNat = accT.toNat * 1000 / accF.toNat := by
    rw [BitVec.toNat_udiv, hmul]
  have hsub : (m.totalFuel - accF).toNat = m.totalFuel.toNat - accF.toNat :=
    BitVec.toNat_sub_of_le (BitVec.le_def.mpr hle)
  have hfit : (accT * 1000 / accF).toNat * (m.totalFuel - accF).toNat < 2 ^ 64 := by
    rw [havg, hsub]
    exact hrest
  have hcost : (accT * 1000 / accF * (m.totalFuel - accF) / 1000).toNat =
      accT.toNat * 1000 / accF.toNat * (m.totalFuel.toNat - accF.toNat) / 1000 := by
    rw [BitVec.toNat_udiv, BitVec.toNat_mul_of_lt hfit, havg, hsub]
    rfl
  have hsum : accT.toNat + (accT * 1000 / accF * (m.totalFuel - accF) / 1000).toNat < 2 ^ 64 := by
    rw [hcost]
    omega
  refine ⟨accT + accT * 1000 / accF * (m.totalFuel - accF) / 1000, ?_, ?_⟩
  · simp only [estT, mul_eq_ok p hspent, div_eq_ok hpos, sub_eq_ok p hle, mul_eq_ok p hfit,
      ok_bind, div_eq_ok (show (1000 : U64) ≠ 0 by decide), add_eq_ok p hsum]
  · rw [BitVec.toNat_add_of_lt hsum, hcost]
    rfl

/-- Where the build traps overflow, an estimate that was computed had none. -/
theorem estT_fits (m : Mitigator) {accT accF e : U64} (h : m.estT .checked accT accF = .ok e) :
    accF ≠ 0 ∧ accF.toNat ≤ m.totalFuel.toNat ∧ m.ProductsFit accT accF := by
  simp only [estT, bind_eq_ok] at h
  obtain ⟨spentNs, hspent, avgtpfNs, havg, rest, hrest, restNs, hrestNs, -⟩ := h
  obtain ⟨hfirst, rfl⟩ := mul_fits_of_checked hspent
  obtain ⟨hne, rfl⟩ := div_inv havg
  have hle := sub_fits_of_checked hrest
  obtain ⟨hsecond, -⟩ := mul_fits_of_checked hrestNs
  rw [toNat_of_sub_checked hrest, BitVec.toNat_udiv, BitVec.toNat_mul_of_lt hfirst] at hsecond
  exact ⟨hne, hle, hfirst, hsecond⟩

theorem limit_eq (m : Mitigator) (p : Profile) (h : m.hyst.toNat ≤ m.deadline.toNat) :
    ∃ l, m.limit p = .ok l ∧ l.toNat = m.deadline.toNat - m.hyst.toNat :=
  ⟨m.deadline - m.hyst, sub_eq_ok p h, BitVec.toNat_sub_of_le (BitVec.le_def.mpr h)⟩

/-- The decision taken when no operation of `mitigate` wraps. -/
theorem mitigate_eq (m : Mitigator) (p : Profile) {update : RefuelUpdate} {fuel accF : U64}
    (hfuel : update.fuel = some fuel) (hacc : update.accF = some accF) (hpos : accF ≠ 0)
    (hle : accF.toNat ≤ m.totalFuel.toNat) (hhyst : m.hyst.toNat ≤ m.deadline.toNat)
    (hfit : m.ProductsFit update.accT accF) :
    m.mitigate p update = .ok (some
      (if m.deadline.toNat - m.hyst.toNat <
          estimate update.accT.toNat accF.toNat m.totalFuel.toNat 1000
        then .intruderBreak else .intruderCont)) := by
  obtain ⟨e, he, heval⟩ := m.estT_eq p hpos hle hfit
  obtain ⟨l, hl, hlval⟩ := m.limit_eq p hhyst
  simp only [mitigate, hfuel, hacc, he, hl, ok_bind, pure, Except.pure, gt_iff_lt, BitVec.lt_def,
    heval, hlval]

theorem mitigate_break_iff (m : Mitigator) (p : Profile) {update : RefuelUpdate}
    {fuel accF : U64} (hfuel : update.fuel = some fuel) (hacc : update.accF = some accF)
    (hpos : accF ≠ 0) (hle : accF.toNat ≤ m.totalFuel.toNat)
    (hhyst : m.hyst.toNat ≤ m.deadline.toNat) (hfit : m.ProductsFit update.accT accF) :
    m.mitigate p update = .ok (some .intruderBreak) ↔
      m.deadline.toNat - m.hyst.toNat <
        estimate update.accT.toNat accF.toNat m.totalFuel.toNat 1000 := by
  rw [m.mitigate_eq p hfuel hacc hpos hle hhyst hfit]
  split <;> simp_all

/-- The exact linear projection of the completion time. -/
def projection (m : Mitigator) (accT accF : U64) : ℚ :=
  accT.toNat * m.totalFuel.toNat / accF.toNat

theorem deadline_lt_projection_iff (m : Mitigator) {accT accF : U64} (hpos : accF ≠ 0) :
    (m.deadline.toNat : ℚ) < m.projection accT accF ↔
      m.deadline.toNat * accF.toNat < accT.toNat * m.totalFuel.toNat := by
  have hnat : 0 < accF.toNat := BitVec.toNat_pos_of_ne_zero hpos
  have hrat : (0 : ℚ) < accF.toNat := by exact_mod_cast hnat
  rw [projection, lt_div_iff₀ hrat]
  exact_mod_cast Iff.rfl

/-- The guard is conservative on an update: a projection past the deadline stops
the intruders. -/
def ConservativeOn (m : Mitigator) (p : Profile) (update : RefuelUpdate) (accF : U64) : Prop :=
  (m.deadline.toNat : ℚ) < m.projection update.accT accF →
    m.mitigate p update = .ok (some .intruderBreak)

/-- The truncated mean cost has reached the whole number of nanoseconds for which the
remaining fuel takes the run past `deadline - hyst`, or that instant is already over. -/
def CostReached (m : Mitigator) (accT accF : U64) : Prop :=
  m.deadline.toNat - m.hyst.toNat < accT.toNat ∨
    (accF.toNat < m.totalFuel.toNat ∧
      costNeeded accT.toNat accF.toNat m.totalFuel.toNat 1000
        (m.deadline.toNat - m.hyst.toNat) * accF.toNat ≤ accT.toNat * 1000)

/-- The guard is conservative exactly where the projection meets the deadline or the
mean cost has reached the needed whole nanosecond. -/
theorem conservativeOn_iff (m : Mitigator) (p : Profile) {update : RefuelUpdate}
    {fuel accF : U64} (hfuel : update.fuel = some fuel) (hacc : update.accF = some accF)
    (hpos : accF ≠ 0) (hle : accF.toNat ≤ m.totalFuel.toNat)
    (hhyst : m.hyst.toNat ≤ m.deadline.toNat) (hfit : m.ProductsFit update.accT accF) :
    m.ConservativeOn p update accF ↔
      update.accT.toNat * m.totalFuel.toNat ≤ m.deadline.toNat * accF.toNat ∨
        m.CostReached update.accT accF := by
  have hnat : 0 < accF.toNat := BitVec.toNat_pos_of_ne_zero hpos
  have hreach : m.deadline.toNat - m.hyst.toNat <
      estimate update.accT.toNat accF.toNat m.totalFuel.toNat 1000 ↔ _ :=
    lt_estimate_iff hnat (show 0 < 1000 by omega)
  unfold ConservativeOn CostReached
  rw [m.deadline_lt_projection_iff hpos,
    m.mitigate_break_iff p hfuel hacc hpos hle hhyst hfit, hreach, imp_iff_not_or, Nat.not_lt]

/-- The constants `main` passes to `Mitigator::new`. -/
def deployed : Mitigator := ⟨1179239671, 106585211, 10000⟩

/-- Refuel 113 of run 0 in `mitigation-1022-10000000-3.txt`, counters left out. -/
def recordedUpdate : RefuelUpdate where
  timestamp := 197011180
  fuel := some 10000000
  runIdx := 0
  refuelIdx := 113
  intruderBreak := false
  intruderSetMask := 1022
  dt := 905334
  df := some 10000000
  accT := 103041821
  accF := some 1140000000
  perfInfo := none

theorem conservativeOn_iff_recorded :
    deployed.ConservativeOn .wrapping recordedUpdate 1140000000 ↔
      103041821 * 1179239671 ≤ 106585211 * 1140000000 ∨
        deployed.CostReached 103041821 1140000000 :=
  deployed.conservativeOn_iff .wrapping rfl rfl (by decide) (by decide)
    (by decide) (by decide)

/-- On the recorded update the projection is past the deadline, yet the intruders go on. -/
theorem recordedUpdate_not_conservative :
    ¬ ∀ (m : Mitigator) (p : Profile) (update : RefuelUpdate) (fuel accF : U64),
      update.fuel = some fuel → update.accF = some accF → accF ≠ 0 →
      accF.toNat ≤ m.totalFuel.toNat → m.hyst.toNat ≤ m.deadline.toNat →
      m.ProductsFit update.accT accF → m.ConservativeOn p update accF := by
  intro h
  have hbreak := h deployed .wrapping recordedUpdate 10000000 1140000000 rfl rfl (by decide)
    (by decide) (by decide) (by decide)
    ((deployed.deadline_lt_projection_iff (by decide)).mpr (by decide))
  exact absurd hbreak (by decide)

end Mitigator

end InterferenceMitigation.DeadlineGuard
