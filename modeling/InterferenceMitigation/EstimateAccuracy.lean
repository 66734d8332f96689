import InterferenceMitigation.DeadlineGuard
import Mathlib.Tactic.Linarith

/-!
How far the estimate of the bare-metal mitigator is from the exact projection. It never
lies above it, and it falls short of it by less than a microsecond and a nanosecond for
every remaining unit of fuel. It is monotone in the time spent and in the fuel that is
left, so a decision to stop the intruders is not taken back by a worse update.
-/

namespace InterferenceMitigation.EstimateAccuracy

open MachineInt DeadlineGuard TruncatedProjection

/-- The updates on which `mitigate` computes without a fault: some fuel is spent and no more
than the budget, and no product leaves 64 bits. -/
structure Regular (m : Mitigator) (update : RefuelUpdate) (accF : U64) : Prop where
  metered : update.accF = some accF
  pos : accF ≠ 0
  le : accF.toNat ≤ m.totalFuel.toNat
  fit : m.ProductsFit update.accT accF

variable {m : Mitigator} {update : RefuelUpdate} {accF : U64}

theorem Regular.toNat_pos (h : Regular m update accF) : 0 < accF.toNat :=
  BitVec.toNat_pos_of_ne_zero h.pos

theorem Regular.estT_eq (h : Regular m update accF) (p : Profile) :
    ∃ est, m.estT p update.accT accF = .ok est ∧
      est.toNat = estimate update.accT.toNat accF.toNat m.totalFuel.toNat 1000 :=
  m.estT_eq p h.pos h.le h.fit

theorem Regular.estimate_le_projection (h : Regular m update accF) :
    (estimate update.accT.toNat accF.toNat m.totalFuel.toNat 1000 : ℚ) ≤
      m.projection update.accT accF := by
  have hpos : (0 : ℚ) < accF.toNat := by exact_mod_cast h.toNat_pos
  have hmul := estimate_mul_le update.accT.toNat 1000 h.le
  rw [Mitigator.projection, le_div_iff₀ hpos]
  exact_mod_cast hmul

theorem Regular.projection_sub_lt (h : Regular m update accF) :
    m.projection update.accT accF -
        (estimate update.accT.toNat accF.toNat m.totalFuel.toNat 1000 : ℚ) <
      ((m.totalFuel.toNat : ℚ) - accF.toNat) / 1000 + 1 := by
  have hpos : (0 : ℚ) < accF.toNat := by exact_mod_cast h.toNat_pos
  have hlt := mul_lt_estimate update.accT.toNat h.toNat_pos
    (show 0 < 1000 by omega) h.le
  have hrat : (update.accT.toNat : ℚ) * m.totalFuel.toNat * 1000 <
      ((estimate update.accT.toNat accF.toNat m.totalFuel.toNat 1000 : ℚ) + 1) * accF.toNat *
        1000 + ((m.totalFuel.toNat : ℚ) - accF.toNat) * accF.toNat := by
    rw [← Nat.cast_sub h.le]
    exact_mod_cast hlt
  rw [Mitigator.projection, sub_lt_iff_lt_add, div_lt_iff₀ hpos]
  linarith

/-- A projection that leaves the hysteresis before the deadline stops nobody. -/
theorem Regular.not_break (h : Regular m update accF) (p : Profile)
    (hhyst : m.hyst.toNat ≤ m.deadline.toNat)
    (hproj : m.projection update.accT accF ≤ (m.deadline.toNat : ℚ) - m.hyst.toNat) :
    m.mitigate p update ≠ .ok (some .intruderBreak) := by
  have hle : estimate update.accT.toNat accF.toNat m.totalFuel.toNat 1000 ≤
      m.deadline.toNat - m.hyst.toNat := by
    have hchain := h.estimate_le_projection.trans hproj
    rw [← Nat.cast_sub hhyst] at hchain
    exact_mod_cast hchain
  cases hfuel : update.fuel with
  | none => simp [Mitigator.mitigate, hfuel]
  | some fuel =>
    rw [Ne, m.mitigate_break_iff p hfuel h.metered h.pos h.le hhyst h.fit]
    omega

/-- A break is kept by every update with no less time and no more fuel. -/
theorem Regular.break_kept (h : Regular m update accF) {update' : RefuelUpdate} {accF' : U64}
    (h' : Regular m update' accF') (p : Profile) (hhyst : m.hyst.toNat ≤ m.deadline.toNat)
    (htime : update.accT.toNat ≤ update'.accT.toNat) (hfuel : accF'.toNat ≤ accF.toNat)
    (hbreak : m.mitigate p update = .ok (some .intruderBreak)) {fuel' : U64}
    (hmetered : update'.fuel = some fuel') :
    m.mitigate p update' = .ok (some .intruderBreak) := by
  cases hgrant : update.fuel with
  | none => simp [Mitigator.mitigate, hgrant] at hbreak
  | some fuel =>
    rw [m.mitigate_break_iff p hgrant h.metered h.pos h.le hhyst h.fit] at hbreak
    rw [m.mitigate_break_iff p hmetered h'.metered h'.pos h'.le hhyst h'.fit]
    exact hbreak.trans_le (estimate_mono htime hfuel h'.toNat_pos)

/-- The estimate against the exact projection, on every regular update, and its monotonicity
over any two of them. -/
theorem estT_accurate (m : Mitigator) (p : Profile) (hhyst : m.hyst.toNat ≤ m.deadline.toNat) :
    (∀ update accF, Regular m update accF →
      ∃ est, m.estT p update.accT accF = .ok est ∧
        (est.toNat : ℚ) ≤ m.projection update.accT accF ∧
        m.projection update.accT accF - est.toNat <
          ((m.totalFuel.toNat : ℚ) - accF.toNat) / 1000 + 1 ∧
        (m.projection update.accT accF ≤ (m.deadline.toNat : ℚ) - m.hyst.toNat →
          m.mitigate p update ≠ .ok (some .intruderBreak)) ∧
        (accF = m.totalFuel → est = update.accT)) ∧
      ∀ update accF update' accF', Regular m update accF → Regular m update' accF' →
        update.accT.toNat ≤ update'.accT.toNat → accF'.toNat ≤ accF.toNat →
        ∃ est est', m.estT p update.accT accF = .ok est ∧
          m.estT p update'.accT accF' = .ok est' ∧ est.toNat ≤ est'.toNat ∧
          (m.mitigate p update = .ok (some .intruderBreak) →
            ∀ fuel', update'.fuel = some fuel' →
              m.mitigate p update' = .ok (some .intruderBreak)) := by
  constructor
  · intro update accF h
    obtain ⟨est, hest, hval⟩ := h.estT_eq p
    refine ⟨est, hest, ?_, ?_, h.not_break p hhyst, ?_⟩
    · rw [hval]
      exact h.estimate_le_projection
    · rw [hval]
      exact h.projection_sub_lt
    · rintro rfl
      apply BitVec.eq_of_toNat_eq
      rw [hval, estimate_self]
  · intro update accF update' accF' h h' htime hfuel
    obtain ⟨est, hest, hval⟩ := h.estT_eq p
    obtain ⟨est', hest', hval'⟩ := h'.estT_eq p
    refine ⟨est, est', hest, hest', ?_, ?_⟩
    · rw [hval, hval']
      exact estimate_mono htime hfuel h'.toNat_pos
    · intro hbreak fuel' hmetered
      exact h.break_kept h' p hhyst htime hfuel hbreak hmetered

/-- The recorded update under the deployed mitigator: the estimate is below the projection,
by less than the bound for the fuel that remains. -/
theorem estT_accurate_recorded :
    ∃ est, Mitigator.deployed.estT .wrapping 103041821 1140000000 = .ok est ∧
      (est.toNat : ℚ) ≤ Mitigator.deployed.projection 103041821 1140000000 := by
  have hregular : Regular .deployed Mitigator.recordedUpdate 1140000000 :=
    ⟨rfl, by decide, by decide, by decide⟩
  obtain ⟨est, hest, hle, -⟩ :=
    (estT_accurate .deployed .wrapping (by decide)).1 Mitigator.recordedUpdate 1140000000 hregular
  exact ⟨est, hest, hle⟩

end InterferenceMitigation.EstimateAccuracy
