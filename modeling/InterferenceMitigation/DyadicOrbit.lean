import Mathlib.Algebra.Field.ZMod
import Mathlib.Data.ENat.Basic
import Mathlib.NumberTheory.Multiplicity
import Mathlib.Tactic.Ring

/-!
The orbit of zero under `x ↦ (x + c) * a` modulo a power of two, with an odd factor `a`.
Its even terms are multiples of a geometric sum in the square of `a`, and such sums run
through all residues as their length does. The even terms therefore run through all
multiples of the power of two that divides `c * (a + 1)`.
-/

namespace InterferenceMitigation.DyadicOrbit

section GeometricSum

/-- The sum of the first `n` powers of `q`. -/
def geometricSum (q n : ℕ) : ℕ := ∑ j ∈ Finset.range n, q ^ j

theorem geometricSum_succ (q n : ℕ) : geometricSum q (n + 1) = q * geometricSum q n + 1 := by
  rw [geometricSum, geometricSum, Finset.sum_range_succ', Finset.mul_sum, pow_zero]
  simp only [pow_succ']

theorem geometricSum_add (q m n : ℕ) :
    geometricSum q (m + n) = geometricSum q m + q ^ m * geometricSum q n := by
  rw [geometricSum, Finset.sum_range_add, geometricSum, geometricSum, Finset.mul_sum]
  simp only [pow_add]

variable {q : ℕ} (hq : q % 4 = 1)

include hq

/-- A geometric sum of length `n` is divisible by the powers of two that divide `n`. -/
theorem emultiplicity_geometricSum (n : ℕ) :
    emultiplicity (2 : ℤ) (geometricSum q n : ℤ) = emultiplicity (2 : ℤ) (n : ℤ) := by
  by_cases hone : q = 1
  · subst hone
    simp [geometricSum]
  · have hproduct : (geometricSum q n : ℤ) * ((q : ℤ) - 1) = (q : ℤ) ^ n - 1 ^ n := by
      rw [one_pow, ← geom_sum_mul]
      push_cast [geometricSum]
      rfl
    have hfour : (4 : ℤ) ∣ (q : ℤ) - 1 := by omega
    have hodd : ¬ (2 : ℤ) ∣ (q : ℤ) := by omega
    have hlift := Int.two_pow_sub_pow' n hfour hodd
    rw [← hproduct, emultiplicity_mul Int.prime_two, add_comm] at hlift
    have hne : emultiplicity (2 : ℤ) ((q : ℤ) - 1) ≠ ⊤ := by
      rw [ne_eq, emultiplicity_eq_top, not_not, Int.finiteMultiplicity_iff]
      exact ⟨by decide, by omega⟩
    exact ENat.add_right_injective_of_ne_top hne hlift

theorem two_pow_dvd_geometricSum (k n : ℕ) : 2 ^ k ∣ geometricSum q n ↔ 2 ^ k ∣ n := by
  have hcast : ∀ m : ℕ, 2 ^ k ∣ m ↔ (2 : ℤ) ^ k ∣ (m : ℤ) := by
    intro m
    rw [← Int.natCast_dvd_natCast]
    push_cast
    rfl
  rw [hcast, hcast, pow_dvd_iff_le_emultiplicity, pow_dvd_iff_le_emultiplicity,
    emultiplicity_geometricSum hq]

/-- Sums of different lengths below `2 ^ k` differ modulo `2 ^ k`. -/
theorem geometricSum_inj {k m i j : ℕ} (hij : i ≤ j) (hj : j < 2 ^ k)
    (h : (geometricSum q (m + i) : ZMod (2 ^ k)) = geometricSum q (m + j)) : i = j := by
  obtain ⟨d, rfl⟩ := Nat.exists_eq_add_of_le hij
  have hcoprime : Nat.Coprime (2 ^ k) (q ^ (m + i)) := by
    have hodd : Odd q := Nat.odd_iff.mpr (by omega)
    exact (Nat.coprime_two_left.mpr hodd).pow k (m + i)
  rw [← Nat.add_assoc, geometricSum_add q (m + i) d, Nat.cast_add, left_eq_add,
    ZMod.natCast_eq_zero_iff] at h
  have hdvd := (two_pow_dvd_geometricSum hq k d).mp (hcoprime.dvd_of_dvd_mul_left h)
  have hzero := Nat.eq_zero_of_dvd_of_lt hdvd (by omega)
  omega

/-- Among `2 ^ k` consecutive lengths every residue is reached. -/
theorem geometricSum_covers (k m : ℕ) (r : ZMod (2 ^ k)) :
    ∃ j < 2 ^ k, (geometricSum q (m + j) : ZMod (2 ^ k)) = r := by
  let sum : Fin (2 ^ k) → ZMod (2 ^ k) := fun j => geometricSum q (m + j)
  have hinj : Function.Injective sum := by
    intro i j hij
    apply Fin.ext
    rcases Nat.le_total i.val j.val with hle | hle
    · exact geometricSum_inj hq hle j.isLt hij
    · exact (geometricSum_inj hq hle i.isLt hij.symm).symm
  have hbij : Function.Bijective sum := by
    rw [Fintype.bijective_iff_injective_and_card]
    exact ⟨hinj, by rw [Fintype.card_fin, ZMod.card]⟩
  obtain ⟨j, hj⟩ := hbij.2 r
  exact ⟨j.val, j.isLt, hj⟩

end GeometricSum

section Orbit

/-- Term `n` of the orbit of zero. -/
def orbit (a c w : ℕ) : ℕ → ℕ
  | 0 => 0
  | n + 1 => (orbit a c w n + c) * a % 2 ^ w

variable (a c w : ℕ)

theorem orbit_lt (n : ℕ) : orbit a c w n < 2 ^ w := by
  cases n with
  | zero => exact Nat.two_pow_pos w
  | succ n => exact Nat.mod_lt _ (Nat.two_pow_pos w)

theorem orbit_even (m : ℕ) :
    orbit a c w (2 * m) ≡ c * (a + 1) * (a * geometricSum (a ^ 2) m) [MOD 2 ^ w] := by
  induction m with
  | zero => rfl
  | succ m ih =>
    have hstep : orbit a c w (2 * m + 2) ≡
        ((orbit a c w (2 * m) + c) * a + c) * a [MOD 2 ^ w] := by
      refine (Nat.mod_modEq _ _).trans ?_
      exact ((Nat.mod_modEq _ _).add_right c).mul_right a
    refine hstep.trans ?_
    have hnext := (((ih.add_right c).mul_right a).add_right c).mul_right a
    refine hnext.trans ?_
    rw [geometricSum_succ]
    have hsame : ((c * (a + 1) * (a * geometricSum (a ^ 2) m) + c) * a + c) * a =
        c * (a + 1) * (a * (a ^ 2 * geometricSum (a ^ 2) m + 1)) := by ring
    rw [hsame]

variable {a c w}

/-- In a window of `2 ^ (w - v)` even terms the orbit reaches every multiple of `2 ^ v`. -/
theorem orbit_covers {v u : ℕ} (ha : Odd a) (hu : Odd u) (hv : v ≤ w)
    (hcu : c * (a + 1) = 2 ^ v * u) (m : ℕ) {t : ℕ} (ht : t < 2 ^ (w - v)) :
    ∃ j < 2 ^ (w - v), orbit a c w (2 * (m + j)) = 2 ^ v * t := by
  have hsquare : a ^ 2 % 4 = 1 := by
    obtain ⟨b, rfl⟩ := ha
    have hexpand : (2 * b + 1) ^ 2 = 4 * (b ^ 2 + b) + 1 := by ring
    omega
  have hunit : IsUnit ((u * a : ℕ) : ZMod (2 ^ (w - v))) := by
    rw [ZMod.isUnit_iff_coprime]
    exact ((Nat.coprime_two_right.mpr (hu.mul ha))).pow_right (w - v)
  obtain ⟨inv, hinv⟩ := hunit.exists_right_inv
  obtain ⟨j, hj, hsum⟩ := geometricSum_covers hsquare (w - v) m (inv * t)
  have hresidue : u * a * geometricSum (a ^ 2) (m + j) ≡ t [MOD 2 ^ (w - v)] := by
    rw [← ZMod.natCast_eq_natCast_iff, Nat.cast_mul, hsum, ← mul_assoc, hinv, one_mul]
  have hpow : 2 ^ w = 2 ^ v * 2 ^ (w - v) := by
    rw [← pow_add]
    congr 1
    omega
  have hscaled : orbit a c w (2 * (m + j)) ≡ 2 ^ v * t [MOD 2 ^ w] := by
    refine (orbit_even a c w (m + j)).trans ?_
    rw [hcu, hpow, mul_assoc, ← mul_assoc u]
    exact hresidue.mul_left' (2 ^ v)
  have hlt : 2 ^ v * t < 2 ^ w := by
    rw [hpow]
    exact Nat.mul_lt_mul_of_pos_left ht (Nat.two_pow_pos v)
  exact ⟨j, hj, Nat.ModEq.eq_of_lt_of_lt hscaled (orbit_lt a c w _) hlt⟩

end Orbit

end InterferenceMitigation.DyadicOrbit
