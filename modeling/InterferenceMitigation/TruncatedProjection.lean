import Mathlib.Algebra.Order.Floor.Div
import Mathlib.Tactic.Ring

/-!
A linear projection computed with two truncating divisions. After `used` of
`total` units of work have taken the time `spent`, the mean cost of a unit is
rounded down at the resolution `scale`, multiplied by the remaining work, and
scaled back. The first division drops up to one part in `scale` of a time unit
for every remaining unit of work, so its error grows with the remaining work.
-/

namespace InterferenceMitigation.TruncatedProjection

/-- `spent` plus the truncated cost of the remaining `total - used` units. -/
def estimate (spent used total scale : ℕ) : ℕ :=
  spent + spent * scale / used * (total - used) / scale

/-- The least whole mean cost, in parts of `scale`, for which the remaining work
carries the estimate past `limit`. -/
def costNeeded (spent used total scale limit : ℕ) : ℕ :=
  (scale * (limit + 1 - spent)) ⌈/⌉ (total - used)

@[simp] theorem estimate_self (spent used scale : ℕ) : estimate spent used used scale = spent := by
  simp [estimate]

/-- More time spent or less work done never lowers the estimate. -/
theorem estimate_mono {spent spent' used used' total scale : ℕ} (hspent : spent ≤ spent')
    (hused : used' ≤ used) (hpos : 0 < used') :
    estimate spent used total scale ≤ estimate spent' used' total scale := by
  have hcost : spent * scale / used ≤ spent' * scale / used' :=
    Nat.div_le_div (Nat.mul_le_mul_right scale hspent) hused (by omega)
  have hrest : total - used ≤ total - used' := by omega
  have hprod := Nat.div_le_div_right (c := scale) (Nat.mul_le_mul hcost hrest)
  unfold estimate
  omega

/-- Both divisions round down, so the estimate never exceeds the exact projection. -/
theorem estimate_mul_le (spent scale : ℕ) {used total : ℕ} (hle : used ≤ total) :
    estimate spent used total scale * used ≤ spent * total := by
  obtain ⟨rest, rfl⟩ := Nat.exists_eq_add_of_le hle
  have hrest : used + rest - used = rest := by omega
  have hback : spent * scale / used * rest / scale * used ≤ spent * rest := by
    rcases Nat.eq_zero_or_pos scale with rfl | hscale
    · simp
    have hmean := Nat.div_mul_le_self (spent * scale) used
    have hscaled := Nat.div_mul_le_self (spent * scale / used * rest) scale
    apply Nat.le_of_mul_le_mul_right _ hscale
    calc spent * scale / used * rest / scale * used * scale
        = spent * scale / used * rest / scale * scale * used := by ring
      _ ≤ spent * scale / used * rest * used := Nat.mul_le_mul_right used hscaled
      _ = spent * scale / used * used * rest := by ring
      _ ≤ spent * scale * rest := Nat.mul_le_mul_right rest hmean
      _ = spent * rest * scale := by ring
  unfold estimate
  rw [hrest, Nat.add_mul, Nat.mul_add]
  omega

/-- What the two divisions drop: less than one part in `scale` for every remaining unit
of work, and less than one unit of time. -/
theorem mul_lt_estimate (spent : ℕ) {used total scale : ℕ} (hused : 0 < used)
    (hscale : 0 < scale) (hle : used ≤ total) :
    spent * total * scale <
      (estimate spent used total scale + 1) * used * scale + (total - used) * used := by
  obtain ⟨rest, rfl⟩ := Nat.exists_eq_add_of_le hle
  have hrest : used + rest - used = rest := by omega
  have hmean : spent * scale ≤ (spent * scale / used + 1) * used := by
    have hlt := Nat.lt_div_mul_add hused (a := spent * scale)
    rw [Nat.add_mul]
    omega
  have hscaled : spent * scale / used * rest <
      (spent * scale / used * rest / scale + 1) * scale := by
    have hlt := Nat.lt_div_mul_add hscale (a := spent * scale / used * rest)
    rw [Nat.add_mul]
    omega
  unfold estimate
  rw [hrest]
  calc spent * (used + rest) * scale
      = spent * used * scale + spent * scale * rest := by ring
    _ ≤ spent * used * scale + (spent * scale / used + 1) * used * rest :=
        Nat.add_le_add_left (Nat.mul_le_mul_right rest hmean) _
    _ = spent * used * scale + spent * scale / used * rest * used + rest * used := by ring
    _ < spent * used * scale + (spent * scale / used * rest / scale + 1) * scale * used +
          rest * used := by
        have hlt := Nat.mul_lt_mul_of_pos_right hscaled hused
        omega
    _ = (spent + spent * scale / used * rest / scale + 1) * used * scale + rest * used := by ring

/-- An estimate within `limit` leaves the work at most this late against an even use of
`limit`: the dropped part is worst when half of the work is done. -/
theorem spent_le_of_estimate_le {spent used total scale limit : ℕ} (hused : 0 < used)
    (hscale : 0 < scale) (hle : used ≤ total) (h : estimate spent used total scale ≤ limit) :
    spent * total ≤ limit * used + (total + total * total / (4 * scale)) := by
  obtain ⟨rest, rfl⟩ := Nat.exists_eq_add_of_le hle
  have hrest : used + rest - used = rest := by omega
  have hlt := mul_lt_estimate spent hused hscale hle
  rw [hrest] at hlt
  have hmono : (estimate spent used (used + rest) scale + 1) * used * scale ≤
      (limit + 1) * used * scale :=
    Nat.mul_le_mul_right scale (Nat.mul_le_mul_right used (Nat.succ_le_succ h))
  have hsquare : 4 * (rest * used) ≤ (used + rest) * (used + rest) := by
    rcases Nat.le_total used rest with hcase | hcase
    · obtain ⟨d, rfl⟩ := Nat.exists_eq_add_of_le hcase
      calc 4 * ((used + d) * used) ≤ 4 * ((used + d) * used) + d * d := Nat.le_add_right _ _
        _ = (used + (used + d)) * (used + (used + d)) := by ring
    · obtain ⟨d, rfl⟩ := Nat.exists_eq_add_of_le hcase
      calc 4 * (rest * (rest + d)) ≤ 4 * (rest * (rest + d)) + d * d := Nat.le_add_right _ _
        _ = (rest + d + rest) * (rest + d + rest) := by ring
  have hdrop : spent * (used + rest) - (limit + 1) * used ≤
      (used + rest) * (used + rest) / (4 * scale) := by
    rw [Nat.le_div_iff_mul_le (by omega), Nat.sub_mul]
    have hscaled : spent * (used + rest) * (4 * scale) ≤
        (limit + 1) * used * (4 * scale) + (used + rest) * (used + rest) := by
      calc spent * (used + rest) * (4 * scale)
          = 4 * (spent * (used + rest) * scale) := by ring
        _ ≤ 4 * ((limit + 1) * used * scale + rest * used) := by omega
        _ = (limit + 1) * used * (4 * scale) + 4 * (rest * used) := by ring
        _ ≤ (limit + 1) * used * (4 * scale) + (used + rest) * (used + rest) := by omega
    omega
  have hsplit : (limit + 1) * used = limit * used + used := by ring
  omega

theorem lt_of_lt_spent {spent used total scale limit : ℕ} (h : limit < spent) :
    limit < estimate spent used total scale :=
  Nat.lt_of_lt_of_le h (Nat.le_add_right _ _)

/-- Before `limit` has passed, the estimate exceeds it exactly when the truncated
mean cost reaches the cost needed, which is a condition on the time spent. -/
theorem lt_estimate_iff_of_le {spent used total scale limit : ℕ}
    (hused : 0 < used) (hscale : 0 < scale) (hle : spent ≤ limit) :
    limit < estimate spent used total scale ↔
      used < total ∧ costNeeded spent used total scale limit * used ≤ spent * scale := by
  have hgap : 0 < limit + 1 - spent := by omega
  have hover : limit < estimate spent used total scale ↔
      scale * (limit + 1 - spent) ≤ (total - used) * (spent * scale / used) := by
    rw [Nat.mul_comm scale, Nat.mul_comm (total - used), ← Nat.le_div_iff_mul_le hscale]
    unfold estimate
    omega
  rcases Nat.lt_or_ge used total with hlt | hge
  · have hrest : 0 < total - used := by omega
    rw [hover, ← ceilDiv_le_iff_le_mul hrest, Nat.le_div_iff_mul_le hused]
    simp [costNeeded, hlt]
  · have hrest : total - used = 0 := by omega
    have hpos : 0 < scale * (limit + 1 - spent) := Nat.mul_pos hscale hgap
    rw [hover, hrest, Nat.zero_mul]
    constructor
    · intro h
      omega
    · intro h
      omega

theorem lt_estimate_iff {spent used total scale limit : ℕ}
    (hused : 0 < used) (hscale : 0 < scale) :
    limit < estimate spent used total scale ↔
      limit < spent ∨
        (used < total ∧ costNeeded spent used total scale limit * used ≤ spent * scale) := by
  rcases Nat.lt_or_ge limit spent with hlt | hge
  · simp [lt_of_lt_spent hlt, hlt]
  · rw [lt_estimate_iff_of_le hused hscale hge]
    simp [Nat.not_lt.mpr hge]

end InterferenceMitigation.TruncatedProjection
