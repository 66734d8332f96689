import Mathlib.Algebra.Order.Ring.Abs
import Mathlib.Data.Rat.Cast.Order
import Mathlib.Tactic.Linarith
import Mathlib.Tactic.Ring

/-!
Time read off a tick counter by dividing it by a whole number of ticks per unit. The
counter runs at `freq` ticks every `unit` units of time, and the divisor is the truncated
quotient `freq / unit`. The remainder `freq % unit` is what the reading gains over time.
-/

namespace InterferenceMitigation.TickDivision

variable {freq unit : ℕ}

/-- Whether an interval of `d` ticks from `a` completes one more division than `d / k`. -/
def carry (k a d : ℕ) : ℕ := if k ≤ a % k + d % k then 1 else 0

theorem div_add_sub_div {k : ℕ} (hk : 0 < k) (a d : ℕ) :
    (a + d) / k - a / k = d / k + carry k a d := by
  rw [Nat.add_div hk, Nat.add_assoc, Nat.add_sub_cancel_left, carry]

/-- What the remainder gains in an interval of `d` ticks from `a` stays within one unit. -/
def WithinUnit (freq unit a d : ℕ) : Prop :=
  freq % unit * (d / (freq / unit)) + carry (freq / unit) a d * freq ≤
    unit * (d % (freq / unit)) + freq

theorem split_freq (freq unit q : ℕ) :
    q * freq = q * (freq / unit) * unit + freq % unit * q := by
  have hsplit := Nat.div_add_mod freq unit
  calc q * freq = q * (unit * (freq / unit) + freq % unit) := by rw [hsplit]
    _ = q * (freq / unit) * unit + freq % unit * q := by ring

theorem split_ticks (freq unit d : ℕ) :
    d * unit = d / (freq / unit) * (freq / unit) * unit + unit * (d % (freq / unit)) := by
  have hsplit := Nat.div_add_mod d (freq / unit)
  calc d * unit = (freq / unit * (d / (freq / unit)) + d % (freq / unit)) * unit := by rw [hsplit]
    _ = d / (freq / unit) * (freq / unit) * unit + unit * (d % (freq / unit)) := by ring

/-- A reading is never a whole unit behind. -/
theorem ticks_le (hunit : 0 < unit) (hle : unit ≤ freq) (d c : ℕ) :
    d * unit ≤ (d / (freq / unit) + c + 1) * freq := by
  have hk : 0 < freq / unit := Nat.div_pos hle hunit
  have hrest : d % (freq / unit) < freq / unit := Nat.mod_lt _ hk
  have hunits : unit * (freq / unit) ≤ freq := Nat.mul_div_le freq unit
  have hpart : unit * (d % (freq / unit)) ≤ freq :=
    (Nat.mul_le_mul_left unit (Nat.le_of_lt hrest)).trans hunits
  have hticks := split_ticks freq unit d
  have hwhole := split_freq freq unit (d / (freq / unit))
  have hexpand : (d / (freq / unit) + c + 1) * freq =
      d / (freq / unit) * freq + c * freq + freq := by ring
  omega

/-- It is a whole unit ahead, or less, exactly when the gain stays within one. -/
theorem reading_le_iff (a d : ℕ) :
    (d / (freq / unit) + carry (freq / unit) a d) * freq ≤ d * unit + freq ↔
      WithinUnit freq unit a d := by
  have hticks := split_ticks freq unit d
  have hwhole := split_freq freq unit (d / (freq / unit))
  have hexpand : (d / (freq / unit) + carry (freq / unit) a d) * freq =
      d / (freq / unit) * freq + carry (freq / unit) a d * freq := by ring
  unfold WithinUnit
  omega

/-- The reading of an interval differs from its length by at most one unit exactly when the
gain stays within one. -/
theorem abs_reading_sub_le_iff (hunit : 0 < unit) (hle : unit ≤ freq) (a d : ℕ) :
    |(((a + d) / (freq / unit) - a / (freq / unit) : ℕ) : ℚ) - (d : ℚ) * unit / freq| ≤ 1 ↔
      WithinUnit freq unit a d := by
  have hfreq : (0 : ℚ) < freq := by exact_mod_cast Nat.lt_of_lt_of_le hunit hle
  rw [div_add_sub_div (Nat.div_pos hle hunit), ← reading_le_iff a d]
  generalize hreading : d / (freq / unit) + carry (freq / unit) a d = n
  have hbehind : (d : ℚ) * unit / freq ≤ n + 1 := by
    have hnat := ticks_le hunit hle d (carry (freq / unit) a d)
    rw [hreading] at hnat
    rw [div_le_iff₀ hfreq]
    exact_mod_cast hnat
  have hahead : (n : ℚ) - (d : ℚ) * unit / freq ≤ 1 ↔ n * freq ≤ d * unit + freq := by
    rw [sub_le_iff_le_add, ← sub_le_iff_le_add', le_div_iff₀ hfreq, sub_mul, one_mul,
      sub_le_iff_le_add]
    exact_mod_cast Iff.rfl
  rw [abs_le, hahead]
  constructor
  · intro h
    exact h.2
  · intro h
    exact ⟨by linarith, h⟩

/-- A whole number of ticks per unit gains nothing. -/
theorem withinUnit_of_dvd (hunit : 0 < unit) (hle : unit ≤ freq) (hdvd : unit ∣ freq) (a d : ℕ) :
    WithinUnit freq unit a d := by
  have hk : 0 < freq / unit := Nat.div_pos hle hunit
  have hexact : unit * (freq / unit) = freq := Nat.mul_div_cancel' hdvd
  have hrem : freq % unit = 0 := Nat.mod_eq_zero_of_dvd hdvd
  unfold WithinUnit carry
  rw [hrem, Nat.zero_mul, Nat.zero_add]
  split
  · omega
  · omega

/-- Any other frequency gains more than a unit, in `freq + 1` divisions at the latest. -/
theorem not_withinUnit (hunit : 0 < unit) (hle : unit ≤ freq) (hdvd : ¬ unit ∣ freq) :
    ¬ WithinUnit freq unit 0 (freq / unit * (freq + 1)) := by
  have hk : 0 < freq / unit := Nat.div_pos hle hunit
  have hrem : 1 ≤ freq % unit := Nat.pos_of_ne_zero fun h => hdvd (Nat.dvd_of_mod_eq_zero h)
  have hgain : freq + 1 ≤ freq % unit * (freq + 1) := Nat.le_mul_of_pos_left _ hrem
  have hcarry : carry (freq / unit) 0 (freq / unit * (freq + 1)) = 0 := by
    simp [carry, hk.ne']
  unfold WithinUnit
  rw [hcarry, Nat.mul_div_cancel_left _ hk, Nat.mul_mod_right]
  omega

/-- The truncated number of ticks for `n` units covers them only when nothing is truncated. -/
theorem mul_le_truncated_iff (n : ℕ) :
    n * freq ≤ n * (freq / unit) * unit ↔ n = 0 ∨ unit ∣ freq := by
  have hsplit := split_freq freq unit n
  have hzero : n * freq ≤ n * (freq / unit) * unit ↔ freq % unit * n = 0 := by omega
  rw [hzero, Nat.mul_eq_zero, Nat.dvd_iff_mod_eq_zero, or_comm]

/-! Several intervals that follow one another, each read for itself. -/

/-- The counter values at which the intervals begin and end, in this order. -/
def endpoints (intervals : List (ℕ × ℕ)) : List ℕ := intervals.flatMap fun x => [x.1, x.2]

/-- The ticks within the intervals. -/
def ticks (intervals : List (ℕ × ℕ)) : ℕ := (intervals.map fun x => x.2 - x.1).sum

/-- The units within the intervals, from the readings at their two ends. -/
def units (k : ℕ) (intervals : List (ℕ × ℕ)) : ℕ := (intervals.map fun x => x.2 / k - x.1 / k).sum

/-- A reading is behind by less than a unit. -/
theorem ticks_le_of_reading {k : ℕ} (hk : 0 < k) (a b : ℕ) :
    b - a ≤ k * (b / k - a / k) + (k - 1) := by
  have hb := Nat.div_add_mod b k
  have hrest := Nat.mod_lt b hk
  have ha := Nat.mul_div_le a k
  rw [Nat.mul_sub]
  omega

theorem ticks_le_units {k : ℕ} (hk : 0 < k) (intervals : List (ℕ × ℕ)) :
    ticks intervals ≤ k * units k intervals + intervals.length * (k - 1) := by
  induction intervals with
  | nil => simp [ticks]
  | cons x intervals ih =>
    have hone := ticks_le_of_reading hk x.1 x.2
    simp only [ticks, units, List.map_cons, List.sum_cons, List.length_cons, Nat.mul_add,
      Nat.add_mul, Nat.one_mul] at ih ⊢
    omega

/-- The readings of all intervals fit between the first of them and the last. -/
theorem units_le (k t : ℕ) (intervals : List (ℕ × ℕ))
    (h : (t :: endpoints intervals).Pairwise (· ≤ ·)) :
    t / k + units k intervals ≤ (intervals.getLast?.elim t Prod.snd) / k := by
  induction intervals generalizing t with
  | nil => simp [units]
  | cons x intervals ih =>
    obtain ⟨a, b⟩ := x
    have hflat : endpoints ((a, b) :: intervals) = a :: b :: endpoints intervals := rfl
    rw [hflat, List.pairwise_cons, List.pairwise_cons] at h
    obtain ⟨hfirst, hsecond, hrest⟩ := h
    have hta : t / k ≤ a / k := Nat.div_le_div_right (hfirst a (by simp))
    have hab : a / k ≤ b / k := Nat.div_le_div_right (hsecond b (by simp))
    have hlast : ((a, b) :: intervals).getLast?.elim t Prod.snd =
        intervals.getLast?.elim b Prod.snd := by
      cases intervals with
      | nil => rfl
      | cons y ys => rw [List.getLast?_cons_cons]; simp [List.getLast?_cons]
    have htail := ih b hrest
    rw [hlast]
    simp only [units, List.map_cons, List.sum_cons] at htail ⊢
    omega

/-- In ticks they exceed the whole span by less than a unit. -/
theorem units_mul_le {k : ℕ} (hk : 0 < k) {first last : ℕ × ℕ} {intervals : List (ℕ × ℕ)}
    (hfirst : intervals.head? = some first) (hlast : intervals.getLast? = some last)
    (h : (endpoints intervals).Pairwise (· ≤ ·)) :
    k * units k intervals ≤ last.2 - first.1 + (k - 1) := by
  have hfrom : (first.1 :: endpoints intervals).Pairwise (· ≤ ·) := by
    cases intervals with
    | nil => simp at hfirst
    | cons x intervals =>
      obtain rfl := Option.some.inj hfirst
      have hflat : endpoints (x :: intervals) = x.1 :: x.2 :: endpoints intervals := rfl
      rw [hflat] at h ⊢
      refine List.pairwise_cons.mpr ⟨?_, h⟩
      intro t ht
      rcases List.mem_cons.mp ht with rfl | ht
      · exact le_rfl
      · exact (List.pairwise_cons.mp h).1 t ht
  have hunits := units_le k first.1 intervals hfrom
  rw [hlast, Option.elim_some] at hunits
  have hbound := Nat.mul_le_mul_left k hunits
  have hstart := Nat.div_add_mod first.1 k
  have hrest := Nat.mod_lt first.1 hk
  have hend := Nat.mul_div_le last.2 k
  rw [Nat.mul_add] at hbound
  omega

end InterferenceMitigation.TickDivision
