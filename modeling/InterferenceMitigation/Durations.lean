import InterferenceMitigation.MachineInt
import Mathlib.Tactic.NormNum

/-!
Durations with nanosecond resolution whose whole seconds fit in 64 bits. Their sum
panics when it leaves that range; the difference of two clock instants is zero when
the later one is asked for first.
-/

namespace InterferenceMitigation.Durations

open MachineInt

/-- The first number of nanoseconds that is no longer a duration. -/
def bound : ℕ := 2 ^ 64 * 10 ^ 9

structure Duration where
  nanos : ℕ
  lt_bound : nanos < bound
  deriving DecidableEq, Repr

/-- An instant, as the duration since the clock started. -/
abbrev Instant := Duration

namespace Duration

def ofNanos (n : ℕ) (h : n < bound := by decide) : Duration := ⟨n, h⟩

def zero : Duration := ⟨0, by decide⟩

/-- `as_nanos`, a 128-bit integer. -/
def asNanos (d : Duration) : U128 := BitVec.ofNat 128 d.nanos

def add (a b : Duration) : Except Panic Duration :=
  if h : a.nanos + b.nanos < bound then .ok ⟨a.nanos + b.nanos, h⟩
  else .error (.message "overflow when adding durations")

/-- The difference of two instants, saturating at zero. -/
def since (later earlier : Instant) : Duration :=
  ⟨later.nanos - earlier.nanos, Nat.lt_of_le_of_lt (Nat.sub_le _ _) later.lt_bound⟩

theorem add_eq_ok {a b : Duration} (h : a.nanos + b.nanos < bound) :
    a.add b = .ok ⟨a.nanos + b.nanos, h⟩ := dif_pos h

theorem add_eq_error {a b : Duration} (h : ¬ a.nanos + b.nanos < bound) :
    a.add b = .error (.message "overflow when adding durations") := dif_neg h

theorem nanos_of_add {a b c : Duration} (h : a.add b = .ok c) : c.nanos = a.nanos + b.nanos := by
  unfold add at h
  split at h
  · obtain rfl := Except.ok.inj h
    rfl
  · simp at h

theorem toNat_asNanos (d : Duration) : d.asNanos.toNat = d.nanos := by
  have hbound : bound < 2 ^ 128 := by decide
  rw [asNanos, BitVec.toNat_ofNat, Nat.mod_eq_of_lt (d.lt_bound.trans hbound)]

end Duration

end InterferenceMitigation.Durations
