import Mathlib.Data.BitVec
import Mathlib.Data.Nat.Notation
import Mathlib.Tactic.Common

/-!
Unsigned machine integers as bit vectors, under the two treatments a build can
give to an arithmetic overflow. A checked build stops at the first operation
whose mathematical result does not fit its type; a wrapping build keeps the low
bits and goes on. Division by zero stops both. Every operation returns its value
or the panic that ended the evaluation.
-/

namespace InterferenceMitigation.MachineInt

universe u v

abbrev U8 := BitVec 8
abbrev U16 := BitVec 16
abbrev U32 := BitVec 32
abbrev U64 := BitVec 64
abbrev U128 := BitVec 128

/-- Whether arithmetic overflow is trapped. -/
inductive Profile
  | checked
  | wrapping
  deriving DecidableEq, Repr

/-- The ways an evaluation can abort. -/
inductive Panic
  | addOverflow
  | subOverflow
  | mulOverflow
  | divByZero
  | unwrap
  | message (text : String)
  deriving DecidableEq, Repr

variable {w : ℕ}

/-- The result of an operation that overflowed: `low` holds the kept bits. -/
def overflow (p : Profile) (panic : Panic) (low : BitVec w) : Except Panic (BitVec w) :=
  match p with
  | .checked => .error panic
  | .wrapping => .ok low

def add (p : Profile) (a b : BitVec w) : Except Panic (BitVec w) :=
  if a.toNat + b.toNat < 2 ^ w then .ok (a + b) else overflow p .addOverflow (a + b)

def sub (p : Profile) (a b : BitVec w) : Except Panic (BitVec w) :=
  if b.toNat ≤ a.toNat then .ok (a - b) else overflow p .subOverflow (a - b)

def mul (p : Profile) (a b : BitVec w) : Except Panic (BitVec w) :=
  if a.toNat * b.toNat < 2 ^ w then .ok (a * b) else overflow p .mulOverflow (a * b)

def div (a b : BitVec w) : Except Panic (BitVec w) :=
  if b = 0 then .error .divByZero else .ok (a / b)

/-- An operation on two optional operands: absent as soon as one of them is. -/
def zipWith {α β γ : Type*} (op : α → β → Except Panic γ) :
    Option α → Option β → Except Panic (Option γ)
  | some a, some b => (op a b).map some
  | _, _ => .ok none

/-- A sequence of two evaluations succeeds exactly when both do. -/
theorem bind_eq_ok {ε : Type u} {α β : Type v} (x : Except ε α) (f : α → Except ε β) (b : β) :
    (x >>= f) = .ok b ↔ ∃ a, x = .ok a ∧ f a = .ok b := by
  cases x with
  | error e => simp [bind, Except.bind]
  | ok a => simp [bind, Except.bind]

@[simp] theorem ok_bind {ε : Type u} {α β : Type v} (a : α) (f : α → Except ε β) :
    ((.ok a : Except ε α) >>= f) = f a := rfl

theorem overflow_eq_ok (p : Profile) (panic : Panic) (low c : BitVec w) :
    overflow p panic low = .ok c ↔ p = .wrapping ∧ c = low := by
  cases p <;> simp [overflow, eq_comm]

theorem add_eq_ok (p : Profile) {a b : BitVec w} (h : a.toNat + b.toNat < 2 ^ w) :
    add p a b = .ok (a + b) := if_pos h

theorem sub_eq_ok (p : Profile) {a b : BitVec w} (h : b.toNat ≤ a.toNat) :
    sub p a b = .ok (a - b) := if_pos h

theorem mul_eq_ok (p : Profile) {a b : BitVec w} (h : a.toNat * b.toNat < 2 ^ w) :
    mul p a b = .ok (a * b) := if_pos h

theorem div_eq_ok {a b : BitVec w} (h : b ≠ 0) : div a b = .ok (a / b) := if_neg h

theorem toNat_eq_zero_iff {a : BitVec w} : a.toNat = 0 ↔ a = 0 := by
  rw [BitVec.toNat_eq]
  simp

/-- A sum only fails in a checked build, when it does not fit. -/
theorem add_eq_error {p : Profile} {a b : BitVec w} {e : Panic} (h : add p a b = .error e) :
    p = .checked ∧ e = .addOverflow ∧ 2 ^ w ≤ a.toNat + b.toNat := by
  unfold add at h
  split at h
  · cases h
  · rename_i hover
    cases p with
    | checked => exact ⟨rfl, (Except.error.inj h).symm, Nat.le_of_not_lt hover⟩
    | wrapping => cases h

/-- In either build a successful sum is the sum of the machine integers. -/
theorem eq_add_of_add {p : Profile} {a b c : BitVec w} (h : add p a b = .ok c) : c = a + b := by
  unfold add at h
  split at h
  · exact (Except.ok.inj h).symm
  · exact ((overflow_eq_ok _ _ _ _).mp h).2

theorem eq_sub_of_sub {p : Profile} {a b c : BitVec w} (h : sub p a b = .ok c) : c = a - b := by
  unfold sub at h
  split at h
  · exact (Except.ok.inj h).symm
  · exact ((overflow_eq_ok _ _ _ _).mp h).2

/-- A checked build only succeeds on a sum that fits. -/
theorem add_fits_of_checked {a b c : BitVec w} (h : add .checked a b = .ok c) :
    a.toNat + b.toNat < 2 ^ w := by
  by_contra hover
  simp [add, hover, overflow] at h

theorem sub_fits_of_checked {a b c : BitVec w} (h : sub .checked a b = .ok c) :
    b.toNat ≤ a.toNat := by
  by_contra hover
  simp [sub, hover, overflow] at h

theorem mul_fits_of_checked {a b c : BitVec w} (h : mul .checked a b = .ok c) :
    a.toNat * b.toNat < 2 ^ w ∧ c = a * b := by
  unfold mul at h
  split at h
  · rename_i hfits
    exact ⟨hfits, (Except.ok.inj h).symm⟩
  · cases h

theorem div_inv {a b c : BitVec w} (h : div a b = .ok c) : b ≠ 0 ∧ c = a / b := by
  unfold div at h
  split at h
  · cases h
  · rename_i hne
    exact ⟨hne, (Except.ok.inj h).symm⟩

theorem toNat_of_add_checked {a b c : BitVec w} (h : add .checked a b = .ok c) :
    c.toNat = a.toNat + b.toNat := by
  rw [eq_add_of_add h]
  exact BitVec.toNat_add_of_lt (add_fits_of_checked h)

theorem toNat_of_sub_checked {a b c : BitVec w} (h : sub .checked a b = .ok c) :
    c.toNat = a.toNat - b.toNat := by
  rw [eq_sub_of_sub h]
  exact BitVec.toNat_sub_of_le (BitVec.le_def.mpr (sub_fits_of_checked h))

@[simp] theorem zipWith_some {α β γ : Type*} (op : α → β → Except Panic γ) (a : α) (b : β) :
    zipWith op (some a) (some b) = (op a b).map some := rfl

theorem map_eq_ok {ε α β : Type*} (f : α → β) (x : Except ε α) (b : β) :
    x.map f = .ok b ↔ ∃ a, x = .ok a ∧ f a = b := by
  cases x with
  | error e => simp [Except.map]
  | ok a => simp [Except.map]

/-- Evaluating a list of computations that all succeed. -/
theorem mapM_eq_ok {ε : Type u} {α β : Type v} {f : α → Except ε β} {g : α → β} {xs : List α}
    (h : ∀ x ∈ xs, f x = .ok (g x)) : xs.mapM f = .ok (xs.map g) := by
  induction xs with
  | nil => rfl
  | cons x xs ih =>
    have hx := h x (List.mem_cons_self ..)
    have hxs := ih (fun y hy => h y (List.mem_cons_of_mem _ hy))
    rw [List.mapM_cons, hx, hxs]
    rfl

/-- `c` is the natural number `n` as the build holds it: its low bits, and in a
checked build `n` itself. -/
def Represents (p : Profile) (c : BitVec w) (n : ℕ) : Prop :=
  c = BitVec.ofNat w n ∧ (p = .checked → c.toNat = n)

/-- `c` is the difference of `a` and `b`, which a checked build only has when it exists. -/
def Difference (p : Profile) (a b c : BitVec w) : Prop :=
  c = a - b ∧ (p = .checked → c.toNat + b.toNat = a.toNat)

theorem Represents.zero (p : Profile) : Represents p (0 : BitVec w) 0 :=
  ⟨rfl, fun _ => by simp⟩

theorem Represents.toNat_mod {p : Profile} {c : BitVec w} {n : ℕ} (h : Represents p c n) :
    c.toNat = n % 2 ^ w := by
  rw [h.1, BitVec.toNat_ofNat]

theorem Represents.toNat_of_lt {p : Profile} {c : BitVec w} {n : ℕ} (h : Represents p c n)
    (hlt : n < 2 ^ w) : c.toNat = n := by
  rw [h.toNat_mod, Nat.mod_eq_of_lt hlt]

/-- Successful additions accumulate the represented numbers. -/
theorem Represents.add {p : Profile} {a b c : BitVec w} {n : ℕ} (h : Represents p a n)
    (hadd : add p a b = .ok c) : Represents p c (n + b.toNat) := by
  constructor
  · rw [eq_add_of_add hadd, h.1, BitVec.ofNat_add, BitVec.ofNat_toNat, BitVec.setWidth_eq]
  · rintro rfl
    rw [toNat_of_add_checked hadd, h.2 rfl]

theorem difference_of_sub {p : Profile} {a b c : BitVec w} (h : sub p a b = .ok c) :
    Difference p a b c := by
  refine ⟨eq_sub_of_sub h, ?_⟩
  rintro rfl
  rw [toNat_of_sub_checked h, Nat.sub_add_cancel (sub_fits_of_checked h)]

theorem Difference.toNat_of_le {p : Profile} {a b c : BitVec w} (h : Difference p a b c)
    (hle : b.toNat ≤ a.toNat) : c.toNat = a.toNat - b.toNat := by
  rw [h.1, BitVec.toNat_sub_of_le (BitVec.le_def.mpr hle)]

end InterferenceMitigation.MachineInt
