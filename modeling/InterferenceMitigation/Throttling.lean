import Mathlib.Algebra.BigOperators.Group.List.Basic
import Mathlib.Algebra.Order.Monoid.Defs
import Mathlib.Algebra.Order.Monoid.Unbundled.Pow
import Mathlib.Data.List.DropRight

/-!
A two-mode controller of work that is done in strides. Every stride changes how late the
work is. The controller looks at the history between strides: while it is released the work
is late by at most `slack`, and a stride may lose up to `burst`; once it has throttled for
long enough a stride loses nothing. However the strides go, the work is then never later
than the slack and one burst for every stride that can pass before throttling takes effect.
-/

namespace InterferenceMitigation.Throttling

variable {α E : Type*} [AddCommMonoid α]

/-- The lateness after a history, `loss` being what each stride adds to it. -/
def lateness (loss : E → α) (hist : List E) : α := (hist.map loss).sum

@[simp] theorem lateness_nil (loss : E → α) : lateness loss [] = 0 := rfl

@[simp] theorem lateness_concat (loss : E → α) (hist : List E) (e : E) :
    lateness loss (hist ++ [e]) = lateness loss hist + loss e := by
  simp [lateness]

/-- The controller throttles after `hist` and did so after the `delay` histories before it. -/
def Settled (throttled : List E → Prop) (delay : ℕ) (hist : List E) : Prop :=
  delay ≤ hist.length ∧ ∀ n ≤ delay, throttled (hist.rdrop n)

variable [PartialOrder α]

/-- A history in which both the controller and the work kept to their parts. -/
inductive Regulated (loss : E → α) (throttled : List E → Prop) (slack burst : α) (delay : ℕ) :
    List E → Prop
  | nil : Regulated loss throttled slack burst delay []
  | concat {hist : List E} {e : E} :
      Regulated loss throttled slack burst delay hist → loss e ≤ burst →
      (Settled throttled delay hist → loss e ≤ 0) →
      (¬ throttled (hist ++ [e]) → lateness loss (hist ++ [e]) ≤ slack) →
      Regulated loss throttled slack burst delay (hist ++ [e])

variable {loss : E → α} {throttled : List E → Prop} {slack burst : α} {delay : ℕ}
variable {hist : List E} {e : E} [IsOrderedAddMonoid α]

/-- The lateness was at most the slack `k` strides ago, and throttling is on since. -/
theorem Regulated.exists_burst (h : Regulated loss throttled slack burst delay hist)
    (hslack : 0 ≤ slack) :
    ∃ k ≤ delay + 1, k ≤ hist.length ∧ (∀ n < k, throttled (hist.rdrop n)) ∧
      lateness loss hist ≤ slack + k • burst := by
  induction h with
  | nil => exact ⟨0, Nat.zero_le _, Nat.zero_le _, fun n hn => absurd hn (by omega), by simpa⟩
  | @concat hist e _ hburst hsettled hreleased ih =>
    obtain ⟨k, hk, hlen, hon, hlate⟩ := ih
    by_cases hnow : throttled (hist ++ [e])
    · -- the strides that throttling has lasted, with the one just done
      have hlast : ∀ n < k + 1, throttled ((hist ++ [e]).rdrop n) := by
        intro n hn
        cases n with
        | zero => simpa using hnow
        | succ n => simpa using hon n (by omega)
      rcases Nat.lt_or_ge delay k with hfull | hroom
      · have hquiet : loss e ≤ 0 := hsettled ⟨by omega, fun n hn => hon n (by omega)⟩
        refine ⟨k, hk, by simp; omega, fun n hn => hlast n (by omega), ?_⟩
        calc lateness loss (hist ++ [e]) = lateness loss hist + loss e := lateness_concat ..
          _ ≤ slack + k • burst + 0 := add_le_add hlate hquiet
          _ = slack + k • burst := add_zero _
      · refine ⟨k + 1, by omega, by simp; omega, hlast, ?_⟩
        calc lateness loss (hist ++ [e]) = lateness loss hist + loss e := lateness_concat ..
          _ ≤ slack + k • burst + burst := add_le_add hlate hburst
          _ = slack + (k + 1) • burst := by rw [succ_nsmul, add_assoc]
    · exact ⟨0, Nat.zero_le _, Nat.zero_le _, fun n hn => absurd hn (by omega),
        by simpa using hreleased hnow⟩

/-- The loss `x` of a next stride is covered too, before the controller has decided on it. -/
theorem Regulated.add_le (h : Regulated loss throttled slack burst delay hist)
    (hslack : 0 ≤ slack) (hpos : 0 ≤ burst) {x : α} (hburst : x ≤ burst)
    (hsettled : Settled throttled delay hist → x ≤ 0) :
    lateness loss hist + x ≤ slack + (delay + 1) • burst := by
  obtain ⟨k, hk, hlen, hon, hlate⟩ := h.exists_burst hslack
  rcases Nat.lt_or_ge delay k with hfull | hroom
  · have hquiet : x ≤ 0 := hsettled ⟨by omega, fun n hn => hon n (by omega)⟩
    calc lateness loss hist + x ≤ slack + k • burst + 0 := add_le_add hlate hquiet
      _ = slack + k • burst := add_zero _
      _ ≤ slack + (delay + 1) • burst := add_le_add le_rfl (nsmul_le_nsmul_left hpos hk)
  · calc lateness loss hist + x ≤ slack + k • burst + burst := add_le_add hlate hburst
      _ = slack + (k + 1) • burst := by rw [succ_nsmul, add_assoc]
      _ ≤ slack + (delay + 1) • burst := add_le_add le_rfl (nsmul_le_nsmul_left hpos (by omega))

end InterferenceMitigation.Throttling
