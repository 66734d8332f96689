import Mathlib.Order.Bounds.Basic
import Mathlib.Order.CompletePartialOrder
import Mathlib.Order.Interval.Set.Disjoint
import Mathlib.Tactic.Common
import Mathlib.Algebra.Order.Group.Nat

/-!
Regions carved one after the other out of a stretch of addresses, and the alignment of
an address. Each region starts where the ones before it have ended or later, so any two
of them are disjoint whatever their sizes and the gaps between them are.
-/

namespace InterferenceMitigation.Regions

section LaidOut

variable {α : Type*} [LinearOrder α]

/-- The regions lie between `lo` and `cursor`, each one after all that precede it. A region
is given by its first address and the address after its last. -/
structure LaidOut (lo cursor : α) (regions : List (α × α)) : Prop where
  bounded : lo ≤ cursor
  within : ∀ r ∈ regions, lo ≤ r.1 ∧ r.1 ≤ r.2 ∧ r.2 ≤ cursor
  ordered : regions.Pairwise fun r s => r.2 ≤ s.1

theorem LaidOut.nil (lo : α) : LaidOut lo lo [] :=
  ⟨le_rfl, by simp, .nil⟩

/-- Carving a region at the cursor or above it moves the cursor to its end. -/
theorem LaidOut.concat {lo cursor : α} {regions : List (α × α)} (h : LaidOut lo cursor regions)
    {first next : α} (hfirst : cursor ≤ first) (hnext : first ≤ next) :
    LaidOut lo next (regions ++ [(first, next)]) := by
  have hcursor : cursor ≤ next := hfirst.trans hnext
  refine ⟨h.bounded.trans hcursor, ?_, ?_⟩
  · intro r hr
    rcases List.mem_append.mp hr with hold | hnew
    · obtain ⟨hlo, hle, hhi⟩ := h.within r hold
      exact ⟨hlo, hle, hhi.trans hcursor⟩
    · obtain rfl := List.mem_singleton.mp hnew
      exact ⟨h.bounded.trans hfirst, hnext, le_rfl⟩
  · rw [List.pairwise_append]
    refine ⟨h.ordered, List.pairwise_singleton _ _, ?_⟩
    intro r hr s hs
    obtain rfl := List.mem_singleton.mp hs
    exact (h.within r hr).2.2.trans hfirst

theorem LaidOut.disjoint {lo cursor : α} {regions : List (α × α)}
    (h : LaidOut lo cursor regions) :
    regions.Pairwise fun r s => Disjoint (Set.Ico r.1 r.2) (Set.Ico s.1 s.2) := by
  apply h.ordered.imp
  intro r s hle
  rw [Set.Ico_disjoint_Ico]
  exact (min_le_left _ _).trans (hle.trans (le_max_right _ _))

end LaidOut

/-- The distance from an address to the next multiple of `align`. -/
def padding (align addr : ℕ) : ℕ := (align - addr % align) % align

/-- The least multiple of `align` that is not below an address. -/
def alignUp (align addr : ℕ) : ℕ := addr + padding align addr

theorem le_alignUp (align addr : ℕ) : addr ≤ alignUp align addr := Nat.le_add_right _ _

theorem dvd_alignUp {align : ℕ} (hpos : 0 < align) (addr : ℕ) : align ∣ alignUp align addr := by
  have hlt : addr % align < align := Nat.mod_lt _ hpos
  have hdiv := Nat.div_add_mod addr align
  rcases Nat.eq_zero_or_pos (addr % align) with hzero | hmod
  · rw [alignUp, padding, hzero, Nat.sub_zero, Nat.mod_self, Nat.add_zero]
    exact Nat.dvd_of_mod_eq_zero hzero
  · have hpad : padding align addr = align - addr % align := by
      apply Nat.mod_eq_of_lt
      omega
    refine ⟨addr / align + 1, ?_⟩
    rw [alignUp, hpad, Nat.mul_add, Nat.mul_one]
    omega

theorem alignUp_lt {align : ℕ} (hpos : 0 < align) (addr : ℕ) :
    alignUp align addr < addr + align := by
  have hlt := Nat.mod_lt (align - addr % align) hpos
  unfold alignUp padding
  omega

theorem alignUp_le {align addr p : ℕ} (hpos : 0 < align) (hle : addr ≤ p) (hdvd : align ∣ p) :
    alignUp align addr ≤ p := by
  obtain ⟨k, hk⟩ := dvd_alignUp hpos addr
  obtain ⟨l, rfl⟩ := hdvd
  have hlt := alignUp_lt hpos addr
  rw [hk] at hlt ⊢
  apply Nat.mul_le_mul_left
  by_contra hover
  have hstep : align * (l + 1) ≤ align * k := Nat.mul_le_mul_left align (by omega)
  rw [Nat.mul_add, Nat.mul_one] at hstep
  omega

theorem isLeast_alignUp {align : ℕ} (hpos : 0 < align) (addr : ℕ) :
    IsLeast {p | addr ≤ p ∧ align ∣ p} (alignUp align addr) :=
  ⟨⟨le_alignUp align addr, dvd_alignUp hpos addr⟩, fun _ hp => alignUp_le hpos hp.1 hp.2⟩

end InterferenceMitigation.Regions
