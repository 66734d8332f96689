import Mathlib.Data.List.Basic
import Mathlib.Tactic.Common

/-!
Programs that may change a state and may fail, read off by their result, and counting
loops `for i in 0..n` with such a program as their body. Where the state before each
iteration is known, so is the state after the loop.
-/

namespace InterferenceMitigation.RangeLoop

universe u

variable {ε σ : Type u}

@[simp] theorem run_pure {α : Type u} (x : α) (s : σ) :
    (pure x : EStateM ε σ α) s = .ok x s := rfl

theorem run_bind {α β : Type u} {x : EStateM ε σ α} {f : α → EStateM ε σ β} {s s' : σ} {a : α}
    (hx : x s = .ok a s') : (x >>= f) s = f a s' := by
  change EStateM.bind x f s = _
  rw [EStateM.bind, hx]

/-- `state i` is the state before iteration `i`. -/
theorem forM_range {body : ℕ → EStateM ε σ PUnit} (state : ℕ → σ) (n : ℕ)
    (hbody : ∀ i, i < n → body i (state i) = .ok ⟨⟩ (state (i + 1))) :
    (List.range n).forM body (state 0) = .ok ⟨⟩ (state n) := by
  induction n with
  | zero => rfl
  | succ n ih =>
    have hinit := ih fun i hi => hbody i (by omega)
    have hlast : [n].forM body (state n) = .ok ⟨⟩ (state (n + 1)) := by
      change (body n >>= fun _ => pure PUnit.unit) (state n) = _
      rw [run_bind (hbody n (by omega)), run_pure]
    rw [List.range_succ]
    change (forM (List.range n ++ [n]) body) (state 0) = _
    rw [List.forM_append]
    exact (run_bind hinit).trans hlast

end InterferenceMitigation.RangeLoop
