import Mathlib.Data.List.Chain
import Mathlib.Order.Lattice

/-!
A two-threshold trigger over a linear order: its output goes up at a sample above
`hi`, goes down at a sample below `lo`, and is kept in the band between them. A
comparator with the single threshold `hi` forgets its last output. The two agree on
a list of samples exactly when no sample in the band follows one above `hi`.
-/

namespace InterferenceMitigation.Hysteresis

variable {α : Type*} [LinearOrder α] (lo hi : α)

/-- The output at sample `a` when the last output was `last`. -/
def output (last : Bool) (a : α) : Bool :=
  if hi < a then true else if a < lo then false else last

/-- The outputs over a list of samples, each remembered for the next one. -/
def outputs (last : Bool) : List α → List Bool
  | [] => []
  | a :: rest => output lo hi last a :: outputs (output lo hi last a) rest

theorem output_eq_decide_iff (last : Bool) (a : α) :
    output lo hi last a = decide (hi < a) ↔ (last = true → a < lo ∨ hi < a) := by
  by_cases habove : hi < a
  · simp [output, habove]
  · by_cases hbelow : a < lo
    · simp [output, habove, hbelow]
    · simp [output, habove, hbelow]

theorem outputs_eq_decide_iff_of_last (last : Bool) (samples : List α) :
    outputs lo hi last samples = samples.map (fun a => decide (hi < a)) ↔
      (∀ a ∈ samples.head?, last = true → a < lo ∨ hi < a) ∧
        samples.IsChain (fun a b => hi < a → b < lo ∨ hi < b) := by
  induction samples generalizing last with
  | nil => simp [outputs]
  | cons a rest ih =>
    have hhead := output_eq_decide_iff lo hi last a
    simp only [outputs, List.map_cons, List.cons.injEq, ih, List.isChain_cons, List.head?_cons,
      Option.mem_some_iff, forall_eq']
    constructor
    · rintro ⟨heq, hnext, hchain⟩
      simp only [heq, decide_eq_true_eq] at hnext
      exact ⟨hhead.mp heq, hnext, hchain⟩
    · rintro ⟨hlast, hnext, hchain⟩
      have heq := hhead.mpr hlast
      simp only [heq, decide_eq_true_eq, true_and]
      exact ⟨hnext, hchain⟩

/-- A forgetful comparator behaves as the trigger exactly on the sample lists in which
no sample in the band follows a sample above it. -/
theorem outputs_eq_decide_iff (samples : List α) :
    outputs lo hi false samples = samples.map (fun a => decide (hi < a)) ↔
      samples.IsChain (fun a b => hi < a → b < lo ∨ hi < b) := by
  rw [outputs_eq_decide_iff_of_last]
  simp

end InterferenceMitigation.Hysteresis
