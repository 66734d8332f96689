import Mathlib.Tactic.Common

/-!
Finite runs of a labelled transition relation, with the invariant rules used for
interleaving systems. A run keeps its labels in order, so that a statement can
name the actions of a run and not only the states it reaches.
-/

namespace InterferenceMitigation.Transition

variable {S L : Type*}

/-- `Run step s ls t`: performing the labels `ls` in order leads from `s` to `t`. -/
inductive Run (step : S → L → S → Prop) : S → List L → S → Prop
  | nil (s : S) : Run step s [] s
  | cons {s t u : S} {l : L} {ls : List L} :
      step s l t → Run step t ls u → Run step s (l :: ls) u

/-- Some run leads from `s` to `t`. -/
def Reaches (step : S → L → S → Prop) (s t : S) : Prop := ∃ ls, Run step s ls t

variable {step : S → L → S → Prop} {s t u : S}

theorem Run.single {l : L} (h : step s l t) : Run step s [l] t := .cons h (.nil t)

theorem Run.append {ls ls' : List L} (h : Run step s ls t) (h' : Run step t ls' u) :
    Run step s (ls ++ ls') u := by
  induction h with
  | nil => exact h'
  | cons hstep _ ih => exact .cons hstep (ih h')

/-- A run over a concatenation passes through a state between its two parts. -/
theorem Run.of_append {ls ls' : List L} (h : Run step s (ls ++ ls') u) :
    ∃ t, Run step s ls t ∧ Run step t ls' u := by
  induction ls generalizing s with
  | nil => exact ⟨s, .nil s, h⟩
  | cons l ls ih =>
    cases h with
    | cons hstep hrest =>
      obtain ⟨t, ht, hu⟩ := ih hrest
      exact ⟨t, .cons hstep ht, hu⟩

/-- An invariant kept by the steps whose label is admitted holds along every run
made of admitted labels. -/
theorem Run.invariant_of_labels {P : S → Prop} {A : L → Prop} {ls : List L}
    (hkeep : ∀ s l t, A l → P s → step s l t → P t)
    (h : Run step s ls t) (hls : ∀ l ∈ ls, A l) (hs : P s) : P t := by
  induction h with
  | nil => exact hs
  | cons hstep _ ih =>
    have hnext := hkeep _ _ _ (hls _ (List.mem_cons_self ..)) hs hstep
    exact ih (fun l hl => hls l (List.mem_cons_of_mem _ hl)) hnext

theorem Run.invariant {P : S → Prop} {ls : List L}
    (hkeep : ∀ s l t, P s → step s l t → P t)
    (h : Run step s ls t) (hs : P s) : P t :=
  h.invariant_of_labels (A := fun _ => True)
    (fun s l t _ => hkeep s l t) (fun _ _ => trivial) hs

theorem Reaches.invariant {P : S → Prop} (hkeep : ∀ s l t, P s → step s l t → P t)
    (h : Reaches step s t) (hs : P s) : P t := by
  obtain ⟨ls, hrun⟩ := h
  exact hrun.invariant hkeep hs

/-- Some run of admitted labels leads to a state with `Q`. -/
def CanReach (step : S → L → S → Prop) (A : L → Prop) (Q : S → Prop) (s : S) : Prop :=
  ∃ ls t, Run step s ls t ∧ (∀ l ∈ ls, A l) ∧ Q t

theorem CanReach.here {A : L → Prop} {Q : S → Prop} (h : Q s) : CanReach step A Q s :=
  ⟨[], s, .nil s, by simp, h⟩

end InterferenceMitigation.Transition
