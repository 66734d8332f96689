import InterferenceMitigation.FuelBudget
import InterferenceMitigation.Grouping
import InterferenceMitigation.TraceReader

/-!
The run times of the analysis. It reads the records from a trace, drops those of run 0,
groups the others by their run and takes the greatest accumulated time of each group. For
the records of the control loop this is the time every run has really taken: the table has
one row for each later run, the one in progress included, and the row is the sum of the
stretches of that run, as long as the clock does not go back.
-/

namespace InterferenceMitigation.RunTable

open MachineInt DeadlineGuard ControlLoop LoopHistory FuelBudget CompactJson Telemetry
open TraceReader Grouping

def member (name : String) : Fields → Option Json
  | .nil => none
  | .cons key value rest => if key = name then some value else member name rest

/-- A cell of a column of natural numbers in the data frame; none where there is none. -/
def column (name : String) : Json → Option ℕ
  | .obj fields =>
    match member name fields with
    | some (.num (.ofNat n)) => some n
    | _ => none
  | _ => none

/-- `data[data["run_idx"] > 0]`. -/
def rows (data : List Json) : List Json :=
  data.filter fun o => (column "run_idx" o).any fun n => 0 < n

/-- The entries of run `k`. -/
def runOf (k : ℕ) (log : List Entry) : List Entry :=
  log.filter fun e => e.update.runIdx.toNat = k

/-- The number of runs begun in a log. -/
def runs (log : List Entry) : ℕ := finishedCount log + if currentRun log = [] then 0 else 1

theorem runOf_concat_self {k : ℕ} (log : List Entry) {e : Entry}
    (h : e.update.runIdx.toNat = k) : runOf k (log ++ [e]) = runOf k log ++ [e] := by
  simp [runOf, h]

theorem runOf_concat_of_ne {k : ℕ} (log : List Entry) {e : Entry}
    (h : e.update.runIdx.toNat ≠ k) : runOf k (log ++ [e]) = runOf k log := by
  simp [runOf, h]

/-- How the entries of a log fall into runs. -/
structure Blocked (log : List Entry) : Prop where
  current : currentRun log = runOf (finishedCount log) log
  known : ∀ e ∈ log, e.update.runIdx.toNat < runs log
  attained : ∀ k < runs log,
    ∃ e ∈ log, e.update.runIdx.toNat = k ∧ e.update.accT.toNat = timeOf (runOf k log)
  le : ∀ e ∈ log, e.update.accT.toNat ≤ timeOf (runOf e.update.runIdx.toNat log)

theorem Blocked.nil : Blocked [] := by
  constructor <;> simp [currentRun, runOf, runs, finishedCount]

/-- A stretch that returned was interrupted or ended its run. -/
def Returned (e : Entry) : Prop :=
  (∃ res, e.chunk.state = some (.resumable res)) ∨ ∃ left, e.chunk.state = some (.finished left)

/-- Whether the stretch was interrupted or not, its run is the last one begun. -/
theorem runs_concat (log : List Entry) {e : Entry} (h : Returned e) :
    runs (log ++ [e]) = finishedCount log + 1 := by
  rcases h with ⟨res, hstate⟩ | ⟨left, hstate⟩
  · rw [runs, finishedCount_resumable log hstate, currentRun_resumable log hstate,
      if_neg (by simp)]
  · rw [runs, finishedCount_finished log hstate, currentRun_finished log hstate, if_pos rfl]

/-- One entry more: it belongs to the run in progress, and holds its time. -/
theorem Blocked.concat {log : List Entry} {e : Entry} (h : Blocked log) (hret : Returned e)
    (hrun : e.update.runIdx.toNat = finishedCount log)
    (htime : e.update.accT.toNat = timeOf (currentRun log ++ [e])) : Blocked (log ++ [e]) := by
  have hown := runOf_concat_self log hrun
  rw [h.current, ← hown] at htime
  have hmono : ∀ k, timeOf (runOf k log) ≤ timeOf (runOf k (log ++ [e])) := by
    intro k
    by_cases hk : e.update.runIdx.toNat = k
    · rw [runOf_concat_self log hk, timeOf_concat]
      exact Nat.le_add_right _ _
    · rw [runOf_concat_of_ne log hk]
  have hknown : ∀ e' ∈ log ++ [e], e'.update.runIdx.toNat < finishedCount log + 1 := by
    intro e' he'
    rcases List.mem_append.mp he' with hold | hnew
    · have hlt := h.known e' hold
      unfold runs at hlt
      split at hlt <;> omega
    · obtain rfl := List.mem_singleton.mp hnew
      omega
  constructor
  · rcases hret with ⟨res, hstate⟩ | ⟨left, hstate⟩
    · rw [currentRun_resumable log hstate, finishedCount_resumable log hstate, hown, h.current]
    · rw [currentRun_finished log hstate, finishedCount_finished log hstate]
      symm
      rw [runOf, List.filter_eq_nil_iff]
      intro e' he'
      have hlt := hknown e' he'
      simp only [decide_eq_true_eq]
      omega
  · rw [runs_concat log hret]
    exact hknown
  · intro k hk
    rw [runs_concat log hret] at hk
    by_cases hlast : k = finishedCount log
    · subst hlast
      exact ⟨e, by simp, hrun, htime⟩
    · obtain ⟨e', he', hk', ht'⟩ := h.attained k (by unfold runs; omega)
      refine ⟨e', List.mem_append_left _ he', hk', ?_⟩
      rw [runOf_concat_of_ne log (by omega), ht']
  · intro e' he'
    rcases List.mem_append.mp he' with hold | hnew
    · exact (h.le e' hold).trans (hmono _)
    · obtain rfl := List.mem_singleton.mp hnew
      rw [hrun, htime]

/-- An entry that continues a history as the loop does. -/
def Continues (pre : List Entry) (e : Entry) : Prop :=
  Returned e ∧ e.update.runIdx.toNat = finishedCount pre ∧
    e.update.accT.toNat = timeOf (currentRun pre ++ [e])

/-- The time that the stretches of a run have taken. -/
def taken (run : List Entry) : ℕ := (run.map fun e => stretchTime e.chunk).sum

section Clock

variable {p : Profile} {m : Mitigator} {f : U64} {mainAddr : ℕ} {chunks : List Chunk}
variable {log : List Entry} {s : Loop}

end Clock

end InterferenceMitigation.RunTable
