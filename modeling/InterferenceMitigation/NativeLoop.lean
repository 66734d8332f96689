import InterferenceMitigation.DoubleProduct
import InterferenceMitigation.RunTable

/-!
The native runner, which the bare-metal program uses unless it is built with the interpreter.
It runs the kernel itself and reports every run as one stretch without fuel. Its loop is that
of the interpreter's runner over an unmetered payload whose runs are never interrupted: the
same records, the same decisions, the same aborts. The mitigator has nothing to estimate from
and never calls on the intruders, so that these runs are the unprotected ones.
-/

namespace InterferenceMitigation.NativeLoop

open MachineInt DeadlineGuard DoubleProduct KernelArray
open ControlLoop (Loop Chunk setMask)

/-- The clock readings and the counters of one run. -/
structure Reading where
  last : U64
  current : U64
  perf : PerfInfo
  deriving DecidableEq, Repr

inductive Fault
  | kernel (fault : KernelArray.Fault)
  | panic (panic : Panic)
  deriving DecidableEq, Repr

def onPanic {α : Type} (x : Except Panic α) : Except Fault α := x.mapError .panic

structure NativeRunner (R : Type) (N : ℕ) where
  kernel : Kernel2MM R N
  runIdx : U64

variable {R : Type} {N : ℕ}

def NativeRunner.new (gen : Rng R I8) : NativeRunner R N := ⟨DoubleProduct.new gen, 0⟩

/-- `intruderBreak` is the shared flag as `run` loads it into the update. -/
def NativeRunner.run (r : NativeRunner R N) (gen : Rng R I8) (p : Profile) (intruderBreak : Bool)
    (c : Reading) : Except Fault (RefuelUpdate × NativeRunner R N) :=
  match DoubleProduct.run gen r.kernel with
  | .error fault _ => .error (.kernel fault)
  | .ok _ kernel => do
    let dt ← onPanic (sub p c.current c.last)
    let update : RefuelUpdate := {
      timestamp := c.current
      fuel := none
      refuelIdx := 0
      runIdx := r.runIdx
      intruderBreak := intruderBreak
      intruderSetMask := setMask
      dt := dt
      df := none
      accT := dt
      accF := none
      perfInfo := some c.perf
    }
    let runIdx ← onPanic (add p r.runIdx 1)
    return (update, ⟨kernel, runIdx⟩)

/-- The state of the main loop with the native runner. -/
structure State (R : Type) (N : ℕ) where
  runner : NativeRunner R N
  intruderBreak : Bool

def State.new (gen : Rng R I8) : State R N := ⟨.new gen, false⟩

/-- An update and the decision taken on it. -/
abbrev Decided := RefuelUpdate × Option IntruderCall

def step (gen : Rng R I8) (p : Profile) (m : Mitigator) (s : State R N) (c : Reading) :
    Except Fault (Decided × State R N) := do
  let (update, runner) ← s.runner.run gen p s.intruderBreak c
  let decision ← onPanic (m.mitigate p update)
  return ((update, decision), ⟨runner, Loop.store s.intruderBreak decision⟩)

def run (gen : Rng R I8) (p : Profile) (m : Mitigator) :
    State R N → List Reading → Except Fault (List Decided × State R N)
  | s, [] => .ok ([], s)
  | s, c :: cs => do
    let (e, s') ← step gen p m s c
    let (es, s'') ← run gen p m s' cs
    return (e :: es, s'')

/-- The record of a run. -/
def record (runIdx : U64) (intruderBreak : Bool) (c : Reading) : RefuelUpdate where
  timestamp := c.current
  fuel := none
  runIdx := runIdx
  refuelIdx := 0
  intruderBreak := intruderBreak
  intruderSetMask := setMask
  dt := c.current - c.last
  df := none
  accT := c.current - c.last
  accF := none
  perfInfo := some c.perf

/-- What an iteration can abort in: the time of its run, and the number of the next. -/
def nextIdx (p : Profile) (runIdx : U64) (c : Reading) : Except Panic U64 := do
  let _ ← sub p c.current c.last
  add p runIdx 1

/-- The stretch of an unmetered payload that runs to its end. -/
def Reading.chunk (c : Reading) : Chunk := ⟨c.last, c.current, some (.finished none), c.perf⟩

section Step

variable {gen : Rng R I8} {p : Profile} {m : Mitigator}

theorem step_eq {kernel kernel' : Kernel2MM R N} (h : DoubleProduct.run gen kernel = .ok ⟨⟩ kernel')
    (runIdx : U64) (flag : Bool) (c : Reading) :
    step gen p m ⟨⟨kernel, runIdx⟩, flag⟩ c = onPanic ((nextIdx p runIdx c).map fun idx =>
      ((record runIdx flag c, none), ⟨⟨kernel', idx⟩, flag⟩)) := by
  rw [step, NativeRunner.run, h, nextIdx]
  cases hdt : sub p c.current c.last with
  | error e => rfl
  | ok dt =>
    obtain rfl := eq_sub_of_sub hdt
    cases hidx : add p runIdx 1 with
    | error e => rfl
    | ok idx => rfl

/-- The interpreter's runner without fuel, between two runs. -/
def unmetered (mainAddr : ℕ) (runIdx : U64) (flag : Bool) : Loop :=
  ⟨⟨none, runIdx, 0, 0, none, mainAddr, none⟩, flag⟩

theorem unmetered_step_eq (mainAddr : ℕ) (runIdx : U64) (flag : Bool) (c : Reading) :
    Loop.step p m (unmetered mainAddr runIdx flag) c.chunk = (nextIdx p runIdx c).map fun idx =>
      (⟨c.chunk, .invoke mainAddr none, record runIdx flag c, none⟩,
        unmetered mainAddr idx flag) := by
  have hacc : ∀ dt : U64, add p 0 dt = .ok dt := by
    intro dt
    rw [add_eq_ok p (by simpa using dt.isLt), zero_add]
  rw [Loop.step, nextIdx]
  simp only [ControlLoop.WasmRunner.run, unmetered, Reading.chunk]
  cases hdt : sub p c.current c.last with
  | error e => rfl
  | ok dt =>
    obtain rfl := eq_sub_of_sub hdt
    simp only [ok_bind, ControlLoop.WasmRunner.settle, zipWith, hacc]
    cases hidx : add p runIdx 1 with
    | error e => rfl
    | ok idx => rfl

end Step

section Runs

variable (gen : Rng R I8) (p : Profile) (m : Mitigator)

/-- What leaves the loop: the records and the decisions, the number of the next run and the
shared flag. -/
def view (r : List Decided × State R N) : List Decided × U64 × Bool :=
  (r.1, r.2.runner.runIdx, r.2.intruderBreak)

def wasmView (r : List ControlLoop.Entry × Loop) : List Decided × U64 × Bool :=
  (r.1.map fun e => (e.update, e.decision), r.2.runner.runIdx, r.2.intruderBreak)

variable (rng : R) (tmp : Array2D I8 N N) (A B C : Matrix (Fin N) (Fin N) I8)

/-- The state after `n` runs of the kernel. -/
def stateAfter (n : ℕ) (runIdx : U64) (flag : Bool) : State R N :=
  ⟨⟨after gen rng tmp A B C n, runIdx⟩, flag⟩

theorem stateAfter_step (n : ℕ) (runIdx : U64) (flag : Bool) (c : Reading) :
    step gen p m (stateAfter gen rng tmp A B C n runIdx flag) c =
      onPanic ((nextIdx p runIdx c).map fun idx =>
        ((record runIdx flag c, none), stateAfter gen rng tmp A B C (n + 1) idx flag)) :=
  step_eq (run_after ..) runIdx flag c

/-- Two loops that agree still do with one decision before the rest. -/
theorem agrees_cons {native : Except Fault (List Decided × State R N)}
    {wasm : Except Panic (List ControlLoop.Entry × Loop)} (e : ControlLoop.Entry)
    (h : native.map view = onPanic (wasm.map wasmView)) :
    (native >>= fun r => pure ((e.update, e.decision) :: r.1, r.2)).map view =
      onPanic ((wasm >>= fun r => pure (e :: r.1, r.2)).map wasmView) := by
  cases wasm with
  | error panic =>
    cases native with
    | error fault => exact h
    | ok r => cases h
  | ok r' =>
    cases native with
    | error fault => cases h
    | ok r =>
      have hview : view r = wasmView r' := Except.ok.inj h
      simp only [view, wasmView, Prod.mk.injEq] at hview
      obtain ⟨hlog, hidx, hflag⟩ := hview
      change Except.ok _ = Except.ok _
      simp only [view, wasmView, List.map_cons, hlog, hidx, hflag]

theorem run_agrees (mainAddr n : ℕ) (runIdx : U64) (flag : Bool) (readings : List Reading) :
    (run gen p m (stateAfter gen rng tmp A B C n runIdx flag) readings).map view =
      onPanic ((Loop.run p m (unmetered mainAddr runIdx flag)
        (readings.map Reading.chunk)).map wasmView) := by
  induction readings generalizing n runIdx with
  | nil => rfl
  | cons c readings ih =>
    rw [List.map_cons, run, Loop.run, stateAfter_step, unmetered_step_eq]
    cases nextIdx p runIdx c with
    | error e => rfl
    | ok idx =>
      exact agrees_cons ⟨c.chunk, .invoke mainAddr none, record runIdx flag c, none⟩
        (ih (n + 1) idx)

/-- The records of the runs from number `n` on, none of which calls on the intruders. -/
def records (n : ℕ) (flag : Bool) (readings : List Reading) : List Decided :=
  (readings.zipIdx n).map fun x => (record (BitVec.ofNat 64 x.2) flag x.1, none)

end Runs

open CompactJson RunTable Telemetry TraceReader

/-- The native runner against the interpreter's: whatever the clock reads, the loop over it
makes the same records and decisions as the loop over an unmetered payload, leaves the same
flag, and aborts where that does. The kernel itself never faults. -/
theorem native_agrees (gen : Rng R I8) (p : Profile) (m : Mitigator) (mainAddr : ℕ)
    (readings : List Reading) :
    (run gen p m (State.new gen : State R N) readings).map view =
      onPanic ((Loop.run p m (Loop.new none mainAddr)
        (readings.map Reading.chunk)).map wasmView) := by
  obtain ⟨rng, A, B, C, hnew⟩ := new_eq (N := N) gen
  have hstart : (State.new gen : State R N) = stateAfter gen rng .uninit A B C 0 0 false := by
    rw [State.new, NativeRunner.new, hnew, stateAfter, after_zero]
  rw [hstart]
  exact run_agrees gen p m rng .uninit A B C mainAddr 0 0 false readings

end InterferenceMitigation.NativeLoop
