import InterferenceMitigation.DeadlineGuard
import Mathlib.Data.List.DropRight

/-!
The bare-metal runner and its control loop. The interpreter executes the payload
in stretches of a fixed amount of fuel; after each stretch the runner accounts
for the time and fuel of the current run, emits an update, and the mitigator
decides on it. The interpreter and the clock are an input: one `Chunk` for every
stretch. A log entry keeps what went into an iteration beside what came out.
-/

namespace InterferenceMitigation.ControlLoop

open MachineInt DeadlineGuard

/-- A suspended invocation, with the fuel it will be resumed with. -/
structure WasmResumable where
  handle : ℕ
  fuel : Option U64
  deriving DecidableEq, Repr

inductive RunState
  | resumable (res : WasmResumable)
  | finished (maybeRemainingFuel : Option U64)
  | hostCalled
  deriving DecidableEq, Repr

/-- The fuel the interpreter reports as left when it returns. -/
def RunState.remaining : RunState → Option U64
  | .resumable res => res.fuel
  | .finished maybeRemainingFuel => maybeRemainingFuel
  | .hostCalled => none

def RunState.isResumable : RunState → Bool
  | .resumable _ => true
  | _ => false

/-- What the environment supplies to one call of `run`: the two clock readings, the
interpreter's answer (`none` for an `Err`) and the performance counters. -/
structure Chunk where
  last : U64
  current : U64
  state : Option RunState
  perf : PerfInfo
  deriving DecidableEq, Repr

def Chunk.isResumable (c : Chunk) : Bool :=
  match c.state with
  | some state => state.isResumable
  | none => false

def Chunk.isFinished (c : Chunk) : Bool :=
  match c.state with
  | some (.finished _) => true
  | _ => false

def Chunk.remaining (c : Chunk) : Option U64 := c.state.bind RunState.remaining

/-- The interpreter metered the stretch: an invocation that was granted fuel reports
what is left of it. -/
def Chunk.Metered (c : Chunk) : Prop :=
  ∀ state, c.state = some state → state ≠ .hostCalled → ∃ rem, state.remaining = some rem

inductive InterpreterCall
  | resume (res : WasmResumable)
  | invoke (mainAddr : ℕ) (fuel : Option U64)
  deriving DecidableEq, Repr

structure WasmRunner where
  fuelAmount : Option U64
  runIdx : U64
  refuelIdx : U64
  accT : U64
  accF : Option U64
  mainAddr : ℕ
  resumeable : Option WasmResumable
  deriving DecidableEq, Repr

/-- The cache sets attacked by the intruder cores, `intruder::SET_MASK`. -/
def setMask : U64 := 0x3FE

namespace WasmRunner

def new (fuelAmount : Option U64) (mainAddr : ℕ) : WasmRunner where
  fuelAmount := fuelAmount
  runIdx := 0
  refuelIdx := 0
  accT := 0
  accF := fuelAmount.map fun _ => 0
  mainAddr := mainAddr
  resumeable := none

/-- The interpreter call made by `run`, from the resumable it takes. -/
def call (r : WasmRunner) : InterpreterCall :=
  match r.resumeable with
  | some res => .resume res
  | none => .invoke r.mainAddr r.fuelAmount

/-- The `match state` of `run`: the fuel spent and the resumable kept for the next call. -/
def settle (r : WasmRunner) (p : Profile) :
    RunState → Except Panic (Option U64 × Option WasmResumable)
  | .resumable res => do
    let df ← zipWith (fun a b => sub p b a) res.fuel r.fuelAmount
    return (df, some { res with fuel := r.fuelAmount })
  | .finished maybeRemainingFuel => do
    let df ← zipWith (fun a b => sub p b a) maybeRemainingFuel r.fuelAmount
    return (df, none)
  | .hostCalled => .error (.message "Wasm panic!")

/-- `intruderBreak` is the shared flag as `run` loads it into the update. -/
def run (r : WasmRunner) (p : Profile) (intruderBreak : Bool) (c : Chunk) :
    Except Panic (RefuelUpdate × WasmRunner) :=
  match c.state with
  | none => .error .unwrap
  | some state => do
    let dt ← sub p c.current c.last
    let (df, resumeable) ← r.settle p state
    let accT ← add p r.accT dt
    let accF ← zipWith (add p) r.accF df
    let update : RefuelUpdate := {
      timestamp := c.current
      fuel := r.fuelAmount
      runIdx := r.runIdx
      refuelIdx := r.refuelIdx
      intruderBreak := intruderBreak
      intruderSetMask := setMask
      dt := dt
      df := df
      accT := accT
      accF := accF
      perfInfo := some c.perf
    }
    if resumeable.isSome then
      let refuelIdx ← add p r.refuelIdx 1
      return (update, { r with
        refuelIdx := refuelIdx
        accT := accT
        accF := accF
        resumeable := resumeable })
    else
      let runIdx ← add p r.runIdx 1
      return (update, { r with
        runIdx := runIdx
        refuelIdx := 0
        accT := 0
        accF := r.fuelAmount.map fun _ => 0
        resumeable := resumeable })

/-- What a successful metered call of `run` did: `rem` was left of the grant `f`, `d` was
spent, and `total` is the fuel of the run so far, `a` being that of the earlier calls. -/
structure Ran (p : Profile) (f a : U64) (r : WasmRunner) (flag : Bool) (c : Chunk)
    (u : RefuelUpdate) (r' : WasmRunner) (rem d total : U64) : Prop where
  remaining : c.remaining = some rem
  dt : Difference p c.current c.last u.dt
  df : u.df = some d
  spent : Difference p f rem d
  accT : add p r.accT u.dt = .ok u.accT
  accF : u.accF = some total
  addF : add p a d = .ok total
  fuel : u.fuel = some f
  runIdx : u.runIdx = r.runIdx
  refuelIdx : u.refuelIdx = r.refuelIdx
  intruderBreak : u.intruderBreak = flag
  next : (∃ res, c.state = some (.resumable res) ∧ add p r.refuelIdx 1 = .ok r'.refuelIdx ∧
      r' = { r with
        refuelIdx := r'.refuelIdx
        accT := u.accT
        accF := u.accF
        resumeable := some { res with fuel := some f } }) ∨
    (∃ left, c.state = some (.finished left) ∧ add p r.runIdx 1 = .ok r'.runIdx ∧
      r' = { r with
        runIdx := r'.runIdx
        refuelIdx := 0
        accT := 0
        accF := some 0
        resumeable := none })

/-- Both returning arms of `settle` spend what the report leaves of the grant. -/
theorem settle_inv {r : WasmRunner} {p : Profile} {f : U64} (hfuel : r.fuelAmount = some f)
    {state : RunState} {rem : U64} (hrem : state.remaining = some rem)
    {df : Option U64} {resumeable : Option WasmResumable}
    (h : r.settle p state = .ok (df, resumeable)) :
    ∃ d, df = some d ∧ sub p f rem = .ok d ∧
      ((∃ res, state = .resumable res ∧ resumeable = some { res with fuel := some f }) ∨
        (∃ left, state = .finished left ∧ resumeable = none)) := by
  cases state with
  | resumable res =>
    have hres : res.fuel = some rem := hrem
    simp only [settle, hres, hfuel, zipWith_some, bind_eq_ok, map_eq_ok] at h
    obtain ⟨_, ⟨d, hsub, rfl⟩, hret⟩ := h
    obtain ⟨rfl, rfl⟩ := Prod.mk.inj (Except.ok.inj hret)
    exact ⟨d, rfl, hsub, Or.inl ⟨res, rfl, rfl⟩⟩
  | finished left =>
    have hleft : left = some rem := hrem
    simp only [settle, hleft, hfuel, zipWith_some, bind_eq_ok, map_eq_ok] at h
    obtain ⟨_, ⟨d, hsub, rfl⟩, hret⟩ := h
    obtain ⟨rfl, rfl⟩ := Prod.mk.inj (Except.ok.inj hret)
    exact ⟨d, rfl, hsub, Or.inr ⟨left, rfl, rfl⟩⟩
  | hostCalled => simp [RunState.remaining] at hrem

/-- A host call and an interpreter error panic, so a call that returned was metered. -/
theorem run_inv {r : WasmRunner} {p : Profile} {flag : Bool} {c : Chunk} {f a : U64}
    {u : RefuelUpdate} {r' : WasmRunner} (hfuel : r.fuelAmount = some f)
    (hacc : r.accF = some a) (hmeter : c.Metered) (h : r.run p flag c = .ok (u, r')) :
    ∃ rem d total, Ran p f a r flag c u r' rem d total := by
  unfold run at h
  split at h
  · simp at h
  · rename_i state hstate
    simp only [bind_eq_ok] at h
    obtain ⟨dt, hdt, ⟨df, resumeable⟩, hsettle, accT, haccT, accF, haccF, h⟩ := h
    have hcall : state ≠ .hostCalled := by
      rintro rfl
      simp [settle] at hsettle
    obtain ⟨rem, hrem⟩ := hmeter state hstate hcall
    obtain ⟨d, rfl, hsub, hkept⟩ := settle_inv hfuel hrem hsettle
    simp only [hacc, zipWith_some, map_eq_ok] at haccF
    obtain ⟨total, haddF, rfl⟩ := haccF
    refine ⟨rem, d, total, ?_⟩
    have hremaining : c.remaining = some rem := by simp [Chunk.remaining, hstate, hrem]
    rcases hkept with ⟨res, rfl, rfl⟩ | ⟨left, rfl, rfl⟩
    · simp only [Option.isSome_some, if_true, bind_eq_ok] at h
      obtain ⟨refuelIdx, hadd, hret⟩ := h
      obtain ⟨rfl, rfl⟩ := Prod.mk.inj (Except.ok.inj hret)
      exact ⟨hremaining, difference_of_sub hdt, rfl, difference_of_sub hsub, haccT, rfl, haddF,
        hfuel, rfl, rfl, rfl, Or.inl ⟨res, hstate, hadd, rfl⟩⟩
    · simp only [Option.isSome_none, Bool.false_eq_true, if_false, bind_eq_ok] at h
      obtain ⟨runIdx, hadd, hret⟩ := h
      obtain ⟨rfl, rfl⟩ := Prod.mk.inj (Except.ok.inj hret)
      refine ⟨hremaining, difference_of_sub hdt, rfl, difference_of_sub hsub, haccT, rfl, haddF,
        hfuel, rfl, rfl, rfl, Or.inr ⟨left, hstate, hadd, ?_⟩⟩
      simp [hfuel]

end WasmRunner

/-- One iteration as seen from outside: its input, the interpreter call it made, the
update it emitted and the decision taken on it. -/
structure Entry where
  chunk : Chunk
  call : InterpreterCall
  update : RefuelUpdate
  decision : Option IntruderCall
  deriving DecidableEq, Repr

/-- The state of the main loop: the runner and `INTRUDER_BREAK`. -/
structure Loop where
  runner : WasmRunner
  intruderBreak : Bool
  deriving DecidableEq, Repr

namespace Loop

def new (fuelAmount : Option U64) (mainAddr : ℕ) : Loop :=
  ⟨WasmRunner.new fuelAmount mainAddr, false⟩

/-- The store `intruder_break` or `intruder_cont` makes to the shared flag. -/
def store (flag : Bool) : Option IntruderCall → Bool
  | some .intruderBreak => true
  | some .intruderCont => false
  | none => flag

/-- `let update = runner.run(); mitigator.mitigate(&update);` -/
def step (p : Profile) (m : Mitigator) (s : Loop) (c : Chunk) : Except Panic (Entry × Loop) := do
  let (update, runner) ← s.runner.run p s.intruderBreak c
  let decision ← m.mitigate p update
  return (⟨c, s.runner.call, update, decision⟩, ⟨runner, store s.intruderBreak decision⟩)

/-- The iterations of the main loop over a list of inputs, if none of them panics. -/
def run (p : Profile) (m : Mitigator) : Loop → List Chunk → Except Panic (List Entry × Loop)
  | s, [] => .ok ([], s)
  | s, c :: cs => do
    let (e, s') ← step p m s c
    let (es, s'') ← run p m s' cs
    return (e :: es, s'')

end Loop

end InterferenceMitigation.ControlLoop
