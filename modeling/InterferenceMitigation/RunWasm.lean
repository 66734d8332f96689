import InterferenceMitigation.Emission
import InterferenceMitigation.FreezeControl

/-!
One metered run of the Linux Wasm runner. The interpreter is resumed until it
finishes; each resumption is accounted, judged by the mitigator and reported as one
record. The clock readings, the interpreter's outcomes and the results of sending are
the environment of the run. The time accumulator is a duration, the fuel accumulator
an optional 32-bit integer.
-/

namespace InterferenceMitigation.RunWasm

open MachineInt Durations Emission Emit FreezeControl

/-- One record. The counters `i` to `l` are of type `usize` in the source. They are natural
numbers here: positions in the lists of arguments and numbers of runs and records, which stay
below `2 ^ 64` in every execution, so that their overflow is not modelled. -/
structure WasmRunnerIpc where
  timestamp : Duration
  fuel : Option U32
  wctpf : Option U64
  i : ℕ
  j : ℕ
  k : ℕ
  l : ℕ
  dt : Duration
  df : Option U32
  accT : Duration
  accF : Option U32
  irq : Option Irq
  deriving DecidableEq, Repr

/-- The steps of `run_wasm` before its first record. -/
inductive Setup
  | validate
  | moduleInstantiate
  | instanceExport
  | asFunc
  | createResumable
  deriving DecidableEq, Repr

inductive Failure
  | setup (step : Setup)
  | resume
  | accessFuel
  | send
  deriving DecidableEq, Repr

/-- Why a run has not returned normally; `pending` while the interpreter is running. -/
inductive Stop
  | failed (failure : Failure)
  | panicked (panic : Panic)
  | pending
  deriving DecidableEq, Repr

/-- What the interpreter returns, with the fuel that remains. -/
inductive RunState
  | resumable (remaining : Option U32)
  | finished (maybeRemainingFuel : Option U32)
  deriving DecidableEq, Repr

def RunState.remaining : RunState → Option U32
  | .resumable remaining => remaining
  | .finished remaining => remaining

/-- One resumption: the clock before and after it, its outcome if it did not fail, and
whether the later accesses to the fuel and the report of the record succeed. -/
structure Resumption where
  last : Instant
  current : Instant
  state : Option RunState
  accessed : Bool
  sent : Bool
  refueled : Bool
  deriving DecidableEq, Repr

def Resumption.dt (r : Resumption) : Duration := r.current.since r.last

structure RunEnv where
  epoch : Instant
  setup : Option Setup
  start : Instant
  sent : Bool
  resumptions : List Resumption
  deriving DecidableEq, Repr

structure WasmRunLogger where
  timestampEpoch : Instant
  fuel : Option U32
  wctpf : Option U64
  fuelIndex : ℕ
  wctpfIndex : ℕ
  runIndex : ℕ
  deriving DecidableEq, Repr

/-- The local variables of `run_wasm` that its loop carries along. `fuelCycle`, a `usize` in
the source, is the number of records before the next one. -/
structure Cycle where
  fuelCycle : ℕ
  accT : Duration
  accF : Option U32
  deriving DecidableEq, Repr

/-- What a resumption adds to the cycle and the command the mitigator answers with. -/
structure Account where
  df : Option U32
  accT : Duration
  accF : Option U32
  irq : Option Irq
  deriving DecidableEq, Repr

namespace WasmRunLogger

def new (timestampEpoch : Instant) (fuel : Option U32) (wctpf : Option U64)
    (fuelIndex wctpfIndex runIndex : ℕ) : WasmRunLogger :=
  ⟨timestampEpoch, fuel, wctpf, fuelIndex, wctpfIndex, runIndex⟩

@[simps] def record (logger : WasmRunLogger) (timestamp : Instant) (fuelCycle : ℕ) (dt : Duration)
    (a : Account) : WasmRunnerIpc where
  timestamp := timestamp.since logger.timestampEpoch
  fuel := logger.fuel
  wctpf := logger.wctpf
  i := logger.fuelIndex
  j := logger.wctpfIndex
  k := logger.runIndex
  l := fuelCycle
  dt := dt
  df := a.df
  accT := a.accT
  accF := a.accF
  irq := a.irq

def log (logger : WasmRunLogger) (sent : Bool) (timestamp : Instant) (fuelCycle : ℕ)
    (dt : Duration) (a : Account) : Emit WasmRunnerIpc Stop Unit :=
  if sent then .emit (logger.record timestamp fuelCycle dt a) else .stop (.failed .send)

end WasmRunLogger

/-- The accounting of one resumption, the same for both outcomes. -/
def account (p : Profile) (fuel : Option U32) (m : Mitigator) (cycle : Cycle) (dt : Duration)
    (remaining : Option U32) : Except Panic Account := do
  let df ← zipWith (fun a b => sub p b a) remaining fuel
  let accT ← cycle.accT.add dt
  let accF ← zipWith (add p) cycle.accF df
  let irq ← m.mitigate p accT accF
  return ⟨df, accT, accF, irq⟩

def Cycle.next (cycle : Cycle) (a : Account) : Cycle :=
  ⟨cycle.fuelCycle + 1, a.accT, a.accF⟩

def report (p : Profile) (fuel : Option U32) (m : Mitigator) (logger : WasmRunLogger)
    (cycle : Cycle) (r : Resumption) (remaining : Option U32) :
    Emit WasmRunnerIpc Stop Account := do
  let a ← .lift ((account p fuel m cycle r.dt remaining).mapError .panicked)
  logger.log r.sent r.current cycle.fuelCycle r.dt a
  return a

/-- The loop of `run_wasm`; the list of resumptions is what has happened so far. -/
def runLoop (p : Profile) (fuel : Option U32) (m : Mitigator) (logger : WasmRunLogger) :
    Cycle → List Resumption → Emit WasmRunnerIpc Stop Unit
  | _, [] => .stop .pending
  | cycle, r :: rest =>
    match r.state with
    | none => .stop (.failed .resume)
    | some (.resumable remaining) =>
      if r.accessed then do
        let a ← report p fuel m logger cycle r remaining
        if r.refueled then
          runLoop p fuel m logger (cycle.next a) rest
        else
          .stop (.panicked .unwrap)
      else
        .stop (.failed .accessFuel)
    | some (.finished maybeRemainingFuel) => do
      let _ ← report p fuel m logger cycle r maybeRemainingFuel
      return ()

/-- The command of the record of cycle 0, before any fuel has been spent. -/
def initialIrq (wctpf : Option U64) : Option Irq :=
  (wctpf.map fun wctpf => if wctpf = 0 then Irq.freeze 1 else .unfreeze 1).or
    (some (.unfreeze 1))

def initialAccount (wctpf : Option U64) : Account := ⟨some 0, .zero, some 0, initialIrq wctpf⟩

def initialCycle : Cycle := ⟨0, .zero, some 0⟩

def runWasm (p : Profile) (fuel : Option U32) (wctpf : Option U64) (logger : WasmRunLogger)
    (env : RunEnv) : Emit WasmRunnerIpc Stop Unit :=
  match env.setup with
  | some step => .stop (.failed (.setup step))
  | none => do
    logger.log env.sent env.start initialCycle.fuelCycle .zero (initialAccount wctpf)
    runLoop p fuel (.forRun wctpf) logger (initialCycle.next (initialAccount wctpf))
      env.resumptions

/-- `log` are the records of the first resumptions of `rs`, starting in `cycle`. -/
inductive Logs (p : Profile) (fuel : Option U32) (m : Mitigator) (logger : WasmRunLogger) :
    Cycle → List Resumption → List WasmRunnerIpc → Prop
  | nil (cycle : Cycle) (rs : List Resumption) : Logs p fuel m logger cycle rs []
  | cons {cycle : Cycle} {r : Resumption} {rest : List Resumption} {log : List WasmRunnerIpc}
      {state : RunState} {a : Account} :
      r.state = some state → account p fuel m cycle r.dt state.remaining = .ok a →
      Logs p fuel m logger (cycle.next a) rest log →
      Logs p fuel m logger cycle (r :: rest)
        (logger.record r.current cycle.fuelCycle r.dt a :: log)

section Logs

variable {p : Profile} {fuel : Option U32} {m : Mitigator} {logger : WasmRunLogger}
variable {cycle : Cycle} {rs : List Resumption} {log : List WasmRunnerIpc}

theorem log_cases (logger : WasmRunLogger) (sent : Bool) (timestamp : Instant) (n : ℕ)
    (dt : Duration) (a : Account) :
    logger.log sent timestamp n dt a = .stop (.failed .send) ∨
      logger.log sent timestamp n dt a = .emit (logger.record timestamp n dt a) := by
  cases sent
  · exact .inl rfl
  · exact .inr rfl

/-- A report either stops silently or emits the record of a successful accounting. -/
theorem report_cases (p : Profile) (fuel : Option U32) (m : Mitigator) (logger : WasmRunLogger)
    (cycle : Cycle) (r : Resumption) (remaining : Option U32) :
    (∃ e, report p fuel m logger cycle r remaining = .stop e) ∨
      ∃ a, account p fuel m cycle r.dt remaining = .ok a ∧
        report p fuel m logger cycle r remaining =
          ⟨[logger.record r.current cycle.fuelCycle r.dt a], .ok a⟩ := by
  unfold report
  cases ha : account p fuel m cycle r.dt remaining with
  | error panic => exact .inl ⟨.panicked panic, rfl⟩
  | ok a =>
    simp only [Except.mapError, lift_ok_bind]
    rcases log_cases logger r.sent r.current cycle.fuelCycle r.dt a with h | h
    · exact .inl ⟨.failed .send, by rw [h]; rfl⟩
    · exact .inr ⟨a, rfl, by rw [h]; rfl⟩

theorem runLoop_logs (rs : List Resumption) (cycle : Cycle) :
    Logs p fuel m logger cycle rs (runLoop p fuel m logger cycle rs).log := by
  induction rs generalizing cycle with
  | nil => exact .nil cycle []
  | cons r rest ih =>
    unfold runLoop
    cases hstate : r.state with
    | none => exact .nil cycle _
    | some state =>
      cases state with
      | resumable remaining =>
        cases r.accessed with
        | false => exact .nil cycle _
        | true =>
          rcases report_cases p fuel m logger cycle r remaining with ⟨e, h⟩ | ⟨a, ha, h⟩
          · simp only [h]
            exact .nil cycle _
          · simp only [h]
            cases r.refueled with
            | false => exact .cons hstate ha (.nil _ rest)
            | true => exact .cons hstate ha (ih (cycle.next a))
      | finished remaining =>
        rcases report_cases p fuel m logger cycle r remaining with ⟨e, h⟩ | ⟨a, ha, h⟩
        · simp only [h]
          exact .nil cycle _
        · simp only [h]
          exact .cons hstate ha (.nil _ rest)

/-- A run either stops silently or logs the record of cycle 0 and those of its loop. -/
theorem runWasm_cases (p : Profile) (fuel : Option U32) (wctpf : Option U64)
    (logger : WasmRunLogger) (env : RunEnv) :
    (∃ e, runWasm p fuel wctpf logger env = .stop e) ∨
      ∃ rest, (runWasm p fuel wctpf logger env).log =
          logger.record env.start 0 .zero (initialAccount wctpf) :: rest ∧
        Logs p fuel (.forRun wctpf) logger (initialCycle.next (initialAccount wctpf))
          env.resumptions rest := by
  unfold runWasm
  cases env.setup with
  | some step => exact .inl ⟨_, rfl⟩
  | none =>
    rcases log_cases logger env.sent env.start initialCycle.fuelCycle .zero
      (initialAccount wctpf) with h | h
    · exact .inl ⟨.failed .send, by simp only [h, stop_bind]⟩
    · exact .inr ⟨_, by simp only [h, emit_bind]; rfl, runLoop_logs _ _⟩

/-- A log that is not empty begins with the record of cycle 0. -/
theorem exists_logs_of_mem {wctpf : Option U64} {env : RunEnv} {r : WasmRunnerIpc}
    (hr : r ∈ (runWasm p fuel wctpf logger env).log) :
    ∃ rest, (runWasm p fuel wctpf logger env).log =
        logger.record env.start 0 .zero (initialAccount wctpf) :: rest ∧
      Logs p fuel (.forRun wctpf) logger (initialCycle.next (initialAccount wctpf))
        env.resumptions rest := by
  rcases runWasm_cases p fuel wctpf logger env with ⟨e, h⟩ | hlogs
  · rw [h] at hr
    simp at hr
  · exact hlogs

/-- Every record carries the indices and parameters of the run's logger. -/
theorem Logs.exists_record (h : Logs p fuel m logger cycle rs log) :
    ∀ r ∈ log, ∃ timestamp n dt a, r = logger.record timestamp n dt a := by
  induction h with
  | nil => simp
  | cons _ _ _ ih =>
    intro r hr
    rcases List.mem_cons.mp hr with rfl | hr
    · exact ⟨_, _, _, _, rfl⟩
    · exact ih r hr

theorem Logs.map_l (h : Logs p fuel m logger cycle rs log) :
    log.map (·.l) = List.range' cycle.fuelCycle log.length := by
  induction h with
  | nil => rfl
  | cons _ _ _ ih =>
    rw [List.map_cons, ih]
    rfl

theorem runWasm_map_l (p : Profile) (fuel : Option U32) (wctpf : Option U64)
    (logger : WasmRunLogger) (env : RunEnv) :
    (runWasm p fuel wctpf logger env).log.map (·.l) =
      List.range (runWasm p fuel wctpf logger env).log.length := by
  rcases runWasm_cases p fuel wctpf logger env with ⟨e, h⟩ | ⟨rest, h, hlogs⟩
  · rw [h]
    rfl
  · rw [h, List.map_cons, hlogs.map_l, List.range_eq_range', List.length_cons, List.range'_succ]
    rfl

/-- The record of cycle `l` is the one at position `l`. -/
theorem runWasm_getElem? {wctpf : Option U64} {env : RunEnv} {r : WasmRunnerIpc}
    (hr : r ∈ (runWasm p fuel wctpf logger env).log) :
    (runWasm p fuel wctpf logger env).log[r.l]? = some r := by
  obtain ⟨l, hl⟩ := List.mem_iff_getElem?.mp hr
  have hnumber := congrArg (fun ls : List ℕ => ls[l]?) (runWasm_map_l p fuel wctpf logger env)
  have hlt : l < (runWasm p fuel wctpf logger env).log.length :=
    (List.getElem?_eq_some_iff.mp hl).1
  simp only [List.getElem?_map, hl, Option.map_some, List.getElem?_range hlt,
    Option.some.injEq] at hnumber
  rw [hnumber, hl]

theorem account_eq_ok {dt : Duration} {remaining : Option U32} {a : Account}
    (h : account p fuel m cycle dt remaining = .ok a) :
    zipWith (fun a b => sub p b a) remaining fuel = .ok a.df ∧
      cycle.accT.add dt = .ok a.accT ∧ zipWith (add p) cycle.accF a.df = .ok a.accF ∧
        m.mitigate p a.accT a.accF = .ok a.irq := by
  simp only [account, bind_eq_ok] at h
  obtain ⟨df, hdf, accT, haccT, accF, haccF, irq, hirq, hret⟩ := h
  obtain rfl := Except.ok.inj hret
  exact ⟨hdf, haccT, haccF, hirq⟩

end Logs

end InterferenceMitigation.RunWasm
