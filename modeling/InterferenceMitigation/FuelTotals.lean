import InterferenceMitigation.RunWasm
import Mathlib.Algebra.BigOperators.Group.List.Basic

/-!
The accumulators of a run against the sums of what its records report. Time is added
without loss. Fuel is added in 32 bits, while one cycle alone may spend up to 2^32 - 1
units: the accumulator is the true total exactly as long as that fits.
-/

namespace InterferenceMitigation.FuelTotals

open MachineInt Durations FreezeControl RunWasm

/-- The fuel reported by a record; nothing where it is not metered. -/
def units (df : Option U32) : ℕ := (df.map BitVec.toNat).getD 0

def timeOf (log : List WasmRunnerIpc) : ℕ := (log.map fun r => r.dt.nanos).sum

def fuelOf (log : List WasmRunnerIpc) : ℕ := (log.map fun r => units r.df).sum

/-- The fuel a resumption spends of the `f` units it is granted. -/
def consumed (f : U32) (r : Resumption) : ℕ := f.toNat - units (r.state.bind RunState.remaining)

def spent (f : U32) (rs : List Resumption) : ℕ := (rs.map (consumed f)).sum

/-- The interpreter meters its fuel and never returns more than it was granted. -/
def Metered (f : U32) (rs : List Resumption) : Prop :=
  ∀ r ∈ rs, ∀ state, r.state = some state → ∃ a, state.remaining = some a ∧ a.toNat ≤ f.toNat

instance (f : U32) (rs : List Resumption) : Decidable (Metered f rs) :=
  decidable_of_iff (∀ r ∈ rs, ∀ state ∈ r.state, state.remaining.any (·.toNat ≤ f.toNat) = true)
    (by simp only [Metered, Option.mem_def, Option.any_eq_true, decide_eq_true_eq])

@[simp] theorem timeOf_nil : timeOf [] = 0 := rfl

@[simp] theorem fuelOf_nil : fuelOf [] = 0 := rfl

@[simp] theorem spent_nil (f : U32) : spent f [] = 0 := rfl

@[simp] theorem timeOf_cons (r : WasmRunnerIpc) (log : List WasmRunnerIpc) :
    timeOf (r :: log) = r.dt.nanos + timeOf log := List.sum_cons

@[simp] theorem fuelOf_cons (r : WasmRunnerIpc) (log : List WasmRunnerIpc) :
    fuelOf (r :: log) = units r.df + fuelOf log := List.sum_cons

@[simp] theorem spent_cons (f : U32) (r : Resumption) (rs : List Resumption) :
    spent f (r :: rs) = consumed f r + spent f rs := List.sum_cons

/-- The accumulators of a cycle hold `t` nanoseconds and `n` units of fuel. -/
structure Totals (p : Profile) (accT : Duration) (accF : Option U32) (t n : ℕ) : Prop where
  time : accT.nanos = t
  fuel : ∃ b, accF = some b ∧ Represents p b n

theorem initial_totals (p : Profile) : Totals p .zero (some 0) 0 0 :=
  ⟨rfl, 0, rfl, .zero p⟩

variable {p : Profile} {f : U32} {m : Mitigator} {logger : WasmRunLogger}
variable {cycle : Cycle} {rs : List Resumption} {log : List WasmRunnerIpc} {t n : ℕ}

/-- One resumption adds its time and the fuel it spent. -/
theorem Totals.account {dt : Duration} {remaining : U32} {a : Account}
    (h : Totals p cycle.accT cycle.accF t n) (hle : remaining.toNat ≤ f.toNat)
    (ha : account p (some f) m cycle dt (some remaining) = .ok a) :
    units a.df = f.toNat - remaining.toNat ∧
      Totals p a.accT a.accF (t + dt.nanos) (n + units a.df) := by
  obtain ⟨hdf, haccT, haccF, -⟩ := account_eq_ok ha
  obtain ⟨htime, b, hb, hrep⟩ := h
  rw [zipWith_some, sub_eq_ok p hle] at hdf
  have hdf' : a.df = some (f - remaining) := (Except.ok.inj hdf).symm
  have hunits : units a.df = (f - remaining).toNat := by
    rw [hdf']
    rfl
  rw [hb, hdf', zipWith_some, map_eq_ok] at haccF
  obtain ⟨c, hc, hsome⟩ := haccF
  refine ⟨?_, by rw [Duration.nanos_of_add haccT, htime], c, hsome.symm, ?_⟩
  · rw [hunits, BitVec.toNat_sub_of_le (BitVec.le_def.mpr hle)]
  · rw [hunits]
    exact hrep.add hc

/-- The record at any position holds the totals of the records up to it, and the command
computed from its own accumulators. -/
theorem logs_totals (h : Logs p (some f) m logger cycle rs log) (hmetered : Metered f rs)
    (htotals : Totals p cycle.accT cycle.accF t n) {l : ℕ} {r : WasmRunnerIpc}
    (hr : log[l]? = some r) :
    Totals p r.accT r.accF (t + timeOf (log.take (l + 1))) (n + fuelOf (log.take (l + 1))) ∧
      fuelOf (log.take (l + 1)) = spent f (rs.take (l + 1)) ∧
        m.mitigate p r.accT r.accF = .ok r.irq := by
  induction h generalizing t n l with
  | nil => simp at hr
  | @cons cycle x rest log state a hstate ha hlogs ih =>
    obtain ⟨remaining, hrem, hle⟩ := hmetered x (List.mem_cons_self ..) state hstate
    rw [hrem] at ha
    obtain ⟨hunits, hnext⟩ := htotals.account hle ha
    have hconsumed : consumed f x = units a.df := by
      rw [consumed, hstate, Option.bind_some, hrem, hunits]
      rfl
    cases l with
    | zero =>
      obtain rfl := Option.some.inj hr
      refine ⟨by simpa using hnext, by simp [hconsumed], (account_eq_ok ha).2.2.2⟩
    | succ l =>
      obtain ⟨hacc, hspent, hirq⟩ := ih (fun y hy => hmetered y (List.mem_cons_of_mem _ hy))
        hnext hr
      rw [List.take_succ_cons, List.take_succ_cons, timeOf_cons, fuelOf_cons, spent_cons,
        hconsumed, hspent, ← add_assoc, ← add_assoc]
      rw [hspent] at hacc
      exact ⟨hacc, rfl, hirq⟩

/-- The record of any cycle of a metered run, that of cycle 0 included. -/
theorem runWasm_totals {wctpf : Option U64} {env : RunEnv} {r : WasmRunnerIpc}
    (hmetered : Metered f env.resumptions)
    (hr : r ∈ (runWasm p (some f) wctpf logger env).log) :
    let log := (runWasm p (some f) wctpf logger env).log
    Totals p r.accT r.accF (timeOf (log.take (r.l + 1))) (fuelOf (log.take (r.l + 1))) ∧
      fuelOf (log.take (r.l + 1)) = spent f (env.resumptions.take r.l) ∧
        (0 < r.l → (Mitigator.forRun wctpf).mitigate p r.accT r.accF = .ok r.irq) := by
  intro log
  have hget := runWasm_getElem? hr
  obtain ⟨rest, h, hlogs⟩ := exists_logs_of_mem hr
  have hlog : log = logger.record env.start 0 .zero (initialAccount wctpf) :: rest := h
  rw [h] at hget
  rw [hlog]
  cases hl : r.l with
  | zero =>
    rw [hl] at hget
    obtain rfl := Option.some.inj hget
    exact ⟨initial_totals p, rfl, fun hlt => absurd hlt (Nat.lt_irrefl 0)⟩
  | succ l =>
    rw [hl] at hget
    obtain ⟨htotals, hspent, hirq⟩ := logs_totals hlogs hmetered (initial_totals p) hget
    have hinitial : units (initialAccount wctpf).df = 0 := rfl
    rw [List.take_succ_cons, timeOf_cons, fuelOf_cons, WasmRunLogger.record_df,
      WasmRunLogger.record_dt, hinitial]
    exact ⟨htotals, by rw [Nat.zero_add, hspent], fun _ => hirq⟩

/-- The record holds the true totals of cycles `0..l`, and its command is computed from them. -/
def Exact (p : Profile) (wctpf : Option U64) (log : List WasmRunnerIpc) (r : WasmRunnerIpc) :
    Prop :=
  r.accT.nanos = timeOf (log.take (r.l + 1)) ∧
    ∃ b, r.accF = some b ∧ b.toNat = fuelOf (log.take (r.l + 1)) ∧
      (0 < r.l → (Mitigator.forRun wctpf).mitigate p r.accT (some b) = .ok r.irq)

/-- The accounting of a metered run is exact at a record exactly when the fuel spent up
to it fits in 32 bits. -/
theorem exact_iff (p : Profile) (f : U32) (wctpf : Option U64) (logger : WasmRunLogger)
    (env : RunEnv) (hmetered : Metered f env.resumptions) (r : WasmRunnerIpc)
    (hr : r ∈ (runWasm p (some f) wctpf logger env).log) :
    Exact p wctpf (runWasm p (some f) wctpf logger env).log r ↔
      spent f (env.resumptions.take r.l) < 2 ^ 32 := by
  obtain ⟨⟨htime, b, hb, hrep⟩, hspent, hirq⟩ := runWasm_totals hmetered hr
  rw [← hspent]
  constructor
  · rintro ⟨-, c, hc, hsum, -⟩
    rw [← hsum]
    exact c.isLt
  · intro hlt
    refine ⟨htime, b, hb, hrep.toNat_of_lt hlt, ?_⟩
    rw [← hb]
    exact hirq

/-- The logger of the first run of a sweep. -/
def firstLogger (f : U32) (wctpf : U64) : WasmRunLogger :=
  ⟨.zero, some f, some wctpf, 0, 0, 0⟩

/-- Two resumptions of half a second, leaving `a` and then `b` units of fuel. -/
def twoCycles (a b : U32) : RunEnv where
  epoch := .zero
  setup := none
  start := .ofNanos 1000
  sent := true
  resumptions :=
    [⟨.ofNanos 2000, .ofNanos 500002000, some (.resumable (some a)), true, true, true⟩,
      ⟨.ofNanos 500004000, .ofNanos 1000004000, some (.finished (some b)), true, true, true⟩]

/-- The record of cycle 2 of such a run, above the worst-case 500 ps for each unit. -/
def secondRecord (f df accF : U32) : WasmRunnerIpc where
  timestamp := .ofNanos 1000004000
  fuel := some f
  wctpf := some 500
  i := 0
  j := 0
  k := 0
  l := 2
  dt := .ofNanos 500000000
  df := some df
  accT := .ofNanos 1000000000
  accF := some accF
  irq := some (.freeze 1)

/-- One and a half times 10^9 units in two cycles, at 666 ps each. -/
theorem exact_iff_short :
    Exact .checked (some 500)
        (runWasm .checked (some 1000000000) (some 500) (firstLogger 1000000000 500)
          (twoCycles 0 500000000)).log
        (secondRecord 1000000000 500000000 1500000000) ↔
      spent 1000000000 ((twoCycles 0 500000000).resumptions.take 2) < 2 ^ 32 :=
  exact_iff .checked 1000000000 (some 500) (firstLogger 1000000000 500)
    (twoCycles 0 500000000) (by decide)
    (secondRecord 1000000000 500000000 1500000000) (by decide)

/-- Six times 10^9 units at 166 ps each are taken for fewer than two times 10^9 at 586 ps,
and the intruder is frozen. -/
theorem wrapped_not_exact :
    ¬ ∀ (p : Profile) (f : U32) (wctpf : Option U64) (logger : WasmRunLogger) (env : RunEnv),
      Metered f env.resumptions → ∀ r ∈ (runWasm p (some f) wctpf logger env).log,
        Exact p wctpf (runWasm p (some f) wctpf logger env).log r := by
  intro h
  obtain ⟨-, b, hb, hsum, -⟩ := h .wrapping 3000000000 (some 500) (firstLogger 3000000000 500)
    (twoCycles 0 0) (by decide) (secondRecord 3000000000 3000000000 1705032704)
    (by decide)
  obtain rfl := Option.some.inj hb
  exact absurd hsum (by decide)

end InterferenceMitigation.FuelTotals
