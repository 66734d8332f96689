import InterferenceMitigation.Durations
import InterferenceMitigation.Hysteresis

/-!
The mitigator of the Linux runner. From the time and fuel of a run it computes the
mean time per unit of fuel in picoseconds and asks for the intruder's group to be
frozen above the worst-case value `wctpf` and unfrozen a tenth below it. In between
it answers with the command it remembers, but nothing ever changes what it remembers.
-/

namespace InterferenceMitigation.FreezeControl

open MachineInt Durations Hysteresis

/-- A request to the runner about the process group of the given number. -/
inductive Irq
  | freeze (group : ℕ)
  | unfreeze (group : ℕ)
  deriving DecidableEq, Repr

structure Mitigator where
  wctpf : Option U64
  wctpfHyst : U64
  lastIrq : Option Irq
  deriving DecidableEq, Repr

/-- The mean time per unit of fuel in picoseconds, narrowed to 64 bits before the
division. -/
def avgtpf (p : Profile) (accT : Duration) (accF : U32) : Except Panic U64 := do
  let picos ← mul p accT.asNanos 1000
  div (picos.setWidth 64) (accF.setWidth 64)

namespace Mitigator

def new (wctpf : Option U64) (wctpfHyst : U64) : Mitigator :=
  ⟨wctpf, wctpfHyst, some (.unfreeze 1)⟩

/-- The mitigator `run_wasm` constructs. -/
def forRun (wctpf : Option U64) : Mitigator := new wctpf ((wctpf.map (· / 10)).getD 0)

def mitigate (m : Mitigator) (p : Profile) (accT : Duration) (accF : Option U32) :
    Except Panic (Option Irq) := do
  let avg ← match accF with
    | some accF => (avgtpf p accT accF).map some
    | none => .ok none
  match m.wctpf, avg with
  | some wctpf, some avg =>
    if avg > wctpf then
      return some (.freeze 1)
    else
      let low ← sub p wctpf m.wctpfHyst
      if avg < low then
        return some (.unfreeze 1)
      else
        return m.lastIrq
  | _, _ => return none

end Mitigator

/-- The picoseconds of a duration that are left after the narrowing cast. -/
def picos (t : Duration) : ℕ := t.nanos * 1000 % 2 ^ 64

theorem picos_fit (t : Duration) : t.asNanos.toNat * (1000 : U128).toNat < 2 ^ 128 := by
  have hbound : bound * 1000 < 2 ^ 128 := by decide
  rw [Duration.toNat_asNanos]
  exact Nat.lt_trans (Nat.mul_lt_mul_of_pos_right t.lt_bound (by decide)) hbound

theorem avgtpf_eq (p : Profile) (t : Duration) {f : U32} (hf : f ≠ 0) :
    ∃ avg, avgtpf p t f = .ok avg ∧ avg.toNat = picos t / f.toNat := by
  have hfit := picos_fit t
  have hden : (f.setWidth 64).toNat = f.toNat := BitVec.toNat_setWidth_of_le (by omega)
  have hwide : f.setWidth 64 ≠ 0 := by
    rw [Ne, ← toNat_eq_zero_iff, hden, toNat_eq_zero_iff]
    exact hf
  refine ⟨(t.asNanos * 1000).setWidth 64 / f.setWidth 64, ?_, ?_⟩
  · simp only [avgtpf, mul_eq_ok p hfit, ok_bind, div_eq_ok hwide]
  · have hnum : ((t.asNanos * 1000).setWidth 64).toNat = picos t := by
      rw [BitVec.toNat_setWidth, BitVec.toNat_mul_of_lt hfit, Duration.toNat_asNanos]
      rfl
    rw [BitVec.toNat_udiv, hnum, hden]

/-- A call of `mitigate` during a metered run, after some fuel has been spent. -/
structure Call where
  accT : Duration
  accF : U32
  spent : accF ≠ 0

def Call.average (c : Call) : ℕ := picos c.accT / c.accF.toNat

/-- The command for group 1 that an output of the trigger stands for. -/
def command (frozen : Bool) : Option Irq := some (if frozen then .freeze 1 else .unfreeze 1)

/-- The commands of successive calls on one mitigator; `mitigate` borrows it immutably. -/
def commands (p : Profile) (m : Mitigator) (calls : List Call) : Except Panic (List (Option Irq)) :=
  calls.mapM fun c => m.mitigate p c.accT (some c.accF)

/-- The remembered command is the initial one, so every call is a single comparison. -/
theorem mitigate_forRun (p : Profile) (w : U64) (c : Call) :
    (Mitigator.forRun (some w)).mitigate p c.accT (some c.accF) =
      .ok (command (decide (w.toNat < c.average))) := by
  obtain ⟨avg, havg, hval⟩ := avgtpf_eq p c.accT c.spent
  have hlow : (w / 10).toNat ≤ w.toNat := by
    rw [BitVec.toNat_udiv]
    exact Nat.div_le_self _ _
  have habove : avg > w ↔ w.toNat < c.average := by
    rw [gt_iff_lt, BitVec.lt_def, hval]
    rfl
  simp only [Mitigator.mitigate, havg, Except.map, ok_bind, Mitigator.forRun, Mitigator.new,
    Option.map_some, Option.getD_some, sub_eq_ok p hlow, habove]
  by_cases h : w.toNat < c.average
  · simp [h, command, pure, Except.pure]
  · simp [h, command, pure, Except.pure]

theorem commands_eq (p : Profile) (w : U64) (calls : List Call) :
    commands p (.forRun (some w)) calls =
      .ok ((calls.map fun c => decide (w.toNat < c.average)).map command) := by
  rw [List.map_map]
  exact mapM_eq_ok fun c _ => mitigate_forRun p w c

theorem command_injective : Function.Injective command := by
  intro a b h
  cases a <;> cases b <;> simp_all [command]

/-- The picoseconds of the call amount to more than `w` for every unit of fuel. -/
def Call.Above (w : U64) (c : Call) : Prop := (w.toNat + 1) * c.accF.toNat ≤ picos c.accT

/-- They amount to less than `w` and a tenth of it less for every unit of fuel. -/
def Call.Below (w : U64) (c : Call) : Prop :=
  picos c.accT < (w.toNat - w.toNat / 10) * c.accF.toNat

theorem Call.accF_pos (c : Call) : 0 < c.accF.toNat :=
  BitVec.toNat_pos_of_ne_zero c.spent

theorem Call.above_iff (w : U64) (c : Call) : c.Above w ↔ w.toNat < c.average :=
  (Nat.le_div_iff_mul_le c.accF_pos).symm

theorem Call.below_iff (w : U64) (c : Call) :
    c.Below w ↔ c.average < w.toNat - w.toNat / 10 :=
  (Nat.div_lt_iff_lt_mul c.accF_pos).symm

/-- The commands follow the hysteresis rule, from an initial unfreeze, exactly when no
call in the band between the thresholds comes right after a call above it. -/
theorem commands_hysteresis_iff (p : Profile) (w : U64) (calls : List Call) :
    commands p (.forRun (some w)) calls =
        .ok ((outputs (w.toNat - w.toNat / 10) w.toNat false
          (calls.map Call.average)).map command) ↔
      calls.IsChain (fun a b => a.Above w → b.Below w ∨ b.Above w) := by
  have hmap : (calls.map fun c => decide (w.toNat < c.average)) =
      (calls.map Call.average).map fun a => decide (w.toNat < a) := by
    rw [List.map_map]
    rfl
  rw [commands_eq, Except.ok.injEq, (List.map_injective_iff.mpr command_injective).eq_iff, hmap,
    eq_comm, outputs_eq_decide_iff, List.isChain_map]
  simp only [Call.above_iff, Call.below_iff]

/-- One hundred units at 110 ps each, then two hundred at 95 ps each. -/
def chattering : List Call :=
  [⟨.ofNanos 11, 100, by decide⟩, ⟨.ofNanos 19, 200, by decide⟩]

/-- With `wctpf = 100` the second call is in the band and should keep the group frozen. -/
theorem chattering_not_hysteresis :
    ¬ ∀ (p : Profile) (w : U64) (calls : List Call),
      commands p (.forRun (some w)) calls =
        .ok ((outputs (w.toNat - w.toNat / 10) w.toNat false
          (calls.map Call.average)).map command) := by
  intro h
  exact absurd (h .wrapping 100 chattering) (by decide)

end InterferenceMitigation.FreezeControl
