import InterferenceMitigation.FuelTotals
import InterferenceMitigation.Throttling
import Mathlib.Data.Int.ConditionallyCompleteOrder
import Mathlib.Tactic.Linarith
import Mathlib.Tactic.Ring

/-!
What the Linux mitigator is for, by the argument used for the bare-metal one. A freeze only
takes effect after its record has passed through the ring and the runner, by when a few more
records may have been emitted. If a resumption takes no longer than `burst`, and one with
the group frozen costs no more than `wctpf` for each unit of fuel, then the mean cost of the
run stays within `wctpf` but for these few bursts. This is for runs whose fuel fits in 32 bits
and whose greatest time so computed fits, in picoseconds, in 64: the accumulators hold the
true sums no longer than that.
-/

namespace InterferenceMitigation.AverageKept

open MachineInt Durations FreezeControl RunWasm FuelTotals Throttling

/-- What a record adds to the picoseconds of its run above `w` for each unit of fuel. -/
def loss (w : U64) (r : WasmRunnerIpc) : ℤ := r.dt.nanos * 1000 - w.toNat * units r.df

/-- The last record asked for the group to be frozen. -/
def Freezing (log : List WasmRunnerIpc) : Prop :=
  ∃ r, log.getLast? = some r ∧ r.irq = some (.freeze 1)

theorem freezing_concat (log : List WasmRunnerIpc) (r : WasmRunnerIpc) :
    Freezing (log ++ [r]) ↔ r.irq = some (.freeze 1) := by
  simp [Freezing]

theorem timeOf_concat (log : List WasmRunnerIpc) (r : WasmRunnerIpc) :
    timeOf (log ++ [r]) = timeOf log + r.dt.nanos := by
  simp [timeOf]

theorem fuelOf_concat (log : List WasmRunnerIpc) (r : WasmRunnerIpc) :
    fuelOf (log ++ [r]) = fuelOf log + units r.df := by
  simp [fuelOf]

theorem fuelOf_prefix_le {xs ys : List WasmRunnerIpc} (h : xs <+: ys) : fuelOf xs ≤ fuelOf ys := by
  obtain ⟨zs, rfl⟩ := h
  simp [fuelOf]

theorem lateness_eq (w : U64) (log : List WasmRunnerIpc) :
    lateness (loss w) log = timeOf log * 1000 - w.toNat * fuelOf log := by
  induction log using List.reverseRecOn with
  | nil => simp
  | append_singleton log r ih =>
    rw [lateness_concat, ih, timeOf_concat, fuelOf_concat, loss]
    push_cast
    ring

/-- The environment of a run: the time a resumption may take, and the pace of those that are
not disturbed because the last `delay + 1` records were freezes. -/
def Undisturbed (w : U64) (delay burst : ℕ) (log : List WasmRunnerIpc) : Prop :=
  ∀ pre r, pre ++ [r] <+: log → r.dt.nanos ≤ burst ∧
    (Settled Freezing delay pre → r.dt.nanos * 1000 ≤ w.toNat * units r.df)

/-- All picoseconds that a run may take, its units of fuel being known, fit in 64 bits. -/
def Room (w : U64) (delay burst : ℕ) (log : List WasmRunnerIpc) : Prop :=
  (w.toNat + 1) * fuelOf log + (delay + 1) * (burst * 1000) < 2 ^ 64

variable {p : Profile} {f : U32} {w : U64} {logger : WasmRunLogger} {env : RunEnv}
variable {delay burst : ℕ}

/-- The division of `mitigate` has not panicked on a record that was emitted. -/
theorem ne_zero_of_mitigate {m : Mitigator} {t : Duration} {b : U32} {irq : Option Irq}
    (h : m.mitigate p t (some b) = .ok irq) : b ≠ 0 := by
  rintro rfl
  have hzero : (0 : U32).setWidth 64 = (0 : U64) := rfl
  simp only [Mitigator.mitigate, bind_eq_ok, map_eq_ok, avgtpf, hzero] at h
  obtain ⟨avg, ⟨q, ⟨picos, -, hdiv⟩, -⟩, -⟩ := h
  simp [div] at hdiv

/-- A record that does not freeze is emitted at a mean cost of at most `w`. -/
theorem cost_le_of_released {t : Duration} {b : U32} {irq : Option Irq}
    (hnarrow : t.nanos * 1000 < 2 ^ 64)
    (h : (Mitigator.forRun (some w)).mitigate p t (some b) = .ok irq)
    (hgo : irq ≠ some (.freeze 1)) : t.nanos * 1000 ≤ w.toNat * b.toNat + b.toNat := by
  have hb := ne_zero_of_mitigate h
  have hcall := mitigate_forRun p w ⟨t, b, hb⟩
  rw [h] at hcall
  have hirq := Except.ok.inj hcall
  have havg : picos t / b.toNat ≤ w.toNat := by
    by_contra hover
    have habove : w.toNat < (Call.mk t b hb).average := Nat.lt_of_not_le hover
    rw [decide_eq_true habove] at hirq
    exact hgo hirq
  have hpos : 0 < b.toNat := BitVec.toNat_pos_of_ne_zero hb
  have hfloor : picos t / b.toNat * b.toNat ≤ w.toNat * b.toNat := Nat.mul_le_mul_right _ havg
  have hrest := Nat.lt_div_mul_add hpos (a := picos t)
  rw [picos, Nat.mod_eq_of_lt hnarrow] at hrest hfloor
  omega

section Run

/-- The records of the run. -/
abbrev records (p : Profile) (f : U32) (w : U64) (logger : WasmRunLogger) (env : RunEnv) :
    List WasmRunnerIpc :=
  (runWasm p (some f) (some w) logger env).log

theorem records_prefix {pre : List WasmRunnerIpc} {r : WasmRunnerIpc}
    (h : pre ++ [r] <+: records p f w logger env) :
    r ∈ records p f w logger env ∧ r.l = pre.length ∧
      (records p f w logger env).take (r.l + 1) = pre ++ [r] := by
  obtain ⟨post, hpost⟩ := h
  have hmem : r ∈ records p f w logger env := by simp [← hpost]
  have hnumber := runWasm_map_l p (some f) (some w) logger env
  have hat := congrArg (fun ls : List ℕ => ls[pre.length]?) hnumber
  have hget : (records p f w logger env)[pre.length]? = some r := by simp [← hpost]
  have hlt : pre.length < (records p f w logger env).length := by simp [← hpost]
  simp only [List.getElem?_map, hget, Option.map_some, List.getElem?_range hlt,
    Option.some.injEq] at hat
  refine ⟨hmem, hat, ?_⟩
  rw [hat, ← hpost, List.take_left' (by simp)]

/-- A record in a run whose fuel fits in 32 bits: its accumulators are the true sums. -/
theorem record_exact (hmetered : Metered f env.resumptions)
    (hfits : fuelOf (records p f w logger env) < 2 ^ 32) {pre : List WasmRunnerIpc}
    {r : WasmRunnerIpc} (h : pre ++ [r] <+: records p f w logger env) :
    r.accT.nanos = timeOf (pre ++ [r]) ∧
      ∃ b, r.accF = some b ∧ b.toNat = fuelOf (pre ++ [r]) ∧
        (0 < r.l → (Mitigator.forRun (some w)).mitigate p r.accT (some b) = .ok r.irq) := by
  obtain ⟨hmem, -, htake⟩ := records_prefix h
  obtain ⟨⟨htime, b, hb, hrep⟩, -, hirq⟩ := runWasm_totals hmetered hmem
  rw [htake] at htime hrep
  have hle := fuelOf_prefix_le h
  refine ⟨htime, b, hb, hrep.toNat_of_lt (by omega), ?_⟩
  rw [← hb]
  exact hirq

/-- The record of cycle 0 is emitted before anything was executed. -/
theorem first_record {r : WasmRunnerIpc} (h : [r] <+: records p f w logger env) :
    timeOf [r] = 0 := by
  have hmem : r ∈ records p f w logger env := h.subset (List.mem_singleton_self r)
  obtain ⟨rest, hlog, -⟩ := exists_logs_of_mem hmem
  obtain ⟨post, hpost⟩ := h
  rw [records, hlog, List.singleton_append] at hpost
  obtain ⟨rfl, -⟩ := List.cons.inj hpost
  rfl

/-- What the records up to `whole` regulate, in the fuel of `whole`. -/
def Paced (w : U64) (delay burst : ℕ) (whole log : List WasmRunnerIpc) : Prop :=
  Regulated (loss w) Freezing (fuelOf whole : ℤ) ((burst * 1000 : ℕ) : ℤ) delay log

theorem loss_le (henv : Undisturbed w delay burst (records p f w logger env))
    {pre : List WasmRunnerIpc} {r : WasmRunnerIpc}
    (h : pre ++ [r] <+: records p f w logger env) :
    loss w r ≤ ((burst * 1000 : ℕ) : ℤ) ∧ (Settled Freezing delay pre → loss w r ≤ 0) := by
  obtain ⟨hburst, hquiet⟩ := henv pre r h
  unfold loss
  constructor
  · have hnonneg : (0 : ℤ) ≤ w.toNat * units r.df := by exact_mod_cast Nat.zero_le _
    push_cast
    linarith [show (r.dt.nanos : ℤ) ≤ burst by exact_mod_cast hburst]
  · intro hsettled
    have hpace := hquiet hsettled
    zify at hpace
    linarith

/-- The time up to the next record, before the mitigator has decided on it. -/
theorem Paced.next_le {whole pre : List WasmRunnerIpc} {r : WasmRunnerIpc}
    (hp : Paced w delay burst whole pre)
    (henv : Undisturbed w delay burst (records p f w logger env))
    (h : pre ++ [r] <+: records p f w logger env) :
    timeOf (pre ++ [r]) * 1000 ≤
      w.toNat * fuelOf (pre ++ [r]) + fuelOf whole + (delay + 1) * (burst * 1000) := by
  obtain ⟨hburst, hquiet⟩ := loss_le henv h
  have hlate := hp.add_le (Int.natCast_nonneg _) (Int.natCast_nonneg _) hburst hquiet
  rw [← lateness_concat, lateness_eq, nsmul_eq_mul] at hlate
  zify
  push_cast at hlate
  linarith

/-- Every prefix of the records is regulated. -/
theorem paced_of_prefix (hmetered : Metered f env.resumptions)
    (hfits : fuelOf (records p f w logger env) < 2 ^ 32)
    (hroom : Room w delay burst (records p f w logger env))
    (henv : Undisturbed w delay burst (records p f w logger env)) {whole : List WasmRunnerIpc}
    (hwhole : whole <+: records p f w logger env) {log : List WasmRunnerIpc}
    (h : log <+: whole) : Paced w delay burst whole log := by
  induction log using List.reverseRecOn with
  | nil => exact .nil
  | append_singleton log r ih =>
    have hrec : log ++ [r] <+: records p f w logger env := h.trans hwhole
    have hlog := ih ((List.prefix_append log [r]).trans h)
    obtain ⟨hburst, hquiet⟩ := loss_le henv hrec
    refine .concat hlog hburst hquiet ?_
    intro hgo
    have hfuel := fuelOf_prefix_le h
    have hall := fuelOf_prefix_le hwhole
    obtain ⟨htime, b, hb, hsum, hdecide⟩ := record_exact hmetered hfits hrec
    obtain ⟨-, hl, -⟩ := records_prefix hrec
    rw [lateness_eq]
    suffices hcost : timeOf (log ++ [r]) * 1000 ≤
        w.toNat * fuelOf (log ++ [r]) + fuelOf whole by
      zify at hcost
      linarith
    rcases Nat.eq_zero_or_pos r.l with hzero | hpos
    · obtain rfl : log = [] := List.length_eq_zero_iff.mp (hl.symm.trans hzero)
      have hnone : timeOf ([] ++ [r]) = 0 := first_record hrec
      rw [hnone, Nat.zero_mul]
      exact Nat.zero_le _
    · -- the average is exact, since no prefix is late enough to leave 64 bits
      have hnext := hlog.next_le henv hrec
      have hmul : w.toNat * fuelOf (log ++ [r]) ≤
          w.toNat * fuelOf (records p f w logger env) :=
        Nat.mul_le_mul_left _ (hfuel.trans hall)
      have hnarrow : r.accT.nanos * 1000 < 2 ^ 64 := by
        rw [Room, Nat.add_mul, Nat.one_mul] at hroom
        rw [htime]
        exact (hnext.trans (Nat.add_le_add_right (Nat.add_le_add hmul hall) _)).trans_lt hroom
      have hcost := cost_le_of_released hnarrow (hdecide hpos)
        (fun hirq => hgo ((freezing_concat log r).mpr hirq))
      rw [htime, hsum] at hcost
      omega

/-- The purpose of the Linux mitigator: the mean cost of a unit of fuel exceeds `w` by less
than the resolution of the average and the bursts that pass before a freeze takes effect. -/
theorem average_kept (p : Profile) (f : U32) (w : U64) (logger : WasmRunLogger) (env : RunEnv)
    (delay burst : ℕ) (hmetered : Metered f env.resumptions)
    (hfits : fuelOf (records p f w logger env) < 2 ^ 32)
    (hroom : Room w delay burst (records p f w logger env))
    (henv : Undisturbed w delay burst (records p f w logger env)) :
    ∀ r ∈ records p f w logger env, ∃ b, r.accF = some b ∧
      b.toNat = fuelOf ((records p f w logger env).take (r.l + 1)) ∧
      r.accT.nanos = timeOf ((records p f w logger env).take (r.l + 1)) ∧
      r.accT.nanos * 1000 ≤ (w.toNat + 1) * b.toNat + (delay + 1) * (burst * 1000) := by
  intro r hr
  obtain ⟨pre, post, hsplit⟩ := List.append_of_mem hr
  have hpre : pre ++ [r] <+: records p f w logger env := ⟨post, by rw [hsplit]; simp⟩
  obtain ⟨-, -, htake⟩ := records_prefix hpre
  obtain ⟨htime, b, hb, hsum, -⟩ := record_exact hmetered hfits hpre
  have hpaced := paced_of_prefix hmetered hfits hroom henv hpre (List.prefix_append pre [r])
  have hbound := hpaced.next_le henv hpre
  refine ⟨b, hb, by rw [htake, hsum], by rw [htake, htime], ?_⟩
  rw [← htime, ← hsum] at hbound
  rw [Nat.add_mul, Nat.one_mul]
  exact hbound

end Run

/-- Two slow resumptions, and one with the intruder frozen after both. -/
def slowedCycles : RunEnv where
  epoch := .zero
  setup := none
  start := .ofNanos 6000
  sent := true
  resumptions :=
    [⟨.ofNanos 7000, .ofNanos 900007000, some (.resumable (some 0)), true, true, true⟩,
      ⟨.ofNanos 900008000, .ofNanos 1700008000, some (.resumable (some 0)), true, true, true⟩,
      ⟨.ofNanos 1700009000, .ofNanos 1800009000, some (.finished (some 500000000)),
        true, true, true⟩]

/-- The records of such a run, with 500 ps for each unit. -/
def slowedRecords : List WasmRunnerIpc :=
  records .checked 1000000000 500 (firstLogger 1000000000 500) slowedCycles

theorem average_kept_slowed :
    slowedRecords.map (fun r => r.dt.nanos) = [0, 900000000, 800000000, 100000000] ∧
    ∀ r ∈ slowedRecords, ∃ b, r.accF = some b ∧
      b.toNat = fuelOf (slowedRecords.take (r.l + 1)) ∧
      r.accT.nanos = timeOf (slowedRecords.take (r.l + 1)) ∧
      r.accT.nanos * 1000 ≤ (500 + 1) * b.toNat + (1 + 1) * (900000000 * 1000) := by
  have hburst : ∀ r ∈ slowedRecords, r.dt.nanos ≤ 900000000 := by decide
  have hquiet : ∀ r ∈ slowedRecords, 2 < r.l → r.dt.nanos * 1000 ≤ 500 * units r.df := by decide
  have hfresh : ∀ n < 2, ((slowedRecords.take n).getLast?.bind (·.irq)) ≠ some (.freeze 1) := by
    decide
  have henv : Undisturbed 500 1 900000000 slowedRecords := by
    intro pre r hpre
    obtain ⟨hmem, hl, htake⟩ := records_prefix hpre
    refine ⟨hburst r hmem, ?_⟩
    rintro ⟨-, hon⟩
    refine hquiet r hmem ?_
    by_contra hearly
    -- one record before, the mitigator had not frozen yet
    obtain ⟨last, hlast, hirq⟩ := hon 1 le_rfl
    have hrdrop : pre.rdrop 1 = slowedRecords.take (pre.length - 1) := by
      rw [List.rdrop, List.prefix_iff_eq_take.mp ((List.prefix_append pre [r]).trans hpre),
        List.take_take]
      simp
    rw [hrdrop] at hlast
    refine hfresh (pre.length - 1) (by omega) ?_
    rw [hlast]
    exact hirq
  have hroom : Room 500 1 900000000 slowedRecords := by
    unfold Room
    decide
  exact ⟨by decide, average_kept .checked 1000000000 500 (firstLogger 1000000000 500)
    slowedCycles 1 900000000 (by decide) (by decide) hroom henv⟩

end InterferenceMitigation.AverageKept
