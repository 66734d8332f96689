import InterferenceMitigation.LoopHistory
import InterferenceMitigation.Throttling
import Mathlib.Data.Int.ConditionallyCompleteOrder
import Mathlib.Tactic.Linarith
import Mathlib.Tactic.Ring

/-!
What the bare-metal control loop is for. A stretch takes no longer than `burst`, and one with
the intruders stopped keeps pace with the budget `deadline - hyst`; the payload makes progress
and needs no more fuel in a run than the mitigator was built with. Against every such
environment the loop never aborts as long as the products of the estimate fit in 64 bits, and
no run is ever late by more than one burst and what the truncated estimate can hide; a
hysteresis that covers both keeps the deadline. The deployed hysteresis of 10 ms does not:
the truncation alone can hide 295 ms.
-/

namespace InterferenceMitigation.DeadlineKept

open MachineInt DeadlineGuard ControlLoop LoopHistory TruncatedProjection Throttling

/-- The time a run has before the hysteresis begins. -/
def budget (m : Mitigator) : ℕ := m.deadline.toNat - m.hyst.toNat

/-- What an entry adds to the lateness of its run against an even use of the budget, in
microseconds times units of fuel. -/
def loss (m : Mitigator) (e : Entry) : ℤ :=
  elapsed e * m.totalFuel.toNat - budget m * spent e

/-- The lateness that an estimate within the budget can hide. -/
def hidden (m : Mitigator) : ℕ :=
  m.totalFuel.toNat + m.totalFuel.toNat * m.totalFuel.toNat / (4 * 1000)

/-- The intruders are stopped after the entries of a run, `flag` being their state at its
beginning. -/
def Stopped (flag : Bool) (run : List Entry) : Prop :=
  (run.getLast?.elim flag fun e => Loop.store flag e.decision) = true

theorem lateness_eq (m : Mitigator) (run : List Entry) :
    lateness (loss m) run = timeOf run * m.totalFuel.toNat - budget m * fuelOf run := by
  induction run using List.reverseRecOn with
  | nil => simp [timeOf, fuelOf]
  | append_singleton run e ih =>
    rw [lateness_concat, ih, timeOf_concat, fuelOf_concat, loss]
    push_cast
    ring

/-- The products of the estimate of a run that is never later than it may be stay within
64 bits. -/
def Room (m : Mitigator) (burst : ℕ) : Prop :=
  (budget m + hidden m + burst * m.totalFuel.toNat) * 1000 < 2 ^ 64

/-- The call made after `time` and fuel `used` of a run, without wrapping. -/
def choice (m : Mitigator) (time used : ℕ) : IntruderCall :=
  if budget m < estimate time used m.totalFuel.toNat 1000 then .intruderBreak else .intruderCont

/-- The time that fuel `used` may have taken. -/
def allowed (m : Mitigator) (burst used : ℕ) : ℕ :=
  budget m * used + (hidden m + burst * m.totalFuel.toNat)

variable {m : Mitigator} {burst time used : ℕ}

theorem le_allowed {late : ℤ}
    (hlate : late = time * m.totalFuel.toNat - budget m * used)
    (h : late ≤ (hidden m : ℤ) + (0 + 1) • (burst * m.totalFuel.toNat : ℤ)) :
    time * m.totalFuel.toNat ≤ allowed m burst used := by
  simp only [Nat.zero_add, one_smul] at h
  unfold allowed
  zify
  linarith

/-- The whole delay of a run that is never later than it may be. -/
theorem time_le (hused : used ≤ m.totalFuel.toNat) (hpos : 0 < m.totalFuel.toNat)
    (h : time * m.totalFuel.toNat ≤ allowed m burst used) :
    time ≤ budget m + burst + m.totalFuel.toNat / 4000 + 2 := by
  have hquot : m.totalFuel.toNat * m.totalFuel.toNat / 4000 ≤
      (m.totalFuel.toNat / 4000 + 1) * m.totalFuel.toNat := by
    apply Nat.div_le_of_le_mul
    have hlt := Nat.lt_div_mul_add (show 0 < 4000 by omega) (a := m.totalFuel.toNat)
    calc m.totalFuel.toNat * m.totalFuel.toNat
        ≤ (m.totalFuel.toNat / 4000 * 4000 + 4000) * m.totalFuel.toNat :=
          Nat.mul_le_mul_right _ hlt.le
      _ = 4000 * ((m.totalFuel.toNat / 4000 + 1) * m.totalFuel.toNat) := by ring
  have hbudget : budget m * used ≤ budget m * m.totalFuel.toNat := Nat.mul_le_mul_left _ hused
  apply Nat.le_of_mul_le_mul_right _ hpos
  calc time * m.totalFuel.toNat
      ≤ budget m * used + (hidden m + burst * m.totalFuel.toNat) := h
    _ ≤ budget m * m.totalFuel.toNat + (m.totalFuel.toNat +
          (m.totalFuel.toNat / 4000 + 1) * m.totalFuel.toNat +
          burst * m.totalFuel.toNat) := by
        unfold hidden
        omega
    _ = (budget m + burst + m.totalFuel.toNat / 4000 + 2) * m.totalFuel.toNat := by ring

theorem allowed_le (hused : 0 < used) :
    allowed m burst used ≤ (budget m + hidden m + burst * m.totalFuel.toNat) * used := by
  have hrest : hidden m + burst * m.totalFuel.toNat ≤
      (hidden m + burst * m.totalFuel.toNat) * used := Nat.le_mul_of_pos_right _ hused
  unfold allowed
  rw [show budget m + hidden m + burst * m.totalFuel.toNat =
    budget m + (hidden m + burst * m.totalFuel.toNat) by omega, Nat.add_mul]
  omega

theorem Room.productsFit (hroom : Room m burst) {accT accF : U64} (hpos : 0 < accF.toNat)
    (hle : accF.toNat ≤ m.totalFuel.toNat)
    (h : accT.toNat * m.totalFuel.toNat ≤ allowed m burst accF.toNat) :
    m.ProductsFit accT accF := by
  have hscaled := h.trans (allowed_le hpos)
  have htotal : 0 < m.totalFuel.toNat := by omega
  have htime : accT.toNat ≤ budget m + hidden m + burst * m.totalFuel.toNat := by
    apply Nat.le_of_mul_le_mul_right _ htotal
    exact hscaled.trans (Nat.mul_le_mul_left _ hle)
  constructor
  · exact Nat.lt_of_le_of_lt (Nat.mul_le_mul_right 1000 htime) hroom
  · refine Nat.lt_of_le_of_lt ?_ hroom
    apply Nat.le_of_mul_le_mul_right _ hpos
    calc accT.toNat * 1000 / accF.toNat * (m.totalFuel.toNat - accF.toNat) * accF.toNat
        = accT.toNat * 1000 / accF.toNat * accF.toNat * (m.totalFuel.toNat - accF.toNat) := by
          ring
      _ ≤ accT.toNat * 1000 * m.totalFuel.toNat :=
          Nat.mul_le_mul (Nat.div_mul_le_self _ _) (Nat.sub_le _ _)
      _ = accT.toNat * m.totalFuel.toNat * 1000 := by ring
      _ ≤ (budget m + hidden m + burst * m.totalFuel.toNat) * accF.toNat * 1000 :=
          Nat.mul_le_mul_right 1000 hscaled
      _ = (budget m + hidden m + burst * m.totalFuel.toNat) * 1000 * accF.toNat := by ring

theorem Room.accT_fits (hroom : Room m burst) {accT : ℕ} (hused : 0 < used)
    (hle : used ≤ m.totalFuel.toNat) (h : accT * m.totalFuel.toNat ≤ allowed m burst used) :
    accT < 2 ^ 64 := by
  have htotal : 0 < m.totalFuel.toNat := by omega
  have htime : accT ≤ budget m + hidden m + burst * m.totalFuel.toNat := by
    apply Nat.le_of_mul_le_mul_right _ htotal
    exact (h.trans (allowed_le hused)).trans (Nat.mul_le_mul_left _ hle)
  unfold Room at hroom
  omega

/-- The microseconds between the clock readings of a stretch. -/
def chunkTime (c : Chunk) : ℕ := c.current.toNat - c.last.toNat

/-- A stretch that the environment may follow a history with, in which the intruders are
stopped or not as `flag` says. -/
structure Admissible (m : Mitigator) (f : U64) (burst : ℕ) (hist : List Entry) (flag : Bool)
    (c : Chunk) (rem : U64) : Prop where
  returns : ∃ state, c.state = some state ∧ state ≠ .hostCalled ∧ state.remaining = some rem
  left : rem.toNat ≤ f.toNat
  clock : c.last.toNat ≤ c.current.toNat
  burst : chunkTime c ≤ burst
  -- the payload makes progress while it runs, and needs the fuel it is declared to need
  progress : 0 < fuelOf (currentRun hist) + (f.toNat - rem.toNat)
  total : fuelOf (currentRun hist) + (f.toNat - rem.toNat) ≤ m.totalFuel.toNat
  isolated : flag = true →
    chunkTime c * m.totalFuel.toNat ≤ budget m * (f.toNat - rem.toNat)

theorem exists_settle {r : WasmRunner} (p : Profile) {state : RunState} {f rem : U64}
    (hcall : state ≠ .hostCalled) (hrem : state.remaining = some rem)
    (hfuel : r.fuelAmount = some f) (hleft : rem.toNat ≤ f.toNat) :
    ∃ kept, r.settle p state = .ok (some (f - rem), kept) := by
  cases state with
  | resumable res =>
    have hres : res.fuel = some rem := hrem
    simp only [WasmRunner.settle, hres, hfuel, zipWith_some, sub_eq_ok p hleft, Except.map, ok_bind]
    exact ⟨_, rfl⟩
  | finished left =>
    have hleft' : left = some rem := hrem
    simp only [WasmRunner.settle, hleft', hfuel, zipWith_some, sub_eq_ok p hleft, Except.map,
      ok_bind]
    exact ⟨_, rfl⟩
  | hostCalled => exact absurd rfl hcall

/-- A call of `run` that neither panics in the interpreter nor overflows returns. -/
theorem exists_run {r : WasmRunner} (p : Profile) (flag : Bool) {c : Chunk} {state : RunState}
    {f a rem : U64} (hstate : c.state = some state) (hcall : state ≠ .hostCalled)
    (hrem : state.remaining = some rem) (hfuel : r.fuelAmount = some f) (hacc : r.accF = some a)
    (hleft : rem.toNat ≤ f.toNat) (hclock : c.last.toNat ≤ c.current.toNat)
    (htime : r.accT.toNat + chunkTime c < 2 ^ 64)
    (hspent : a.toNat + (f.toNat - rem.toNat) < 2 ^ 64)
    (hrun : r.runIdx.toNat + (1 : U64).toNat < 2 ^ 64)
    (hrefuel : r.refuelIdx.toNat + (1 : U64).toNat < 2 ^ 64) :
    ∃ u r', r.run p flag c = .ok (u, r') := by
  have hdt : (c.current - c.last).toNat = chunkTime c :=
    BitVec.toNat_sub_of_le (BitVec.le_def.mpr hclock)
  have hdf : (f - rem).toNat = f.toNat - rem.toNat :=
    BitVec.toNat_sub_of_le (BitVec.le_def.mpr hleft)
  have haddT : r.accT.toNat + (c.current - c.last).toNat < 2 ^ 64 := by rwa [hdt]
  have haddF : a.toNat + (f - rem).toNat < 2 ^ 64 := by rwa [hdf]
  obtain ⟨kept, hsettle⟩ := exists_settle p hcall hrem hfuel hleft
  simp only [WasmRunner.run, hstate, hsettle, hacc, zipWith_some, sub_eq_ok p hclock,
    add_eq_ok p haddT, add_eq_ok p haddF, add_eq_ok p hrun, add_eq_ok p hrefuel, ok_bind,
    Except.map]
  cases kept with
  | none => exact ⟨_, _, rfl⟩
  | some res => exact ⟨_, _, rfl⟩

/-- A state of the loop after `hist`, with the run in progress regulated so far. -/
structure Kept (p : Profile) (m : Mitigator) (f : U64) (mainAddr burst : ℕ) (hist : List Entry)
    (s : Loop) : Prop where
  tracks : Tracks p m f mainAddr hist s
  fuel : fuelOf (currentRun hist) ≤ m.totalFuel.toNat
  regulated : ∃ flag, Regulated (loss m) (Stopped flag) (hidden m : ℤ)
    (burst * m.totalFuel.toNat) 0 (currentRun hist) ∧
      (s.intruderBreak = true ↔ Stopped flag (currentRun hist))

theorem Kept.new (p : Profile) (m : Mitigator) (f : U64) (mainAddr burst : ℕ) :
    Kept p m f mainAddr burst [] (Loop.new (some f) mainAddr) where
  tracks := Tracks.new p m f mainAddr
  fuel := Nat.zero_le _
  regulated := ⟨false, .nil, Iff.rfl⟩

theorem stopped_concat (flag : Bool) (run : List Entry) (e : Entry) :
    Stopped flag (run ++ [e]) ↔ Loop.store flag e.decision = true := by
  simp [Stopped]

theorem finishedCount_le (hist : List Entry) : finishedCount hist ≤ hist.length :=
  List.countP_le_length

theorem currentRun_length_le (hist : List Entry) : (currentRun hist).length ≤ hist.length :=
  (List.rtakeWhile_suffix _ _).length_le

section Step

variable {p : Profile} {f : U64} {mainAddr : ℕ} {hist : List Entry} {s : Loop} {c : Chunk}
  {rem : U64}

/-- What the chunk adds to the lateness is at most a burst, and nothing while the intruders
are stopped. -/
theorem Admissible.loss_le (h : Admissible m f burst hist s.intruderBreak c rem) :
    (chunkTime c * m.totalFuel.toNat : ℤ) - budget m * ((f.toNat - rem.toNat : ℕ) : ℤ) ≤
        burst * m.totalFuel.toNat ∧
      (s.intruderBreak = true →
        (chunkTime c * m.totalFuel.toNat : ℤ) -
          budget m * ((f.toNat - rem.toNat : ℕ) : ℤ) ≤ 0) := by
  constructor
  · have hmul : chunkTime c * m.totalFuel.toNat ≤ burst * m.totalFuel.toNat :=
      Nat.mul_le_mul_right _ h.burst
    have hnonneg : (0 : ℤ) ≤ budget m * ((f.toNat - rem.toNat : ℕ) : ℤ) := by
      exact_mod_cast Nat.zero_le _
    zify at hmul
    linarith
  · intro hstopped
    have hkeep := h.isolated hstopped
    zify at hkeep
    linarith

/-- With the next chunk the run is still no later than it may be. -/
theorem Kept.next_le (hk : Kept p m f mainAddr burst hist s)
    (h : Admissible m f burst hist s.intruderBreak c rem) :
    (timeOf (currentRun hist) + chunkTime c) * m.totalFuel.toNat ≤
      allowed m burst (fuelOf (currentRun hist) + (f.toNat - rem.toNat)) := by
  obtain ⟨flag, hreg, hflag⟩ := hk.regulated
  obtain ⟨hburst, hquiet⟩ := h.loss_le
  have hslack : (0 : ℤ) ≤ hidden m := by exact_mod_cast Nat.zero_le _
  have hpos : (0 : ℤ) ≤ burst * m.totalFuel.toNat := by exact_mod_cast Nat.zero_le _
  refine le_allowed ?_ (hreg.add_le hslack hpos hburst fun hsettled => ?_)
  · rw [lateness_eq]
    push_cast
    ring
  · exact hquiet (hflag.mpr (by simpa using hsettled.2 0 le_rfl))

theorem Admissible.metered (h : Admissible m f burst hist s.intruderBreak c rem) : c.Metered := by
  intro state hstate _
  obtain ⟨state', hstate', -, hrem⟩ := h.returns
  obtain rfl : state = state' := Option.some.inj (hstate.symm.trans hstate')
  exact ⟨rem, hrem⟩

/-- The runner returns from an admissible chunk, with the totals of the run in its update. -/
theorem Kept.exists_update (hk : Kept p m f mainAddr burst hist s)
    (h : Admissible m f burst hist s.intruderBreak c rem) (hroom : Room m burst)
    (hlen : hist.length + 1 < 2 ^ 64) :
    ∃ u r' total, s.runner.run p s.intruderBreak c = .ok (u, r') ∧ u.fuel = some f ∧
      u.dt.toNat = chunkTime c ∧ u.df = some (f - rem) ∧
      u.accT.toNat = timeOf (currentRun hist) + chunkTime c ∧ u.accF = some total ∧
      total.toNat = fuelOf (currentRun hist) + (f.toNat - rem.toNat) := by
  obtain ⟨state, hstate, hcall, hrem⟩ := h.returns
  have htime := hroom.accT_fits h.progress h.total (hk.next_le h)
  have hfuel : fuelOf (currentRun hist) + (f.toNat - rem.toNat) < 2 ^ 64 :=
    Nat.lt_of_le_of_lt h.total m.totalFuel.isLt
  have haccT : s.runner.accT.toNat = timeOf (currentRun hist) :=
    hk.tracks.accT.toNat_of_lt (by omega)
  obtain ⟨a, ha, harep⟩ := hk.tracks.accF
  have haccF : a.toNat = fuelOf (currentRun hist) := harep.toNat_of_lt (by omega)
  have hfinished := finishedCount_le hist
  have hlength := currentRun_length_le hist
  have hone : (1 : U64).toNat = 1 := rfl
  have hrunIdx : s.runner.runIdx.toNat = finishedCount hist :=
    hk.tracks.runIdx.toNat_of_lt (by omega)
  have hrefuelIdx : s.runner.refuelIdx.toNat = (currentRun hist).length :=
    hk.tracks.refuelIdx.toNat_of_lt (by omega)
  obtain ⟨u, r', hrun⟩ := exists_run p s.intruderBreak hstate hcall hrem hk.tracks.fuelAmount ha
    h.left h.clock (by omega) (by omega) (by omega) (by omega)
  obtain ⟨rem', d, total, ran⟩ := WasmRunner.run_inv hk.tracks.fuelAmount ha h.metered hrun
  have hrem' : rem' = rem := by
    have hremaining := ran.remaining
    rw [Chunk.remaining, hstate, Option.bind_some, hrem] at hremaining
    exact (Option.some.inj hremaining).symm
  subst hrem'
  have hdt : u.dt.toNat = chunkTime c := ran.dt.toNat_of_le h.clock
  have hd : d.toNat = f.toNat - rem'.toNat := ran.spent.toNat_of_le h.left
  refine ⟨u, r', total, hrun, ran.fuel, hdt, ?_, ?_, ran.accF, ?_⟩
  · rw [ran.df, ran.spent.1]
  · rw [eq_add_of_add ran.accT, BitVec.toNat_add_of_lt (by omega), haccT, hdt]
  · rw [eq_add_of_add ran.addF, BitVec.toNat_add_of_lt (by omega), haccF, hd]

/-- An iteration of the loop over an admissible chunk: it returns, and its decision is the
comparison of the estimate for the totals of the run. -/
theorem Kept.exists_step (hk : Kept p m f mainAddr burst hist s)
    (h : Admissible m f burst hist s.intruderBreak c rem) (hroom : Room m burst)
    (hhyst : m.hyst.toNat ≤ m.deadline.toNat) (hlen : hist.length + 1 < 2 ^ 64) :
    ∃ e s', Loop.step p m s c = .ok (e, s') ∧ elapsed e = chunkTime c ∧
      spent e = f.toNat - rem.toNat ∧
      e.update.accT.toNat = timeOf (currentRun hist) + chunkTime c ∧
      e.decision = some (choice m (timeOf (currentRun hist) + chunkTime c)
        (fuelOf (currentRun hist) + (f.toNat - rem.toNat))) := by
  obtain ⟨u, r', total, hrun, hfuel, hdt, hdf, haccT, haccF, htotal⟩ :=
    hk.exists_update h hroom hlen
  have hpos : 0 < total.toNat := by
    rw [htotal]
    exact h.progress
  have hle : total.toNat ≤ m.totalFuel.toNat := by
    rw [htotal]
    exact h.total
  have hfit : m.ProductsFit u.accT total := by
    apply hroom.productsFit hpos hle
    rw [haccT, htotal]
    exact hk.next_le h
  have hne : total ≠ 0 := fun hzero => by simp [hzero] at hpos
  have hdecide : m.mitigate p u = .ok (some (choice m u.accT.toNat total.toNat)) :=
    m.mitigate_eq p hfuel haccF hne hle hhyst hfit
  rw [haccT, htotal] at hdecide
  have hspent : (f - rem).toNat = f.toNat - rem.toNat :=
    BitVec.toNat_sub_of_le (BitVec.le_def.mpr h.left)
  have hstep (decision : Option IntruderCall) (h : m.mitigate p u = .ok decision) :
      Loop.step p m s c = .ok (⟨c, s.runner.call, u, decision⟩,
        ⟨r', Loop.store s.intruderBreak decision⟩) := by
    simp only [Loop.step, hrun, ok_bind, h]
    rfl
  refine ⟨_, _, hstep _ hdecide, hdt, ?_, haccT, rfl⟩
  simp only [spent, hdf, Option.getD_some, hspent]

/-- While the intruders go on the run is late by no more than the estimate can hide. -/
theorem lateness_le_of_released {run : List Entry} {flag : Bool} {e : Entry}
    (hchoice : e.decision = some (choice m (timeOf (run ++ [e])) (fuelOf (run ++ [e]))))
    (hpos : 0 < fuelOf (run ++ [e])) (hle : fuelOf (run ++ [e]) ≤ m.totalFuel.toNat)
    (hgo : ¬ Stopped flag (run ++ [e])) : lateness (loss m) (run ++ [e]) ≤ hidden m := by
  have hest : estimate (timeOf (run ++ [e])) (fuelOf (run ++ [e])) m.totalFuel.toNat 1000 ≤
      budget m := by
    by_contra hover
    apply hgo
    rw [stopped_concat, hchoice, choice, if_pos (Nat.lt_of_not_le hover)]
    rfl
  have hlate := spent_le_of_estimate_le hpos (show 0 < 1000 by omega) hle hest
  rw [lateness_eq]
  have hsum : timeOf (run ++ [e]) * m.totalFuel.toNat ≤
      budget m * fuelOf (run ++ [e]) + hidden m := hlate
  zify at hsum
  linarith

/-- An iteration keeps the run regulated, or begins the next one, and its update is within
the time the run may take. -/
theorem Kept.step (hk : Kept p m f mainAddr burst hist s)
    (h : Admissible m f burst hist s.intruderBreak c rem) (hroom : Room m burst)
    (hhyst : m.hyst.toNat ≤ m.deadline.toNat) (hlen : hist.length + 1 < 2 ^ 64) :
    ∃ e s', Loop.step p m s c = .ok (e, s') ∧ Kept p m f mainAddr burst (hist ++ [e]) s' ∧
      e.update.accT.toNat = timeOf (currentRun hist ++ [e]) ∧
      e.update.accT.toNat ≤ budget m + burst + m.totalFuel.toNat / 4000 + 2 := by
  obtain ⟨e, s', hstep, helapsed, hspent, haccT, hdecision⟩ := hk.exists_step h hroom hhyst hlen
  have hsame : timeOf (currentRun hist ++ [e]) = timeOf (currentRun hist) + chunkTime c := by
    rw [timeOf_concat, helapsed]
  have hfuel : fuelOf (currentRun hist ++ [e]) =
      fuelOf (currentRun hist) + (f.toNat - rem.toNat) := by
    rw [fuelOf_concat, hspent]
  have htime := hk.next_le h
  rw [← hsame, ← hfuel] at htime
  have hprogress := h.progress
  have htotal := h.total
  rw [← hsame, ← hfuel] at hdecision
  rw [← hfuel] at hprogress htotal
  obtain ⟨-, htracks⟩ := hk.tracks.step h.metered hstep
  obtain ⟨a, ha, -⟩ := hk.tracks.accF
  obtain ⟨hchunk, -, ⟨rem', d, total, ran⟩, -, hstore⟩ :=
    step_inv hk.tracks.fuelAmount ha h.metered hstep
  refine ⟨e, s', hstep, ?_, by rw [haccT, hsame], ?_⟩
  · obtain ⟨flag, hreg, hflag⟩ := hk.regulated
    rcases ran.next with ⟨res, hstate, -⟩ | ⟨left, hstate, -⟩
    · rw [← hchunk] at hstate
      obtain ⟨hburst, hquiet⟩ := h.loss_le
      have hloss : loss m e = (chunkTime c * m.totalFuel.toNat : ℤ) -
          budget m * ((f.toNat - rem.toNat : ℕ) : ℤ) := by
        rw [loss, helapsed, hspent]
      refine ⟨htracks, ?_, flag, ?_, ?_⟩
      · rw [currentRun_resumable hist hstate]
        exact htotal
      · rw [currentRun_resumable hist hstate]
        refine .concat hreg ?_ ?_ (lateness_le_of_released hdecision hprogress htotal)
        · rw [hloss]
          exact hburst
        · intro hsettled
          rw [hloss]
          exact hquiet (hflag.mpr (by simpa using hsettled.2 0 le_rfl))
      · rw [currentRun_resumable hist hstate, stopped_concat, hstore, hdecision]
        cases choice m (timeOf (currentRun hist ++ [e])) (fuelOf (currentRun hist ++ [e])) <;> rfl
    · rw [← hchunk] at hstate
      refine ⟨htracks, ?_, s'.intruderBreak, ?_, ?_⟩
      · rw [currentRun_finished hist hstate]
        exact Nat.zero_le _
      · rw [currentRun_finished hist hstate]
        exact .nil
      · rw [currentRun_finished hist hstate]
        exact Iff.rfl
  · rw [haccT, ← hsame]
    exact time_le htotal (by omega) htime

end Step

end InterferenceMitigation.DeadlineKept
