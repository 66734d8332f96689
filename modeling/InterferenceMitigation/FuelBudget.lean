import InterferenceMitigation.LoopHistory

/-!
The operands of the mitigator's division and subtraction, over whole executions of
the control loop. They are the true time and fuel of the current run as long as the
run has spent some fuel and no more than the budget the mitigator was built with, and
the products of the estimate stay within 64 bits. Nothing in the loop enforces these
bounds: the budget is a constant measured beforehand, the first stretch of a run may
spend nothing, and it may take long for what little it spends.
-/

namespace InterferenceMitigation.FuelBudget

open MachineInt DeadlineGuard ControlLoop LoopHistory TruncatedProjection

/-- The interpreter returned, with no more fuel left than it had been granted. -/
def WithinGrant (f : U64) (c : Chunk) : Prop :=
  ∃ rem, c.remaining = some rem ∧ rem.toNat ≤ f.toNat

/-- The clock readings of a list of stretches, in the order they are taken. -/
def readings (chunks : List Chunk) : List ℕ :=
  chunks.flatMap fun c => [c.last.toNat, c.current.toNat]

/-- The stretches of the run that is in progress after `chunks`. -/
def openRun (chunks : List Chunk) : List Chunk := chunks.rtakeWhile Chunk.isResumable

def stretchFuel (f : U64) (c : Chunk) : ℕ := f.toNat - (c.remaining.getD 0).toNat

def stretchTime (c : Chunk) : ℕ := c.current.toNat - c.last.toNat

/-- The fuel its run has spent when stretch `c` ends. -/
def runFuel (f : U64) (chunks : List Chunk) (c : Chunk) : ℕ :=
  ((openRun chunks ++ [c]).map (stretchFuel f)).sum

/-- The time its run has taken when stretch `c` ends. -/
def runTime (chunks : List Chunk) (c : Chunk) : ℕ :=
  ((openRun chunks ++ [c]).map stretchTime).sum

theorem WithinGrant.metered {f : U64} {c : Chunk} (h : WithinGrant f c) : c.Metered := by
  intro state hstate _
  obtain ⟨rem, hrem, _⟩ := h
  simp only [Chunk.remaining, hstate, Option.bind_some] at hrem
  exact ⟨rem, hrem⟩

theorem readings_append (xs ys : List Chunk) :
    readings (xs ++ ys) = readings xs ++ readings ys := List.flatMap_append

theorem last_le_current {chunks : List Chunk} (h : (readings chunks).Pairwise (· ≤ ·))
    {c : Chunk} (hc : c ∈ chunks) : c.last.toNat ≤ c.current.toNat := by
  obtain ⟨pre, post, rfl⟩ := List.append_of_mem hc
  rw [readings_append] at h
  have hpost := (List.pairwise_append.mp h).2.1
  simp only [readings, List.flatMap_cons, List.cons_append, List.nil_append,
    List.pairwise_cons] at hpost
  exact hpost.1 _ (List.mem_cons_self ..)

/-- Stretches between ordered readings take no more time than the readings span. -/
theorem stretchTime_sum_le {chunks : List Chunk} (h : (readings chunks).Pairwise (· ≤ ·))
    (lo hi : ℕ) (hle : lo ≤ hi) (hlo : ∀ r ∈ readings chunks, lo ≤ r)
    (hhi : ∀ r ∈ readings chunks, r ≤ hi) :
    lo + (chunks.map stretchTime).sum ≤ hi := by
  induction chunks generalizing lo with
  | nil => simpa using hle
  | cons c chunks ih =>
    simp only [readings, List.flatMap_cons, List.cons_append, List.nil_append,
      List.pairwise_cons] at h
    have hlast := hlo c.last.toNat (by simp [readings])
    have hcurrent := hhi c.current.toNat (by simp [readings])
    have horder : c.last.toNat ≤ c.current.toNat := h.1 _ (List.mem_cons_self ..)
    have hrest := ih h.2.2 c.current.toNat hcurrent h.2.1
      (fun r hr => hhi r (by
        simp only [readings, List.flatMap_cons, List.mem_append]
        exact Or.inr hr))
    simp only [List.map_cons, List.sum_cons, stretchTime] at hrest ⊢
    omega

theorem openRun_suffix (chunks : List Chunk) : openRun chunks <:+ chunks :=
  List.rtakeWhile_suffix _ _

theorem runTime_lt {chunks : List Chunk} {c : Chunk}
    (h : (readings (chunks ++ [c])).Pairwise (· ≤ ·)) : runTime chunks c < 2 ^ 64 := by
  obtain ⟨pre, hpre⟩ := openRun_suffix chunks
  have hsplit : readings (chunks ++ [c]) = readings pre ++ readings (openRun chunks ++ [c]) := by
    rw [← readings_append, ← List.append_assoc, hpre]
  rw [hsplit] at h
  have hlast : ∀ r ∈ readings (openRun chunks ++ [c]), r ≤ 2 ^ 64 - 1 := by
    intro r hr
    simp only [readings, List.mem_flatMap, List.mem_cons, List.not_mem_nil, or_false] at hr
    obtain ⟨c, _, rfl | rfl⟩ := hr <;> omega
  have hbound := stretchTime_sum_le (List.pairwise_append.mp h).2.1 0 (2 ^ 64 - 1) (by omega)
    (fun _ _ => Nat.zero_le _) hlast
  unfold runTime
  omega

/-- The entries of the current run come from the stretches of the open run. -/
theorem currentRun_chunks (log : List Entry) :
    (currentRun log).map Entry.chunk = openRun (log.map Entry.chunk) := by
  induction log using List.reverseRecOn with
  | nil => rfl
  | append_singleton log e ih =>
    simp only [currentRun, openRun, List.map_append, List.map_cons, List.map_nil,
      List.rtakeWhile_concat]
    by_cases hres : e.chunk.isResumable = true
    · simpa [hres, currentRun, openRun] using ih
    · simp [hres]

/-- The log's time and fuel of the current run are those of the inputs. -/
theorem totals_eq {f : U64} {log : List Entry}
    (hfuel : ∀ e ∈ log, spent e = stretchFuel f e.chunk)
    (htime : ∀ e ∈ log, elapsed e = stretchTime e.chunk) :
    fuelOf (currentRun log) =
        ((openRun (log.map Entry.chunk)).map (stretchFuel f)).sum ∧
      timeOf (currentRun log) =
        ((openRun (log.map Entry.chunk)).map stretchTime).sum := by
  have hmem : ∀ e ∈ currentRun log, e ∈ log := fun e he =>
    (List.rtakeWhile_suffix _ log).subset he
  simp only [← currentRun_chunks, List.map_map, fuelOf, timeOf]
  constructor
  · congr 1
    exact List.map_congr_left fun e he => hfuel e (hmem e he)
  · congr 1
    exact List.map_congr_left fun e he => htime e (hmem e he)

theorem inputs_of_replays {p : Profile} {m : Mitigator} {f : U64} {mainAddr : ℕ}
    {pre : List Entry} {e : Entry} (h : Replays p m f mainAddr pre e)
    (hgrant : WithinGrant f e.chunk) (hclock : e.chunk.last.toNat ≤ e.chunk.current.toNat) :
    spent e = stretchFuel f e.chunk ∧ elapsed e = stretchTime e.chunk := by
  obtain ⟨rem, hrem, hle⟩ := hgrant
  obtain ⟨rem', d, hrem', hd, hdiff⟩ := h.df
  obtain rfl : rem = rem' := Option.some.inj (hrem.symm.trans hrem')
  constructor
  · simp [spent, stretchFuel, hd, hrem, hdiff.toNat_of_le hle]
  · exact h.dt.toNat_of_le hclock

/-- The decision of `mitigate` on an update is taken on the true `time` and `fuel`: the
divisor is not zero and the subtraction does not underflow; no operation of the estimate
leaves 64 bits, so that a build which traps overflow computes the same; and the outcome is
that of the computation on natural numbers. -/
def DecidesOnTrueValues (p : Profile) (m : Mitigator) (u : RefuelUpdate)
    (time fuel : ℕ) : Prop :=
  u.accT.toNat = time ∧
    ∃ accF est, u.accF = some accF ∧ accF.toNat = fuel ∧ accF ≠ 0 ∧
      accF.toNat ≤ m.totalFuel.toNat ∧
      m.estT .checked u.accT accF = .ok est ∧ m.estT p u.accT accF = .ok est ∧
      est.toNat = estimate time fuel m.totalFuel.toNat 1000 ∧
      m.mitigate p u = .ok (some
        (if m.deadline.toNat - m.hyst.toNat < estimate time fuel m.totalFuel.toNat 1000
          then .intruderBreak else .intruderCont))

/-- A run that has spent some fuel, no more than the budget, in a time for which no product
of the estimate leaves 64 bits. -/
def Estimable (m : Mitigator) (time fuel : ℕ) : Prop :=
  0 < fuel ∧ fuel ≤ m.totalFuel.toNat ∧ time * 1000 < 2 ^ 64 ∧
    time * 1000 / fuel * (m.totalFuel.toNat - fuel) < 2 ^ 64

instance (m : Mitigator) (time fuel : ℕ) : Decidable (Estimable m time fuel) :=
  inferInstanceAs (Decidable (_ ∧ _))

/-- What the runner hands to the mitigator in the iteration after `chunks`. -/
theorem update_represents {p : Profile} {m : Mitigator} {f : U64} {mainAddr : ℕ}
    {chunks : List Chunk} {c : Chunk} {log : List Entry} {s : Loop} {u : RefuelUpdate}
    {r : WasmRunner} (hgrant : ∀ c' ∈ chunks ++ [c], WithinGrant f c')
    (hclock : (readings (chunks ++ [c])).Pairwise (· ≤ ·))
    (hreach : Loop.run p m (Loop.new (some f) mainAddr) chunks = .ok (log, s))
    (hrun : s.runner.run p s.intruderBreak c = .ok (u, r)) :
    u.fuel = some f ∧ Represents p u.accT (runTime chunks c) ∧
      ∃ accF, u.accF = some accF ∧ Represents p accF (runFuel f chunks c) := by
  have hmeter : ∀ c' ∈ chunks, c'.Metered := fun c' hc =>
    (hgrant c' (List.mem_append_left _ hc)).metered
  obtain ⟨hreplay, htracks⟩ := (Tracks.new p m f mainAddr).run hmeter hreach
  simp only [List.nil_append] at hreplay htracks
  have hchunks := run_chunks hreach
  have hinputs : ∀ e ∈ log, spent e = stretchFuel f e.chunk ∧ elapsed e = stretchTime e.chunk := by
    intro e he
    obtain ⟨pre, post, hsplit⟩ := List.append_of_mem he
    have hmem : e.chunk ∈ chunks ++ [c] := by
      rw [← hchunks]
      exact List.mem_append_left _ (List.mem_map_of_mem he)
    exact inputs_of_replays (hreplay pre e post hsplit) (hgrant _ hmem)
      (last_le_current hclock hmem)
  obtain ⟨hfuel, htime⟩ := totals_eq (fun e he => (hinputs e he).1) (fun e he => (hinputs e he).2)
  rw [hchunks] at hfuel htime
  obtain ⟨a, ha, hrep⟩ := htracks.accF
  have hc : c ∈ chunks ++ [c] := by simp
  obtain ⟨rem, d, total, ran⟩ :=
    WasmRunner.run_inv htracks.fuelAmount ha (hgrant c hc).metered hrun
  obtain ⟨rem', hrem', hle⟩ := hgrant c hc
  obtain rfl : rem = rem' := Option.some.inj (ran.remaining.symm.trans hrem')
  have hd : d.toNat = stretchFuel f c := by
    simp [stretchFuel, hrem', ran.spent.toNat_of_le hle]
  have hdt : u.dt.toNat = stretchTime c := ran.dt.toNat_of_le (last_le_current hclock hc)
  refine ⟨ran.fuel, ?_, total, ran.accF, ?_⟩
  · have hadd := htracks.accT.add ran.accT
    simpa [runTime, htime, hdt] using hadd
  · have hadd := hrep.add ran.addF
    simpa [runFuel, hfuel, hd] using hadd

/-- In every iteration that is reached, the mitigator computes on true values exactly
when the run has spent some fuel and no more than the budget, and has not taken so long that
a product leaves 64 bits. -/
theorem decidesOnTrueValues_iff (p : Profile) (m : Mitigator) (f : U64) (mainAddr : ℕ)
    (chunks : List Chunk) (c : Chunk) (log : List Entry) (s : Loop) (u : RefuelUpdate)
    (r : WasmRunner) (hhyst : m.hyst.toNat ≤ m.deadline.toNat)
    (hgrant : ∀ c' ∈ chunks ++ [c], WithinGrant f c')
    (hclock : (readings (chunks ++ [c])).Pairwise (· ≤ ·))
    (hreach : Loop.run p m (Loop.new (some f) mainAddr) chunks = .ok (log, s))
    (hrun : s.runner.run p s.intruderBreak c = .ok (u, r)) :
    DecidesOnTrueValues p m u (runTime chunks c) (runFuel f chunks c) ↔
      Estimable m (runTime chunks c) (runFuel f chunks c) := by
  obtain ⟨hfuel, hT, accF, hacc, hF⟩ := update_represents hgrant hclock hreach hrun
  constructor
  · rintro ⟨htime, accF', est, hacc', heq, hne, hle, hest, -⟩
    obtain ⟨-, -, hfit⟩ := m.estT_fits hest
    unfold Mitigator.ProductsFit at hfit
    rw [htime, heq] at hfit
    rw [heq] at hle
    have hpos := BitVec.toNat_pos_of_ne_zero hne
    rw [heq] at hpos
    exact ⟨hpos, hle, hfit⟩
  · rintro ⟨hpos, hle, hfit⟩
    have htime := hT.toNat_of_lt (runTime_lt hclock)
    have hvalue := hF.toNat_of_lt (Nat.lt_of_le_of_lt hle m.totalFuel.isLt)
    rw [← hvalue] at hpos hle hfit ⊢
    rw [← htime] at hfit ⊢
    have hne : accF ≠ 0 := by
      rintro rfl
      exact absurd hpos (by decide)
    obtain ⟨est, hest, hval⟩ := m.estT_eq .checked hne hle hfit
    obtain ⟨est', hest', hval'⟩ := m.estT_eq p hne hle hfit
    obtain rfl : est = est' := BitVec.eq_of_toNat_eq (hval.trans hval'.symm)
    exact ⟨rfl, accF, est, hacc, rfl, hne, hle, hest, hest', hval,
      m.mitigate_eq p hfuel hacc hne hle hhyst hfit⟩

theorem drained_withinGrant : ∀ c' ∈ [drained] ++ [drained], WithinGrant 10 c' := by
  intro c' hc
  simp only [List.cons_append, List.nil_append, List.mem_cons, List.not_mem_nil, or_false,
    or_self] at hc
  subst hc
  exact ⟨0, rfl, by decide⟩

/-- The second of two stretches of ten units, under a budget of twenty. -/
theorem decidesOnTrueValues_iff_drained :
    DecidesOnTrueValues .checked ⟨20, 5, 1⟩ (drainedUpdate 1 20) 0 20 ↔
      Estimable ⟨20, 5, 1⟩ 0 20 :=
  decidesOnTrueValues_iff .checked ⟨20, 5, 1⟩ 10 7 [drained] drained _ _ _ _ (by decide)
    drained_withinGrant (by decide) rfl rfl

/-- The time and fuel of the recorded run 0, taken in one stretch. -/
def recordedRun : Chunk :=
  ⟨0, 106858609, some (.finished (some 0)), ⟨none, none, none, none, none, none⟩⟩

/-- The recorded run spends more than the budget of the deployed mitigator. -/
theorem recordedRun_not_decided :
    ¬ ∀ (p : Profile) (m : Mitigator) (f : U64) (mainAddr : ℕ) (chunks : List Chunk)
      (c : Chunk) (log : List Entry) (s : Loop) (u : RefuelUpdate) (r : WasmRunner),
      m.hyst.toNat ≤ m.deadline.toNat → (∀ c' ∈ chunks ++ [c], WithinGrant f c') →
      (readings (chunks ++ [c])).Pairwise (· ≤ ·) →
      Loop.run p m (Loop.new (some f) mainAddr) chunks = .ok (log, s) →
      s.runner.run p s.intruderBreak c = .ok (u, r) →
      DecidesOnTrueValues p m u (runTime chunks c) (runFuel f chunks c) := by
  intro h
  have hgrant : ∀ c' ∈ [] ++ [recordedRun], WithinGrant 1182320419 c' := by
    intro c' hc
    obtain rfl : c' = recordedRun := by simpa using hc
    exact ⟨0, rfl, by decide⟩
  obtain ⟨_, accF, _, hacc, _, _, hle, _⟩ :=
    h .wrapping Mitigator.deployed 1182320419 0 [] recordedRun _ _ _ _ (by decide) hgrant
      (by decide) rfl rfl
  obtain rfl := Option.some.inj hacc
  exact absurd hle (by decide)

end InterferenceMitigation.FuelBudget
