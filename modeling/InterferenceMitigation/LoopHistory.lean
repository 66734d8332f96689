import InterferenceMitigation.ControlLoop
import Mathlib.Algebra.BigOperators.Group.List.Basic

/-!
The log of the control loop as a history. Every counter of an update, the
interpreter call and the shared flag are functions of the entries before it, and
in particular of the entries since the last finished run. The counters are 64 bits
wide: a build without overflow checks keeps them modulo `2 ^ 64`.
-/

namespace InterferenceMitigation.LoopHistory

open MachineInt DeadlineGuard ControlLoop

/-- The number of runs finished in a history. -/
def finishedCount (hist : List Entry) : ℕ := hist.countP fun e => e.chunk.isFinished

/-- The entries since the last one that did not end in a resumable. -/
def currentRun (hist : List Entry) : List Entry := hist.rtakeWhile fun e => e.chunk.isResumable

def elapsed (e : Entry) : ℕ := e.update.dt.toNat

def spent (e : Entry) : ℕ := (e.update.df.getD 0).toNat

def timeOf (run : List Entry) : ℕ := (run.map elapsed).sum

def fuelOf (run : List Entry) : ℕ := (run.map spent).sum

/-- The resumable an interrupted run leaves behind, refuelled with the grant. -/
def pendingResume (f : U64) (hist : List Entry) : Option WasmResumable :=
  match hist.getLast? with
  | some ⟨⟨_, _, some (.resumable res), _⟩, _, _, _⟩ => some { res with fuel := some f }
  | _ => none

/-- The call the interpreter receives after a history: the suspended computation if the
last stretch was interrupted, a fresh invocation otherwise; the grant is `f` in both. -/
def nextCall (f : U64) (mainAddr : ℕ) (hist : List Entry) : InterpreterCall :=
  match pendingResume f hist with
  | some res => .resume res
  | none => .invoke mainAddr (some f)

/-- `flag` is what the last decision of the history stored. -/
def Decided (p : Profile) (m : Mitigator) (hist : List Entry) (flag : Bool) : Prop :=
  match hist.getLast? with
  | none => flag = false
  | some e => ∃ accF est lim, e.update.accF = some accF ∧
      m.estT p e.update.accT accF = .ok est ∧ m.limit p = .ok lim ∧ flag = decide (est > lim)

/-- The entry emitted after the history `pre` reports that history, in the numbers the
build can hold. -/
structure Replays (p : Profile) (m : Mitigator) (f : U64) (mainAddr : ℕ)
    (pre : List Entry) (e : Entry) : Prop where
  runIdx : Represents p e.update.runIdx (finishedCount pre)
  refuelIdx : Represents p e.update.refuelIdx (currentRun pre).length
  dt : Difference p e.chunk.current e.chunk.last e.update.dt
  df : ∃ rem d, e.chunk.remaining = some rem ∧ e.update.df = some d ∧ Difference p f rem d
  accT : Represents p e.update.accT (timeOf (currentRun pre ++ [e]))
  accF : ∃ a, e.update.accF = some a ∧ Represents p a (fuelOf (currentRun pre ++ [e]))
  call : e.call = nextCall f mainAddr pre
  intruderBreak : Decided p m pre e.update.intruderBreak

/-- The same counters read as integers, with no wrapping anywhere. -/
structure Exact (f : U64) (pre : List Entry) (e : Entry) : Prop where
  runIdx : e.update.runIdx.toNat = finishedCount pre
  refuelIdx : e.update.refuelIdx.toNat = (currentRun pre).length
  dt : e.update.dt.toNat + e.chunk.last.toNat = e.chunk.current.toNat
  df : ∃ rem d, e.chunk.remaining = some rem ∧ e.update.df = some d ∧
    d.toNat + rem.toNat = f.toNat
  accT : e.update.accT.toNat = timeOf (currentRun pre ++ [e])
  accF : ∃ a, e.update.accF = some a ∧ a.toNat = fuelOf (currentRun pre ++ [e])

theorem Replays.exact {m : Mitigator} {f : U64} {mainAddr : ℕ} {pre : List Entry} {e : Entry}
    (h : Replays .checked m f mainAddr pre e) : Exact f pre e where
  runIdx := h.runIdx.2 rfl
  refuelIdx := h.refuelIdx.2 rfl
  dt := h.dt.2 rfl
  df := by
    obtain ⟨rem, d, hrem, hd, hdiff⟩ := h.df
    exact ⟨rem, d, hrem, hd, hdiff.2 rfl⟩
  accT := h.accT.2 rfl
  accF := by
    obtain ⟨a, ha, hrep⟩ := h.accF
    exact ⟨a, ha, hrep.2 rfl⟩

/-- The loop state that a history leads to. -/
structure Tracks (p : Profile) (m : Mitigator) (f : U64) (mainAddr : ℕ)
    (hist : List Entry) (s : Loop) : Prop where
  fuelAmount : s.runner.fuelAmount = some f
  mainAddr : s.runner.mainAddr = mainAddr
  runIdx : Represents p s.runner.runIdx (finishedCount hist)
  refuelIdx : Represents p s.runner.refuelIdx (currentRun hist).length
  accT : Represents p s.runner.accT (timeOf (currentRun hist))
  accF : ∃ a, s.runner.accF = some a ∧ Represents p a (fuelOf (currentRun hist))
  resumeable : s.runner.resumeable = pendingResume f hist
  intruderBreak : Decided p m hist s.intruderBreak

@[simp] theorem timeOf_concat (run : List Entry) (e : Entry) :
    timeOf (run ++ [e]) = timeOf run + elapsed e := by
  simp [timeOf]

@[simp] theorem fuelOf_concat (run : List Entry) (e : Entry) :
    fuelOf (run ++ [e]) = fuelOf run + spent e := by
  simp [fuelOf]

theorem currentRun_resumable (hist : List Entry) {e : Entry} {res : WasmResumable}
    (h : e.chunk.state = some (.resumable res)) :
    currentRun (hist ++ [e]) = currentRun hist ++ [e] := by
  simp [currentRun, Chunk.isResumable, RunState.isResumable, h]

theorem currentRun_finished (hist : List Entry) {e : Entry} {left : Option U64}
    (h : e.chunk.state = some (.finished left)) : currentRun (hist ++ [e]) = [] := by
  simp [currentRun, Chunk.isResumable, RunState.isResumable, h]

theorem finishedCount_resumable (hist : List Entry) {e : Entry} {res : WasmResumable}
    (h : e.chunk.state = some (.resumable res)) :
    finishedCount (hist ++ [e]) = finishedCount hist := by
  simp [finishedCount, Chunk.isFinished, h]

theorem finishedCount_finished (hist : List Entry) {e : Entry} {left : Option U64}
    (h : e.chunk.state = some (.finished left)) :
    finishedCount (hist ++ [e]) = finishedCount hist + 1 := by
  simp [finishedCount, Chunk.isFinished, h]

theorem pendingResume_resumable (f : U64) (hist : List Entry) {e : Entry} {res : WasmResumable}
    (h : e.chunk.state = some (.resumable res)) :
    pendingResume f (hist ++ [e]) = some { res with fuel := some f } := by
  obtain ⟨⟨last, current, state, perf⟩, call, update, decision⟩ := e
  obtain rfl : state = some (.resumable res) := h
  simp [pendingResume]

theorem pendingResume_finished (f : U64) (hist : List Entry) {e : Entry} {left : Option U64}
    (h : e.chunk.state = some (.finished left)) : pendingResume f (hist ++ [e]) = none := by
  obtain ⟨⟨last, current, state, perf⟩, call, update, decision⟩ := e
  obtain rfl : state = some (.finished left) := h
  simp [pendingResume]

/-- What a decision stores is what is decided after the entry it belongs to. -/
theorem decided_concat {p : Profile} {m : Mitigator} {e : Entry} {fuel accF : U64}
    (hist : List Entry) (flag : Bool) (hfuel : e.update.fuel = some fuel)
    (hacc : e.update.accF = some accF) (h : m.mitigate p e.update = .ok e.decision) :
    Decided p m (hist ++ [e]) (Loop.store flag e.decision) := by
  obtain ⟨est, lim, hest, hlim, hdec⟩ := Mitigator.mitigate_inv hfuel hacc h
  simp only [Decided, List.getLast?_concat]
  refine ⟨accF, est, lim, hacc, hest, hlim, ?_⟩
  rw [hdec]
  by_cases hgt : est > lim <;> simp [Loop.store, hgt]

theorem Tracks.new (p : Profile) (m : Mitigator) (f : U64) (mainAddr : ℕ) :
    Tracks p m f mainAddr [] (Loop.new (some f) mainAddr) where
  fuelAmount := rfl
  mainAddr := rfl
  runIdx := .zero p
  refuelIdx := .zero p
  accT := .zero p
  accF := ⟨0, rfl, .zero p⟩
  resumeable := rfl
  intruderBreak := rfl

/-- What one successful iteration does, in the terms of the runner and the mitigator. -/
theorem step_inv {p : Profile} {m : Mitigator} {s s' : Loop} {c : Chunk} {e : Entry} {f a : U64}
    (hfuel : s.runner.fuelAmount = some f) (hacc : s.runner.accF = some a)
    (hmeter : c.Metered) (h : Loop.step p m s c = .ok (e, s')) :
    e.chunk = c ∧ e.call = s.runner.call ∧
      (∃ rem d total, WasmRunner.Ran p f a s.runner s.intruderBreak c e.update s'.runner
        rem d total) ∧
      m.mitigate p e.update = .ok e.decision ∧
      s'.intruderBreak = Loop.store s.intruderBreak e.decision := by
  simp only [Loop.step, bind_eq_ok] at h
  obtain ⟨⟨u, runner⟩, hrun, decision, hdecide, hret⟩ := h
  obtain ⟨rfl, rfl⟩ := Prod.mk.inj (Except.ok.inj hret)
  exact ⟨rfl, rfl, WasmRunner.run_inv hfuel hacc hmeter hrun, hdecide, rfl⟩

/-- One iteration emits an entry that reports the history and extends it by that entry. -/
theorem Tracks.step {p : Profile} {m : Mitigator} {f : U64} {mainAddr : ℕ} {hist : List Entry}
    {s s' : Loop} {c : Chunk} {e : Entry} (ht : Tracks p m f mainAddr hist s)
    (hmeter : c.Metered) (h : Loop.step p m s c = .ok (e, s')) :
    Replays p m f mainAddr hist e ∧ Tracks p m f mainAddr (hist ++ [e]) s' := by
  obtain ⟨a, hacc, haccF⟩ := ht.accF
  obtain ⟨hchunk, hcall, ⟨rem, d, total, ran⟩, hdecide, hstore⟩ :=
    step_inv ht.fuelAmount hacc hmeter h
  have hspent : spent e = d.toNat := by simp [spent, ran.df]
  have htime : Represents p e.update.accT (timeOf (currentRun hist ++ [e])) := by
    rw [timeOf_concat]
    exact ht.accT.add ran.accT
  have hfuel : Represents p total (fuelOf (currentRun hist ++ [e])) := by
    rw [fuelOf_concat, hspent]
    exact haccF.add ran.addF
  have hflag : Decided p m (hist ++ [e]) s'.intruderBreak := by
    rw [hstore]
    exact decided_concat hist s.intruderBreak ran.fuel ran.accF hdecide
  constructor
  · exact {
      runIdx := ran.runIdx ▸ ht.runIdx
      refuelIdx := ran.refuelIdx ▸ ht.refuelIdx
      dt := hchunk ▸ ran.dt
      df := ⟨rem, d, hchunk ▸ ran.remaining, ran.df, ran.spent⟩
      accT := htime
      accF := ⟨total, ran.accF, hfuel⟩
      call := by
        cases hpending : pendingResume f hist <;>
          simp only [hcall, WasmRunner.call, nextCall, ht.resumeable, ht.mainAddr,
            ht.fuelAmount, hpending]
      intruderBreak := ran.intruderBreak ▸ ht.intruderBreak
    }
  · subst hchunk
    rcases ran.next with ⟨res, hstate, hadd, hnext⟩ | ⟨left, hstate, hadd, hnext⟩
    · exact {
        fuelAmount := by rw [hnext]; exact ht.fuelAmount
        mainAddr := by rw [hnext]; exact ht.mainAddr
        runIdx := by
          rw [hnext, finishedCount_resumable hist hstate]
          exact ht.runIdx
        refuelIdx := by
          rw [currentRun_resumable hist hstate, List.length_append]
          exact ht.refuelIdx.add hadd
        accT := by
          rw [hnext, currentRun_resumable hist hstate]
          exact htime
        accF := by
          rw [hnext, currentRun_resumable hist hstate]
          exact ⟨total, ran.accF, hfuel⟩
        resumeable := by rw [hnext, pendingResume_resumable f hist hstate]
        intruderBreak := hflag
      }
    · exact {
        fuelAmount := by rw [hnext]; exact ht.fuelAmount
        mainAddr := by rw [hnext]; exact ht.mainAddr
        runIdx := by
          rw [finishedCount_finished hist hstate]
          exact ht.runIdx.add hadd
        refuelIdx := by
          rw [hnext, currentRun_finished hist hstate]
          exact .zero p
        accT := by
          rw [hnext, currentRun_finished hist hstate]
          exact .zero p
        accF := by
          rw [hnext, currentRun_finished hist hstate]
          exact ⟨0, rfl, .zero p⟩
        resumeable := by rw [hnext, pendingResume_finished f hist hstate]
        intruderBreak := hflag
      }

/-- Along a run of the loop every entry reports the entries before it. -/
theorem Tracks.run {p : Profile} {m : Mitigator} {f : U64} {mainAddr : ℕ} {chunks : List Chunk}
    {hist log : List Entry} {s s' : Loop} (ht : Tracks p m f mainAddr hist s)
    (hmeter : ∀ c ∈ chunks, c.Metered) (h : Loop.run p m s chunks = .ok (log, s')) :
    (∀ pre e post, log = pre ++ e :: post → Replays p m f mainAddr (hist ++ pre) e) ∧
      Tracks p m f mainAddr (hist ++ log) s' := by
  induction chunks generalizing hist log s with
  | nil =>
    obtain ⟨rfl, rfl⟩ := Prod.mk.inj (Except.ok.inj h)
    refine ⟨?_, by simpa using ht⟩
    intro pre e post hsplit
    simp at hsplit
  | cons c chunks ih =>
    simp only [Loop.run, bind_eq_ok] at h
    obtain ⟨⟨first, mid⟩, hstep, ⟨rest, last⟩, hrun, hret⟩ := h
    obtain ⟨rfl, rfl⟩ := Prod.mk.inj (Except.ok.inj hret)
    obtain ⟨hfirst, hmid⟩ := ht.step (hmeter c (List.mem_cons_self ..)) hstep
    obtain ⟨hrest, hend⟩ := ih hmid (fun c' hc => hmeter c' (List.mem_cons_of_mem _ hc)) hrun
    refine ⟨?_, by simpa using hend⟩
    intro pre e post hsplit
    cases pre with
    | nil =>
      obtain ⟨rfl, rfl⟩ := List.cons.inj hsplit
      simpa using hfirst
    | cons e' pre =>
      obtain ⟨rfl, htail⟩ := List.cons.inj hsplit
      simpa using hrest pre e post htail

theorem run_chunks {p : Profile} {m : Mitigator} {s s' : Loop} {chunks : List Chunk}
    {log : List Entry} (h : Loop.run p m s chunks = .ok (log, s')) :
    log.map Entry.chunk = chunks := by
  induction chunks generalizing log s with
  | nil =>
    obtain ⟨rfl, rfl⟩ := Prod.mk.inj (Except.ok.inj h)
    rfl
  | cons c chunks ih =>
    simp only [Loop.run, Loop.step, bind_eq_ok] at h
    obtain ⟨⟨first, mid⟩, ⟨_, _, _, _, hfirst⟩, ⟨rest, last⟩, hrun, hret⟩ := h
    obtain ⟨rfl, rfl⟩ := Prod.mk.inj (Except.ok.inj hret)
    obtain ⟨rfl, rfl⟩ := Prod.mk.inj (Except.ok.inj hfirst)
    rw [List.map_cons, ih hrun]

theorem run_concat {p : Profile} {m : Mitigator} {chunks : List Chunk} {c : Chunk}
    {s s' s'' : Loop} {log : List Entry} {e : Entry} (hrun : Loop.run p m s chunks = .ok (log, s'))
    (hstep : Loop.step p m s' c = .ok (e, s'')) :
    Loop.run p m s (chunks ++ [c]) = .ok (log ++ [e], s'') := by
  induction chunks generalizing s log with
  | nil =>
    obtain ⟨rfl, rfl⟩ := Prod.mk.inj (Except.ok.inj hrun)
    simp only [List.nil_append, Loop.run, hstep, ok_bind]
    rfl
  | cons c' chunks ih =>
    simp only [Loop.run, bind_eq_ok] at hrun
    obtain ⟨⟨first, mid⟩, hfirst, ⟨rest, last⟩, hrest, hret⟩ := hrun
    obtain ⟨rfl, rfl⟩ := Prod.mk.inj (Except.ok.inj hret)
    simp only [List.cons_append, Loop.run, hfirst, ok_bind, ih hrest]
    rfl

/-- A panic of the next iteration is one of the whole run. -/
theorem run_concat_error {p : Profile} {m : Mitigator} {chunks : List Chunk} {c : Chunk}
    {s s' : Loop} {log : List Entry} {panic : Panic} (hrun : Loop.run p m s chunks = .ok (log, s'))
    (hstep : Loop.step p m s' c = .error panic) :
    Loop.run p m s (chunks ++ [c]) = .error panic := by
  induction chunks generalizing s log with
  | nil =>
    obtain ⟨rfl, rfl⟩ := Prod.mk.inj (Except.ok.inj hrun)
    rw [List.nil_append, Loop.run, hstep]
    rfl
  | cons c' chunks ih =>
    simp only [Loop.run, bind_eq_ok] at hrun
    obtain ⟨⟨first, mid⟩, hfirst, ⟨rest, last⟩, hrest, hret⟩ := hrun
    obtain ⟨rfl, rfl⟩ := Prod.mk.inj (Except.ok.inj hret)
    simp only [List.cons_append, Loop.run, hfirst, ok_bind, ih hrest]
    rfl

/-- The log is a replayable history: exactly in a build that traps overflow, and in the
low 64 bits of the counters in one that does not. -/
theorem log_replays (p : Profile) (m : Mitigator) (f : U64) (mainAddr : ℕ)
    (chunks : List Chunk) (log : List Entry) (s : Loop) (hmeter : ∀ c ∈ chunks, c.Metered)
    (h : Loop.run p m (Loop.new (some f) mainAddr) chunks = .ok (log, s)) :
    log.map Entry.chunk = chunks ∧
      ∀ pre e post, log = pre ++ e :: post →
        Replays p m f mainAddr pre e ∧ (p = .checked → Exact f pre e) := by
  refine ⟨run_chunks h, ?_⟩
  intro pre e post hsplit
  have hreplay := ((Tracks.new p m f mainAddr).run hmeter h).1 pre e post hsplit
  simp only [List.nil_append] at hreplay
  refine ⟨hreplay, ?_⟩
  rintro rfl
  exact hreplay.exact

/-- A stretch interrupted with nothing left of its grant, between equal clock readings. -/
def drained : Chunk := ⟨0, 0, some (.resumable ⟨0, some 0⟩), ⟨none, none, none, none, none, none⟩⟩

theorem drained_metered : ∀ c ∈ [drained, drained], c.Metered := by
  intro c hc state hstate _
  simp only [List.mem_cons, List.not_mem_nil, or_false, or_self] at hc
  subst hc
  obtain rfl := Option.some.inj hstate
  exact ⟨0, rfl⟩

def drainedUpdate (refuelIdx accF : U64) : RefuelUpdate :=
  ⟨0, some 10, 0, refuelIdx, false, 1022, 0, some 10, 0, some accF,
    some ⟨none, none, none, none, none, none⟩⟩

theorem log_replays_drained :
    Replays .checked ⟨20, 5, 1⟩ 10 7
      [⟨drained, .invoke 7 (some 10), drainedUpdate 0 10, some .intruderCont⟩]
      ⟨drained, .resume ⟨0, some 10⟩, drainedUpdate 1 20, some .intruderCont⟩ :=
  ((log_replays .checked ⟨20, 5, 1⟩ 10 7 [drained, drained] _ _ drained_metered rfl).2
    [_] _ [] rfl).1

/-- Without overflow checks two stretches of `2 ^ 64 - 1` units wrap the fuel counter. -/
theorem log_not_exact :
    ¬ ∀ (p : Profile) (m : Mitigator) (f : U64) (mainAddr : ℕ) (chunks : List Chunk)
      (log : List Entry) (s : Loop), (∀ c ∈ chunks, c.Metered) →
      Loop.run p m (Loop.new (some f) mainAddr) chunks = .ok (log, s) →
      log.map Entry.chunk = chunks ∧
        ∀ pre e post, log = pre ++ e :: post → Replays p m f mainAddr pre e ∧ Exact f pre e := by
  intro h
  have hexact := ((h .wrapping ⟨-1, 0, 0⟩ (-1) 0 [drained, drained] _ _ drained_metered rfl).2
    [_] _ [] rfl).2
  obtain ⟨a, ha, hsum⟩ := hexact.accF
  obtain rfl := Option.some.inj ha
  exact absurd hsum (by decide)

end InterferenceMitigation.LoopHistory
