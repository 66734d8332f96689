import InterferenceMitigation.IntruderBreak
import InterferenceMitigation.LoopHistory

/-!
The main loop of core 0 together with the intruder cores it stops and releases. Core 0 runs
a stretch of the payload, decides on its record, performs the accesses of the call that the
decision makes, and writes the record out; every intruder core takes its own steps in
between. The loop is the sequential one of its inputs, whatever the intruders do, and its
decisions alone say when an intruder core may write again.
-/

namespace InterferenceMitigation.ClosedLoop

open Transition MachineInt DeadlineGuard ControlLoop LoopHistory IntruderBreak

/-- Where core 0 is: inside `runner.run`, before the decision on the record that `run`
returned, before the store of a call, between the store of `intruder_break` and its end,
or before `writer.write`. -/
inductive MainPc
  | stretch
  | decide (chunk : Chunk) (call : InterpreterCall) (update : RefuelUpdate)
  | call (call : IntruderCall)
  | breaking
  | write
  | panicked

structure System (K : Type*) where
  pc : MainPc
  runner : WasmRunner
  shared : State K

inductive Event (K : Type*)
  | run (chunk : Chunk)
  | decided (entry : Entry)
  | shared (access : Label K)
  | written
  | panic (panic : Panic)

variable {K : Type*} [DecidableEq K]

/-- Core 0 after a decision: an update without fuel accounting makes no call. -/
def next : Option IntruderCall → MainPc
  | some call => .call call
  | none => .write

/-- What core 0 does to the shared state, and where it goes on. -/
inductive Performs : MainPc → Label K → MainPc → Prop
  | breakStore : Performs (.call .intruderBreak) .breakStore .breaking
  | lockGic : Performs .breaking .lockGic .breaking
  | sendSgi : Performs .breaking .sendSgi .breaking
  | unlockGic : Performs .breaking .unlockGic .write
  | contStore : Performs (.call .intruderCont) .contStore .write

/-- One step of the board. A panic on core 0 ends in an endless loop. -/
inductive Step (p : Profile) (m : Mitigator) : System K → Event K → System K → Prop
  | run (s : System K) (c : Chunk) (u : RefuelUpdate) (r : WasmRunner) (hpc : s.pc = .stretch)
      (h : s.runner.run p s.shared.flag c = .ok (u, r)) :
      Step p m s (.run c) { s with pc := .decide c s.runner.call u, runner := r }
  | runPanic (s : System K) (c : Chunk) (panic : Panic) (hpc : s.pc = .stretch)
      (h : s.runner.run p s.shared.flag c = .error panic) :
      Step p m s (.panic panic) { s with pc := .panicked }
  | decided (s : System K) (c : Chunk) (call : InterpreterCall) (u : RefuelUpdate)
      (decision : Option IntruderCall) (hpc : s.pc = .decide c call u)
      (h : m.mitigate p u = .ok decision) :
      Step p m s (.decided ⟨c, call, u, decision⟩) { s with pc := next decision }
  | decidePanic (s : System K) (c : Chunk) (call : InterpreterCall) (u : RefuelUpdate)
      (panic : Panic) (hpc : s.pc = .decide c call u) (h : m.mitigate p u = .error panic) :
      Step p m s (.panic panic) { s with pc := .panicked }
  | perform (s : System K) (l : Label K) (pc : MainPc) (t : State K) (hpc : Performs s.pc l pc)
      (h : IntruderBreak.Step s.shared l t) :
      Step p m s (.shared l) { s with pc := pc, shared := t }
  | written (s : System K) (hpc : s.pc = .write) : Step p m s .written { s with pc := .stretch }
  | intruder (s : System K) (k : K) (access : Access) (t : State K)
      (h : IntruderBreak.Step s.shared (.core k access) t) :
      Step p m s (.shared (.core k access)) { s with shared := t }

def System.new (f : Option U64) (mainAddr : ℕ) : System K :=
  ⟨.stretch, WasmRunner.new f mainAddr, State.initial⟩

/-- The entries the main loop logs in a run. -/
def entries (es : List (Event K)) : List Entry :=
  es.filterMap fun
    | .decided e => some e
    | _ => none

/-- The accesses to the shared state in a run. -/
def accesses (es : List (Event K)) : List (Label K) :=
  es.filterMap fun
    | .shared l => some l
    | _ => none

variable {p : Profile} {m : Mitigator} {s t : System K} {es : List (Event K)}

omit [DecidableEq K] in
theorem entries_cons (e : Event K) (es : List (Event K)) :
    entries (e :: es) = entries [e] ++ entries es := by
  simp only [entries, ← List.filterMap_append, List.singleton_append]

/-- Seen from the intruder cores, a run of the board is a run of their protocol. -/
theorem shared_run (h : Run (Step p m) s es t) :
    Run IntruderBreak.Step s.shared (accesses es) t.shared := by
  induction h with
  | nil => exact .nil _
  | cons hstep _ ih =>
    cases hstep with
    | perform l pc _ hpc h => exact .cons h ih
    | intruder k access _ h => exact .cons h ih
    | _ => exact ih

/-- The loop after the entries `hist`, as core 0 sees it at each place. -/
def Follows (p : Profile) (m : Mitigator) (s₀ : Loop) (hist : List Entry) (s : System K) :
    Prop :=
  match s.pc with
  | .stretch | .breaking | .write =>
    Loop.run p m s₀ (hist.map Entry.chunk) = .ok (hist, ⟨s.runner, s.shared.flag⟩)
  | .decide c call u => ∃ r, Loop.run p m s₀ (hist.map Entry.chunk) =
      .ok (hist, ⟨r, s.shared.flag⟩) ∧ r.run p s.shared.flag c = .ok (u, s.runner) ∧ call = r.call
  | .call call => Loop.run p m s₀ (hist.map Entry.chunk) =
      .ok (hist, ⟨s.runner, Loop.store s.shared.flag (some call)⟩)
  | .panicked => ∃ loop, Loop.run p m s₀ (hist.map Entry.chunk) = .ok (hist, loop)

omit [DecidableEq K] in
theorem Follows.new (p : Profile) (m : Mitigator) (f : Option U64) (mainAddr : ℕ) :
    Follows p m (Loop.new f mainAddr) [] (System.new f mainAddr : System K) :=
  rfl

section Follows

variable {s₀ : Loop} {hist : List Entry}

omit [DecidableEq K] in
/-- The steps of the intruders move nothing that the loop depends on. -/
theorem Follows.of_flag (h : Follows p m s₀ hist s) {shared : State K}
    (hflag : shared.flag = s.shared.flag) : Follows p m s₀ hist { s with shared := shared } := by
  simp only [Follows, hflag]
  exact h

/-- The accesses of a call store its decision and nothing else. -/
theorem Follows.perform (h : Follows p m s₀ hist s) {l : Label K} {pc : MainPc} {shared : State K}
    (hpc : Performs s.pc l pc) (hstep : IntruderBreak.Step s.shared l shared) :
    Follows p m s₀ hist { s with pc := pc, shared := shared } := by
  unfold Follows at h ⊢
  generalize s.pc = place at hpc h
  cases hpc <;> cases hstep <;> exact h

omit [DecidableEq K] in
theorem Follows.decided (h : Follows p m s₀ hist s) {c : Chunk} {call : InterpreterCall}
    {u : RefuelUpdate} {decision : Option IntruderCall} (hpc : s.pc = .decide c call u)
    (hdecide : m.mitigate p u = .ok decision) :
    Follows p m s₀ (hist ++ [⟨c, call, u, decision⟩]) { s with pc := next decision } := by
  simp only [Follows, hpc] at h
  obtain ⟨r, hrun, hstretch, rfl⟩ := h
  have hstep : Loop.step p m ⟨r, s.shared.flag⟩ c =
      .ok (⟨c, r.call, u, decision⟩, ⟨s.runner, Loop.store s.shared.flag decision⟩) := by
    simp only [Loop.step, hstretch, hdecide, ok_bind]
    rfl
  have hlog := run_concat hrun hstep
  have hchunks : (hist ++ [(⟨c, r.call, u, decision⟩ : Entry)]).map Entry.chunk =
      hist.map Entry.chunk ++ [c] := by simp
  rw [← hchunks] at hlog
  cases decision with
  | none => exact hlog
  | some call => exact hlog

theorem Follows.step (h : Follows p m s₀ hist s) {e : Event K} (hstep : Step p m s e t) :
    Follows p m s₀ (hist ++ entries [e]) t := by
  cases hstep with
  | decided c call u decision hpc hdecide => exact h.decided hpc hdecide
  | run c u r hpc hrun =>
    simp only [Follows, hpc] at h
    simpa [entries, Follows] using ⟨s.runner, h, hrun, rfl⟩
  | runPanic c panic hpc hrun =>
    simp only [Follows, hpc] at h
    simpa [entries, Follows] using ⟨_, h⟩
  | decidePanic c call u panic hpc hdecide =>
    simp only [Follows, hpc] at h
    obtain ⟨r, hrun, -⟩ := h
    simpa [entries, Follows] using ⟨_, hrun⟩
  | perform l pc shared hpc hshared => simpa [entries] using h.perform hpc hshared
  | written hpc =>
    simp only [Follows, hpc] at h
    simpa [entries, Follows] using h
  | intruder k access shared hshared =>
    have hflag : shared.flag = s.shared.flag := by
      cases hshared
      rfl
    simpa [entries] using h.of_flag hflag

theorem Follows.run (h : Follows p m s₀ hist s) (hrun : Run (Step p m) s es t) :
    Follows p m s₀ (hist ++ entries es) t := by
  induction hrun generalizing hist with
  | nil => simpa [entries] using h
  | @cons _ _ _ e es hstep _ ih =>
    have hrest := ih (h.step hstep)
    rwa [List.append_assoc, ← entries_cons] at hrest

omit [DecidableEq K] in
/-- The history is a run of the loop, which is where the board is between two stretches. -/
theorem Follows.exists_loop (h : Follows p m s₀ hist s) :
    ∃ loop, Loop.run p m s₀ (hist.map Entry.chunk) = .ok (hist, loop) ∧
      (s.pc = .stretch → loop = ⟨s.runner, s.shared.flag⟩) := by
  unfold Follows at h
  cases hpc : s.pc with
  | stretch | breaking | write =>
    rw [hpc] at h
    exact ⟨_, h, fun _ => rfl⟩
  | decide c call u =>
    rw [hpc] at h
    obtain ⟨r, hrun, -⟩ := h
    exact ⟨_, hrun, by simp⟩
  | call call =>
    rw [hpc] at h
    exact ⟨_, h, by simp⟩
  | panicked =>
    rw [hpc] at h
    obtain ⟨loop, hrun⟩ := h
    exact ⟨loop, hrun, by simp⟩

/-- Where core 0 panics, the loop does with the next input. -/
theorem Follows.panics (h : Follows p m s₀ hist s) {panic : Panic}
    (hstep : Step p m s (.panic panic) t) :
    ∃ c, Loop.run p m s₀ (hist.map Entry.chunk ++ [c]) = .error panic := by
  cases hstep with
  | runPanic c _ hpc hrun =>
    simp only [Follows, hpc] at h
    refine ⟨c, run_concat_error h ?_⟩
    rw [Loop.step, hrun]
    rfl
  | decidePanic c call u _ hpc hdecide =>
    simp only [Follows, hpc] at h
    obtain ⟨r, hlog, hrun, -⟩ := h
    refine ⟨c, run_concat_error hlog ?_⟩
    simp only [Loop.step, hrun, ok_bind, hdecide]
    rfl

/-- After a panic core 0 decides nothing more. -/
theorem entries_of_panicked (h : Run (Step p m) s es t) (hpc : s.pc = .panicked) :
    entries es = [] := by
  induction h with
  | nil => rfl
  | @cons _ _ _ e es hstep _ ih =>
    rw [entries_cons]
    cases hstep with
    | intruder k access shared hshared => exact ih hpc
    | perform l pc shared hpc' hshared =>
      rw [hpc] at hpc'
      cases hpc'
    | run | runPanic | decided | decidePanic | written => simp_all

/-- The panic of a run is that of the loop on the inputs so far and one more. -/
theorem Follows.panics_of_mem (h : Follows p m s₀ [] s) (hrun : Run (Step p m) s es t)
    {panic : Panic} (hpanic : .panic panic ∈ es) :
    ∃ c, Loop.run p m s₀ ((entries es).map Entry.chunk ++ [c]) = .error panic := by
  obtain ⟨before, after, rfl⟩ := List.append_of_mem hpanic
  obtain ⟨mid, hbefore, hafter⟩ := hrun.of_append
  have hmid := h.run hbefore
  rw [List.nil_append] at hmid
  cases hafter with
  | @cons _ dead _ _ _ hstep hrest =>
    have hdead : dead.pc = .panicked := by cases hstep <;> rfl
    have hentries : entries (before ++ .panic panic :: after) = entries before := by
      have hnone := entries_of_panicked hrest hdead
      simp only [entries] at hnone ⊢
      simp [hnone]
    rw [hentries]
    exact hmid.panics hstep

end Follows

/-- Core 0 is inside `intruder_break`, past its store, only while the loop is. -/
def Aligned (s : System K) : Prop := s.pc ≠ .breaking → s.shared.control = .idle

theorem Aligned.step (h : Aligned s) {e : Event K} (hstep : Step p m s e t) : Aligned t := by
  intro hne
  cases hstep with
  | perform l pc shared hpc hshared =>
    generalize s.pc = place at hpc
    cases hpc with
    | breakStore => exact absurd rfl hne
    | lockGic => exact absurd rfl hne
    | sendSgi => exact absurd rfl hne
    | unlockGic =>
      cases hshared
      rfl
    | contStore =>
      cases hshared
      assumption
  | intruder k access shared hshared =>
    cases hshared
    exact h hne
  | run c u r hpc hrun => exact h (by simp [hpc])
  | runPanic c panic hpc hrun => exact h (by simp [hpc])
  | decided c call u decision hpc hdecide => exact h (by simp [hpc])
  | decidePanic c call u panic hpc hdecide => exact h (by simp [hpc])
  | written hpc => exact h (by simp [hpc])

/-- The loop stores the continuation only after a decision for it. -/
theorem calm_step {e : Event K} (hstep : Step p m s e t) (hpc : s.pc ≠ .call .intruderCont)
    (hcalm : ∀ entry ∈ entries [e], entry.decision ≠ some .intruderCont) :
    t.pc ≠ .call .intruderCont ∧ e ≠ .shared .contStore := by
  cases hstep with
  | decided c call u decision hpc' hdecide =>
    have hne : decision ≠ some .intruderCont :=
      hcalm ⟨c, call, u, decision⟩ (by simp [entries])
    refine ⟨?_, by simp⟩
    cases decision with
    | none => simp [next]
    | some call => simpa [next] using hne
  | perform l pc shared hpc' hshared =>
    generalize s.pc = place at hpc hpc'
    cases hpc' <;> simp_all
  | intruder k access shared hshared => exact ⟨hpc, by simp⟩
  | _ => simp

theorem calm_run (h : Run (Step p m) s es t) (hpc : s.pc ≠ .call .intruderCont)
    (hcalm : ∀ entry ∈ entries es, entry.decision ≠ some .intruderCont) :
    .contStore ∉ accesses es := by
  induction h with
  | nil => simp [accesses]
  | @cons _ _ _ e es hstep _ ih =>
    rw [entries_cons] at hcalm
    obtain ⟨hpc', hne⟩ := calm_step hstep hpc fun entry hmem =>
      hcalm entry (List.mem_append_left _ hmem)
    have hrest := ih hpc' fun entry hmem => hcalm entry (List.mem_append_right _ hmem)
    intro hmem
    simp only [accesses, List.mem_filterMap, List.mem_cons] at hmem hrest
    obtain ⟨e', rfl | he', heq⟩ := hmem
    · apply hne
      cases e' <;> simp_all
    · exact hrest ⟨e', he', heq⟩

omit [DecidableEq K] in
theorem accesses_append (es es' : List (Event K)) :
    accesses (es ++ es') = accesses es ++ accesses es' :=
  List.filterMap_append

omit [DecidableEq K] in
theorem mem_accesses {l : Label K} (h : .shared l ∈ es) : l ∈ accesses es :=
  List.mem_filterMap.mpr ⟨_, h, rfl⟩

/-- A core that enters its handler while the flag stays raised writes nothing from then on. -/
theorem no_write_of_entry {k : K} (hs : Invariant s.shared) (hflag : s.shared.flag = true)
    (hrun : Run (Step p m) s es t) (hcont : .contStore ∉ accesses es)
    {before after : List (Event K)} {access : Access}
    (hsplit : es = before ++ .shared (.core k access) :: after)
    (hentry : access = .take ∨ access = .ack) : .shared (.core k .write) ∉ after := by
  intro hmem
  have hshared := shared_run hrun
  have haccesses : accesses es = accesses before ++ .core k access :: accesses after := by
    rw [hsplit, accesses_append]
    rfl
  rw [haccesses] at hshared hcont
  obtain ⟨mid, hto, hfrom⟩ := hshared.of_append
  have hmid : Stays (fun _ => True) k mid :=
    Stays.run (fun _ _ _ _ => trivial) ⟨hs, hflag, trivial⟩ hto
      fun hc => hcont (List.mem_append_left _ hc)
  cases hfrom with
  | cons hstep hrest =>
    exact held_no_write (held_of_entry hmid.invariant hmid.flag hentry hstep) hrest
      (fun hc => hcont (List.mem_append_right _ (List.mem_cons_of_mem _ hc)))
      (mem_accesses hmem)

/-- The loop of core 0 is the sequential one, which panics with the next input where core 0
does; and its decisions govern the intruders: in every stretch that starts with the flag
raised each of their cores has the interrupt pending or is in its handler, and from there to
the next decision to continue a core that is held writes nothing, and neither does one that
takes the interrupt. A panic of core 0 ends the decisions. -/
theorem intruders_follow_decisions (p : Profile) (m : Mitigator) (f : Option U64) (mainAddr : ℕ)
    (es : List (Event K)) (s : System K) (h : Run (Step p m) (System.new f mainAddr) es s) :
    (∃ loop, Loop.run p m (Loop.new f mainAddr) ((entries es).map Entry.chunk) =
      .ok (entries es, loop) ∧ (s.pc = .stretch → loop = ⟨s.runner, s.shared.flag⟩)) ∧
    (∀ panic, .panic panic ∈ es → ∃ c, Loop.run p m (Loop.new f mainAddr)
      ((entries es).map Entry.chunk ++ [c]) = .error panic) ∧
    ((s.pc = .stretch ∨ s.pc = .panicked) → s.shared.flag = true →
      (∀ k, (s.shared.core k).pending = true ∨ (s.shared.core k).InIrq) ∧
      ∀ es' t, Run (Step p m) s es' t →
        (∀ e ∈ entries es', e.decision ≠ some .intruderCont) →
        ∀ k, ((s.shared.core k).Held → .shared (.core k .write) ∉ es') ∧
          ∀ before access after, es' = before ++ .shared (.core k access) :: after →
            (access = .take ∨ access = .ack) → .shared (.core k .write) ∉ after) := by
  have hfollows := Follows.new p m f mainAddr (K := K)
  have haligned : Aligned s :=
    h.invariant (fun _ _ _ ha hstep => ha.step hstep) (fun _ => rfl)
  have hs : Invariant s.shared :=
    (shared_run h).invariant (fun _ _ _ => step_preserves) initial_invariant
  refine ⟨?_, ?_, ?_⟩
  · have hlog := hfollows.run h
    rw [List.nil_append] at hlog
    exact hlog.exists_loop
  · exact fun panic hpanic => hfollows.panics_of_mem h hpanic
  · intro hpc hflag
    have hidle : s.shared.control = .idle := haligned (by rcases hpc with hpc | hpc <;> simp [hpc])
    refine ⟨?_, ?_⟩
    · intro k
      rcases hs.requested hflag (by simp [State.Sent, hidle]) k with hpending | hheld
      · exact Or.inl hpending
      · exact Or.inr hheld.1
    · intro es' t hrun hcalm k
      have hcont := calm_run hrun (by rcases hpc with hpc | hpc <;> simp [hpc]) hcalm
      refine ⟨?_, ?_⟩
      · intro hheld hmem
        exact held_no_write ⟨hs, hflag, hheld⟩ (shared_run hrun) hcont (mem_accesses hmem)
      · intro before access after hsplit hentry
        exact no_write_of_entry hs hflag hrun hcont hsplit hentry

/-- A stretch too slow for the deadline. -/
def slow : Chunk := ⟨0, 10, some (.resumable ⟨0, some 0⟩), ⟨none, none, none, none, none, none⟩⟩

def slowUpdate : RefuelUpdate :=
  ⟨10, some 10, 0, 0, false, 1022, 10, some 10, 10, some 10,
    some ⟨none, none, none, none, none, none⟩⟩

theorem intruders_follow_slow :
    ∃ s : System (Fin 3), s.pc = .stretch ∧ s.runner.refuelIdx = 1 ∧ s.shared.flag = true ∧
      ∀ k, (s.shared.core k).pending = true ∨ (s.shared.core k).InIrq := by
  have hrun : Run (Step .checked ⟨20, 5, 1⟩) (System.new (some 10) 7 : System (Fin 3))
      [.run slow, .decided ⟨slow, .invoke 7 (some 10), slowUpdate, some .intruderBreak⟩,
        .shared .breakStore, .shared .lockGic, .shared .sendSgi, .shared .unlockGic, .written] _ :=
    .cons (.run _ slow slowUpdate _ rfl rfl) <|
    .cons (.decided _ _ _ _ _ rfl rfl) <|
    .cons (.perform _ _ _ _ .breakStore (.breakStore _ rfl)) <|
    .cons (.perform _ _ _ _ .lockGic (.lockGic _ rfl rfl)) <|
    .cons (.perform _ _ _ _ .sendSgi (.sendSgi _ rfl)) <|
    .cons (.perform _ _ _ _ .unlockGic (.unlockGic _ rfl)) <|
    .single (.written _ rfl)
  exact ⟨_, rfl, rfl, rfl,
    ((intruders_follow_decisions _ _ _ _ _ _ hrun).2.2 (Or.inl rfl) rfl).1⟩

end InterferenceMitigation.ClosedLoop
