import InterferenceMitigation.InterruptLock

/-!
What the interrupt-safe lock guarantees in every run, for every interleaving of the cores
and every nesting of their calls. A core that holds a driver mutex cannot be interrupted, so
it is never parked in the handler and a handler never waits for the core it runs on; and a
call leaves DAIF as it found it, whatever ran in between.
-/

namespace InterferenceMitigation.LockSafety

open Transition SaveRestore LockTable InterruptLock

variable {K : Type*} [DecidableEq K] {s t : State K}

theorem step_own {k : K} {a : Action} (h : Step s (k, a) t) :
    CoreStep s.intruderBreak (s.core k) a (t.core k) := by
  cases h with
  | core k a c h hfree hbusy => simpa using h

theorem step_other {k j : K} {a : Action} (h : Step s (k, a) t) (hj : j ≠ k) :
    t.core j = s.core j := by
  cases h with
  | core k a c h hfree hbusy => simp [hj]

/-- What a step does to one core. -/
theorem step_core {l : K × Action} (h : Step s l t) (j : K) :
    t.core j = s.core j ∨ CoreStep s.intruderBreak (s.core j) l.2 (t.core j) := by
  by_cases hj : j = l.1
  · subst hj
    exact Or.inr (step_own h)
  · exact Or.inl (step_other h hj)

/-- While a call or an exception is active on a core, every step moves that core's stack. -/
theorem step_move {l : K × Action} (h : Step s l t) (j : K) (hne : (s.core j).stack ≠ []) :
    Move Record.saved Valid (s.core j).daif (s.core j).stack (t.core j).daif
      (t.core j).stack := by
  rcases step_core h j with hsame | hstep
  · rw [hsame]
    exact .refl _ _
  · rcases hstep.move with ⟨hempty, -⟩ | hmove
    · exact absurd hempty hne
    · exact hmove

theorem coherent_step {l : K × Action} (h : Step s l t) (j : K) (hj : (s.core j).Coherent) :
    (t.core j).Coherent := by
  rcases step_core h j with hsame | hstep
  · rwa [hsame]
  · rcases hstep.move with ⟨-, hempty⟩ | hmove
    · simp [Core.Coherent, hempty]
    · exact hmove.along hj

theorem agrees_step {l : K × Action} (h : Step s l t)
    (hs : Agrees s.owner fun k => held (s.core k).stack) :
    Agrees t.owner fun k => held (t.core k).stack := by
  obtain ⟨k, a⟩ := l
  have hheld := (step_own h).held
  have hother : ∀ j, j ≠ k → held (t.core j).stack = held (s.core j).stack := by
    intro j hj
    rw [step_other h hj]
  have hquiet (hkeep : held (t.core k).stack = held (s.core k).stack) (j : K) :
      held (t.core j).stack = held (s.core j).stack := by
    by_cases hj : j = k
    · subst hj
      exact hkeep
    · exact hother j hj
  cases h with
  | core k a c h hfree hbusy =>
    cases a with
    | lock m => exact hs.acquire (hfree m rfl) hheld hother
    | unlock m => exact hs.release hheld hother
    | _ => exact hs.congr (hquiet hheld)

theorem invariant_step {l : K × Action} (h : Step s l t) (hs : Invariant s) : Invariant t where
  coherent j := coherent_step h j (hs.coherent j)
  agrees := agrees_step h hs.agrees

theorem invariant_of_reaches {s₀ : State K} (hinit : s₀.Initial) (h : Reaches Step s₀ s) :
    Invariant s :=
  h.invariant (fun _ _ _ ha hstep => invariant_step hstep ha) (initial_invariant hinit)

/-- `lock_irq` from its entry, neither interrupted nor nested. -/
def lockIrq (m : Driver) : List Action := [.mrs, .daifSet, .lock m, .unlock m, .restore]

/-- `intruder_break`: the store, then the SGI is sent under the lock of the controller. -/
def intruderBreak : List Action := .store true :: .call .gic :: lockIrq .gic

/-- `StmWriter::write`, which takes the lock only when there is something to write. -/
def stmWrite (buf : List (BitVec 8)) : List Action :=
  if buf = [] then [] else .call .stm :: lockIrq .stm

/-- `Excps::irq` on an interrupt that is returned by the acknowledgement, with one poll. -/
def irqHandler : List Action :=
  [.irq, .callAck] ++ lockIrq .gic ++ [.acked true, .callEnd] ++ lockIrq .gic ++ [.poll, .eret]

/-- The state with core `k` replaced. -/
def withCore (s : State K) (k : K) (c : Core) : State K :=
  { s with core := Function.update s.core k c }

theorem withCore_self (s : State K) (k : K) : withCore s k (s.core k) = s := by
  simp [withCore]

/-- An instruction of core `k` in a state given by what that core is about to do. -/
theorem step_withCore (s : State K) (k : K) {a : Action} {c c' : Core}
    (h : CoreStep s.intruderBreak c a c') (hfree : ∀ m, a = .lock m → s.owner m = none)
    (hbusy : ∀ m, a = .spin m → s.owner m ≠ none) :
    Step (withCore s k c) (k, a)
      (withCore ⟨flagAfter s.intruderBreak a, ownerAfter s.owner k a, s.core⟩ k c') := by
  have hcore : CoreStep (withCore s k c).intruderBreak ((withCore s k c).core k) a c' := by
    simpa [withCore] using h
  have hstep := Step.core (withCore s k c) k a c' hcore hfree hbusy
  simpa [withCore] using hstep

/-- An instruction that touches nothing shared. -/
theorem step_quiet (s : State K) (k : K) {a : Action} {c c' : Core}
    (h : CoreStep s.intruderBreak c a c') (hflag : flagAfter s.intruderBreak a = s.intruderBreak)
    (howner : ownerAfter s.owner k a = s.owner) (hspin : ∀ m, a ≠ .spin m)
    (hlock : ∀ m, a ≠ .lock m) : Step (withCore s k c) (k, a) (withCore s k c') := by
  have hstep := step_withCore s k h (fun m hm => absurd hm (hlock m))
    (fun m hm => absurd hm (hspin m))
  rwa [hflag, howner] at hstep

/-- The state in which core `k` runs the closure of a call on `m` that found DAIF at `d`. -/
def inBody (s : State K) (k : K) (m : Driver) (d : Daif) (st : List Record) : State K :=
  withCore { s with owner := Function.update s.owner m (some k) } k
    ⟨allMasked, .call m (.body d) :: st⟩

/-- A call on a free mutex reaches its closure. -/
theorem run_inBody (s : State K) (k : K) (m : Driver) (d : Daif) (st : List Record)
    (hfree : s.owner m = none) :
    Run Step (withCore s k ⟨d, .call m .entry :: st⟩) ([.mrs, .daifSet, .lock m].map (k, ·))
      (inBody s k m d st) := by
  have hmrs := step_quiet s k (.mrs d st m) rfl rfl (by simp) (by simp)
  have hset := step_quiet s k (.daifSet d st m d) rfl rfl (by simp) (by simp)
  have hlock := step_withCore s k (.lock allMasked st m d) (by simp [hfree]) (by simp)
  rw [or_allMasked] at hset
  exact .cons hmrs (.cons hset (.cons hlock (.nil _)))

/-- An undisturbed call on a free mutex returns and leaves the state as it was. -/
theorem run_lockIrq (s : State K) (k : K) (m : Driver) (d : Daif) (st : List Record)
    (hfree : s.owner m = none) :
    Run Step (withCore s k ⟨d, .call m .entry :: st⟩) ((lockIrq m).map (k, ·))
      (withCore s k ⟨d, st⟩) := by
  have hunlock := step_withCore { s with owner := Function.update s.owner m (some k) } k
    (.unlock allMasked st m d) (by simp) (by simp)
  have hrestore := step_quiet s k (.restore allMasked st m d) rfl rfl (by simp) (by simp)
  have howner : Function.update (Function.update s.owner m (some k)) m none = s.owner := by
    rw [Function.update_idem, ← hfree, Function.update_eq_self]
  simp only [ownerAfter, howner, flagAfter] at hunlock
  exact (run_inBody s k m d st hfree).append (.cons hunlock (.cons hrestore (.nil _)))

theorem run_call (s : State K) (k : K) {m : Driver} (huser : UserCode (s.core k).stack)
    (hfree : s.owner m = none) : Run Step s ((.call m :: lockIrq m).map (k, ·)) s := by
  have hcall := step_quiet s k (.call (s.core k).daif (s.core k).stack m huser) rfl rfl
    (by simp) (by simp)
  have hrun := Run.cons hcall (run_lockIrq s k m (s.core k).daif (s.core k).stack hfree)
  have hself : withCore s k ⟨(s.core k).daif, (s.core k).stack⟩ = s := withCore_self s k
  rwa [hself] at hrun

/-- With the lock of the controller free, `intruder_break` raises the flag and leaves nothing
else behind. -/
theorem run_intruderBreak (s : State K) (k : K) (huser : UserCode (s.core k).stack)
    (hfree : s.owner .gic = none) :
    Run Step s (intruderBreak.map (k, ·)) { s with intruderBreak := true } := by
  have hstore := step_withCore s k
    (.store (s.core k).daif (s.core k).stack true huser) (by simp) (by simp)
  have hself : withCore s k ⟨(s.core k).daif, (s.core k).stack⟩ = s := withCore_self s k
  have hraised : withCore { s with intruderBreak := true } k
      ⟨(s.core k).daif, (s.core k).stack⟩ = { s with intruderBreak := true } :=
    withCore_self { s with intruderBreak := true } k
  simp only [ownerAfter, flagAfter] at hstore
  rw [hself, hraised] at hstore
  exact .cons hstore (run_call { s with intruderBreak := true } k huser hfree)

theorem run_stmWrite (s : State K) (k : K) (buf : List (BitVec 8))
    (huser : UserCode (s.core k).stack) (hfree : s.owner .stm = none) :
    Run Step s ((stmWrite buf).map (k, ·)) s := by
  unfold stmWrite
  split
  · exact .nil s
  · exact run_call s k huser hfree

/-- An interrupt at any unmasked instruction, one inside `lock_irq` included, is handled
without a trace while the lock of the controller is free and the flag is lowered. -/
theorem run_irqHandler (s : State K) (k : K) (hopen : irqMasked (s.core k).daif = false)
    (hfree : s.owner .gic = none) (hflag : s.intruderBreak = false) :
    Run Step s (irqHandler.map (k, ·)) s := by
  generalize hd : (s.core k).daif = d at hopen
  generalize hst : (s.core k).stack = st
  have hself : withCore s k ⟨d, st⟩ = s := by
    rw [← hd, ← hst]
    exact withCore_self s k
  have hirq := step_quiet s k (.irq d st hopen) rfl rfl (by simp) (by simp)
  have hack := step_quiet s k (.callAck allMasked st d) rfl rfl (by simp) (by simp)
  have hfound := step_quiet s k (.acked allMasked st d true) rfl rfl (by simp) (by simp)
  have hend := step_quiet s k (.callEnd allMasked st d) rfl rfl (by simp) (by simp)
  have hlowered : CoreStep s.intruderBreak ⟨allMasked, .irq d .poll :: st⟩ .poll
      ⟨allMasked, .irq d .leave :: st⟩ := by
    simpa [hflag] using @CoreStep.poll s.intruderBreak allMasked st d
  have hpoll := step_quiet s k hlowered rfl rfl (by simp) (by simp)
  have heret := step_quiet s k (.eret allMasked st d) rfl rfl (by simp) (by simp)
  have hfirst := run_lockIrq s k .gic allMasked (.irq d .acked :: st) hfree
  have hsecond := run_lockIrq s k .gic allMasked (.irq d .poll :: st) hfree
  have hentry : Run Step s ([Action.irq, .callAck].map (k, ·))
      (withCore s k ⟨allMasked, .call .gic .entry :: .irq d .acked :: st⟩) := by
    rw [hself] at hirq
    exact .cons hirq (.cons hack (.nil _))
  have hmiddle := Run.cons hfound (.cons hend (.nil _))
  have hexit : Run Step (withCore s k ⟨allMasked, .irq d .poll :: st⟩)
      ([Action.poll, .eret].map (k, ·)) s := by
    rw [hself] at heret
    exact .cons hpoll (.cons heret (.nil _))
  have hrun := (((hentry.append hfirst).append hmiddle).append hsecond).append hexit
  simpa [irqHandler] using hrun

/-- Two cores that start with nothing masked. -/
def start : State Bool := ⟨false, fun _ => none, fun _ => ⟨0, []⟩⟩

theorem start_reaches : Reaches Step start (inBody start false .uart 0 []) := by
  have hcall := step_quiet start false (.call 0 [] .uart trivial) rfl rfl (by simp) (by simp)
  have hself : withCore start false ⟨0, []⟩ = start := withCore_self start false
  rw [hself] at hcall
  exact ⟨_, .cons hcall (run_inBody start false .uart 0 [] rfl)⟩

/-- The guarantees in one state: on the holders of the mutexes, on the handlers, and on the
calls of `lock_irq` from this state to their return. -/
structure Safe (s : State K) : Prop where
  masked : ∀ k m, s.owner m = some k → irqMasked (s.core k).daif = true
  running : ∀ k m, s.owner m = some k → ∃ m' phase rest, (s.core k).stack = .call m' phase :: rest
  entered : ∀ k t, Step s (k, .irq) t → ∀ m, s.owner m ≠ some k
  parked : ∀ k, Parked (s.core k) → ∀ m, s.owner m ≠ some k
  handlerMasked : ∀ k, InHandler (s.core k) → (s.core k).daif = allMasked
  handlerWaits : ∀ k m spsr pc rest,
    Waits (s.core k) m (.irq spsr pc :: rest) → s.owner m ≠ some k
  nestedWaits : ∀ k m rest, Waits (s.core k) m rest → m ∉ nest rest → s.owner m ≠ some k
  restored : ∀ k m rest, (s.core k).stack = .call m .entry :: rest →
    ∀ ls t l u, Run (Above (fun s => (s.core k).stack) Step rest.length) s ls t → Step t l u →
      (u.core k).stack.length ≤ rest.length →
      (u.core k).stack = rest ∧ (u.core k).daif = (s.core k).daif

/-- Every reachable state gives the guarantees. -/
theorem lock_irq_safe {s₀ : State K} (hinit : s₀.Initial) (hreach : Reaches Step s₀ s) :
    Safe s := by
  have h := invariant_of_reaches hinit hreach
  constructor
  · intro k m hown
    rw [h.allMasked_of_owner hown]
    rfl
  · intro k m hown
    exact h.running_of_owner hown
  · intro k t hstep m hown
    have hmasked := h.allMasked_of_owner hown
    have hopen := (step_own hstep).irqMasked_of_irq
    rw [hmasked] at hopen
    exact absurd hopen (by decide)
  · rintro k ⟨spsr, rest, hst⟩ m
    exact h.not_owner_of_nest (by rw [hst]; rfl)
  · rintro k ⟨spsr, pc, hmem⟩
    exact allMasked_of_mem (h.coherent k) hmem trivial
  · intro k m spsr pc rest hwait
    exact h.not_owner_of_waits hwait (by rw [nest_irq]; exact List.not_mem_nil)
  · intro k m rest hwait hnew
    exact h.not_owner_of_waits hwait hnew
  · intro k m rest hst ls t l u hrun hstep hreturn
    exact restored_of_run (fun s : State K => (s.core k).daif) (fun s => (s.core k).stack)
      (fun _ _ _ hmove => step_move hmove k) hst hrun hstep hreturn

theorem lock_irq_safe_start : Safe (inBody start false .uart 0 []) :=
  lock_irq_safe (show start.Initial from ⟨fun _ => rfl, fun _ => rfl⟩) start_reaches

end InterferenceMitigation.LockSafety
