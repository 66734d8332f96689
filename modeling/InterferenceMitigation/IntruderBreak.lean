import InterferenceMitigation.Transition
import Mathlib.Logic.Function.Basic

/-!
Break requests to the intruder cores. Core 0 performs `intruder_break` and
`intruder_cont`; every intruder core runs the attack loop with interrupts enabled
and may be interrupted at any of its steps. A step is one access to something
shared: the flag `INTRUDER_BREAK`, the lock of the interrupt controller, or the
pending bit of SGI 3 on a core. The handler runs with interrupts masked.
-/

namespace InterferenceMitigation.IntruderBreak

open Transition

/-- Core 0 outside the two functions, or at the next access of `intruder_break`. -/
inductive ControlPc
  | idle
  | lockGic
  | sendSgi
  | unlockGic
  deriving DecidableEq, Repr

/-- The attack loop: before the next address is computed, or before it is written. -/
inductive AttackPc
  | compute
  | write
  deriving DecidableEq, Repr

/-- `Excps::irq` on one core, at its next access; `outside` is the attack loop. After
the acknowledgement `intid` records whether an interrupt was returned. -/
inductive HandlerPc
  | outside
  | lockAck
  | ack
  | unlockAck (intid : Bool)
  | lockEnd
  | endInterrupt
  | unlockEnd
  | poll
  | leave
  deriving DecidableEq, Repr

/-- One intruder core, with its pending bit of SGI 3. -/
structure Core where
  attack : AttackPc
  handler : HandlerPc
  pending : Bool
  deriving DecidableEq, Repr

/-- The accesses of an intruder core; `take` is the exception entry. -/
inductive Access
  | take
  | lockAck
  | ack
  | unlockAck
  | lockEnd
  | endInterrupt
  | unlockEnd
  | poll
  | leave
  | skip
  | compute
  | write
  deriving DecidableEq, Repr

def Access.locks : Access → Bool
  | .lockAck | .lockEnd => true
  | _ => false

def Access.unlocks : Access → Bool
  | .unlockAck | .unlockEnd => true
  | _ => false

/-- An access of an intruder core that reads `flag` in the shared flag. The
acknowledgement returns the pending interrupt, if there is one, and clears it; an
iteration of the attack loop is skipped while no cache set is selected. -/
inductive CoreStep (flag : Bool) : Core → Access → Core → Prop
  | take (c : Core) (h : c.handler = .outside) (hpending : c.pending = true) :
      CoreStep flag c .take { c with handler := .lockAck }
  | lockAck (c : Core) (h : c.handler = .lockAck) :
      CoreStep flag c .lockAck { c with handler := .ack }
  | ack (c : Core) (h : c.handler = .ack) :
      CoreStep flag c .ack { c with handler := .unlockAck c.pending, pending := false }
  | unlockAck (c : Core) (intid : Bool) (h : c.handler = .unlockAck intid) :
      CoreStep flag c .unlockAck { c with handler := if intid then .lockEnd else .leave }
  | lockEnd (c : Core) (h : c.handler = .lockEnd) :
      CoreStep flag c .lockEnd { c with handler := .endInterrupt }
  | endInterrupt (c : Core) (h : c.handler = .endInterrupt) :
      CoreStep flag c .endInterrupt { c with handler := .unlockEnd }
  | unlockEnd (c : Core) (h : c.handler = .unlockEnd) :
      CoreStep flag c .unlockEnd { c with handler := .poll }
  | poll (c : Core) (h : c.handler = .poll) :
      CoreStep flag c .poll { c with handler := if flag then .poll else .leave }
  | leave (c : Core) (h : c.handler = .leave) :
      CoreStep flag c .leave { c with handler := .outside }
  | skip (c : Core) (h : c.handler = .outside) (hpc : c.attack = .compute) :
      CoreStep flag c .skip c
  | compute (c : Core) (h : c.handler = .outside) (hpc : c.attack = .compute) :
      CoreStep flag c .compute { c with attack := .write }
  | write (c : Core) (h : c.handler = .outside) (hpc : c.attack = .write) :
      CoreStep flag c .write { c with attack := .compute }

/-- `gic` is the holder of the lock on `GIC_DRIVER`: `some none` for core 0. -/
structure State (K : Type*) where
  flag : Bool
  control : ControlPc
  gic : Option (Option K)
  core : K → Core

inductive Label (K : Type*)
  | breakStore
  | lockGic
  | sendSgi
  | unlockGic
  | contStore
  | core (k : K) (access : Access)
  deriving DecidableEq, Repr

variable {K : Type*}

namespace State

def initial : State K := ⟨false, .idle, none, fun _ => ⟨.compute, .outside, false⟩⟩

/-- Core 0 is not between the store and the end of `send_sgi` inside `intruder_break`. -/
def Sent (s : State K) : Prop := s.control ≠ .lockGic ∧ s.control ≠ .sendSgi

/-- The lock after an access of core `k`. -/
def gicAfter (s : State K) (k : K) (access : Access) : Option (Option K) :=
  if access.locks then some (some k) else if access.unlocks then none else s.gic

end State

/-- One access of one core. `send_sgi` targets every intruder core and sets its pending
bit, which merges with an interrupt that is already pending. -/
inductive Step [DecidableEq K] : State K → Label K → State K → Prop
  | breakStore (s : State K) (h : s.control = .idle) :
      Step s .breakStore { s with flag := true, control := .lockGic }
  | lockGic (s : State K) (h : s.control = .lockGic) (hfree : s.gic = none) :
      Step s .lockGic { s with control := .sendSgi, gic := some none }
  | sendSgi (s : State K) (h : s.control = .sendSgi) :
      Step s .sendSgi
        { s with control := .unlockGic, core := fun k => { s.core k with pending := true } }
  | unlockGic (s : State K) (h : s.control = .unlockGic) :
      Step s .unlockGic { s with control := .idle, gic := none }
  | contStore (s : State K) (h : s.control = .idle) :
      Step s .contStore { s with flag := false }
  | core (s : State K) (k : K) (access : Access) (c : Core)
      (h : CoreStep s.flag (s.core k) access c) (hfree : access.locks = true → s.gic = none) :
      Step s (.core k access)
        { s with gic := s.gicAfter k access, core := Function.update s.core k c }

namespace Core

/-- Inside `Excps::irq`. -/
def InIrq (c : Core) : Prop := c.handler ≠ .outside

/-- Inside the handler and still to read the flag before it can leave. -/
def Held (c : Core) : Prop := c.handler ≠ .outside ∧ c.handler ≠ .leave

/-- What the pending bit is known to be inside the handler: nothing clears it before the
acknowledgement, so the acknowledgement always returns an interrupt. -/
def Consistent (c : Core) : Prop :=
  (c.handler = .lockAck ∨ c.handler = .ack → c.pending = true) ∧ c.handler ≠ .unlockAck false

/-- A request reaches the core: its interrupt is pending, or it has yet to read the flag. -/
def Requested (c : Core) : Prop := c.pending = true ∨ c.Held

end Core

theorem CoreStep.consistent {flag : Bool} {c c' : Core} {access : Access}
    (h : CoreStep flag c access c') (hc : c.Consistent) : c'.Consistent := by
  cases h with
  | take h hpending => simp [Core.Consistent, hpending]
  | lockAck h => simp [Core.Consistent, hc.1 (Or.inl h)]
  | ack h => simp [Core.Consistent, hc.1 (Or.inr h)]
  | unlockAck intid h => cases intid <;> simp [Core.Consistent]
  | lockEnd h => simp [Core.Consistent]
  | endInterrupt h => simp [Core.Consistent]
  | unlockEnd h => simp [Core.Consistent]
  | poll h => cases flag <;> simp [Core.Consistent]
  | leave h => simp [Core.Consistent]
  | skip h hpc => exact hc
  | compute h hpc => exact hc
  | write h hpc => exact hc

/-- While the flag is raised a held core stays in the handler: it leaves by a poll that
reads false, or by an acknowledgement that returns nothing, which does not happen. -/
theorem CoreStep.held {c c' : Core} {access : Access} (h : CoreStep true c access c')
    (hc : c.Consistent) (hheld : c.Held) : c'.Held := by
  cases h with
  | unlockAck intid h =>
    cases intid with
    | false => exact absurd h hc.2
    | true => simp [Core.Held]
  | leave h => exact absurd h hheld.2
  | skip h hpc => exact absurd h hheld.1
  | compute h hpc => exact absurd h hheld.1
  | write h hpc => exact absurd h hheld.1
  | _ => simp [Core.Held]

/-- The bit is cleared only by the acknowledgement, inside the handler. -/
theorem CoreStep.requested {c c' : Core} {access : Access} (h : CoreStep true c access c')
    (hc : c.Consistent) (hreq : c.Requested) : c'.Requested := by
  rcases hreq with hpending | hheld
  · cases h with
    | ack h => exact Or.inr (by simp [Core.Held])
    | _ => exact Or.inl hpending
  · exact Or.inr (h.held hc hheld)

theorem CoreStep.held_of_entry {flag : Bool} {c c' : Core} {access : Access}
    (h : CoreStep flag c access c') (hentry : access = .take ∨ access = .ack) : c'.Held := by
  rcases hentry with rfl | rfl
  · cases h with
    | take h hpending => simp [Core.Held]
  · cases h with
    | ack h => simp [Core.Held]

variable [DecidableEq K]

/-- What a step does to one core. -/
theorem step_core {s t : State K} {l : Label K} (h : Step s l t) (k : K) :
    t.core k = s.core k ∨ t.core k = { s.core k with pending := true } ∨
      ∃ access, l = .core k access ∧ CoreStep s.flag (s.core k) access (t.core k) := by
  cases h with
  | sendSgi h => exact Or.inr (Or.inl rfl)
  | core j access c h hfree =>
    by_cases hk : k = j
    · subst hk
      exact Or.inr (Or.inr ⟨access, rfl, by simpa using h⟩)
    · exact Or.inl (by simp [hk])
  | _ => exact Or.inl rfl

/-- Only the store of `intruder_cont` lowers the flag. -/
theorem step_flag {s t : State K} {l : Label K} (h : Step s l t) (hl : l ≠ .contStore)
    (hflag : s.flag = true) : t.flag = true := by
  cases h with
  | breakStore h => rfl
  | contStore h => exact absurd rfl hl
  | _ => exact hflag

/-- The flag, the pending bits and the program counters, combined. -/
structure Invariant (s : State K) : Prop where
  raised : s.control ≠ .idle → s.flag = true
  consistent : ∀ k, (s.core k).Consistent
  requested : s.flag = true → s.Sent → ∀ k, (s.core k).Requested

omit [DecidableEq K] in
theorem initial_invariant : Invariant (State.initial : State K) where
  raised h := absurd rfl h
  consistent k := by simp [State.initial, Core.Consistent]
  requested h := by simp [State.initial] at h

theorem consistent_step {s t : State K} {l : Label K} (h : Step s l t) {k : K}
    (hc : (s.core k).Consistent) : (t.core k).Consistent := by
  rcases step_core h k with hsame | hset | ⟨access, _, hstep⟩
  · exact hsame ▸ hc
  · rw [hset]
    exact ⟨fun _ => rfl, hc.2⟩
  · exact hstep.consistent hc

theorem requested_step {s t : State K} {l : Label K} (h : Step s l t) {k : K}
    (hflag : s.flag = true) (hc : (s.core k).Consistent) (hreq : (s.core k).Requested) :
    (t.core k).Requested := by
  rcases step_core h k with hsame | hset | ⟨access, _, hstep⟩
  · exact hsame ▸ hreq
  · rw [hset]
    exact Or.inl rfl
  · rw [hflag] at hstep
    exact hstep.requested hc hreq

theorem held_step {s t : State K} {l : Label K} (h : Step s l t) {k : K}
    (hflag : s.flag = true) (hc : (s.core k).Consistent) (hheld : (s.core k).Held) :
    (t.core k).Held := by
  rcases step_core h k with hsame | hset | ⟨access, _, hstep⟩
  · exact hsame ▸ hheld
  · rw [hset]
    exact hheld
  · rw [hflag] at hstep
    exact hstep.held hc hheld

theorem step_preserves {s t : State K} {l : Label K} (hs : Invariant s) (h : Step s l t) :
    Invariant t := by
  refine ⟨?_, fun k => consistent_step h (hs.consistent k), ?_⟩
  · cases h with
    | breakStore h => exact fun _ => rfl
    | lockGic h hfree => exact fun _ => hs.raised (by simp [h])
    | sendSgi h => exact fun _ => hs.raised (by simp [h])
    | unlockGic h => exact fun hne => absurd rfl hne
    | contStore h => exact fun hne => absurd h hne
    | core k access c h hfree => exact hs.raised
  · intro hflag hsent k
    cases h with
    | breakStore h => exact absurd rfl hsent.1
    | lockGic h hfree => exact absurd rfl hsent.2
    | sendSgi h => exact Or.inl rfl
    | unlockGic h => exact hs.requested hflag (by simp [State.Sent, h]) k
    | contStore h => simp at hflag
    | core j access c h hfree =>
      exact requested_step (.core s j access c h hfree) hflag (hs.consistent k)
        (hs.requested hflag hsent k)

/-- A raised flag and, on core `k`, a property of its handler that only `intruder_cont`
can end. -/
structure Stays (P : Core → Prop) (k : K) (s : State K) : Prop where
  invariant : Invariant s
  flag : s.flag = true
  core : P (s.core k)

/-- A property that every step keeps under a raised flag lasts until the next store of
`intruder_cont`. -/
theorem Stays.run {P : Core → Prop} {s t : State K} {k : K} {ls : List (Label K)}
    (hkeep : ∀ {s t : State K} {l : Label K}, Step s l t → s.flag = true →
      (s.core k).Consistent → P (s.core k) → P (t.core k))
    (hs : Stays P k s) (h : Run Step s ls t) (hcont : .contStore ∉ ls) : Stays P k t := by
  refine h.invariant_of_labels (A := fun l => l ≠ .contStore) ?_ ?_ hs
  · intro a l b hl ha hstep
    exact ⟨step_preserves ha.invariant hstep, step_flag hstep hl ha.flag,
      hkeep hstep ha.flag (ha.invariant.consistent k) ha.core⟩
  · intro l hmem heq
    exact hcont (heq ▸ hmem)

theorem stays_held {s t : State K} {k : K} {ls : List (Label K)} (hs : Stays Core.Held k s)
    (h : Run Step s ls t) (hcont : .contStore ∉ ls) : Stays Core.Held k t :=
  hs.run (fun hstep hflag hc hheld => held_step hstep hflag hc hheld) h hcont

theorem stays_requested {s t : State K} {k : K} {ls : List (Label K)}
    (hs : Stays Core.Requested k s) (h : Run Step s ls t) (hcont : .contStore ∉ ls) :
    Stays Core.Requested k t :=
  hs.run (fun hstep hflag hc hreq => requested_step hstep hflag hc hreq) h hcont

/-- A held core writes nothing before the next store of `intruder_cont`. -/
theorem held_no_write {s t : State K} {k : K} {ls : List (Label K)} (hs : Stays Core.Held k s)
    (h : Run Step s ls t) (hcont : .contStore ∉ ls) : .core k .write ∉ ls := by
  intro hmem
  obtain ⟨before, after, rfl⟩ := List.append_of_mem hmem
  obtain ⟨mid, hbefore, hafter⟩ := h.of_append
  have hmid := stays_held hs hbefore (fun hc => hcont (List.mem_append_left _ hc))
  cases hafter with
  | cons hstep _ =>
    cases hstep with
    | core _ _ c hcore hfree =>
      cases hcore with
      | write hout hpc => exact hmid.core.1 hout

/-- The end of `send_sgi` leaves the request pending on every core. -/
theorem requested_of_sendSgi {s t u : State K} {k : K} {ls : List (Label K)} (hs : Invariant s)
    (hsend : Step s .sendSgi t) (h : Run Step t ls u) (hcont : .contStore ∉ ls) :
    Stays Core.Requested k u := by
  have hflag : t.flag = true := by
    cases hsend with
    | sendSgi hpc => exact hs.raised (by simp [hpc])
  have hpending : (t.core k).Requested := by
    cases hsend with
    | sendSgi hpc => exact Or.inl rfl
  exact stays_requested ⟨step_preserves hs hsend, hflag, hpending⟩ h hcont

/-- Taking or acknowledging the interrupt while the flag is raised holds the core. -/
theorem held_of_entry {s t : State K} {k : K} {access : Access} (hs : Invariant s)
    (hflag : s.flag = true) (hentry : access = .take ∨ access = .ack)
    (h : Step s (.core k access) t) : Stays Core.Held k t := by
  refine ⟨step_preserves hs h, step_flag h (by simp) hflag, ?_⟩
  cases h with
  | core _ _ c hcore hfree => simpa using hcore.held_of_entry hentry

/-- An interrupt taken after a `send_sgi` holds the core from then on. -/
theorem held_of_mem_take {s t u : State K} {k : K} {ls : List (Label K)} (hs : Invariant s)
    (hsend : Step s .sendSgi t) (h : Run Step t ls u) (hcont : .contStore ∉ ls)
    (htake : .core k .take ∈ ls) : Stays Core.Held k u := by
  obtain ⟨before, after, rfl⟩ := List.append_of_mem htake
  obtain ⟨mid, hto, hfrom⟩ := h.of_append
  have hmid : Stays Core.Requested k mid :=
    requested_of_sendSgi hs hsend hto (fun hc => hcont (List.mem_append_left _ hc))
  cases hfrom with
  | cons hentry hend =>
    exact stays_held (held_of_entry hmid.invariant hmid.flag (Or.inl rfl) hentry) hend
      (fun hc => hcont (List.mem_append_right _ (List.mem_cons_of_mem _ hc)))

/-- No break request is lost. While the flag is raised and no `send_sgi` is outstanding,
every core has the interrupt pending or is inside the handler. A core that takes or
acknowledges the interrupt after a `send_sgi` writes nothing before the next store of
`intruder_cont`. A break issued while a core leaves the handler of an earlier one stays
requested on that core, and holds it as soon as the interrupt is taken. -/
theorem break_never_lost {ls : List (Label K)} {s : State K}
    (h : Run Step State.initial ls s) :
    (s.flag = true → s.Sent → ∀ k, (s.core k).pending = true ∨ (s.core k).InIrq) ∧
    (∀ k access ls₁ ls₂ ls₃, ls = ls₁ ++ .sendSgi :: ls₂ ++ .core k access :: ls₃ →
      (access = .take ∨ access = .ack) → .contStore ∉ ls₂ ++ ls₃ → .core k .write ∉ ls₃) ∧
    (∀ k ls₁ ls₂ t, (s.core k).handler = .leave → Run Step s (ls₁ ++ .sendSgi :: ls₂) t →
      .contStore ∉ ls₂ →
      ((t.core k).pending = true ∨ (t.core k).Held) ∧
        (.core k .take ∈ ls₂ → (t.core k).Held ∧
          ∀ ls₃ u, Run Step t ls₃ u → .contStore ∉ ls₃ → .core k .write ∉ ls₃)) := by
  have hs : Invariant s := h.invariant (fun _ _ _ => step_preserves) initial_invariant
  refine ⟨?_, ?_, ?_⟩
  · intro hflag hsent k
    rcases hs.requested hflag hsent k with hpending | hheld
    · exact Or.inl hpending
    · exact Or.inr hheld.1
  · intro k access ls₁ ls₂ ls₃ hsplit hentry hcont
    subst hsplit
    obtain ⟨q, hto, hrest⟩ := h.of_append
    obtain ⟨p, hbefore, hsend⟩ := hto.of_append
    have hp : Invariant p := hbefore.invariant (fun _ _ _ => step_preserves) initial_invariant
    have hq : Stays Core.Requested k q := by
      cases hsend with
      | cons hstep hrun =>
        exact requested_of_sendSgi hp hstep hrun (fun hc => hcont (List.mem_append_left _ hc))
    cases hrest with
    | cons hstep hrun =>
      exact held_no_write (held_of_entry hq.invariant hq.flag hentry hstep) hrun
        (fun hc => hcont (List.mem_append_right _ hc))
  · intro k ls₁ ls₂ t hleave hrun hcont
    obtain ⟨p, hbefore, hsend⟩ := hrun.of_append
    have hp : Invariant p := hbefore.invariant (fun _ _ _ => step_preserves) hs
    cases hsend with
    | cons hstep hafter =>
      have ht : Stays Core.Requested k t := requested_of_sendSgi hp hstep hafter hcont
      refine ⟨ht.core, ?_⟩
      intro htake
      have hheld : Stays Core.Held k t := held_of_mem_take hp hstep hafter hcont htake
      exact ⟨hheld.core, fun ls₃ u hlater hnone => held_no_write hheld hlater hnone⟩

/-- One break on three intruder cores, the first of which has entered its handler. -/
theorem break_never_lost_three :
    ∃ s : State (Fin 3),
      Run Step State.initial
        [.breakStore, .lockGic, .sendSgi, .unlockGic, .core 0 .take, .core 1 .compute] s ∧
      ∀ k, (s.core k).pending = true ∨ (s.core k).InIrq := by
  have hrun : Run Step (State.initial : State (Fin 3))
      [.breakStore, .lockGic, .sendSgi, .unlockGic, .core 0 .take, .core 1 .compute] _ :=
    .cons (.breakStore _ rfl) <|
    .cons (.lockGic _ rfl rfl) <|
    .cons (.sendSgi _ rfl) <|
    .cons (.unlockGic _ rfl) <|
    .cons (.core _ 0 .take _ (.take _ rfl rfl) (by simp [Access.locks])) <|
    .single (.core _ 1 .compute _ (.compute _ rfl rfl) (by simp [Access.locks]))
  exact ⟨_, hrun, (break_never_lost hrun).1 rfl (by simp [State.Sent])⟩

end InterferenceMitigation.IntruderBreak
