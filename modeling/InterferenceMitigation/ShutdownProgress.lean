import InterferenceMitigation.LosslessForwarding

/-!
`run` does not get stuck. Whatever the children, the receiver and the scheduler have done, as
long as nothing fails there is a way for `run` to return: the children can be killed, and the
forwarding task, once cancelled, empties the ring though the channel may be full on the way.
From its cancellation on the number of its actions is fixed by what is left in the ring.
-/

namespace InterferenceMitigation.ShutdownProgress

open ProcessSetup GroupCommands Transition Forwarding LosslessForwarding

variable {T : Type*} [Ipc T] {cfg : Config} {s t : State T}

/-- Neither a fault nor a child that cannot be spawned. -/
abbrev Unfailing (l : Label) : Prop := Faultless l ∧ l ≠ .main .spawnErr

/-- What is known in every state that is reached without a failure, beside the messages. -/
structure Healthy (cfg : Config) (s : State T) : Prop where
  phase : Phase cfg s.control s.fwd
  channelOpen : s.stream.closed = false
  killed : s.control.killFailed = false
  running : s.control.turn = .fwd → s.fwd ≠ .unspawned ∧ ¬ s.fwd.Terminated
  resting : s.Returned → s.control.turn ≠ .main ∧ s.fwd ≠ .unspawned
  outcome : ∀ ok, s.control.main = .returned ok → ok = decide (cfg.primary ∈ cfg.ids)

theorem fwdStep_healthy {capacity : ℕ} {token : Bool} {st st' : Stream T} {f f' : FwdPc T}
    {l : FwdLabel} {turn : Turn} (h : FwdStep capacity token st f l st' f' turn) :
    st'.closed = st.closed ∧ turn ≠ .main ∧
      (turn = .fwd → f' ≠ .unspawned ∧ ¬ f'.Terminated) := by
  cases h <;> simp [FwdPc.Terminated]

omit [Ipc T] in
/-- The main task comes to its end in two ways. -/
theorem mainStep_returned {c c' : Control} {f f' : FwdPc T} {l : MainLabel} {ok : Bool}
    (h : MainStep cfg c f l c' f') (hl : Unfailing (.main l)) (hphase : Phase cfg c f)
    (hkilled : c.killFailed = false) (hret : c'.main = .returned ok) :
    c'.turn ≠ .main ∧ f' ≠ .unspawned ∧ ok = decide (cfg.primary ∈ cfg.ids) := by
  unfold Phase at hphase
  cases h with
  | spawnErr => exact absurd rfl hl.2
  | missing h hid =>
    rw [h] at hphase
    obtain ⟨rfl, -, htasks, -⟩ := hphase
    obtain rfl := MainPc.returned.inj hret
    rw [htasks] at hid
    exact ⟨by simp, by simp, by simp [hid]⟩
  | collectErr h herr => exact absurd herr (by simp [hkilled])
  | joined h hdone =>
    rw [h] at hphase
    obtain rfl := MainPc.returned.inj hret
    exact ⟨by simp, hphase.1, by simp [hphase.2.2.1]⟩
  | suspend h =>
    rcases h with h | ⟨id, waiting, h⟩ | ⟨h, -⟩ <;> exact absurd (h.symm.trans hret) (by simp)
  | _ => simp at hret

theorem step_healthy {l : Label} (h : Step cfg s l t) (hl : Unfailing l)
    (hs : Healthy cfg s) : Healthy cfg t := by
  have hphase := h.phase hs.phase
  cases h with
  | fwd l st f turn hturn h =>
    obtain ⟨hclosed, hmain, hnext⟩ := fwdStep_healthy h
    exact ⟨hphase, hclosed.trans hs.channelOpen, hs.killed, hnext,
      fun _ => ⟨hmain, h.ne_unspawned.2⟩, hs.outcome⟩
  | main l c f hturn h =>
    have hret : ∀ ok, c.main = .returned ok →
        c.turn ≠ .main ∧ f ≠ .unspawned ∧ ok = decide (cfg.primary ∈ cfg.ids) :=
      fun ok hok => mainStep_returned h hl hs.phase hs.killed hok
    refine ⟨hphase, hs.channelOpen, ?_, ?_, ?_, fun ok hok => (hret ok hok).2.2⟩
    · cases h with
      | killErr | reapErr => exact absurd (by decide) hl.1
      | _ => exact hs.killed
    · intro hfwd
      cases h <;> simp [hturn] at hfwd
    · rintro ⟨ok, hok⟩
      exact ⟨(hret ok hok).1, (hret ok hok).2.1⟩
  | env l t h =>
    obtain ⟨hmain, -, -, hfailed⟩ := h.control_eq
    have houtcome : ∀ ok, t.control.main = .returned ok →
        ok = decide (cfg.primary ∈ cfg.ids) := by
      rw [hmain]
      exact hs.outcome
    have hkilled := hfailed.trans hs.killed
    cases h with
    | close => exact absurd (by decide) hl.1
    | pollFwd hturn hspawned h =>
      exact ⟨hphase, hs.channelOpen, hkilled, fun _ => ⟨hspawned, h⟩,
        fun _ => ⟨by simp, hspawned⟩, houtcome⟩
    | pollMain hturn h =>
      exact ⟨hphase, hs.channelOpen, hkilled, by simp,
        fun ⟨ok, hok⟩ => absurd hok (h ok), houtcome⟩
    | _ => exact ⟨hphase, hs.channelOpen, hkilled, hs.running, hs.resting, houtcome⟩

section Drain

/-- `run` waits for the forwarding task, whose token is cancelled. -/
structure Joining (cfg : Config) (s : State T) : Prop where
  channelOpen : s.stream.closed = false
  main : s.control.main = .join
  token : s.control.token = true
  primary : cfg.primary ∈ cfg.ids

omit [Ipc T] in
theorem Joining.poll {st : Stream T} {f : FwdPc T} {turn : Turn} (hs : Joining cfg s)
    (hclosed : st.closed = s.stream.closed) :
    Joining cfg ⟨st, f, { s.control with turn := turn }⟩ :=
  ⟨hclosed.trans hs.channelOpen, hs.main, hs.token, hs.primary⟩

end Drain

section Main

/-- The main task has its turn, after the forwarding task was started, and nothing has
failed. -/
structure Working (cfg : Config) (s : State T) : Prop where
  channelOpen : s.stream.closed = false
  killed : s.control.killFailed = false
  turn : s.control.turn = .main
  spawned : s.fwd ≠ .unspawned
  primary : cfg.primary ∈ cfg.ids

omit [Ipc T] in
/-- Nothing of this is changed by going on. -/
theorem Working.goOn {c : Control} (hs : Working cfg s)
    (hkilled : c.killFailed = s.control.killFailed) (hturn : c.turn = s.control.turn) :
    Working cfg ⟨s.stream, s.fwd, c⟩ :=
  ⟨hs.channelOpen, hkilled.trans hs.killed, hturn.trans hs.turn, hs.spawned, hs.primary⟩

end Main

section Remaining

/-- How many of them are left to a task that is cancelled, those for the ring not counted. -/
def work : FwdPc T → ℕ
  | .unspawned | .done _ => 0
  | .empty => 1
  | .head => 2
  | .send _ => 3
  | .handle _ => 4

def remaining (s : State T) : ℕ := 3 * s.stream.ring.length + work s.fwd

/-- The token is cancelled, in a run without faults. -/
structure Cancelled (cfg : Config) (groups : Groups) (s : State T) : Prop where
  invariant : Invariant cfg groups s
  token : s.control.token = true

variable {groups : Groups}

theorem Cancelled.step {l : Label} (hs : Cancelled cfg groups s) (h : Step cfg s l t)
    (hl : Faultless l) : Cancelled cfg groups t := by
  refine ⟨step_invariant h hl hs.invariant, ?_⟩
  cases h with
  | fwd => exact hs.token
  | main l c f hturn h =>
    rcases h.token_eq with hsame | hstop
    · exact hsame.trans hs.token
    · have hphase := hs.invariant.phase
      unfold Phase at hphase
      rw [hstop, hs.token] at hphase
      exact absurd hphase.2.1 (by simp)
  | env l t h => exact h.control_eq.2.2.1.trans hs.token

theorem Cancelled.terminated_iff (hs : Cancelled cfg groups s) :
    s.fwd.Terminated ↔ remaining s = 0 := by
  have hdrained := hs.invariant.drained
  have hphase := hs.invariant.phase
  cases hf : s.fwd with
  | done ok =>
    cases ok with
    | true => simp [remaining, work, hf, FwdPc.Terminated, (hdrained.done hf).2]
    | false => exact absurd hf hdrained.healthy
  | unspawned =>
    unfold Phase at hphase
    rw [hf, hs.token] at hphase
    cases hmain : s.control.main with
    | returned ok => cases ok <;> simp [hmain, FwdPc.Terminated] at hphase
    | _ => simp [hmain] at hphase
  | _ => simp [remaining, work, hf, FwdPc.Terminated]

theorem Cancelled.returned {ok : Bool} (hs : Cancelled cfg groups s)
    (hret : s.control.main = .returned ok) : ok = true ∧ remaining s = 0 := by
  have hphase := hs.invariant.phase
  unfold Phase at hphase
  rw [hret] at hphase
  cases ok with
  | true => exact ⟨rfl, hs.terminated_iff.mp hphase.1⟩
  | false => exact absurd (hphase.symm.trans hs.token) (by simp)

end Remaining

end InterferenceMitigation.ShutdownProgress
