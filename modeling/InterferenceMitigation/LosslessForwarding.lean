import InterferenceMitigation.Forwarding

/-!
No message is lost, duplicated or reordered between the ring and the channel. The loop of
the forwarding task stops when it finds the ring empty and then the token cancelled; the
token is cancelled only when all children are dead, and not between these two checks, so
that nothing can reach the ring after it was found empty.
-/

namespace InterferenceMitigation.LosslessForwarding

open GroupCommands ProcessSetup Transition Forwarding

variable {T : Type*}

/-- The message between the ring and the channel, if any. -/
def inFlight : FwdPc T → List T
  | .handle x | .send x => [x]
  | _ => []

/-- The message whose command is obeyed but which is not in the channel yet. -/
def obeyed : FwdPc T → List T
  | .send x => [x]
  | _ => []

/-- The messages whose commands have been obeyed. -/
def consumed (s : State T) : List T := s.stream.handed ++ obeyed s.fwd

/-- Reading the ring, freezing, unfreezing, `tx.send` and killing fail in these actions, and
the receiver closes its end in the last. -/
def faults : List Label :=
  [.fwd .recvErr, .fwd .handleErr, .fwd .sendErr, .main .killErr, .main .reapErr, .env .close]

abbrev Faultless (l : Label) : Prop := l ∉ faults

/-- Where the messages are. -/
structure Conserved [Ipc T] (groups : Groups) (st : Stream T) (f : FwdPc T) : Prop where
  sent : st.sent = st.handed ++ inFlight f ++ st.ring
  handed : st.handed = st.received ++ st.chan
  groups : st.groups = consume groups (st.handed ++ obeyed f)

theorem fwdStep_conserved [Ipc T] {capacity : ℕ} {token : Bool} {st st' : Stream T} {f f' : FwdPc T}
    {l : FwdLabel} {turn : Turn} {groups : Groups}
    (h : FwdStep capacity token st f l st' f' turn) (hl : Faultless (.fwd l))
    (hs : Conserved groups st f) : Conserved groups st' f' := by
  obtain ⟨hsent, hhanded, hgroups⟩ := hs
  cases h with
  | recv x rest h => exact ⟨by simpa [inFlight, h] using hsent, hhanded, hgroups⟩
  | recvNone h | yieldNow h | «break» h => exact ⟨hsent, hhanded, hgroups⟩
  | recvErr => exact absurd (by decide) hl
  | handle x =>
    refine ⟨hsent, hhanded, ?_⟩
    rw [obeyed, consume_concat]
    simp only [obeyed, List.append_nil] at hgroups
    rw [← hgroups]
  | handleErr => exact absurd (by decide) hl
  | send x h hopen =>
    refine ⟨by simpa [inFlight] using hsent, ?_, ?_⟩
    · rw [hhanded, List.append_assoc]
    · simpa [obeyed] using hgroups
  | pending x => exact ⟨hsent, hhanded, hgroups⟩
  | sendErr => exact absurd (by decide) hl

theorem envStep_conserved [Ipc T] {s t : State T} {l : EnvLabel} {groups : Groups}
    (h : EnvStep s l t) (hs : Conserved groups s.stream s.fwd) :
    Conserved groups t.stream t.fwd := by
  obtain ⟨hsent, hhanded, hgroups⟩ := hs
  cases h with
  | childSend id x h =>
    refine ⟨?_, hhanded, hgroups⟩
    rw [hsent, List.append_assoc]
  | receive x rest h hturn =>
    refine ⟨hsent, ?_, hgroups⟩
    rw [hhanded, h, List.append_assoc, List.singleton_append]
  | _ => exact ⟨hsent, hhanded, hgroups⟩

theorem step_conserved [Ipc T] {cfg : Config} {s t : State T} {l : Label} {groups : Groups}
    (h : Step cfg s l t) (hl : Faultless l) (hphase : Phase cfg s.control s.fwd)
    (hs : Conserved groups s.stream s.fwd) : Conserved groups t.stream t.fwd := by
  cases h with
  | fwd l st f turn hturn h => exact fwdStep_conserved h hl hs
  | main l c f hturn h =>
    rcases h.fwd_eq with rfl | ⟨hmain, rfl⟩
    · exact hs
    · unfold Phase at hphase
      rw [hmain] at hphase
      rw [hphase.1] at hs
      exact ⟨hs.sent, hs.handed, hs.groups⟩
  | env l t h => exact envStep_conserved h hs

/-- Which children may be alive: while they are being killed those that are not reaped,
and none when the token is about to be cancelled. -/
def Supervised (c : Control) : Prop :=
  match c.main with
  | .spawn _ | .select | .wait => ∀ id, c.alive id = true → id ∈ c.tasks
  | .kill todo waiting => ∀ id, c.alive id = true → id ∈ todo ∨ id ∈ waiting
  | .stop | .join | .returned true => ∀ id, c.alive id = false
  | .returned false => True

theorem mainStep_supervised {cfg : Config} {c c' : Control} {f f' : FwdPc T} {l : MainLabel}
    (h : MainStep cfg c f l c' f') (hl : Faultless (.main l)) (hs : Supervised c) :
    Supervised c' := by
  unfold Supervised at hs
  cases h with
  | spawn id todo h =>
    rw [h] at hs
    intro id' halive
    by_cases hid : id' = id
    · simp [hid]
    · have hold : c.alive id' = true := by
        simpa only [Function.update_of_ne hid] using halive
      exact List.mem_append_left _ (hs id' hold)
  | spawnErr id todo h => trivial
  | fork h | select h hid =>
    rw [h] at hs
    exact hs
  | missing h hid => trivial
  | leave cause order h hready horder =>
    rw [h] at hs
    exact fun id halive => .inl (horder.mem_iff.mpr (hs id halive))
  | signal id todo waiting h =>
    rw [h] at hs
    intro id' halive
    rcases hs id' halive with htodo | hwaiting
    · rcases List.mem_cons.mp htodo with rfl | htodo
      · exact .inr (List.mem_cons_self ..)
      · exact .inl htodo
    · exact .inr (List.mem_cons_of_mem _ hwaiting)
  | killErr => exact absurd (by decide) hl
  | reap id todo waiting h hid hdead =>
    rw [h] at hs
    intro id' halive
    have hne : id' ≠ id := by
      rintro rfl
      simp [hdead] at halive
    exact (hs id' halive).imp_right (List.mem_erase_of_ne hne).mpr
  | reapErr => exact absurd (by decide) hl
  | collect h hok =>
    rw [h] at hs
    intro id
    simpa using hs id
  | collectErr h herr => trivial
  | cancelToken h =>
    rw [h] at hs
    exact hs
  | joined h hdone =>
    rw [h] at hs
    exact hs
  | suspend h =>
    rcases h with h | ⟨id, waiting, h⟩ | ⟨h, -⟩ <;>
    · rw [h] at hs
      simpa [Supervised, h] using hs

theorem envStep_supervised {s t : State T} {l : EnvLabel} (h : EnvStep s l t)
    (hs : Supervised s.control) : Supervised t.control := by
  have halive : ∀ id, t.control.alive id = true → s.control.alive id = true := by
    cases h with
    | childExit id =>
      intro id' hid'
      by_cases hid : id' = id
      · simp [hid] at hid'
      · simpa only [Function.update_of_ne hid] using hid'
    | _ => exact fun _ h => h
  have hdead : (∀ id, s.control.alive id = false) → ∀ id, t.control.alive id = false := by
    intro hall id
    by_contra hid
    have hold := halive id (by simpa using hid)
    simp [hall id] at hold
  obtain ⟨hmain, htasks, -, -⟩ := h.control_eq
  unfold Supervised at hs ⊢
  rw [hmain, htasks]
  cases hpc : s.control.main with
  | spawn todo | select | wait =>
    rw [hpc] at hs
    exact fun id hid => hs id (halive id hid)
  | kill todo waiting =>
    rw [hpc] at hs
    exact fun id hid => hs id (halive id hid)
  | stop | join =>
    rw [hpc] at hs
    exact hdead hs
  | returned ok =>
    rw [hpc] at hs
    cases ok with
    | true => exact hdead hs
    | false => trivial

theorem step_supervised [Ipc T] {cfg : Config} {s t : State T} {l : Label} (h : Step cfg s l t)
    (hl : Faultless l) (hs : Supervised s.control) : Supervised t.control := by
  cases h with
  | fwd l st f turn hturn h => exact hs
  | main l c f hturn h => exact mainStep_supervised h hl hs
  | env l t h => exact envStep_supervised h hs

/-- Once the token is cancelled no child is left to write to the ring. -/
theorem dead_of_token {cfg : Config} {s : State T} (hphase : Phase cfg s.control s.fwd)
    (hs : Supervised s.control) (htoken : s.control.token = true) (id : Id) :
    s.control.alive id = false := by
  unfold Phase at hphase
  unfold Supervised at hs
  cases hpc : s.control.main with
  | join =>
    rw [hpc] at hs
    exact hs id
  | returned ok =>
    rw [hpc] at hs hphase
    cases ok with
    | true => exact hs id
    | false => simp [htoken] at hphase
  | _ =>
    rw [hpc] at hphase
    simp [htoken] at hphase

/-- The ring stays empty after the last look at it, from which the task goes on to stop. -/
structure Drained (token : Bool) (ring : List T) (f : FwdPc T) : Prop where
  healthy : f ≠ .done false
  empty : f = .empty → token = true → ring = []
  done : f = .done true → token = true ∧ ring = []

theorem fwdStep_drained [Ipc T] {capacity : ℕ} {token : Bool} {st st' : Stream T} {f f' : FwdPc T}
    {l : FwdLabel} {turn : Turn} (h : FwdStep capacity token st f l st' f' turn)
    (hl : Faultless (.fwd l)) (hs : Drained token st.ring f) : Drained token st'.ring f' := by
  cases h with
  | recvNone h => exact ⟨by simp, fun _ _ => h, by simp⟩
  | «break» h => exact ⟨by simp, by simp, fun _ => ⟨h, hs.empty rfl h⟩⟩
  | recvErr | handleErr | sendErr => exact absurd (by decide) hl
  | _ => exact ⟨by simp, by simp, by simp⟩

theorem mainStep_drained {cfg : Config} {c c' : Control} {f f' : FwdPc T} {l : MainLabel}
    {ring : List T} (h : MainStep cfg c f l c' f') (hphase : Phase cfg c f) (hmid : ¬ f.MidPoll)
    (hs : Drained c.token ring f) : Drained c'.token ring f' := by
  rcases h.fwd_eq with rfl | ⟨-, rfl⟩
  · rcases h.token_eq with hsame | hstop
    · rw [hsame]
      exact hs
    · unfold Phase at hphase
      rw [hstop] at hphase
      refine ⟨hs.healthy, ?_, ?_⟩
      · rintro rfl
        exact absurd trivial hmid
      · intro hdone
        have htoken := (hs.done hdone).1
        simp [hphase.2.1] at htoken
  · exact ⟨by simp, by simp, by simp⟩

/-- A child that writes to the ring is alive, so that the token is not cancelled. -/
theorem envStep_drained {s t : State T} {l : EnvLabel} (h : EnvStep s l t)
    (hdead : s.control.token = true → ∀ id, s.control.alive id = false)
    (hs : Drained s.control.token s.stream.ring s.fwd) :
    Drained t.control.token t.stream.ring t.fwd := by
  cases h with
  | childSend id x h =>
    have htoken : s.control.token = false := by
      by_contra htoken
      have hid := hdead (by simpa using htoken) id
      simp [h] at hid
    refine ⟨hs.healthy, ?_, ?_⟩
    · intro _ htrue
      exact absurd htrue (by simp [htoken])
    · intro hdone
      exact absurd (hs.done hdone).1 (by simp [htoken])
  | _ => exact hs

/-- What is known in every state that is reached without a fault. -/
structure Invariant [Ipc T] (cfg : Config) (groups : Groups) (s : State T) : Prop where
  uninterrupted : Uninterrupted s
  phase : Phase cfg s.control s.fwd
  conserved : Conserved groups s.stream s.fwd
  supervised : Supervised s.control
  drained : Drained s.control.token s.stream.ring s.fwd

theorem init_invariant [Ipc T] (cfg : Config) (groups : Groups) :
    Invariant cfg groups (init cfg groups : State T) where
  uninterrupted := fun h => h.elim
  phase := init_phase cfg groups
  conserved := ⟨rfl, rfl, rfl⟩
  supervised := fun _ h => by simp [init] at h
  drained := ⟨by simp [init], by simp [init], by simp [init]⟩

theorem step_invariant [Ipc T] {cfg : Config} {groups : Groups} {s t : State T} {l : Label}
    (h : Step cfg s l t) (hl : Faultless l) (hs : Invariant cfg groups s) :
    Invariant cfg groups t where
  uninterrupted := h.uninterrupted hs.uninterrupted
  phase := h.phase hs.phase
  conserved := step_conserved h hl hs.phase hs.conserved
  supervised := step_supervised h hl hs.supervised
  drained := by
    cases h with
    | fwd l st f turn hturn h => exact fwdStep_drained h hl hs.drained
    | main l c f hturn h =>
      refine mainStep_drained h hs.phase (fun hmid => ?_) hs.drained
      have hfwd := hs.uninterrupted hmid
      simp [hturn] at hfwd
    | env l t h => exact envStep_drained h (dead_of_token hs.phase hs.supervised) hs.drained

/-- When `run` has returned `Ok`, the ring is empty and no message is in flight. -/
theorem Invariant.returned [Ipc T] {cfg : Config} {groups : Groups} {s : State T}
    (hs : Invariant cfg groups s) (hret : s.control.main = .returned true) :
    s.stream.ring = [] ∧ inFlight s.fwd = [] := by
  have hphase := hs.phase
  unfold Phase at hphase
  rw [hret] at hphase
  cases hf : s.fwd with
  | done ok =>
    cases ok with
    | true => exact ⟨(hs.drained.done hf).2, rfl⟩
    | false => exact absurd hf hs.drained.healthy
  | _ =>
    rw [hf] at hphase
    exact hphase.1.elim

/-- In every state of a run without faults the messages given to `tx`, the one in flight and
those in the ring are the messages sent, in order; every group is as the last obeyed command
for it says; and when `run` has returned `Ok`, every message was given to `tx` once. -/
theorem forwarding_lossless [Ipc T] (cfg : Config) (groups : Groups) (ls : List Label)
    (s : State T) (hrun : Run (Step cfg) (init cfg groups) ls s) (hls : ∀ l ∈ ls, Faultless l) :
    s.stream.sent = s.stream.handed ++ inFlight s.fwd ++ s.stream.ring ∧
      (inFlight s.fwd).length ≤ 1 ∧
      s.stream.handed = s.stream.received ++ s.stream.chan ∧
      (∀ id, s.stream.groups id =
        (groups id).map fun frozen => (lastRequest id (consumed s)).getD frozen) ∧
      (s.control.main = .returned true →
        s.stream.ring = [] ∧ s.stream.handed = s.stream.sent) := by
  have hinv : Invariant cfg groups s :=
    hrun.invariant_of_labels (A := Faultless)
      (fun _ _ _ hl hs hstep => step_invariant hstep hl hs) hls (init_invariant cfg groups)
  refine ⟨hinv.conserved.sent, ?_, hinv.conserved.handed, ?_, ?_⟩
  · cases s.fwd <;> simp [inFlight]
  · intro id
    rw [hinv.conserved.groups, consume_apply, consumed]
  · intro hret
    obtain ⟨hring, hflight⟩ := hinv.returned hret
    refine ⟨hring, ?_⟩
    rw [hinv.conserved.sent, hring, hflight, List.append_nil, List.append_nil]

/-- The child has sent a command while the main task waits. -/
def sentOne : State Message :=
  { forked (0, 0) with
    stream := ⟨[some (.freeze 0)], [], false, .created [0], [some (.freeze 0)], [], []⟩
    control := { (forked (0, 0)).control with main := .wait, turn := .idle } }

/-- The user has cancelled, and the child is signalled. -/
def killing : State Message :=
  { sentOne with
    control :=
      { sentOne.control with main := .kill [] [(0, 0)], turn := .main, cancel := true } }

/-- The child is dead, and the forwarding task is cancelled and waited for. -/
def cancelled : State Message :=
  { killing with
    control :=
      { killing.control with
        main := .join
        turn := .idle
        alive := Function.update killing.control.alive (0, 0) false
        token := true } }

/-- The forwarding task has obeyed the command. -/
def handled : State Message :=
  { cancelled with
    stream := ⟨[], [], false, (Groups.created [0]).set 0 true, [some (.freeze 0)], [], []⟩
    fwd := .send (some (.freeze 0))
    control := { cancelled.control with turn := .fwd } }

/-- The message is in the channel, and the forwarding task has ended. -/
def drained : State Message :=
  { cancelled with
    stream := ⟨[], [some (.freeze 0)], false, (Groups.created [0]).set 0 true,
      [some (.freeze 0)], [some (.freeze 0)], []⟩
    fwd := .done true }

def joined : State Message :=
  { drained with control := { drained.control with main := .returned true } }

theorem run_sentOne : Run (Step (oneProcess (0, 0))) (forked (0, 0))
    [.main .select, .main .suspend, .env .childSend] sentOne :=
  .cons (.main _ _ _ _ rfl (.select _ _ rfl (by decide))) <|
  .cons (.main _ _ _ _ rfl (.suspend _ _ (.inl rfl))) <|
  .single (.env _ _ _ (.childSend _ (0, 0) (some (FreezeControl.Irq.freeze 0)) rfl))

theorem run_killing : Run (Step (oneProcess (0, 0))) sentOne
    [.env .ctrlC, .env .pollMain, .main (.leave .cancelled), .main .signal] killing :=
  .cons (.env _ _ _ (.ctrlC _ rfl)) <|
  .cons (.env _ _ _ (.pollMain _ rfl (fun ok h => by cases h))) <|
  .cons (.main _ _ _ _ rfl (.leave _ _ .cancelled [(0, 0)] rfl rfl (.refl _))) <|
  .single (.main _ _ _ _ rfl (.signal _ _ (0, 0) [] [] rfl))

theorem run_cancelled : Run (Step (oneProcess (0, 0))) killing
    [.env .childExit, .main .reap, .main .collect, .main .cancelToken, .main .suspend]
    cancelled :=
  .cons (.env _ _ _ (.childExit _ (0, 0))) <|
  .cons (.main _ _ _ _ rfl (.reap _ _ (0, 0) [] [(0, 0)] rfl (by decide) rfl)) <|
  .cons (.main _ _ _ _ rfl (.collect _ _ rfl rfl)) <|
  .cons (.main _ _ _ _ rfl (.cancelToken _ _ rfl)) <|
  .single (.main _ _ _ _ rfl (.suspend _ _ (.inr (.inr ⟨rfl, by exact id⟩))))

theorem run_handled : Run (Step (oneProcess (0, 0))) cancelled
    [.env .pollFwd, .fwd .recv, .fwd .handle] handled :=
  .cons (.env _ _ _ (.pollFwd _ rfl (by simp [cancelled, killing, sentOne, forked])
    (by exact id))) <|
  .cons (.fwd _ _ _ _ _ rfl (.recv _ _ _ rfl)) <|
  .single (.fwd _ _ _ _ _ rfl (.handle _ _))

theorem run_drained : Run (Step (oneProcess (0, 0))) handled
    [.fwd .send, .fwd .recvNone, .fwd .break] drained :=
  .cons (.fwd _ _ _ _ _ rfl (.send _ _ (by decide) rfl)) <|
  .cons (.fwd _ _ _ _ _ rfl (.recvNone _ rfl)) <|
  .single (.fwd _ _ _ _ _ rfl (.break _ rfl))

theorem run_joined : Run (Step (oneProcess (0, 0))) drained [.env .pollMain, .main .joined]
    joined :=
  .cons (.env _ _ _ (.pollMain _ rfl (fun ok h => by cases h))) <|
  .single (.main _ _ _ _ rfl (.joined _ _ rfl (by trivial)))

/-- The labels of the runs above, in order. -/
def cancelledRun : List Label :=
  [.env .pollMain, .main .spawn, .main .fork, .main .select, .main .suspend, .env .childSend,
    .env .ctrlC, .env .pollMain, .main (.leave .cancelled), .main .signal, .env .childExit,
    .main .reap, .main .collect, .main .cancelToken, .main .suspend, .env .pollFwd, .fwd .recv,
    .fwd .handle, .fwd .send, .fwd .recvNone, .fwd .break, .env .pollMain, .main .joined]

theorem run_cancelledRun :
    Run (Step (oneProcess (0, 0))) (start (0, 0)) cancelledRun joined :=
  (((((((run_polled (0, 0)).append (run_forked (0, 0))).append run_sentOne).append
    run_killing).append run_cancelled).append run_handled).append run_drained).append run_joined

theorem forwarding_lossless_cancelled :
    joined.stream.sent = joined.stream.handed ++ inFlight joined.fwd ++ joined.stream.ring ∧
      (inFlight joined.fwd).length ≤ 1 ∧
      joined.stream.handed = joined.stream.received ++ joined.stream.chan ∧
      (∀ id, joined.stream.groups id = (Groups.created [0] id).map fun frozen =>
        (lastRequest id (consumed joined)).getD frozen) ∧
      (joined.control.main = .returned true →
        joined.stream.ring = [] ∧ joined.stream.handed = joined.stream.sent) :=
  forwarding_lossless (oneProcess (0, 0)) (.created [0]) cancelledRun joined
    run_cancelledRun (by decide)

end InterferenceMitigation.LosslessForwarding
