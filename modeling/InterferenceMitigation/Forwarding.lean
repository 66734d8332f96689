import InterferenceMitigation.GroupCommands
import InterferenceMitigation.ProcessSetup
import InterferenceMitigation.Transition

/-!
`Runner::run`: the main task spawns the children, starts the forwarding task, waits for
the primary or for a cancellation, kills all children, cancels the forwarding task and
waits for it. Both tasks live on one thread. `turn` is the task that is being polled,
which keeps the thread until it reaches an await; children run all the time.
-/

namespace InterferenceMitigation.Forwarding

open FreezeControl GroupCommands ProcessSetup Transition

variable {T : Type*}

/-- The forwarding task: `head` is the start of its loop, `empty` the check of the token
after the ring was found empty, `handle` and `send` hold the message in flight. -/
inductive FwdPc (T : Type*)
  | unspawned
  | head
  | empty
  | handle (x : T)
  | send (x : T)
  | done (ok : Bool)

/-- What the forwarding task works on. `sent`, `handed` and `received` record the messages
put into the ring, given to `tx` and taken out by the receiver. -/
structure Stream (T : Type*) where
  ring : List T
  chan : List T
  closed : Bool
  groups : Groups
  sent : List T
  handed : List T
  received : List T

/-- The main task in `run`, at its next action. `kill` keeps the children to be signalled
and those that are waited for. -/
inductive MainPc
  | spawn (todo : List Id)
  | select
  | wait
  | kill (todo waiting : List Id)
  | stop
  | join
  | returned (ok : Bool)
  deriving DecidableEq, Repr

/-- The task that is being polled, if any. -/
inductive Turn
  | idle
  | main
  | fwd
  deriving DecidableEq, Repr

/-- The state of the main task and what it has control of: the children and whether each
is alive, the stop token of the forwarding task, the cancellation it was given itself, and
whether one of the results of killing is an error. -/
structure Control where
  main : MainPc
  turn : Turn
  tasks : List Id
  alive : Id → Bool
  token : Bool
  cancel : Bool
  killFailed : Bool

structure State (T : Type*) where
  stream : Stream T
  fwd : FwdPc T
  control : Control

/-- The processes that were added, in the order of the map, the primary, and the capacity
of the channel. -/
structure Config where
  ids : List Id
  primary : Id
  capacity : ℕ
  deriving DecidableEq, Repr

inductive FwdLabel
  | recv
  | recvNone
  | recvErr
  | break
  | yieldNow
  | handle
  | handleErr
  | send
  | pending
  | sendErr
  deriving DecidableEq, Repr

/-- Why the main task stops waiting. -/
inductive Cause
  | cancelled
  | exited
  | waitErr
  deriving DecidableEq, Repr

inductive MainLabel
  | spawn
  | spawnErr
  | fork
  | select
  | missing
  | leave (cause : Cause)
  | signal
  | killErr
  | reap
  | reapErr
  | collect
  | collectErr
  | cancelToken
  | joined
  | suspend
  deriving DecidableEq, Repr

inductive EnvLabel
  | childSend
  | childExit
  | receive
  | close
  | ctrlC
  | pollMain
  | pollFwd
  deriving DecidableEq, Repr

inductive Label
  | fwd (l : FwdLabel)
  | main (l : MainLabel)
  | env (l : EnvLabel)
  deriving DecidableEq, Repr

section Step

variable [Ipc T]

/-- An action of the forwarding task, which reads `token`, and whose turn it is then. -/
inductive FwdStep (capacity : ℕ) (token : Bool) :
    Stream T → FwdPc T → FwdLabel → Stream T → FwdPc T → Turn → Prop
  | recv (st : Stream T) (x : T) (rest : List T) (h : st.ring = x :: rest) :
      FwdStep capacity token st .head .recv { st with ring := rest } (.handle x) .fwd
  | recvNone (st : Stream T) (h : st.ring = []) :
      FwdStep capacity token st .head .recvNone st .empty .fwd
  | recvErr (st : Stream T) :
      FwdStep capacity token st .head .recvErr st (.done false) .idle
  | break (st : Stream T) (h : token = true) :
      FwdStep capacity token st .empty .break st (.done true) .idle
  | yieldNow (st : Stream T) (h : token = false) :
      FwdStep capacity token st .empty .yieldNow st .head .idle
  | handle (st : Stream T) (x : T) :
      FwdStep capacity token st (.handle x) .handle
        { st with groups := st.groups.handle (Ipc.irq x) } (.send x) .fwd
  | handleErr (st : Stream T) (x : T) (id : ℕ) (h : (request id x).isSome)
      (hid : (st.groups id).isSome) :
      FwdStep capacity token st (.handle x) .handleErr st (.done false) .idle
  | send (st : Stream T) (x : T) (h : st.chan.length < capacity) (hopen : st.closed = false) :
      FwdStep capacity token st (.send x) .send
        { st with chan := st.chan ++ [x], handed := st.handed ++ [x] } .head .fwd
  | pending (st : Stream T) (x : T) :
      FwdStep capacity token st (.send x) .pending st (.send x) .idle
  | sendErr (st : Stream T) (x : T) (h : st.closed = true) :
      FwdStep capacity token st (.send x) .sendErr st (.done false) .idle

end Step

def FwdPc.Terminated : FwdPc T → Prop
  | .done _ => True
  | _ => False

/-- One of the branches of `select!` is ready. A failing wait counts as an exit. -/
def Control.Ready (c : Control) (primary : Id) : Cause → Prop
  | .cancelled => c.cancel = true
  | .exited => c.alive primary = false
  | .waitErr => True

/-- An action of the main task. It suspends in `select!`, while children that were
signalled are still to be reaped, and while the forwarding task has not terminated. -/
inductive MainStep (cfg : Config) :
    Control → FwdPc T → MainLabel → Control → FwdPc T → Prop
  | spawn (c : Control) (f : FwdPc T) (id : Id) (todo : List Id)
      (h : c.main = .spawn (id :: todo)) :
      MainStep cfg c f .spawn { c with
        main := .spawn todo, tasks := c.tasks ++ [id], alive := Function.update c.alive id true } f
  | spawnErr (c : Control) (f : FwdPc T) (id : Id) (todo : List Id)
      (h : c.main = .spawn (id :: todo)) :
      MainStep cfg c f .spawnErr { c with main := .returned false, turn := .idle } f
  | fork (c : Control) (f : FwdPc T) (h : c.main = .spawn []) :
      MainStep cfg c f .fork { c with main := .select } .head
  | select (c : Control) (f : FwdPc T) (h : c.main = .select) (hid : cfg.primary ∈ c.tasks) :
      MainStep cfg c f .select { c with main := .wait } f
  | missing (c : Control) (f : FwdPc T) (h : c.main = .select) (hid : cfg.primary ∉ c.tasks) :
      MainStep cfg c f .missing { c with main := .returned false, turn := .idle } f
  | leave (c : Control) (f : FwdPc T) (cause : Cause) (order : List Id) (h : c.main = .wait)
      (hready : c.Ready cfg.primary cause) (horder : order.Perm c.tasks) :
      MainStep cfg c f (.leave cause) { c with main := .kill order [] } f
  | signal (c : Control) (f : FwdPc T) (id : Id) (todo waiting : List Id)
      (h : c.main = .kill (id :: todo) waiting) :
      MainStep cfg c f .signal { c with main := .kill todo (id :: waiting) } f
  | killErr (c : Control) (f : FwdPc T) (id : Id) (todo waiting : List Id)
      (h : c.main = .kill (id :: todo) waiting) :
      MainStep cfg c f .killErr { c with main := .kill todo waiting, killFailed := true } f
  | reap (c : Control) (f : FwdPc T) (id : Id) (todo waiting : List Id)
      (h : c.main = .kill todo waiting) (hid : id ∈ waiting) (hdead : c.alive id = false) :
      MainStep cfg c f .reap { c with main := .kill todo (waiting.erase id) } f
  | reapErr (c : Control) (f : FwdPc T) (id : Id) (todo waiting : List Id)
      (h : c.main = .kill todo waiting) (hid : id ∈ waiting) :
      MainStep cfg c f .reapErr
        { c with main := .kill todo (waiting.erase id), killFailed := true } f
  | collect (c : Control) (f : FwdPc T) (h : c.main = .kill [] []) (hok : c.killFailed = false) :
      MainStep cfg c f .collect { c with main := .stop } f
  | collectErr (c : Control) (f : FwdPc T) (h : c.main = .kill [] [])
      (herr : c.killFailed = true) :
      MainStep cfg c f .collectErr { c with main := .returned false, turn := .idle } f
  | cancelToken (c : Control) (f : FwdPc T) (h : c.main = .stop) :
      MainStep cfg c f .cancelToken { c with main := .join, token := true } f
  | joined (c : Control) (f : FwdPc T) (h : c.main = .join) (hdone : f.Terminated) :
      MainStep cfg c f .joined { c with main := .returned true, turn := .idle } f
  | suspend (c : Control) (f : FwdPc T)
      (h : c.main = .wait ∨ (∃ id waiting, c.main = .kill [] (id :: waiting)) ∨
        c.main = .join ∧ ¬ f.Terminated) :
      MainStep cfg c f .suspend { c with turn := .idle } f

/-- What happens beside the two tasks: the children, the receiver, the signal handler and
the scheduler, of which only the children act while a task is being polled. -/
inductive EnvStep : State T → EnvLabel → State T → Prop
  | childSend (s : State T) (id : Id) (x : T) (h : s.control.alive id = true) :
      EnvStep s .childSend { s with
        stream := { s.stream with ring := s.stream.ring ++ [x], sent := s.stream.sent ++ [x] } }
  | childExit (s : State T) (id : Id) :
      EnvStep s .childExit { s with
        control := { s.control with alive := Function.update s.control.alive id false } }
  | receive (s : State T) (x : T) (rest : List T) (h : s.stream.chan = x :: rest)
      (hturn : s.control.turn = .idle) :
      EnvStep s .receive { s with
        stream := { s.stream with chan := rest, received := s.stream.received ++ [x] } }
  | close (s : State T) (hturn : s.control.turn = .idle) :
      EnvStep s .close { s with stream := { s.stream with closed := true } }
  | ctrlC (s : State T) (hturn : s.control.turn = .idle) :
      EnvStep s .ctrlC { s with control := { s.control with cancel := true } }
  | pollMain (s : State T) (hturn : s.control.turn = .idle)
      (h : ∀ ok, s.control.main ≠ .returned ok) :
      EnvStep s .pollMain { s with control := { s.control with turn := .main } }
  | pollFwd (s : State T) (hturn : s.control.turn = .idle) (hspawned : s.fwd ≠ .unspawned)
      (h : ¬ s.fwd.Terminated) :
      EnvStep s .pollFwd { s with control := { s.control with turn := .fwd } }

/-- A task acts only when it is its turn. -/
inductive Step [Ipc T] (cfg : Config) : State T → Label → State T → Prop
  | fwd (s : State T) (l : FwdLabel) (st : Stream T) (f : FwdPc T) (turn : Turn)
      (hturn : s.control.turn = .fwd)
      (h : FwdStep cfg.capacity s.control.token s.stream s.fwd l st f turn) :
      Step cfg s (.fwd l) ⟨st, f, { s.control with turn := turn }⟩
  | main (s : State T) (l : MainLabel) (c : Control) (f : FwdPc T)
      (hturn : s.control.turn = .main) (h : MainStep cfg s.control s.fwd l c f) :
      Step cfg s (.main l) ⟨s.stream, f, c⟩
  | env (s : State T) (l : EnvLabel) (t : State T) (h : EnvStep s l t) : Step cfg s (.env l) t

/-- Before `run`: nothing is spawned, and the groups are those of the added processes. -/
def init (cfg : Config) (groups : Groups) : State T where
  stream := ⟨[], [], false, groups, [], [], []⟩
  fwd := .unspawned
  control := ⟨.spawn cfg.ids, .idle, [], fun _ => false, false, false, false⟩

def State.Returned (s : State T) : Prop := ∃ ok, s.control.main = .returned ok

/-- Between two awaits: the ring was found empty and the token not yet read, or a message
was taken and not yet handled. -/
def FwdPc.MidPoll : FwdPc T → Prop
  | .empty | .handle _ => True
  | _ => False

theorem FwdStep.turn_of_midPoll [Ipc T] {capacity : ℕ} {token : Bool} {st st' : Stream T}
    {f f' : FwdPc T} {l : FwdLabel} {turn : Turn}
    (h : FwdStep capacity token st f l st' f' turn) (hmid : f'.MidPoll) : turn = .fwd := by
  cases h <;> first | rfl | exact hmid.elim

theorem FwdStep.ne_unspawned [Ipc T] {capacity : ℕ} {token : Bool} {st st' : Stream T}
    {f f' : FwdPc T} {l : FwdLabel} {turn : Turn}
    (h : FwdStep capacity token st f l st' f' turn) : f ≠ .unspawned ∧ f' ≠ .unspawned := by
  cases h <;> simp

/-- The main task never touches the forwarding task except to start it. -/
theorem MainStep.fwd_eq {cfg : Config} {c c' : Control} {f f' : FwdPc T} {l : MainLabel}
    (h : MainStep cfg c f l c' f') : f' = f ∨ c.main = .spawn [] ∧ f' = .head := by
  cases h with
  | fork h => exact .inr ⟨h, rfl⟩
  | _ => exact .inl rfl

/-- Only `bar.cancel()` changes the token. -/
theorem MainStep.token_eq {cfg : Config} {c c' : Control} {f f' : FwdPc T} {l : MainLabel}
    (h : MainStep cfg c f l c' f') : c'.token = c.token ∨ c.main = .stop := by
  cases h with
  | cancelToken h => exact .inr h
  | _ => exact .inl rfl

theorem EnvStep.fwd_eq {s t : State T} {l : EnvLabel} (h : EnvStep s l t) : t.fwd = s.fwd := by
  cases h <;> rfl

/-- The environment changes nothing of the main task's own state. -/
theorem EnvStep.control_eq {s t : State T} {l : EnvLabel} (h : EnvStep s l t) :
    t.control.main = s.control.main ∧ t.control.tasks = s.control.tasks ∧
      t.control.token = s.control.token ∧ t.control.killFailed = s.control.killFailed := by
  cases h <;> exact ⟨rfl, rfl, rfl, rfl⟩

/-- A task is only given its turn while none is being polled. -/
theorem EnvStep.turn_eq {s t : State T} {l : EnvLabel} (h : EnvStep s l t) :
    t.control.turn = s.control.turn ∨ s.control.turn = .idle := by
  cases h with
  | pollMain hturn | pollFwd hturn => exact .inr hturn
  | _ => exact .inl rfl

/-- Only in its own turn the forwarding task is between two awaits. -/
def Uninterrupted (s : State T) : Prop := s.fwd.MidPoll → s.control.turn = .fwd

theorem Step.uninterrupted [Ipc T] {cfg : Config} {s t : State T} {l : Label}
    (h : Step cfg s l t) (hs : Uninterrupted s) : Uninterrupted t := by
  intro hmid
  cases h with
  | fwd l st f turn hturn h => exact h.turn_of_midPoll hmid
  | main l c f hturn h =>
    rcases h.fwd_eq with rfl | ⟨-, rfl⟩
    · exact absurd (hs hmid) (by simp [hturn])
    · exact hmid.elim
  | env l t h =>
    rw [h.fwd_eq] at hmid
    rcases h.turn_eq with hsame | hidle
    · rw [hsame, hs hmid]
    · exact absurd (hs hmid) (by simp [hidle])

/-- What is known of the other task and of the processes in each phase of the main task. -/
def Phase (cfg : Config) (c : Control) (f : FwdPc T) : Prop :=
  match c.main with
  | .spawn todo => f = .unspawned ∧ c.token = false ∧ c.tasks ++ todo = cfg.ids
  | .select => f = .head ∧ c.token = false ∧ c.tasks = cfg.ids ∧ c.turn = .main
  | .wait | .kill _ _ => f ≠ .unspawned ∧ c.token = false ∧ cfg.primary ∈ cfg.ids
  | .stop => f ≠ .unspawned ∧ c.token = false ∧ cfg.primary ∈ cfg.ids ∧ c.killFailed = false
  | .join => f ≠ .unspawned ∧ c.token = true ∧ cfg.primary ∈ cfg.ids ∧ c.killFailed = false
  | .returned true => f.Terminated ∧ c.token = true
  | .returned false => c.token = false

theorem FwdStep.phase [Ipc T] {cfg : Config} {c : Control} {st st' : Stream T}
    {f f' : FwdPc T} {l : FwdLabel} {turn : Turn} (hturn : c.turn = .fwd)
    (h : FwdStep cfg.capacity c.token st f l st' f' turn) (hs : Phase cfg c f) :
    Phase cfg { c with turn := turn } f' := by
  have hspawned := h.ne_unspawned
  unfold Phase at hs ⊢
  cases hmain : c.main with
  | spawn todo =>
    rw [hmain] at hs
    exact absurd hs.1 hspawned.1
  | select =>
    rw [hmain] at hs
    exact absurd hs.2.2.2 (by simp [hturn])
  | wait | kill todo waiting | stop | join =>
    rw [hmain] at hs
    exact ⟨hspawned.2, hs.2⟩
  | returned ok =>
    rw [hmain] at hs
    cases ok with
    | true =>
      obtain ⟨hterminated, -⟩ := hs
      cases h <;> exact hterminated.elim
    | false => exact hs

theorem MainStep.phase {cfg : Config} {c c' : Control} {f f' : FwdPc T} {l : MainLabel}
    (hturn : c.turn = .main) (h : MainStep cfg c f l c' f') (hs : Phase cfg c f) :
    Phase cfg c' f' := by
  unfold Phase at hs
  cases h with
  | spawn id todo h =>
    rw [h] at hs
    exact ⟨hs.1, hs.2.1, by simpa using hs.2.2⟩
  | spawnErr id todo h =>
    rw [h] at hs
    exact hs.2.1
  | fork h =>
    rw [h] at hs
    exact ⟨rfl, hs.2.1, by simpa using hs.2.2, hturn⟩
  | select h hid =>
    rw [h] at hs
    obtain ⟨rfl, htoken, htasks, -⟩ := hs
    exact ⟨by simp, htoken, htasks ▸ hid⟩
  | missing h hid =>
    rw [h] at hs
    exact hs.2.1
  | leave cause order h =>
    rw [h] at hs
    exact hs
  | signal id todo waiting h | killErr id todo waiting h | reap id todo waiting h
  | reapErr id todo waiting h =>
    rw [h] at hs
    exact hs
  | collect h hok =>
    rw [h] at hs
    exact ⟨hs.1, hs.2.1, hs.2.2, hok⟩
  | collectErr h herr =>
    rw [h] at hs
    exact hs.2.1
  | cancelToken h =>
    rw [h] at hs
    exact ⟨hs.1, rfl, hs.2.2⟩
  | joined h hdone =>
    rw [h] at hs
    exact ⟨hdone, hs.2.1⟩
  | suspend h =>
    rcases h with h | ⟨id, waiting, h⟩ | ⟨h, -⟩ <;>
    · rw [h] at hs
      simpa [Phase, h] using hs

theorem Step.phase [Ipc T] {cfg : Config} {s t : State T} {l : Label} (h : Step cfg s l t)
    (hs : Phase cfg s.control s.fwd) : Phase cfg t.control t.fwd := by
  cases h with
  | fwd l st f turn hturn h => exact h.phase hturn hs
  | main l c f hturn h => exact h.phase hturn hs
  | env l t h =>
    obtain ⟨hmain, htasks, htoken, hfailed⟩ := h.control_eq
    unfold Phase at hs ⊢
    rw [hmain, h.fwd_eq, htasks, htoken, hfailed]
    rcases h.turn_eq with hturn | hidle
    · rw [hturn]
      exact hs
    · cases hpc : s.control.main with
      | select =>
        rw [hpc] at hs
        exact absurd hs.2.2.2 (by simp [hidle])
      | returned ok =>
        rw [hpc] at hs
        cases ok <;> exact hs
      | _ =>
        rw [hpc] at hs
        exact hs

theorem init_phase (cfg : Config) (groups : Groups) :
    Phase cfg (init cfg groups : State T).control (init cfg groups : State T).fwd :=
  ⟨rfl, rfl, rfl⟩

/-- A message that is nothing but its command. -/
abbrev Message := Option Irq

instance : Ipc Message := ⟨id⟩

/-- One process of id `(0, 0)`. -/
def oneProcess (primary : Id) : Config := ⟨[(0, 0)], primary, 4096⟩

/-- Before `run`, with the group of that process. -/
def start (primary : Id) : State Message := init (oneProcess primary) (.created [0])

/-- The first poll of `run` has begun. -/
def polled (primary : Id) : State Message :=
  { start primary with control := { (start primary).control with turn := .main } }

/-- The child and the forwarding task are started. -/
def forked (primary : Id) : State Message where
  stream := (start primary).stream
  fwd := .head
  control :=
    { (start primary).control with
      main := .select
      turn := .main
      tasks := [(0, 0)]
      alive := Function.update (fun _ => false) (0, 0) true }

theorem run_polled (primary : Id) :
    Run (Step (oneProcess primary)) (start primary) [.env .pollMain] (polled primary) :=
  .single (.env _ _ _ (.pollMain _ rfl (fun ok h => by cases h)))

theorem run_forked (primary : Id) :
    Run (Step (oneProcess primary)) (polled primary) [.main .spawn, .main .fork]
      (forked primary) :=
  .cons (.main _ _ _ _ rfl (.spawn _ _ (0, 0) [] rfl))
    (.single (.main _ _ _ _ rfl (.fork _ _ rfl)))

end InterferenceMitigation.Forwarding
