import InterferenceMitigation.AverageKept
import InterferenceMitigation.ExactAverage
import InterferenceMitigation.OutputFile
import InterferenceMitigation.Sweep

/-!
The Linux experiment as a whole: the Wasm runner reports its sweep through the ring, the
runner obeys the commands in the records, and the processes of the intruder's group execute
while their group is not frozen. A process may go on for a while after its group was frozen,
until the kernel has stopped it; from then on it executes nothing before it is released. It is
released only while the record obeyed last is within its budget, which may be an older one
than the record reported last.
-/

namespace InterferenceMitigation.ThrottledGroup

open MachineInt Durations ExactAverage FreezeControl GroupCommands ProcessSetup Transition
open Forwarding RunWasm Sweep AverageKept

variable {K : Type*} [DecidableEq K]

/-- The runner with the records whose commands it has obeyed, and which of the processes the
kernel has stopped. -/
structure System (K : Type*) where
  runner : Forwarding.State WasmRunnerIpc
  handled : List WasmRunnerIpc
  stopped : K → Bool

inductive Event (K : Type*)
  | runner (l : Label)
  | report
  | stop (k : K)
  | thaw (k : K)
  | work (k : K)
  deriving DecidableEq

/-- The record that is obeyed in an action of the forwarding task. -/
def obeys : FwdPc WasmRunnerIpc → Label → List WasmRunnerIpc
  | .handle x, .fwd .handle => [x]
  | _, _ => []

/-- Only the child `victim` sends, and it sends the records of `script` in their order. The
kernel stops and releases a process as the file of its group says, in its own time. -/
inductive Step (cfg : Config) (victim : Id) (script : List WasmRunnerIpc) (group : K → ℕ) :
    System K → Event K → System K → Prop
  | runner (s : System K) (l : Label) (t : Forwarding.State WasmRunnerIpc)
      (hsend : l ≠ .env .childSend) (h : Forwarding.Step cfg s.runner l t) :
      Step cfg victim script group s (.runner l)
        { s with runner := t, handled := s.handled ++ obeys s.runner.fwd l }
  | report (s : System K) (x : WasmRunnerIpc)
      (halive : s.runner.control.alive victim = true)
      (hnext : script[s.runner.stream.sent.length]? = some x) :
      Step cfg victim script group s .report { s with
        runner := { s.runner with
          stream := { s.runner.stream with
            ring := s.runner.stream.ring ++ [x]
            sent := s.runner.stream.sent ++ [x] } } }
  | stop (s : System K) (k : K) (h : s.runner.stream.groups (group k) = some true) :
      Step cfg victim script group s (.stop k)
        { s with stopped := Function.update s.stopped k true }
  | thaw (s : System K) (k : K) (h : s.runner.stream.groups (group k) = some false) :
      Step cfg victim script group s (.thaw k)
        { s with stopped := Function.update s.stopped k false }
  | work (s : System K) (k : K) (h : s.stopped k = false) :
      Step cfg victim script group s (.work k) s

def System.new (cfg : Config) (groups : Groups) : System K :=
  ⟨init cfg groups, [], fun _ => false⟩

/-- What a record tells about the budget. The first of a run is sent before anything was
executed, and freezes only when no time is allowed at all; later the time of the record, if
its picoseconds fit in 64 bits, is at most `wctpf` for each unit of its fuel. -/
def WithinBudget (r : WasmRunnerIpc) : Prop :=
  (r.l = 0 → r.wctpf ≠ some 0) ∧
    ∀ w b, 0 < r.l → r.wctpf = some w → r.accF = some b → Narrow r.accT →
      exactAverage r.accT b ≤ w.toNat

section Records

variable {p : Profile}

theorem logs_mitigated {fuel : Option U32} {m : Mitigator} {logger : WasmRunLogger}
    {cycle : Cycle} {rs : List Resumption} {log : List WasmRunnerIpc}
    (h : Logs p fuel m logger cycle rs log) :
    ∀ r ∈ log, r.wctpf = logger.wctpf ∧ m.mitigate p r.accT r.accF = .ok r.irq := by
  induction h with
  | nil => simp
  | cons _ haccount _ ih =>
    intro r hr
    rcases List.mem_cons.mp hr with rfl | hr
    · exact ⟨rfl, (account_eq_ok haccount).2.2.2⟩
    · exact ih r hr

/-- After its first record a run reports the answers of its mitigator. -/
theorem mitigated_of_mem {args : Args} {env : ℕ → ℕ → ℕ → RunEnv} {r : WasmRunnerIpc}
    (h : r ∈ (sweep p args env).log) (hl : 0 < r.l) :
    (Mitigator.forRun r.wctpf).mitigate p r.accT r.accF = .ok r.irq := by
  obtain ⟨c, hc⟩ := exists_cell_of_mem p args env h
  obtain ⟨rest, hlog, hlogs⟩ := exists_logs_of_mem hc
  rw [Cell.run, hlog] at hc
  rcases List.mem_cons.mp hc with rfl | hrest
  · exact absurd hl (by simp)
  · obtain ⟨hwctpf, hmitigate⟩ := logs_mitigated hlogs r hrest
    rw [hwctpf]
    exact hmitigate

/-- A record of the sweep that does not ask for a freeze is within its budget. -/
theorem withinBudget_of_released {args : Args} {env : ℕ → ℕ → ℕ → RunEnv} {r : WasmRunnerIpc}
    (h : r ∈ (sweep p args env).log) (hgo : r.irq ≠ some (.freeze 1)) : WithinBudget r := by
  refine ⟨?_, ?_⟩
  · intro hl hzero
    obtain ⟨c, hc⟩ := exists_cell_of_mem p args env h
    have hirq := Cell.irq_eq hc hl
    rw [hzero] at hirq
    exact hgo hirq
  · intro w b hl hw hb hnarrow
    have hcall := mitigated_of_mem h hl
    rw [hw, hb] at hcall
    have hne := ne_zero_of_mitigate hcall
    have hsame := mitigate_forRun p w ⟨r.accT, b, hne⟩
    rw [hcall] at hsame
    have hirq := Except.ok.inj hsame
    by_contra hover
    have habove : w.toNat < (Call.mk r.accT b hne).average := by
      rw [Call.average, (picos_div_eq_iff r.accT hne).mpr hnarrow]
      exact Nat.lt_of_not_le hover
    rw [decide_eq_true habove] at hirq
    exact hgo hirq

end Records

/-- The message that was taken from the ring and is not obeyed yet. -/
def unhandled : FwdPc WasmRunnerIpc → List WasmRunnerIpc
  | .handle x => [x]
  | _ => []

/-- The records from the reporter to the groups. When the forwarding task has failed, no more
of them are obeyed. -/
structure Obeyed (groups : Groups) (handled : List WasmRunnerIpc)
    (st : Forwarding.Stream WasmRunnerIpc) (f : FwdPc WasmRunnerIpc) : Prop where
  order : handled <+: st.sent
  running : ¬ f.Terminated → st.sent = handled ++ unhandled f ++ st.ring
  consumed : st.groups = consume groups handled

theorem fwdStep_obeyed {capacity : ℕ} {token : Bool} {st st' : Forwarding.Stream WasmRunnerIpc}
    {f f' : FwdPc WasmRunnerIpc} {l : FwdLabel} {turn : Turn} {groups : Groups}
    {handled : List WasmRunnerIpc} (h : FwdStep capacity token st f l st' f' turn)
    (hs : Obeyed groups handled st f) : Obeyed groups (handled ++ obeys f (.fwd l)) st' f' := by
  obtain ⟨hconsumed, hrunning, hgroups⟩ := hs
  have hsent := hrunning (OutputFile.fwdStep_running h)
  cases h with
  | recv x rest h =>
    simp only [obeys, List.append_nil]
    refine ⟨hconsumed, fun _ => ?_, hgroups⟩
    simpa [unhandled, h] using hsent
  | handle x =>
    refine ⟨⟨st.ring, hsent.symm⟩, fun _ => ?_, ?_⟩
    · simpa [obeys, unhandled] using hsent
    · rw [obeys, consume_concat, ← hgroups]
  | recvErr | handleErr | sendErr | «break» =>
    simp only [obeys, List.append_nil]
    exact ⟨hconsumed, fun hrun => absurd trivial hrun, hgroups⟩
  | _ =>
    simp only [obeys, List.append_nil]
    exact ⟨hconsumed, fun _ => hsent, hgroups⟩

theorem fwdStep_sent {capacity : ℕ} {token : Bool} {st st' : Forwarding.Stream WasmRunnerIpc}
    {f f' : FwdPc WasmRunnerIpc} {l : FwdLabel} {turn : Turn}
    (h : FwdStep capacity token st f l st' f' turn) : st'.sent = st.sent := by
  cases h <;> rfl

/-- Only the forwarding task obeys. -/
theorem obeys_of_ne (f : FwdPc WasmRunnerIpc) {l : Label} (h : l ≠ .fwd .handle) :
    obeys f l = [] := by
  unfold obeys
  split
  · exact absurd rfl h
  · rfl

/-- Any action of the runner but a child's sending. -/
theorem runner_obeyed {cfg : Config} {s t : Forwarding.State WasmRunnerIpc} {l : Label}
    {groups : Groups} {handled : List WasmRunnerIpc} (h : Forwarding.Step cfg s l t)
    (hsend : l ≠ .env .childSend) (hphase : Phase cfg s.control s.fwd)
    (hs : Obeyed groups handled s.stream s.fwd) :
    t.stream.sent = s.stream.sent ∧
      Obeyed groups (handled ++ obeys s.fwd l) t.stream t.fwd := by
  cases h with
  | fwd l st f turn hturn h =>
    exact ⟨fwdStep_sent h, fwdStep_obeyed h hs⟩
  | main l c f hturn h =>
    rw [obeys_of_ne _ (by simp), List.append_nil]
    refine ⟨rfl, ?_⟩
    rcases h.fwd_eq with rfl | ⟨hmain, rfl⟩
    · exact hs
    · unfold Phase at hphase
      rw [hmain] at hphase
      rw [hphase.1] at hs
      exact ⟨hs.order, fun _ => hs.running (by simp [FwdPc.Terminated]), hs.consumed⟩
  | env l t h =>
    rw [obeys_of_ne _ (by simp), List.append_nil]
    cases h with
    | childSend => exact absurd rfl hsend
    | _ => exact ⟨rfl, hs.order, hs.running, hs.consumed⟩

/-- What is known in every state of the experiment. -/
structure Invariant (cfg : Config) (groups : Groups) (script : List WasmRunnerIpc)
    (s : System K) : Prop where
  phase : Phase cfg s.runner.control s.runner.fwd
  sent : s.runner.stream.sent <+: script
  obeyed : Obeyed groups s.handled s.runner.stream s.runner.fwd

omit [DecidableEq K] in
theorem Invariant.new (cfg : Config) (groups : Groups) (script : List WasmRunnerIpc) :
    Invariant cfg groups script (.new cfg groups : System K) where
  phase := init_phase cfg groups
  sent := List.nil_prefix
  obeyed := ⟨List.nil_prefix, fun _ => rfl, rfl⟩

theorem concat_prefix {α : Type*} {xs ys : List α} {y : α} (h : xs <+: ys)
    (hnext : ys[xs.length]? = some y) : xs ++ [y] <+: ys := by
  obtain ⟨zs, rfl⟩ := h
  rw [List.getElem?_append_right le_rfl, Nat.sub_self] at hnext
  cases zs with
  | nil => cases hnext
  | cons z zs =>
    obtain rfl := Option.some.inj hnext
    exact ⟨zs, by simp⟩

section Runs

variable {cfg : Config} {victim : Id} {script : List WasmRunnerIpc} {group : K → ℕ}
variable {groups : Groups} {s t : System K} {es : List (Event K)}

theorem Invariant.step {e : Event K} (hs : Invariant cfg groups script s)
    (h : Step cfg victim script group s e t) : Invariant cfg groups script t := by
  cases h with
  | runner l t hsend h =>
    obtain ⟨hsent, hobeyed⟩ := runner_obeyed h hsend hs.phase hs.obeyed
    exact ⟨h.phase hs.phase, by rw [hsent]; exact hs.sent, hobeyed⟩
  | report x halive hnext =>
    refine ⟨hs.phase, concat_prefix hs.sent hnext, ?_, ?_, hs.obeyed.consumed⟩
    · exact hs.obeyed.order.trans (List.prefix_append _ _)
    · intro hrun
      rw [hs.obeyed.running hrun, List.append_assoc]
  | stop k h | thaw k h | work k h => exact ⟨hs.phase, hs.sent, hs.obeyed⟩

/-- A process that was stopped and executes again was released in between. -/
theorem exists_thaw {k : K} (h : Run (Step cfg victim script group) s es t)
    (hs : s.stopped k = true) (ht : t.stopped k = false) :
    ∃ a b u, es = a ++ .thaw k :: b ∧ Run (Step cfg victim script group) s a u ∧
      u.runner.stream.groups (group k) = some false := by
  induction h with
  | nil => exact absurd (hs.symm.trans ht) (by simp)
  | @cons s u t e es hstep _ ih =>
    by_cases hu : u.stopped k = true
    · obtain ⟨a, b, v, rfl, hrun, hfree⟩ := ih hu ht
      exact ⟨e :: a, b, v, rfl, .cons hstep hrun, hfree⟩
    · cases hstep with
      | thaw k' hfree =>
        by_cases hk : k = k'
        · subst hk
          exact ⟨[], es, s, rfl, .nil _, hfree⟩
        · exact absurd (by simpa [hk] using hs) hu
      | stop k' hfrozen =>
        by_cases hk : k = k'
        · exact absurd (by simp [hk]) hu
        · exact absurd (by simpa [hk] using hs) hu
      | runner l t hsend h | report x halive hnext | work k' h => exact absurd hs hu

end Runs

/-- The state in which a process of the intruder's group is released. -/
structure Releasing (p : Profile) (args : Args) (env : ℕ → ℕ → ℕ → RunEnv) (s : System K) :
    Prop where
  -- the records obeyed are the first of the sweep, in its order
  handled : s.handled <+: s.runner.stream.sent
  sent : s.runner.stream.sent <+: (sweep p args env).log
  within : ∀ r, s.handled.getLast? = some r → WithinBudget r
  -- a freeze that was already reported is still on its way
  behind : ∀ r, s.runner.stream.sent.getLast? = some r → r.irq = some (.freeze 1) →
    s.handled ≠ s.runner.stream.sent

omit [DecidableEq K] in
theorem releasing_of_unfrozen {p : Profile} {args : Args} {env : ℕ → ℕ → ℕ → RunEnv}
    {cfg : Config} {groups : Groups} {s : System K}
    (hs : Invariant cfg groups (sweep p args env).log s)
    (hfree : s.runner.stream.groups 1 = some false) : Releasing p args env s := by
  have hgo : ∀ r, s.handled.getLast? = some r → r.irq ≠ some (.freeze 1) := by
    intro r hr hfreeze
    obtain ⟨init, hinit⟩ := List.getLast?_eq_some_iff.mp hr
    rw [hs.obeyed.consumed, hinit, consume_concat, Groups.handle_apply] at hfree
    have hrequest : request 1 r = some true := by
      unfold request
      rw [show Ipc.irq r = r.irq from rfl, hfreeze]
      rfl
    rw [hrequest] at hfree
    cases hgroup : consume groups init 1 with
    | none => simp [hgroup] at hfree
    | some b => simp [hgroup] at hfree
  refine ⟨hs.obeyed.order, hs.sent, ?_, ?_⟩
  · intro r hr
    have hmem : r ∈ s.handled := List.mem_of_getLast? hr
    exact withinBudget_of_released
      ((hs.obeyed.order.trans hs.sent).subset hmem) (hgo r hr)
  · intro r hr hfreeze hsame
    rw [← hsame] at hr
    exact hgo r hr hfreeze

/-- For every interleaving of the reporter, the runner, the kernel and the processes, whatever
fails: between the stop of a process of the intruder's group and its next execution there is
a moment at which it is released, and at which the record obeyed last was within its budget. -/
theorem stopped_until_released (p : Profile) (args : Args) (env : ℕ → ℕ → ℕ → RunEnv)
    (cfg : Config) (groups : Groups) (victim : Id) (group : K → ℕ) (k : K) (hgroup : group k = 1)
    (before mid after : List (Event K)) (s : System K)
    (h : Run (Step cfg victim (sweep p args env).log group) (.new cfg groups)
      (before ++ .stop k :: (mid ++ .work k :: after)) s) :
    ∃ a b u, mid = a ++ .thaw k :: b ∧
      Run (Step cfg victim (sweep p args env).log group) (.new cfg groups)
        (before ++ .stop k :: a) u ∧ Releasing p args env u := by
  obtain ⟨s₁, hbefore, h⟩ := h.of_append
  cases h with
  | @cons _ s₂ _ _ _ hstop h =>
    obtain ⟨s₃, hmid, hwork⟩ := h.of_append
    have hstopped : s₂.stopped k = true := by
      cases hstop with
      | stop k hfrozen => simp
    have hgoing : s₃.stopped k = false := by
      cases hwork with
      | cons hstep _ =>
        cases hstep with
        | work k hgoing => exact hgoing
    obtain ⟨a, b, u, rfl, ha, hfree⟩ := exists_thaw hmid hstopped hgoing
    have hrun := hbefore.append (.cons hstop ha)
    rw [hgroup] at hfree
    have hu : Invariant cfg groups (sweep p args env).log u :=
      hrun.invariant (fun _ _ _ hs hstep => hs.step hstep) (.new cfg groups _)
    exact ⟨a, b, u, rfl, hrun, releasing_of_unfrozen hu hfree⟩

/-- One run of one unit of fuel with no time allowed, over in no time. -/
def strictArgs : Args := ⟨[1], [0], none⟩

def instantRun (_ _ _ : ℕ) : RunEnv where
  epoch := .zero
  setup := none
  start := .zero
  sent := true
  resumptions := [⟨.zero, .zero, some (.finished (some 0)), true, true, true⟩]

/-- The first record is on its way when the stressor is stopped, the second releases it. -/
theorem stopped_until_released_strict : ∃ a b, ∃ u : System Unit,
    ([.runner (.fwd .send), .report, .runner (.fwd .recv), .runner (.fwd .handle), .thaw ()] :
        List (Event Unit)) = a ++ .thaw () :: b ∧
      Releasing .checked strictArgs instantRun u := by
  have hrun : Run (Step (K := Unit) (oneProcess (0, 0)) (0, 0)
      (sweep .checked strictArgs instantRun).log (fun _ => 1))
      (.new (oneProcess (0, 0)) (.created [0, 1]))
      ([.runner (.env .pollMain), .runner (.main .spawn), .runner (.main .fork),
        .runner (.main .select), .runner (.main .suspend), .report, .runner (.env .pollFwd),
        .runner (.fwd .recv), .runner (.fwd .handle)] ++ .stop () ::
        ([.runner (.fwd .send), .report, .runner (.fwd .recv), .runner (.fwd .handle),
          .thaw ()] ++ [.work ()])) _ :=
    .cons (.runner _ _ _ (by simp) (.env _ _ _ (.pollMain _ rfl (fun ok h => by cases h)))) <|
    .cons (.runner _ _ _ (by simp) (.main _ _ _ _ rfl (.spawn _ _ (0, 0) [] rfl))) <|
    .cons (.runner _ _ _ (by simp) (.main _ _ _ _ rfl (.fork _ _ rfl))) <|
    .cons (.runner _ _ _ (by simp) (.main _ _ _ _ rfl (.select _ _ rfl (by decide)))) <|
    .cons (.runner _ _ _ (by simp) (.main _ _ _ _ rfl (.suspend _ _ (.inl rfl)))) <|
    .cons (.report _ _ rfl rfl) <|
    .cons (.runner _ _ _ (by simp) (.env _ _ _ (.pollFwd _ rfl (by simp) id))) <|
    .cons (.runner _ _ _ (by simp) (.fwd _ _ _ _ _ rfl (.recv _ _ _ rfl))) <|
    .cons (.runner _ _ _ (by simp) (.fwd _ _ _ _ _ rfl (.handle _ _))) <|
    .cons (.stop _ _ rfl) <|
    .cons (.runner _ _ _ (by simp) (.fwd _ _ _ _ _ rfl (.send _ _ (by decide) rfl))) <|
    .cons (.report _ _ rfl rfl) <|
    .cons (.runner _ _ _ (by simp) (.fwd _ _ _ _ _ rfl (.recv _ _ _ rfl))) <|
    .cons (.runner _ _ _ (by simp) (.fwd _ _ _ _ _ rfl (.handle _ _))) <|
    .cons (.thaw _ _ rfl) <|
    .single (.work _ _ rfl)
  obtain ⟨a, b, u, hmid, -, hreleasing⟩ := stopped_until_released .checked strictArgs instantRun
    (oneProcess (0, 0)) (.created [0, 1]) (0, 0) (fun _ => 1) () rfl _ _ [] _ hrun
  exact ⟨a, b, u, hmid, hreleasing⟩

end InterferenceMitigation.ThrottledGroup
