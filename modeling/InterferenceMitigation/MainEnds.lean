import InterferenceMitigation.OutputFile
import InterferenceMitigation.ShutdownProgress

/-!
When the Linux runner ends. `main` waits for `run` and then for the task that writes the
records, which ends when the sender of the channel is gone. The sender belongs to the
forwarding task, which `run` leaves looping when the primary is not one of the processes.
-/

namespace InterferenceMitigation.MainEnds

open BufferedWriter CompactJson Durations Forwarding GroupCommands LosslessForwarding
open OutputFile RunWasm ShutdownProgress Transition

variable {nanos : Duration → Json} {cfg : Config} {s t : Main}

/-- Nothing fails in this event. -/
def EventUnfailing (e : MainEvent) : Prop := e ≠ .flushErr ∧ ∀ l ∈ e.labels, Unfailing l

instance (e : MainEvent) : Decidable (EventUnfailing e) :=
  inferInstanceAs (Decidable (e ≠ .flushErr ∧
    ∀ l ∈ e.labels, l ∉ faults ∧ l ≠ .main .spawnErr))

/-- What is known of both tasks in every state reached without a failure. -/
structure Intact (nanos : Duration → Json) (cfg : Config) (groups : Groups) (s : Main) :
    Prop where
  invariant : Invariant cfg groups s.runner
  healthy : Healthy cfg s.runner
  writing : Writing nanos cfg s
  out : s.out ≠ .done false

variable {groups : Groups}

theorem Intact.step {e : MainEvent} (hs : Intact nanos cfg groups s)
    (h : OutputFile.Step nanos cfg s e t) (he : EventUnfailing e) : Intact nanos cfg groups t := by
  have hwriting := hs.writing.step h
  cases h with
  | runner l t hreceive hclose h =>
    have hl := he.2 l (List.mem_singleton_self l)
    exact ⟨step_invariant h hl.1 hs.invariant, step_healthy h hl hs.healthy, hwriting, hs.out⟩
  | written x rest t dev hout hchan hwrite h =>
    have hl := he.2 _ (List.mem_singleton_self _)
    have hstep : Forwarding.Step cfg s.runner (.env .receive) t := .env _ _ _ h
    exact ⟨step_invariant hstep hl.1 hs.invariant, step_healthy hstep hl hs.healthy, hwriting,
      hs.out⟩
  | writeErr x rest t u dev room hout hchan hwrite h hclose => exact absurd he (by decide)
  | finished room hout hchan hgone hflush => exact ⟨hs.invariant, hs.healthy, hwriting, by simp⟩
  | flushErr room hout hchan hgone hflush => exact absurd rfl he.1

/-- What the runner can do, `main` can do: the writing task takes the messages. -/
theorem exists_run {ls : List Label} {r u : State WasmRunnerIpc}
    (h : Run (Forwarding.Step cfg) r ls u) (hls : ∀ l ∈ ls, Unfailing l)
    (hs : Intact nanos cfg groups s) (hr : s.runner = r) :
    ∃ es t, Run (OutputFile.Step nanos cfg) s es t ∧ (∀ e ∈ es, EventUnfailing e) ∧
      Intact nanos cfg groups t ∧ t.runner = u := by
  induction h generalizing s with
  | nil => exact ⟨[], s, .nil s, by simp, hs, hr⟩
  | @cons r v u l ls hstep _ ih =>
    subst hr
    have hl := hls l (List.mem_cons_self ..)
    have hrest := fun l hl => hls l (List.mem_cons_of_mem _ hl)
    have hnext : ∃ e t, OutputFile.Step nanos cfg s e t ∧ EventUnfailing e ∧ t.runner = v := by
      by_cases hreceive : l = .env .receive
      · subst hreceive
        cases hstep with
        | env l t h =>
          obtain ⟨x, rest, hchan⟩ : ∃ x rest, s.runner.stream.chan = x :: rest := by
            cases h with
            | receive x rest h hturn => exact ⟨x, rest, h⟩
          cases hout : s.out with
          | running =>
            exact ⟨_, _, .written s x rest v _ hout hchan (writeLine_ok _ _) h, by decide, rfl⟩
          | done ok =>
            cases ok with
            | true =>
              have hempty := (hs.writing.finished hout).2
              exact absurd (hchan.symm.trans hempty) (by simp)
            | false => exact absurd hout hs.out
      · have hclose : l ≠ .env .close := by
          rintro rfl
          exact absurd (by decide) hl.1
        exact ⟨_, _, .runner s l v hreceive hclose hstep,
          by simpa [EventUnfailing, MainEvent.labels] using hl, rfl⟩
    obtain ⟨e, t, hfirst, he, ht⟩ := hnext
    obtain ⟨es, w, hrun, hes, hw, hlast⟩ := ih hrest (hs.step hfirst he) ht
    exact ⟨e :: es, w, .cons hfirst hrun, by simpa [he] using hes, hw, hlast⟩

/-- The child and the forwarding task are started. -/
def started : List MainEvent :=
  [.runner (.env .pollMain), .runner (.main .spawn), .runner (.main .fork)]

end InterferenceMitigation.MainEnds
