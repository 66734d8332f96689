import InterferenceMitigation.LosslessForwarding

/-!
What `Runner::run` leaves behind when it returns. Two of its early returns come after the
forwarding task was started and before its token is cancelled: the primary that is not
among the children, and the child that cannot be killed.
-/

namespace InterferenceMitigation.Shutdown

open GroupCommands Transition Forwarding LosslessForwarding

variable {T : Type*}

/-- The forwarding task is not left looping: it was never started, it has terminated, or
it will find its token cancelled. -/
def Clean (s : State T) : Prop :=
  s.fwd = .unspawned ∨ s.fwd.Terminated ∨ s.control.token = true

theorem step_returned [Ipc T] {cfg : Config} {s t : State T} {l : Label} (h : Step cfg s l t)
    (hs : s.Returned) : t.Returned := by
  obtain ⟨ok, hok⟩ := hs
  cases h with
  | fwd => exact ⟨ok, hok⟩
  | main l c f hturn h =>
    cases h with
    | suspend h => exact ⟨ok, hok⟩
    | _ => simp_all
  | env l t h => exact ⟨ok, h.control_eq.1.trans hok⟩

/-- Once `run` has returned, what is clean stays so. -/
theorem step_clean [Ipc T] {cfg : Config} {s t : State T} {l : Label} (h : Step cfg s l t)
    (hret : s.Returned) (hs : Clean s) : Clean t := by
  obtain ⟨ok, hok⟩ := hret
  cases h with
  | fwd l st f turn hturn h =>
    rcases hs with hunspawned | hterminated | htoken
    · exact absurd hunspawned h.ne_unspawned.1
    · cases hf : s.fwd with
      | done ok =>
        rw [hf] at h
        cases h
      | _ => simp [hf, FwdPc.Terminated] at hterminated
    · exact .inr (.inr htoken)
  | main l c f hturn h =>
    cases h with
    | suspend h => exact hs
    | _ => simp_all
  | env l t h =>
    unfold Clean at hs ⊢
    rw [h.fwd_eq, h.control_eq.2.2.1]
    exact hs

theorem clean_of_reaches [Ipc T] {cfg : Config} {s t : State T} (h : Reaches (Step cfg) s t)
    (hret : s.Returned) (hs : Clean s) : Clean t := by
  have hboth : t.Returned ∧ Clean t :=
    h.invariant (P := fun s => s.Returned ∧ Clean s)
      (fun _ _ _ hinv hstep => ⟨step_returned hstep hinv.1, step_clean hstep hinv.1 hinv.2⟩)
      ⟨hret, hs⟩
  exact hboth.2

/-- Exactly at these returns the forwarding task is not left looping: a child could not be
spawned; or the primary is among the processes, and either every child could be killed or
the forwarding task had terminated before. Then it is not left looping ever after. -/
theorem clean_iff [Ipc T] (cfg : Config) (groups : Groups) (s t : State T) (l : Label)
    (hreach : Reaches (Step cfg) (init cfg groups) s) (hstep : Step cfg s l t)
    (hs : ¬ s.Returned) (ht : t.Returned) :
    (Clean t ↔ l = .main .spawnErr ∨
        cfg.primary ∈ cfg.ids ∧ (s.control.killFailed = false ∨ s.fwd.Terminated)) ∧
      (Clean t → ∀ u, Reaches (Step cfg) t u → Clean u) := by
  refine ⟨?_, fun hclean u hu => clean_of_reaches hu ht hclean⟩
  have hphase : Phase cfg s.control s.fwd :=
    hreach.invariant (P := fun s => Phase cfg s.control s.fwd)
      (fun _ _ _ hinv h => h.phase hinv) (init_phase cfg groups)
  unfold Phase at hphase
  cases hstep with
  | fwd => exact absurd ht hs
  | env l t h =>
    refine absurd ?_ hs
    obtain ⟨ok, hok⟩ := ht
    exact ⟨ok, h.control_eq.1.symm.trans hok⟩
  | main l c f hturn h =>
    obtain ⟨ok, hok⟩ := ht
    cases h with
    | spawnErr id todo h =>
      rw [h] at hphase
      simp [Clean, hphase.1]
    | missing h hid =>
      rw [h] at hphase
      obtain ⟨hfwd, htoken, htasks, -⟩ := hphase
      rw [htasks] at hid
      simp [Clean, hfwd, htoken, hid, FwdPc.Terminated]
    | collectErr h herr =>
      rw [h] at hphase
      obtain ⟨hfwd, htoken, hprimary⟩ := hphase
      simp [Clean, hfwd, htoken, hprimary, herr]
    | joined h hdone =>
      rw [h] at hphase
      obtain ⟨-, htoken, hprimary, hkilled⟩ := hphase
      simp [Clean, htoken, hprimary, hkilled]
    | suspend h => exact absurd ⟨ok, hok⟩ hs
    | _ => simp at hok

/-- The forwarding task has ended, and the main task is polled. -/
def woken : State Message := { drained with control := { drained.control with turn := .main } }

/-- The user has cancelled, and the child could not be killed. -/
def unkilled : State Message :=
  { sentOne with
    control :=
      { sentOne.control with
        main := .kill [] []
        turn := .main
        cancel := true
        killFailed := true } }

def abandoned : State Message :=
  { unkilled with control := { unkilled.control with main := .returned false, turn := .idle } }

theorem run_woken : Run (Step (oneProcess (0, 0))) drained [.env .pollMain] woken :=
  .single (.env _ _ _ (.pollMain _ rfl (fun ok h => by cases h)))

theorem run_unkilled : Run (Step (oneProcess (0, 0))) sentOne
    [.env .ctrlC, .env .pollMain, .main (.leave .cancelled), .main .killErr] unkilled :=
  .cons (.env _ _ _ (.ctrlC _ rfl)) <|
  .cons (.env _ _ _ (.pollMain _ rfl (fun ok h => by cases h))) <|
  .cons (.main _ _ _ _ rfl (.leave _ _ .cancelled [(0, 0)] rfl rfl (.refl _))) <|
  .single (.main _ _ _ _ rfl (.killErr _ _ (0, 0) [] [] rfl))

/-- After a cancelled run the task has ended; after a failing kill it is left looping. -/
theorem clean_iff_cancelled : Clean joined ∧ ¬ Clean abandoned := by
  have hsent := ((run_polled (0, 0)).append (run_forked (0, 0))).append run_sentOne
  have hwoken := ((((hsent.append run_killing).append run_cancelled).append run_handled).append
    run_drained).append run_woken
  have hjoined := clean_iff (oneProcess (0, 0)) (.created [0]) woken joined (.main .joined)
    ⟨_, hwoken⟩ (.main _ _ _ _ rfl (.joined _ _ rfl (by trivial)))
    (by rintro ⟨ok, h⟩; cases h) ⟨true, rfl⟩
  have habandoned := clean_iff (oneProcess (0, 0)) (.created [0]) unkilled abandoned
    (.main .collectErr) ⟨_, hsent.append run_unkilled⟩
    (.main _ _ _ _ rfl (.collectErr _ _ rfl rfl)) (by rintro ⟨ok, h⟩; cases h) ⟨false, rfl⟩
  refine ⟨hjoined.1.mpr (.inr ⟨by decide, .inl rfl⟩), ?_⟩
  intro hclean
  rcases habandoned.1.mp hclean with hspawn | ⟨-, hkilled | hterminated⟩
  · cases hspawn
  · cases hkilled
  · exact hterminated

/-- With a primary that was not configured, `run` returns and leaves the task looping. -/
theorem missing_primary_not_clean :
    ¬ ∀ (cfg : Config) (groups : Groups) (s t : State Message) (l : Label),
      Reaches (Step cfg) (init cfg groups) s → Step cfg s l t → ¬ s.Returned → t.Returned →
        Clean t := by
  intro h
  have hclean := h (oneProcess (1, 0)) (.created [0]) (forked (1, 0)) _ (.main .missing)
    ⟨_, (run_polled (1, 0)).append (run_forked (1, 0))⟩
    (.main _ _ _ _ rfl (.missing _ _ rfl (by decide)))
    (by rintro ⟨ok, h⟩; cases h) ⟨false, rfl⟩
  rcases hclean with hunspawned | hterminated | htoken
  · cases hunspawned
  · exact hterminated
  · cases htoken

end InterferenceMitigation.Shutdown
