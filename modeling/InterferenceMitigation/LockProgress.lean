import InterferenceMitigation.LockSafety

/-!
Progress under the interrupt-safe lock. No closure of the program calls `lock_irq`: the calls
come from thread code and from the handler. A core then never waits while it holds a mutex,
so whoever waits for one is a single closure away from it, and no set of cores can block each
other. The order in which the mutexes are taken does not matter, since they never nest.
-/

namespace InterferenceMitigation.LockProgress

open Transition SaveRestore LockTable InterruptLock LockSafety

variable {K : Type*} [DecidableEq K] {s t : State K} {k : K} {m : Driver}

/-- Thread code calls the lock outside of every closure. -/
def FlatStep (s : State K) (l : K × Action) (t : State K) : Prop :=
  Step s l t ∧ ∀ m, l.2 = .call m → (s.core l.1).stack = []

/-- A core holds nothing, or is in the closure with the only guard it has. -/
def Unnested (st : List Record) : Prop :=
  held st = [] ∨ ∃ m d rest, st = .call m (.body d) :: rest ∧ held rest = []

/-- What a core does in its closure: it stays in it, or drops the guard. -/
theorem unnested_step {flag : Bool} {c c' : Core} {a : Action} (h : CoreStep flag c a c')
    (hcoherent : c.Coherent) (hcall : ∀ m, a = .call m → c.stack = [])
    (hc : Unnested c.stack) : Unnested c'.stack := by
  rcases hc with hnone | ⟨m, d, rest, hst, hrest⟩
  · have hheld := h.held
    cases h with
    | lock d st m daif => exact Or.inr ⟨m, daif, st, rfl, hnone⟩
    | unlock d st m daif => simp [held] at hnone
    | _ => exact Or.inl (hheld.trans hnone)
  · cases h with
    | setDaif d daif => cases hst
    | store d st b huser => exact Or.inr ⟨m, _, rest, hst, hrest⟩
    | call d st m' huser =>
      have hempty : st = [] := hcall m' rfl
      subst hempty
      cases hst
    | unlock d st m' daif =>
      obtain ⟨-, rfl⟩ := List.cons.inj hst
      exact Or.inl hrest
    | irq d st hopen =>
      have hmasked := held_eq_nil hcoherent hopen
      rw [hst] at hmasked
      cases hmasked
    | mrs d st m' => cases hst
    | daifSet d st m' daif => cases hst
    | spin d st m' daif => cases hst
    | lock d st m' daif => cases hst
    | restore d st m' daif => cases hst
    | callAck d st spsr => cases hst
    | acked d st spsr intid => cases hst
    | callEnd d st spsr => cases hst
    | poll d st spsr => cases hst
    | eret d st spsr => cases hst

/-- The lock invariant, with no core in a closure of another closure. -/
structure Flat (s : State K) : Prop where
  invariant : Invariant s
  unnested : ∀ k, Unnested (s.core k).stack

theorem Flat.step {l : K × Action} (hs : Flat s) (h : FlatStep s l t) : Flat t := by
  obtain ⟨hstep, hcall⟩ := h
  refine ⟨invariant_step hstep hs.invariant, fun j => ?_⟩
  obtain ⟨k, a⟩ := l
  by_cases hj : j = k
  · subst hj
    exact unnested_step (step_own hstep) (hs.invariant.coherent j) hcall (hs.unnested j)
  · rw [step_other hstep hj]
    exact hs.unnested j

theorem flat_of_reaches {s₀ : State K} (hinit : s₀.Initial) (h : Reaches FlatStep s₀ s) :
    Flat s := by
  refine h.invariant (fun _ _ _ ha hstep => ha.step hstep) ⟨initial_invariant hinit, fun k => ?_⟩
  rw [hinit.2 k]
  exact Or.inl rfl

omit [DecidableEq K] in
/-- The owner of a mutex is in the closure that has it. -/
theorem Flat.owner_in_body (hs : Flat s) (hown : s.owner m = some k) :
    ∃ d rest, (s.core k).stack = .call m (.body d) :: rest := by
  have hheld := hs.invariant.held_of_owner hown
  rcases hs.unnested k with hnone | ⟨m', d, rest, hst, hrest⟩
  · rw [hnone] at hheld
    cases hheld
  · rw [hst, held, hrest, List.mem_singleton] at hheld
    subst hheld
    exact ⟨d, rest, hst⟩

/-- An instruction that the innermost record of core `k` allows. -/
theorem exists_step {a : Action} {c : Core} (h : CoreStep s.intruderBreak (s.core k) a c)
    (hcall : ∀ m, a ≠ .call m) (hspin : ∀ m, a ≠ .spin m)
    (hfree : ∀ m, a = .lock m → s.owner m = none) :
    ∃ t, FlatStep s (k, a) t ∧ t.core k = c ∧ t.owner = ownerAfter s.owner k a ∧
      ∀ j, j ≠ k → t.core j = s.core j := by
  have hstep := Step.core s k a c h hfree (fun m hm => absurd hm (hspin m))
  exact ⟨_, ⟨hstep, fun m hm => absurd hm (hcall m)⟩, Function.update_self .., rfl,
    fun j hj => step_other hstep hj⟩

/-- A core in its closure can drop the guard. -/
theorem exists_unlock {d : Daif} {rest : List Record}
    (hst : (s.core k).stack = .call m (.body d) :: rest) :
    ∃ t, FlatStep s (k, .unlock m) t ∧ (t.core k).stack = .call m (.unlocked d) :: rest ∧
      t.owner m = none ∧ ∀ j, j ≠ k → t.core j = s.core j := by
  have hunlock := @CoreStep.unlock s.intruderBreak (s.core k).daif rest m d
  rw [← hst] at hunlock
  obtain ⟨t, hstep, hcore, howner, hother⟩ := exists_step hunlock (by simp) (by simp) (by simp)
  refine ⟨t, hstep, by rw [hcore], ?_, hother⟩
  rw [howner]
  exact Function.update_self ..

/-- The instructions of a call from the exchange that takes the mutex to its return. -/
def finish (m : Driver) : List Action := [.lock m, .unlock m, .restore]

/-- A core that waits for a free mutex can take it, and its call can return. -/
theorem exists_return {rest : List Record} (hwait : Waits (s.core k) m rest)
    (hfree : s.owner m = none) :
    ∃ u, Run FlatStep s ((finish m).map (k, ·)) u ∧ (u.core k).stack = rest := by
  obtain ⟨daif, hst⟩ := hwait
  have hlock := @CoreStep.lock s.intruderBreak (s.core k).daif rest m daif
  rw [← hst] at hlock
  obtain ⟨t, ht, htcore, -, -⟩ := exists_step hlock (by simp) (by simp)
    (fun m' hm => by obtain rfl := Action.lock.inj hm; exact hfree)
  obtain ⟨u, hu, hucore, -, -⟩ := exists_unlock (show (t.core k).stack = _ by rw [htcore])
  have hrestore := @CoreStep.restore u.intruderBreak (u.core k).daif rest m daif
  rw [← hucore] at hrestore
  obtain ⟨v, hv, hvcore, -, -⟩ := exists_step hrestore (by simp) (by simp) (by simp)
  exact ⟨v, .cons ht (.cons hu (.single hv)), by rw [hvcore]⟩

/-- A core that waits for a mutex holds none. If the mutex has an owner it is another core,
in the closure that it took the mutex for; and the waiting call can return. -/
structure Progresses (s : State K) (k : K) (m : Driver) (rest : List Record) : Prop where
  holdsNothing : ∀ m', s.owner m' ≠ some k
  owner : ∀ j, s.owner m = some j → j ≠ k ∧ ∃ d below, (s.core j).stack = .call m (.body d) :: below
  returns : ∃ u, (u.core k).stack = rest ∧
    Run FlatStep s (((s.owner m).map (·, .unlock m)).toList ++ (finish m).map (k, ·)) u

/-- No deadlock: in every state reached by calls that do not nest, every call that waits can
return, once the owner of the mutex has given it back and without any other core. -/
theorem never_deadlocks {s₀ : State K} (hinit : s₀.Initial) (hreach : Reaches FlatStep s₀ s)
    {rest : List Record} (hwait : Waits (s.core k) m rest) : Progresses s k m rest := by
  have hs := flat_of_reaches hinit hreach
  have hquiet : ∀ m', s.owner m' ≠ some k := by
    intro m' hown
    obtain ⟨d, below, hst⟩ := hs.owner_in_body hown
    obtain ⟨daif, hst'⟩ := hwait
    rw [hst] at hst'
    cases hst'
  refine ⟨hquiet, ?_, ?_⟩
  · intro j hown
    refine ⟨?_, hs.owner_in_body hown⟩
    rintro rfl
    exact hquiet m hown
  · cases hown : s.owner m with
    | none =>
      obtain ⟨u, hrun, hst⟩ := exists_return hwait hown
      exact ⟨u, hst, hrun⟩
    | some j =>
      obtain ⟨d, below, hst⟩ := hs.owner_in_body hown
      obtain ⟨t, hunlock, -, hfree, hother⟩ := exists_unlock hst
      have hne : k ≠ j := by
        rintro rfl
        exact hquiet m hown
      have hwait' : Waits (t.core k) m rest := by
        rw [hother k hne]
        exact hwait
      obtain ⟨u, hrun, hret⟩ := exists_return hwait' hfree
      exact ⟨u, hret, .cons hunlock hrun⟩

/-- One of two cores about to take the lock of the serial port. -/
def waiting : State Bool := withCore start false ⟨allMasked, [.call .uart (.masked 0)]⟩

theorem waiting_reaches : Reaches FlatStep start waiting := by
  have hcall := step_quiet start false (.call 0 [] .uart trivial) rfl rfl (by simp) (by simp)
  have hself : withCore start false ⟨0, []⟩ = start := withCore_self start false
  rw [hself] at hcall
  have hmrs := step_quiet start false (.mrs 0 [] .uart) rfl rfl (by simp) (by simp)
  have hset := step_quiet start false (.daifSet 0 [] .uart 0) rfl rfl (by simp) (by simp)
  rw [or_allMasked] at hset
  exact ⟨_, .cons ⟨hcall, fun _ _ => rfl⟩ (.cons ⟨hmrs, by simp⟩ (.single ⟨hset, by simp⟩))⟩

theorem never_deadlocks_waiting : Progresses waiting false .uart [] :=
  never_deadlocks (show start.Initial from ⟨fun _ => rfl, fun _ => rfl⟩) waiting_reaches
    ⟨0, by simp [waiting, withCore]⟩

end InterferenceMitigation.LockProgress
