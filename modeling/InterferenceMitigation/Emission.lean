import Mathlib.Tactic.Common

/-!
Computations that emit records on the way to a result or an error. Records emitted
before an error stay emitted, so that a loop that is cut short still has a log: the
complete logs of the bodies before the failing one, and what that one emitted.
-/

namespace InterferenceMitigation.Emission

universe u v w

/-- The records a computation has emitted and how it ended. -/
structure Emit (ρ : Type u) (ε : Type v) (α : Type w) where
  log : List ρ
  result : Except ε α

namespace Emit

variable {ρ : Type u} {ε : Type v} {α β : Type w}

def emit (r : ρ) : Emit ρ ε PUnit := ⟨[r], .ok ⟨⟩⟩

def stop (e : ε) : Emit ρ ε α := ⟨[], .error e⟩

/-- A silent computation. -/
def lift (x : Except ε α) : Emit ρ ε α := ⟨[], x⟩

instance : Monad (Emit ρ ε) where
  pure a := ⟨[], .ok a⟩
  bind x f :=
    match x.result with
    | .ok a => ⟨x.log ++ (f a).log, (f a).result⟩
    | .error e => ⟨x.log, .error e⟩

@[simp] theorem pure_result (a : α) : (pure a : Emit ρ ε α).result = .ok a := rfl

@[simp] theorem stop_log (e : ε) : (stop e : Emit ρ ε α).log = [] := rfl

@[simp] theorem stop_result (e : ε) : (stop e : Emit ρ ε α).result = .error e := rfl

theorem bind_of_ok {x : Emit ρ ε α} {a : α} (h : x.result = .ok a) (f : α → Emit ρ ε β) :
    x >>= f = ⟨x.log ++ (f a).log, (f a).result⟩ := by
  simp only [bind, h]

theorem bind_of_error {x : Emit ρ ε α} {e : ε} (h : x.result = .error e) (f : α → Emit ρ ε β) :
    x >>= f = ⟨x.log, .error e⟩ := by
  simp only [bind, h]

@[simp] theorem stop_bind (e : ε) (f : α → Emit ρ ε β) :
    (stop e >>= f : Emit ρ ε β) = stop e := rfl

@[simp] theorem lift_ok_bind (a : α) (f : α → Emit ρ ε β) :
    (lift (.ok a) >>= f : Emit ρ ε β) = f a := rfl

@[simp] theorem emit_bind (r : ρ) (f : PUnit → Emit ρ ε PUnit) :
    (emit r >>= f : Emit ρ ε PUnit) = ⟨r :: (f ⟨⟩).log, (f ⟨⟩).result⟩ := rfl

/-- A sequence logs what its first part does, and then the second part if that is reached. -/
theorem bind_cases (x : Emit ρ ε α) (f : α → Emit ρ ε β) :
    (∃ e, x.result = .error e ∧ (x >>= f) = ⟨x.log, .error e⟩) ∨
      ∃ a, x.result = .ok a ∧ (x >>= f) = ⟨x.log ++ (f a).log, (f a).result⟩ := by
  cases h : x.result with
  | error e => exact .inl ⟨e, rfl, bind_of_error h f⟩
  | ok a => exact .inr ⟨a, rfl, bind_of_ok h f⟩

instance : LawfulMonad (Emit ρ ε) := LawfulMonad.mk' _
  (by
    rintro α ⟨log, result⟩
    cases result <;> simp [Functor.map])
  (fun a f => bind_of_ok (pure_result a) f)
  (by
    intro α β γ x f g
    rcases bind_cases x f with ⟨e, hx, hbind⟩ | ⟨a, hx, hbind⟩
    · rw [hbind, bind_of_error rfl, bind_of_error hx]
    · rw [hbind, bind_of_ok hx]
      cases hf : (f a).result with
      | error e => rw [bind_of_error hf, bind_of_error rfl]
      | ok b => rw [bind_of_ok hf, bind_of_ok rfl, List.append_assoc])

/-- A loop over the concatenation of lists is a nested loop. -/
theorem forM_flatMap {ι κ : Type*} (xs : List ι) (f : ι → List κ) (body : κ → Emit ρ ε PUnit) :
    (forM (xs.flatMap f) body) = forM xs fun x => forM (f x) body := by
  induction xs with
  | nil => rfl
  | cons x xs ih => rw [List.flatMap_cons, List.forM_append, List.forM_cons, ih]

/-- A loop either completes every body, or completes some and stops in the next one. -/
theorem forM_cases {ι : Type*} (xs : List ι) (body : ι → Emit ρ ε PUnit) :
    ((∀ x ∈ xs, (body x).result = .ok ⟨⟩) ∧
        (forM xs body).log = xs.flatMap fun x => (body x).log) ∨
      ∃ done last rest e, xs = done ++ last :: rest ∧ (∀ x ∈ done, (body x).result = .ok ⟨⟩) ∧
        (forM xs body).result = .error e ∧
          (forM xs body).log = (done.flatMap fun x => (body x).log) ++ (body last).log := by
  induction xs with
  | nil => exact .inl ⟨by simp, rfl⟩
  | cons x xs ih =>
    rw [List.forM_cons]
    rcases bind_cases (body x) fun _ => forM xs body with ⟨e, -, hbind⟩ | ⟨⟨⟩, hx, hbind⟩
    · exact .inr ⟨[], x, xs, e, rfl, by simp, by rw [hbind], by simp [hbind]⟩
    · rw [hbind]
      rcases ih with ⟨hall, hlog⟩ | ⟨done, last, rest, e, rfl, hdone, hresult, hlog⟩
      · exact .inl ⟨by simpa [hx] using hall, by rw [hlog, List.flatMap_cons]⟩
      · exact .inr ⟨x :: done, last, rest, e, rfl, by simpa [hx] using hdone, hresult, by
          rw [hlog, List.flatMap_cons, List.append_assoc]⟩

end Emit

end InterferenceMitigation.Emission
