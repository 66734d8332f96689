import InterferenceMitigation.Transition

/-!
A register that nested activations save and restore. The active records form a stack,
innermost first. A record that has saved the register restores the saved value when it
returns; one that has not leaves the register as it is. A record only ever acts while it
is innermost, so the value it found is back as soon as it has returned, whatever ran on
top of it in between.
-/

namespace InterferenceMitigation.SaveRestore

open Transition

variable {R D : Type*} (saved : R → Option D)

/-- The register once the record `r` has returned, if its value now is `d`. -/
def after (d : D) (r : R) : D := (saved r).getD d

/-- The register once all the records have returned. -/
def unwind : D → List R → D
  | d, [] => d
  | d, r :: rs => unwind (after saved d r) rs

/-- `P` holds of every record and the value the register has while it is innermost. -/
def Along (P : D → R → Prop) : D → List R → Prop
  | _, [] => True
  | d, r :: rs => P d r ∧ Along P (after saved d r) rs

@[simp] theorem unwind_nil (d : D) : unwind saved d [] = d := rfl

@[simp] theorem unwind_cons (d : D) (r : R) (rs : List R) :
    unwind saved d (r :: rs) = unwind saved (after saved d r) rs := rfl

@[simp] theorem along_nil (P : D → R → Prop) (d : D) : Along saved P d [] := trivial

@[simp] theorem along_cons (P : D → R → Prop) (d : D) (r : R) (rs : List R) :
    Along saved P d (r :: rs) ↔ P d r ∧ Along saved P (after saved d r) rs := Iff.rfl

theorem unwind_append (d : D) (rs rs' : List R) :
    unwind saved d (rs ++ rs') = unwind saved (unwind saved d rs) rs' := by
  induction rs generalizing d with
  | nil => rfl
  | cons r rs ih => exact ih (after saved d r)

theorem along_append (P : D → R → Prop) (d : D) (rs rs' : List R) :
    Along saved P d (rs ++ rs') ↔
      Along saved P d rs ∧ Along saved P (unwind saved d rs) rs' := by
  induction rs generalizing d with
  | nil => simp
  | cons r rs ih =>
    rw [List.cons_append, along_cons, along_cons, unwind_cons, ih, and_assoc]

/-- One step of the innermost record, if there is one: it is replaced by any number of
records that unwind to the same value, and that satisfy `P` if it did. -/
inductive Move (P : D → R → Prop) : D → List R → D → List R → Prop
  | replace {d d' : D} (top top' rs : List R) (hlen : top.length ≤ 1)
      (hunwind : unwind saved d' top' = unwind saved d top)
      (hkeep : Along saved P d top → Along saved P d' top') :
      Move P d (top ++ rs) d' (top' ++ rs)

variable {saved} {P : D → R → Prop} {d d' : D} {st st' : List R}

theorem Move.refl (d : D) (st : List R) : Move saved P d st d st :=
  .replace [] [] st (Nat.zero_le 1) rfl id

/-- A new record starts, possibly saving the register and changing it. -/
theorem Move.enter {r : R} (hsaved : after saved d' r = d) (hnew : P d' r) :
    Move saved P d st d' (r :: st) :=
  .replace [] [r] st (Nat.zero_le 1) hsaved fun _ => ⟨hnew, trivial⟩

/-- The innermost record goes on. -/
theorem Move.goOn {r r' : R} (hsaved : after saved d' r' = after saved d r)
    (hkeep : P d r → P d' r') : Move saved P d (r :: st) d' (r' :: st) :=
  .replace [r] [r'] st (Nat.le_refl 1) hsaved fun h => ⟨hkeep h.1, trivial⟩

/-- The innermost record goes on after a new record, which has saved nothing yet. -/
theorem Move.call {r r' new : R} (hnone : saved new = none)
    (hsaved : after saved d r' = after saved d r) (hkeep : P d r → P d r') (hnew : P d new) :
    Move saved P d (r :: st) d (new :: r' :: st) := by
  have hafter : after saved d new = d := by simp [after, hnone]
  refine .replace [r] [new, r'] st (Nat.le_refl 1) ?_ ?_
  · simp only [unwind_cons, unwind_nil, hafter, hsaved]
  · intro h
    simp only [along_cons, along_nil, hafter, and_true]
    exact ⟨hnew, hkeep h.1⟩

/-- The innermost record returns. -/
theorem Move.leave (r : R) : Move saved P d (r :: st) (after saved d r) st :=
  .replace [r] [] st (Nat.le_refl 1) rfl fun _ => trivial

theorem Move.along (h : Move saved P d st d' st') (hst : Along saved P d st) :
    Along saved P d' st' := by
  cases h with
  | replace top top' rs hlen hunwind hkeep =>
    obtain ⟨htop, hrs⟩ := (along_append saved P d top rs).mp hst
    refine (along_append saved P d' top' rs).mpr ⟨hkeep htop, ?_⟩
    rwa [hunwind]

/-- A move above some record leaves it, and the value above it unwinds to, alone. -/
theorem Move.frame {above rest : List R} (h : Move saved P d (above ++ rest) d' st')
    (hne : above ≠ []) :
    ∃ above', st' = above' ++ rest ∧ unwind saved d' above' = unwind saved d above := by
  generalize hst : above ++ rest = st at h
  cases h with
  | replace top top' rs hlen hunwind hkeep =>
    have hsplit : ∃ mid, above = top ++ mid ∧ rs = mid ++ rest := by
      match top, hlen with
      | [], _ => exact ⟨above, rfl, hst.symm⟩
      | [r], _ =>
        match above, hne with
        | r' :: mid, _ =>
          obtain ⟨rfl, hrs⟩ := List.cons.inj hst
          exact ⟨mid, rfl, hrs.symm⟩
    obtain ⟨mid, rfl, rfl⟩ := hsplit
    refine ⟨top' ++ mid, (List.append_assoc ..).symm, ?_⟩
    rw [unwind_append, unwind_append, hunwind]

section Runs

variable {S L : Type*} {step : S → L → S → Prop} (reg : S → D) (stack : S → List R)

/-- The steps after which more than `n` records are active. -/
def Above (step : S → L → S → Prop) (n : ℕ) (s : S) (l : L) (t : S) : Prop :=
  step s l t ∧ n < (stack t).length

/-- While some record stays active, the records above it unwind to one value. -/
theorem unwind_of_run {rest : List R}
    (hmove : ∀ s l t, step s l t → stack s ≠ [] →
      Move saved P (reg s) (stack s) (reg t) (stack t))
    {s t : S} {ls : List L} (hrun : Run (Above stack step rest.length) s ls t) {above : List R}
    (hne : above ≠ []) (hs : stack s = above ++ rest) :
    ∃ above', above' ≠ [] ∧ stack t = above' ++ rest ∧
      unwind saved (reg t) above' = unwind saved (reg s) above := by
  induction hrun generalizing above with
  | nil s => exact ⟨above, hne, hs, rfl⟩
  | @cons s t u l ls hstep _ ih =>
    obtain ⟨hst, hdepth⟩ := hstep
    have hactive : stack s ≠ [] := by simp [hs, hne]
    have hm := hmove s l t hst hactive
    rw [hs] at hm
    obtain ⟨mid, hmid, hmidval⟩ := hm.frame hne
    have hmidne : mid ≠ [] := by
      rintro rfl
      rw [hmid] at hdepth
      exact absurd hdepth (by simp)
    obtain ⟨above', hne', habove', hval⟩ := ih hmidne hmid
    exact ⟨above', hne', habove', hval.trans hmidval⟩

/-- A record has the register restored to what it will leave by the time it returns. -/
theorem restored_of_run {r : R} {rest : List R}
    (hmove : ∀ s l t, step s l t → stack s ≠ [] →
      Move saved P (reg s) (stack s) (reg t) (stack t))
    {s t u : S} {ls : List L} {l : L} (hs : stack s = r :: rest)
    (hrun : Run (Above stack step rest.length) s ls t) (hstep : step t l u)
    (hreturn : (stack u).length ≤ rest.length) :
    stack u = rest ∧ reg u = after saved (reg s) r := by
  obtain ⟨above, hne, habove, hval⟩ := unwind_of_run reg stack hmove hrun (List.cons_ne_nil r []) hs
  have hactive : stack t ≠ [] := by simp [habove, hne]
  have hm := hmove t l u hstep hactive
  rw [habove] at hm
  obtain ⟨left, hleft, hleftval⟩ := hm.frame hne
  have hnil : left = [] := by
    rw [hleft, List.length_append] at hreturn
    exact List.length_eq_zero_iff.mp (by omega)
  subst hnil
  exact ⟨hleft, hleftval.trans hval⟩

end Runs

end InterferenceMitigation.SaveRestore
