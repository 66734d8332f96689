import Mathlib.Data.List.Nodup
import Mathlib.Logic.Function.Basic

/-!
Mutexes with at most one owner, seen from both sides: a table gives the owner of every
mutex, and every party knows the mutexes it holds, the one taken last first. Mutual
exclusion is that the table is a function; what has to be kept is that both sides agree.
-/

namespace InterferenceMitigation.LockTable

variable {K M : Type*}

structure Agrees (owner : M → Option K) (held : K → List M) : Prop where
  mem_iff : ∀ k m, m ∈ held k ↔ owner m = some k
  nodup : ∀ k, (held k).Nodup

variable {owner : M → Option K} {held held' : K → List M}

theorem Agrees.free : Agrees (fun _ : M => (none : Option K)) fun _ => [] where
  mem_iff k m := by simp
  nodup k := List.nodup_nil

theorem Agrees.congr (h : Agrees owner held) (hheld : ∀ k, held' k = held k) :
    Agrees owner held' := by
  obtain rfl : held' = held := funext hheld
  exact h

variable [DecidableEq M]

/-- A party takes a free mutex. -/
theorem Agrees.acquire (h : Agrees owner held) {k : K} {m : M} (hfree : owner m = none)
    (htake : held' k = m :: held k) (hother : ∀ j, j ≠ k → held' j = held j) :
    Agrees (Function.update owner m (some k)) held' := by
  have hnew : ∀ j, m ∉ held j := by
    intro j hj
    rw [h.mem_iff, hfree] at hj
    cases hj
  constructor
  · intro j m'
    by_cases hj : j = k
    · subst hj
      by_cases hm : m' = m
      · subst hm
        simp [htake]
      · simp [htake, hm, h.mem_iff]
    · by_cases hm : m' = m
      · subst hm
        simpa [hother j hj, Ne.symm hj] using hnew j
      · simp [hother j hj, hm, h.mem_iff]
  · intro j
    by_cases hj : j = k
    · subst hj
      rw [htake]
      exact List.nodup_cons.mpr ⟨hnew j, h.nodup j⟩
    · rw [hother j hj]
      exact h.nodup j

/-- A party gives back the mutex it took last. -/
theorem Agrees.release (h : Agrees owner held) {k : K} {m : M} (hgive : held k = m :: held' k)
    (hother : ∀ j, j ≠ k → held' j = held j) :
    Agrees (Function.update owner m none) held' := by
  have howner : owner m = some k := (h.mem_iff k m).mp (by simp [hgive])
  have hnodup := h.nodup k
  rw [hgive] at hnodup
  obtain ⟨hgone, hrest⟩ := List.nodup_cons.mp hnodup
  constructor
  · intro j m'
    by_cases hm : m' = m
    · subst hm
      by_cases hj : j = k
      · subst hj
        simpa using hgone
      · have hnot : m' ∉ held j := by
          rw [h.mem_iff, howner]
          intro heq
          exact hj (Option.some.inj heq).symm
        simpa [hother j hj] using hnot
    · by_cases hj : j = k
      · subst hj
        have hkeep := h.mem_iff j m'
        rw [hgive] at hkeep
        simpa [hm] using hkeep
      · simp [hother j hj, hm, h.mem_iff]
  · intro j
    by_cases hj : j = k
    · subst hj
      exact hrest
    · rw [hother j hj]
      exact h.nodup j

end InterferenceMitigation.LockTable
