import Mathlib.Data.Finset.Card
import Mathlib.Data.List.Nodup
import Mathlib.Tactic.Common

/-!
Set-associative caches that replace the line used least recently. The lines of a set are
kept in the order of their last use. What a set holds after a history of accesses is then
the beginning of the list of the lines in this order, those of the history first, so that a
history of as many different lines as there are ways leaves nothing else in the set.
-/

namespace InterferenceMitigation.LruCache

variable {L : Type*} [DecidableEq L]

section Stack

/-- The order of last use, the last one first, after an access. -/
def touch (stack : List L) (x : L) : List L := x :: stack.filter (· ≠ x)

/-- The lines of a history in the order of their last use. -/
def recency (hist : List L) : List L := hist.foldl touch []

theorem recency_concat (hist : List L) (x : L) :
    recency (hist ++ [x]) = touch (recency hist) x := by
  simp [recency]

theorem mem_recency {hist : List L} {x : L} : x ∈ recency hist ↔ x ∈ hist := by
  induction hist using List.reverseRecOn with
  | nil => simp [recency]
  | append_singleton hist y ih =>
    rw [recency_concat, touch, List.mem_cons, List.mem_filter, ih, List.mem_append,
      List.mem_singleton]
    by_cases hxy : x = y <;> simp [hxy]

theorem recency_nodup (hist : List L) : (recency hist).Nodup := by
  induction hist using List.reverseRecOn with
  | nil => exact List.nodup_nil
  | append_singleton hist y ih =>
    rw [recency_concat, touch, List.nodup_cons]
    exact ⟨by simp, ih.filter _⟩

theorem recency_length (hist : List L) : (recency hist).length = hist.toFinset.card := by
  rw [← List.toFinset_card_of_nodup (recency_nodup hist)]
  congr 1
  ext x
  simp [mem_recency]

/-- The lines of the history come before those that were there. -/
theorem foldl_touch (stack hist : List L) :
    hist.foldl touch stack = recency hist ++ stack.filter (· ∉ hist) := by
  induction hist using List.reverseRecOn with
  | nil => simp [recency]
  | append_singleton hist x ih =>
    rw [List.foldl_concat, ih, recency_concat, touch, touch, List.filter_append, List.filter_filter,
      List.cons_append]
    congr 2
    apply List.filter_congr
    intro y _
    simp [and_comm]

theorem touch_nodup {stack : List L} (h : stack.Nodup) (x : L) : (touch stack x).Nodup :=
  List.nodup_cons.mpr ⟨by simp, h.filter _⟩

/-- An access in a set of `ways` lines. -/
def access (ways : ℕ) (stack : List L) (x : L) : List L := (touch stack x).take ways

/-- What lies beyond the ways never comes back. -/
theorem access_take {stack : List L} (h : stack.Nodup) (ways : ℕ) (x : L) :
    access ways (stack.take ways) x = (touch stack x).take ways := by
  cases ways with
  | zero => simp [access]
  | succ w =>
    rw [access, touch, touch, List.take_succ_cons, List.take_succ_cons]
    congr 1
    rcases Nat.lt_or_ge w stack.length with hlong | hshort
    · -- the line itself is at most one of those that are kept
      have hkept : w ≤ ((stack.take (w + 1)).filter (· ≠ x)).length := by
        have herase : (stack.take (w + 1)).filter (· ≠ x) = (stack.take (w + 1)).erase x := by
          rw [(h.sublist (List.take_sublist _ _)).erase_eq_filter]
          exact List.filter_congr fun y _ => by by_cases hxy : y = x <;> simp [hxy]
        rw [herase, List.length_erase, List.length_take]
        split <;> omega
      conv_rhs => rw [← List.take_append_drop (w + 1) stack, List.filter_append]
      rw [List.take_append_of_le_length hkept]
    · rw [List.take_of_length_le (Nat.le_succ_of_le hshort)]

theorem foldl_access {stack : List L} (ways : ℕ) (hnodup : stack.Nodup)
    (hfits : stack.length ≤ ways) (hist : List L) :
    hist.foldl (access ways) stack = (recency hist ++ stack.filter (· ∉ hist)).take ways := by
  have hall : ∀ hist : List L, (hist.foldl touch stack).Nodup := by
    intro hist
    induction hist using List.reverseRecOn with
    | nil => exact hnodup
    | append_singleton hist x ih =>
      rw [List.foldl_concat]
      exact touch_nodup ih x
  rw [← foldl_touch]
  induction hist using List.reverseRecOn with
  | nil => rw [List.foldl_nil, List.foldl_nil, List.take_of_length_le hfits]
  | append_singleton hist x ih =>
    rw [List.foldl_concat, List.foldl_concat, ih, access_take (hall hist)]

theorem access_nodup {stack : List L} (h : stack.Nodup) (ways : ℕ) (x : L) :
    (access ways stack x).Nodup :=
  (touch_nodup h x).sublist (List.take_sublist _ _)

theorem access_length_le (ways : ℕ) (stack : List L) (x : L) :
    (access ways stack x).length ≤ ways :=
  List.length_take_le _ _

end Stack

section Cache

variable {S : Type*} [DecidableEq S] {ways : ℕ}

/-- The lines that each set holds. -/
structure Cache (S L : Type*) (ways : ℕ) where
  lines : S → List L
  nodup : ∀ s, (lines s).Nodup
  fits : ∀ s, (lines s).length ≤ ways

def Cache.empty : Cache S L ways := ⟨fun _ => [], fun _ => List.nodup_nil, fun _ => Nat.zero_le _⟩

/-- An access to a line, which belongs to the set `setOf x`. -/
def Cache.access (setOf : L → S) (c : Cache S L ways) (x : L) : Cache S L ways where
  lines := Function.update c.lines (setOf x) (LruCache.access ways (c.lines (setOf x)) x)
  nodup := by
    intro s
    by_cases hs : s = setOf x
    · subst hs
      rw [Function.update_self]
      exact access_nodup (c.nodup _) ways x
    · rw [Function.update_of_ne hs]
      exact c.nodup s
  fits := by
    intro s
    by_cases hs : s = setOf x
    · subst hs
      rw [Function.update_self]
      exact access_length_le ..
    · rw [Function.update_of_ne hs]
      exact c.fits s

def Cache.run (setOf : L → S) (c : Cache S L ways) (hist : List L) : Cache S L ways :=
  hist.foldl (Cache.access setOf) c

theorem Cache.access_lines (setOf : L → S) (c : Cache S L ways) (x : L) (s : S) :
    (c.access setOf x).lines s =
      if setOf x = s then LruCache.access ways (c.lines s) x else c.lines s := by
  by_cases hs : setOf x = s
  · subst hs
    simp [Cache.access]
  · simp [Cache.access, hs, Function.update_of_ne (Ne.symm hs)]

variable (setOf : L → S) (c : Cache S L ways) (hist : List L) (s : S)

/-- A set sees the accesses to its own lines only. -/
theorem Cache.run_lines :
    (c.run setOf hist).lines s =
      (hist.filter (setOf · = s)).foldl (LruCache.access ways) (c.lines s) := by
  induction hist using List.reverseRecOn with
  | nil => rfl
  | append_singleton hist x ih =>
    rw [Cache.run, List.foldl_concat, Cache.access_lines, List.filter_append, List.foldl_append,
      ← ih]
    by_cases hs : setOf x = s <;> simp [hs, Cache.run]

theorem Cache.run_eq :
    (c.run setOf hist).lines s = (recency (hist.filter (setOf · = s)) ++
      (c.lines s).filter (· ∉ hist.filter (setOf · = s))).take ways := by
  rw [c.run_lines, foldl_access ways (c.nodup s) (c.fits s)]

variable {setOf hist s}

/-- Accesses to other sets leave a set as it is. -/
theorem Cache.run_congr {hist' : List L}
    (h : hist.filter (setOf · = s) = hist'.filter (setOf · = s)) :
    (c.run setOf hist).lines s = (c.run setOf hist').lines s := by
  rw [c.run_lines, c.run_lines, h]

/-- After accesses to as many lines of a set as it has ways, it holds none of those that it
held before, except those that were accessed. -/
theorem Cache.mem_of_turnover (h : ways ≤ (hist.filter (setOf · = s)).toFinset.card) {x : L}
    (hx : x ∈ (c.run setOf hist).lines s) : x ∈ hist.filter (setOf · = s) := by
  rw [c.run_eq, List.take_append_of_le_length (by rwa [recency_length])] at hx
  exact mem_recency.mp (List.mem_of_mem_take hx)

/-- If these are all the lines of the set that were accessed, they are what it holds. -/
theorem Cache.mem_iff_of_full (h : (hist.filter (setOf · = s)).toFinset.card = ways) {x : L} :
    x ∈ (c.run setOf hist).lines s ↔ x ∈ hist.filter (setOf · = s) := by
  rw [c.run_eq, List.take_left' ((recency_length _).trans h), mem_recency]

end Cache

end InterferenceMitigation.LruCache
