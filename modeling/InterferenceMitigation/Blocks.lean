import Mathlib.Data.List.Forall2
import Mathlib.Data.Prod.Lex
import Mathlib.Tactic.Common

/-!
Streams of records that carry the key of the task they belong to and a number within
it. A stream is blocked by a list of keys when it is one contiguous block of records
for each key in turn, numbered from zero. Such a stream is ordered by key and number,
and the last record of any prefix tells which block that prefix ends in.
-/

namespace InterferenceMitigation.Blocks

variable {R K : Type*} {key : R → K} {number : R → ℕ}

/-- `block` is the nonempty list of the records of task `k`, numbered from zero. -/
structure IsBlock (key : R → K) (number : R → ℕ) (k : K) (block : List R) : Prop where
  nonempty : block ≠ []
  key_eq : ∀ r ∈ block, key r = k
  number_eq : block.map number = List.range block.length

/-- `stream` is one block for each of the keys, in order. -/
def Blocked (key : R → K) (number : R → ℕ) (keys : List K) (stream : List R) : Prop :=
  ∃ blocks, List.Forall₂ (IsBlock key number) keys blocks ∧ stream = blocks.flatten

theorem Blocked.nil : Blocked key number [] [] := ⟨[], .nil, rfl⟩

theorem Blocked.cons {k : K} {keys : List K} {block stream : List R}
    (hblock : IsBlock key number k block) (hrest : Blocked key number keys stream) :
    Blocked key number (k :: keys) (block ++ stream) := by
  obtain ⟨blocks, hblocks, rfl⟩ := hrest
  exact ⟨block :: blocks, .cons hblock hblocks, by simp⟩

/-- Rule for streams: a block for the first key, then a stream for the others. -/
theorem Blocked.induction {motive : List K → List R → Prop} {keys : List K} {stream : List R}
    (h : Blocked key number keys stream) (nil : motive [] [])
    (cons : ∀ k keys block stream, IsBlock key number k block →
      Blocked key number keys stream → motive keys stream →
        motive (k :: keys) (block ++ stream)) : motive keys stream := by
  obtain ⟨blocks, hblocks, rfl⟩ := h
  induction hblocks with
  | nil => exact nil
  | cons hblock hrest ih =>
    rw [List.flatten_cons]
    exact cons _ _ _ _ hblock ⟨_, hrest, rfl⟩ ih

theorem Blocked.key_mem {keys : List K} {stream : List R} (h : Blocked key number keys stream) :
    ∀ r ∈ stream, key r ∈ keys := by
  refine h.induction (motive := fun keys stream => ∀ r ∈ stream, key r ∈ keys) (by simp) ?_
  intro k keys block stream hblock _ ih r hr
  rcases List.mem_append.mp hr with hr | hr
  · exact List.mem_cons.mpr (.inl (hblock.key_eq r hr))
  · exact List.mem_cons_of_mem _ (ih r hr)

/-- Within a block the numbers increase. -/
theorem IsBlock.pairwise {k : K} {block : List R} (h : IsBlock key number k block) :
    block.Pairwise fun r s => number r < number s := by
  have hrange : (block.map number).Pairwise (· < ·) := by
    rw [h.number_eq]
    exact List.pairwise_lt_range
  exact List.pairwise_map.mp hrange

theorem IsBlock.number_head {k : K} {block rest : List R} {r : R}
    (h : IsBlock key number k block) (hinit : r :: rest <+: block) : number r = 0 := by
  obtain ⟨tail, rfl⟩ := hinit
  have hnumber := h.number_eq
  rw [List.cons_append, List.map_cons, List.length_cons, List.range_succ_eq_map] at hnumber
  exact (List.cons_eq_cons.mp hnumber).1

/-- A stream whose blocks come in the order of their keys is strictly ordered. -/
theorem Blocked.pairwise [Preorder K] {keys : List K} {stream : List R}
    (h : Blocked key number keys stream) (hkeys : keys.Pairwise (· < ·)) :
    stream.Pairwise fun r s => toLex (key r, number r) < toLex (key s, number s) := by
  revert hkeys
  refine h.induction (motive := fun keys stream => keys.Pairwise (· < ·) →
    stream.Pairwise fun r s => toLex (key r, number r) < toLex (key s, number s))
    (fun _ => .nil) ?_
  intro k keys block stream hblock hstream ih hkeys
  obtain ⟨hhead, htail⟩ := List.pairwise_cons.mp hkeys
  refine List.pairwise_append.mpr ⟨?_, ih htail, ?_⟩
  · refine hblock.pairwise.imp_of_mem ?_
    intro r s hr hs hlt
    exact Prod.Lex.toLex_lt_toLex.mpr
      (.inr ⟨(hblock.key_eq r hr).trans (hblock.key_eq s hs).symm, hlt⟩)
  · intro r hr s hs
    have hlt := hhead _ (hstream.key_mem s hs)
    rw [← hblock.key_eq r hr] at hlt
    exact Prod.Lex.toLex_lt_toLex.mpr (.inl hlt)

/-- A block may be appended to a stream. -/
theorem Blocked.concat {keys : List K} {stream block : List R} {k : K}
    (h : Blocked key number keys stream) (hblock : IsBlock key number k block) :
    Blocked key number (keys ++ [k]) (stream ++ block) := by
  refine h.induction (motive := fun keys stream =>
    Blocked key number (keys ++ [k]) (stream ++ block)) ?_ ?_
  · simpa using Blocked.cons hblock .nil
  · intro k' keys block' stream hblock' _ ih
    rw [List.append_assoc]
    exact .cons hblock' ih

/-- The logs of a list of tasks, each of which is a block. -/
theorem Blocked.flatMap {ι : Type*} {tasks : List ι} {task : ι → K} {log : ι → List R}
    (h : ∀ x ∈ tasks, IsBlock key number (task x) (log x)) :
    Blocked key number (tasks.map task) (tasks.flatMap log) := by
  induction tasks with
  | nil => exact .nil
  | cons x tasks ih =>
    rw [List.map_cons, List.flatMap_cons]
    exact .cons (h x (List.mem_cons_self ..)) (ih fun y hy => h y (List.mem_cons_of_mem _ hy))

/-- The records of a stream that belong to the task of its last record. -/
def currentBlock [DecidableEq K] (key : R → K) (stream : List R) : List R :=
  match stream.getLast? with
  | some r => stream.filter fun s => key s = key r
  | none => []

theorem currentBlock_append [DecidableEq K] {k : K} {done q : List R}
    (hdone : ∀ r ∈ done, key r ≠ k) (hq : ∀ r ∈ q, key r = k) (hne : q ≠ []) :
    currentBlock key (done ++ q) = q := by
  have hlast := List.getLast?_eq_some_getLast hne
  have hkey := hq _ (List.getLast_mem hne)
  rw [currentBlock, List.getLast?_append_of_ne_nil _ hne, hlast]
  simp only [hkey, List.filter_append]
  have hnone : (done.filter fun r => key r = k) = [] := by
    simpa using hdone
  have hall : (q.filter fun r => key r = k) = q := by
    simpa using hq
  rw [hnone, hall, List.nil_append]

/-- A nonempty prefix is some whole blocks followed by the beginning of the next one. -/
theorem Blocked.prefix_cases {keys : List K} {stream p : List R}
    (h : Blocked key number keys stream) (hp : p <+: stream) (hne : p ≠ []) :
    ∃ before k after done block q, keys = before ++ k :: after ∧
      Blocked key number before done ∧ IsBlock key number k block ∧
        p = done ++ q ∧ q <+: block ∧ q ≠ [] := by
  revert p
  refine h.induction (motive := fun keys stream => ∀ {p : List R}, p <+: stream → p ≠ [] →
    ∃ before k after done block q, keys = before ++ k :: after ∧
      Blocked key number before done ∧ IsBlock key number k block ∧
        p = done ++ q ∧ q <+: block ∧ q ≠ []) ?_ ?_
  · intro p hp hne
    exact absurd (List.prefix_nil.mp hp) hne
  · intro k keys block stream hblock _ ih p hp hne
    rcases List.prefix_or_prefix_of_prefix hp (List.prefix_append block stream) with hle | hle
    · exact ⟨[], k, keys, [], block, p, rfl, .nil, hblock, rfl, hle, hne⟩
    obtain ⟨p', rfl⟩ := hle
    have hp' := (List.prefix_append_right_inj block).mp hp
    by_cases hempty : p' = []
    · exact ⟨[], k, keys, [], block, block, rfl, .nil, hblock, by simp [hempty],
        List.prefix_rfl, hblock.nonempty⟩
    · obtain ⟨before, k', after, done, block', q, rfl, hdone, hblock', rfl, hq, hqne⟩ :=
        ih hp' hempty
      exact ⟨k :: before, k', after, block ++ done, block', q, rfl, .cons hblock hdone,
        hblock', by simp, hq, hqne⟩

/-- The current block of a nonempty prefix is the beginning of a block of the stream. -/
theorem Blocked.exists_currentBlock [DecidableEq K] {keys : List K} {stream p : List R}
    (h : Blocked key number keys stream) (hkeys : keys.Nodup) (hp : p <+: stream)
    (hne : p ≠ []) :
    ∃ k done block, IsBlock key number k block ∧ p = done ++ currentBlock key p ∧
      currentBlock key p <+: block ∧ currentBlock key p ≠ [] := by
  obtain ⟨before, k, after, done, block, q, rfl, hdone, hblock, rfl, hq, hqne⟩ :=
    h.prefix_cases hp hne
  have hfresh : k ∉ before := fun hmem =>
    (List.nodup_append.mp hkeys).2.2 _ hmem _ (List.mem_cons_self ..) rfl
  have hcurrent : currentBlock key (done ++ q) = q := by
    refine currentBlock_append (k := k) ?_ ?_ hqne
    · rintro r hr rfl
      exact hfresh (hdone.key_mem r hr)
    · intro r hr
      exact hblock.key_eq r (hq.subset hr)
  rw [hcurrent]
  exact ⟨k, done, block, hblock, rfl, hq, hqne⟩

/-- All pairs of elements of two lists, in the order of two nested loops. -/
def lexProduct {A B : Type*} (xs : List A) (ys : List B) : List (A ×ₗ B) :=
  xs.flatMap fun x => ys.map fun y => toLex (x, y)

theorem mem_lexProduct {A B : Type*} {xs : List A} {ys : List B} {x : A} {y : B} :
    toLex (x, y) ∈ lexProduct xs ys ↔ x ∈ xs ∧ y ∈ ys := by
  simp [lexProduct]

/-- Nested loops over increasing lists visit the pairs in lexicographic order. -/
theorem pairwise_lexProduct {A B : Type*} [Preorder A] [Preorder B] {xs : List A} {ys : List B}
    (hxs : xs.Pairwise (· < ·)) (hys : ys.Pairwise (· < ·)) :
    (lexProduct xs ys).Pairwise (· < ·) := by
  refine List.pairwise_flatMap.mpr ⟨?_, ?_⟩
  · intro x _
    refine List.pairwise_map.mpr (hys.imp ?_)
    intro y y' hlt
    exact Prod.Lex.toLex_lt_toLex.mpr (.inr ⟨rfl, hlt⟩)
  · refine hxs.imp ?_
    intro x x' hlt a ha b hb
    obtain ⟨y, -, rfl⟩ := List.mem_map.mp ha
    obtain ⟨y', -, rfl⟩ := List.mem_map.mp hb
    exact Prod.Lex.toLex_lt_toLex.mpr (.inl hlt)

end InterferenceMitigation.Blocks
