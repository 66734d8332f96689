import Mathlib.Data.Finset.Basic
import Mathlib.Data.List.Nodup
import Mathlib.Tactic.Common

/-!
Directory trees, the order in which a walk reports their entries, and the removal of
their directories one by one. A directory can only be removed when no directory is left
in it; a list of directories in which the deeper ones come first can be removed in order.
-/

namespace InterferenceMitigation.DirectoryTree

universe u

mutual

/-- What a name in a directory stands for. -/
inductive Node (N : Type u)
  | file
  | dir (entries : Entries N)

/-- The entries of a directory, in the order in which they are read. -/
inductive Entries (N : Type u)
  | nil
  | cons (name : N) (node : Node N) (rest : Entries N)

end

/-- What a walk reports about an entry. -/
structure DirEntry (N : Type u) where
  path : List N
  depth : ℕ
  isDir : Bool
  deriving DecidableEq

variable {N : Type u}

mutual

/-- The walk from `path`, at the given depth: a directory before its entries. -/
def Node.walk (path : List N) (depth : ℕ) : Node N → List (DirEntry N)
  | .file => [⟨path, depth, false⟩]
  | .dir entries => ⟨path, depth, true⟩ :: entries.walk path depth

def Entries.walk (path : List N) (depth : ℕ) : Entries N → List (DirEntry N)
  | .nil => []
  | .cons name node rest => node.walk (path ++ [name]) (depth + 1) ++ rest.walk path depth

end

def Entries.names : Entries N → List N
  | .nil => []
  | .cons name _ rest => name :: rest.names

mutual

/-- No directory has two entries of one name. -/
def Node.Distinct : Node N → Prop
  | .file => True
  | .dir entries => entries.names.Nodup ∧ entries.Distinct

def Entries.Distinct : Entries N → Prop
  | .nil => True
  | .cons _ node rest => node.Distinct ∧ rest.Distinct

end

mutual

/-- Every entry is reported at or below the start of the walk, at its depth. -/
theorem Node.walk_below (path : List N) (depth : ℕ) (node : Node N) :
    ∀ e ∈ node.walk path depth, ∃ rel, e.path = path ++ rel ∧ e.depth = depth + rel.length := by
  cases node with
  | file =>
    intro e he
    obtain rfl := List.mem_singleton.mp he
    exact ⟨[], by simp, rfl⟩
  | dir entries =>
    intro e he
    rcases List.mem_cons.mp he with rfl | he
    · exact ⟨[], by simp, rfl⟩
    · obtain ⟨name, -, rel, hpath, hdepth⟩ := Entries.walk_below path depth entries e he
      exact ⟨name :: rel, hpath, by rw [hdepth, List.length_cons]; omega⟩

theorem Entries.walk_below (path : List N) (depth : ℕ) (entries : Entries N) :
    ∀ e ∈ entries.walk path depth, ∃ name ∈ entries.names, ∃ rel,
      e.path = path ++ name :: rel ∧ e.depth = depth + 1 + rel.length := by
  cases entries with
  | nil =>
    intro e he
    cases he
  | cons name node rest =>
    intro e he
    rcases List.mem_append.mp he with hnode | hrest
    · obtain ⟨rel, hpath, hdepth⟩ := Node.walk_below (path ++ [name]) (depth + 1) node e hnode
      refine ⟨name, List.mem_cons_self .., rel, ?_, hdepth⟩
      rw [hpath, List.append_assoc, List.singleton_append]
    · obtain ⟨name', hname, rel, hpath, hdepth⟩ := Entries.walk_below path depth rest e hrest
      exact ⟨name', List.mem_cons_of_mem _ hname, rel, hpath, hdepth⟩

end

mutual

/-- A walk reports no path twice. -/
theorem Node.walk_nodup (path : List N) (depth : ℕ) (node : Node N) (h : node.Distinct) :
    ((node.walk path depth).map DirEntry.path).Nodup := by
  cases node with
  | file => exact List.nodup_singleton _
  | dir entries =>
    rw [Node.walk, List.map_cons, List.nodup_cons]
    refine ⟨?_, Entries.walk_nodup path depth entries h.1 h.2⟩
    intro hmem
    obtain ⟨e, he, heq⟩ := List.mem_map.mp hmem
    obtain ⟨name, -, rel, hpath, -⟩ := Entries.walk_below path depth entries e he
    simp [hpath] at heq

theorem Entries.walk_nodup (path : List N) (depth : ℕ) (entries : Entries N)
    (hnames : entries.names.Nodup) (h : entries.Distinct) :
    ((entries.walk path depth).map DirEntry.path).Nodup := by
  cases entries with
  | nil => exact .nil
  | cons name node rest =>
    obtain ⟨hname, hrest⟩ := List.nodup_cons.mp hnames
    rw [Entries.walk, List.map_append, List.nodup_append]
    refine ⟨Node.walk_nodup (path ++ [name]) (depth + 1) node h.1,
      Entries.walk_nodup path depth rest hrest h.2, ?_⟩
    intro p hp q hq heq
    subst heq
    obtain ⟨e, he, rfl⟩ := List.mem_map.mp hp
    obtain ⟨e', he', heq⟩ := List.mem_map.mp hq
    obtain ⟨rel, hpath, -⟩ := Node.walk_below (path ++ [name]) (depth + 1) node e he
    obtain ⟨name', hname', rel', hpath', -⟩ := Entries.walk_below path depth rest e' he'
    rw [hpath, hpath', List.append_assoc, List.append_cancel_left_eq, List.singleton_append,
      List.cons.injEq] at heq
    exact hname (heq.1 ▸ hname')

end

/-- The directories below and at the start of a walk. -/
def Node.dirs (path : List N) (node : Node N) : List (List N) :=
  ((node.walk path 0).filter DirEntry.isDir).map DirEntry.path

theorem Node.dirs_nodup (path : List N) {node : Node N} (h : node.Distinct) :
    (node.dirs path).Nodup :=
  (Node.walk_nodup path 0 node h).sublist (List.filter_sublist.map _)

inductive RemoveError
  | notFound
  | notEmpty
  deriving DecidableEq, Repr

section Remove

variable [DecidableEq N]

/-- A file system, as the set of its directories. -/
abbrev Dirs (N : Type u) := Finset (List N)

/-- Some directory of `dirs` is an entry of `path`. -/
def HasSubdir (dirs : Dirs N) (path : List N) : Prop := ∃ q ∈ dirs, ∃ name, q = path ++ [name]

instance (dirs : Dirs N) (path : List N) : Decidable (HasSubdir dirs path) :=
  decidable_of_iff (∃ q ∈ dirs, q ≠ [] ∧ q.dropLast = path) (by
    constructor
    · rintro ⟨q, hq, hne, rfl⟩
      exact ⟨q, hq, q.getLast hne, (List.dropLast_concat_getLast hne).symm⟩
    · rintro ⟨q, hq, name, rfl⟩
      exact ⟨_, hq, by simp, List.dropLast_concat⟩)

/-- `remove_dir` on one directory. -/
def removeDir (dirs : Dirs N) (path : List N) : Except RemoveError (Dirs N) :=
  if path ∉ dirs then .error .notFound
  else if HasSubdir dirs path then .error .notEmpty
  else .ok (dirs.erase path)

/-- Removing directories of which each comes after all those it contains. -/
theorem foldlM_removeDir (paths : List (List N)) (dirs : Dirs N) (hnodup : paths.Nodup)
    (hmem : ∀ p ∈ paths, p ∈ dirs)
    (hfirst : ∀ pre p post, paths = pre ++ p :: post → ∀ name, p ++ [name] ∈ dirs →
      p ++ [name] ∈ pre) :
    paths.foldlM removeDir dirs = .ok (dirs \ paths.toFinset) := by
  induction paths generalizing dirs with
  | nil =>
    rw [List.toFinset_nil, Finset.sdiff_empty]
    rfl
  | cons p rest ih =>
    obtain ⟨hp, hrest⟩ := List.nodup_cons.mp hnodup
    have hempty : ¬ HasSubdir dirs p := by
      rintro ⟨q, hq, name, rfl⟩
      exact absurd (hfirst [] p rest rfl name hq) (List.not_mem_nil)
    have hstep : removeDir dirs p = .ok (dirs.erase p) := by
      rw [removeDir, if_neg (not_not.mpr (hmem p (List.mem_cons_self ..))), if_neg hempty]
    have hmem' : ∀ q ∈ rest, q ∈ dirs.erase p := by
      intro q hq
      refine Finset.mem_erase.mpr ⟨?_, hmem q (List.mem_cons_of_mem _ hq)⟩
      rintro rfl
      exact hp hq
    have hfirst' : ∀ pre q post, rest = pre ++ q :: post → ∀ name, q ++ [name] ∈ dirs.erase p →
        q ++ [name] ∈ pre := by
      intro pre q post heq name hin
      obtain ⟨hne, hin⟩ := Finset.mem_erase.mp hin
      have hpre := hfirst (p :: pre) q post (by rw [heq, List.cons_append]) name hin
      exact (List.mem_cons.mp hpre).resolve_left hne
    rw [List.foldlM_cons, hstep]
    change rest.foldlM removeDir (dirs.erase p) = _
    rw [ih (dirs.erase p) hrest hmem' hfirst', List.toFinset_cons, Finset.sdiff_insert]
    congr 1
    ext q
    simp only [Finset.mem_sdiff, Finset.mem_erase]
    tauto

end Remove

/-- Where the deeper entries come first, the entries of a directory come before it. -/
theorem children_first {es : List (DirEntry N)} {root : List N}
    (hsorted : es.Pairwise fun a b => b.depth ≤ a.depth)
    (hdepth : ∀ e ∈ es, ∃ rel, e.path = root ++ rel ∧ e.depth = rel.length)
    {pre post : List (DirEntry N)} {e c : DirEntry N} (hsplit : es = pre ++ e :: post)
    (hc : c ∈ es) {name : N} (hchild : c.path = e.path ++ [name]) : c ∈ pre := by
  have he : e ∈ es := by
    rw [hsplit]
    simp
  obtain ⟨rel, hpath, hlen⟩ := hdepth e he
  obtain ⟨rel', hpath', hlen'⟩ := hdepth c hc
  have hdeeper : c.depth = e.depth + 1 := by
    have hlength := congrArg List.length hchild
    rw [hpath, hpath'] at hlength
    simp only [List.length_append, List.length_cons, List.length_nil] at hlength
    omega
  rw [hsplit] at hc hsorted
  rcases List.mem_append.mp hc with hpre | hrest
  · exact hpre
  · rcases List.mem_cons.mp hrest with rfl | hpost
    · omega
    · have hle := List.rel_of_pairwise_cons (List.pairwise_append.mp hsorted).2.1 hpost
      omega

end InterferenceMitigation.DirectoryTree
