import InterferenceMitigation.DirectoryTree
import InterferenceMitigation.ProcessSetup
import InterferenceMitigation.RangeLoop

/-!
Killing and removing a cgroup on Linux. The directories of the group are collected by a
walk that reports a directory before its entries, sorted so that the deeper ones come
first, and then removed one by one. Control files are entries of the walk, but they do
not keep a directory from being removed.
-/

namespace InterferenceMitigation.CGroupRemove

open DirectoryTree MachineInt ProcessSetup RangeLoop

inductive CGroupError
  | missing (path : Path)
  | killFileMissing (path : Path)
  | killTimeout (path : Path)
  | write (path : Path)
  | read (path : Path)
  | removeDir (path : Path) (cause : RemoveError)
  | panicked (panic : Panic)
  deriving DecidableEq, Repr

/-- What the calls of `kill` meet: whether the path is in a cgroup file system, and in
`polls` the readings of `cgroup.events` before the timeout, each a failure or whether the
group is populated. -/
structure KillEnv where
  cgroupFs : Bool
  killFile : Bool
  write : Bool
  polls : List (Option Bool)
  deriving DecidableEq, Repr

/-- The directories there are, and the calls of `remove_dir` so far. -/
structure CGroupFs where
  dirs : Dirs String
  calls : List Path

abbrev Remove := EStateM CGroupError CGroupFs

def ensure (ok : Bool) (error : CGroupError) : Remove Unit :=
  if ok then pure () else throw error

/-- `fs::remove_dir` with the record of the call. -/
def removeDirAt (path : Path) : Remove Unit := fun s =>
  let calls := s.calls ++ [path]
  match removeDir s.dirs path with
  | .ok dirs => .ok () ⟨dirs, calls⟩
  | .error cause => .error (.removeDir path cause) ⟨s.dirs, calls⟩

/-- The loop of `kill` that waits for the group to be empty. -/
def awaitUnpopulated (path : Path) : List (Option Bool) → Remove Unit
  | [] => throw (.killTimeout path)
  | none :: _ => throw (.read (path ++ ["cgroup.events"]))
  | some false :: _ => pure ()
  | some true :: polls => awaitUnpopulated path polls

/-- The order of the removals, which leaves entries of one depth in the order of the walk. -/
def deeperFirst (a b : DirEntry String) : Bool := decide (b.depth ≤ a.depth)

/-- The directories that `remove` takes away, from a walk of `tree`. -/
def removalOrder (tree : Node String) (path : Path) : List Path :=
  (((tree.walk path 0).filter DirEntry.isDir).mergeSort deeperFirst).map DirEntry.path

namespace CGroup

def kill (env : KillEnv) (cgroup : CGroup) : Remove Unit := do
  ensure env.cgroupFs (.missing cgroup.path)
  let killPath := cgroup.path ++ ["cgroup.kill"]
  ensure env.killFile (.killFileMissing cgroup.path)
  ensure env.write (.write killPath)
  awaitUnpopulated cgroup.path env.polls

def remove (env : KillEnv) (tree : Node String) (cgroup : CGroup) : Remove Unit := do
  ensure env.cgroupFs (.missing cgroup.path)
  kill env cgroup
  (removalOrder tree cgroup.path).forM removeDirAt

/-- `Drop`, whose `unwrap` turns an error of `remove` into a panic. -/
def dropped (env : KillEnv) (tree : Node String) (cgroup : CGroup) : Remove Unit :=
  if cgroup.drop && env.cgroupFs then
    tryCatch (remove env tree cgroup) fun _ => throw (.panicked .unwrap)
  else pure ()

end CGroup

theorem ensure_true (error : CGroupError) (s : CGroupFs) : ensure true error s = .ok () s := rfl

/-- A `kill` that succeeds leaves the directories as they are. -/
theorem awaitUnpopulated_ok {path : Path} {polls : List (Option Bool)} {s s' : CGroupFs}
    (h : awaitUnpopulated path polls s = .ok () s') : s' = s := by
  induction polls with
  | nil => cases h
  | cons poll polls ih =>
    match poll with
    | none => cases h
    | some true => exact ih h
    | some false =>
      cases h
      rfl

theorem kill_ok {env : KillEnv} {cgroup : CGroup} {s s' : CGroupFs}
    (h : CGroup.kill env cgroup s = .ok () s') : env.cgroupFs = true ∧ s' = s := by
  obtain ⟨cgroupFs, killFile, write, polls⟩ := env
  cases cgroupFs with
  | false => cases h
  | true =>
    cases killFile with
    | false => cases h
    | true =>
      cases write with
      | false => cases h
      | true => exact ⟨rfl, awaitUnpopulated_ok h⟩

/-- The loop of `remove` makes one call for each path as long as none fails. -/
theorem forM_removeDirAt {paths : List Path} {s : CGroupFs} {dirs : Dirs String}
    (h : paths.foldlM removeDir s.dirs = .ok dirs) :
    paths.forM removeDirAt s = .ok () ⟨dirs, s.calls ++ paths⟩ := by
  induction paths generalizing s with
  | nil =>
    cases h
    rw [List.append_nil]
    rfl
  | cons p rest ih =>
    rw [List.foldlM_cons] at h
    cases hp : removeDir s.dirs p with
    | error cause =>
      rw [hp] at h
      cases h
    | ok dirs' =>
      rw [hp] at h
      have hstep : removeDirAt p s = .ok () ⟨dirs', s.calls ++ [p]⟩ := by
        simp only [removeDirAt, hp]
      have hrest := ih (s := ⟨dirs', s.calls ++ [p]⟩) h
      rw [List.append_assoc, List.singleton_append] at hrest
      exact (run_bind hstep).trans hrest

section Order

variable (tree : Node String) (path : Path)

theorem removalOrder_perm : (removalOrder tree path).Perm (tree.dirs path) :=
  (List.mergeSort_perm _ _).map _

theorem deeperFirst_sorted (es : List (DirEntry String)) :
    (es.mergeSort deeperFirst).Pairwise fun a b => b.depth ≤ a.depth := by
  have htrans : ∀ a b c, deeperFirst a b = true → deeperFirst b c = true →
      deeperFirst a c = true := by
    intro a b c hab hbc
    simp only [deeperFirst, decide_eq_true_eq] at *
    omega
  have htotal : ∀ a b, (deeperFirst a b || deeperFirst b a) = true := by
    intro a b
    simp only [deeperFirst, Bool.or_eq_true, decide_eq_true_eq]
    omega
  exact (List.pairwise_mergeSort htrans htotal es).imp fun h => of_decide_eq_true h

/-- In the order of the removals every directory comes after the directories in it. -/
theorem removalOrder_children {pre : List Path} {p : Path} {post : List Path}
    (hsplit : removalOrder tree path = pre ++ p :: post) {name : String}
    (hchild : p ++ [name] ∈ tree.dirs path) : p ++ [name] ∈ pre := by
  obtain ⟨es, tail, hes, rfl, htail⟩ := List.map_eq_append_iff.mp hsplit
  obtain ⟨e, es', rfl, rfl, rfl⟩ := List.map_eq_cons_iff.mp htail
  obtain ⟨c, hc, hpath⟩ := List.mem_map.mp hchild
  have hdepth : ∀ d ∈ ((tree.walk path 0).filter DirEntry.isDir).mergeSort deeperFirst,
      ∃ rel, d.path = path ++ rel ∧ d.depth = rel.length := by
    intro d hd
    have hwalk := (List.mem_filter.mp (List.mem_mergeSort.mp hd)).1
    obtain ⟨rel, hrel, hdepth⟩ := Node.walk_below path 0 tree d hwalk
    exact ⟨rel, hrel, by rw [hdepth, Nat.zero_add]⟩
  have hfirst : c ∈ es :=
    children_first (deeperFirst_sorted _) hdepth hes (List.mem_mergeSort.mpr hc) hpath
  exact List.mem_map.mpr ⟨c, hfirst, hpath⟩

end Order

/-- The directories at and below `path` are those of `tree`. -/
def Holds (dirs : Dirs String) (path : Path) (tree : Node String) : Prop :=
  ∀ q, path <+: q → (q ∈ dirs ↔ q ∈ tree.dirs path)

theorem dirs_below {tree : Node String} {path q : Path} (h : q ∈ tree.dirs path) :
    path <+: q := by
  obtain ⟨e, he, rfl⟩ := List.mem_map.mp h
  obtain ⟨rel, hrel, -⟩ := Node.walk_below path 0 tree e (List.mem_filter.mp he).1
  exact ⟨rel, hrel.symm⟩

/-- The state after the first removals. -/
theorem foldlM_removalOrder {dirs : Dirs String} {path : Path} {tree : Node String}
    (hdistinct : tree.Distinct) (hholds : Holds dirs path tree) {pre post : List Path}
    (hsplit : removalOrder tree path = pre ++ post) :
    pre.foldlM removeDir dirs = .ok (dirs \ pre.toFinset) := by
  have hperm := removalOrder_perm tree path
  have hnodup := hperm.nodup_iff.mpr (Node.dirs_nodup path hdistinct)
  have hmem : ∀ p ∈ pre, p ∈ tree.dirs path := by
    intro p hp
    refine hperm.mem_iff.mp ?_
    rw [hsplit]
    exact List.mem_append_left _ hp
  rw [hsplit] at hnodup
  refine foldlM_removeDir pre dirs hnodup.of_append_left ?_ ?_
  · intro p hp
    exact (hholds p (dirs_below (hmem p hp))).mpr (hmem p hp)
  · intro pre' p post' hpre name hchild
    have hp : p ∈ pre := by
      rw [hpre]
      simp
    have hbelow := (dirs_below (hmem p hp)).trans (List.prefix_append p [name])
    rw [hpre, List.append_assoc, List.cons_append] at hsplit
    exact removalOrder_children tree path hsplit ((hholds _ hbelow).mp hchild)

/-- When it is the turn of a directory, none is left in it. -/
theorem no_subdir_left {dirs : Dirs String} {path : Path} {tree : Node String}
    (hholds : Holds dirs path tree) {pre post : List Path} {p : Path}
    (hsplit : removalOrder tree path = pre ++ p :: post) :
    ¬ HasSubdir (dirs \ pre.toFinset) p := by
  rintro ⟨q, hq, name, rfl⟩
  obtain ⟨hin, hout⟩ := Finset.mem_sdiff.mp hq
  have hp : p ∈ removalOrder tree path := by
    rw [hsplit]
    simp
  have hmem := (removalOrder_perm tree path).mem_iff.mp hp
  have hbelow := (dirs_below hmem).trans (List.prefix_append p [name])
  have hpre := removalOrder_children tree path hsplit ((hholds _ hbelow).mp hin)
  exact hout (List.mem_toFinset.mpr hpre)

/-- An unwrapped `remove` that succeeds is the `remove`. -/
theorem dropped_ok {env : KillEnv} {tree : Node String} {cgroup : CGroup} {s s' : CGroupFs}
    (hdrop : cgroup.drop = true) (hexists : env.cgroupFs = true)
    (h : CGroup.remove env tree cgroup s = .ok () s') :
    CGroup.dropped env tree cgroup s = .ok () s' := by
  rw [CGroup.dropped, hdrop, hexists, Bool.and_true, if_pos rfl]
  change EStateM.tryCatch _ _ s = _
  rw [EStateM.tryCatch, h]

/-- A `remove` whose `kill` succeeds removes each directory of the group once, and each
when no directory is left in it. Nothing else is removed. -/
theorem remove_subtree (env : KillEnv) (cgroup : CGroup) (entries : Entries String)
    (s s' : CGroupFs) (hdistinct : (Node.dir entries).Distinct)
    (hholds : Holds s.dirs cgroup.path (.dir entries))
    (hkill : CGroup.kill env cgroup s = .ok () s') :
    ∃ dirs calls,
      CGroup.remove env (.dir entries) cgroup s = .ok () ⟨dirs, s.calls ++ calls⟩ ∧
      (cgroup.drop = true →
        CGroup.dropped env (.dir entries) cgroup s = .ok () ⟨dirs, s.calls ++ calls⟩) ∧
      (∀ p, calls.count p = if p ∈ (Node.dir entries).dirs cgroup.path then 1 else 0) ∧
      cgroup.path ∈ calls ∧
      (∀ pre p post, calls = pre ++ p :: post → ∃ now,
        pre.forM removeDirAt s = .ok () now ∧ ¬ HasSubdir now.dirs p) ∧
      ∀ q, q ∈ dirs ↔ q ∈ s.dirs ∧ ¬ cgroup.path <+: q := by
  obtain ⟨hexists, rfl⟩ := kill_ok hkill
  have hperm := removalOrder_perm (.dir entries) cgroup.path
  have hwhole := foldlM_removalOrder hdistinct hholds (List.append_nil _).symm
  have hremove : CGroup.remove env (.dir entries) cgroup s' =
      .ok () ⟨s'.dirs \ (removalOrder (.dir entries) cgroup.path).toFinset,
        s'.calls ++ removalOrder (.dir entries) cgroup.path⟩ := by
    rw [CGroup.remove, hexists, run_bind (ensure_true _ _), run_bind hkill]
    exact forM_removeDirAt hwhole
  refine ⟨_, _, hremove, fun hdrop => dropped_ok hdrop hexists hremove, ?_, ?_, ?_, ?_⟩
  · intro p
    rw [hperm.count_eq]
    exact List.Nodup.count (Node.dirs_nodup _ hdistinct)
  · exact hperm.mem_iff.mpr (List.mem_cons_self ..)
  · intro pre p post hsplit
    have hfold := foldlM_removalOrder hdistinct hholds hsplit
    exact ⟨_, forM_removeDirAt hfold, no_subdir_left hholds hsplit⟩
  · intro q
    rw [Finset.mem_sdiff, List.mem_toFinset, hperm.mem_iff]
    constructor
    · intro ⟨hin, hout⟩
      exact ⟨hin, fun hbelow => hout ((hholds q hbelow).mp hin)⟩
    · intro ⟨hin, hout⟩
      exact ⟨hin, fun hmem => hout (dirs_below hmem)⟩

/-- A group with a nested one and control files at each level. -/
def nestedGroups : Entries String :=
  .cons "cgroup.kill" .file <|
    .cons "partition" (.dir <| .cons "intruder" (.dir (.cons "cgroup.procs" .file .nil)) .nil) .nil

def nestedFs : CGroupFs :=
  ⟨{["runner"], ["runner", "partition"], ["runner", "partition", "intruder"], ["user"]}, []⟩

theorem nestedFs_holds : Holds nestedFs.dirs ["runner"] (.dir nestedGroups) := by
  have hdirs : (Node.dir nestedGroups).dirs ["runner"] =
      [["runner"], ["runner", "partition"], ["runner", "partition", "intruder"]] := rfl
  intro q hbelow
  rw [hdirs]
  simp only [nestedFs, Finset.mem_insert, Finset.mem_singleton, List.mem_cons, List.not_mem_nil,
    or_false]
  constructor
  · rintro (h | h | h | rfl)
    · exact .inl h
    · exact .inr (.inl h)
    · exact .inr (.inr h)
    · exact absurd hbelow (by decide)
  · rintro (h | h | h)
    · exact .inl h
    · exact .inr (.inl h)
    · exact .inr (.inr (.inl h))

/-- The nested groups are removed while the group beside them stays. -/
theorem remove_subtree_nested : ∃ dirs calls,
    CGroup.remove ⟨true, true, true, [some true, some false]⟩ (.dir nestedGroups)
      ⟨["runner"], true⟩ nestedFs = .ok () ⟨dirs, calls⟩ ∧
      calls.count ["runner", "partition", "intruder"] = 1 ∧ ["runner"] ∉ dirs ∧
      ["user"] ∈ dirs := by
  obtain ⟨dirs, calls, hremove, -, hcount, -, -, hdirs⟩ :=
    remove_subtree ⟨true, true, true, [some true, some false]⟩ ⟨["runner"], true⟩ nestedGroups
      nestedFs nestedFs
      ⟨by decide, ⟨trivial, ⟨by decide, ⟨by decide, trivial, trivial⟩, trivial⟩, trivial⟩⟩
      nestedFs_holds rfl
  refine ⟨dirs, _, hremove, ?_, ?_, ?_⟩
  · exact hcount ["runner", "partition", "intruder"]
  · intro hin
    exact ((hdirs _).mp hin).2 (List.prefix_refl _)
  · exact (hdirs _).mpr ⟨by decide, by decide⟩

end InterferenceMitigation.CGroupRemove
