import InterferenceMitigation.CGroupRemove
import InterferenceMitigation.ProcessLaunch

/-!
The life of the group directories of the Linux runner. The runner creates a group for every
number it meets, also on the way to a setup that fails, and gives them up when it is dropped:
its own root and the groups that its commands imported are left alone, and the groups in its
table are killed and removed with whatever their processes have made of them, in the order
in which the table yields them.
-/

namespace InterferenceMitigation.GroupLifetime

open DirectoryTree MachineInt ProcessSetup ProcessLaunch CGroupRemove RangeLoop

variable {CpuSet : Type}

section Failures

variable {s t : System CpuSet} {e : Failure}

theorem setup_bind_eq_error {α β : Type} {x : Setup CpuSet α} {f : α → Setup CpuSet β} :
    (x >>= f) s = .error e t ↔
      x s = .error e t ∨ ∃ a u, x s = .ok a u ∧ f a u = .error e t := by
  simp only [bind, EStateM.bind]
  cases x s with
  | ok a u => simp
  | error e u => simp

theorem setup_pure_ne_error {α : Type} (a : α) :
    (pure a : Setup CpuSet α) s ≠ .error e t := by
  intro h
  cases h

theorem setup_modify_ne_error (f : System CpuSet → System CpuSet) :
    (modify f : Setup CpuSet Unit) s ≠ .error e t := by
  intro h
  cases h

theorem setup_get_ne_error : (get : Setup CpuSet (System CpuSet)) s ≠ .error e t := by
  intro h
  cases h

theorem check_error {ok : Bool} {failure : Failure}
    (h : (check ok failure : Setup CpuSet Unit) s = .error e t) : t = s := by
  cases ok <;> cases h
  rfl

theorem createChild_error {sys : Syscalls} {cgroup : CGroup} {name : String} {drop : Bool}
    (h : cgroup.createChild sys name drop s = .error e t) : t = s := by
  simp only [CGroup.createChild, setup_bind_eq_error, check_eq_ok, setup_pure_ne_error,
    setup_modify_ne_error, and_false, exists_false, or_false] at h
  rcases h with h | ⟨_, _, ⟨-, rfl⟩, h⟩
  · exact check_error h
  · exact check_error h

theorem group_error {sys : Syscalls} {group : ℕ}
    (h : Runner.group sys group s = .error e t) : t = s := by
  simp only [Runner.group, setup_bind_eq_error, setup_get_ne_error, setup_get_eq_ok,
    false_or] at h
  obtain ⟨_, _, ⟨rfl, rfl⟩, h⟩ := h
  cases hlookup : s.runner.cgroups.lookup group with
  | some known => simp [hlookup] at h
  | none =>
    simp only [hlookup, setup_bind_eq_error, setup_pure_ne_error, setup_modify_ne_error,
      and_false, exists_false, or_false] at h
    exact createChild_error h

theorem cgroup_error {sys : Syscalls} {cmd : Command} {cgroup : CGroup}
    (h : cmd.cgroup sys cgroup s = .error e t) : t = s := by
  simp only [Command.cgroup, CGroup.import, setup_bind_eq_error, setup_pure_ne_error,
    and_false, exists_false, or_false] at h
  exact check_error h

theorem cpuCore_error {sys : Syscalls} {cmd : Command} {cpuset : CpuSet}
    (h : cmd.cpuCore sys cpuset s = .error e t) : t = s := by
  simp only [Command.cpuCore, setup_bind_eq_error, check_eq_ok, setup_pure_ne_error,
    setup_modify_ne_error, and_false, exists_false, or_false] at h
  rcases h with h | ⟨_, _, ⟨-, rfl⟩, h⟩
  · exact check_error h
  · exact check_error h

/-- An `add_process` that fails has created its group, if anything. -/
theorem addProcess_error {cpuSet : U32 → CpuSet} {sys : Syscalls} {proc : ChildProcess}
    (h : Runner.addProcess cpuSet sys proc s = .error e t) :
    t = s ∨ ∃ cgroup, Runner.group sys proc.id.1 s = .ok cgroup t := by
  simp only [Runner.addProcess, setup_bind_eq_error, setup_get_ne_error, setup_modify_ne_error,
    and_false, exists_false, or_false] at h
  rcases h with h | ⟨cgroup, u, hgroup, h | ⟨cmd, v, hcgroup, h⟩⟩
  · exact Or.inl (group_error h)
  · exact Or.inr ⟨cgroup, cgroup_error h ▸ hgroup⟩
  · obtain ⟨-, rfl⟩ := cgroup_spec hcgroup
    exact Or.inr ⟨cgroup, cpuCore_error h ▸ hgroup⟩

end Failures

def hookCGroup : Hook → CGroup
  | .mvProc cgroup => cgroup

theorem groupName_injective : Function.Injective Runner.groupName := by
  intro a b h
  have hrepr : a.repr = b.repr := (String.append_right_inj _).mp h
  rw [Nat.repr_eq_ofList_toDigits, Nat.repr_eq_ofList_toDigits, String.ofList_inj] at hrepr
  rw [← Nat.ofDigitChars_toDigits (b := 10) (n := a) (by decide) (by decide), hrepr,
    Nat.ofDigitChars_toDigits (by decide) (by decide)]

/-- What the runner owns: the groups of its table, to be removed with it, and handles that
leave theirs alone. -/
structure Owned (root : Path) (s : System CpuSet) : Prop where
  rootCgroup : s.runner.rootCgroup = ⟨root, false⟩
  groups : ∀ group cgroup, s.runner.cgroups.lookup group = some cgroup →
    cgroup = ⟨root ++ [Runner.groupName group], true⟩
  hooks : ∀ id cmd, s.runner.cmds.lookup id = some cmd →
    ∀ hook ∈ cmd.preExec, (hookCGroup hook).drop = false
  created : DirectoriesOfGroups s

section Owned

variable {root : Path} {s t : System CpuSet} {sys : Syscalls}

theorem Owned.groupPath (hs : Owned root s) (group : ℕ) :
    s.runner.groupPath group = root ++ [Runner.groupName group] := by
  rw [Runner.groupPath, hs.rootCgroup]

theorem Owned.groupsNamed (hs : Owned root s) : s.runner.GroupsNamed := by
  intro group cgroup hlookup
  rw [hs.groups group cgroup hlookup, hs.groupPath]

theorem Owned.new (root : Path) (ipcPath : String) (affinity : CpuSet) :
    Owned root (.new root ipcPath affinity) where
  rootCgroup := rfl
  groups := by simp [System.new]
  hooks := by simp [System.new]
  created := rfl

theorem Owned.group (hs : Owned root s) {group : ℕ} {cgroup : CGroup}
    (h : Runner.group sys group s = .ok cgroup t) : Owned root t := by
  rcases group_cases h with ⟨-, rfl⟩ | ⟨hfresh, rfl, rfl⟩
  · exact hs
  · refine ⟨hs.rootCgroup, ?_, hs.hooks, ?_⟩
    · intro group' cgroup' hlookup'
      by_cases hsame : group' = group
      · subst hsame
        rw [AList.lookup_insert] at hlookup'
        rw [← Option.some.inj hlookup', hs.groupPath]
      · rw [AList.lookup_insert_ne hsame] at hlookup'
        exact hs.groups group' cgroup' hlookup'
    · have hcreated := hs.created
      unfold DirectoriesOfGroups at hcreated ⊢
      have hkeys : (s.runner.cgroups.insert group ⟨s.runner.groupPath group, true⟩).keys =
          group :: s.runner.cgroups.keys := by
        rw [AList.keys_insert, List.erase_of_not_mem (mt AList.mem_keys.mpr hfresh)]
      simp only [hkeys, hcreated, List.reverse_cons, List.map_append, List.map_cons, List.map_nil]
      rfl

theorem Owned.addProcess (hs : Owned root s) {cpuSet : U32 → CpuSet} {proc : ChildProcess}
    (h : Runner.addProcess cpuSet sys proc s = .ok () t) : Owned root t := by
  obtain ⟨cgroup, u, hgroup, rfl⟩ := addProcess_cases hs.groupsNamed h
  have hu := hs.group hgroup
  refine ⟨hu.rootCgroup, hu.groups, ?_, hu.created⟩
  intro id cmd hlookup
  by_cases hsame : id = proc.id
  · subst hsame
    rw [AList.lookup_insert] at hlookup
    obtain rfl := Option.some.inj hlookup
    simp [Runner.command, hookCGroup]
  · rw [AList.lookup_insert_ne hsame] at hlookup
    exact hu.hooks id cmd hlookup

/-- The setup keeps what the runner owns, and leaves it so where it fails. -/
theorem Owned.addAll (hs : Owned root s) {cpuSet : U32 → CpuSet}
    {procs : List (ChildProcess × Syscalls)}
    (h : addAll cpuSet procs s = .ok () t ∨ ∃ e, addAll cpuSet procs s = .error e t) :
    Owned root t := by
  induction procs generalizing s with
  | nil =>
    rcases h with h | ⟨e, h⟩ <;> cases h
    exact hs
  | cons proc rest ih =>
    cases hproc : Runner.addProcess cpuSet proc.2 proc.1 s with
    | ok a u =>
      apply ih (hs.addProcess hproc)
      rcases h with h | ⟨e, h⟩
      · obtain ⟨_, u', hproc', hrest⟩ := setup_bind_eq_ok.mp h
        obtain ⟨-, rfl⟩ := EStateM.Result.ok.inj (hproc.symm.trans hproc')
        exact Or.inl hrest
      · rcases setup_bind_eq_error.mp h with hfail | ⟨_, u', hproc', hrest⟩
        · cases hproc.symm.trans hfail
        · obtain ⟨-, rfl⟩ := EStateM.Result.ok.inj (hproc.symm.trans hproc')
          exact Or.inr ⟨e, hrest⟩
    | error e u =>
      have hend : t = u := by
        rcases h with h | ⟨e', h⟩
        · obtain ⟨_, u', hproc', -⟩ := setup_bind_eq_ok.mp h
          cases hproc.symm.trans hproc'
        · rcases setup_bind_eq_error.mp h with hfail | ⟨_, u', hproc', -⟩
          · exact (EStateM.Result.error.inj (hproc.symm.trans hfail)).2.symm
          · cases hproc.symm.trans hproc'
      subst hend
      rcases addProcess_error hproc with rfl | ⟨cgroup, hgroup⟩
      · exact hs
      · exact hs.group hgroup

end Owned

/-- A `kill` under which the processes of the group end before the timeout. -/
structure Settles (env : KillEnv) : Prop where
  cgroupFs : env.cgroupFs = true
  killFile : env.killFile = true
  write : env.write = true
  polls : ∃ n rest, env.polls = List.replicate n (some true) ++ some false :: rest

theorem awaitUnpopulated_replicate (path : Path) (n : ℕ) (rest : List (Option Bool))
    (s : CGroupFs) :
    awaitUnpopulated path (List.replicate n (some true) ++ some false :: rest) s = .ok () s := by
  induction n with
  | zero => rfl
  | succ n ih => exact ih

theorem kill_of_settles {env : KillEnv} (h : Settles env) (cgroup : CGroup) (s : CGroupFs) :
    CGroup.kill env cgroup s = .ok () s := by
  obtain ⟨n, rest, hpolls⟩ := h.polls
  rw [CGroup.kill, h.cgroupFs, h.killFile, h.write, run_bind (ensure_true _ _),
    run_bind (ensure_true _ _), run_bind (ensure_true _ _), hpolls]
  exact awaitUnpopulated_replicate _ n rest s

theorem dropped_of_keep {env : KillEnv} {tree : Node String} {cgroup : CGroup} {s : CGroupFs}
    (h : cgroup.drop = false) : CGroup.dropped env tree cgroup s = .ok () s := by
  rw [CGroup.dropped, h, Bool.false_and, if_neg Bool.false_ne_true]
  rfl

theorem dropped_of_settles {env : KillEnv} {tree : Node String} {cgroup : CGroup}
    {s : CGroupFs} (hdrop : cgroup.drop = true) (henv : Settles env) (hdistinct : tree.Distinct)
    (hholds : Holds s.dirs cgroup.path tree) :
    CGroup.dropped env tree cgroup s =
      .ok () ⟨s.dirs \ (tree.dirs cgroup.path).toFinset,
        s.calls ++ removalOrder tree cgroup.path⟩ := by
  have hwhole := foldlM_removalOrder hdistinct hholds (List.append_nil _).symm
  rw [List.toFinset_eq_of_perm _ _ (removalOrder_perm tree cgroup.path)] at hwhole
  apply dropped_ok hdrop henv.cgroupFs
  rw [CGroup.remove, henv.cgroupFs, run_bind (ensure_true _ _),
    run_bind (kill_of_settles henv cgroup s)]
  exact forM_removeDirAt hwhole

section Drop

variable (env : Path → KillEnv) (made : Path → Entries String)

def dropCGroup (cgroup : CGroup) : Remove Unit :=
  CGroup.dropped (env cgroup.path) (.dir (made cgroup.path)) cgroup

/-- The drop of a runner field by field, its tables in the orders `cmds` and `cgroups`. -/
def Runner.dropped (runner : Runner) (cmds : List Entry)
    (cgroups : List (Sigma fun _ : ℕ => CGroup)) : Remove Unit := do
  dropCGroup env made runner.rootCgroup
  (cmds.flatMap fun entry => entry.2.preExec.map hookCGroup).forM (dropCGroup env made)
  (cgroups.map Sigma.snd).forM (dropCGroup env made)

/-- The directories at and below `paths`, as their processes have left them. -/
def grown (paths : List Path) : List Path :=
  paths.flatMap fun path => (Node.dir (made path)).dirs path

variable {env made}

theorem forM_dropCGroup_keep {cgroups : List CGroup} (h : ∀ c ∈ cgroups, c.drop = false)
    (s : CGroupFs) : cgroups.forM (dropCGroup env made) s = .ok () s := by
  induction cgroups with
  | nil => rfl
  | cons c rest ih =>
    have hfirst : dropCGroup env made c s = .ok () s :=
      dropped_of_keep (h c (List.mem_cons_self ..))
    exact (run_bind hfirst).trans (ih fun c' hc => h c' (List.mem_cons_of_mem _ hc))

/-- Groups none of which lies in another are removed one after the other. -/
theorem forM_dropCGroup {dirs : Dirs String} {cgroups : List CGroup} (calls : List Path)
    (hdrop : ∀ c ∈ cgroups, c.drop = true)
    (hapart : cgroups.Pairwise fun a b => ∀ q, a.path <+: q → ¬ b.path <+: q)
    (hfresh : ∀ c ∈ cgroups, ∀ q ∈ dirs, ¬ c.path <+: q)
    (hdistinct : ∀ c ∈ cgroups, (Node.dir (made c.path)).Distinct)
    (hsettles : ∀ c ∈ cgroups, Settles (env c.path)) :
    cgroups.forM (dropCGroup env made)
        ⟨dirs ∪ (grown made (cgroups.map CGroup.path)).toFinset, calls⟩ =
      .ok () ⟨dirs, calls ++
        (cgroups.map CGroup.path).flatMap fun p => removalOrder (.dir (made p)) p⟩ := by
  induction cgroups generalizing calls with
  | nil => simp [grown]
  | cons c rest ih =>
    obtain ⟨hothers, hrest⟩ := List.pairwise_cons.mp hapart
    have hself : c ∈ c :: rest := List.mem_cons_self ..
    have hmem : ∀ c' ∈ rest, c' ∈ c :: rest := fun _ => List.mem_cons_of_mem _
    have hout : ∀ q, c.path <+: q → q ∉ dirs ∧ q ∉ grown made (rest.map CGroup.path) := by
      intro q hbelow
      refine ⟨fun hq => hfresh c hself q hq hbelow, fun hq => ?_⟩
      obtain ⟨path, hpath, hq⟩ := List.mem_flatMap.mp hq
      obtain ⟨c', hc', rfl⟩ := List.mem_map.mp hpath
      exact hothers c' hc' q hbelow (dirs_below hq)
    have hgrown : grown made ((c :: rest).map CGroup.path) =
        (Node.dir (made c.path)).dirs c.path ++ grown made (rest.map CGroup.path) := rfl
    have hholds : Holds (dirs ∪ (grown made ((c :: rest).map CGroup.path)).toFinset) c.path
        (.dir (made c.path)) := by
      intro q hbelow
      obtain ⟨hdirs, hlater⟩ := hout q hbelow
      simp only [Finset.mem_union, List.mem_toFinset, hgrown, List.mem_append]
      tauto
    have hleft : (dirs ∪ (grown made ((c :: rest).map CGroup.path)).toFinset) \
        ((Node.dir (made c.path)).dirs c.path).toFinset =
          dirs ∪ (grown made (rest.map CGroup.path)).toFinset := by
      ext q
      have hq : q ∈ (Node.dir (made c.path)).dirs c.path → q ∉ dirs ∧ _ :=
        fun h => hout q (dirs_below h)
      simp only [Finset.mem_sdiff, Finset.mem_union, List.mem_toFinset, hgrown, List.mem_append]
      tauto
    have hfirst : dropCGroup env made c
        ⟨dirs ∪ (grown made ((c :: rest).map CGroup.path)).toFinset, calls⟩ =
          .ok () ⟨dirs ∪ (grown made (rest.map CGroup.path)).toFinset,
            calls ++ removalOrder (.dir (made c.path)) c.path⟩ := by
      rw [← hleft]
      exact dropped_of_settles (hdrop c hself) (hsettles c hself) (hdistinct c hself) hholds
    refine (run_bind hfirst).trans ?_
    rw [List.map_cons, List.flatMap_cons, ← List.append_assoc]
    exact ih _ (fun c' hc => hdrop c' (hmem c' hc)) hrest (fun c' hc => hfresh c' (hmem c' hc))
      (fun c' hc => hdistinct c' (hmem c' hc)) fun c' hc => hsettles c' (hmem c' hc)

/-- The directories that are removed with such groups, each once. -/
theorem removed_grown {paths : List Path}
    (hapart : paths.Pairwise fun p p' => ∀ q, p <+: q → ¬ p' <+: q)
    (hdistinct : ∀ p ∈ paths, (Node.dir (made p)).Distinct) :
    (paths.flatMap fun p => removalOrder (.dir (made p)) p).Perm (grown made paths) ∧
      (paths.flatMap fun p => removalOrder (.dir (made p)) p).Nodup := by
  refine ⟨List.Perm.flatMap_left _ fun p _ => removalOrder_perm (.dir (made p)) p, ?_⟩
  rw [List.nodup_flatMap]
  constructor
  · intro p hp
    apply (removalOrder_perm _ p).nodup_iff.mpr
    exact Node.dirs_nodup p (hdistinct p hp)
  · refine hapart.imp fun {p p'} hne => ?_
    intro q hq hq'
    have hbelow := dirs_below ((removalOrder_perm _ _).mem_iff.mp hq)
    exact hne q hbelow (dirs_below ((removalOrder_perm _ _).mem_iff.mp hq'))

end Drop

/-- The group directory of a number lies in no other. -/
theorem groupPath_apart {root : Path} {group group' : ℕ} (hne : group ≠ group') (q : Path)
    (h : root ++ [Runner.groupName group] <+: q) : ¬ root ++ [Runner.groupName group'] <+: q := by
  intro h'
  have hsame : root ++ [Runner.groupName group] = root ++ [Runner.groupName group'] := by
    apply (List.prefix_of_prefix_length_le h h' (by simp)).eq_of_length
    simp
  have hname := List.append_cancel_left hsame
  exact hne (groupName_injective (List.singleton_inj.mp hname))

theorem keys_nodup_of_perm {α : Type} {β : α → Type} {entries : List (Sigma β)} {table : AList β}
    (h : entries.Perm table.entries) : (entries.map Sigma.fst).Nodup :=
  (h.map Sigma.fst).nodup_iff.mpr (AList.keys_nodup table)

/-- The groups of the table in any order: those of their numbers, each once. -/
theorem Owned.table {root : Path} {s : System CpuSet} (hs : Owned root s)
    {cgroups : List (Sigma fun _ : ℕ => CGroup)} (h : cgroups.Perm s.runner.cgroups.entries) :
    cgroups.map Sigma.snd = (cgroups.map Sigma.fst).map (fun group =>
        ⟨root ++ [Runner.groupName group], true⟩) ∧
      s.created.Perm ((cgroups.map Sigma.fst).map fun group =>
        root ++ [Runner.groupName group]) := by
  constructor
  · rw [List.map_map]
    apply List.map_congr_left
    intro entry hentry
    exact hs.groups entry.1 entry.2 (AList.mem_lookup_iff.mpr (h.mem_iff.mp hentry))
  · have hpath : s.runner.groupPath = fun group => root ++ [Runner.groupName group] :=
      funext hs.groupPath
    rw [hs.created, hpath]
    exact ((List.reverse_perm _).trans (h.map Sigma.fst).symm).map _

/-- Dropping the runner undoes its setup, whether that succeeded or stopped at a failure, if
every group that was created can be killed and is empty before the timeout: each directory of
its groups is removed once, the nested ones included, and the directories are those from
before the first group was created. The tables may be dropped in any order. -/
theorem groups_restored (cpuSet : U32 → CpuSet) (root : Path) (ipcPath : String)
    (affinity : CpuSet) (procs : List (ChildProcess × Syscalls)) (t : System CpuSet)
    (h : addAll cpuSet procs (.new root ipcPath affinity) = .ok () t ∨
      ∃ e, addAll cpuSet procs (.new root ipcPath affinity) = .error e t)
    (dirs : Dirs String) (made : Path → Entries String) (env : Path → KillEnv)
    (hfresh : ∀ p ∈ t.created, ∀ q ∈ dirs, ¬ p <+: q)
    (hdistinct : ∀ p ∈ t.created, (Node.dir (made p)).Distinct)
    (hsettles : ∀ p ∈ t.created, Settles (env p))
    (cmds : List Entry) (cgroups : List (Sigma fun _ : ℕ => CGroup)) (calls : List Path)
    (hcmds : cmds.Perm t.runner.cmds.entries)
    (hgroups : cgroups.Perm t.runner.cgroups.entries) :
    ∃ removed, Runner.dropped env made t.runner cmds cgroups
        ⟨dirs ∪ (grown made t.created).toFinset, calls⟩ = .ok () ⟨dirs, calls ++ removed⟩ ∧
      removed.Perm (grown made t.created) ∧ removed.Nodup := by
  have hs : Owned root t := (Owned.new root ipcPath affinity).addAll h
  obtain ⟨htable, hcreated⟩ := hs.table hgroups
  have hkeys := keys_nodup_of_perm hgroups
  generalize cgroups.map Sigma.fst = groups at htable hcreated hkeys
  have hpaths : (cgroups.map Sigma.snd).map CGroup.path =
      groups.map fun group => root ++ [Runner.groupName group] := by
    rw [htable, List.map_map]
    rfl
  rw [← hpaths] at hcreated
  have hmem : ∀ c ∈ cgroups.map Sigma.snd, c.path ∈ t.created := by
    intro c hc
    rw [hcreated.mem_iff]
    exact List.mem_map_of_mem hc
  have hapart : ((cgroups.map Sigma.snd).map CGroup.path).Pairwise fun p p' =>
      ∀ q, p <+: q → ¬ p' <+: q := by
    rw [hpaths, List.pairwise_map]
    exact hkeys.imp fun hne => groupPath_apart hne
  have hdrop : ∀ c ∈ cgroups.map Sigma.snd, c.drop = true := by
    intro c hc
    rw [htable] at hc
    obtain ⟨group, -, rfl⟩ := List.mem_map.mp hc
    rfl
  have hkeep : ∀ c ∈ cmds.flatMap fun entry => entry.2.preExec.map hookCGroup,
      c.drop = false := by
    intro c hc
    obtain ⟨entry, hentry, hc⟩ := List.mem_flatMap.mp hc
    obtain ⟨hook, hhook, rfl⟩ := List.mem_map.mp hc
    have hlookup := AList.mem_lookup_iff.mpr (hcmds.mem_iff.mp hentry)
    exact hs.hooks entry.1 entry.2 hlookup hook hhook
  have hgrown : (grown made t.created).Perm
      (grown made ((cgroups.map Sigma.snd).map CGroup.path)) := hcreated.flatMap_right _
  obtain ⟨hperm, hnodup⟩ :=
    removed_grown hapart fun p hp => hdistinct p (hcreated.mem_iff.mpr hp)
  refine ⟨_, ?_, hperm.trans hgrown.symm, hnodup⟩
  have hroot : dropCGroup env made t.runner.rootCgroup
      ⟨dirs ∪ (grown made t.created).toFinset, calls⟩ =
        .ok () ⟨dirs ∪ (grown made t.created).toFinset, calls⟩ :=
    dropped_of_keep (by rw [hs.rootCgroup])
  rw [Runner.dropped, run_bind hroot, run_bind (forM_dropCGroup_keep hkeep _),
    List.toFinset_eq_of_perm _ _ hgrown]
  exact forM_dropCGroup calls hdrop (List.pairwise_map.mp hapart)
    (fun c hc => hfresh _ (hmem c hc)) (fun c hc => hdistinct _ (hmem c hc))
    fun c hc => hsettles _ (hmem c hc)

/-- A payload in group 2 whose core cannot be bound, after a stressor in group 1. -/
def unbound : List (ChildProcess × Syscalls) :=
  [stressor (1, 0) 6, (⟨(2, 0), "wasm-runner", [], 8, none⟩, ⟨true, true, true, true, false⟩)]

def settling : KillEnv := ⟨true, true, true, [some true, some false]⟩

/-- The setup fails, and both groups are removed with the groups nested in them. -/
theorem groups_restored_unbound : ∃ t removed,
    addAll id unbound (.new ["sys"] "ring" 0) = .error (.panicked .unwrap) t ∧
      Runner.dropped (fun _ => settling) (fun _ => nestedGroups) t.runner
        t.runner.cmds.entries t.runner.cgroups.entries
          ⟨{["sys"]} ∪ (grown (fun _ => nestedGroups) t.created).toFinset, []⟩ =
        .ok () ⟨{["sys"]}, removed⟩ ∧ removed.length = 6 := by
  have hfailed : ∃ t, addAll id unbound (.new ["sys"] "ring" (0 : U32)) =
      .error (.panicked .unwrap) t ∧ t.created = [["sys", "runner1"], ["sys", "runner2"]] :=
    ⟨_, rfl, rfl⟩
  obtain ⟨t, hfailed, hcreated⟩ := hfailed
  have hfresh : ∀ p ∈ t.created, ∀ q ∈ ({["sys"]} : Dirs String), ¬ p <+: q := by
    rw [hcreated]
    decide
  obtain ⟨removed, hdropped, hperm, -⟩ := groups_restored id ["sys"] "ring" 0 unbound t
    (.inr ⟨_, hfailed⟩) {["sys"]} (fun _ => nestedGroups) (fun _ => settling) hfresh
    (fun _ _ => ⟨by decide, trivial, ⟨by decide, ⟨by decide, trivial, trivial⟩, trivial⟩, trivial⟩)
    (fun _ _ => ⟨rfl, rfl, rfl, 1, [], rfl⟩) t.runner.cmds.entries t.runner.cgroups.entries []
    (.refl _) (.refl _)
  refine ⟨t, removed, hfailed, hdropped, ?_⟩
  rw [hperm.length_eq, hcreated]
  rfl

end InterferenceMitigation.GroupLifetime
