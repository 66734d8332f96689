import InterferenceMitigation.ProcessSetup
import Mathlib.Data.List.Dedup

/-!
Which processes the Linux runner launches. The commands are kept in a table by the id of
their process, and adding a process whose id is taken replaces the command of the earlier
one without a word. Groups are kept by the first half of the id and created once for each.
-/

namespace InterferenceMitigation.ProcessLaunch

open MachineInt Emission ProcessSetup

variable {CpuSet : Type}

/-- An entry of the table of commands. -/
abbrev Entry := Sigma fun _ : Id => Command

/-- The entry that is meant for a process. -/
def entryOf (runner : Runner) (proc : ChildProcess) : Entry := ⟨proc.id, runner.command proc⟩

/-- The entries that `run` tries to spawn, in the order the table yields them: up to the
first that cannot be spawned. -/
def attempts (spawned : Id → Bool) : List Entry → List Entry
  | [] => []
  | entry :: rest => entry :: if spawned entry.1 then attempts spawned rest else []

/-- They are those that are spawned, and the one at which the spawning loop ends. -/
theorem attempts_spawnAll (s : System CpuSet) (spawned : Id → Bool) (order : List Entry) :
    (attempts spawned order).map Sigma.fst =
      (spawnAll s spawned order).log.map Child.id ++
        match (spawnAll s spawned order).result with
        | .ok _ => []
        | .error id => [id] := by
  induction order with
  | nil => rfl
  | cons entry rest ih =>
    unfold spawnAll at ih ⊢
    rw [attempts, List.forM_cons]
    cases hspawned : spawned entry.1 with
    | false => simp [hspawned]
    | true =>
      simp only [hspawned, if_true, List.map_cons, ih, Emit.emit_bind, List.cons_append]
      rfl

theorem attempts_initial (spawned : Id → Bool) (order : List Entry) :
    attempts spawned order <+: order := by
  induction order with
  | nil => exact List.prefix_rfl
  | cons entry rest ih =>
    rw [attempts, List.prefix_cons_inj]
    cases spawned entry.1 with
    | false => exact List.nil_prefix
    | true => exact ih

/-- Every entry is tried exactly when none fails before the last. -/
theorem attempts_eq_iff (spawned : Id → Bool) (order : List Entry) :
    attempts spawned order = order ↔ ∀ id ∈ (order.map Sigma.fst).dropLast, spawned id = true := by
  induction order with
  | nil => simp [attempts]
  | cons entry rest ih =>
    rw [attempts, List.cons_inj_right]
    cases rest with
    | nil => simp [attempts]
    | cons next rest =>
      have hlast : ((entry :: next :: rest).map Sigma.fst).dropLast =
          entry.1 :: ((next :: rest).map Sigma.fst).dropLast := rfl
      rw [hlast, List.forall_mem_cons, ← ih]
      cases hspawned : spawned entry.1 with
      | false => simp
      | true => simp

section AddAll

variable {cpuSet : U32 → CpuSet} {procs : List (ChildProcess × Syscalls)} {s t : System CpuSet}

/-- Processes with distinct new ids each get an entry. -/
theorem addAll_entries (hnamed : s.runner.GroupsNamed) (h : addAll cpuSet procs s = .ok () t)
    (hids : (procs.map fun proc => proc.1.id).Nodup)
    (hnew : ∀ proc ∈ procs, proc.1.id ∉ s.runner.cmds) :
    t.runner.cmds.entries.Perm
      (procs.map (fun proc => entryOf s.runner proc.1) ++ s.runner.cmds.entries) := by
  induction procs generalizing s with
  | nil =>
    obtain ⟨-, rfl⟩ := setup_pure_eq_ok.mp h
    exact .refl _
  | cons proc rest ih =>
    obtain ⟨_, u, hproc, hrest⟩ := setup_bind_eq_ok.mp h
    obtain ⟨-, hcmds, hsame, hnamed'⟩ := addProcess_spec hnamed hproc
    rw [List.map_cons, List.nodup_cons] at hids
    have hfresh : proc.1.id ∉ s.runner.cmds := hnew proc (List.mem_cons_self ..)
    have hnew' : ∀ proc' ∈ rest, proc'.1.id ∉ u.runner.cmds := by
      intro proc' hmem hin
      rw [hcmds, AList.mem_insert] at hin
      rcases hin with heq | hin
      · exact hids.1 (heq ▸ List.mem_map_of_mem (f := fun proc => proc.1.id) hmem)
      · exact hnew proc' (List.mem_cons_of_mem _ hmem) hin
    have hperm := ih hnamed' hrest hids.2 hnew'
    have hentry : ∀ proc', entryOf u.runner proc' = entryOf s.runner proc' := by
      intro proc'
      rw [entryOf, entryOf, hsame.command]
    simp only [hentry] at hperm
    rw [hcmds, AList.entries_insert_of_notMem hfresh] at hperm
    exact hperm.trans List.perm_middle

/-- The directories are those of the groups in the table, in the order of their creation. -/
def DirectoriesOfGroups (s : System CpuSet) : Prop :=
  s.created = s.runner.cgroups.keys.reverse.map s.runner.groupPath

/-- Adding processes creates the groups of their numbers, each once. -/
theorem addAll_groups (hnamed : s.runner.GroupsNamed) (hdirs : DirectoriesOfGroups s)
    (h : addAll cpuSet procs s = .ok () t) :
    DirectoriesOfGroups t ∧ s.runner.SamePaths t.runner ∧
      ∀ group, group ∈ t.runner.cgroups ↔
        group ∈ s.runner.cgroups ∨ ∃ proc ∈ procs, proc.1.id.1 = group := by
  induction procs generalizing s with
  | nil =>
    obtain ⟨-, rfl⟩ := setup_pure_eq_ok.mp h
    exact ⟨hdirs, ⟨rfl, rfl⟩, by simp⟩
  | cons proc rest ih =>
    obtain ⟨_, u, hproc, hrest⟩ := setup_bind_eq_ok.mp h
    obtain ⟨-, -, hsame, hnamed'⟩ := addProcess_spec hnamed hproc
    obtain ⟨cgroup, v, hgroup, rfl⟩ := addProcess_cases hnamed hproc
    rcases group_cases hgroup with ⟨hlookup, rfl⟩ | ⟨hfresh, -, rfl⟩
    · have hknown : proc.1.id.1 ∈ v.runner.cgroups :=
        AList.lookup_isSome.mp (by rw [hlookup]; rfl)
      obtain ⟨hdirs', hpaths, hmem⟩ := ih hnamed' hdirs hrest
      refine ⟨hdirs', hsame.trans hpaths, ?_⟩
      intro group
      rw [hmem group, List.exists_mem_cons_iff, ← or_assoc]
      apply or_congr_left
      refine ⟨.inl, ?_⟩
      rintro (hold | rfl)
      · exact hold
      · exact hknown
    · have hdirs' : DirectoriesOfGroups ({ s with
          affinity := cpuSet proc.1.cpuCore
          created := s.created ++ [s.runner.groupPath proc.1.id.1]
          runner := { s.runner with
            cgroups := s.runner.cgroups.insert proc.1.id.1 cgroup
            cmds := s.runner.cmds.insert proc.1.id (s.runner.command proc.1) } } :
          System CpuSet) := by
        unfold DirectoriesOfGroups at hdirs ⊢
        have hkeys : (s.runner.cgroups.insert proc.1.id.1 cgroup).keys =
            proc.1.id.1 :: s.runner.cgroups.keys := by
          rw [AList.keys_insert, List.erase_of_not_mem (mt AList.mem_keys.mpr hfresh)]
        simp only [hkeys, hdirs, List.reverse_cons, List.map_append, List.map_cons, List.map_nil]
        rfl
      obtain ⟨hdirs'', hpaths, hmem⟩ := ih hnamed' hdirs' hrest
      refine ⟨hdirs'', hsame.trans hpaths, ?_⟩
      intro group
      rw [hmem group, List.exists_mem_cons_iff, ← or_assoc, AList.mem_insert, eq_comm (a := group),
        or_comm (a := proc.1.id.1 = group)]

end AddAll

/-- The groups of the processes, each once. -/
def groupsOf (procs : List (ChildProcess × Syscalls)) : List ℕ :=
  (procs.map fun proc => proc.1.id.1).dedup

/-- A successful setup creates the group of every process, and each group once. -/
theorem created_perm {cpuSet : U32 → CpuSet} {root : Path} {ipcPath : String} {affinity : CpuSet}
    {procs : List (ChildProcess × Syscalls)} {s : System CpuSet}
    (hadd : addAll cpuSet procs (.new root ipcPath affinity) = .ok () s) :
    s.created.Perm ((groupsOf procs).map
      (System.new root ipcPath affinity).runner.groupPath) := by
  obtain ⟨hdirs, hpaths, hmem⟩ :=
    addAll_groups (new_groupsNamed root ipcPath affinity) rfl hadd
  have hpath : s.runner.groupPath = (System.new root ipcPath affinity).runner.groupPath := by
    funext group
    rw [Runner.groupPath, Runner.groupPath, hpaths.rootCgroup]
  rw [hdirs, hpath]
  apply List.Perm.map
  apply (List.reverse_perm _).trans
  apply (List.perm_ext_iff_of_nodup (AList.keys_nodup _) (List.nodup_dedup _)).mpr
  intro group
  rw [← AList.mem_keys, hmem group, List.mem_dedup, List.mem_map]
  simp [System.new]

/-- Each process is tried once, with its own command, and each group is created once. -/
structure LaunchedOnce (runner : Runner) (procs : List (ChildProcess × Syscalls))
    (created : List Path) (tried : List Entry) : Prop where
  entries : tried.Perm (procs.map fun proc => entryOf runner proc.1)
  groups : created.Perm ((groupsOf procs).map runner.groupPath)

/-- When every `add_process` has succeeded, `run` tries to spawn each process once exactly
when their ids are distinct and no spawn fails before the last. -/
theorem launchedOnce_iff (cpuSet : U32 → CpuSet) (root : Path) (ipcPath : String)
    (affinity : CpuSet) (procs : List (ChildProcess × Syscalls)) (s : System CpuSet)
    (hadd : addAll cpuSet procs (.new root ipcPath affinity) = .ok () s)
    (spawned : Id → Bool) (order : List Entry) (horder : order.Perm s.runner.cmds.entries) :
    LaunchedOnce (System.new root ipcPath affinity).runner procs s.created
        (attempts spawned order) ↔
      (procs.map fun proc => proc.1.id).Nodup ∧
        ∀ id ∈ (order.map Sigma.fst).dropLast, spawned id = true := by
  have hnamed := new_groupsNamed root ipcPath affinity
  have hall : (procs.map fun proc => proc.1.id).Nodup →
      order.Perm (procs.map fun proc =>
        entryOf (System.new root ipcPath affinity).runner proc.1) := by
    intro hids
    have hperm := addAll_entries hnamed hadd hids (by simp [System.new])
    rw [show (System.new root ipcPath affinity).runner.cmds.entries = [] from rfl,
      List.append_nil] at hperm
    exact horder.trans hperm
  constructor
  · rintro ⟨hentries, -⟩
    have hids : (procs.map fun proc => proc.1.id).Nodup := by
      have hkeys : (order.map Sigma.fst).Nodup :=
        (horder.map Sigma.fst).nodup_iff.mpr s.runner.cmds.nodupKeys
      have htried : ((attempts spawned order).map Sigma.fst).Nodup :=
        hkeys.sublist ((attempts_initial spawned order).sublist.map _)
      have hperm := hentries.map Sigma.fst
      rw [List.map_map] at hperm
      exact hperm.nodup_iff.mp htried
    refine ⟨hids, (attempts_eq_iff spawned order).mp ?_⟩
    apply (attempts_initial spawned order).eq_of_length
    rw [hentries.length_eq, (hall hids).length_eq]
  · rintro ⟨hids, hspawned⟩
    refine ⟨?_, created_perm hadd⟩
    rw [(attempts_eq_iff spawned order).mpr hspawned]
    exact hall hids

/-- Two stressors that share a group. -/
def stressor (id : Id) (cpuCore : U32) : ChildProcess × Syscalls :=
  (⟨id, "stress-ng", ["--cpu", "1"], cpuCore, none⟩, .allSucceed)

def stressCommand : Command where
  program := "stress-ng"
  args := ["--cpu", "1"]
  preExec := [.mvProc ⟨["sys", "fs", "cgroup", "runner1"], false⟩]
  killOnDrop := true

/-- The system after stressors of group 1 are added, the table of commands being `cmds`. -/
def stressed (cmds : AList fun _ : Id => Command) (cpuCore : U32) : System U32 where
  runner := {
    rootCgroup := ⟨["sys", "fs", "cgroup"], false⟩
    cmds := cmds
    cgroups := AList.insert 1 (⟨["sys", "fs", "cgroup", "runner1"], true⟩ : CGroup) ∅
    ipcPath := "ring" }
  created := [["sys", "fs", "cgroup", "runner1"]]
  affinity := cpuCore

/-- The table with both stressors of the group, and with the one that is left of two of an id. -/
def bothEntries : AList fun _ : Id => Command :=
  AList.insert (1, 1) stressCommand (AList.insert (1, 0) stressCommand ∅)

def oneEntry : AList fun _ : Id => Command := AList.insert (1, 0) stressCommand ∅

theorem launchedOnce_iff_both :
    LaunchedOnce (System.new ["sys", "fs", "cgroup"] "ring" (0 : U32)).runner
        [stressor (1, 0) 6, stressor (1, 1) 7] [["sys", "fs", "cgroup", "runner1"]]
        (attempts (fun _ => true) bothEntries.entries) ↔
      ([stressor (1, 0) 6, stressor (1, 1) 7].map fun proc => proc.1.id).Nodup ∧
        ∀ id ∈ (bothEntries.entries.map Sigma.fst).dropLast, true = true :=
  launchedOnce_iff id ["sys", "fs", "cgroup"] "ring" 0 [stressor (1, 0) 6, stressor (1, 1) 7]
    (stressed bothEntries 7) rfl (fun _ => true) bothEntries.entries (.refl _)

/-- Of two stressors with one id only one is tried. -/
theorem same_id_dropped :
    ¬ ∀ (cpuSet : U32 → U32) (root : Path) (ipcPath : String) (affinity : U32)
      (procs : List (ChildProcess × Syscalls)) (s : System U32),
      addAll cpuSet procs (.new root ipcPath affinity) = .ok () s →
      ∀ (spawned : Id → Bool) (order : List Entry), order.Perm s.runner.cmds.entries →
        LaunchedOnce (System.new root ipcPath affinity).runner procs s.created
          (attempts spawned order) := by
  intro h
  have hlaunched := h id ["sys", "fs", "cgroup"] "ring" 0 [stressor (1, 0) 6, stressor (1, 0) 7]
    (stressed oneEntry 7) rfl (fun _ => true) oneEntry.entries (.refl _)
  exact absurd hlaunched.entries.length_eq (by decide)

end InterferenceMitigation.ProcessLaunch
