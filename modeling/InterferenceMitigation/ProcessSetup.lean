import InterferenceMitigation.Emission
import InterferenceMitigation.MachineInt
import Mathlib.Data.List.AList

/-!
The Linux runner up to the spawning of its children. Adding a process creates its
group if there is none yet, queues a hook that moves the child there, and binds a core.
The binding is a system call on the calling process and takes effect at once, while the
hook is kept in the command and runs in the child. A child inherits the affinity that
the runner has when it is spawned.
-/

namespace InterferenceMitigation.ProcessSetup

open MachineInt Emission Emit

abbrev Path := List String

abbrev Id := ℕ × ℕ

structure CGroup where
  path : Path
  drop : Bool
  deriving DecidableEq, Repr

/-- What runs in a child between its creation and its program. -/
inductive Hook
  | mvProc (cgroup : CGroup)
  deriving DecidableEq, Repr

structure Command where
  program : String
  args : List String
  preExec : List Hook
  killOnDrop : Bool
  deriving DecidableEq, Repr

structure Runner where
  rootCgroup : CGroup
  cmds : AList fun _ : Id => Command
  cgroups : AList fun _ : ℕ => CGroup
  ipcPath : String

/-- The runner with what its system calls have done: the group directories it created,
and the set of cores its own process is bound to. -/
structure System (CpuSet : Type) where
  runner : Runner
  created : List Path
  affinity : CpuSet

/-- The parameters of `add_process`, as an entry of the configuration holds them. -/
structure ChildProcess where
  id : Id
  cmd : String
  args : List String
  cpuCore : U32
  ipcArg : Option String
  deriving DecidableEq, Repr

/-- Whether each of the system calls of one `add_process` succeeds. -/
structure Syscalls where
  rootExists : Bool
  createDir : Bool
  importExists : Bool
  myself : Bool
  setCpubind : Bool
  deriving DecidableEq, Repr

def Syscalls.allSucceed : Syscalls := ⟨true, true, true, true, true⟩

inductive Failure
  | cgroupMissing (path : Path)
  | createDir (path : Path)
  | myself
  | panicked (panic : Panic)
  deriving DecidableEq, Repr

variable {CpuSet : Type}

abbrev Setup (CpuSet : Type) := EStateM Failure (System CpuSet)

def check (ok : Bool) (failure : Failure) : Setup CpuSet Unit :=
  if ok then pure () else throw failure

def CGroup.createChild (sys : Syscalls) (cgroup : CGroup) (name : String) (drop : Bool) :
    Setup CpuSet CGroup := do
  check sys.rootExists (.cgroupMissing cgroup.path)
  let path := cgroup.path ++ [name]
  check sys.createDir (.createDir path)
  modify fun s => { s with created := s.created ++ [path] }
  return ⟨path, drop⟩

def CGroup.import (sys : Syscalls) (path : Path) (drop : Bool) : Setup CpuSet CGroup := do
  check sys.importExists (.cgroupMissing path)
  return ⟨path, drop⟩

namespace Command

def new (program : String) : Command := ⟨program, [], [], false⟩

def addArgs (cmd : Command) (args : List String) : Command :=
  { cmd with args := cmd.args ++ args }

def cgroup (sys : Syscalls) (cmd : Command) (cgroup : CGroup) : Setup CpuSet Command := do
  let cgroup ← CGroup.import sys cgroup.path false
  return { cmd with preExec := cmd.preExec ++ [.mvProc cgroup] }

/-- Binds the process that executes it, which is the runner. -/
def cpuCore (sys : Syscalls) (cmd : Command) (cpuset : CpuSet) : Setup CpuSet Command := do
  check sys.myself .myself
  check sys.setCpubind (.panicked .unwrap)
  modify fun s => { s with affinity := cpuset }
  return cmd

end Command

def Runner.groupName (group : ℕ) : String := "runner" ++ toString group

/-- The group of a number, created under the root when it is asked for first. -/
def Runner.group (sys : Syscalls) (group : ℕ) : Setup CpuSet CGroup := do
  let s ← get
  match s.runner.cgroups.lookup group with
  | some cgroup => return cgroup
  | none =>
    let cgroup ← s.runner.rootCgroup.createChild sys (groupName group) true
    modify fun s =>
      { s with runner := { s.runner with cgroups := s.runner.cgroups.insert group cgroup } }
    return cgroup

/-- `cpuSet` is the conversion of a core number by the topology library. -/
def Runner.addProcess (cpuSet : U32 → CpuSet) (sys : Syscalls) (proc : ChildProcess) :
    Setup CpuSet Unit := do
  let cgroup ← Runner.group sys proc.id.1
  let cmd := (Command.new proc.cmd).addArgs proc.args
  let cmd ← cmd.cgroup sys cgroup
  let cmd ← cmd.cpuCore sys (cpuSet proc.cpuCore)
  let cmd := { cmd with killOnDrop := true }
  let s ← get
  let cmd :=
    match proc.ipcArg with
    | some ipcArg => cmd.addArgs [ipcArg, s.runner.ipcPath]
    | none => cmd
  modify fun s => { s with runner := { s.runner with cmds := s.runner.cmds.insert proc.id cmd } }

/-- The loop of `main` over the configured processes, in the order it meets them. -/
def addAll (cpuSet : U32 → CpuSet) (procs : List (ChildProcess × Syscalls)) : Setup CpuSet Unit :=
  forM procs fun (proc, sys) => Runner.addProcess cpuSet sys proc

/-- A runner in the group `root`, before any process is added. -/
def System.new (root : Path) (ipcPath : String) (affinity : CpuSet) : System CpuSet where
  runner := ⟨⟨root, false⟩, ∅, ∅, ipcPath⟩
  created := []
  affinity := affinity

structure Child (CpuSet : Type) where
  id : Id
  command : Command
  affinity : CpuSet
  cgroup : Path

/-- The group a process is in after the hooks. -/
def Hook.run : Hook → Path → Path
  | .mvProc cgroup, _ => cgroup.path

/-- A child starts as a copy of its parent, and its hooks run in it. -/
def Command.spawn (s : System CpuSet) (id : Id) (cmd : Command) : Child CpuSet where
  id := id
  command := cmd
  affinity := s.affinity
  cgroup := cmd.preExec.foldl (fun path hook => hook.run path) s.runner.rootCgroup.path

/-- The spawning loop of `run` over the commands in the order `order` of the map; it ends
at the first command that cannot be spawned. -/
def spawnAll (s : System CpuSet) (spawned : Id → Bool)
    (order : List (Sigma fun _ : Id => Command)) : Emit (Child CpuSet) Id Unit :=
  forM order fun ⟨id, cmd⟩ => if spawned id then emit (cmd.spawn s id) else stop id

/-- The path of the group of a number. -/
def Runner.groupPath (runner : Runner) (group : ℕ) : Path :=
  runner.rootCgroup.path ++ [groupName group]

/-- The command that is stored for a process. -/
def Runner.command (runner : Runner) (proc : ChildProcess) : Command where
  program := proc.cmd
  args := proc.args ++ (proc.ipcArg.map fun ipcArg => [ipcArg, runner.ipcPath]).getD []
  preExec := [.mvProc ⟨runner.groupPath proc.id.1, false⟩]
  killOnDrop := true

/-- Every group of the runner has the directory of its number. -/
def Runner.GroupsNamed (runner : Runner) : Prop :=
  ∀ group cgroup, runner.cgroups.lookup group = some cgroup →
    cgroup.path = runner.groupPath group

theorem new_groupsNamed (root : Path) (ipcPath : String) (affinity : CpuSet) :
    (System.new root ipcPath affinity).runner.GroupsNamed := by
  intro group cgroup hgroup
  simp [System.new] at hgroup

/-- Only the tables differ. -/
structure Runner.SamePaths (runner runner' : Runner) : Prop where
  rootCgroup : runner'.rootCgroup = runner.rootCgroup
  ipcPath : runner'.ipcPath = runner.ipcPath

theorem Runner.SamePaths.command {runner runner' : Runner} (h : runner.SamePaths runner')
    (proc : ChildProcess) : runner'.command proc = runner.command proc := by
  simp only [Runner.command, Runner.groupPath, h.rootCgroup, h.ipcPath]

theorem Runner.SamePaths.trans {r₁ r₂ r₃ : Runner} (h : r₁.SamePaths r₂) (h' : r₂.SamePaths r₃) :
    r₁.SamePaths r₃ :=
  ⟨h'.rootCgroup.trans h.rootCgroup, h'.ipcPath.trans h.ipcPath⟩

theorem setup_bind_eq_ok {α β : Type} {x : Setup CpuSet α} {f : α → Setup CpuSet β}
    {s t : System CpuSet} {b : β} :
    (x >>= f) s = .ok b t ↔ ∃ a u, x s = .ok a u ∧ f a u = .ok b t := by
  simp only [bind, EStateM.bind]
  cases x s with
  | ok a u => simp
  | error e u => simp

theorem setup_pure_eq_ok {α : Type} {a b : α} {s t : System CpuSet} :
    (pure a : Setup CpuSet α) s = .ok b t ↔ a = b ∧ s = t := by
  change EStateM.Result.ok a s = .ok b t ↔ _
  rw [EStateM.Result.ok.injEq]

theorem setup_get_eq_ok {s t u : System CpuSet} :
    (get : Setup CpuSet (System CpuSet)) s = .ok u t ↔ s = u ∧ s = t := by
  change EStateM.Result.ok s s = .ok u t ↔ _
  rw [EStateM.Result.ok.injEq]

theorem setup_modify_eq_ok {f : System CpuSet → System CpuSet} {s t : System CpuSet} {u : Unit} :
    (modify f : Setup CpuSet Unit) s = .ok u t ↔ f s = t := by
  change EStateM.Result.ok () (f s) = .ok u t ↔ _
  simp

theorem check_eq_ok {ok : Bool} {failure : Failure} {s t : System CpuSet} {u : Unit} :
    check ok failure s = .ok u t ↔ ok = true ∧ t = s := by
  cases ok with
  | false =>
    change EStateM.Result.error failure s = .ok u t ↔ _
    simp
  | true =>
    change EStateM.Result.ok () s = .ok u t ↔ _
    simp [eq_comm]

section Spec

variable {sys : Syscalls} {s t : System CpuSet}

theorem createChild_spec {cgroup child : CGroup} {name : String} {drop : Bool}
    (h : cgroup.createChild sys name drop s = .ok child t) :
    child = ⟨cgroup.path ++ [name], drop⟩ ∧
      t = { s with created := s.created ++ [cgroup.path ++ [name]] } := by
  simp only [CGroup.createChild, setup_bind_eq_ok, check_eq_ok, setup_modify_eq_ok,
    setup_pure_eq_ok] at h
  obtain ⟨-, -, ⟨-, rfl⟩, -, -, ⟨-, rfl⟩, -, -, rfl, rfl, rfl⟩ := h
  exact ⟨rfl, rfl⟩

/-- The group of a number is in the table, or it is created and entered there. -/
theorem group_cases {group : ℕ} {cgroup : CGroup} (h : Runner.group sys group s = .ok cgroup t) :
    (s.runner.cgroups.lookup group = some cgroup ∧ t = s) ∨
      (group ∉ s.runner.cgroups ∧ cgroup = ⟨s.runner.groupPath group, true⟩ ∧
        t = { s with
          created := s.created ++ [s.runner.groupPath group]
          runner := { s.runner with cgroups := s.runner.cgroups.insert group cgroup } }) := by
  simp only [Runner.group, setup_bind_eq_ok, setup_get_eq_ok] at h
  obtain ⟨_, _, ⟨rfl, rfl⟩, h⟩ := h
  cases hlookup : s.runner.cgroups.lookup group with
  | some known =>
    simp only [hlookup, setup_pure_eq_ok] at h
    obtain ⟨rfl, rfl⟩ := h
    exact .inl ⟨rfl, rfl⟩
  | none =>
    simp only [hlookup, setup_bind_eq_ok, setup_modify_eq_ok, setup_pure_eq_ok] at h
    obtain ⟨child, _, hchild, -, -, rfl, rfl, rfl⟩ := h
    obtain ⟨rfl, rfl⟩ := createChild_spec hchild
    exact .inr ⟨AList.lookup_eq_none.mp hlookup, rfl, rfl⟩

/-- The group is the one of the number asked for; nothing changes but the table of groups
and the directories. -/
theorem group_spec {group : ℕ} {cgroup : CGroup} (hnamed : s.runner.GroupsNamed)
    (h : Runner.group sys group s = .ok cgroup t) :
    cgroup.path = s.runner.groupPath group ∧ t.runner.cmds = s.runner.cmds ∧
      s.runner.SamePaths t.runner ∧ t.runner.GroupsNamed := by
  rcases group_cases h with ⟨hlookup, rfl⟩ | ⟨-, rfl, rfl⟩
  · exact ⟨hnamed group _ hlookup, rfl, ⟨rfl, rfl⟩, hnamed⟩
  · refine ⟨rfl, rfl, ⟨rfl, rfl⟩, ?_⟩
    intro group' cgroup' hlookup'
    by_cases hsame : group' = group
    · subst hsame
      rw [AList.lookup_insert] at hlookup'
      obtain rfl := Option.some.inj hlookup'
      rfl
    · rw [AList.lookup_insert_ne hsame] at hlookup'
      exact hnamed group' cgroup' hlookup'

theorem cgroup_spec {cmd cmd' : Command} {cgroup : CGroup}
    (h : cmd.cgroup sys cgroup s = .ok cmd' t) :
    cmd' = { cmd with preExec := cmd.preExec ++ [.mvProc ⟨cgroup.path, false⟩] } ∧ t = s := by
  simp only [Command.cgroup, CGroup.import, setup_bind_eq_ok, check_eq_ok,
    setup_pure_eq_ok] at h
  obtain ⟨_, _, ⟨-, _, ⟨-, rfl⟩, rfl, rfl⟩, rfl, rfl⟩ := h
  exact ⟨rfl, rfl⟩

theorem cpuCore_spec {cmd cmd' : Command} {cpuset : CpuSet}
    (h : cmd.cpuCore sys cpuset s = .ok cmd' t) :
    cmd' = cmd ∧ t = { s with affinity := cpuset } := by
  simp only [Command.cpuCore, setup_bind_eq_ok, check_eq_ok, setup_modify_eq_ok,
    setup_pure_eq_ok] at h
  obtain ⟨-, -, ⟨-, rfl⟩, -, -, ⟨-, rfl⟩, -, -, rfl, rfl, rfl⟩ := h
  exact ⟨rfl, rfl⟩

/-- Adding a process looks up its group, and then only stores its command and binds the
runner to the process's core. -/
theorem addProcess_cases {cpuSet : U32 → CpuSet} {proc : ChildProcess}
    (hnamed : s.runner.GroupsNamed) (h : Runner.addProcess cpuSet sys proc s = .ok () t) :
    ∃ cgroup u, Runner.group sys proc.id.1 s = .ok cgroup u ∧
      t = { u with
        affinity := cpuSet proc.cpuCore
        runner := { u.runner with
          cmds := u.runner.cmds.insert proc.id (s.runner.command proc) } } := by
  simp only [Runner.addProcess, setup_bind_eq_ok, setup_get_eq_ok, setup_modify_eq_ok] at h
  obtain ⟨cgroup, u, hgroup, cmd, v, hcgroup, cmd', w, hcore, _, _, ⟨rfl, rfl⟩, rfl⟩ := h
  obtain ⟨hpath, -, hsame, -⟩ := group_spec hnamed hgroup
  obtain ⟨rfl, rfl⟩ := cgroup_spec hcgroup
  obtain ⟨rfl, rfl⟩ := cpuCore_spec hcore
  refine ⟨cgroup, v, hgroup, ?_⟩
  simp only [hpath, hsame.ipcPath]
  congr 3
  cases hipc : proc.ipcArg <;>
    simp [Runner.command, Command.new, Command.addArgs, hipc]

theorem addProcess_spec {cpuSet : U32 → CpuSet} {proc : ChildProcess}
    (hnamed : s.runner.GroupsNamed) (h : Runner.addProcess cpuSet sys proc s = .ok () t) :
    t.affinity = cpuSet proc.cpuCore ∧
      t.runner.cmds = s.runner.cmds.insert proc.id (s.runner.command proc) ∧
        s.runner.SamePaths t.runner ∧ t.runner.GroupsNamed := by
  obtain ⟨cgroup, u, hgroup, rfl⟩ := addProcess_cases hnamed h
  obtain ⟨-, hcmds, hsame, hnamed'⟩ := group_spec hnamed hgroup
  refine ⟨rfl, ?_, ⟨hsame.rootCgroup, hsame.ipcPath⟩, hnamed'⟩
  rw [hcmds]

end Spec

/-- After all processes are added, the runner is bound to the core of the last one. -/
theorem addAll_spec {cpuSet : U32 → CpuSet} {procs : List (ChildProcess × Syscalls)}
    {s t : System CpuSet} (hnamed : s.runner.GroupsNamed) (h : addAll cpuSet procs s = .ok () t) :
    (∀ last ∈ (procs.map Prod.fst).getLast?, t.affinity = cpuSet last.cpuCore) ∧
      (∀ id cmd, t.runner.cmds.lookup id = some cmd →
        (∃ proc ∈ procs.map Prod.fst, proc.id = id ∧ cmd = s.runner.command proc) ∨
          s.runner.cmds.lookup id = some cmd) := by
  induction procs generalizing s with
  | nil =>
    obtain ⟨-, rfl⟩ := setup_pure_eq_ok.mp h
    exact ⟨by simp, fun _ _ hlookup => .inr hlookup⟩
  | cons proc rest ih =>
    obtain ⟨_, u, hproc, hrest⟩ := setup_bind_eq_ok.mp h
    obtain ⟨haffinity, hcmds, hsame, hnamed'⟩ := addProcess_spec hnamed hproc
    obtain ⟨hlast, hcommands⟩ := ih hnamed' hrest
    refine ⟨?_, ?_⟩
    · intro last hmem
      cases rest with
      | nil =>
        obtain rfl := Option.some.inj hmem
        obtain ⟨-, rfl⟩ := setup_pure_eq_ok.mp hrest
        exact haffinity
      | cons next rest =>
        simp only [List.map_cons, List.getLast?_cons_cons] at hmem hlast
        exact hlast last hmem
    · intro id cmd hlookup
      rcases hcommands id cmd hlookup with ⟨proc', hmem, hid, hcmd⟩ | hold
      · refine .inl ⟨proc', List.mem_cons_of_mem _ hmem, hid, ?_⟩
        rw [hcmd, hsame.command]
      · rw [hcmds] at hold
        by_cases hid : id = proc.1.id
        · subst hid
          rw [AList.lookup_insert] at hold
          exact .inl ⟨proc.1, by simp, rfl, (Option.some.inj hold).symm⟩
        · rw [AList.lookup_insert_ne hid] at hold
          exact .inr hold

/-- The children are those of the commands before the first that cannot be spawned. -/
theorem spawnAll_log (s : System CpuSet) (spawned : Id → Bool)
    (order : List (Sigma fun _ : Id => Command)) :
    (spawnAll s spawned order).log =
      (order.takeWhile fun entry => spawned entry.1).map fun entry => entry.2.spawn s entry.1 := by
  induction order with
  | nil => rfl
  | cons entry rest ih =>
    unfold spawnAll at ih ⊢
    rw [List.forM_cons]
    cases hspawned : spawned entry.1 with
    | false => simp [hspawned]
    | true => simp [hspawned, ih]

end InterferenceMitigation.ProcessSetup
