import InterferenceMitigation.GroupLifetime

/-!
The order in which the configured processes are added. The configuration is a hash map, so
that `main` meets its processes in any order. When the answers of the system depend on what
is asked and not on when, the setup succeeds in every order or in none, and all orders lead
to the same commands, groups and directories. What is left to the order is the core that
every child is bound to, which is that of the process met last.
-/

namespace InterferenceMitigation.ConfigOrder

open MachineInt ProcessSetup ProcessLaunch GroupLifetime

/-- The answers of the system calls of `add_process`: to `statfs` and `mkdir` by the number of
the group, and to the binding by the core. -/
structure World where
  rootExists : Bool
  createDir : ℕ → Bool
  importExists : ℕ → Bool
  myself : Bool
  setCpubind : U32 → Bool

def World.answers (w : World) (proc : ChildProcess) : Syscalls where
  rootExists := w.rootExists
  createDir := w.createDir proc.id.1
  importExists := w.importExists proc.id.1
  myself := w.myself
  setCpubind := w.setCpubind proc.cpuCore

/-- The loop of `main` over the processes, in the order in which the map yields them. -/
def setup {CpuSet : Type} (cpuSet : U32 → CpuSet) (w : World) (procs : List ChildProcess) :
    Setup CpuSet Unit :=
  addAll cpuSet (procs.map fun proc => (proc, w.answers proc))

variable {CpuSet : Type} {cpuSet : U32 → CpuSet} {sys : Syscalls} {s t : System CpuSet} {w : World}

theorem group_ok_iff {group : ℕ} : (∃ cgroup t, Runner.group sys group s = .ok cgroup t) ↔
    group ∈ s.runner.cgroups ∨ sys.rootExists = true ∧ sys.createDir = true := by
  simp only [Runner.group, CGroup.createChild, setup_bind_eq_ok, setup_get_eq_ok]
  cases hlookup : s.runner.cgroups.lookup group with
  | some cgroup =>
    have hmem : group ∈ s.runner.cgroups := AList.lookup_isSome.mp (by rw [hlookup]; rfl)
    exact ⟨fun _ => Or.inl hmem, fun _ => ⟨cgroup, s, s, s, ⟨rfl, rfl⟩, by rw [hlookup]; rfl⟩⟩
  | none =>
    have hmem : group ∉ s.runner.cgroups := AList.lookup_eq_none.mp hlookup
    constructor
    · rintro ⟨cgroup, t, _, _, ⟨rfl, rfl⟩, h⟩
      simp only [hlookup, setup_bind_eq_ok, check_eq_ok] at h
      obtain ⟨-, -, ⟨-, -, ⟨hroot, -⟩, -, -, ⟨hdir, -⟩, -⟩, -⟩ := h
      exact Or.inr ⟨hroot, hdir⟩
    · rintro (hin | ⟨hroot, hdir⟩)
      · exact absurd hin hmem
      · let cgroup : CGroup := ⟨s.runner.groupPath group, true⟩
        refine ⟨cgroup, { s with
          created := s.created ++ [s.runner.groupPath group]
          runner := { s.runner with cgroups := s.runner.cgroups.insert group cgroup } }, s, s,
          ⟨rfl, rfl⟩, ?_⟩
        rw [hlookup, hroot, hdir]
        rfl

/-- Whether a process can be added depends on the table of groups only. -/
theorem addProcess_ok_iff {proc : ChildProcess} :
    (∃ t, Runner.addProcess cpuSet sys proc s = .ok () t) ↔
      (proc.id.1 ∈ s.runner.cgroups ∨ sys.rootExists = true ∧ sys.createDir = true) ∧
        sys.importExists = true ∧ sys.myself = true ∧ sys.setCpubind = true := by
  rw [← group_ok_iff]
  constructor
  · rintro ⟨t, h⟩
    simp only [Runner.addProcess, setup_bind_eq_ok] at h
    obtain ⟨cgroup, u, hgroup, cmd, v, hcgroup, cmd', x, hcore, -⟩ := h
    refine ⟨⟨cgroup, u, hgroup⟩, ?_⟩
    simp only [Command.cgroup, CGroup.import, setup_bind_eq_ok, check_eq_ok] at hcgroup
    simp only [Command.cpuCore, setup_bind_eq_ok, check_eq_ok] at hcore
    obtain ⟨-, -, ⟨-, -, ⟨himport, -⟩, -⟩, -⟩ := hcgroup
    obtain ⟨-, -, ⟨hmyself, -⟩, -, -, ⟨hbind, -⟩, -⟩ := hcore
    exact ⟨himport, hmyself, hbind⟩
  · rintro ⟨⟨cgroup, u, hgroup⟩, himport, hmyself, hbind⟩
    simp [Runner.addProcess, Command.cgroup, CGroup.import, Command.cpuCore, setup_bind_eq_ok,
      check_eq_ok, setup_modify_eq_ok, setup_get_eq_ok, hgroup, himport, hmyself, hbind]

/-- The system lets a process be added, whether its group is there already or not. -/
def World.Accepts (w : World) (s : System CpuSet) (proc : ChildProcess) : Prop :=
  (proc.id.1 ∈ s.runner.cgroups ∨ w.rootExists = true ∧ w.createDir proc.id.1 = true) ∧
    w.importExists proc.id.1 = true ∧ w.myself = true ∧ w.setCpubind proc.cpuCore = true

/-- Adding a process adds its group and no other. -/
theorem mem_cgroups_of_addProcess {proc : ChildProcess} (hnamed : s.runner.GroupsNamed)
    (h : Runner.addProcess cpuSet sys proc s = .ok () t) (group : ℕ) :
    group ∈ t.runner.cgroups ↔ group ∈ s.runner.cgroups ∨ group = proc.id.1 := by
  obtain ⟨cgroup, u, hgroup, rfl⟩ := addProcess_cases hnamed h
  rcases group_cases hgroup with ⟨hlookup, rfl⟩ | ⟨-, -, rfl⟩
  · have hmem : proc.id.1 ∈ u.runner.cgroups := AList.lookup_isSome.mp (by rw [hlookup]; rfl)
    refine ⟨Or.inl, ?_⟩
    rintro (hold | rfl)
    · exact hold
    · exact hmem
  · rw [AList.mem_insert, or_comm]

/-- Processes that are accepted stay so while others are added. -/
theorem accepts_of_addProcess {proc other : ChildProcess} (hnamed : s.runner.GroupsNamed)
    (h : Runner.addProcess cpuSet (w.answers proc) proc s = .ok () t) :
    w.Accepts t other ↔ w.Accepts s other := by
  obtain ⟨hready, -⟩ := addProcess_ok_iff.mp ⟨t, h⟩
  unfold World.Accepts
  rw [mem_cgroups_of_addProcess hnamed h]
  apply and_congr_left'
  constructor
  · rintro ((hold | hsame) | hcreate)
    · exact Or.inl hold
    · rw [hsame]
      exact hready
    · exact Or.inr hcreate
  · rintro (hold | hcreate)
    · exact Or.inl (Or.inl hold)
    · exact Or.inr hcreate

/-- The setup succeeds when every process is accepted beforehand. -/
theorem setup_ok_iff {procs : List ChildProcess} (hnamed : s.runner.GroupsNamed) :
    (∃ t, setup cpuSet w procs s = .ok () t) ↔ ∀ proc ∈ procs, w.Accepts s proc := by
  induction procs generalizing s with
  | nil => exact ⟨by simp, fun _ => ⟨s, rfl⟩⟩
  | cons proc rest ih =>
    rw [List.forall_mem_cons]
    constructor
    · rintro ⟨t, h⟩
      obtain ⟨_, u, hproc, hrest⟩ := setup_bind_eq_ok.mp h
      obtain ⟨-, -, -, hnamed'⟩ := addProcess_spec hnamed hproc
      refine ⟨addProcess_ok_iff.mp ⟨u, hproc⟩, ?_⟩
      intro other hother
      exact (accepts_of_addProcess hnamed hproc).mp ((ih hnamed').mp ⟨t, hrest⟩ other hother)
    · rintro ⟨hproc, hrest⟩
      obtain ⟨u, hadd⟩ : ∃ u, Runner.addProcess cpuSet (w.answers proc) proc s = .ok () u :=
        addProcess_ok_iff.mpr hproc
      obtain ⟨-, -, -, hnamed'⟩ := addProcess_spec hnamed hadd
      obtain ⟨t, ht⟩ := (ih hnamed').mpr fun other hother =>
        (accepts_of_addProcess hnamed hadd).mpr (hrest other hother)
      exact ⟨t, setup_bind_eq_ok.mpr ⟨(), u, hadd, ht⟩⟩

/-- Two systems that differ in nothing but the core they are bound to and the order of what
they hold. -/
structure Alike (s t : System CpuSet) : Prop where
  rootCgroup : s.runner.rootCgroup = t.runner.rootCgroup
  ipcPath : s.runner.ipcPath = t.runner.ipcPath
  cmds : s.runner.cmds.entries.Perm t.runner.cmds.entries
  cgroups : s.runner.cgroups.entries.Perm t.runner.cgroups.entries
  created : s.created.Perm t.created

/-- A child but for its affinity. -/
def Child.unbound (child : Child CpuSet) : Id × Command × Path :=
  (child.id, child.command, child.cgroup)

/-- The children of alike systems are the same but for their cores. -/
theorem Alike.children (h : Alike s t) (spawned : Id → Bool) (order : List Entry) :
    (spawnAll s spawned order).log.map Child.unbound =
      (spawnAll t spawned order).log.map Child.unbound := by
  rw [spawnAll_log, spawnAll_log, List.map_map, List.map_map]
  apply List.map_congr_left
  intro entry _
  simp only [Function.comp_apply, Child.unbound, Command.spawn, h.rootCgroup]

/-- The tables of groups of two setups hold the same when the same groups are in them. -/
theorem cgroups_perm {root : Path} (hs : Owned root s) (ht : Owned root t)
    (h : ∀ group, group ∈ s.runner.cgroups ↔ group ∈ t.runner.cgroups) :
    s.runner.cgroups.entries.Perm t.runner.cgroups.entries := by
  have hlookup : ∀ {u : System CpuSet}, Owned root u → ∀ group cgroup,
      u.runner.cgroups.lookup group = some cgroup ↔
        group ∈ u.runner.cgroups ∧ cgroup = ⟨root ++ [Runner.groupName group], true⟩ := by
    intro u hu group cgroup
    constructor
    · intro hin
      exact ⟨AList.lookup_isSome.mp (by rw [hin]; rfl), hu.groups group cgroup hin⟩
    · rintro ⟨hmem, rfl⟩
      obtain ⟨known, hin⟩ := Option.isSome_iff_exists.mp (AList.lookup_isSome.mpr hmem)
      rw [hin, hu.groups group known hin]
  apply List.lookup_ext s.runner.cgroups.nodupKeys t.runner.cgroups.nodupKeys
  intro group cgroup
  have hboth : s.runner.cgroups.lookup group = some cgroup ↔
      t.runner.cgroups.lookup group = some cgroup := by
    rw [hlookup hs, hlookup ht, h group]
  exact hboth

theorem alike_of_perm {root : Path} {ipcPath : String} {affinity : CpuSet}
    {procs procs' : List ChildProcess} (hperm : procs.Perm procs')
    (hids : (procs.map ChildProcess.id).Nodup)
    (hs : setup cpuSet w procs (.new root ipcPath affinity) = .ok () s)
    (ht : setup cpuSet w procs' (.new root ipcPath affinity) = .ok () t) : Alike s t := by
  have hnamed := new_groupsNamed root ipcPath affinity
  have hmap := hperm.map fun proc => (proc, w.answers proc)
  obtain ⟨-, hpaths, hmem⟩ := addAll_groups hnamed rfl hs
  obtain ⟨-, hpaths', hmem'⟩ := addAll_groups hnamed rfl ht
  have hids' : (procs'.map ChildProcess.id).Nodup := (hperm.map _).nodup_iff.mp hids
  refine ⟨?_, ?_, ?_, ?_, ?_⟩
  · rw [hpaths.rootCgroup, hpaths'.rootCgroup]
  · rw [hpaths.ipcPath, hpaths'.ipcPath]
  · have hentries := addAll_entries hnamed hs (by rw [List.map_map]; exact hids)
      (by simp [System.new])
    have hentries' := addAll_entries hnamed ht (by rw [List.map_map]; exact hids')
      (by simp [System.new])
    exact hentries.trans (((hmap.map _).append_right _).trans hentries'.symm)
  · apply cgroups_perm ((Owned.new root ipcPath affinity).addAll (Or.inl hs))
      ((Owned.new root ipcPath affinity).addAll (Or.inl ht))
    intro group
    rw [hmem group, hmem' group]
    simp only [hmap.mem_iff]
  · have hgroups : (groupsOf (procs.map fun proc => (proc, w.answers proc))).Perm
        (groupsOf (procs'.map fun proc => (proc, w.answers proc))) := (hmap.map _).dedup
    exact (created_perm hs).trans ((hgroups.map _).trans (created_perm ht).symm)

/-- The iteration order of the configuration does not matter but for the cores: the setup
succeeds in every order or in none, the systems it ends in are alike, and whatever order
their commands are spawned in, both start the same children in the same groups. -/
theorem order_irrelevant (cpuSet : U32 → CpuSet) (w : World) (root : Path) (ipcPath : String)
    (affinity : CpuSet) (procs procs' : List ChildProcess) (hperm : procs.Perm procs')
    (hids : (procs.map ChildProcess.id).Nodup) :
    ((∃ s, setup cpuSet w procs (.new root ipcPath affinity) = .ok () s) ↔
      ∃ t, setup cpuSet w procs' (.new root ipcPath affinity) = .ok () t) ∧
    ∀ s t, setup cpuSet w procs (.new root ipcPath affinity) = .ok () s →
      setup cpuSet w procs' (.new root ipcPath affinity) = .ok () t →
      Alike s t ∧ ∀ spawned order,
        (spawnAll s spawned order).log.map Child.unbound =
          (spawnAll t spawned order).log.map Child.unbound ∧
        ∀ child ∈ (spawnAll s spawned order).log, ∀ last ∈ procs.getLast?,
          child.affinity = cpuSet last.cpuCore := by
  have hnamed := new_groupsNamed root ipcPath affinity
  refine ⟨?_, ?_⟩
  · rw [setup_ok_iff hnamed, setup_ok_iff hnamed]
    simp only [hperm.mem_iff]
  · intro s t hs ht
    have halike := alike_of_perm hperm hids hs ht
    refine ⟨halike, ?_⟩
    intro spawned order
    refine ⟨halike.children spawned order, ?_⟩
    intro child hchild last hlast
    rw [spawnAll_log] at hchild
    obtain ⟨entry, -, rfl⟩ := List.mem_map.mp hchild
    have haffinity := (addAll_spec hnamed hs).1 last
    rw [List.map_map] at haffinity
    exact haffinity (by simpa [Function.comp_def] using hlast)

/-- The configured victim and a stressor in the group of the victim. -/
def sharedGroup : List ChildProcess :=
  [⟨(0, 0), "wasm-runner", ["--fuel", "10000"], 6, some "--ipc"⟩,
    ⟨(0, 1), "stress-ng", ["--class", "cpu-cache"], 7, none⟩]

/-- A system in which group 0 can be created, and no other. -/
def oneGroup : World :=
  ⟨true, fun group => group == 0, fun group => group == 0, true, fun _ => true⟩

theorem order_irrelevant_shared : ∃ s t : System U32,
    setup id oneGroup sharedGroup (.new ["cgroup"] "ring" 0) = .ok () s ∧
      setup id oneGroup sharedGroup.reverse (.new ["cgroup"] "ring" 0) = .ok () t ∧
        Alike s t ∧ s.affinity ≠ t.affinity := by
  have hirrelevant := order_irrelevant id oneGroup ["cgroup"] "ring" 0 sharedGroup
    sharedGroup.reverse (List.reverse_perm _).symm (by decide)
  exact ⟨_, _, rfl, rfl, (hirrelevant.2 _ _ rfl rfl).1, by decide⟩

end InterferenceMitigation.ConfigOrder
