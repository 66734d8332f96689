import InterferenceMitigation.ProcessSetup

/-!
On which cores the children of the Linux runner start. Each added process rebinds the
runner itself, and all children are spawned afterwards, so every one of them starts on
the core of the process that was added last.
-/

namespace InterferenceMitigation.CorePinning

open MachineInt ProcessSetup

variable {CpuSet : Type}

/-- The child is that of an added process and starts on the core given for it. -/
def Pinned (cpuSet : U32 → CpuSet) (procs : List ChildProcess) (child : Child CpuSet) : Prop :=
  ∃ proc ∈ procs, proc.id = child.id ∧ child.affinity = cpuSet proc.cpuCore

/-- The processes whose commands are spawned, when the map yields its entries in `order`. -/
def launched (spawned : Id → Bool) (order : List (Sigma fun _ : Id => Command)) : List Id :=
  (order.takeWhile fun entry => spawned entry.1).map Sigma.fst

theorem mem_launched {s : System CpuSet} {spawned : Id → Bool}
    {order : List (Sigma fun _ : Id => Command)} {id : Id} :
    id ∈ launched spawned order ↔ ∃ child ∈ (spawnAll s spawned order).log, child.id = id := by
  simp only [launched, spawnAll_log, List.mem_map, exists_exists_and_eq_and]
  rfl

theorem affinity_of_mem {s : System CpuSet} {spawned : Id → Bool}
    {order : List (Sigma fun _ : Id => Command)} {child : Child CpuSet}
    (h : child ∈ (spawnAll s spawned order).log) : child.affinity = s.affinity := by
  rw [spawnAll_log] at h
  obtain ⟨entry, -, rfl⟩ := List.mem_map.mp h
  rfl

/-- Every child is that of an added process. -/
theorem exists_proc_of_mem {cpuSet : U32 → CpuSet} {root : Path} {ipcPath : String}
    {affinity : CpuSet} {procs : List (ChildProcess × Syscalls)} {s : System CpuSet}
    (hadd : addAll cpuSet procs (.new root ipcPath affinity) = .ok () s)
    {spawned : Id → Bool} {order : List (Sigma fun _ : Id => Command)}
    (horder : order.Perm s.runner.cmds.entries) {child : Child CpuSet}
    (h : child ∈ (spawnAll s spawned order).log) :
    ∃ proc ∈ procs.map Prod.fst, proc.id = child.id := by
  rw [spawnAll_log] at h
  obtain ⟨entry, hentry, rfl⟩ := List.mem_map.mp h
  have hmem : entry ∈ s.runner.cmds.entries :=
    horder.subset (List.takeWhile_sublist _ |>.subset hentry)
  have hlookup : s.runner.cmds.lookup entry.1 = some entry.2 := AList.mem_lookup_iff.mpr hmem
  have hnamed := new_groupsNamed root ipcPath affinity
  rcases (addAll_spec hnamed hadd).2 entry.1 entry.2 hlookup with ⟨proc, hproc, hid, -⟩ | hnone
  · exact ⟨proc, hproc, hid⟩
  · simp [System.new] at hnone

/-- All spawned children start on the cores given for them exactly when these are the
core given for the process added last. -/
theorem pinned_iff (cpuSet : U32 → CpuSet) (root : Path) (ipcPath : String) (affinity : CpuSet)
    (procs : List (ChildProcess × Syscalls)) (s : System CpuSet)
    (hids : (procs.map fun proc => proc.1.id).Nodup)
    (hadd : addAll cpuSet procs (.new root ipcPath affinity) = .ok () s)
    (spawned : Id → Bool) (order : List (Sigma fun _ : Id => Command))
    (horder : order.Perm s.runner.cmds.entries) :
    (∀ child ∈ (spawnAll s spawned order).log, Pinned cpuSet (procs.map Prod.fst) child) ↔
      ∀ proc ∈ procs.map Prod.fst, proc.id ∈ launched spawned order →
        ∀ last ∈ (procs.map Prod.fst).getLast?, cpuSet proc.cpuCore = cpuSet last.cpuCore := by
  have hnamed := new_groupsNamed root ipcPath affinity
  have hlast := (addAll_spec hnamed hadd).1
  have hinj : ∀ proc ∈ procs.map Prod.fst, ∀ proc' ∈ procs.map Prod.fst,
      proc.id = proc'.id → proc = proc' := by
    have hnodup : ((procs.map Prod.fst).map ChildProcess.id).Nodup := by
      rw [List.map_map]
      exact hids
    exact fun proc h proc' h' => List.inj_on_of_nodup_map hnodup h h'
  constructor
  · intro hpinned proc hproc hlaunched last hmem
    obtain ⟨child, hchild, hid⟩ := (mem_launched (s := s)).mp hlaunched
    obtain ⟨proc', hproc', hid', haffinity⟩ := hpinned child hchild
    obtain rfl := hinj proc hproc proc' hproc' (hid.symm.trans hid'.symm)
    rw [← haffinity, affinity_of_mem hchild, hlast last hmem]
  · intro hcores child hchild
    obtain ⟨proc, hproc, hid⟩ := exists_proc_of_mem hadd horder hchild
    have hlaunched : proc.id ∈ launched spawned order :=
      (mem_launched (s := s)).mpr ⟨child, hchild, hid.symm⟩
    obtain ⟨last, hmem⟩ : ∃ last, (procs.map Prod.fst).getLast? = some last :=
      ⟨_, List.getLast?_eq_some_getLast (List.ne_nil_of_mem hproc)⟩
    refine ⟨proc, hproc, hid, ?_⟩
    rw [affinity_of_mem hchild, hlast last hmem, hcores proc hproc hlaunched last hmem]

/-- The victim on core 6 and the stressor on core 7. -/
def wasmProcess : ChildProcess :=
  ⟨(0, 0), "wasm-runner", ["--fuel", "10000"], 6, some "--ipc"⟩

def stressProcess (cpuCore : U32) : ChildProcess :=
  ⟨(1, 0), "stress-ng", ["--class", "cpu-cache"], cpuCore, none⟩

def experiment (cpuCore : U32) : List (ChildProcess × Syscalls) :=
  [(wasmProcess, .allSucceed), (stressProcess cpuCore, .allSucceed)]

/-- The system after the processes of the experiment are added, with cores for their sets. -/
def added (cpuCore : U32) : System U32 where
  runner := {
    rootCgroup := ⟨["sys", "fs", "cgroup"], false⟩
    cmds := (AList.insert (0, 0)
        (⟨"wasm-runner", ["--fuel", "10000", "--ipc", "ring"],
          [.mvProc ⟨["sys", "fs", "cgroup", "runner0"], false⟩], true⟩ : Command) ∅).insert (1, 0)
        ⟨"stress-ng", ["--class", "cpu-cache"],
          [.mvProc ⟨["sys", "fs", "cgroup", "runner1"], false⟩], true⟩
    cgroups := (AList.insert 0 (⟨["sys", "fs", "cgroup", "runner0"], true⟩ : CGroup) ∅).insert 1
        ⟨["sys", "fs", "cgroup", "runner1"], true⟩
    ipcPath := "ring" }
  created := [["sys", "fs", "cgroup", "runner0"], ["sys", "fs", "cgroup", "runner1"]]
  affinity := cpuCore

/-- With one core for both processes. -/
theorem pinned_iff_shared :
    (∀ child ∈ (spawnAll (added 6) (fun _ => true) (added 6).runner.cmds.entries).log,
        Pinned id ((experiment 6).map Prod.fst) child) ↔
      ∀ proc ∈ (experiment 6).map Prod.fst,
        proc.id ∈ launched (fun _ => true) (added 6).runner.cmds.entries →
          ∀ last ∈ ((experiment 6).map Prod.fst).getLast?, id proc.cpuCore = id last.cpuCore :=
  pinned_iff id ["sys", "fs", "cgroup"] "ring" 0 (experiment 6) (added 6) (by decide) rfl
    (fun _ => true) (added 6).runner.cmds.entries (List.Perm.refl _)

/-- With a core for each, the victim starts on the core of the stressor. -/
theorem victim_not_pinned :
    ¬ ∀ (cpuSet : U32 → U32) (root : Path) (ipcPath : String) (affinity : U32)
      (procs : List (ChildProcess × Syscalls)) (s : System U32),
      (procs.map fun proc => proc.1.id).Nodup →
      addAll cpuSet procs (.new root ipcPath affinity) = .ok () s →
      ∀ (spawned : Id → Bool) (order : List (Sigma fun _ : Id => Command)),
        order.Perm s.runner.cmds.entries →
        ∀ child ∈ (spawnAll s spawned order).log, Pinned cpuSet (procs.map Prod.fst) child := by
  intro h
  have hpinned := h id ["sys", "fs", "cgroup"] "ring" 0 (experiment 7) (added 7) (by decide) rfl
    (fun _ => true) (added 7).runner.cmds.entries (List.Perm.refl _)
  obtain ⟨proc, hproc, hid, haffinity⟩ := hpinned _ (List.mem_of_getElem? (i := 1) rfl)
  have hvictim : proc = wasmProcess := by
    simp only [experiment, List.map_cons, List.map_nil, List.mem_cons, List.not_mem_nil,
      or_false] at hproc
    rcases hproc with rfl | rfl
    · rfl
    · exact absurd hid (by decide)
  rw [hvictim] at haffinity
  exact absurd haffinity (by decide)

end InterferenceMitigation.CorePinning
