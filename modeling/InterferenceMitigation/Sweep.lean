import InterferenceMitigation.Blocks
import InterferenceMitigation.GroupCommands
import InterferenceMitigation.RunWasm
import Mathlib.Data.List.Count

/-!
The sweep of the Linux Wasm runner: one run for every fuel amount, worst-case time per
fuel and repetition, in three nested loops that end at the first failing run. Each run
is a block of records, and its first record sets the state of the intruder's group, so
that nothing of the runs before is left once a run has begun.
-/

namespace InterferenceMitigation.Sweep

open MachineInt Emission Emit RunWasm FreezeControl Blocks GroupCommands

structure Args where
  fuel : List U32
  wctpf : List U64
  count : Option ℕ

/-- The values given for an option, or no value at all. -/
def orNone {α : Type*} (values : List α) : List (Option α) :=
  let values := values.map some
  if values.isEmpty then values ++ [none] else values

/-- The loops of `main`; `env i j k` is what the run of these indices meets. -/
def sweep (p : Profile) (args : Args) (env : ℕ → ℕ → ℕ → RunEnv) :
    Emit WasmRunnerIpc Stop Unit :=
  forM (orNone args.fuel).zipIdx fun (fuel, i) =>
    forM (orNone args.wctpf).zipIdx fun (wctpf, j) =>
      forM (List.range (args.count.getD 1)) fun k =>
        runWasm p fuel wctpf (.new (env i j k).epoch fuel wctpf i j k) (env i j k)

instance : Ipc WasmRunnerIpc := ⟨WasmRunnerIpc.irq⟩

abbrev Key := ℕ ×ₗ ℕ ×ₗ ℕ

def key (r : WasmRunnerIpc) : Key := toLex (r.i, toLex (r.j, r.k))

/-- The lexicographic position of a record. -/
def position (r : WasmRunnerIpc) : ℕ ×ₗ ℕ ×ₗ ℕ ×ₗ ℕ :=
  toLex (r.i, toLex (r.j, toLex (r.k, r.l)))

/-- The indices of all runs of a sweep. -/
def Args.grid (args : Args) : List Key :=
  lexProduct (List.range (orNone args.fuel).length)
    (lexProduct (List.range (orNone args.wctpf).length) (List.range (args.count.getD 1)))

/-- A run of the grid with its parameters. -/
structure Cell where
  fuel : Option U32
  wctpf : Option U64
  i : ℕ
  j : ℕ
  k : ℕ

def Cell.key (c : Cell) : Key := toLex (c.i, toLex (c.j, c.k))

def Args.cells (args : Args) : List Cell :=
  (orNone args.fuel).zipIdx.flatMap fun (fuel, i) =>
    (orNone args.wctpf).zipIdx.flatMap fun (wctpf, j) =>
      (List.range (args.count.getD 1)).map fun k => ⟨fuel, wctpf, i, j, k⟩

def Cell.run (p : Profile) (env : ℕ → ℕ → ℕ → RunEnv) (c : Cell) : Emit WasmRunnerIpc Stop Unit :=
  runWasm p c.fuel c.wctpf (.new (env c.i c.j c.k).epoch c.fuel c.wctpf c.i c.j c.k)
    (env c.i c.j c.k)

/-- The nested loops are one loop over the cells. -/
theorem sweep_eq (p : Profile) (args : Args) (env : ℕ → ℕ → ℕ → RunEnv) :
    sweep p args env = forM args.cells (Cell.run p env) := by
  rw [Args.cells, forM_flatMap]
  simp only [forM_flatMap, List.forM_map]
  rfl

theorem cells_map_key (args : Args) : args.cells.map Cell.key = args.grid := by
  have hfuel := List.zipIdx_map_snd 0 (orNone args.fuel)
  have hwctpf := List.zipIdx_map_snd 0 (orNone args.wctpf)
  rw [← List.range_eq_range'] at hfuel hwctpf
  rw [Args.grid, ← hfuel, ← hwctpf]
  simp only [Args.cells, lexProduct, List.map_flatMap, List.flatMap_map, List.map_map]
  rfl

theorem grid_pairwise (args : Args) : args.grid.Pairwise (· < ·) :=
  pairwise_lexProduct List.pairwise_lt_range
    (pairwise_lexProduct List.pairwise_lt_range List.pairwise_lt_range)

theorem grid_nodup (args : Args) : args.grid.Nodup :=
  (grid_pairwise args).imp fun h => ne_of_lt h

theorem mem_grid (args : Args) (i j k : ℕ) :
    toLex (i, toLex (j, k)) ∈ args.grid ↔ i < (orNone args.fuel).length ∧
      j < (orNone args.wctpf).length ∧ k < args.count.getD 1 := by
  simp only [Args.grid, mem_lexProduct, List.mem_range]

section Cell

variable {p : Profile} {env : ℕ → ℕ → ℕ → RunEnv} {c : Cell} {r : WasmRunnerIpc}

theorem Cell.key_eq (h : r ∈ (c.run p env).log) : Sweep.key r = c.key := by
  obtain ⟨rest, hlog, hlogs⟩ := exists_logs_of_mem h
  rw [Cell.run, hlog] at h
  rcases List.mem_cons.mp h with rfl | h
  · rfl
  · obtain ⟨_, _, _, _, rfl⟩ := hlogs.exists_record r h
    rfl

/-- A cell logs nothing or a block. -/
theorem Cell.isBlock (hne : (c.run p env).log ≠ []) :
    IsBlock Sweep.key (·.l) c.key (c.run p env).log :=
  ⟨hne, fun _ hr => Cell.key_eq hr, runWasm_map_l ..⟩

theorem Cell.log_ne_nil (h : (c.run p env).result = .ok ()) : (c.run p env).log ≠ [] := by
  rcases runWasm_cases p c.fuel c.wctpf _ (env c.i c.j c.k) with ⟨e, hrun⟩ | ⟨rest, hlog, -⟩
  · rw [Cell.run, hrun] at h
    simp at h
  · rw [Cell.run, hlog]
    simp

/-- The first record of a run freezes or unfreezes the intruder's group. -/
theorem Cell.irq_eq (h : r ∈ (c.run p env).log) (hl : r.l = 0) : r.irq = initialIrq r.wctpf := by
  have hget := runWasm_getElem? h
  obtain ⟨rest, hlog, -⟩ := exists_logs_of_mem h
  rw [hl, hlog] at hget
  obtain rfl := Option.some.inj hget
  rfl

end Cell

section Sweep

variable (p : Profile) (args : Args) (env : ℕ → ℕ → ℕ → RunEnv)

/-- The records of a sweep are those of the cells that were started, all of them if it
ended normally. -/
theorem sweep_blocked : ∃ started, started <+: args.grid ∧
    Blocked key (·.l) started (sweep p args env).log ∧
      ((sweep p args env).result = .ok () → started = args.grid) := by
  rw [sweep_eq]
  rcases forM_cases args.cells (Cell.run p env) with
    ⟨hall, hlog⟩ | ⟨done, last, rest, e, hcells, hdone, hresult, hlog⟩
  · refine ⟨args.grid, List.prefix_rfl, ?_, fun _ => rfl⟩
    rw [hlog, ← cells_map_key]
    exact .flatMap fun c hc => Cell.isBlock (Cell.log_ne_nil (hall c hc))
  · have hblocked : Blocked key (·.l) (done.map Cell.key)
        (done.flatMap fun c => (c.run p env).log) :=
      .flatMap fun c hc => Cell.isBlock (Cell.log_ne_nil (hdone c hc))
    have hfailed : ∀ started : List Key, (forM args.cells (Cell.run p env)).result = .ok () →
        started = args.grid := by
      intro started hok
      rw [hresult] at hok
      exact absurd hok (by simp)
    have hgrid : args.grid = done.map Cell.key ++ last.key :: rest.map Cell.key := by
      rw [← cells_map_key, hcells, List.map_append, List.map_cons]
    by_cases hempty : (last.run p env).log = []
    · refine ⟨done.map Cell.key, ⟨_, hgrid.symm⟩, ?_, hfailed _⟩
      rw [hlog, hempty, List.append_nil]
      exact hblocked
    · refine ⟨done.map Cell.key ++ [last.key], ⟨rest.map Cell.key, ?_⟩, ?_, hfailed _⟩
      · rw [hgrid, List.append_assoc, List.singleton_append]
      · rw [hlog]
        exact hblocked.concat (Cell.isBlock hempty)

theorem exists_cell_of_mem {r : WasmRunnerIpc} (h : r ∈ (sweep p args env).log) :
    ∃ c : Cell, r ∈ (c.run p env).log := by
  rw [sweep_eq] at h
  rcases forM_cases args.cells (Cell.run p env) with
    ⟨-, hlog⟩ | ⟨done, last, rest, e, -, -, -, hlog⟩
  · rw [hlog] at h
    obtain ⟨c, -, hc⟩ := List.mem_flatMap.mp h
    exact ⟨c, hc⟩
  · rw [hlog] at h
    rcases List.mem_append.mp h with h | h
    · obtain ⟨c, -, hc⟩ := List.mem_flatMap.mp h
      exact ⟨c, hc⟩
    · exact ⟨last, h⟩

theorem sweep_pairwise :
    (sweep p args env).log.Pairwise fun r s => position r < position s := by
  obtain ⟨started, hstarted, hblocked, -⟩ := sweep_blocked p args env
  have hkeys : started.Pairwise (· < ·) := (grid_pairwise args).sublist hstarted.sublist
  refine (hblocked.pairwise hkeys).imp ?_
  intro r s hlt
  simp only [key, position, Prod.Lex.toLex_lt_toLex, toLex_inj, Prod.mk.injEq] at hlt ⊢
  tauto

/-- The first record of a run says whether the intruder's group is to be frozen. -/
theorem request_initial {r : WasmRunnerIpc} (h : r.irq = initialIrq r.wctpf) :
    request 1 r = some (decide (r.wctpf = some 0)) := by
  unfold request
  rw [show Ipc.irq r = r.irq from rfl, h]
  cases hw : r.wctpf with
  | none => simp [initialIrq]
  | some w =>
    by_cases hzero : w = 0
    · simp [initialIrq, hzero]
    · rw [initialIrq, Option.map_some, if_neg hzero]
      simpa using hzero

/-- A nonempty prefix ends in a block that begins with a command for the intruder's group. -/
theorem exists_first {consumed : List WasmRunnerIpc}
    (h : consumed <+: (sweep p args env).log) (hne : consumed ≠ []) :
    ∃ done first rest, consumed = done ++ first :: rest ∧
      currentBlock key consumed = first :: rest ∧
        request 1 first = some (decide (first.wctpf = some 0)) := by
  obtain ⟨started, hstarted, hblocked, -⟩ := sweep_blocked p args env
  have hnodup : started.Nodup := (grid_nodup args).sublist hstarted.sublist
  obtain ⟨k, done, block, hblock, hconsumed, hinit, hcurrent⟩ :=
    hblocked.exists_currentBlock hnodup h hne
  obtain ⟨first, rest, hfirst⟩ := List.exists_cons_of_ne_nil hcurrent
  rw [hfirst] at hconsumed hinit
  have hmem : first ∈ (sweep p args env).log := by
    refine h.subset ?_
    rw [hconsumed]
    simp
  obtain ⟨c, hc⟩ := exists_cell_of_mem p args env hmem
  have hl : first.l = 0 := hblock.number_head hinit
  exact ⟨done, first, rest, hconsumed, hfirst, request_initial (Cell.irq_eq hc hl)⟩

/-- Whether the requests of the records of a run leave the intruder's group frozen. -/
def frozenBy (block : List WasmRunnerIpc) : Bool := (lastRequest 1 block).getD false

/-- What is left of a sweep is what its current run asked for. -/
theorem consume_sweep (ids : List ℕ) {consumed : List WasmRunnerIpc}
    (h : consumed <+: (sweep p args env).log) :
    consume (.created ids) consumed 1 =
      (Groups.created ids 1).map fun _ => frozenBy (currentBlock key consumed) := by
  by_cases hne : consumed = []
  · subst hne
    by_cases hid : 1 ∈ ids <;> simp [Groups.created, hid, frozenBy, currentBlock, lastRequest]
  obtain ⟨done, first, rest, hconsumed, hcurrent, hrequest⟩ := exists_first p args env h hne
  obtain ⟨b, hb⟩ : ∃ b, lastRequest 1 (first :: rest) = some b := by
    refine ⟨_, List.getLast?_eq_some_getLast ?_⟩
    simp [hrequest]
  rw [consume_apply, hcurrent, hconsumed, lastRequest_append, frozenBy, hb]
  simp

/-- The records of a sweep are strictly ordered, come in one numbered block for each run
that was started, and leave the intruder's group as the current run alone determines. -/
theorem sweep_isolated :
    let log := (sweep p args env).log
    log.Pairwise (fun r s => position r < position s) ∧
      (∃ started, started <+: args.grid ∧ Blocked key (·.l) started log ∧
        ((sweep p args env).result = .ok () → started = args.grid)) ∧
      (∀ i j k, args.grid.count (toLex (i, toLex (j, k))) =
        if i < (orNone args.fuel).length ∧ j < (orNone args.wctpf).length ∧
          k < args.count.getD 1 then 1 else 0) ∧
      ∀ (ids : List ℕ) (consumed : List WasmRunnerIpc), consumed <+: log →
        consume (.created ids) consumed 1 =
            (Groups.created ids 1).map (fun _ => frozenBy (currentBlock key consumed)) ∧
          (∀ first, currentBlock key consumed = [first] →
            frozenBy (currentBlock key consumed) = decide (first.wctpf = some 0)) ∧
          ∀ (p' : Profile) (args' : Args) (env' : ℕ → ℕ → ℕ → RunEnv)
            (consumed' : List WasmRunnerIpc), consumed' <+: (sweep p' args' env').log →
            currentBlock key consumed = currentBlock key consumed' →
              consume (.created ids) consumed 1 = consume (.created ids) consumed' 1 := by
  intro log
  refine ⟨sweep_pairwise p args env, sweep_blocked p args env, ?_, ?_⟩
  · intro i j k
    simp only [(grid_nodup args).count, mem_grid]
  · intro ids consumed h
    refine ⟨consume_sweep p args env ids h, ?_, ?_⟩
    · intro first hfirst
      have hne : consumed ≠ [] := by
        rintro rfl
        simp [currentBlock] at hfirst
      obtain ⟨done, r, rest, -, hcurrent, hrequest⟩ := exists_first p args env h hne
      obtain ⟨rfl, rfl⟩ := List.cons_eq_cons.mp (hfirst.symm.trans hcurrent)
      rw [hcurrent]
      simp [frozenBy, lastRequest, hrequest]
    · intro p' args' env' consumed' h' hsame
      rw [consume_sweep p args env ids h, consume_sweep p' args' env' ids h', hsame]

end Sweep

end InterferenceMitigation.Sweep
