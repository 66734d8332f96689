import InterferenceMitigation.LoopHistory
import InterferenceMitigation.SysTick
import Mathlib.Data.List.Flatten

/-!
The times of the control loop against the counter they are read from. The loop reads the
microsecond time base before and after each stretch and adds up the differences, so that
every stretch is truncated at both ends. As long as the counter does not go back, no
difference underflows and no sum overflows, in either build; a run's time is behind the
ticks of its stretches by less than a microsecond for each of them, and ahead of the whole
span of the run by less than one.
-/

namespace InterferenceMitigation.ClockedLoop

open MachineInt TickDivision DeadlineGuard ControlLoop LoopHistory SysTick

/-- A stretch with the counter values that `get_time_us` reads around the interpreter. -/
structure Stretch where
  start : U64
  stop : U64
  state : Option RunState
  perf : PerfInfo
  deriving DecidableEq, Repr

/-- The chunk of a stretch, with `last` and `current` in the microseconds of the time base. -/
def Stretch.chunk (freq : U32) (x : Stretch) : Except Panic Chunk := do
  let last ← getTimeUs freq x.start
  let current ← getTimeUs freq x.stop
  return ⟨last, current, x.state, x.perf⟩

/-- The counter values between which a stretch was executed. -/
def Stretch.interval (x : Stretch) : ℕ × ℕ := (x.start.toNat, x.stop.toNat)

variable {freq : U32} {p : Profile} {m : Mitigator} {f : U64} {mainAddr : ℕ}

theorem freq_of_chunk {x : Stretch} {c : Chunk} (h : x.chunk freq = .ok c) :
    1000000 ≤ freq.toNat := by
  simp only [Stretch.chunk, bind_eq_ok] at h
  obtain ⟨last, hlast, -⟩ := h
  exact freq_of_getTimeUs hlast

theorem chunk_inv {x : Stretch} {c : Chunk} (h : x.chunk freq = .ok c) :
    c.last.toNat = x.start.toNat / perUs freq ∧ c.current.toNat = x.stop.toNat / perUs freq := by
  have hfreq := freq_of_chunk h
  obtain ⟨last, hlast, hlastval⟩ := getTimeUs_eq hfreq x.start
  obtain ⟨current, hcurrent, hcurrentval⟩ := getTimeUs_eq hfreq x.stop
  rw [Stretch.chunk, hlast, ok_bind, hcurrent, ok_bind] at h
  obtain rfl := Except.ok.inj h
  exact ⟨hlastval, hcurrentval⟩

/-- An entry of the log and the stretch it is about. -/
structure Clocked (freq : U32) (e : Entry) (x : Stretch) : Prop where
  ordered : x.start.toNat ≤ x.stop.toNat
  dt : e.update.dt.toNat = x.stop.toNat / perUs freq - x.start.toNat / perUs freq

/-- Readings of an ordered stretch are ordered. -/
theorem last_le_current {x : Stretch} {c : Chunk} (hordered : x.start.toNat ≤ x.stop.toNat)
    (h : x.chunk freq = .ok c) : c.last.toNat ≤ c.current.toNat := by
  obtain ⟨hlast, hcurrent⟩ := chunk_inv h
  rw [hlast, hcurrent]
  exact Nat.div_le_div_right hordered

theorem clocked_of_replays {pre : List Entry} {e : Entry} {x : Stretch}
    (hordered : x.start.toNat ≤ x.stop.toNat) (hchunk : x.chunk freq = .ok e.chunk)
    (h : Replays p m f mainAddr pre e) : Clocked freq e x := by
  obtain ⟨hlast, hcurrent⟩ := chunk_inv hchunk
  refine ⟨hordered, ?_⟩
  rw [h.dt.toNat_of_le (last_le_current hordered hchunk), hlast, hcurrent]

theorem timeOf_clocked {run : List Entry} {stretches : List Stretch}
    (h : List.Forall₂ (Clocked freq) run stretches) :
    timeOf run = units (perUs freq) (stretches.map Stretch.interval) := by
  induction h with
  | nil => rfl
  | cons hfirst _ ih =>
    simp only [timeOf, units, List.map_cons, List.sum_cons, elapsed, hfirst.dt] at ih ⊢
    rw [ih]
    rfl

/-- What an update says about the stretches of its run. -/
structure Measures (freq : U32) (run : List Stretch) (u : RefuelUpdate) : Prop where
  accT : u.accT.toNat = units (perUs freq) (run.map Stretch.interval)
  behind : ticks (run.map Stretch.interval) ≤
    perUs freq * u.accT.toNat + run.length * (perUs freq - 1)
  ahead : ∀ first last, run.head? = some first → run.getLast? = some last →
    perUs freq * u.accT.toNat ≤ last.stop.toNat - first.start.toNat + (perUs freq - 1)

theorem forall₂_of_mapM {α β ε : Type} {g : α → Except ε β} {xs : List α} {ys : List β}
    (h : xs.mapM g = .ok ys) : List.Forall₂ (fun x y => g x = .ok y) xs ys := by
  induction xs generalizing ys with
  | nil =>
    obtain rfl := Except.ok.inj h
    exact .nil
  | cons x xs ih =>
    simp only [List.mapM_cons, bind_eq_ok] at h
    obtain ⟨y, hy, rest, hrest, hret⟩ := h
    obtain rfl := Except.ok.inj hret
    exact .cons hy (ih hrest)

theorem exists_of_mapM {α β ε : Type} {g : α → Except ε β} {xs : List α} {ys : List β}
    (h : xs.mapM g = .ok ys) : ∀ x ∈ xs, ∃ y, g x = .ok y := by
  have hall := forall₂_of_mapM h
  clear h
  induction hall with
  | nil => simp
  | cons hfirst _ ih => exact List.forall_mem_cons.mpr ⟨⟨_, hfirst⟩, ih⟩

theorem interval_ordered {stretches : List Stretch}
    (h : (endpoints (stretches.map Stretch.interval)).Pairwise (· ≤ ·)) :
    ∀ x ∈ stretches, x.start.toNat ≤ x.stop.toNat := by
  intro x hx
  obtain ⟨before, after, rfl⟩ := List.append_of_mem hx
  simp only [endpoints, List.map_append, List.map_cons, List.flatMap_append,
    List.flatMap_cons] at h
  have hown := (List.pairwise_append.mp h).2.1
  exact (List.pairwise_cons.mp hown).1 _ (by simp [Stretch.interval])

/-- The log of a run of the loop, entry by entry against the stretches. -/
theorem log_clocked {stretches : List Stretch} {chunks : List Chunk} {log : List Entry} {s : Loop}
    (hread : stretches.mapM (Stretch.chunk freq) = .ok chunks)
    (hordered : (endpoints (stretches.map Stretch.interval)).Pairwise (· ≤ ·))
    (hmeter : ∀ c ∈ chunks, c.Metered)
    (h : Loop.run p m (Loop.new (some f) mainAddr) chunks = .ok (log, s)) :
    List.Forall₂ (Clocked freq) log stretches := by
  have hreplays : ∀ e ∈ log, ∃ pre, Replays p m f mainAddr pre e := by
    intro e he
    obtain ⟨pre, post, hsplit⟩ := List.append_of_mem he
    exact ⟨_, ((Tracks.new p m f mainAddr).run hmeter h).1 pre e post hsplit⟩
  have hchunks := (List.forall₂_and_left _ _).mpr
    ⟨interval_ordered hordered, forall₂_of_mapM hread⟩
  rw [← run_chunks h, List.forall₂_map_right_iff] at hchunks
  refine ((List.forall₂_and_left _ _).mpr ⟨hreplays, hchunks.flip⟩).imp ?_
  rintro e x ⟨⟨pre, hreplay⟩, hle, hchunk⟩
  exact clocked_of_replays hle hchunk hreplay

/-- A part of the stretches is as ordered as the whole. -/
theorem ordered_of_sublist {xs ys : List Stretch} (hsub : xs.Sublist ys)
    (h : (endpoints (ys.map Stretch.interval)).Pairwise (· ≤ ·)) :
    (endpoints (xs.map Stretch.interval)).Pairwise (· ≤ ·) :=
  h.sublist ((hsub.map Stretch.interval).flatMap _)

/-- The readings of stretches on an ordered counter fit in the counter. -/
theorem units_fits {k : ℕ} {run : List Stretch}
    (h : (endpoints (run.map Stretch.interval)).Pairwise (· ≤ ·)) :
    units k (run.map Stretch.interval) < 2 ^ 64 := by
  have hle := units_le k 0 _ (List.pairwise_cons.mpr ⟨fun t _ => Nat.zero_le t, h⟩)
  rw [Nat.zero_div, Nat.zero_add] at hle
  refine (hle.trans (Nat.div_le_self _ _)).trans_lt ?_
  rw [List.getLast?_map]
  cases run.getLast? with
  | none => simp
  | some last => exact last.stop.isLt

/-- The entries of the run that `e` belongs to are the last ones of the log up to `e`. -/
theorem currentRun_eq_drop {pre : List Entry} {e : Entry} {n : ℕ}
    (hlen : n + ((currentRun pre).length + 1) = pre.length + 1) :
    currentRun pre ++ [e] = (pre ++ [e]).drop n := by
  have hsuffix : currentRun pre ++ [e] <:+ pre ++ [e] :=
    (List.suffix_append_inj_of_length_eq rfl).mpr ⟨List.rtakeWhile_suffix _ _, rfl⟩
  rw [List.suffix_iff_eq_drop.mp hsuffix]
  congr 1
  simp only [List.length_append, List.length_singleton]
  omega

section Loop

variable {stretches : List Stretch} {chunks : List Chunk} {log : List Entry} {s : Loop}

/-- The update of an entry against the stretches of its run. -/
theorem measures_of_log (hread : stretches.mapM (Stretch.chunk freq) = .ok chunks)
    (hordered : (endpoints (stretches.map Stretch.interval)).Pairwise (· ≤ ·))
    (hmeter : ∀ c ∈ chunks, c.Metered)
    (h : Loop.run p m (Loop.new (some f) mainAddr) chunks = .ok (log, s))
    (pre : List Entry) (e : Entry) (post : List Entry) (before run after : List Stretch)
    (hlog : log = pre ++ e :: post) (hstretches : stretches = before ++ run ++ after)
    (hlen : before.length + run.length = pre.length + 1)
    (hrun : run.length = (currentRun pre).length + 1) : Measures freq run e.update := by
  have hsub : (endpoints (run.map Stretch.interval)).Pairwise (· ≤ ·) := by
    refine ordered_of_sublist ?_ hordered
    rw [hstretches]
    exact (List.sublist_append_right before run).trans (List.sublist_append_left _ after)
  have hclocked : List.Forall₂ (Clocked freq) (currentRun pre ++ [e]) run := by
    have hall := log_clocked hread hordered hmeter h
    rw [hstretches] at hall
    have hfront := List.forall₂_take_append _ _ _ hall
    have hupto : log.take (before ++ run).length = pre ++ [e] := by
      rw [hlog, List.length_append, hlen, List.append_cons]
      exact List.take_left' (by simp)
    rw [hupto] at hfront
    rw [currentRun_eq_drop (n := before.length) (by omega)]
    exact List.forall₂_drop_append _ _ _ hfront
  have hk : 0 < perUs freq := by
    obtain ⟨x, hx⟩ := List.exists_mem_of_length_pos (show 0 < run.length by omega)
    have hmem : x ∈ stretches := by simp [hstretches, hx]
    obtain ⟨c, hc⟩ := exists_of_mapM hread x hmem
    exact perUs_pos (freq_of_chunk hc)
  have hreplay := ((Tracks.new p m f mainAddr).run hmeter h).1 pre e post hlog
  rw [List.nil_append] at hreplay
  have haccT : e.update.accT.toNat = units (perUs freq) (run.map Stretch.interval) := by
    have htime := hreplay.accT
    rw [timeOf_clocked hclocked] at htime
    exact htime.toNat_of_lt (units_fits hsub)
  refine ⟨haccT, ?_, ?_⟩
  · have hbehind := ticks_le_units hk (run.map Stretch.interval)
    rw [List.length_map] at hbehind
    rw [haccT]
    exact hbehind
  · intro first last hfirst hlast
    have hhead : (run.map Stretch.interval).head? = some first.interval := by
      rw [List.head?_map, hfirst]
      rfl
    have hend : (run.map Stretch.interval).getLast? = some last.interval := by
      rw [List.getLast?_map, hlast]
      rfl
    rw [haccT]
    exact units_mul_le hk hhead hend hsub

/-- The arithmetic on the times of a next stretch does not trap, with checks or without. -/
theorem time_fits_of_log (hread : stretches.mapM (Stretch.chunk freq) = .ok chunks)
    (hmeter : ∀ c ∈ chunks, c.Metered)
    (h : Loop.run p m (Loop.new (some f) mainAddr) chunks = .ok (log, s)) (next : Stretch)
    (c : Chunk) (hnext : next.chunk freq = .ok c)
    (hordered : (endpoints ((stretches ++ [next]).map Stretch.interval)).Pairwise (· ≤ ·)) :
    ∃ dt accT, sub .checked c.current c.last = .ok dt ∧
      add .checked s.runner.accT dt = .ok accT := by
  have hle := last_le_current (interval_ordered hordered next (by simp)) hnext
  obtain ⟨hlast, hcurrent⟩ := chunk_inv hnext
  have hall := log_clocked hread
    (ordered_of_sublist (List.sublist_append_left stretches [next]) hordered) hmeter h
  -- the run in progress is the last part of the log, and of the stretches
  obtain ⟨n, hdrop⟩ : ∃ n, currentRun log = log.drop n :=
    ⟨_, List.suffix_iff_eq_drop.mp (List.rtakeWhile_suffix _ log)⟩
  have hclocked : List.Forall₂ (Clocked freq) (currentRun log) (stretches.drop n) := by
    rw [hdrop]
    exact List.forall₂_drop n hall
  have hfits := units_fits (k := perUs freq)
    (ordered_of_sublist ((List.drop_sublist n stretches).append (.refl [next])) hordered)
  have hsum : units (perUs freq) ((stretches.drop n ++ [next]).map Stretch.interval) =
      timeOf (currentRun log) + (c.current.toNat - c.last.toNat) := by
    rw [timeOf_clocked hclocked, hlast, hcurrent]
    simp [units, Stretch.interval]
  have htracks := ((Tracks.new p m f mainAddr).run hmeter h).2
  rw [List.nil_append] at htracks
  have haccT := htracks.accT.toNat_of_lt (by omega)
  have hdt : (c.current - c.last).toNat = c.current.toNat - c.last.toNat :=
    BitVec.toNat_sub_of_le (BitVec.le_def.mpr hle)
  exact ⟨_, _, sub_eq_ok .checked hle, add_eq_ok .checked (by omega)⟩

end Loop

/-- The reported time of a run against the counter, for every log of the loop: exact sums of
the readings in either build, behind the executed ticks by less than a microsecond for each
stretch, and never a microsecond longer than the run has taken as a whole. The subtraction
and the addition that the times of a next stretch go through do not trap. -/
theorem accT_measures (p : Profile) (m : Mitigator) (f : U64) (mainAddr : ℕ) (freq : U32)
    (stretches : List Stretch) (chunks : List Chunk) (log : List Entry) (s : Loop)
    (hread : stretches.mapM (Stretch.chunk freq) = .ok chunks)
    (hordered : (endpoints (stretches.map Stretch.interval)).Pairwise (· ≤ ·))
    (hmeter : ∀ c ∈ chunks, c.Metered)
    (h : Loop.run p m (Loop.new (some f) mainAddr) chunks = .ok (log, s)) :
    (∀ pre e post before run after, log = pre ++ e :: post →
      stretches = before ++ run ++ after → before.length + run.length = pre.length + 1 →
      run.length = (currentRun pre).length + 1 → Measures freq run e.update) ∧
    ∀ next c, next.chunk freq = .ok c →
      (endpoints ((stretches ++ [next]).map Stretch.interval)).Pairwise (· ≤ ·) →
      ∃ dt accT, sub .checked c.current c.last = .ok dt ∧
        add .checked s.runner.accT dt = .ok accT :=
  ⟨measures_of_log hread hordered hmeter h, time_fits_of_log hread hmeter h⟩

/-- A counter of 100 MHz. -/
def boardFreq : U32 := 100000000

/-- A run of one stretch, and the first two stretches of the next one. -/
def threeStretches : List Stretch :=
  [⟨1000, 1990, some (.finished (some 4)), ⟨none, none, none, none, none, none⟩⟩,
    ⟨2050, 2349, some (.resumable ⟨0, some 0⟩), ⟨none, none, none, none, none, none⟩⟩,
    ⟨2401, 3198, some (.resumable ⟨0, some 1⟩), ⟨none, none, none, none, none, none⟩⟩]

/-- Their chunks, in microseconds. -/
def threeChunks : List Chunk :=
  [⟨10, 19, some (.finished (some 4)), ⟨none, none, none, none, none, none⟩⟩,
    ⟨20, 23, some (.resumable ⟨0, some 0⟩), ⟨none, none, none, none, none, none⟩⟩,
    ⟨24, 31, some (.resumable ⟨0, some 1⟩), ⟨none, none, none, none, none, none⟩⟩]

theorem threeChunks_metered : ∀ c ∈ threeChunks, c.Metered := by
  intro c hc state hstate _
  simp only [threeChunks, List.mem_cons, List.not_mem_nil, or_false] at hc
  rcases hc with rfl | rfl | rfl <;> obtain rfl := Option.some.inj hstate
  · exact ⟨4, rfl⟩
  · exact ⟨0, rfl⟩
  · exact ⟨1, rfl⟩

theorem accT_measures_threeStretches :
    ∃ u : RefuelUpdate, u.accT = 10 ∧ Measures boardFreq (threeStretches.drop 1) u := by
  have hordered : (endpoints (threeStretches.map Stretch.interval)).Pairwise (· ≤ ·) := by decide
  have hmeasures := (accT_measures .checked ⟨20, 5, 1⟩ 10 7 boardFreq threeStretches threeChunks
    [_, _, _] _ rfl hordered threeChunks_metered rfl).1 [_, _] _ [] (threeStretches.take 1)
    (threeStretches.drop 1) [] rfl rfl rfl rfl
  exact ⟨_, rfl, hmeasures⟩

end InterferenceMitigation.ClockedLoop
