import InterferenceMitigation.CacheCoverage
import InterferenceMitigation.LruCache

/-!
What the attack of an intruder core is for. The constants of the attack loop describe a
cache of `2 ^ cacheWaysBits` ways in which bits 6 to 15 of an address select the set. Let
such a cache replace the line used least recently, and let it be shared with others, whose
accesses come in between in any way. The element of a core has as many lines in each set as
there are ways, so that the attack takes over the sets that the mask selects.
-/

namespace InterferenceMitigation.CacheEviction

open MachineInt DyadicOrbit AttackLoop CacheCoverage LruCache

/-- The shared cache, by the set indices and the numbers of its lines. -/
abbrev SharedCache := Cache U64 U64 (2 ^ cacheWaysBits)

/-- The set that a line belongs to. -/
def lineSet (l : U64) : U64 := l &&& setField

/-- The accesses in the order in which they reach the cache: the lines that the attack writes
to on the left, those that others use on the right. -/
abbrev Trace := List (U64 ⊕ U64)

def lines (trace : Trace) : List U64 := trace.map (Sum.elim id id)

def attacks (trace : Trace) : List U64 := trace.filterMap Sum.getLeft?

def others (trace : Trace) : List U64 := trace.filterMap Sum.getRight?

section Trace

theorem mem_lines {trace : Trace} {l : U64} :
    l ∈ lines trace ↔ l ∈ attacks trace ∨ l ∈ others trace := by
  simp [lines, attacks, others]

theorem filter_lines_of_others {trace : Trace} {s : U64}
    (h : ∀ l ∈ attacks trace, lineSet l ≠ s) :
    (lines trace).filter (lineSet · = s) = (others trace).filter (lineSet · = s) := by
  induction trace with
  | nil => rfl
  | cons a trace ih =>
    have hrest := ih fun l hl =>
      h l (((List.sublist_cons_self a trace).filterMap Sum.getLeft?).subset hl)
    cases a with
    | inl l =>
      have hl : lineSet l ≠ s := h l (by simp [attacks])
      change (l :: lines trace).filter _ = (others trace).filter _
      rw [List.filter_cons_of_neg (by simpa using hl), hrest]
    | inr l =>
      change (l :: lines trace).filter _ = (l :: others trace).filter _
      rw [List.filter_cons, List.filter_cons, hrest]

theorem filter_lines_of_attacks {trace : Trace} {s : U64}
    (h : ∀ l ∈ others trace, lineSet l ≠ s) {l : U64} :
    l ∈ (lines trace).filter (lineSet · = s) ↔ l ∈ attacks trace ∧ lineSet l = s := by
  rw [List.mem_filter, mem_lines, decide_eq_true_eq]
  constructor
  · rintro ⟨hattack | hother, hs⟩
    · exact ⟨hattack, hs⟩
    · exact absurd hs (h l hother)
  · rintro ⟨hattack, hs⟩
    exact ⟨Or.inl hattack, hs⟩

end Trace

section Element

variable {buf : CacheBuf} {cpuIdx : ℕ}

/-- The lines of an element in a set: one for each tag. -/
def elementLines (buf : CacheBuf) (cpuIdx : ℕ) (s : U64) : Finset U64 :=
  (Finset.range (2 ^ cacheWaysBits)).image fun t =>
    BitVec.ofNat 64 (buf.start cpuIdx / 64 + (t * 1024 + s.toNat))

theorem start_le (buf : CacheBuf) (h₁ : 1 ≤ cpuIdx) (h₃ : cpuIdx ≤ 3) :
    buf.start cpuIdx + 2 ^ 20 ≤ 2 ^ 64 := by
  have hfits : buf.base + 3 * 2 ^ 20 ≤ 2 ^ 64 := buf.fits
  have hstart : buf.start cpuIdx = buf.base + (cpuIdx - 1) * 2 ^ 20 := rfl
  omega

theorem elementLines_card (h₁ : 1 ≤ cpuIdx) (h₃ : cpuIdx ≤ 3) (s : U64) :
    (elementLines buf cpuIdx s).card = 2 ^ cacheWaysBits := by
  have hstart := start_le buf h₁ h₃
  rw [elementLines, Finset.card_image_of_injOn, Finset.card_range]
  intro t ht t' ht' heq
  have ht : t < 16 := Finset.mem_range.mp ht
  have ht' : t' < 16 := Finset.mem_range.mp ht'
  have hnat := congrArg BitVec.toNat heq
  simp only [BitVec.toNat_ofNat] at hnat
  omega

theorem mem_elementLines (h₁ : 1 ≤ cpuIdx) (h₃ : cpuIdx ≤ 3) {s l : U64} (hs : s.toNat < 1024) :
    l ∈ elementLines buf cpuIdx s ↔
      ∃ y, InElement buf cpuIdx y ∧ line y = l ∧ setIndex y = s := by
  have hstart := start_le buf h₁ h₃
  have hdvd := start_dvd buf cpuIdx
  rw [elementLines, Finset.mem_image]
  constructor
  · rintro ⟨t, ht, rfl⟩
    have ht : t < 16 := Finset.mem_range.mp ht
    have hy : (BitVec.ofNat 64 (buf.start cpuIdx + (t * 65536 + s.toNat * 64))).toNat =
        buf.start cpuIdx + (t * 65536 + s.toNat * 64) := by
      rw [BitVec.toNat_ofNat]
      omega
    refine ⟨BitVec.ofNat 64 (buf.start cpuIdx + (t * 65536 + s.toNat * 64)), ?_, ?_, ?_⟩
    · change buf.start cpuIdx ≤ _ ∧ _ < buf.start cpuIdx + 2 ^ 20
      omega
    · apply BitVec.eq_of_toNat_eq
      rw [toNat_line, hy, BitVec.toNat_ofNat]
      omega
    · apply BitVec.eq_of_toNat_eq
      rw [toNat_setIndex, hy]
      omega
  · rintro ⟨y, hin, rfl, hset⟩
    have hbounds : buf.start cpuIdx ≤ y.toNat ∧ y.toNat < buf.start cpuIdx + 2 ^ 20 := hin
    have hindex := congrArg BitVec.toNat hset
    rw [toNat_setIndex] at hindex
    have htag : (y.toNat - buf.start cpuIdx) / 65536 < 16 := by omega
    refine ⟨(y.toNat - buf.start cpuIdx) / 65536, Finset.mem_range.mpr htag, ?_⟩
    apply BitVec.eq_of_toNat_eq
    rw [toNat_line, BitVec.toNat_ofNat]
    omega

/-- The element consists of whole lines. -/
theorem inElement_of_line {x y : U64} (h : line y = line x) (hy : InElement buf cpuIdx y) :
    InElement buf cpuIdx x := by
  have hbounds : buf.start cpuIdx ≤ y.toNat ∧ y.toNat < buf.start cpuIdx + 2 ^ 20 := hy
  have hdvd := start_dvd buf cpuIdx
  have hline := congrArg BitVec.toNat h
  rw [toNat_line, toNat_line] at hline
  change buf.start cpuIdx ≤ x.toNat ∧ x.toNat < buf.start cpuIdx + 2 ^ 20
  omega

end Element

section Window

variable {buf : CacheBuf} {cpuIdx : ℕ} {setMask : U64} {n : ℕ} {i : ℤ} {writes : List Write}

/-- The lines written in a window: those of the element in the selected sets. -/
theorem mem_window (h₁ : 1 ≤ cpuIdx) (h₃ : cpuIdx ≤ 3) (hmask : setMask ≠ 0)
    (hrun : iterations buf cpuIdx setMask n = .ok (i, writes)) {start : ℕ}
    (hn : start + 2 ^ 19 ≤ n) {l : U64} :
    l ∈ ((writes.drop start).take (2 ^ 19)).map (fun w => line w.addr) ↔
      ∃ y, InElement buf cpuIdx y ∧ line y = l ∧ Selected setMask y := by
  constructor
  · intro hl
    obtain ⟨w, hw, rfl⟩ := List.mem_map.mp hl
    have hmem : w ∈ writes := List.mem_of_mem_drop (List.mem_of_mem_take hw)
    refine ⟨w.addr, iterations_inElement h₃ hrun w hmem, rfl, ?_⟩
    rw [iterations_eq buf h₃ hmask] at hrun
    cases hrun
    obtain ⟨k, -, rfl⟩ := List.mem_map.mp hmem
    exact write_selected buf cpuIdx setMask _
  · rintro ⟨y, hin, rfl, hselected⟩
    obtain ⟨k, hlo, hhi, hline⟩ := line_written h₁ h₃ hin hselected start
    rw [iterations_eq buf h₃ hmask] at hrun
    cases hrun
    refine List.mem_map.mpr ⟨_, List.mem_of_getElem? (i := k - start) ?_, hline⟩
    rw [List.getElem?_take_of_lt (by omega), List.getElem?_drop, Nat.add_sub_cancel' hlo,
      List.getElem?_map, List.getElem?_range (by omega)]
    rfl

end Window

section Eviction

variable {buf : CacheBuf} {cpuIdx : ℕ} {setMask : U64} {trace : Trace} {x : U64}

/-- The attack writes in the trace to all lines of its element in the selected sets. -/
def Whole (buf : CacheBuf) (cpuIdx : ℕ) (setMask : U64) (trace : Trace) : Prop :=
  ∀ l, l ∈ attacks trace ↔ ∃ y, InElement buf cpuIdx y ∧ line y = l ∧ Selected setMask y

theorem setIndex_lt (x : U64) : (setIndex x).toNat < 1024 := by
  rw [toNat_setIndex]
  omega

theorem selected_congr {y : U64} (h : Selected setMask x) (hset : setIndex y = setIndex x) :
    Selected setMask y := by
  rw [Selected, hset]
  exact h

theorem Whole.elementLines_subset (h : Whole buf cpuIdx setMask trace) (h₁ : 1 ≤ cpuIdx)
    (h₃ : cpuIdx ≤ 3) (hselected : Selected setMask x) :
    elementLines buf cpuIdx (setIndex x) ⊆
      ((lines trace).filter (lineSet · = setIndex x)).toFinset := by
  intro l hl
  obtain ⟨y, hin, rfl, hset⟩ := (mem_elementLines h₁ h₃ (setIndex_lt x)).mp hl
  have hattack := (h (line y)).mpr ⟨y, hin, rfl, selected_congr hselected hset⟩
  rw [List.mem_toFinset, List.mem_filter]
  exact ⟨mem_lines.mpr (Or.inl hattack), decide_eq_true hset⟩

theorem Whole.mem_lines_of_held (h : Whole buf cpuIdx setMask trace) (h₁ : 1 ≤ cpuIdx)
    (h₃ : cpuIdx ≤ 3) (hselected : Selected setMask x) (c : SharedCache) {l : U64}
    (hl : l ∈ (c.run lineSet (lines trace)).lines (setIndex x)) : l ∈ lines trace := by
  have hcard := Finset.card_le_card (h.elementLines_subset h₁ h₃ hselected)
  rw [elementLines_card h₁ h₃] at hcard
  exact (List.mem_filter.mp (c.mem_of_turnover hcard hl)).1

/-- A line of another party that was not accessed is out of the cache. -/
theorem Whole.not_held (h : Whole buf cpuIdx setMask trace) (h₁ : 1 ≤ cpuIdx)
    (h₃ : cpuIdx ≤ 3) (hselected : Selected setMask x) (c : SharedCache)
    (hout : ¬ InElement buf cpuIdx x) (hother : line x ∉ others trace) :
    line x ∉ (c.run lineSet (lines trace)).lines (setIndex x) := by
  intro hheld
  rcases mem_lines.mp (h.mem_lines_of_held h₁ h₃ hselected c hheld) with hl | hl
  · obtain ⟨y, hin, hline, -⟩ := (h (line x)).mp hl
    exact hout (inElement_of_line hline hin)
  · exact hother hl

/-- A set that nobody else uses holds the lines of the element. -/
theorem Whole.held_iff (h : Whole buf cpuIdx setMask trace) (h₁ : 1 ≤ cpuIdx)
    (h₃ : cpuIdx ≤ 3) (hselected : Selected setMask x) (c : SharedCache)
    (hquiet : ∀ l ∈ others trace, lineSet l ≠ setIndex x) (l : U64) :
    l ∈ (c.run lineSet (lines trace)).lines (setIndex x) ↔
      ∃ y, InElement buf cpuIdx y ∧ line y = l ∧ setIndex y = setIndex x := by
  have hmem : ∀ l, l ∈ (lines trace).filter (lineSet · = setIndex x) ↔
      l ∈ elementLines buf cpuIdx (setIndex x) := by
    intro l
    rw [filter_lines_of_attacks hquiet, mem_elementLines h₁ h₃ (setIndex_lt x)]
    constructor
    · rintro ⟨hattack, hset⟩
      obtain ⟨y, hin, rfl, -⟩ := (h l).mp hattack
      exact ⟨y, hin, rfl, hset⟩
    · rintro ⟨y, hin, rfl, hset⟩
      exact ⟨(h _).mpr ⟨y, hin, rfl, selected_congr hselected hset⟩, hset⟩
  have hsame : ((lines trace).filter (lineSet · = setIndex x)).toFinset =
      elementLines buf cpuIdx (setIndex x) :=
    Finset.ext fun l => List.mem_toFinset.trans (hmem l)
  rw [c.mem_iff_of_full (by rw [hsame, elementLines_card h₁ h₃]), hmem,
    mem_elementLines h₁ h₃ (setIndex_lt x)]

/-- A set that is not selected is not touched. -/
theorem Whole.untouched (h : Whole buf cpuIdx setMask trace) (hfree : ¬ Selected setMask x)
    (c : SharedCache) : (c.run lineSet (lines trace)).lines (setIndex x) =
      (c.run lineSet (others trace)).lines (setIndex x) := by
  refine c.run_congr (filter_lines_of_others ?_)
  intro l hl hset
  obtain ⟨y, -, rfl, hselected⟩ := (h l).mp hl
  exact hfree (selected_congr hselected (show setIndex x = setIndex y from hset.symm))

end Eviction

/-- A window of `2 ^ 19` iterations of a core's attack in any trace that it shares with others,
from any contents of the cache. A selected set then holds only lines that were accessed in the
window, none of another party that was not, and just those of the core's element if nobody else
used the set. A set that is not selected is as if there had been no attack. -/
theorem attack_evicts (buf : CacheBuf) (cpuIdx : ℕ) (h₁ : 1 ≤ cpuIdx) (h₃ : cpuIdx ≤ 3)
    (setMask : U64) (hmask : setMask ≠ 0) (n start : ℕ) (hn : start + 2 ^ 19 ≤ n) (i : ℤ)
    (writes : List Write) (hrun : iterations buf cpuIdx setMask n = .ok (i, writes))
    (c : SharedCache) (trace : Trace)
    (htrace : attacks trace = ((writes.drop start).take (2 ^ 19)).map fun w => line w.addr)
    (x : U64) :
    (Selected setMask x →
      (∀ l ∈ (c.run lineSet (lines trace)).lines (setIndex x), l ∈ lines trace) ∧
      (¬ InElement buf cpuIdx x → line x ∉ others trace →
        line x ∉ (c.run lineSet (lines trace)).lines (setIndex x)) ∧
      ((∀ l ∈ others trace, lineSet l ≠ setIndex x) → ∀ l,
        l ∈ (c.run lineSet (lines trace)).lines (setIndex x) ↔
          ∃ y, InElement buf cpuIdx y ∧ line y = l ∧ setIndex y = setIndex x)) ∧
    (¬ Selected setMask x →
      (c.run lineSet (lines trace)).lines (setIndex x) =
        (c.run lineSet (others trace)).lines (setIndex x)) := by
  have hwhole : Whole buf cpuIdx setMask trace := by
    rw [Whole, htrace]
    exact fun l => mem_window h₁ h₃ hmask hrun hn
  refine ⟨fun hselected => ⟨?_, ?_, ?_⟩, fun hfree => hwhole.untouched hfree c⟩
  · exact fun l hl => hwhole.mem_lines_of_held h₁ h₃ hselected c hl
  · exact fun hout hother => hwhole.not_held h₁ h₃ hselected c hout hother
  · exact fun hquiet l => hwhole.held_iff h₁ h₃ hselected c hquiet l

/-- The cache after another core has used the line at address 0. -/
def victimCache : SharedCache := Cache.access lineSet .empty (line 0)

/-- The third core with the mask that the program starts with: the line is gone. -/
theorem attack_evicts_third : ∃ i writes,
    iterations ⟨0x4000_0000, by decide, by decide⟩ 3 0x3FE (2 ^ 19) = .ok (i, writes) ∧
      line 0 ∈ victimCache.lines (setIndex 0) ∧
      line 0 ∉ (victimCache.run lineSet (writes.map fun w => line w.addr)).lines (setIndex 0) := by
  have hrun : ∃ i writes, iterations ⟨0x4000_0000, by decide, by decide⟩ 3 0x3FE (2 ^ 19) =
      .ok (i, writes) ∧ writes.length = 2 ^ 19 :=
    ⟨_, _, iterations_eq _ (by decide) (by decide) _, by rw [List.length_map, List.length_range]⟩
  obtain ⟨i, writes, hrun, hlength⟩ := hrun
  have htrace : attacks (writes.map fun w => .inl (line w.addr)) =
      ((writes.drop 0).take (2 ^ 19)).map fun w => line w.addr := by
    rw [List.drop_zero, List.take_of_length_le hlength.le, attacks, List.filterMap_map]
    simp [Function.comp_def]
  have hselected : Selected 0x3FE 0 := by
    unfold Selected
    decide
  have hevicted := ((attack_evicts _ 3 (by decide) (by decide) 0x3FE (by decide) (2 ^ 19) 0
    (by decide) i writes hrun victimCache _ htrace 0).1 hselected).2.1
  refine ⟨i, writes, hrun, by decide, ?_⟩
  have hlines : lines (writes.map fun w => .inl (line w.addr)) =
      writes.map fun w => line w.addr := by simp [lines]
  rw [← hlines]
  exact hevicted (fun h => absurd h.1 (by decide))
    (by simp [others, List.filterMap_map, Function.comp_def])

end InterferenceMitigation.CacheEviction
