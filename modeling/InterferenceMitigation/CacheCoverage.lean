import InterferenceMitigation.AttackLoop

/-!
What the writes of an intruder core reach. Masking an address changes nothing but its set
index and its offset in the line, so every write stays in the core's own element. Lines
whose set index the mask leaves as it is are written themselves, and the sequence of
indices passes through the start of each of them.
-/

namespace InterferenceMitigation.CacheCoverage

open MachineInt DyadicOrbit AttackLoop

/-- The set of an address is one of those that the mask selects. -/
def Selected (setMask addr : U64) : Prop := setIndex addr &&& setMask = setIndex addr

section Bits

theorem tagMask_bit {k : ℕ} (hk : k < 64) : tagMask.getLsbD k = decide (16 ≤ k) := by
  have hshift : tagMask = BitVec.allOnes 64 <<< 16 := rfl
  rw [hshift, BitVec.getLsbD_shiftLeft, BitVec.getLsbD_allOnes]
  by_cases h : k < 16
  · simp [h]
  · have hrest : k - 16 < 64 := by omega
    have hhigh : 16 ≤ k := by omega
    simp [hk, hrest, hhigh]

theorem setField_bit (k : ℕ) : setField.getLsbD k = decide (k < 10) := by
  change (BitVec.ofNat 64 (2 ^ 10 - 1)).getLsbD k = _
  rw [BitVec.getLsbD_ofNat, Nat.testBit_two_pow_sub_one]
  by_cases hk : k < 10
  · have hword : k < 64 := by omega
    simp [hk, hword]
  · simp [hk]

variable (setMask x : U64)

theorem masked_bit {k : ℕ} (hk : k < 64) : (masked setMask x).getLsbD k =
    (x.getLsbD k && (decide (16 ≤ k) || !decide (k < 6) && setMask.getLsbD (k - 6))) := by
  have hlines : setMask <<< cacheLineBits = setMask <<< 6 := rfl
  rw [masked, hlines, BitVec.getLsbD_and, BitVec.getLsbD_or, tagMask_bit hk,
    BitVec.getLsbD_shiftLeft]
  simp only [hk, decide_true, Bool.true_and]

/-- The bits of the set index are masked. -/
theorem masked_setBit {k : ℕ} (hk : k < 10) :
    (masked setMask x).getLsbD (6 + k) = (x.getLsbD (6 + k) && setMask.getLsbD k) := by
  have hword : 6 + k < 64 := by omega
  have hlow : ¬ 16 ≤ 6 + k := by omega
  have hrest : 6 + k - 6 = k := by omega
  rw [masked_bit setMask x hword, hrest]
  simp [hlow]

/-- The bits above the set index stay. -/
theorem masked_high : masked setMask x >>> 16 = x >>> 16 := by
  apply BitVec.eq_of_getLsbD_eq
  intro k hk
  rw [BitVec.getLsbD_ushiftRight, BitVec.getLsbD_ushiftRight]
  by_cases hword : 16 + k < 64
  · rw [masked_bit setMask x hword]
    simp
  · rw [BitVec.getLsbD_of_ge _ _ (by omega), BitVec.getLsbD_of_ge _ _ (by omega)]

theorem masked_dvd : 2 ^ cacheLineBits ∣ (masked setMask x).toNat := by
  apply Nat.dvd_of_mod_eq_zero
  apply Nat.eq_of_testBit_eq
  intro k
  have hlines : cacheLineBits = 6 := rfl
  rw [hlines, Nat.testBit_mod_two_pow, Nat.zero_testBit]
  by_cases hk : k < 6
  · have hlow : ¬ 16 ≤ k := by omega
    have hbit := masked_bit setMask x (show k < 64 by omega)
    rw [BitVec.getLsbD] at hbit
    rw [hbit]
    simp [hk, hlow]
  · simp [hk]

theorem setIndex_bit (k : ℕ) : (setIndex x).getLsbD k = (x.getLsbD (6 + k) && decide (k < 10)) := by
  change (x >>> 6 &&& setField).getLsbD k = _
  rw [BitVec.getLsbD_and, BitVec.getLsbD_ushiftRight, setField_bit]

theorem setIndex_masked : setIndex (masked setMask x) = setIndex x &&& setMask := by
  apply BitVec.eq_of_getLsbD_eq
  intro k hk
  rw [BitVec.getLsbD_and, setIndex_bit, setIndex_bit]
  by_cases hten : k < 10
  · rw [masked_setBit setMask x hten]
    simp [hten]
  · simp [hten]

/-- A line whose set is selected is written itself. -/
theorem line_masked {setMask x : U64} (h : Selected setMask x) :
    line (masked setMask x) = line x := by
  change masked setMask x >>> 6 = x >>> 6
  apply BitVec.eq_of_getLsbD_eq
  intro k hk
  rw [BitVec.getLsbD_ushiftRight, BitVec.getLsbD_ushiftRight]
  by_cases hten : k < 10
  · have hbit := congrArg (fun y => y.getLsbD k) h
    simp only [BitVec.getLsbD_and, setIndex_bit, hten, decide_true, Bool.and_true] at hbit
    rw [masked_setBit setMask x hten, hbit]
  · by_cases hword : 6 + k < 64
    · have hhigh : 16 ≤ 6 + k := by omega
      rw [masked_bit setMask x hword]
      simp [hhigh]
    · rw [BitVec.getLsbD_of_ge _ _ (by omega), BitVec.getLsbD_of_ge _ _ (by omega)]

end Bits

section Addresses

variable (buf : CacheBuf) {cpuIdx : ℕ}

theorem start_dvd (cpuIdx : ℕ) : 2 ^ 20 ∣ buf.start cpuIdx :=
  (buf.aligned).add (Dvd.intro_left _ rfl)

theorem byteOffset_toNat (hcpu : cpuIdx ≤ 3) {i : ℕ} (hi : i < 2 ^ 20) :
    (byteOffset buf cpuIdx i).toNat = buf.start cpuIdx + i := by
  have hfits : buf.base + 3 * 2 ^ 20 ≤ 2 ^ 64 := buf.fits
  have hstart : buf.start cpuIdx = buf.base + (cpuIdx - 1) * 2 ^ 20 := rfl
  rw [byteOffset, BitVec.ofInt_natCast, BitVec.toNat_add, BitVec.toNat_ofNat, BitVec.toNat_ofNat,
    ← Nat.add_mod]
  apply Nat.mod_eq_of_lt
  omega

theorem toNat_line (x : U64) : (line x).toNat = x.toNat / 64 := by
  change (x >>> 6).toNat = _
  rw [BitVec.toNat_ushiftRight, Nat.shiftRight_eq_div_pow]

theorem toNat_setIndex (x : U64) : (setIndex x).toNat = x.toNat / 64 % 1024 := by
  have hfield : (setField).toNat = 2 ^ 10 - 1 := rfl
  change (line x &&& setField).toNat = _
  rw [BitVec.toNat_and, toNat_line, hfield, Nat.and_two_pow_sub_one_eq_mod]

variable {buf}

/-- The start of an element does not change the set index. -/
theorem setIndex_byteOffset (hcpu : cpuIdx ≤ 3) {i : ℕ} (hi : i < 2 ^ 20) :
    setIndex (byteOffset buf cpuIdx i) = setIndex (BitVec.ofInt 64 i) := by
  apply BitVec.eq_of_toNat_eq
  have hword : i % 2 ^ 64 = i := Nat.mod_eq_of_lt (by omega)
  have hstart := start_dvd buf cpuIdx
  rw [toNat_setIndex, toNat_setIndex, byteOffset_toNat buf hcpu hi, BitVec.ofInt_natCast,
    BitVec.toNat_ofNat, hword]
  omega

theorem masked_inElement (setMask : U64) {x : U64} (h : InElement buf cpuIdx x) :
    InElement buf cpuIdx (masked setMask x) := by
  have hhigh := congrArg BitVec.toNat (masked_high setMask x)
  rw [BitVec.toNat_ushiftRight, BitVec.toNat_ushiftRight, Nat.shiftRight_eq_div_pow,
    Nat.shiftRight_eq_div_pow] at hhigh
  have hstart := start_dvd buf cpuIdx
  have hin : buf.start cpuIdx ≤ x.toNat ∧ x.toNat < buf.start cpuIdx + 2 ^ 20 := h
  change buf.start cpuIdx ≤ (masked setMask x).toNat ∧
    (masked setMask x).toNat < buf.start cpuIdx + 2 ^ 20
  omega

theorem write_inElement (setMask : U64) (hcpu : cpuIdx ≤ 3) {i : ℕ} (hi : i < 2 ^ 20) :
    InElement buf cpuIdx (write buf cpuIdx setMask i).addr := by
  apply masked_inElement
  have hsize : 2 ^ cacheSizeBits = 2 ^ 20 := rfl
  rw [InElement, byteOffset_toNat buf hcpu hi, hsize]
  omega

theorem inElement_unique {other : ℕ} {x : U64} (hcpu : 1 ≤ cpuIdx) (hother : 1 ≤ other)
    (h : InElement buf cpuIdx x) (h' : InElement buf other x) : cpuIdx = other := by
  have hin : buf.base + (cpuIdx - 1) * 2 ^ 20 ≤ x.toNat ∧
      x.toNat < buf.base + (cpuIdx - 1) * 2 ^ 20 + 2 ^ 20 := h
  have hin' : buf.base + (other - 1) * 2 ^ 20 ≤ x.toNat ∧
      x.toNat < buf.base + (other - 1) * 2 ^ 20 + 2 ^ 20 := h'
  omega

/-- Whatever the mask, a run writes to the element of its core only. -/
theorem iterations_inElement (hcpu : cpuIdx ≤ 3) {setMask : U64} {n : ℕ} {i : ℤ}
    {writes : List Write} (h : iterations buf cpuIdx setMask n = .ok (i, writes)) :
    ∀ w ∈ writes, InElement buf cpuIdx w.addr := by
  intro w hw
  by_cases hmask : setMask = 0
  · subst hmask
    rw [iterations_unmasked] at h
    cases h
    cases hw
  · rw [iterations_eq buf hcpu hmask] at h
    cases h
    obtain ⟨k, -, rfl⟩ := List.mem_map.mp hw
    exact write_inElement setMask hcpu (orbit_lt _ _ _ _)

end Addresses

section Windows

variable {cpuIdx : ℕ}

/-- The multiples of eight are all reached by even terms of a window, on each core. -/
theorem orbit_multiples (h₁ : 1 ≤ cpuIdx) (h₃ : cpuIdx ≤ 3) (m : ℕ) {t : ℕ} (ht : t < 2 ^ 17) :
    ∃ j < 2 ^ 18, orbit prime cpuIdx 20 (2 * (m + j)) = 8 * t := by
  have hodd : Odd prime := ⟨500001, rfl⟩
  have hcases : cpuIdx = 1 ∨ cpuIdx = 2 ∨ cpuIdx = 3 := by omega
  rcases hcases with rfl | rfl | rfl
  · obtain ⟨j, hj, h⟩ := orbit_covers (v := 2) (u := 250001) (w := 20) (c := 1) hodd
      ⟨125000, rfl⟩ (by decide) rfl m (t := 2 * t) (by omega)
    exact ⟨j, hj, by rw [h]; omega⟩
  · obtain ⟨j, hj, h⟩ := orbit_covers (v := 3) (u := 250001) (w := 20) (c := 2) hodd
      ⟨125000, rfl⟩ (by decide) rfl m (t := t) (by omega)
    exact ⟨j, by omega, by rw [h]; omega⟩
  · obtain ⟨j, hj, h⟩ := orbit_covers (v := 2) (u := 750003) (w := 20) (c := 3) hodd
      ⟨375001, rfl⟩ (by decide) rfl m (t := 2 * t) (by omega)
    exact ⟨j, hj, by rw [h]; omega⟩

/-- In a window of `2 ^ 19` iterations the index passes the start of every line. -/
theorem orbit_lines (h₁ : 1 ≤ cpuIdx) (h₃ : cpuIdx ≤ 3) (start : ℕ) {t : ℕ} (ht : t < 2 ^ 14) :
    ∃ k, start ≤ k ∧ k < start + 2 ^ 19 ∧ orbit prime cpuIdx 20 (k + 1) = 64 * t := by
  obtain ⟨j, hj, h⟩ := orbit_multiples h₁ h₃ (start / 2 + 1) (show 8 * t < 2 ^ 17 by omega)
  refine ⟨2 * (start / 2 + 1 + j) - 1, by omega, by omega, ?_⟩
  have hindex : 2 * (start / 2 + 1 + j) - 1 + 1 = 2 * (start / 2 + 1 + j) := by omega
  rw [hindex, h]
  omega

/-- In a window every line of a selected set is written. -/
theorem line_written {buf : CacheBuf} {setMask x : U64} (h₁ : 1 ≤ cpuIdx) (h₃ : cpuIdx ≤ 3)
    (hin : InElement buf cpuIdx x) (hselected : Selected setMask x) (start : ℕ) :
    ∃ k, start ≤ k ∧ k < start + 2 ^ 19 ∧
      line (write buf cpuIdx setMask (orbit prime cpuIdx 20 (k + 1))).addr = line x := by
  have hbounds : buf.start cpuIdx ≤ x.toNat ∧ x.toNat < buf.start cpuIdx + 2 ^ 20 := hin
  have hdvd := start_dvd buf cpuIdx
  obtain ⟨k, hlo, hhi, horbit⟩ := orbit_lines h₁ h₃ start
    (show (x.toNat - buf.start cpuIdx) / 64 < 2 ^ 14 by omega)
  have hoffset := byteOffset_toNat buf h₃ (orbit_lt prime cpuIdx 20 (k + 1))
  have hline : line (byteOffset buf cpuIdx (orbit prime cpuIdx 20 (k + 1))) = line x := by
    apply BitVec.eq_of_toNat_eq
    rw [toNat_line, toNat_line, hoffset, horbit]
    omega
  have hset : setIndex (byteOffset buf cpuIdx (orbit prime cpuIdx 20 (k + 1))) = setIndex x := by
    change line _ &&& setField = line x &&& setField
    rw [hline]
  refine ⟨k, hlo, hhi, ?_⟩
  rw [← hline]
  apply line_masked
  rw [Selected, hset]
  exact hselected

/-- The set of a written address is selected. -/
theorem write_selected (buf : CacheBuf) (cpuIdx : ℕ) (setMask : U64) (i : ℤ) :
    Selected setMask (write buf cpuIdx setMask i).addr := by
  change setIndex (masked setMask _) &&& setMask = setIndex (masked setMask _)
  rw [setIndex_masked, BitVec.and_assoc, BitVec.and_self]

end Windows

/-- A mask of the bits from `k` on rounds down to a multiple of `2 ^ k`. -/
theorem and_high_bits {k w s : ℕ} (hk : k ≤ w) (hs : s < 2 ^ w) :
    s &&& (2 ^ w - 2 ^ k) = s / 2 ^ k * 2 ^ k := by
  have hmask : 2 ^ w - 2 ^ k = (2 ^ (w - k) - 1) <<< k := by
    rw [Nat.shiftLeft_eq, Nat.sub_mul, ← pow_add, Nat.sub_add_cancel hk, one_mul]
  rw [hmask, ← Nat.shiftLeft_eq, ← Nat.shiftRight_eq_div_pow]
  apply Nat.eq_of_testBit_eq
  intro i
  rw [Nat.testBit_and, Nat.testBit_shiftLeft, Nat.testBit_shiftLeft, Nat.testBit_two_pow_sub_one,
    Nat.testBit_shiftRight]
  by_cases hi : k ≤ i
  · have hsum : k + (i - k) = i := by omega
    rw [hsum]
    by_cases hw : i < w
    · have hrest : i - k < w - k := by omega
      simp [hi, hrest]
    · have hpow : 2 ^ w ≤ 2 ^ i := Nat.pow_le_pow_right (by decide) (by omega)
      rw [Nat.testBit_lt_two_pow (by omega)]
      simp
  · simp [hi]

/-- With the masks that clear the lowest bits, every set at a power of two is selected. -/
theorem selected_power {k : ℕ} (hk : k < 10) {setMask : U64} (hmask : setMask.toNat = 1024 - 2 ^ k)
    (x : U64) : Selected setMask x ↔ 2 ^ k ∣ (setIndex x).toNat := by
  have hlt : (setIndex x).toNat < 2 ^ 10 := by
    rw [toNat_setIndex]
    omega
  have hrounded := and_high_bits (show k ≤ 10 by omega) hlt
  have hten : 1024 - 2 ^ k = 2 ^ 10 - 2 ^ k := rfl
  rw [Selected, ← BitVec.toNat_inj, BitVec.toNat_and, hmask, hten, hrounded]
  constructor
  · intro h
    exact Dvd.intro_left _ h
  · intro h
    exact Nat.div_mul_cancel h

/-- The attack loop of a core keeps its index in the buffer, writes to the element of that
core only and to the chosen sets only, and in every window of iterations it writes to all
lines of those sets. -/
theorem attack_covers (buf : CacheBuf) (cpuIdx : ℕ) (h₁ : 1 ≤ cpuIdx) (h₃ : cpuIdx ≤ 3)
    (setMask : U64) (hmask : setMask ≠ 0) (n : ℕ) :
    ∃ i writes, iterations buf cpuIdx setMask n = .ok (i, writes) ∧
      0 ≤ i ∧ i < 2 ^ 20 ∧ writes.length = n ∧
      (∀ w ∈ writes, 0 ≤ w.index ∧ w.index < 2 ^ 20 ∧ InElement buf cpuIdx w.addr ∧
        64 ∣ w.addr.toNat ∧
        setIndex w.addr = (BitVec.ofInt 64 w.index >>> 6 &&& 0x3FF) &&& setMask) ∧
      (∀ other, 1 ≤ other → other ≤ 3 → other ≠ cpuIdx → ∀ otherMask m j written,
        iterations buf other otherMask m = .ok (j, written) →
          ∀ w ∈ writes, ∀ v ∈ written, w.addr ≠ v.addr) ∧
      (∀ start, start + 2 ^ 19 ≤ n → ∀ l,
        (∃ k w, start ≤ k ∧ k < start + 2 ^ 19 ∧ writes[k]? = some w ∧ line w.addr = l) ↔
          ∃ x, InElement buf cpuIdx x ∧ line x = l ∧ Selected setMask x) ∧
      ∀ k < 10, setMask.toNat = 1024 - 2 ^ k →
        ∀ x, Selected setMask x ↔ 2 ^ k ∣ (setIndex x).toNat := by
  have hrun := iterations_eq buf h₃ hmask n
  refine ⟨_, _, hrun, Int.natCast_nonneg _, ?_, ?_, ?_, ?_, ?_, ?_⟩
  · exact_mod_cast orbit_lt prime cpuIdx 20 n
  · rw [List.length_map, List.length_range]
  · intro w hw
    obtain ⟨k, -, rfl⟩ := List.mem_map.mp hw
    have hlt := orbit_lt prime cpuIdx 20 (k + 1)
    have hindex : (orbit prime cpuIdx 20 (k + 1) : ℤ) < 2 ^ 20 := by exact_mod_cast hlt
    refine ⟨Int.natCast_nonneg _, hindex, write_inElement setMask h₃ hlt,
      masked_dvd setMask _, ?_⟩
    change setIndex (masked setMask _) = setIndex (BitVec.ofInt 64 _) &&& setMask
    rw [setIndex_masked, setIndex_byteOffset h₃ hlt]
    rfl
  · intro other hother₁ hother₃ hne otherMask m j written hother w hw v hv heq
    have hin := iterations_inElement h₃ hrun w hw
    have hin' := iterations_inElement hother₃ hother v hv
    rw [heq] at hin
    exact hne (inElement_unique hother₁ h₁ hin' hin)
  · intro start hwindow l
    constructor
    · rintro ⟨k, w, -, -, hk, rfl⟩
      have hw := List.mem_of_getElem? hk
      refine ⟨w.addr, iterations_inElement h₃ hrun w hw, rfl, ?_⟩
      obtain ⟨k, -, rfl⟩ := List.mem_map.mp hw
      exact write_selected buf cpuIdx setMask _
    · rintro ⟨x, hin, rfl, hselected⟩
      obtain ⟨k, hlo, hhi, hline⟩ := line_written h₁ h₃ hin hselected start
      refine ⟨k, _, hlo, hhi, ?_, hline⟩
      rw [List.getElem?_map, List.getElem?_range (by omega)]
      rfl
  · intro k hk hpower x
    exact selected_power hk hpower x

/-- The third core with the mask that the program starts with. -/
theorem attack_covers_third : ∃ i writes,
    iterations ⟨0x4000_0000, by decide, by decide⟩ 3 0x3FE (2 ^ 19) = .ok (i, writes) ∧
      writes.length = 2 ^ 19 ∧ ∀ x, InElement ⟨0x4000_0000, by decide, by decide⟩ 3 x →
        2 ∣ (setIndex x).toNat → ∃ w ∈ writes, line w.addr = line x := by
  obtain ⟨i, writes, hrun, -, -, hlength, -, -, hwindow, hpower⟩ :=
    attack_covers ⟨0x4000_0000, by decide, by decide⟩ 3 (by decide) (by decide) 0x3FE (by decide)
      (2 ^ 19)
  refine ⟨i, writes, hrun, hlength, ?_⟩
  intro x hin heven
  have hselected := (hpower 1 (by decide) (by decide) x).mpr heven
  obtain ⟨k, w, -, -, hk, hline⟩ := (hwindow 0 (by decide) (line x)).mpr ⟨x, hin, rfl, hselected⟩
  exact ⟨w, List.mem_of_getElem? hk, hline⟩

end InterferenceMitigation.CacheCoverage
