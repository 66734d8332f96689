import InterferenceMitigation.SimpleAlloc

/-!
The blocks handed out by the allocator. Every allocation that returns carves its block
above all earlier ones and below the end of the buffer; every other call leaves the
allocator as it was. Before `init` the buffer is empty and nothing is handed out.
-/

namespace InterferenceMitigation.BlockSafety

open Regions Transition SimpleAlloc

variable {w : ℕ} {s t : RawSimpleAlloc w} {events : List (Event w)}

/-- What a call can do: return a block at the candidate address with room above it, or
leave the allocator unchanged, a failing allocation because memory is exhausted. -/
theorem step_cases {e : Event w} (h : Step s e t) (hs : s.LowerHalf) :
    (∃ layout ptr, e = .allocated layout ptr ∧ ptr.toNat = s.candidate layout ∧
        ptr.toNat + layout.size.toNat < s.endAddr.toNat ∧
        t.startAddr.toNat = ptr.toNat + layout.size.toNat ∧ t.endAddr = s.endAddr) ∨
      (t = s ∧ ((∃ layout, e = .failed layout .outOfMemory) ∨
        ∃ ptr layout, e = .deallocated ptr layout)) := by
  cases h with
  | @allocated _ layout ptr h =>
    obtain ⟨ptr', next, hptr, hnext, heq⟩ := alloc_eq hs layout
    rw [heq] at h
    split at h
    · rename_i hroom
      obtain ⟨rfl, rfl⟩ := EStateM.Result.ok.inj h
      refine .inl ⟨layout, _, rfl, hptr, ?_, ?_, rfl⟩
      · rw [hptr]
        exact hroom.2
      · rw [hptr]
        exact hnext
    · cases h
  | @failed _ layout fault h =>
    obtain ⟨ptr', next, -, -, heq⟩ := alloc_eq hs layout
    rw [heq] at h
    split at h
    · cases h
    · obtain ⟨rfl, rfl⟩ := EStateM.Result.error.inj h
      exact .inr ⟨rfl, .inl ⟨layout, rfl⟩⟩
  | @deallocated _ layout ptr h =>
    obtain ⟨-, rfl⟩ := EStateM.Result.ok.inj h
    exact .inr ⟨rfl, .inr ⟨ptr, layout, rfl⟩⟩

theorem blocks_cons (e : Event w) (events : List (Event w)) :
    blocks (e :: events) = e.block.toList ++ blocks events := by
  cases h : e.block with
  | none => simp [blocks, h]
  | some b => simp [blocks, h]

/-- What a run leaves true: the blocks returned so far, `old` included, are laid out between
`lo` and the start address, and no allocation failed for another reason than memory. -/
structure Carved (lo : ℕ) (limit : BitVec w) (returned : List (Block w)) (s : RawSimpleAlloc w) :
    Prop where
  lowerHalf : s.LowerHalf
  limit : s.endAddr = limit
  aligned : ∀ b ∈ returned, b.layout.align.toNat ∣ b.ptr.toNat
  laidOut : LaidOut lo s.startAddr.toNat (returned.map Block.region)

theorem Carved.step {lo : ℕ} {limit : BitVec w} {returned : List (Block w)} {e : Event w}
    (hs : Carved lo limit returned s) (h : Step s e t) :
    Carved lo limit (returned ++ e.block.toList) t := by
  rcases step_cases h hs.lowerHalf with
    ⟨layout, ptr, rfl, hptr, hroom, hstart, hend⟩ | ⟨rfl, hother⟩
  · refine ⟨⟨?_, ?_⟩, hend.trans hs.limit, ?_, ?_⟩
    · rw [hstart, hend]
      omega
    · rw [hend]
      exact hs.lowerHalf.low
    · intro b hb
      rcases List.mem_append.mp hb with hold | hnew
      · exact hs.aligned b hold
      · obtain rfl : b = ⟨ptr, layout⟩ := by simpa [Event.block] using hnew
        rw [hptr]
        exact dvd_alignUp layout.align_pos _
    · have hfirst : s.startAddr.toNat ≤ ptr.toNat := by
        rw [hptr]
        exact le_alignUp _ _
      rw [hstart, List.map_append]
      exact hs.laidOut.concat hfirst (Nat.le_add_right _ _)
  · have hnone : e.block = none := by
      rcases hother with ⟨layout, rfl⟩ | ⟨ptr, layout, rfl⟩ <;> rfl
    rw [hnone, Option.toList_none, List.append_nil]
    exact hs

theorem Carved.run {lo : ℕ} {limit : BitVec w} {returned : List (Block w)}
    (hs : Carved lo limit returned s) (h : Run Step s events t) :
    Carved lo limit (returned ++ blocks events) t := by
  induction h generalizing returned with
  | nil => simpa [blocks] using hs
  | cons hstep _ ih =>
    rw [blocks_cons, ← List.append_assoc]
    exact ih (hs.step hstep)

theorem Carved.not_wrapped {lo : ℕ} {limit : BitVec w} {returned : List (Block w)}
    (hs : Carved lo limit returned s) (h : Run Step s events t) (layout : Layout w) :
    .failed layout .wrapped ∉ events := by
  intro hmem
  obtain ⟨pre, post, rfl⟩ := List.append_of_mem hmem
  obtain ⟨u, hpre, hpost⟩ := h.of_append
  have hu := hs.run hpre
  cases hpost with
  | cons hstep _ =>
    rcases step_cases hstep hu.lowerHalf with ⟨_, _, heq, -⟩ | ⟨-, ⟨_, heq⟩ | ⟨_, _, heq⟩⟩
    · cases heq
    · cases heq
    · cases heq

theorem Carved.failed_eq {lo : ℕ} {limit : BitVec w} {returned : List (Block w)}
    (hs : Carved lo limit returned s) {layout : Layout w} {fault : Fault}
    (h : Step s (.failed layout fault) t) : t = s := by
  rcases step_cases h hs.lowerHalf with ⟨_, _, heq, -⟩ | ⟨hsame, -⟩
  · cases heq
  · exact hsame

theorem Carved.disjoint {lo : ℕ} {limit : BitVec w} {returned : List (Block w)}
    (hs : Carved lo limit returned s) :
    returned.Pairwise fun b c => Disjoint b.addresses c.addresses := by
  have hregions := hs.laidOut.disjoint
  rw [List.pairwise_map] at hregions
  exact hregions

theorem Carved.inside {lo : ℕ} {limit : BitVec w} {returned : List (Block w)}
    (hs : Carved lo limit returned s) {b : Block w} (hb : b ∈ returned) :
    lo ≤ b.ptr.toNat ∧ b.ptr.toNat + b.layout.size.toNat ≤ limit.toNat := by
  obtain ⟨hlo, -, hhi⟩ := hs.laidOut.within b.region (List.mem_map_of_mem hb)
  have hordered := hs.lowerHalf.ordered
  rw [hs.limit] at hordered
  exact ⟨hlo, hhi.trans hordered⟩

/-- Before `init` the limit is zero, below which no block with an address lies. -/
theorem new_carved : Carved 0 0 [] (RawSimpleAlloc.new : RawSimpleAlloc w) :=
  ⟨RawSimpleAlloc.new_lowerHalf, rfl, by simp, .nil 0⟩

/-- Until `init` the allocator stays empty, and every allocation fails. -/
theorem run_new (h : Run Step (RawSimpleAlloc.new : RawSimpleAlloc w) events s) :
    s = .new ∧ blocks events = [] := by
  suffices hrun : ∀ u : RawSimpleAlloc w, Run Step u events s → u = .new →
      s = .new ∧ blocks events = [] from hrun _ h rfl
  intro u hu hnew
  clear h
  induction hu with
  | nil => exact ⟨hnew, rfl⟩
  | cons hstep _ ih =>
    subst hnew
    rcases step_cases hstep RawSimpleAlloc.new_lowerHalf with
      ⟨layout, ptr, -, -, hroom, -⟩ | ⟨hsame, hother⟩
    · simp [RawSimpleAlloc.new] at hroom
    · obtain ⟨hend, hblocks⟩ := ih hsame
      refine ⟨hend, ?_⟩
      rw [blocks_cons, hblocks]
      rcases hother with ⟨layout, rfl⟩ | ⟨ptr, layout, rfl⟩ <;> rfl

/-- Initialising with a buffer in the lower half of the address space. -/
theorem init_carved (buf : Buffer w) (hlow : buf.addr.toNat + buf.len.toNat ≤ 2 ^ (w - 1))
    (s : RawSimpleAlloc w) :
    ∃ t, RawSimpleAlloc.init buf s = .ok () t ∧ Carved buf.addr.toNat t.endAddr [] t ∧
      t.startAddr = buf.addr ∧ t.endAddr.toNat = buf.addr.toNat + buf.len.toNat := by
  have hlt : buf.addr.toNat + buf.len.toNat < 2 ^ w := by
    have haddr := buf.addr.isLt
    have hlen := buf.len.isLt
    rcases Nat.eq_zero_or_pos w with rfl | hw
    · omega
    · have hwidth : 2 ^ (w - 1) < 2 ^ w := Nat.pow_lt_pow_right (by omega) (by omega)
      omega
  have hend : (buf.addr + buf.len).toNat = buf.addr.toNat + buf.len.toNat :=
    BitVec.toNat_add_of_lt hlt
  refine ⟨⟨buf.addr, buf.addr + buf.len⟩, ?_, ⟨⟨?_, ?_⟩, rfl, by simp, .nil _⟩, rfl, hend⟩
  · simp only [RawSimpleAlloc.init, byteAdd_eq hlt, pure_bind]
    rfl
  · change buf.addr.toNat ≤ (buf.addr + buf.len).toNat
    omega
  · change (buf.addr + buf.len).toNat ≤ 2 ^ (w - 1)
    omega

/-- Whatever is called before and after `init`, the blocks returned are aligned, inside the
buffer and pairwise disjoint; no pointer wraps, and a failing allocation changes nothing. -/
theorem blocks_safe (buf : Buffer w) (hlow : buf.addr.toNat + buf.len.toNat ≤ 2 ^ (w - 1))
    (before : List (Event w)) (s₀ : RawSimpleAlloc w) (hbefore : Run Step .new before s₀) :
    blocks before = [] ∧ (∀ layout fault t, Step s₀ (.failed layout fault) t → t = s₀) ∧
      ∃ s₁, RawSimpleAlloc.init buf s₀ = .ok () s₁ ∧
        ∀ after s, Run Step s₁ after s →
          (∀ b ∈ blocks after, b.layout.align.toNat ∣ b.ptr.toNat ∧
            buf.addr.toNat ≤ b.ptr.toNat ∧
            b.ptr.toNat + b.layout.size.toNat ≤ buf.addr.toNat + buf.len.toNat) ∧
          ((blocks after).Pairwise fun b c => Disjoint b.addresses c.addresses) ∧
          (∀ layout, .failed layout .wrapped ∉ before ++ after) ∧
          ∀ layout fault t, Step s (.failed layout fault) t → t = s := by
  obtain ⟨hempty, hnone⟩ := run_new hbefore
  have hnew : Carved 0 0 [] s₀ := by
    rw [hempty]
    exact new_carved
  obtain ⟨s₁, hinit, hcarved, -, hend⟩ := init_carved buf hlow s₀
  refine ⟨hnone, fun _ _ _ => hnew.failed_eq, s₁, hinit, ?_⟩
  intro after s hafter
  have hs := hcarved.run hafter
  rw [List.nil_append] at hs
  refine ⟨?_, hs.disjoint, ?_, fun _ _ _ => hs.failed_eq⟩
  · intro b hb
    obtain ⟨hlo, hhi⟩ := hs.inside hb
    rw [hend] at hhi
    exact ⟨hs.aligned b hb, hlo, hhi⟩
  · intro layout hmem
    rcases List.mem_append.mp hmem with hbefore' | hafter'
    · exact new_carved.not_wrapped hbefore layout hbefore'
    · exact hcarved.not_wrapped hafter layout hafter'

/-- A word, and a cache line of the target. -/
def wordLayout : Layout 32 := ⟨4, 4, ⟨2, rfl⟩, by decide⟩

def lineLayout : Layout 32 := ⟨64, 64, ⟨6, rfl⟩, by decide⟩

/-- A word and then a line, which leaves a gap between them. -/
def wordThenLine : List (Event 32) :=
  [.allocated wordLayout 4096, .allocated lineLayout 4160]

/-- One request before a buffer of 256 bytes is there, and two after. -/
theorem blocks_safe_line :
    blocks [Event.failed wordLayout .outOfMemory] = [] ∧
      (blocks wordThenLine).Pairwise fun b c => Disjoint b.addresses c.addresses := by
  obtain ⟨hnone, -, s₁, hinit, hafter⟩ := blocks_safe (w := 32) ⟨4096, 256⟩ (by decide)
    [.failed wordLayout .outOfMemory] .new (.single (.failed rfl))
  obtain ⟨-, rfl⟩ := EStateM.Result.ok.inj hinit
  have hrun : Run Step (⟨4096, 4352⟩ : RawSimpleAlloc 32) wordThenLine ⟨4224, 4352⟩ :=
    .cons (.allocated rfl) (.single (.allocated rfl))
  exact ⟨hnone, (hafter wordThenLine _ hrun).2.1⟩

end InterferenceMitigation.BlockSafety
