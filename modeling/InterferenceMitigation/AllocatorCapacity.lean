import InterferenceMitigation.BlockSafety

/-!
When an allocation runs out of memory. The bound check of `alloc` asks for an address
above the block inside the buffer, so the block that would end exactly where the buffer
ends is refused: the last byte of a buffer is never handed out.
-/

namespace InterferenceMitigation.AllocatorCapacity

open Regions Transition SimpleAlloc BlockSafety

variable {w : ℕ} {s t : RawSimpleAlloc w} {events : List (Event w)}

def Succeeds (s : RawSimpleAlloc w) (layout : Layout w) : Prop :=
  ∃ ptr t, RawSimpleAlloc.alloc layout s = .ok ptr t

/-- A block that occupies memory is returned exactly when it ends below the last address. -/
theorem succeeds_iff (hs : s.LowerHalf) {layout : Layout w} (hsize : 0 < layout.size.toNat) :
    Succeeds s layout ↔ s.candidate layout + layout.size.toNat < s.endAddr.toNat := by
  obtain ⟨ptr, next, -, -, heq⟩ := alloc_eq hs layout
  unfold Succeeds
  rw [heq]
  constructor
  · rintro ⟨ptr', t, hok⟩
    split at hok
    · rename_i hroom
      exact hroom.2
    · cases hok
  · intro hroom
    have hptr : s.candidate layout < s.endAddr.toNat := by omega
    exact ⟨ptr, _, if_pos ⟨hptr, hroom⟩⟩

/-- No block returned in a run reaches the end of the buffer. -/
theorem blocks_below {lo : ℕ} {limit : BitVec w} {returned : List (Block w)}
    (hs : Carved lo limit returned s) (h : Run Step s events t) {b : Block w}
    (hb : b ∈ blocks events) : b.ptr.toNat + b.layout.size.toNat < limit.toNat := by
  induction h generalizing returned with
  | nil => simp [blocks] at hb
  | cons hstep _ ih =>
    rw [blocks_cons] at hb
    rcases List.mem_append.mp hb with hfirst | hrest
    · rcases step_cases hstep hs.lowerHalf with
        ⟨layout, ptr, rfl, -, hroom, -⟩ | ⟨-, ⟨layout, rfl⟩ | ⟨ptr, layout, rfl⟩⟩
      · obtain rfl : b = ⟨ptr, layout⟩ := by simpa [Event.block] using hfirst
        rw [hs.limit] at hroom
        exact hroom
      · simp [Event.block] at hfirst
      · simp [Event.block] at hfirst
    · exact ih (hs.step hstep) hrest

/-- In every state reached after `init`, an allocation succeeds just when the least aligned
block fits, except for the block that ends exactly at the end of the buffer; and that one
is never returned. -/
theorem complete_iff (buf : Buffer w) (hlow : buf.addr.toNat + buf.len.toNat ≤ 2 ^ (w - 1))
    (s₀ s₁ : RawSimpleAlloc w) (hinit : RawSimpleAlloc.init buf s₀ = .ok () s₁)
    (events : List (Event w)) (s : RawSimpleAlloc w) (hrun : Run Step s₁ events s)
    (layout : Layout w) (hsize : 0 < layout.size.toNat) (p : ℕ)
    (hp : IsLeast {p | s.startAddr.toNat ≤ p ∧ layout.align.toNat ∣ p} p) :
    ((Succeeds s layout ↔ p + layout.size.toNat ≤ s.endAddr.toNat) ↔
        p + layout.size.toNat ≠ s.endAddr.toNat) ∧
      ∀ b ∈ blocks events, b.ptr.toNat + b.layout.size.toNat < buf.addr.toNat + buf.len.toNat := by
  obtain ⟨s₁', hinit', hcarved, -, hend⟩ := init_carved buf hlow s₀
  obtain ⟨-, rfl⟩ := EStateM.Result.ok.inj (hinit.symm.trans hinit')
  have hs := (hcarved.run hrun).lowerHalf
  have hcandidate : s.candidate layout = p :=
    (isLeast_alignUp layout.align_pos s.startAddr.toNat).unique hp
  constructor
  · rw [succeeds_iff hs hsize, hcandidate]
    constructor
    · intro hiff heq
      have hlt := hiff.mpr heq.le
      omega
    · intro hne
      omega
  · intro b hb
    rw [← hend]
    exact blocks_below hcarved hrun hb

/-- A buffer of 256 bytes that a line has been taken from, and a word asked for next. -/
theorem complete_iff_word :
    ((Succeeds (⟨4160, 4352⟩ : RawSimpleAlloc 32) wordLayout ↔ 4160 + 4 ≤ 4352) ↔
        4160 + 4 ≠ 4352) ∧
      ∀ b ∈ blocks [Event.allocated lineLayout 4096],
        b.ptr.toNat + b.layout.size.toNat < 4096 + 256 :=
  complete_iff (w := 32) ⟨4096, 256⟩ (by decide) .new ⟨4096, 4352⟩ rfl
    [.allocated lineLayout 4096] ⟨4160, 4352⟩ (.single (.allocated rfl)) wordLayout (by decide)
    4160 (isLeast_alignUp (show 0 < 4 by decide) 4160)

/-- A buffer of 64 bytes cannot be handed out as one line. -/
theorem whole_buffer_refused :
    ¬ ∀ (w : ℕ) (buf : Buffer w), buf.addr.toNat + buf.len.toNat ≤ 2 ^ (w - 1) →
      ∀ s₀ s₁ : RawSimpleAlloc w, RawSimpleAlloc.init buf s₀ = .ok () s₁ →
        ∀ events s, Run Step s₁ events s →
          ∀ layout : Layout w, 0 < layout.size.toNat → ∀ p,
            IsLeast {p | s.startAddr.toNat ≤ p ∧ layout.align.toNat ∣ p} p →
              (Succeeds s layout ↔ p + layout.size.toNat ≤ s.endAddr.toNat) := by
  intro h
  have hline := h 32 ⟨4096, 64⟩ (by decide) .new ⟨4096, 4160⟩ rfl [] _ (.nil _) lineLayout
    (by decide) 4096 (isLeast_alignUp (show 0 < 64 by decide) 4096)
  obtain ⟨ptr, t, hok⟩ := hline.mpr (by decide)
  cases hok

end InterferenceMitigation.AllocatorCapacity
