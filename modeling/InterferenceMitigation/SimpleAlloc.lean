import InterferenceMitigation.MachineInt
import InterferenceMitigation.Regions
import InterferenceMitigation.Transition

/-!
The allocator shared by the bare-metal program and the Wasm payload. It hands out its
buffer from the front and never takes a block back. Addresses have the width of the
target; adding to a pointer is a fault of its own when it leaves the address space. A
failing allocation is a panic, and what follows it is whatever the caller does next.
-/

namespace InterferenceMitigation.SimpleAlloc

open MachineInt Regions Transition

variable {w : ℕ}

/-- The size and alignment of a request. The alignment is a power of two, and the size
rounded up to it stays within a signed address. -/
structure Layout (w : ℕ) where
  size : BitVec w
  align : BitVec w
  align_pow : ∃ k, align.toNat = 2 ^ k
  fits : size.toNat + align.toNat ≤ 2 ^ (w - 1)

structure Buffer (w : ℕ) where
  addr : BitVec w
  len : BitVec w
  deriving DecidableEq, Repr

structure RawSimpleAlloc (w : ℕ) where
  startAddr : BitVec w
  endAddr : BitVec w
  deriving DecidableEq, Repr

inductive Fault
  | wrapped
  | panicked (panic : Panic)
  deriving DecidableEq, Repr

def Fault.outOfMemory : Fault := .panicked (.message "alloc failed: out of memory.")

abbrev Alloc (w : ℕ) := EStateM Fault (RawSimpleAlloc w)

/-- `byte_add`, which must stay within the address space. -/
def byteAdd (ptr count : BitVec w) : Alloc w (BitVec w) :=
  if ptr.toNat + count.toNat < 2 ^ w then pure (ptr + count) else throw .wrapped

/-- `align_offset` of a byte pointer. -/
def alignOffset (ptr align : BitVec w) : BitVec w := (align - ptr % align) % align

namespace RawSimpleAlloc

def new : RawSimpleAlloc w := ⟨0, 0⟩

def init (buf : Buffer w) : Alloc w Unit := do
  modify fun s => { s with startAddr := buf.addr }
  let endAddr ← byteAdd buf.addr buf.len
  modify fun s => { s with endAddr := endAddr }

def alloc (layout : Layout w) : Alloc w (BitVec w) := do
  let s ← get
  let endPtr := s.endAddr
  let ptr ← byteAdd s.startAddr (alignOffset s.startAddr layout.align)
  let nextPtr ← byteAdd ptr layout.size
  if ptr ≥ endPtr ∨ nextPtr ≥ endPtr then
    throw .outOfMemory
  else
    set (⟨nextPtr, endPtr⟩ : RawSimpleAlloc w)
    return ptr

def dealloc (_ptr : BitVec w) (_layout : Layout w) : Alloc w Unit := pure ()

end RawSimpleAlloc

/-- One call and what came of it. -/
inductive Event (w : ℕ)
  | allocated (layout : Layout w) (ptr : BitVec w)
  | failed (layout : Layout w) (fault : Fault)
  | deallocated (ptr : BitVec w) (layout : Layout w)

inductive Step : RawSimpleAlloc w → Event w → RawSimpleAlloc w → Prop
  | allocated {s t : RawSimpleAlloc w} {layout : Layout w} {ptr : BitVec w}
      (h : RawSimpleAlloc.alloc layout s = .ok ptr t) : Step s (.allocated layout ptr) t
  | failed {s t : RawSimpleAlloc w} {layout : Layout w} {fault : Fault}
      (h : RawSimpleAlloc.alloc layout s = .error fault t) : Step s (.failed layout fault) t
  | deallocated {s t : RawSimpleAlloc w} {layout : Layout w} {ptr : BitVec w}
      (h : RawSimpleAlloc.dealloc ptr layout s = .ok () t) : Step s (.deallocated ptr layout) t

structure Block (w : ℕ) where
  ptr : BitVec w
  layout : Layout w

/-- The first address of a block and the address after its last. -/
def Block.region (b : Block w) : ℕ × ℕ := (b.ptr.toNat, b.ptr.toNat + b.layout.size.toNat)

def Block.addresses (b : Block w) : Set ℕ := Set.Ico b.region.1 b.region.2

def Event.block : Event w → Option (Block w)
  | .allocated layout ptr => some ⟨ptr, layout⟩
  | _ => none

/-- The blocks returned by a sequence of calls, in order. -/
def blocks (events : List (Event w)) : List (Block w) := events.filterMap Event.block

section Spec

theorem Layout.align_pos (layout : Layout w) : 0 < layout.align.toNat := by
  obtain ⟨k, hk⟩ := layout.align_pow
  rw [hk]
  exact Nat.two_pow_pos k

theorem Layout.width_pos (layout : Layout w) : 0 < w := by
  apply Nat.pos_of_ne_zero
  rintro rfl
  have hpos := layout.align_pos
  have hlt := layout.align.isLt
  omega

/-- The middle of the address space is a multiple of every alignment. -/
theorem Layout.align_dvd_half (layout : Layout w) : layout.align.toNat ∣ 2 ^ (w - 1) := by
  obtain ⟨k, hk⟩ := layout.align_pow
  have hle : 2 ^ k ≤ 2 ^ (w - 1) := by
    have hfits := layout.fits
    omega
  rw [hk]
  exact Nat.pow_dvd_pow 2 ((Nat.pow_le_pow_iff_right (by omega)).mp hle)

theorem toNat_alignOffset (ptr : BitVec w) (layout : Layout w) :
    (alignOffset ptr layout.align).toNat = padding layout.align.toNat ptr.toNat := by
  have hlt : ptr.toNat % layout.align.toNat < layout.align.toNat := Nat.mod_lt _ layout.align_pos
  have hle : ptr % layout.align ≤ layout.align := by
    rw [BitVec.le_def, BitVec.toNat_umod]
    omega
  rw [alignOffset, BitVec.toNat_umod, BitVec.toNat_sub_of_le hle, BitVec.toNat_umod, padding]

theorem byteAdd_eq {ptr count : BitVec w} (h : ptr.toNat + count.toNat < 2 ^ w) :
    (byteAdd ptr count : Alloc w (BitVec w)) = pure (ptr + count) := if_pos h

theorem get_bind {α : Type} (f : RawSimpleAlloc w → Alloc w α) (s : RawSimpleAlloc w) :
    (get >>= f) s = f s s := rfl

/-- The buffer that is left lies in the lower half of the address space. -/
structure RawSimpleAlloc.LowerHalf (s : RawSimpleAlloc w) : Prop where
  ordered : s.startAddr.toNat ≤ s.endAddr.toNat
  low : s.endAddr.toNat ≤ 2 ^ (w - 1)

theorem RawSimpleAlloc.new_lowerHalf : (new : RawSimpleAlloc w).LowerHalf :=
  ⟨le_rfl, by simp [new]⟩

/-- The least aligned address at which a block can start. -/
def RawSimpleAlloc.candidate (s : RawSimpleAlloc w) (layout : Layout w) : ℕ :=
  alignUp layout.align.toNat s.startAddr.toNat

variable {s t : RawSimpleAlloc w} {layout : Layout w}

/-- Neither addition wraps: the aligned address is at most the middle of the address space,
and the size is less than what lies above it. -/
theorem RawSimpleAlloc.LowerHalf.candidate_lt (h : s.LowerHalf) (layout : Layout w) :
    s.candidate layout + layout.size.toNat < 2 ^ w := by
  have hhalf : s.candidate layout ≤ 2 ^ (w - 1) :=
    alignUp_le layout.align_pos (h.ordered.trans h.low) layout.align_dvd_half
  have hfits := layout.fits
  have hpos := layout.align_pos
  have hwidth : 2 ^ w = 2 * 2 ^ (w - 1) := by
    rw [← Nat.pow_succ', Nat.succ_eq_add_one, Nat.sub_add_cancel layout.width_pos]
  omega

/-- An allocation takes the block at the candidate address, or panics and changes nothing. -/
theorem alloc_eq (h : s.LowerHalf) (layout : Layout w) :
    ∃ ptr next : BitVec w, ptr.toNat = s.candidate layout ∧
      next.toNat = s.candidate layout + layout.size.toNat ∧
      RawSimpleAlloc.alloc layout s =
        if s.candidate layout < s.endAddr.toNat ∧
            s.candidate layout + layout.size.toNat < s.endAddr.toNat then
          .ok ptr ⟨next, s.endAddr⟩
        else .error .outOfMemory s := by
  have hlt := h.candidate_lt layout
  have hoffset : s.startAddr.toNat + (alignOffset s.startAddr layout.align).toNat =
      s.candidate layout := by
    rw [toNat_alignOffset]
    rfl
  have hfirst : s.startAddr.toNat + (alignOffset s.startAddr layout.align).toNat < 2 ^ w := by
    omega
  have hptr : (s.startAddr + alignOffset s.startAddr layout.align).toNat = s.candidate layout := by
    rw [BitVec.toNat_add_of_lt hfirst, hoffset]
  have hsecond : (s.startAddr + alignOffset s.startAddr layout.align).toNat +
      layout.size.toNat < 2 ^ w := by
    omega
  refine ⟨_, s.startAddr + alignOffset s.startAddr layout.align + layout.size, hptr, ?_, ?_⟩
  · rw [BitVec.toNat_add_of_lt hsecond, hptr]
  · rw [RawSimpleAlloc.alloc, get_bind]
    simp only [byteAdd_eq hfirst, byteAdd_eq hsecond, pure_bind, ge_iff_le, BitVec.le_def, hptr,
      BitVec.toNat_add_of_lt hsecond]
    by_cases hroom : s.candidate layout < s.endAddr.toNat ∧
        s.candidate layout + layout.size.toNat < s.endAddr.toNat
    · have hfull : ¬ (s.endAddr.toNat ≤ s.candidate layout ∨
          s.endAddr.toNat ≤ s.candidate layout + layout.size.toNat) := by
        omega
      rw [if_neg hfull, if_pos hroom]
      rfl
    · have hfull : s.endAddr.toNat ≤ s.candidate layout ∨
          s.endAddr.toNat ≤ s.candidate layout + layout.size.toNat := by
        omega
      rw [if_pos hfull, if_neg hroom]
      rfl

end Spec

end InterferenceMitigation.SimpleAlloc
