import InterferenceMitigation.BlockSafety
import InterferenceMitigation.DoubleProduct

/-!
The exported `main` of the Wasm payload, over any number of calls. The first call sets up the
allocator and builds the kernel, whose four matrices are allocated one after the other from
the static buffer; every call then runs the kernel once. Nothing is allocated after the
first call, so that the memory of the payload does not grow, however often it is invoked.
-/

namespace InterferenceMitigation.Payload

open DoubleProduct KernelArray MachineInt RangeLoop Regions SimpleAlloc

/-- The dimension of the kernel in the program. -/
abbrev dimension : ℕ := 312

/-- `ALLOC_BUF_LEN`. -/
def allocBufLen : U32 := 0x01000000

/-- The bytes of an array: each of its rows is padded to a multiple of 32 bytes. -/
def arraySize : ℕ := 99840

/-- `Layout::new::<Array2D<i8, N, N>>()`. -/
def arrayLayout : Layout 32 := ⟨99840, 32, ⟨5, rfl⟩, by decide⟩

theorem arrayLayout_size : arrayLayout.size.toNat = arraySize := rfl

theorem arraySize_dvd : 32 ∣ arraySize := by decide

/-- The addresses behind the boxes of the kernel. -/
structure Boxes where
  tmp : U32
  a : U32
  b : U32
  c : U32
  deriving DecidableEq, Repr

inductive Fault
  | alloc (fault : SimpleAlloc.Fault)
  | kernel (fault : KernelArray.Fault)
  deriving DecidableEq, Repr

/-- The statics of the payload, which last from one call to the next. -/
structure Statics (R : Type) where
  allocInit : Bool
  allocator : RawSimpleAlloc 32
  kernel : Option (Boxes × Kernel2MM R dimension)

variable {R : Type}

abbrev Main (R : Type) := EStateM Fault (Statics R)

def Statics.new : Statics R := ⟨false, .new, none⟩

def onAllocator {α : Type} (x : Alloc 32 α) : Main R α := fun s =>
  match x s.allocator with
  | .ok a allocator => .ok a { s with allocator := allocator }
  | .error fault allocator => .error (.alloc fault) { s with allocator := allocator }

/-- `ArrayAlloc::uninit`. -/
def uninit : Main R U32 := onAllocator (RawSimpleAlloc.alloc arrayLayout)

def kernelNew (gen : Rng R I8) : Main R (Boxes × Kernel2MM R dimension) := do
  let tmp ← uninit
  let a ← uninit
  let b ← uninit
  let c ← uninit
  return (⟨tmp, a, b, c⟩, DoubleProduct.new gen)

/-- `KERNEL.get_mut_or_init(|| Kernel2MM::new())`. -/
def getMutOrInit (gen : Rng R I8) : Main R (Boxes × Kernel2MM R dimension) := do
  match (← get).kernel with
  | some kernel => return kernel
  | none =>
    let kernel ← kernelNew gen
    modify fun s => { s with kernel := some kernel }
    return kernel

/-- `kernel.run()` through the reference to the static. -/
def runKernel (gen : Rng R I8) (boxes : Boxes) (kernel : Kernel2MM R dimension) :
    Main R Unit := fun s =>
  match DoubleProduct.run gen kernel with
  | .ok _ kernel => .ok () { s with kernel := some (boxes, kernel) }
  | .error fault kernel => .error (.kernel fault) { s with kernel := some (boxes, kernel) }

def initAllocator (buf : Buffer 32) : Main R Unit := do
  if !(← get).allocInit then
    onAllocator (RawSimpleAlloc.init buf)
    modify fun s => { s with allocInit := true }

def main (gen : Rng R I8) (buf : Buffer 32) : Main R Unit := do
  initAllocator buf
  let kernel ← getMutOrInit gen
  runKernel gen kernel.1 kernel.2

/-- The runner invokes `main` again and again. -/
def calls (gen : Rng R I8) (buf : Buffer 32) (n : ℕ) : Main R Unit :=
  (List.range n).forM fun _ => main gen buf

section Allocation

variable {s : Statics R} {p : ℕ}

theorem alignUp_of_dvd {align addr : ℕ} (hpos : 0 < align) (h : align ∣ addr) :
    alignUp align addr = addr :=
  Nat.le_antisymm (alignUp_le hpos le_rfl h) (le_alignUp align addr)

/-- An array at the next candidate address, with room above it. -/
theorem uninit_eq (hs : s.allocator.LowerHalf) (hp : s.allocator.candidate arrayLayout = p)
    (hroom : p + arraySize < s.allocator.endAddr.toNat) :
    ∃ ptr allocator, uninit s = .ok ptr { s with allocator := allocator } ∧ ptr.toNat = p ∧
      allocator.LowerHalf ∧ allocator.endAddr = s.allocator.endAddr ∧
      allocator.startAddr.toNat = p + arraySize ∧
      allocator.candidate arrayLayout = p + arraySize := by
  have halign : arrayLayout.align.toNat = 32 := rfl
  obtain ⟨ptr, next, hptr, hnext, heq⟩ := alloc_eq hs arrayLayout
  rw [hp, arrayLayout_size, if_pos ⟨by omega, hroom⟩] at heq
  rw [hp] at hptr
  rw [hp, arrayLayout_size] at hnext
  have hdvd : 32 ∣ p + arraySize := by
    have hfirst : 32 ∣ p := by
      rw [← hp, RawSimpleAlloc.candidate, halign]
      exact dvd_alignUp (by decide) _
    exact Nat.dvd_add hfirst arraySize_dvd
  refine ⟨ptr, ⟨next, s.allocator.endAddr⟩, ?_, hptr, ⟨?_, hs.low⟩, rfl, hnext, ?_⟩
  · rw [uninit, onAllocator, heq]
  · rw [hnext]
    exact hroom.le
  · rw [RawSimpleAlloc.candidate, halign, hnext]
    exact alignUp_of_dvd (by decide) hdvd

/-- The kernel's matrices lie one behind the other. -/
structure Consecutive (boxes : Boxes) (p : ℕ) : Prop where
  tmp : boxes.tmp.toNat = p
  a : boxes.a.toNat = p + arraySize
  b : boxes.b.toNat = p + 2 * arraySize
  c : boxes.c.toNat = p + 3 * arraySize

theorem kernelNew_eq (gen : Rng R I8) (hs : s.allocator.LowerHalf)
    (hp : s.allocator.candidate arrayLayout = p)
    (hroom : p + 4 * arraySize < s.allocator.endAddr.toNat) :
    ∃ boxes allocator, kernelNew gen s =
        .ok (boxes, DoubleProduct.new gen) { s with allocator := allocator } ∧
      Consecutive boxes p ∧ allocator.startAddr.toNat = p + 4 * arraySize ∧
      allocator.endAddr = s.allocator.endAddr := by
  obtain ⟨tmp, al₁, hrun₁, htmp, hs₁, hend₁, -, hp₁⟩ := uninit_eq hs hp (by omega)
  obtain ⟨a, al₂, hrun₂, ha, hs₂, hend₂, -, hp₂⟩ :=
    uninit_eq (s := { s with allocator := al₁ }) hs₁ hp₁ (by rw [hend₁]; omega)
  obtain ⟨b, al₃, hrun₃, hb, hs₃, hend₃, -, hp₃⟩ :=
    uninit_eq (s := { s with allocator := al₂ }) hs₂ hp₂ (by rw [hend₂, hend₁]; omega)
  obtain ⟨c, al₄, hrun₄, hc, -, hend₄, hstart, -⟩ :=
    uninit_eq (s := { s with allocator := al₃ }) hs₃ hp₃ (by rw [hend₃, hend₂, hend₁]; omega)
  refine ⟨⟨tmp, a, b, c⟩, al₄, ?_, ⟨htmp, ha, hb.trans (by omega), hc.trans (by omega)⟩,
    hstart.trans (by omega), by rw [hend₄, hend₃, hend₂, hend₁]⟩
  rw [kernelNew, run_bind hrun₁, run_bind hrun₂, run_bind hrun₃, run_bind hrun₄]
  rfl

end Allocation

section Calls

variable (gen : Rng R I8) {buf : Buffer 32}

/-- A buffer of the length of the program, in the lower half of the address space. -/
structure Placed (buf : Buffer 32) : Prop where
  len : buf.len = allocBufLen
  low : buf.addr.toNat + buf.len.toNat ≤ 2 ^ 31

/-- Where the first matrix lies. -/
def base (buf : Buffer 32) : ℕ := alignUp 32 buf.addr.toNat

/-- The four matrices take less than the buffer has. -/
theorem Placed.room (h : Placed buf) :
    base buf + 4 * arraySize < buf.addr.toNat + buf.len.toNat := by
  have hlen : buf.len.toNat = 0x01000000 := by
    rw [h.len]
    rfl
  have hbase : base buf < buf.addr.toNat + 32 := alignUp_lt (by decide) _
  have hsize : arraySize = 99840 := rfl
  omega

/-- The allocator is set up over the whole buffer. -/
theorem initAllocator_eq (h : Placed buf) :
    ∃ allocator, initAllocator buf (Statics.new : Statics R) =
        .ok () ⟨true, allocator, none⟩ ∧
      allocator.LowerHalf ∧ allocator.startAddr = buf.addr ∧
      allocator.endAddr.toNat = buf.addr.toNat + buf.len.toNat := by
  obtain ⟨allocator, hinit, hcarved, hstart, hend⟩ :=
    BlockSafety.init_carved buf h.low RawSimpleAlloc.new
  refine ⟨allocator, ?_, hcarved.lowerHalf, hstart, hend⟩
  have hset : onAllocator (RawSimpleAlloc.init buf) (Statics.new : Statics R) =
      .ok () ⟨false, allocator, none⟩ := by
    simp only [onAllocator, Statics.new, hinit]
  have hget : initAllocator buf (Statics.new : Statics R) =
      (do
        onAllocator (RawSimpleAlloc.init buf)
        modify fun s : Statics R => { s with allocInit := true }) Statics.new := rfl
  rw [hget, run_bind hset]
  rfl

/-- The addresses after the first call and after every later one. -/
structure Built (buf : Buffer 32) (boxes : Boxes) (allocator : RawSimpleAlloc 32) : Prop where
  boxes : Consecutive boxes (base buf)
  inside : base buf + 4 * arraySize < buf.addr.toNat + buf.len.toNat
  startAddr : allocator.startAddr.toNat = base buf + 4 * arraySize
  endAddr : allocator.endAddr.toNat = buf.addr.toNat + buf.len.toNat

/-- The first call builds the kernel. -/
theorem main_first (h : Placed buf) :
    ∃ boxes allocator, Built buf boxes allocator ∧
      main gen buf Statics.new = runKernel gen boxes (DoubleProduct.new gen)
        ⟨true, allocator, some (boxes, DoubleProduct.new gen)⟩ := by
  obtain ⟨first, hinit, hlow, hstart, hend⟩ := initAllocator_eq (R := R) h
  have hcandidate : first.candidate arrayLayout = base buf := by
    rw [RawSimpleAlloc.candidate, hstart]
    rfl
  obtain ⟨boxes, allocator, hnew, hboxes, hstart', hend'⟩ :=
    kernelNew_eq gen (s := ⟨true, first, none⟩) hlow hcandidate (by rw [hend]; exact h.room)
  refine ⟨boxes, allocator, ⟨hboxes, h.room, hstart', by rw [hend']; exact hend⟩, ?_⟩
  have hbuilt : getMutOrInit gen (⟨true, first, none⟩ : Statics R) =
      .ok (boxes, DoubleProduct.new gen)
        ⟨true, allocator, some (boxes, DoubleProduct.new gen)⟩ := by
    have hget : getMutOrInit gen (⟨true, first, none⟩ : Statics R) =
        (kernelNew gen >>= fun kernel => do
          modify fun s => { s with kernel := some kernel }
          return kernel) ⟨true, first, none⟩ := rfl
    rw [hget, run_bind hnew]
    rfl
  rw [main, run_bind hinit, run_bind hbuilt]

/-- A later call runs the kernel that is there. -/
theorem main_later (boxes : Boxes) (allocator : RawSimpleAlloc 32)
    (kernel : Kernel2MM R dimension) :
    main gen buf ⟨true, allocator, some (boxes, kernel)⟩ =
      runKernel gen boxes kernel ⟨true, allocator, some (boxes, kernel)⟩ := rfl

theorem runKernel_eq (boxes : Boxes) {kernel kernel' : Kernel2MM R dimension} {s : Statics R}
    (h : DoubleProduct.run gen kernel = .ok ⟨⟩ kernel') :
    runKernel gen boxes kernel s = .ok () { s with kernel := some (boxes, kernel') } := by
  rw [runKernel, h]

/-- The statics between the calls: after `n` of them, if the first allocated these boxes. -/
def staticsAfter (boxes : Boxes) (allocator : RawSimpleAlloc 32) (rng : R)
    (A B C : Matrix (Fin dimension) (Fin dimension) I8) (n : ℕ) : Statics R :=
  if n = 0 then .new
  else ⟨true, allocator, some (boxes, after gen rng .uninit A B C n)⟩

/-- Every call of `main` returns. The four matrices are the only allocations, made in the
first call and lying one behind the other from the first aligned address of the buffer, and
after `n` calls the kernel holds the product that `n` runs compute. -/
theorem calls_product (buf : Buffer 32) (h : Placed buf) :
    ∃ boxes allocator rng, ∃ A B C : Matrix (Fin dimension) (Fin dimension) I8,
      Built buf boxes allocator ∧
      DoubleProduct.new gen = ⟨rng, .uninit, .full A, .full B, .full C⟩ ∧
      ∀ n, ∃ kernel, calls gen buf (n + 1) Statics.new =
          .ok ⟨⟩ ⟨true, allocator, some (boxes, kernel)⟩ ∧
        kernel.a = .full ((∏ k ∈ Finset.range (n + 1),
          alpha gen rng k * beta gen rng k) • (A * (B * C) ^ (n + 1))) ∧
        kernel.b = .full B ∧ kernel.c = .full C := by
  obtain ⟨rng, A, B, C, hnew⟩ := new_eq (N := dimension) gen
  obtain ⟨boxes, allocator, hbuilt, hfirst⟩ := main_first gen h
  refine ⟨boxes, allocator, rng, A, B, C, hbuilt, hnew, ?_⟩
  have hzero : DoubleProduct.new gen = after gen rng .uninit A B C 0 := by
    rw [hnew, after_zero]
  have hstep : ∀ k, main gen buf (staticsAfter gen boxes allocator rng A B C k) =
      .ok ⟨⟩ (staticsAfter gen boxes allocator rng A B C (k + 1)) := by
    intro k
    cases k with
    | zero => exact hfirst.trans (runKernel_eq gen boxes (by rw [hzero]; exact run_after ..))
    | succ k =>
      exact (main_later gen boxes allocator _).trans (runKernel_eq gen boxes (run_after ..))
  intro n
  refine ⟨after gen rng .uninit A B C (n + 1), ?_, rfl, rfl, rfl⟩
  exact forM_range (staticsAfter gen boxes allocator rng A B C) (n + 1) fun k _ => hstep k

/-- A generator of ones. -/
def ones : Rng Unit I8 := ⟨fun _ => (), fun _ => (1, ()), fun _ _ => (fun _ => 1, ())⟩

def placedBuf : Buffer 32 := ⟨0x00100010, allocBufLen⟩

theorem calls_product_ones : ∃ boxes allocator kernel,
    calls ones placedBuf 3 Statics.new = .ok ⟨⟩ ⟨true, allocator, some (boxes, kernel)⟩ ∧
      boxes.tmp.toNat = 0x00100020 ∧ boxes.c.toNat = 0x00100020 + 3 * 99840 := by
  obtain ⟨boxes, allocator, rng, A, B, C, hbuilt, -, hcalls⟩ :=
    calls_product ones placedBuf ⟨rfl, by decide⟩
  obtain ⟨kernel, hrun, -⟩ := hcalls 2
  exact ⟨boxes, allocator, kernel, hrun, hbuilt.boxes.tmp.trans (by decide),
    hbuilt.boxes.c.trans (by decide)⟩

end Calls

end InterferenceMitigation.Payload
