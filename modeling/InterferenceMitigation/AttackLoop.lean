import InterferenceMitigation.DyadicOrbit
import InterferenceMitigation.MachineInt

/-!
The loop with which an intruder core writes to its buffer. An index runs through a
pseudo-random sequence within the buffer, and the address it gives is masked so that only
chosen sets of the cache are written to. The sequence reaches all lines of the buffer, so
that the lines written are all those of the chosen sets.
-/

namespace InterferenceMitigation.AttackLoop

open MachineInt DyadicOrbit

def cacheSizeBits : ℕ := 20

def cacheLineBits : ℕ := 6

def cacheWaysBits : ℕ := 4

def cacheSetBits : ℕ := cacheSizeBits - (cacheLineBits + cacheWaysBits)

/-- The static array of three buffers, each aligned at its size. -/
structure CacheBuf where
  base : ℕ
  aligned : 2 ^ cacheSizeBits ∣ base
  fits : base + 3 * 2 ^ cacheSizeBits ≤ 2 ^ 64

/-- The address of the element that a core uses. -/
def CacheBuf.start (buf : CacheBuf) (cpuIdx : ℕ) : ℕ :=
  buf.base + (cpuIdx - 1) * 2 ^ cacheSizeBits

def tagMask : U64 := BitVec.allOnes 64 <<< (cacheSetBits + cacheLineBits)

/-- A value of type `isize`, unless it overflows. -/
def isize (panic : Panic) (x : ℤ) : Except Panic ℤ :=
  if -2 ^ 63 ≤ x ∧ x < 2 ^ 63 then .ok x else .error panic

/-- The prime that spreads the addresses. -/
def prime : ℕ := 1000003

def nextIndex (cpuIdx : ℕ) (i : ℤ) : Except Panic ℤ := do
  let sum ← isize .addOverflow (i + cpuIdx)
  let product ← isize .mulOverflow (sum * prime)
  return product.tmod (2 ^ cacheSizeBits)

/-- `byte_offset` from the start of the element. -/
def byteOffset (buf : CacheBuf) (cpuIdx : ℕ) (i : ℤ) : U64 :=
  BitVec.ofNat 64 (buf.start cpuIdx) + BitVec.ofInt 64 i

def masked (setMask x : U64) : U64 := x &&& (tagMask ||| setMask <<< cacheLineBits)

/-- A write of the loop, with the index it was computed from. -/
structure Write where
  index : ℤ
  addr : U64
  deriving DecidableEq, Repr

def write (buf : CacheBuf) (cpuIdx : ℕ) (setMask : U64) (i : ℤ) : Write :=
  ⟨i, masked setMask (byteOffset buf cpuIdx i)⟩

/-- The body of the loop, which does not write while the mask is zero. -/
def iteration (buf : CacheBuf) (cpuIdx : ℕ) (setMask : U64) (i : ℤ) :
    Except Panic (ℤ × Option Write) :=
  if setMask = 0 then .ok (i, none)
  else do
    let i ← nextIndex cpuIdx i
    return (i, some (write buf cpuIdx setMask i))

/-- The index and the writes after a number of iterations. -/
def iterations (buf : CacheBuf) (cpuIdx : ℕ) (setMask : U64) :
    ℕ → Except Panic (ℤ × List Write)
  | 0 => .ok (0, [])
  | n + 1 => do
    let before ← iterations buf cpuIdx setMask n
    let after ← iteration buf cpuIdx setMask before.1
    return (after.1, before.2 ++ after.2.toList)

/-- The bits of an address that select the set. -/
def setField : U64 := 0x3FF

def line (addr : U64) : U64 := addr >>> cacheLineBits

def setIndex (addr : U64) : U64 := addr >>> cacheLineBits &&& setField

def InElement (buf : CacheBuf) (cpuIdx : ℕ) (addr : U64) : Prop :=
  buf.start cpuIdx ≤ addr.toNat ∧ addr.toNat < buf.start cpuIdx + 2 ^ cacheSizeBits

section Run

variable {cpuIdx : ℕ}

theorem isize_ok (panic : Panic) {x : ℕ} (h : x < 2 ^ 63) : isize panic x = .ok (x : ℤ) := by
  rw [isize, if_pos]
  omega

theorem tmod_natCast (y : ℕ) : (y : ℤ).tmod (2 ^ cacheSizeBits) = (y % 2 ^ 20 : ℕ) := by
  rw [Int.ofNat_tmod]
  norm_cast

/-- The index stays far below the bounds of `isize`. -/
theorem nextIndex_eq (hcpu : cpuIdx ≤ 3) {x : ℕ} (hx : x < 2 ^ 20) :
    nextIndex cpuIdx x = .ok ((x + cpuIdx) * prime % 2 ^ 20 : ℕ) := by
  have hsum : isize .addOverflow ((x : ℤ) + cpuIdx) = .ok ((x + cpuIdx : ℕ) : ℤ) := by
    rw [← Nat.cast_add]
    exact isize_ok _ (by omega)
  have hproduct : isize .mulOverflow (((x + cpuIdx : ℕ) : ℤ) * prime) =
      .ok (((x + cpuIdx) * prime : ℕ) : ℤ) := by
    have hcast : ((x + cpuIdx : ℕ) : ℤ) * prime = (((x + cpuIdx) * prime : ℕ) : ℤ) := by
      push_cast
      ring
    have hbound : (x + cpuIdx) * prime < 2 ^ 63 := by
      rw [prime]
      omega
    rw [hcast, isize_ok _ hbound]
  rw [nextIndex, hsum, ok_bind, hproduct, ok_bind, tmod_natCast]
  rfl

theorem iterations_eq (buf : CacheBuf) (hcpu : cpuIdx ≤ 3) {setMask : U64} (hmask : setMask ≠ 0)
    (n : ℕ) :
    iterations buf cpuIdx setMask n = .ok (orbit prime cpuIdx 20 n,
      (List.range n).map fun k => write buf cpuIdx setMask (orbit prime cpuIdx 20 (k + 1))) := by
  induction n with
  | zero => rfl
  | succ n ih =>
    have hiteration : iteration buf cpuIdx setMask (orbit prime cpuIdx 20 n) =
        .ok (orbit prime cpuIdx 20 (n + 1),
          some (write buf cpuIdx setMask (orbit prime cpuIdx 20 (n + 1)))) := by
      rw [iteration, if_neg hmask, nextIndex_eq hcpu (orbit_lt _ _ _ n)]
      rfl
    rw [iterations, ih, ok_bind, hiteration, ok_bind, List.range_succ, List.map_append]
    rfl

theorem iterations_unmasked (buf : CacheBuf) (n : ℕ) :
    iterations buf cpuIdx 0 n = .ok (0, []) := by
  induction n with
  | zero => rfl
  | succ n ih =>
    rw [iterations, ih]
    rfl

end Run

end InterferenceMitigation.AttackLoop
