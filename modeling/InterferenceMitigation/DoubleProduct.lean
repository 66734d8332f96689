import InterferenceMitigation.KernelArray
import InterferenceMitigation.RangeLoop
import Mathlib.Algebra.BigOperators.Fin
import Mathlib.Data.BitVec
import Mathlib.Data.Matrix.Mul

/-!
The kernel that the payload runs: a double matrix product over wrapping 8-bit integers,
computed in place. Its result is the one that matrix algebra modulo 256 gives, and on
the way no index is out of bounds and no cell is read that was not written.
-/

namespace InterferenceMitigation.DoubleProduct

open KernelArray RangeLoop

abbrev I8 := BitVec 8

/-- The kernel of the program for matrices of dimension `N`. -/
structure Kernel2MM (R : Type) (N : ℕ) where
  rng : R
  tmp : Array2D I8 N N
  a : Array2D I8 N N
  b : Array2D I8 N N
  c : Array2D I8 N N

inductive Field
  | tmp
  | a
  | b
  | c
  deriving DecidableEq, Repr

variable {R : Type} {N : ℕ}

namespace Kernel2MM

def get (s : Kernel2MM R N) : Field → Array2D I8 N N
  | .tmp => s.tmp
  | .a => s.a
  | .b => s.b
  | .c => s.c

def put (s : Kernel2MM R N) (f : Field) (x : Array2D I8 N N) : Kernel2MM R N :=
  match f with
  | .tmp => { s with tmp := x }
  | .a => { s with a := x }
  | .b => { s with b := x }
  | .c => { s with c := x }

@[simp] theorem get_put (s : Kernel2MM R N) (f : Field) (x : Array2D I8 N N) :
    (s.put f x).get f = x := by
  cases f <;> rfl

theorem get_put_of_ne (s : Kernel2MM R N) {f g : Field} (h : f ≠ g) (x : Array2D I8 N N) :
    (s.put f x).get g = s.get g := by
  cases f <;> cases g <;> first | rfl | exact absurd rfl h

@[simp] theorem put_put (s : Kernel2MM R N) (f : Field) (x y : Array2D I8 N N) :
    (s.put f x).put f y = s.put f y := by
  cases f <;> rfl

@[simp] theorem put_get (s : Kernel2MM R N) (f : Field) : s.put f (s.get f) = s := by
  cases f <;> rfl

end Kernel2MM

abbrev Kernel (R : Type) (N : ℕ) := EStateM Fault (Kernel2MM R N)

def load (f : Field) (i j : ℕ) : Kernel R N I8 := fun s =>
  match (s.get f).load i j with
  | .ok x => .ok x s
  | .error fault => .error fault s

def store (f : Field) (i j : ℕ) (x : I8) : Kernel R N PUnit := fun s =>
  match (s.get f).store i j x with
  | .ok array => .ok ⟨⟩ (s.put f array)
  | .error fault => .error fault s

def random (gen : Rng R I8) : Kernel R N I8 := fun s =>
  .ok (gen.random s.rng).1 { s with rng := (gen.random s.rng).2 }

def new (gen : Rng R I8) : Kernel2MM R N :=
  let rng := gen.seedFromU64 123
  let a := Array2D.uninit.fillRand gen rng
  let b := Array2D.uninit.fillRand gen a.2
  let c := Array2D.uninit.fillRand gen b.2
  ⟨c.2, .uninit, a.1, b.1, c.1⟩

section Accumulate

variable (dst : Field) (scalar : I8) (left right : Field)

/-- The body of the innermost loop. -/
def accumulateTerm (i j k : ℕ) : Kernel R N PUnit := do
  let sum ← load dst i j
  let x ← load left i k
  let y ← load right k j
  store dst i j (sum + scalar * (x * y))

def accumulateCell (i j : ℕ) : Kernel R N PUnit := do
  store dst i j 0
  (List.range N).forM fun k => accumulateTerm dst scalar left right i j k

/-- The loop nest of `run` that sets `dst` from `left` and `right`; its two nests differ
in the arrays and the scalar. -/
def accumulate : Kernel R N PUnit :=
  (List.range N).forM fun i =>
    (List.range N).forM fun j => accumulateCell dst scalar left right i j

end Accumulate

def run (gen : Rng R I8) : Kernel R N PUnit := do
  let alpha ← random gen
  let beta ← random gen
  accumulate .tmp alpha .a .b
  accumulate .a beta .tmp .c

section Accumulate

variable {dst left right : Field} {scalar : I8} {X Y : Matrix (Fin N) (Fin N) I8}
  {s : Kernel2MM R N}

theorem load_eq {f : Field} {i j : ℕ} {x : I8} (h : (s.get f).load i j = .ok x) :
    load f i j s = .ok x s := by
  rw [load, h]

theorem store_eq (f : Field) (i j : Fin N) (x : I8) :
    store f i j x s = .ok ⟨⟩ (s.put f ((s.get f).set i j x)) := by
  rw [store, Array2D.store_eq _ i.isLt j.isLt]

/-- What cell `(i, j)` holds after `k` terms. -/
def partialSum (scalar : I8) (X Y : Matrix (Fin N) (Fin N) I8) (i j : Fin N) (k : ℕ) : I8 :=
  ∑ m ∈ Finset.range k, if h : m < N then scalar * (X i ⟨m, h⟩ * Y ⟨m, h⟩ j) else 0

theorem partialSum_succ (i j k : Fin N) :
    partialSum scalar X Y i j (k.val + 1) =
      partialSum scalar X Y i j k.val + scalar * (X i k * Y k j) := by
  rw [partialSum, Finset.sum_range_succ, dif_pos k.isLt]
  rfl

theorem partialSum_all (i j : Fin N) :
    partialSum scalar X Y i j N = (scalar • (X * Y)) i j := by
  rw [partialSum, Finset.sum_range, Matrix.smul_apply, Matrix.mul_apply, smul_eq_mul,
    Finset.mul_sum]
  refine Finset.sum_congr rfl fun m _ => ?_
  exact dif_pos m.isLt

/-- One term is added to the cell at `(i, j)`. -/
theorem accumulateTerm_eq (hleft : s.get left = .full X) (hright : s.get right = .full Y)
    (hl : dst ≠ left) (hr : dst ≠ right) (D : Array2D I8 N N) (i j k : Fin N) (v : I8) :
    accumulateTerm dst scalar left right i j k (s.put dst (D.set i j v)) =
      .ok ⟨⟩ (s.put dst (D.set i j (v + scalar * (X i k * Y k j)))) := by
  have hsum : load dst i j (s.put dst (D.set i j v)) = .ok v (s.put dst (D.set i j v)) := by
    apply load_eq
    rw [Kernel2MM.get_put]
    exact Array2D.load_set D i j v
  have hx : load left i k (s.put dst (D.set i j v)) =
      .ok (X i k) (s.put dst (D.set i j v)) := by
    apply load_eq
    rw [Kernel2MM.get_put_of_ne s hl, hleft]
    exact Array2D.load_full X i.isLt k.isLt
  have hy : load right k j (s.put dst (D.set i j v)) =
      .ok (Y k j) (s.put dst (D.set i j v)) := by
    apply load_eq
    rw [Kernel2MM.get_put_of_ne s hr, hright]
    exact Array2D.load_full Y k.isLt j.isLt
  rw [accumulateTerm, run_bind hsum, run_bind hx, run_bind hy, store_eq, Kernel2MM.get_put,
    Array2D.set_set, Kernel2MM.put_put]

theorem accumulateCell_eq (hleft : s.get left = .full X) (hright : s.get right = .full Y)
    (hl : dst ≠ left) (hr : dst ≠ right) (D : Array2D I8 N N) (i j : Fin N) :
    accumulateCell dst scalar left right i j (s.put dst D) =
      .ok ⟨⟩ (s.put dst (D.set i j ((scalar • (X * Y)) i j))) := by
  have hclear : store dst i j 0 (s.put dst D) =
      .ok ⟨⟩ (s.put dst (D.set i j (partialSum scalar X Y i j 0))) := by
    rw [store_eq, Kernel2MM.get_put, Kernel2MM.put_put]
    rfl
  rw [accumulateCell, run_bind hclear, ← partialSum_all]
  refine forM_range (fun k => s.put dst (D.set i j (partialSum scalar X Y i j k))) N ?_
  intro k hk
  rw [partialSum_succ i j ⟨k, hk⟩]
  exact accumulateTerm_eq hleft hright hl hr D i j ⟨k, hk⟩ _

/-- A loop nest leaves a scaled matrix product in its destination and nothing else. -/
theorem accumulate_eq (hleft : s.get left = .full X) (hright : s.get right = .full Y)
    (hl : dst ≠ left) (hr : dst ≠ right) :
    accumulate dst scalar left right s =
      .ok ⟨⟩ (s.put dst (.full (scalar • (X * Y)))) := by
  set V := scalar • (X * Y) with hV
  have hrow : ∀ i, i < N →
      (List.range N).forM (accumulateCell dst scalar left right i)
        (s.put dst ((s.get dst).writtenTo V i 0)) =
        .ok ⟨⟩ (s.put dst ((s.get dst).writtenTo V (i + 1) 0)) := by
    intro i hi
    rw [← Array2D.writtenTo_row]
    refine forM_range (fun j => s.put dst ((s.get dst).writtenTo V i j)) N ?_
    intro j hj
    rw [← Array2D.writtenTo_set _ V hi hj]
    exact accumulateCell_eq hleft hright hl hr _ ⟨i, hi⟩ ⟨j, hj⟩
  have hall := forM_range (fun i => s.put dst ((s.get dst).writtenTo V i 0)) N hrow
  rw [Array2D.writtenTo_start, Array2D.writtenTo_end, Kernel2MM.put_get] at hall
  exact hall

end Accumulate

section Runs

variable (gen : Rng R I8) (rng : R)

/-- The state of the generator before call `k` of `run`, each of which draws twice. -/
def rngBefore : ℕ → R
  | 0 => rng
  | k + 1 => (gen.random (gen.random (rngBefore k)).2).2

def alpha (k : ℕ) : I8 := (gen.random (rngBefore gen rng k)).1

def beta (k : ℕ) : I8 := (gen.random (gen.random (rngBefore gen rng k)).2).1

/-- The calls of `run` that the payload makes one after the other. -/
def runs (n : ℕ) : Kernel R N PUnit := (List.range n).forM fun _ => run gen

variable (tmp : Array2D I8 N N) (A B C : Matrix (Fin N) (Fin N) I8)

theorem run_eq (k : ℕ) :
    run gen ⟨rngBefore gen rng k, tmp, .full A, .full B, .full C⟩ =
      .ok ⟨⟩ ⟨rngBefore gen rng (k + 1), .full (alpha gen rng k • (A * B)),
        .full (beta gen rng k • (alpha gen rng k • (A * B) * C)), .full B, .full C⟩ := by
  have hfirst : accumulate .tmp (alpha gen rng k) .a .b
      ⟨rngBefore gen rng (k + 1), tmp, .full A, .full B, .full C⟩ = .ok ⟨⟩
      ⟨rngBefore gen rng (k + 1), .full (alpha gen rng k • (A * B)), .full A, .full B,
        .full C⟩ := accumulate_eq rfl rfl (by decide) (by decide)
  have hsecond : accumulate .a (beta gen rng k) .tmp .c
      ⟨rngBefore gen rng (k + 1), .full (alpha gen rng k • (A * B)), .full A, .full B,
        .full C⟩ = .ok ⟨⟩
      ⟨rngBefore gen rng (k + 1), .full (alpha gen rng k • (A * B)),
        .full (beta gen rng k • (alpha gen rng k • (A * B) * C)), .full B, .full C⟩ :=
    accumulate_eq rfl rfl (by decide) (by decide)
  have hdraws : run gen ⟨rngBefore gen rng k, tmp, .full A, .full B, .full C⟩ =
      (accumulate .tmp (alpha gen rng k) .a .b >>= fun _ =>
        accumulate .a (beta gen rng k) .tmp .c)
        ⟨rngBefore gen rng (k + 1), tmp, .full A, .full B, .full C⟩ := rfl
  rw [hdraws]
  exact (run_bind hfirst).trans hsecond

/-- What `a` stands for after `n` calls. -/
def product (n : ℕ) : Matrix (Fin N) (Fin N) I8 :=
  (∏ k ∈ Finset.range n, alpha gen rng k * beta gen rng k) • (A * (B * C) ^ n)

theorem product_succ (n : ℕ) :
    product gen rng A B C (n + 1) =
      beta gen rng n • (alpha gen rng n • (product gen rng A B C n * B) * C) := by
  rw [product, product, Finset.prod_range_succ, pow_succ]
  simp only [Matrix.smul_mul, smul_smul, Matrix.mul_assoc]
  congr 1
  ring

/-- `tmp` after `n` calls. -/
def tmpAfter : ℕ → Array2D I8 N N
  | 0 => tmp
  | n + 1 => .full (alpha gen rng n • (product gen rng A B C n * B))

/-- The kernel after `n` calls. -/
def after (n : ℕ) : Kernel2MM R N :=
  ⟨rngBefore gen rng n, tmpAfter gen rng tmp A B C n, .full (product gen rng A B C n), .full B,
    .full C⟩

theorem after_zero : after gen rng tmp A B C 0 = ⟨rng, tmp, .full A, .full B, .full C⟩ := by
  have hstart : product gen rng A B C 0 = A := by
    rw [product, Finset.prod_range_zero, pow_zero, one_smul, mul_one]
  rw [after, hstart]
  rfl

theorem run_after (n : ℕ) :
    run gen (after gen rng tmp A B C n) = .ok ⟨⟩ (after gen rng tmp A B C (n + 1)) := by
  rw [after, run_eq, after, product_succ]
  rfl

theorem runs_eq (n : ℕ) :
    runs gen n ⟨rng, tmp, .full A, .full B, .full C⟩ =
      .ok ⟨⟩ (after gen rng tmp A B C n) := by
  rw [← after_zero gen rng tmp]
  exact forM_range (after gen rng tmp A B C) n fun k _ => run_after gen rng tmp A B C k

end Runs

theorem new_eq (gen : Rng R I8) : ∃ rng, ∃ A B C : Matrix (Fin N) (Fin N) I8,
    new gen = ⟨rng, .uninit, .full A, .full B, .full C⟩ := by
  have hfill : ∀ rng, ∃ values : Matrix (Fin N) (Fin N) I8,
      (Array2D.uninit.fillRand gen rng).1 = .full values := Array2D.fillRand_full gen .uninit
  obtain ⟨A, hA⟩ := hfill (gen.seedFromU64 123)
  obtain ⟨B, hB⟩ := hfill (Array2D.uninit.fillRand (M := N) (N := N) gen (gen.seedFromU64 123)).2
  obtain ⟨C, hC⟩ := hfill (Array2D.uninit.fillRand (M := N) (N := N) gen
    (Array2D.uninit.fillRand (M := N) (N := N) gen (gen.seedFromU64 123)).2).2
  have hnew : (new gen : Kernel2MM R N) =
      ⟨(new gen : Kernel2MM R N).rng, .uninit, .full A, .full B, .full C⟩ := by
    rw [← hA, ← hB, ← hC]
    rfl
  exact ⟨_, A, B, C, hnew⟩

/-- The kernel starts from three filled matrices, one call multiplies twice, and `n` calls
multiply by the power of the product, all modulo 256 and without a fault. -/
theorem runs_product (gen : Rng R I8) :
    (∃ rng, ∃ A B C : Matrix (Fin N) (Fin N) I8,
      new gen = ⟨rng, .uninit, .full A, .full B, .full C⟩) ∧
    ∀ (rng : R) (tmp : Array2D I8 N N) (A B C : Matrix (Fin N) (Fin N) I8),
      (∃ s, run gen ⟨rng, tmp, .full A, .full B, .full C⟩ = .ok ⟨⟩ s ∧
        s.tmp = .full (alpha gen rng 0 • (A * B)) ∧
        s.a = .full (beta gen rng 0 • (alpha gen rng 0 • (A * B) * C)) ∧
        s.b = .full B ∧ s.c = .full C) ∧
      ∀ n, ∃ s, runs gen n ⟨rng, tmp, .full A, .full B, .full C⟩ = .ok ⟨⟩ s ∧
        s.a = .full ((∏ k ∈ Finset.range n, alpha gen rng k * beta gen rng k) •
          (A * (B * C) ^ n)) ∧
        s.b = .full B ∧ s.c = .full C := by
  refine ⟨new_eq gen, fun rng tmp A B C => ⟨?_, fun n => ?_⟩⟩
  · exact ⟨_, run_eq gen rng tmp A B C 0, rfl, rfl, rfl, rfl⟩
  · exact ⟨_, runs_eq gen rng tmp A B C n, rfl, rfl, rfl⟩

end InterferenceMitigation.DoubleProduct
