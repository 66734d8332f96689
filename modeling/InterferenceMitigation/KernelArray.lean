import InterferenceMitigation.MachineInt
import Mathlib.Data.List.FinRange
import Mathlib.LinearAlgebra.Matrix.Defs
import Mathlib.Logic.Function.Basic
import Mathlib.Tactic.Common

/-!
The fixed-size arrays of the kernels. They are allocated without being initialised, and
their indexing is unchecked: a cell that was never written, and an index that is not
below the length, are faults here. Filling an array writes every cell of it.
-/

namespace InterferenceMitigation.KernelArray

open MachineInt

/-- The two kinds of access that are undefined behaviour in the program. -/
inductive Fault
  | outOfBounds
  | uninitialised
  deriving DecidableEq, Repr

/-- An array with a value for every cell that has been written. -/
@[ext]
structure Array1D (T : Type) (M : ℕ) where
  cells : Fin M → Option T

@[ext]
structure Array2D (T : Type) (M N : ℕ) where
  rows : Fin M → Array1D T N

/-- A generator of random numbers: `random` draws one value, `fill` those of a slice. -/
structure Rng (R T : Type) where
  seedFromU64 : U64 → R
  random : R → T × R
  fill : (M : ℕ) → R → (Fin M → T) × R

variable {R T : Type} {M N : ℕ}

namespace Array1D

def uninit : Array1D T M := ⟨fun _ => none⟩

def full (values : Fin M → T) : Array1D T M := ⟨fun i => some (values i)⟩

def fillRand (gen : Rng R T) (_ : Array1D T M) (rng : R) : Array1D T M × R :=
  let filled := gen.fill M rng
  (full filled.1, filled.2)

def index (a : Array1D T M) (i : ℕ) : Except Fault T :=
  if h : i < M then
    match a.cells ⟨i, h⟩ with
    | some x => .ok x
    | none => .error .uninitialised
  else .error .outOfBounds

/-- Writing `x` through the reference to a cell. -/
def indexMut (a : Array1D T M) (i : ℕ) (x : T) : Except Fault (Array1D T M) :=
  if h : i < M then .ok ⟨Function.update a.cells ⟨i, h⟩ (some x)⟩ else .error .outOfBounds

end Array1D

namespace Array2D

def uninit : Array2D T M N := ⟨fun _ => .uninit⟩

/-- The array all of whose cells are written. -/
def full (values : Matrix (Fin M) (Fin N) T) : Array2D T M N := ⟨fun i => .full (values i)⟩

def fillRow (gen : Rng R T) (s : Array2D T M N × R) (i : Fin M) : Array2D T M N × R :=
  let filled := (s.1.rows i).fillRand gen s.2
  (⟨Function.update s.1.rows i filled.1⟩, filled.2)

def fillRand (gen : Rng R T) (a : Array2D T M N) (rng : R) : Array2D T M N × R :=
  (List.finRange M).foldl (fillRow gen) (a, rng)

def index (a : Array2D T M N) (i : ℕ) : Except Fault (Array1D T N) :=
  if h : i < M then .ok (a.rows ⟨i, h⟩) else .error .outOfBounds

/-- Changing a row through the reference to it. -/
def indexMut (a : Array2D T M N) (i : ℕ) (change : Array1D T N → Except Fault (Array1D T N)) :
    Except Fault (Array2D T M N) :=
  if h : i < M then do
    let row ← change (a.rows ⟨i, h⟩)
    return ⟨Function.update a.rows ⟨i, h⟩ row⟩
  else .error .outOfBounds

/-- `a[i][j]` as a value. -/
def load (a : Array2D T M N) (i j : ℕ) : Except Fault T := do (← a.index i).index j

/-- `a[i][j] = x`. -/
def store (a : Array2D T M N) (i j : ℕ) (x : T) : Except Fault (Array2D T M N) :=
  a.indexMut i fun row => row.indexMut j x

/-- The cells before `(i, j)` in the order of the rows hold `values`, the others are as
they were. -/
def writtenTo (a : Array2D T M N) (values : Matrix (Fin M) (Fin N) T) (i j : ℕ) : Array2D T M N :=
  ⟨fun r => ⟨fun c => if r.val < i ∨ (r.val = i ∧ c.val < j) then some (values r c)
    else (a.rows r).cells c⟩⟩

def set (a : Array2D T M N) (i : Fin M) (j : Fin N) (x : T) : Array2D T M N :=
  ⟨Function.update a.rows i ⟨Function.update (a.rows i).cells j (some x)⟩⟩

theorem ext_cells {a b : Array2D T M N}
    (h : ∀ r c, (a.rows r).cells c = (b.rows r).cells c) : a = b := by
  apply Array2D.ext
  funext r
  exact Array1D.ext (funext (h r))

theorem set_cells (a : Array2D T M N) (i : Fin M) (j : Fin N) (x : T) (r : Fin M) (c : Fin N) :
    ((a.set i j x).rows r).cells c =
      if r = i ∧ c = j then some x else (a.rows r).cells c := by
  by_cases hr : r = i
  · subst hr
    by_cases hc : c = j
    · subst hc
      simp [set]
    · simp [set, hc]
  · simp [set, hr]

theorem store_eq (a : Array2D T M N) {i j : ℕ} (hi : i < M) (hj : j < N) (x : T) :
    a.store i j x = .ok (a.set ⟨i, hi⟩ ⟨j, hj⟩ x) := by
  rw [store, indexMut, dif_pos hi, Array1D.indexMut, dif_pos hj]
  rfl

theorem load_eq (a : Array2D T M N) {i j : ℕ} (hi : i < M) (hj : j < N) {x : T}
    (h : (a.rows ⟨i, hi⟩).cells ⟨j, hj⟩ = some x) : a.load i j = .ok x := by
  rw [load, index, dif_pos hi]
  change (a.rows ⟨i, hi⟩).index j = _
  rw [Array1D.index, dif_pos hj, h]

theorem load_full (values : Matrix (Fin M) (Fin N) T) {i j : ℕ} (hi : i < M) (hj : j < N) :
    (full values).load i j = .ok (values ⟨i, hi⟩ ⟨j, hj⟩) :=
  load_eq _ hi hj rfl

theorem load_set (a : Array2D T M N) (i : Fin M) (j : Fin N) (x : T) :
    (a.set i j x).load i.val j.val = .ok x :=
  load_eq _ i.isLt j.isLt (by rw [set_cells]; exact if_pos ⟨rfl, rfl⟩)

theorem set_set (a : Array2D T M N) (i : Fin M) (j : Fin N) (x y : T) :
    (a.set i j x).set i j y = a.set i j y := by
  apply ext_cells
  intro r c
  rw [set_cells, set_cells, set_cells]
  by_cases h : r = i ∧ c = j
  · rw [if_pos h, if_pos h]
  · rw [if_neg h, if_neg h, if_neg h]

section WrittenTo

variable (a : Array2D T M N) (values : Matrix (Fin M) (Fin N) T)

theorem writtenTo_start : a.writtenTo values 0 0 = a := by
  apply ext_cells
  intro r c
  exact if_neg (by omega)

theorem writtenTo_row (i : ℕ) : a.writtenTo values i N = a.writtenTo values (i + 1) 0 := by
  apply ext_cells
  intro r c
  have hc := c.isLt
  have hiff : (r.val < i ∨ (r.val = i ∧ c.val < N)) ↔
      (r.val < i + 1 ∨ (r.val = i + 1 ∧ c.val < 0)) := by omega
  simp only [writtenTo, hiff]

theorem writtenTo_end : a.writtenTo values M 0 = full values := by
  apply ext_cells
  intro r c
  exact if_pos (.inl r.isLt)

theorem writtenTo_set {i j : ℕ} (hi : i < M) (hj : j < N) :
    (a.writtenTo values i j).set ⟨i, hi⟩ ⟨j, hj⟩ (values ⟨i, hi⟩ ⟨j, hj⟩) =
      a.writtenTo values i (j + 1) := by
  apply ext_cells
  intro r c
  rw [set_cells]
  by_cases h : r = ⟨i, hi⟩ ∧ c = ⟨j, hj⟩
  · obtain ⟨rfl, rfl⟩ := h
    rw [if_pos ⟨rfl, rfl⟩]
    exact (if_pos (.inr ⟨rfl, Nat.lt_succ_self j⟩)).symm
  · rw [if_neg h]
    have hne : ¬ (r.val = i ∧ c.val = j) := fun ⟨hr, hc⟩ => h ⟨Fin.ext hr, Fin.ext hc⟩
    have hiff : (r.val < i ∨ (r.val = i ∧ c.val < j)) ↔
        (r.val < i ∨ (r.val = i ∧ c.val < j + 1)) := by omega
    simp only [writtenTo, hiff]

end WrittenTo

/-- A row that is full stays so, and the rows that are filled become so. -/
theorem foldl_fillRow (gen : Rng R T) (todo : List (Fin M)) (s : Array2D T M N × R) (i : Fin M)
    (h : i ∈ todo ∨ ∃ values, s.1.rows i = .full values) :
    ∃ values, (todo.foldl (fillRow gen) s).1.rows i = .full values := by
  induction todo generalizing s with
  | nil => exact h.resolve_left (List.not_mem_nil)
  | cons j todo ih =>
    apply ih
    by_cases hij : i = j
    · subst hij
      exact .inr ⟨_, Function.update_self ..⟩
    · have hrow : (fillRow gen s j).1.rows i = s.1.rows i := Function.update_of_ne hij ..
      rw [hrow]
      exact h.imp_left fun hmem => (List.mem_cons.mp hmem).resolve_left hij

theorem fillRand_full (gen : Rng R T) (a : Array2D T M N) (rng : R) :
    ∃ values, (a.fillRand gen rng).1 = full values := by
  have hfull : ∀ i, ∃ values, (a.fillRand gen rng).1.rows i = .full values :=
    fun i => foldl_fillRow gen (List.finRange M) (a, rng) i (.inl (List.mem_finRange i))
  choose values hvalues using hfull
  refine ⟨values, ext_cells ?_⟩
  intro r c
  rw [hvalues r]
  rfl

end Array2D

end InterferenceMitigation.KernelArray
