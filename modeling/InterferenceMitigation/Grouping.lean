import Mathlib.Data.List.Dedup
import Mathlib.Data.List.Sort
import Mathlib.Order.BoundedOrder.Basic
import Mathlib.Order.Lattice

/-!
Rows grouped by a key, with the greatest value of each group. The groups come in the order
of their keys. Where a bound of every group is attained in it, the result is the list of
these bounds, in whatever order the rows are.
-/

namespace InterferenceMitigation.Grouping

section Table

variable {K V : Type*} [Preorder K] [PartialOrder V]

/-- The table has one row for each key, in ascending order, with the greatest of its values. -/
structure GroupMax (rows table : List (K × V)) : Prop where
  ascending : (table.map Prod.fst).Pairwise (· < ·)
  key : ∀ r ∈ rows, r.1 ∈ table.map Prod.fst
  attained : ∀ r ∈ table, r ∈ rows
  greatest : ∀ r ∈ table, ∀ v, (r.1, v) ∈ rows → v ≤ r.2

variable {rows table table' : List (K × V)}

omit [PartialOrder V] in
theorem nodup_keys (h : (rows.map Prod.fst).Pairwise (· < ·)) : (rows.map Prod.fst).Nodup :=
  h.imp fun hlt => ne_of_lt hlt

theorem GroupMax.subset (h : GroupMax rows table) (h' : GroupMax rows table') :
    table ⊆ table' := by
  intro r hr
  obtain ⟨r', hr', hkey⟩ := List.mem_map.mp (h'.key r (h.attained r hr))
  have hle : r'.2 ≤ r.2 := by
    apply h.greatest r hr
    rw [← hkey]
    exact h'.attained r' hr'
  have hge : r.2 ≤ r'.2 := by
    apply h'.greatest r' hr'
    rw [hkey]
    exact h.attained r hr
  obtain rfl : r' = r := Prod.ext hkey (le_antisymm hle hge)
  exact hr'

/-- The rows determine the table. -/
theorem GroupMax.unique (h : GroupMax rows table) (h' : GroupMax rows table') :
    table = table' := by
  have hsorted := List.pairwise_map.mp h.ascending
  have hsorted' := List.pairwise_map.mp h'.ascending
  have hperm : table.Perm table' := by
    apply (List.perm_ext_iff_of_nodup (nodup_keys h.ascending).of_map
      (nodup_keys h'.ascending).of_map).mpr
    exact fun r => ⟨fun hr => h.subset h' hr, fun hr => h'.subset h hr⟩
  exact hperm.eq_of_pairwise (fun a b _ _ hab hba => absurd (hab.trans hba) (lt_irrefl _))
    hsorted hsorted'

end Table

section Compute

variable {K V : Type*} [LinearOrder K] [LinearOrder V] [OrderBot V]

/-- The keys of the rows in order, each of them once. -/
def keys (rows : List (K × V)) : List K := (rows.map Prod.fst).dedup.mergeSort

def group (k : K) (rows : List (K × V)) : List V := (rows.filter fun r => r.1 = k).map Prod.snd

omit [OrderBot V] [LinearOrder V] in
theorem mem_keys {k : K} {rows : List (K × V)} : k ∈ keys rows ↔ ∃ v, (k, v) ∈ rows := by
  rw [keys, (List.mergeSort_perm _ _).mem_iff, List.mem_dedup, List.mem_map]
  constructor
  · rintro ⟨⟨k', v⟩, hrow, rfl⟩
    exact ⟨v, hrow⟩
  · rintro ⟨v, hrow⟩
    exact ⟨(k, v), hrow, rfl⟩

end Compute

end InterferenceMitigation.Grouping
