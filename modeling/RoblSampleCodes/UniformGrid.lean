import Mathlib

namespace RoblSampleCodes.UniformGrid

/-- An interval from `origin` on, cut into `cells` columns of one width. -/
structure Grid (K : Type) [Field K] [LinearOrder K] where
  origin : K
  width : K
  cells : Nat
  width_pos : 0 < width
  cells_pos : 0 < cells

variable {K : Type} [Field K] [LinearOrder K]

namespace Grid

/-- The column of a point, also outside the interval. -/
def column [FloorRing K] (g : Grid K) (x : K) : ℤ := ⌊(x - g.origin) / g.width * g.cells⌋

def edge (g : Grid K) (k : ℤ) : K := k / g.cells * g.width + g.origin

def refine (g : Grid K) (m : Nat) (hm : 0 < m) : Grid K where
  origin := g.origin
  width := g.width
  cells := g.cells * m
  width_pos := g.width_pos
  cells_pos := Nat.mul_pos g.cells_pos hm

variable (g : Grid K)

theorem edge_zero : g.edge 0 = g.origin := by
  rw [edge, Int.cast_zero, zero_div, zero_mul, zero_add]

variable [IsStrictOrderedRing K]

theorem cells_cast_pos : (0 : K) < g.cells := Nat.cast_pos.mpr g.cells_pos

theorem edge_le_iff_div (k : ℤ) (x : K) :
    g.edge k ≤ x ↔ (k : K) ≤ (x - g.origin) / g.width * g.cells := by
  calc g.edge k ≤ x ↔ k / g.cells * g.width ≤ x - g.origin := le_sub_iff_add_le.symm
    _ ↔ k / g.cells ≤ (x - g.origin) / g.width := (le_div_iff₀ g.width_pos).symm
    _ ↔ (k : K) ≤ (x - g.origin) / g.width * g.cells := div_le_iff₀ g.cells_cast_pos

theorem edge_cells : g.edge g.cells = g.width + g.origin := by
  rw [edge, Int.cast_natCast, div_self g.cells_cast_pos.ne', one_mul]

theorem edge_strictMono : StrictMono g.edge := by
  intro j k h
  apply add_lt_add_left
  apply mul_lt_mul_of_pos_right _ g.width_pos
  exact div_lt_div_of_pos_right (Int.cast_lt.mpr h) g.cells_cast_pos

variable [FloorRing K]

/-- The columns that begin at or before a point are those up to its own. -/
theorem gc_edge_column : GaloisConnection g.edge g.column := by
  intro k x
  rw [edge_le_iff_div, column, Int.le_floor]

theorem edge_column_le (x : K) : g.edge (g.column x) ≤ x := g.gc_edge_column.l_u_le x

theorem lt_edge_column_succ (x : K) : x < g.edge (g.column x + 1) :=
  g.gc_edge_column.lt_iff_lt.mpr (lt_add_one (g.column x))

theorem column_edge (k : ℤ) : g.column (g.edge k) = k := by
  apply le_antisymm
  · exact g.edge_strictMono.le_iff_le.mp (g.edge_column_le (g.edge k))
  · exact g.gc_edge_column.le_u_l k

theorem column_nonneg {x : K} (h : g.origin ≤ x) : 0 ≤ g.column x := by
  apply (g.gc_edge_column 0 x).mp
  rwa [edge_zero]

theorem column_le {x : K} (h : x ≤ g.width + g.origin) : g.column x ≤ g.cells := by
  rw [← g.column_edge g.cells, edge_cells]
  exact g.gc_edge_column.monotone_u h

theorem column_refine (x : K) {m : Nat} (hm : 0 < m) : (g.refine m hm).column x / m = g.column x := by
  have hcells : ((g.refine m hm).cells : K) = g.cells * m := Nat.cast_mul g.cells m
  rw [column, hcells, ← mul_assoc]
  exact Int.mul_natCast_floor_div_cancel hm.ne' _

end Grid

end RoblSampleCodes.UniformGrid
