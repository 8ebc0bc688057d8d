import Mathlib

namespace RoblSampleCodes.Mercator

open Real

/-- How far north of the equator the map shows a latitude, both in radians. -/
noncomputable def ordinate (φ : ℝ) : ℝ := arsinh (tan φ)

noncomputable def latitude (y : ℝ) : ℝ := arctan (sinh y)

variable {φ y : ℝ}

theorem latitude_strictMono : StrictMono latitude := arctan_strictMono.comp sinh_strictMono

theorem latitude_mem (y : ℝ) : latitude y ∈ Set.Ioo (-(π / 2)) (π / 2) := arctan_mem_Ioo (sinh y)

@[simp] theorem latitude_neg (y : ℝ) : latitude (-y) = -latitude y := by
  rw [latitude, sinh_neg, arctan_neg, latitude]

@[simp] theorem ordinate_latitude (y : ℝ) : ordinate (latitude y) = y := by
  rw [ordinate, latitude, tan_arctan, arsinh_sinh]

theorem latitude_ordinate (h : φ ∈ Set.Ioo (-(π / 2)) (π / 2)) : latitude (ordinate φ) = φ := by
  rw [latitude, ordinate, sinh_arsinh, arctan_tan h.1 h.2]

theorem latitude_le_iff (h : φ ∈ Set.Ioo (-(π / 2)) (π / 2)) : latitude y ≤ φ ↔ y ≤ ordinate φ := by
  rw [← latitude_strictMono.le_iff_le (a := y), latitude_ordinate h]

theorem le_latitude_iff (h : φ ∈ Set.Ioo (-(π / 2)) (π / 2)) : φ ≤ latitude y ↔ ordinate φ ≤ y := by
  rw [← latitude_strictMono.le_iff_le (b := y), latitude_ordinate h]

theorem cos_latitude (y : ℝ) : cos (latitude y) = 1 / cosh y := by
  rw [latitude, cos_arctan, add_comm, ← cosh_sq, sqrt_sq (cosh_pos y).le]

theorem hasDerivAt_latitude (y : ℝ) : HasDerivAt latitude (cos (latitude y)) y := by
  have hcosh : 1 + sinh y ^ 2 = cosh y ^ 2 := by rw [cosh_sq, add_comm]
  have hscale : 1 / (1 + sinh y ^ 2) * cosh y = cos (latitude y) := by
    rw [cos_latitude, hcosh, pow_two]
    field_simp
  exact hscale ▸ (hasDerivAt_sinh y).arctan

end RoblSampleCodes.Mercator
