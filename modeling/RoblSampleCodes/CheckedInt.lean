import Mathlib

namespace RoblSampleCodes.CheckedInt

def intMax : ℤ := 2 ^ 31 - 1

/-- The result of `int` arithmetic, which is undefined on an overflow. -/
def checked (x : ℤ) : Option ℤ := if -intMax - 1 ≤ x ∧ x ≤ intMax then some x else none

variable {x y : ℤ}

theorem checked_eq_some : checked x = some y ↔ x = y ∧ -intMax - 1 ≤ y ∧ y ≤ intMax := by
  rw [checked, Option.ite_none_right_eq_some, Option.some.injEq]
  constructor
  · rintro ⟨hrange, rfl⟩
    exact ⟨rfl, hrange⟩
  · rintro ⟨rfl, hrange⟩
    exact ⟨hrange, rfl⟩

theorem checked_eq (h0 : 0 ≤ x) (hx : x ≤ intMax) : checked x = some x := by
  refine checked_eq_some.mpr ⟨rfl, ?_, hx⟩
  unfold intMax at *
  omega

end RoblSampleCodes.CheckedInt
