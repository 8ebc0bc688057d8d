import Mathlib

namespace RoblSampleCodes.PlaneSegment

@[ext] structure Point (K : Type) where
  x : K
  y : K
  deriving DecidableEq

structure Segment (K : Type) where
  start : Point K
  stop : Point K
  deriving DecidableEq

variable {K : Type} [Field K]

/-- Positive where `c` lies to the left of the line from `a` to `b`, zero on it. -/
def orientation (a b c : Point K) : K := (b.x - a.x) * (c.y - a.y) - (c.x - a.x) * (b.y - a.y)

def Segment.cross (s r : Segment K) : K :=
  (s.stop.x - s.start.x) * (r.stop.y - r.start.y) - (r.stop.x - r.start.x) * (s.stop.y - s.start.y)

def Segment.point (s : Segment K) (t : K) : Point K :=
  ⟨s.start.x + t * (s.stop.x - s.start.x), s.start.y + t * (s.stop.y - s.start.y)⟩

def Segment.reverse (s : Segment K) : Segment K := ⟨s.stop, s.start⟩

/-- The four endpoints lie on each other's lines. -/
def Collinear (s r : Segment K) : Prop :=
  orientation s.start s.stop r.start = 0 ∧ orientation s.start s.stop r.stop = 0 ∧
    orientation r.start r.stop s.start = 0 ∧ orientation r.start r.stop s.stop = 0

instance [DecidableEq K] (s r : Segment K) : Decidable (Collinear s r) :=
  inferInstanceAs (Decidable (_ ∧ _ ∧ _ ∧ _))

variable {s r : Segment K} {t u : K}

theorem Collinear.symm (h : Collinear s r) : Collinear r s := ⟨h.2.2.1, h.2.2.2, h.1, h.2.1⟩

theorem cross_comm (s r : Segment K) : s.cross r = -r.cross s := by
  rw [Segment.cross, Segment.cross]
  ring

theorem cross_reverse (s r : Segment K) : s.reverse.cross r = -s.cross r := by
  rw [Segment.cross, Segment.cross, Segment.reverse]
  ring

theorem point_reverse (s : Segment K) (t : K) : s.reverse.point t = s.point (1 - t) := by
  apply Point.ext
  · simp only [Segment.point, Segment.reverse]
    ring
  · simp only [Segment.point, Segment.reverse]
    ring

theorem orientation_start (a b : Point K) : orientation a b a = 0 := by
  rw [orientation]
  ring

theorem orientation_stop (a b : Point K) : orientation a b b = 0 := by
  rw [orientation]
  ring

theorem orientation_start_sub_stop (s r : Segment K) :
    orientation r.start r.stop s.start - orientation r.start r.stop s.stop = s.cross r := by
  rw [orientation, orientation, Segment.cross]
  ring

section Meet

variable (h : s.point t = r.point u)

include h

theorem orientation_start_of_meet : orientation r.start r.stop s.start = t * s.cross r := by
  have hx := congrArg Point.x h
  have hy := congrArg Point.y h
  simp only [Segment.point] at hx hy
  rw [orientation, Segment.cross]
  linear_combination (r.stop.y - r.start.y) * (-hx) + (r.stop.x - r.start.x) * hy

theorem orientation_stop_of_meet : orientation r.start r.stop s.stop = (t - 1) * s.cross r := by
  have hstart := orientation_start_of_meet h
  have hsub := orientation_start_sub_stop s r
  linear_combination hstart - hsub

theorem collinear_of_meet (hcross : s.cross r = 0) : Collinear s r := by
  have hcross' : r.cross s = 0 := by rw [cross_comm, hcross, neg_zero]
  refine ⟨?_, ?_, ?_, ?_⟩
  · rw [orientation_start_of_meet h.symm, hcross', mul_zero]
  · rw [orientation_stop_of_meet h.symm, hcross', mul_zero]
  · rw [orientation_start_of_meet h, hcross, mul_zero]
  · rw [orientation_stop_of_meet h, hcross, mul_zero]

end Meet

theorem point_eq_point (h : s.cross r ≠ 0) :
    s.point (orientation r.start r.stop s.start / s.cross r) =
      r.point (-orientation s.start s.stop r.start / s.cross r) := by
  apply Point.ext
  · simp only [Segment.point]
    field_simp
    simp only [orientation, Segment.cross]
    ring
  · simp only [Segment.point]
    field_simp
    simp only [orientation, Segment.cross]
    ring

variable [LinearOrder K]

def Separates (r s : Segment K) : Prop :=
  0 < orientation r.start r.stop s.start ∧ orientation r.start r.stop s.stop < 0 ∨
    orientation r.start r.stop s.start < 0 ∧ 0 < orientation r.start r.stop s.stop

instance (r s : Segment K) : Decidable (Separates r s) :=
  inferInstanceAs (Decidable (_ ∧ _ ∨ _ ∧ _))

def Crosses (s r : Segment K) : Prop := ∃ t u, (0 < t ∧ t < 1) ∧ (0 < u ∧ u < 1) ∧ s.point t = r.point u

theorem Crosses.symm (h : Crosses s r) : Crosses r s := by
  obtain ⟨t, u, ht, hu, hpoint⟩ := h
  exact ⟨u, t, hu, ht, hpoint.symm⟩

theorem Separates.ne_zero {p : Point K} (h : Separates r s) (hp : p = s.start ∨ p = s.stop) :
    orientation r.start r.stop p ≠ 0 := by
  rcases h with ⟨hstart, hstop⟩ | ⟨hstart, hstop⟩
  · rcases hp with rfl | rfl
    · exact hstart.ne'
    · exact hstop.ne
  · rcases hp with rfl | rfl
    · exact hstart.ne
    · exact hstop.ne'

variable [IsStrictOrderedRing K]

theorem Crosses.reverse (h : Crosses s r) : Crosses s.reverse r := by
  obtain ⟨t, u, ⟨hpos, hlt⟩, hu, hpoint⟩ := h
  refine ⟨1 - t, u, ⟨sub_pos.mpr hlt, sub_lt_self 1 hpos⟩, hu, ?_⟩
  rw [point_reverse, sub_sub_cancel, hpoint]

theorem crosses_reverse : Crosses s.reverse r ↔ Crosses s r :=
  ⟨fun h => h.reverse, fun h => h.reverse⟩

theorem separates_iff : Separates r s ↔
    s.cross r ≠ 0 ∧ 0 < orientation r.start r.stop s.start / s.cross r ∧
      orientation r.start r.stop s.start / s.cross r < 1 := by
  have hsub := orientation_start_sub_stop s r
  rw [Separates]
  constructor
  · rintro (⟨hstart, hstop⟩ | ⟨hstart, hstop⟩)
    · have hpos : 0 < s.cross r := by linarith
      refine ⟨hpos.ne', div_pos hstart hpos, ?_⟩
      rw [div_lt_one hpos]
      linarith
    · have hneg : s.cross r < 0 := by linarith
      refine ⟨hneg.ne, div_pos_of_neg_of_neg hstart hneg, ?_⟩
      rw [div_lt_one_of_neg hneg]
      linarith
  · rintro ⟨hne, hpos, hlt⟩
    rcases lt_or_gt_of_ne hne with hneg | hcross
    · rw [div_lt_one_of_neg hneg] at hlt
      have hstart := (div_pos_iff.mp hpos).resolve_left fun hboth => hboth.2.not_gt hneg
      exact .inr ⟨hstart.1, by linarith⟩
    · rw [div_lt_one hcross] at hlt
      have hstart := (div_pos_iff.mp hpos).resolve_right fun hboth => hboth.2.not_gt hcross
      exact .inl ⟨hstart.1, by linarith⟩

/-- Each segment separates the ends of the other just if they cross and are not parallel. -/
theorem separates_and_separates_iff :
    Separates r s ∧ Separates s r ↔ s.cross r ≠ 0 ∧ Crosses s r := by
  have hswap : orientation s.start s.stop r.start / r.cross s =
      -orientation s.start s.stop r.start / s.cross r := by
    rw [cross_comm s r, neg_div_neg_eq]
  rw [separates_iff, separates_iff, hswap]
  constructor
  · rintro ⟨⟨hne, ht⟩, -, hu⟩
    exact ⟨hne, _, _, ht, hu, point_eq_point hne⟩
  · rintro ⟨hne, t, u, ht, hu, hpoint⟩
    have hne' : r.cross s ≠ 0 := by
      rw [cross_comm]
      exact neg_ne_zero.mpr hne
    rw [orientation_start_of_meet hpoint, mul_div_cancel_right₀ t hne, ← hswap,
      orientation_start_of_meet hpoint.symm, mul_div_cancel_right₀ u hne']
    exact ⟨⟨hne, ht⟩, hne', hu⟩

theorem crosses_iff (h : ¬ Collinear s r) : Crosses s r ↔ Separates r s ∧ Separates s r := by
  rw [separates_and_separates_iff]
  refine ⟨fun hcrosses => ⟨fun hcross => ?_, hcrosses⟩, fun hboth => hboth.2⟩
  obtain ⟨t, u, -, -, hpoint⟩ := hcrosses
  exact h (collinear_of_meet hpoint hcross)

theorem point_y_mem (h : s.start.y ≤ s.stop.y) (ht : 0 < t ∧ t < 1) :
    s.start.y ≤ (s.point t).y ∧ (s.point t).y ≤ s.stop.y := by
  have hrise : 0 ≤ s.stop.y - s.start.y := sub_nonneg.mpr h
  have hpart : t * (s.stop.y - s.start.y) ≤ s.stop.y - s.start.y := mul_le_of_le_one_left hrise ht.2.le
  rw [Segment.point]
  constructor
  · exact le_add_of_nonneg_right (mul_nonneg ht.1.le hrise)
  · linarith

end RoblSampleCodes.PlaneSegment
