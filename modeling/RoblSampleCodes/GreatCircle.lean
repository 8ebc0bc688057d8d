import Mathlib

namespace RoblSampleCodes.GreatCircle

open Real

/-- The components of the point at latitude `b` in the frame at latitude `a`, for a difference `d` of
their longitudes. The frame points up, north and east. -/
noncomputable def up (a b d : ℝ) : ℝ := sin a * sin b + cos a * cos b * cos d

noncomputable def north (a b d : ℝ) : ℝ := cos a * sin b - sin a * cos b * cos d

noncomputable def east (b d : ℝ) : ℝ := sin d * cos b

structure CentralAngle (a b d c : ℝ) : Prop where
  cos_eq : cos c = up a b d
  sin_nonneg : 0 ≤ sin c

noncomputable def latitudeAt (a c β : ℝ) : ℝ := arcsin (sin a * cos c + cos a * sin c * cos β)

/-- The direction `β`, from north to east, leads along the great circle to the point. -/
def Towards (a b d β : ℝ) : Prop := ∃ r, 0 ≤ r ∧ north a b d = r * cos β ∧ east b d = r * sin β

variable {a b c d β : ℝ}

theorem up_sq_add (a b d : ℝ) : up a b d ^ 2 + north a b d ^ 2 + east b d ^ 2 = 1 := by
  have ha := sin_sq_add_cos_sq a
  have hb := sin_sq_add_cos_sq b
  have hd := sin_sq_add_cos_sq d
  calc up a b d ^ 2 + north a b d ^ 2 + east b d ^ 2
      = (sin a ^ 2 + cos a ^ 2) * (sin b ^ 2 + cos b ^ 2 * cos d ^ 2) + sin d ^ 2 * cos b ^ 2 := by
        rw [up, north, east]
        ring
    _ = sin b ^ 2 + cos b ^ 2 * (sin d ^ 2 + cos d ^ 2) := by
        rw [ha]
        ring
    _ = 1 := by rw [hd, mul_one, hb]

theorem sin_latitude (a b d : ℝ) : sin b = sin a * up a b d + cos a * north a b d := by
  have ha := sin_sq_add_cos_sq a
  calc sin b = (sin a ^ 2 + cos a ^ 2) * sin b := by rw [ha, one_mul]
    _ = sin a * up a b d + cos a * north a b d := by
      rw [up, north]
      ring

theorem cos_eq_one_sub_half (x : ℝ) : cos x = 1 - 2 * sin (x / 2) ^ 2 := by
  rw [← cos_two_mul_eq_one_sub, mul_div_cancel₀ x two_ne_zero]

theorem haversine_eq (a b d : ℝ) :
    sin ((b - a) / 2) * sin ((b - a) / 2) + cos a * cos b * sin (d / 2) * sin (d / 2) =
      (1 - up a b d) / 2 := by
  have hlat := cos_eq_one_sub_half (b - a)
  have hlon := cos_eq_one_sub_half d
  rw [cos_sub] at hlat
  have hmul : cos a * cos b * cos d = cos a * cos b - 2 * (cos a * cos b * sin (d / 2) ^ 2) := by
    rw [hlon]
    ring
  rw [up, hmul]
  linarith

theorem up_mem (a b d : ℝ) : -1 ≤ up a b d ∧ up a b d ≤ 1 := by
  have h := up_sq_add a b d
  have hup : up a b d ^ 2 ≤ 1 := by linarith [sq_nonneg (north a b d), sq_nonneg (east b d)]
  exact abs_le.mp ((sq_le_one_iff_abs_le_one (up a b d)).mp hup)

theorem centralAngle_haversine (a b d : ℝ) : CentralAngle a b d (2 * arcsin
    √(sin ((b - a) / 2) * sin ((b - a) / 2) + cos a * cos b * sin (d / 2) * sin (d / 2))) := by
  obtain ⟨hlow, hhigh⟩ := up_mem a b d
  have hnonneg : 0 ≤ (1 - up a b d) / 2 := by linarith
  have hle : √((1 - up a b d) / 2) ≤ 1 := sqrt_le_one.mpr (by linarith)
  have hsqrt := sqrt_nonneg ((1 - up a b d) / 2)
  rw [haversine_eq]
  refine ⟨?_, ?_⟩
  · rw [cos_two_mul_eq_one_sub, sin_arcsin (by linarith) hle, sq_sqrt hnonneg]
    ring
  · have harcsin := arcsin_le_pi_div_two √((1 - up a b d) / 2)
    apply sin_nonneg_of_nonneg_of_le_pi
    · exact mul_nonneg zero_le_two (arcsin_nonneg.mpr hsqrt)
    · linarith

theorem CentralAngle.sin_sq (h : CentralAngle a b d c) : sin c ^ 2 = north a b d ^ 2 + east b d ^ 2 := by
  have hone := sin_sq_add_cos_sq c
  rw [h.cos_eq] at hone
  have hup := up_sq_add a b d
  linarith

theorem CentralAngle.towards_iff (h : CentralAngle a b d c) :
    Towards a b d β ↔ north a b d = sin c * cos β ∧ east b d = sin c * sin β := by
  constructor
  · rintro ⟨r, hr, hnorth, heast⟩
    have hsq : sin c ^ 2 = r ^ 2 := by
      calc sin c ^ 2 = r ^ 2 * (sin β ^ 2 + cos β ^ 2) := by
            rw [h.sin_sq, hnorth, heast]
            ring
        _ = r ^ 2 := by rw [sin_sq_add_cos_sq, mul_one]
    obtain rfl := (sq_eq_sq₀ h.sin_nonneg hr).mp hsq
    exact ⟨hnorth, heast⟩
  · rintro ⟨hnorth, heast⟩
    exact ⟨sin c, h.sin_nonneg, hnorth, heast⟩

/-- The point at the central angle in a direction is on the right latitude just if the direction has the
right component to the north. -/
theorem CentralAngle.latitudeAt_eq_iff (h : CentralAngle a b d c) (ha : a ∈ Set.Ioo (-(π / 2)) (π / 2))
    (hb : b ∈ Set.Ioo (-(π / 2)) (π / 2)) : latitudeAt a c β = b ↔ north a b d = sin c * cos β := by
  have hcos : 0 < cos a := cos_pos_of_mem_Ioo ha
  have hlat := sin_latitude a b d
  rw [latitudeAt, arcsin_eq_iff_eq_sin hb, h.cos_eq, hlat, mul_assoc]
  constructor
  · intro heq
    exact (mul_left_cancel₀ hcos.ne' (add_left_cancel heq)).symm
  · intro heq
    rw [heq]

theorem arcsin_sin_eq_iff (hd : d ∈ Set.Ioo (-(2 * π)) (2 * π)) :
    d = arcsin (sin d) ∨ d = arcsin (sin d) - 2 * π ↔
      d ∈ Set.Icc (-(π / 2)) (π / 2) ∨ d ≤ -(3 * π / 2) := by
  have hmem := arcsin_mem_Icc (sin d)
  constructor
  · rintro (h | h)
    · exact .inl (h ▸ hmem)
    · exact .inr (by linarith [hmem.2])
  · rintro (h | h)
    · exact .inl (arcsin_sin h.1 h.2).symm
    · have hsin : sin d = sin (d + 2 * π) := (sin_add_two_pi d).symm
      rw [hsin, arcsin_sin (by linarith [hd.1, pi_pos]) (by linarith)]
      exact .inr (by ring)

/-- Going by the central angle in a direction leads to the point just if the direction is towards it, and
the difference of the longitudes is one that an arc sine gives. -/
theorem CentralAngle.destination_iff (h : CentralAngle a b d c) (ha : a ∈ Set.Ioo (-(π / 2)) (π / 2))
    (hb : b ∈ Set.Ioo (-(π / 2)) (π / 2)) (hd : d ∈ Set.Ioo (-(2 * π)) (2 * π)) {A : ℝ}
    (hA : A = arcsin (sin β * sin c / cos (latitudeAt a c β))) :
    latitudeAt a c β = b ∧ (d = A ∨ d = A - 2 * π) ↔
      Towards a b d β ∧ (d ∈ Set.Icc (-(π / 2)) (π / 2) ∨ d ≤ -(3 * π / 2)) := by
  have hcos : 0 < cos b := cos_pos_of_mem_Ioo hb
  rw [h.towards_iff, h.latitudeAt_eq_iff ha hb, and_assoc]
  refine and_congr_right fun hnorth => ?_
  rw [(h.latitudeAt_eq_iff ha hb).mpr hnorth] at hA
  have hsq : (sin β * sin c) ^ 2 = (sin d * cos b) ^ 2 := by
    have hsum := h.sin_sq
    have hone := sin_sq_add_cos_sq β
    rw [hnorth, east] at hsum
    calc (sin β * sin c) ^ 2 = sin c ^ 2 * (1 - cos β ^ 2) := by
          rw [← hone]
          ring
      _ = (sin d * cos b) ^ 2 := by linarith
  rw [← arcsin_sin_eq_iff hd]
  constructor
  · intro hlon
    have hsin : sin d = sin A := by
      rcases hlon with heq | heq
      · rw [heq]
      · rw [heq, sin_sub_two_pi]
    have hle : (sin β * sin c / cos b) ^ 2 ≤ 1 := by
      rw [div_pow, hsq, ← div_pow, mul_div_cancel_right₀ _ hcos.ne']
      exact sin_sq_le_one d
    obtain ⟨hlow, hhigh⟩ := abs_le.mp ((sq_le_one_iff_abs_le_one _).mp hle)
    have hquotient : sin d = sin β * sin c / cos b := by
      rw [hsin, hA, sin_arcsin hlow hhigh]
    refine ⟨?_, ?_⟩
    · rw [east, hquotient, div_mul_cancel₀ _ hcos.ne', mul_comm]
    · rwa [hA, ← hquotient] at hlon
  · rintro ⟨heast, hlon⟩
    have hsin : sin β * sin c / cos b = sin d := by
      rw [div_eq_iff hcos.ne', mul_comm, ← heast, east]
    rwa [hA, hsin]

end RoblSampleCodes.GreatCircle
