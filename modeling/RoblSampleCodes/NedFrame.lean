import RoblSampleCodes.GreatCircle

namespace RoblSampleCodes.NedFrame

open Real GreatCircle

noncomputable def atan2 (y x : ℝ) : ℝ := Complex.arg ⟨x, y⟩

noncomputable def trunc (x : ℝ) : ℤ := if 0 ≤ x then ⌊x⌋ else ⌈x⌉

noncomputable def fmod (x y : ℝ) : ℝ := x - trunc (x / y) * y

structure Vector3d where
  x : ℝ
  y : ℝ
  z : ℝ

noncomputable def Vector3d.norm (v : Vector3d) : ℝ := √(v.x ^ 2 + v.y ^ 2 + v.z ^ 2)

def unitZ : Vector3d := ⟨0, 0, 1⟩

structure Quaterniond where
  w : ℝ
  x : ℝ
  y : ℝ
  z : ℝ

noncomputable def ofAngleAxis (angle : ℝ) (axis : Vector3d) : Quaterniond where
  w := cos (angle / 2)
  x := sin (angle / 2) * axis.x
  y := sin (angle / 2) * axis.y
  z := sin (angle / 2) * axis.z

def Quaterniond.toRotationMatrix (q : Quaterniond) : Matrix (Fin 3) (Fin 3) ℝ :=
  let tx := 2 * q.x
  let ty := 2 * q.y
  let tz := 2 * q.z
  !![1 - (ty * q.y + tz * q.z), ty * q.x - tz * q.w, tz * q.x + ty * q.w;
    ty * q.x + tz * q.w, 1 - (tx * q.x + tz * q.z), tz * q.y - tx * q.w;
    tz * q.x - ty * q.w, tz * q.y + tx * q.w, 1 - (tx * q.x + ty * q.y)]

noncomputable def eulerAngles (m : Matrix (Fin 3) (Fin 3) ℝ) : Vector3d :=
  let first := atan2 (m 1 2) (m 2 2)
  let c2 := √(m 0 0 ^ 2 + m 0 1 ^ 2)
  let res0 := if 0 < first then first - π else first
  let res1 := if 0 < first then atan2 (-m 0 2) (-c2) else atan2 (-m 0 2) c2
  let res2 := atan2 (sin res0 * m 2 0 - cos res0 * m 1 0) (cos res0 * m 1 1 - sin res0 * m 2 1)
  ⟨-res0, -res1, -res2⟩

structure WGS84Pose where
  latitude : ℝ
  longitude : ℝ
  bearing : ℝ

structure Pose where
  position : Vector3d
  orientation : Quaterniond

structure NEDFrame where
  refLat : ℝ
  refLon : ℝ

def earthRadius : ℝ := 6371000

noncomputable def getHaversineDistance (lat1 lon1 lat2 lon2 : ℝ) : ℝ :=
  let dLat := (lat2 - lat1) * (π / 180)
  let dLon := (lon2 - lon1) * (π / 180)
  let squareRoot := √(sin (dLat / 2) * sin (dLat / 2) +
    cos (lat1 * (π / 180)) * cos (lat2 * (π / 180)) * sin (dLon / 2) * sin (dLon / 2))
  2 * earthRadius * arcsin squareRoot

noncomputable def getBearing (latRef lonRef lat lon : ℝ) : ℝ :=
  let dLon := (lon - lonRef) * (π / 180)
  let latRef := latRef * (π / 180)
  let lat := lat * (π / 180)
  let x := cos latRef * sin lat - sin latRef * cos lat * cos dLon
  let y := sin dLon * cos lat
  atan2 y x * (180 / π)

noncomputable def getPosition (latRef lonRef lat lon : ℝ) : Vector3d :=
  let dist := getHaversineDistance latRef lonRef lat lon
  let bearing := getBearing latRef lonRef lat lon
  ⟨dist * cos (bearing * (π / 180)), dist * sin (bearing * (π / 180)), 0⟩

noncomputable def getWGS84Position (latRef lonRef dist bearing : ℝ) : ℝ × ℝ :=
  let dist := dist / earthRadius
  let latRef := latRef * (π / 180)
  let lonRef := lonRef * (π / 180)
  let bearingRad := fmod (bearing * (π / 180) + π) (2 * π) - π
  let lat := arcsin (sin latRef * cos dist + cos latRef * sin dist * cos bearingRad)
  let lon :=
    if cos lat = 0 then lonRef
    else fmod (lonRef + arcsin (sin bearingRad * sin dist / cos lat) + π) (2 * π) - π
  (lat * (180 / π), lon * (180 / π))

noncomputable def getYaw (quaternion : Quaterniond) : ℝ :=
  let z := (eulerAngles quaternion.toRotationMatrix).z * (180 / π)
  if z < 0 then z + 360 else z

noncomputable def NEDFrame.toNEDPose (frame : NEDFrame) (pose : WGS84Pose) : Pose where
  position := getPosition frame.refLat frame.refLon pose.latitude pose.longitude
  orientation := ofAngleAxis (pose.bearing * π / 180) unitZ

noncomputable def NEDFrame.toWGS84Pose (frame : NEDFrame) (pose : Pose) : WGS84Pose :=
  let bearing := getYaw pose.orientation
  let position := getWGS84Position frame.refLat frame.refLon pose.position.norm bearing
  ⟨position.1, position.2, bearing⟩

def Restores (frame : NEDFrame) (pose : WGS84Pose) : Prop :=
  (frame.toWGS84Pose (frame.toNEDPose pose)).latitude = pose.latitude ∧
    (frame.toWGS84Pose (frame.toNEDPose pose)).longitude = pose.longitude

noncomputable def radians (x : ℝ) : ℝ := x * (π / 180)

/-- The pose looks along the great circle that leads from the reference to it. -/
def PointsAway (frame : NEDFrame) (pose : WGS84Pose) : Prop :=
  Towards (radians frame.refLat) (radians pose.latitude) (radians (pose.longitude - frame.refLon))
    (radians pose.bearing)

structure InRange (latitude longitude : ℝ) : Prop where
  latitude : -90 < latitude ∧ latitude < 90
  longitude : -180 ≤ longitude ∧ longitude < 180

section Angles

variable {x y : ℝ}

theorem fmod_of_abs_lt (h : |x| < y) : fmod x y = x := by
  have hy : 0 < y := (abs_nonneg x).trans_lt h
  obtain ⟨hlow, hhigh⟩ := abs_lt.mp h
  have htrunc : trunc (x / y) = 0 := by
    rw [trunc]
    split
    · rename_i hnonneg
      exact Int.floor_eq_zero_iff.mpr ⟨hnonneg, (div_lt_one hy).mpr hhigh⟩
    · rename_i hneg
      rw [Int.ceil_eq_zero_iff]
      exact ⟨by rw [lt_div_iff₀ hy]; linarith, (not_le.mp hneg).le⟩
  rw [fmod, htrunc, Int.cast_zero, zero_mul, sub_zero]

theorem fmod_of_le (hle : y ≤ x) (hlt : x < 2 * y) : fmod x y = x - y := by
  have hy : 0 < y := by linarith
  have htrunc : trunc (x / y) = 1 := by
    rw [trunc, if_pos (div_nonneg (hy.le.trans hle) hy.le), Int.floor_eq_iff, Int.cast_one]
    exact ⟨(one_le_div hy).mpr hle, by rw [div_lt_iff₀ hy]; linarith⟩
  rw [fmod, htrunc, Int.cast_one, one_mul]

theorem exists_fmod (x : ℝ) : ∃ n : ℤ, fmod (x + π) (2 * π) - π = x - n * (2 * π) :=
  ⟨trunc ((x + π) / (2 * π)), by rw [fmod]; ring⟩

theorem norm_getPosition (latRef lonRef lat lon : ℝ) :
    (getPosition latRef lonRef lat lon).norm = getHaversineDistance latRef lonRef lat lon := by
  have hnonneg : 0 ≤ getHaversineDistance latRef lonRef lat lon := by
    apply mul_nonneg
    · norm_num [earthRadius]
    · exact arcsin_nonneg.mpr (sqrt_nonneg _)
  rw [Vector3d.norm, getPosition]
  dsimp only
  rw [mul_pow, mul_pow, ← mul_add, cos_sq_add_sin_sq, mul_one, zero_pow two_ne_zero, add_zero,
    sqrt_sq hnonneg]

theorem centralAngle_getHaversineDistance (lat1 lon1 lat2 lon2 : ℝ) :
    CentralAngle (radians lat1) (radians lat2) (radians (lon2 - lon1))
      (getHaversineDistance lat1 lon1 lat2 lon2 / earthRadius) := by
  have hradius : earthRadius ≠ 0 := by norm_num [earthRadius]
  have hlat : (lat2 - lat1) * (π / 180) = radians lat2 - radians lat1 := sub_mul ..
  rw [getHaversineDistance, mul_right_comm, mul_div_cancel_right₀ _ hradius, hlat]
  exact centralAngle_haversine ..

theorem toRotationMatrix_ofAngleAxis (angle : ℝ) : (ofAngleAxis angle unitZ).toRotationMatrix =
    !![cos angle, -sin angle, 0; sin angle, cos angle, 0; 0, 0, 1] := by
  have hcos := cos_eq_one_sub_half angle
  have hsin : sin angle = 2 * sin (angle / 2) * cos (angle / 2) := by
    rw [← sin_two_mul, mul_div_cancel₀ angle two_ne_zero]
  rw [hcos, hsin]
  ext i j
  fin_cases i <;> fin_cases j <;> simp [Quaterniond.toRotationMatrix, ofAngleAxis, unitZ, sq, mul_assoc]

theorem eulerAngles_z (angle : ℝ) :
    (eulerAngles !![cos angle, -sin angle, 0; sin angle, cos angle, 0; 0, 0, 1]).z =
      -atan2 (-sin angle) (cos angle) := by
  have hfirst : atan2 0 1 = 0 := Complex.arg_one
  simp [eulerAngles, hfirst]

theorem norm_of_sq_add {x y : ℝ} (h : x ^ 2 + y ^ 2 = 1) : ‖(⟨x, y⟩ : ℂ)‖ = 1 := by
  rw [Complex.norm_eq_sqrt_sq_add_sq, h, sqrt_one]

theorem cos_atan2 {x y : ℝ} (h : x ^ 2 + y ^ 2 = 1) : cos (atan2 y x) = x := by
  have hne : (⟨x, y⟩ : ℂ) ≠ 0 := norm_ne_zero_iff.mp (by rw [norm_of_sq_add h]; exact one_ne_zero)
  rw [atan2, Complex.cos_arg hne, norm_of_sq_add h, div_one]

theorem sin_atan2 {x y : ℝ} (h : x ^ 2 + y ^ 2 = 1) : sin (atan2 y x) = y := by
  rw [atan2, Complex.sin_arg, norm_of_sq_add h, div_one]

theorem radians_degrees (x : ℝ) : radians (x * (180 / π)) = x := by
  rw [radians]
  field_simp

theorem radians_add (x y : ℝ) : radians (x + y) = radians x + radians y := add_mul ..

theorem exists_radians_getYaw (q : Quaterniond) :
    ∃ n : ℤ, radians (getYaw q) = (eulerAngles q.toRotationMatrix).z - n * (2 * π) := by
  rw [getYaw]
  split
  · refine ⟨-1, ?_⟩
    rw [radians_add, radians_degrees]
    push_cast [radians]
    ring
  · refine ⟨0, ?_⟩
    rw [radians_degrees, Int.cast_zero, zero_mul, sub_zero]

theorem getYaw_ofAngleAxis (angle : ℝ) : cos (radians (getYaw (ofAngleAxis angle unitZ))) = cos angle ∧
    sin (radians (getYaw (ofAngleAxis angle unitZ))) = sin angle := by
  have hone : cos angle ^ 2 + (-sin angle) ^ 2 = 1 := by rw [neg_sq, cos_sq_add_sin_sq]
  obtain ⟨n, hn⟩ := exists_radians_getYaw (ofAngleAxis angle unitZ)
  rw [hn, toRotationMatrix_ofAngleAxis, eulerAngles_z, cos_sub_int_mul_two_pi, sin_sub_int_mul_two_pi,
    cos_neg, sin_neg, cos_atan2 hone, sin_atan2 hone, neg_neg]
  exact ⟨rfl, rfl⟩

end Angles

section Position

variable {frame : NEDFrame} {pose : WGS84Pose}

theorem radians_injective : Function.Injective radians :=
  mul_left_injective₀ (div_ne_zero pi_ne_zero (by norm_num))

theorem radians_getWGS84Position_fst (latRef lonRef dist bearing : ℝ) :
    radians (getWGS84Position latRef lonRef dist bearing).1 =
      latitudeAt (radians latRef) (dist / earthRadius) (radians bearing) := by
  obtain ⟨n, hn⟩ := exists_fmod (radians bearing)
  rw [getWGS84Position, radians_degrees, latitudeAt, ← cos_sub_int_mul_two_pi (radians bearing) n, ← hn]
  rfl

theorem radians_getWGS84Position_snd {latRef lonRef dist bearing : ℝ}
    (h : cos (latitudeAt (radians latRef) (dist / earthRadius) (radians bearing)) ≠ 0) :
    radians (getWGS84Position latRef lonRef dist bearing).2 =
      fmod (radians lonRef + arcsin (sin (radians bearing) * sin (dist / earthRadius) /
        cos (latitudeAt (radians latRef) (dist / earthRadius) (radians bearing))) + π) (2 * π) - π := by
  obtain ⟨n, hn⟩ := exists_fmod (radians bearing)
  rw [latitudeAt, ← cos_sub_int_mul_two_pi (radians bearing) n, ← hn] at h ⊢
  rw [getWGS84Position, radians_degrees, ← sin_sub_int_mul_two_pi (radians bearing) n, ← hn]
  exact if_neg h

/-- What the longitude comes back with. -/
theorem fmod_eq_iff {l l' A : ℝ} (hl : l ∈ Set.Ico (-π) π) (hl' : l' ∈ Set.Ico (-π) π)
    (hA : A ∈ Set.Icc (-(π / 2)) (π / 2)) :
    fmod (l + A + π) (2 * π) - π = l' ↔ l' - l = A ∨ l' - l = A - 2 * π := by
  have hpi := pi_pos
  obtain ⟨hl0, hl1⟩ := hl
  obtain ⟨hl0', hl1'⟩ := hl'
  obtain ⟨hA0, hA1⟩ := hA
  by_cases hlt : l + A + π < 2 * π
  · rw [fmod_of_abs_lt (abs_lt.mpr ⟨by linarith, hlt⟩)]
    constructor
    · intro h
      exact .inl (by linarith)
    · rintro (h | h)
      · linarith
      · exact absurd hlt (by linarith)
  · rw [fmod_of_le (not_lt.mp hlt) (by linarith)]
    constructor
    · intro h
      exact .inr (by linarith)
    · rintro (h | h)
      · exact absurd hlt (by linarith)
      · linarith

noncomputable def angleTo (frame : NEDFrame) (pose : WGS84Pose) : ℝ :=
  (frame.toNEDPose pose).position.norm / earthRadius

theorem yaw_toNEDPose (frame : NEDFrame) (pose : WGS84Pose) :
    cos (radians (getYaw (frame.toNEDPose pose).orientation)) = cos (radians pose.bearing) ∧
      sin (radians (getYaw (frame.toNEDPose pose).orientation)) = sin (radians pose.bearing) := by
  have horientation : (frame.toNEDPose pose).orientation = ofAngleAxis (radians pose.bearing) unitZ :=
    congrArg (ofAngleAxis · unitZ) (mul_div_assoc ..)
  rw [horientation]
  exact getYaw_ofAngleAxis (radians pose.bearing)

theorem centralAngle_angleTo (frame : NEDFrame) (pose : WGS84Pose) :
    CentralAngle (radians frame.refLat) (radians pose.latitude) (radians (pose.longitude - frame.refLon))
      (angleTo frame pose) := by
  rw [angleTo, NEDFrame.toNEDPose, norm_getPosition]
  exact centralAngle_getHaversineDistance ..

theorem latitudeAt_yaw (a c : ℝ) (pose : WGS84Pose) :
    latitudeAt a c (radians (getYaw (frame.toNEDPose pose).orientation)) =
      latitudeAt a c (radians pose.bearing) := by
  rw [latitudeAt, latitudeAt, (yaw_toNEDPose frame pose).1]

theorem radians_latitude (frame : NEDFrame) (pose : WGS84Pose) :
    radians (frame.toWGS84Pose (frame.toNEDPose pose)).latitude =
      latitudeAt (radians frame.refLat) (angleTo frame pose) (radians pose.bearing) := by
  rw [NEDFrame.toWGS84Pose, radians_getWGS84Position_fst, latitudeAt_yaw, angleTo]

theorem radians_longitude {frame : NEDFrame} {pose : WGS84Pose}
    (h : cos (latitudeAt (radians frame.refLat) (angleTo frame pose) (radians pose.bearing)) ≠ 0) :
    radians (frame.toWGS84Pose (frame.toNEDPose pose)).longitude =
      fmod (radians frame.refLon + arcsin (sin (radians pose.bearing) * sin (angleTo frame pose) /
        cos (latitudeAt (radians frame.refLat) (angleTo frame pose) (radians pose.bearing))) + π)
        (2 * π) - π := by
  rw [angleTo, ← @latitudeAt_yaw frame] at h ⊢
  rw [NEDFrame.toWGS84Pose, radians_getWGS84Position_snd h, (yaw_toNEDPose frame pose).2]

theorem radians_le {x y : ℝ} : radians x ≤ radians y ↔ x ≤ y :=
  mul_le_mul_iff_left₀ (div_pos pi_pos (by norm_num))

theorem radians_lt {x y : ℝ} : radians x < radians y ↔ x < y :=
  mul_lt_mul_iff_left₀ (div_pos pi_pos (by norm_num))

theorem radians_sub (x y : ℝ) : radians (x - y) = radians x - radians y := sub_mul ..

theorem radians_90 : radians 90 = π / 2 := by
  rw [radians]
  ring

theorem radians_180 : radians 180 = π := by
  rw [radians]
  ring

theorem radians_270 : radians 270 = 3 * π / 2 := by
  rw [radians]
  ring

theorem radians_neg (x : ℝ) : radians (-x) = -radians x := neg_mul ..

theorem InRange.radians_latitude {latitude longitude : ℝ} (h : InRange latitude longitude) :
    radians latitude ∈ Set.Ioo (-(π / 2)) (π / 2) := by
  rw [← radians_90, ← radians_neg]
  exact ⟨radians_lt.mpr h.latitude.1, radians_lt.mpr h.latitude.2⟩

theorem InRange.radians_longitude {latitude longitude : ℝ} (h : InRange latitude longitude) :
    radians longitude ∈ Set.Ico (-π) π := by
  have hpi := radians_180
  have hneg := radians_neg 180
  rw [hpi] at hneg
  exact ⟨hneg ▸ radians_le.mpr h.longitude.1, hpi ▸ radians_lt.mpr h.longitude.2⟩

theorem restores_iff_destination (href : InRange frame.refLat frame.refLon)
    (hpose : InRange pose.latitude pose.longitude) : Restores frame pose ↔
      PointsAway frame pose ∧ (radians (pose.longitude - frame.refLon) ∈ Set.Icc (-(π / 2)) (π / 2) ∨
        radians (pose.longitude - frame.refLon) ≤ -(3 * π / 2)) := by
  have hlon := href.radians_longitude
  have hlon' := hpose.radians_longitude
  have hd : radians (pose.longitude - frame.refLon) ∈ Set.Ioo (-(2 * π)) (2 * π) := by
    rw [radians_sub]
    constructor <;> linarith [hlon.1, hlon.2, hlon'.1, hlon'.2]
  have hradians : Restores frame pose ↔
      radians (frame.toWGS84Pose (frame.toNEDPose pose)).latitude = radians pose.latitude ∧
        radians (frame.toWGS84Pose (frame.toNEDPose pose)).longitude = radians pose.longitude :=
    and_congr radians_injective.eq_iff.symm radians_injective.eq_iff.symm
  have hdestination := (centralAngle_angleTo frame pose).destination_iff (β := radians pose.bearing)
    href.radians_latitude hpose.radians_latitude hd rfl
  rw [hradians, PointsAway, ← hdestination, NedFrame.radians_latitude]
  refine and_congr_right fun hlat => ?_
  have hcos : cos (latitudeAt (radians frame.refLat) (angleTo frame pose) (radians pose.bearing)) ≠ 0 := by
    rw [hlat]
    exact (cos_pos_of_mem_Ioo hpose.radians_latitude).ne'
  rw [NedFrame.radians_longitude hcos, fmod_eq_iff hlon hlon' (arcsin_mem_Icc _), ← radians_sub]

/-- The position comes back just if the pose looks along the great circle away from the reference, and
the difference of the longitudes is one that the arc sine gives. -/
theorem restores_iff (href : InRange frame.refLat frame.refLon)
    (hpose : InRange pose.latitude pose.longitude) : Restores frame pose ↔
      PointsAway frame pose ∧ (|pose.longitude - frame.refLon| ≤ 90 ∨
        pose.longitude - frame.refLon ≤ -270) := by
  rw [restores_iff_destination href hpose, Set.mem_Icc, ← radians_90, ← radians_270, ← radians_neg,
    ← radians_neg, radians_le, radians_le, radians_le, abs_le]

noncomputable def sampleFrame : NEDFrame := ⟨37.5665, 126.9780⟩

noncomputable def samplePose : WGS84Pose := ⟨37.5643, 126.9780, 45⟩

theorem inRange_sample : InRange sampleFrame.refLat sampleFrame.refLon ∧
    InRange samplePose.latitude samplePose.longitude := by
  refine ⟨?_, ?_⟩ <;> constructor <;> norm_num [sampleFrame, samplePose]

theorem restores_iff_sample : Restores sampleFrame samplePose ↔
    PointsAway sampleFrame samplePose ∧ (|samplePose.longitude - sampleFrame.refLon| ≤ 90 ∨
      samplePose.longitude - sampleFrame.refLon ≤ -270) :=
  restores_iff inRange_sample.1 inRange_sample.2

/-- The pose of the program is south of the reference, and looks to the north-east. -/
theorem not_restores_sample : ¬ Restores sampleFrame samplePose := by
  intro h
  obtain ⟨⟨r, hr, hnorth, -⟩, -⟩ := (restores_iff_destination inRange_sample.1 inRange_sample.2).mp h
  obtain ⟨hlow, hhigh⟩ := inRange_sample.1.radians_latitude
  obtain ⟨hlow', hhigh'⟩ := inRange_sample.2.radians_latitude
  have hlon : radians (samplePose.longitude - sampleFrame.refLon) = 0 := by
    norm_num [radians, samplePose, sampleFrame]
  have hsouth : radians samplePose.latitude - radians sampleFrame.refLat < 0 :=
    sub_neg.mpr (radians_lt.mpr (by norm_num [samplePose, sampleFrame]))
  have hneg : north (radians sampleFrame.refLat) (radians samplePose.latitude) 0 < 0 := by
    rw [north, cos_zero, mul_one, mul_comm (cos _), mul_comm (sin (radians sampleFrame.refLat)), ← sin_sub]
    exact sin_neg_of_neg_of_neg_pi_lt hsouth (by linarith)
  have hcos : 0 ≤ cos (radians samplePose.bearing) := by
    apply cos_nonneg_of_mem_Icc
    rw [← radians_90, ← radians_neg]
    constructor <;> exact radians_le.mpr (by norm_num [samplePose])
  rw [hlon] at hnorth
  have hnonneg := mul_nonneg hr hcos
  linarith

end Position

end RoblSampleCodes.NedFrame
