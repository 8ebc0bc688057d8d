import RoblSampleCodes.Mercator
import RoblSampleCodes.Tile

namespace RoblSampleCodes.TileLatitude

open Real CheckedInt UniformGrid Tile Mercator

/-- A `double` is a real number, without rounding. -/
noncomputable def lat2tiley (lat : ℝ) (z : ℤ) : Option ℤ :=
  let latrad := lat * π / 180.0
  (oneShiftLeft z).bind fun n => checked ⌊(1.0 - arsinh (tan latrad) / π) / 2.0 * n⌋

noncomputable def tiley2lat (y z : ℤ) : Option ℝ :=
  (oneShiftLeft z).map fun cells : ℤ =>
    let n := π - 2.0 * π * y / cells
    180.0 / π * arctan (0.5 * (exp n - exp (-n)))

noncomputable def earthRadius : ℝ := 6371.0088

noncomputable def groundResolutionX (lat : ℝ) (z : ℤ) : Option ℝ :=
  (oneShiftLeft (z + 8)).map fun n : ℤ => cos (lat * π / 180.0) * (2.0 * π * earthRadius * 1000.0) / n

noncomputable def groundResolutionY (z : ℤ) : Option ℝ :=
  (oneShiftLeft (z + 8)).map fun n : ℤ => 2.0 * π * earthRadius * 1000.0 / n

structure Position where
  col : ℤ
  row : ℤ
  tileLat : ℝ
  tileLon : ℝ
  resolX : ℝ
  resolY : ℝ

noncomputable def main (zoom : ℤ) (lat lon : ℝ) : Option Position := do
  let col ← lon2tilex lon zoom
  let row ← lat2tiley lat zoom
  let tileLat ← tiley2lat row zoom
  let tileLon ← tilex2lon col zoom
  let resolX ← groundResolutionX lat zoom
  let resolY ← groundResolutionY zoom
  return ⟨col, row, tileLat, tileLon, resolX, resolY⟩

/-- The ordinates of the map at the zoom `z`, from the north on. -/
noncomputable def rows (z : Nat) : Grid ℝ where
  origin := -π
  width := π + π
  cells := 2 ^ z
  width_pos := add_pos pi_pos pi_pos
  cells_pos := Nat.two_pow_pos z

noncomputable def radians (lat : ℝ) : ℝ := lat * π / 180.0

noncomputable def degrees (φ : ℝ) : ℝ := 180.0 / π * φ

noncomputable def edgeLatitude : ℝ := degrees (latitude π)

variable {z : Nat} {lat : ℝ}

theorem radians_eq (lat : ℝ) : radians lat = lat * π / 180 := by norm_num [radians]

theorem degrees_eq (φ : ℝ) : degrees φ = 180 / π * φ := by norm_num [degrees]

@[simp] theorem radians_degrees (φ : ℝ) : radians (degrees φ) = φ := by
  rw [radians_eq, degrees_eq]
  field_simp

theorem degrees_le_iff {φ : ℝ} : degrees φ ≤ lat ↔ φ ≤ radians lat := by
  rw [degrees_eq, radians_eq, div_mul_eq_mul_div, div_le_iff₀ pi_pos, le_div_iff₀ (by norm_num),
    mul_comm 180]

theorem le_degrees_iff {φ : ℝ} : lat ≤ degrees φ ↔ radians lat ≤ φ := by
  rw [degrees_eq, radians_eq, div_mul_eq_mul_div, le_div_iff₀ pi_pos, div_le_iff₀ (by norm_num),
    mul_comm 180]

theorem degrees_neg (φ : ℝ) : degrees (-φ) = -degrees φ := mul_neg ..

theorem degrees_pi_div_two : degrees (π / 2) = 90 := by
  rw [degrees_eq]
  field_simp
  norm_num

theorem radians_mem (hsouth : -90 < lat) (hnorth : lat < 90) :
    radians lat ∈ Set.Ioo (-(π / 2)) (π / 2) := by
  have hpi := pi_pos
  rw [radians_eq, Set.mem_Ioo]
  constructor
  · nlinarith
  · nlinarith

noncomputable def south (lat : ℝ) : ℝ := -ordinate (radians lat)

theorem tiley2lat_eq (hz : z ≤ 30) (k : ℤ) :
    tiley2lat k z = some (degrees (latitude (-(rows z).edge k))) := by
  have hn : π - 2.0 * π * k / ((2 ^ z : ℤ) : ℝ) = -(rows z).edge k := by
    have hcells : ((2 ^ z : ℤ) : ℝ) = (rows z).cells := cells_cast.symm
    have htwo : (2.0 : ℝ) = 2 := by norm_num
    rw [hcells, htwo, Grid.edge, rows]
    ring
  have hhalf : ∀ x : ℝ, 0.5 * x = x / 2 := by
    intro x
    norm_num
    ring
  rw [tiley2lat, oneShiftLeft_eq hz, Option.map_some, degrees, latitude, sinh_eq]
  simp only [hn, hhalf]

theorem lat2tiley_eq (hz : z ≤ 30) :
    lat2tiley lat z = checked ((rows z).column (south lat)) := by
  have hn : (1.0 - arsinh (tan (lat * π / 180.0)) / π) / 2.0 * ((2 ^ z : ℤ) : ℝ) =
      (south lat - (rows z).origin) / (rows z).width * (rows z).cells := by
    have hcells : ((2 ^ z : ℤ) : ℝ) = (rows z).cells := cells_cast.symm
    have hone : (1.0 : ℝ) = 1 := by norm_num
    have htwo : (2.0 : ℝ) = 2 := by norm_num
    have hlat : lat * π / 180.0 = radians lat := rfl
    rw [hcells, hone, htwo, hlat, south, ordinate]
    simp only [rows]
    field_simp
    ring
  rw [lat2tiley, oneShiftLeft_eq hz, Option.bind_some, Grid.column]
  simp only [hn]

section Band

variable (hsouth : -90 < lat) (hnorth : lat < 90)

include hsouth hnorth

theorem le_shown_iff (x : ℝ) : lat ≤ degrees (latitude (-x)) ↔ x ≤ south lat := by
  rw [le_degrees_iff, le_latitude_iff (radians_mem hsouth hnorth), south, le_neg]

theorem shown_le_iff (x : ℝ) : degrees (latitude (-x)) ≤ lat ↔ south lat ≤ x := by
  rw [degrees_le_iff, latitude_le_iff (radians_mem hsouth hnorth), south, neg_le]

theorem between_edges :
    degrees (latitude (-(rows z).edge ((rows z).column (south lat) + 1))) < lat ∧
      lat ≤ degrees (latitude (-(rows z).edge ((rows z).column (south lat)))) := by
  constructor
  · rw [← not_le, le_shown_iff hsouth hnorth, not_le]
    exact (rows z).lt_edge_column_succ _
  · rw [le_shown_iff hsouth hnorth]
    exact (rows z).edge_column_le _

end Band

theorem edge_zero : (rows z).edge 0 = -π := (rows z).edge_zero

theorem edge_last : (rows z).edge (2 ^ z : ℤ) = π := by
  have hcells : ((rows z).cells : ℤ) = 2 ^ z := Nat.cast_pow 2 z
  rw [← hcells, (rows z).edge_cells]
  simp only [rows]
  ring

theorem edgeLatitude_lt : edgeLatitude < 90 := by
  rw [edgeLatitude, ← degrees_pi_div_two, degrees, degrees]
  exact mul_lt_mul_of_pos_left (latitude_mem π).2 (by positivity)

theorem edgeLatitude_pos : 0 < edgeLatitude := by
  rw [edgeLatitude, degrees]
  exact mul_pos (by positivity) (arctan_pos.mpr (sinh_pos_iff.mpr pi_pos))

theorem column_mem_iff (hsouth : -90 < lat) (hnorth : lat < 90) :
    0 ≤ (rows z).column (south lat) ∧ (rows z).column (south lat) < 2 ^ z ↔
      -edgeLatitude < lat ∧ lat ≤ edgeLatitude := by
  have hfirst : 0 ≤ (rows z).column (south lat) ↔ lat ≤ edgeLatitude := by
    calc 0 ≤ (rows z).column (south lat)
        ↔ -π ≤ south lat := by rw [← (rows z).gc_edge_column 0, edge_zero]
      _ ↔ lat ≤ edgeLatitude := by rw [← le_shown_iff hsouth hnorth, neg_neg, edgeLatitude]
  have hlast : (rows z).column (south lat) < 2 ^ z ↔ -edgeLatitude < lat := by
    calc (rows z).column (south lat) < 2 ^ z
        ↔ south lat < π := by rw [← not_le, ← (rows z).gc_edge_column, edge_last, not_le]
      _ ↔ -edgeLatitude < lat := by
        rw [← not_le, ← le_shown_iff hsouth hnorth, latitude_neg, degrees_neg, not_le, edgeLatitude]
  rw [hfirst, hlast, and_comm]

section Map

variable (hsouth : -edgeLatitude ≤ lat) (hnorth : lat ≤ edgeLatitude)

include hsouth hnorth

theorem within : -90 < lat ∧ lat < 90 := by
  have hedge := edgeLatitude_lt
  constructor <;> linarith

theorem row_nonneg : 0 ≤ (rows z).column (south lat) := by
  obtain ⟨hsouth', hnorth'⟩ := within hsouth hnorth
  apply (rows z).column_nonneg
  exact (le_shown_iff hsouth' hnorth' (-π)).mp (by rwa [neg_neg])

theorem row_le : (rows z).column (south lat) ≤ 2 ^ z := by
  obtain ⟨hsouth', hnorth'⟩ := within hsouth hnorth
  have hcells : ((rows z).cells : ℤ) = 2 ^ z := Nat.cast_pow 2 z
  rw [← hcells]
  apply (rows z).column_le
  have hle : south lat ≤ π := by
    rw [← shown_le_iff hsouth' hnorth', latitude_neg, degrees_neg]
    exact hsouth
  have hend : (rows z).width + (rows z).origin = π := by
    simp only [rows]
    ring
  exact hle.trans_eq hend.symm

theorem row_eq (hz : z ≤ 30) : lat2tiley lat z = some ((rows z).column (south lat)) := by
  have hle := (row_le hsouth hnorth).trans_lt (two_pow_lt hz)
  rw [lat2tiley_eq hz, checked_eq (row_nonneg hsouth hnorth) hle.le]

theorem exists_row (hz : z ≤ 30) :
    ∃ y n s, lat2tiley lat z = some y ∧ checked (y + 1) = some (y + 1) ∧ tiley2lat y z = some n ∧
      tiley2lat (y + 1) z = some s ∧ s < lat ∧ lat ≤ n := by
  have hnonneg : 0 ≤ (rows z).column (south lat) := row_nonneg hsouth hnorth
  have hle := (row_le (z := z) hsouth hnorth).trans_lt (two_pow_lt hz)
  obtain ⟨hsouth', hnorth'⟩ := within hsouth hnorth
  obtain ⟨hlt, hge⟩ := between_edges (z := z) hsouth' hnorth'
  refine ⟨_, _, _, row_eq hsouth hnorth hz, ?_, tiley2lat_eq hz _, tiley2lat_eq hz _, hlt, hge⟩
  exact checked_eq (by omega) (by omega)

theorem lat2tiley_half (hz : z < 30) :
    ∃ y, lat2tiley lat (z + 1) = some y ∧ lat2tiley lat z = some (y / 2) := by
  have hhalf : (rows (z + 1)).column (south lat) / 2 = (rows z).column (south lat) := by
    exact (rows z).column_refine (south lat) Nat.two_pos
  refine ⟨(rows (z + 1)).column (south lat), ?_, ?_⟩
  · exact_mod_cast row_eq (z := z + 1) hsouth hnorth hz
  · rw [row_eq hsouth hnorth hz.le, hhalf]

end Map

theorem south_degrees (x : ℝ) : south (degrees (latitude (-x))) = x := by
  rw [south, radians_degrees, ordinate_latitude, neg_neg]

theorem lat2tiley_tiley2lat (hz : z ≤ 30) {k : ℤ} (hk : 0 ≤ k) (hk' : k ≤ 2 ^ z) :
    ∃ lat, tiley2lat k z = some lat ∧ lat2tiley lat z = some k := by
  refine ⟨_, tiley2lat_eq hz k, ?_⟩
  rw [lat2tiley_eq hz, south_degrees, Grid.column_edge]
  exact checked_eq hk (hk'.trans (two_pow_lt hz).le)

/-- The rows of the map, at every zoom and from one zoom to the next. -/
theorem latitude_tiles {z : ℤ} (hz : 0 ≤ z) (hz' : z ≤ 30) :
    (∀ lat, -edgeLatitude ≤ lat → lat ≤ edgeLatitude → ∃ y n s, lat2tiley lat z = some y ∧
      checked (y + 1) = some (y + 1) ∧ tiley2lat y z = some n ∧ tiley2lat (y + 1) z = some s ∧
      s < lat ∧ lat ≤ n) ∧
    (∀ k : ℤ, 0 ≤ k → k ≤ 2 ^ z.toNat → ∃ lat, tiley2lat k z = some lat ∧ lat2tiley lat z = some k) ∧
    (z < 30 → ∀ lat, -edgeLatitude ≤ lat → lat ≤ edgeLatitude →
      ∃ y, lat2tiley lat (z + 1) = some y ∧ lat2tiley lat z = some (y / 2)) ∧
    (∀ lat y, -90 < lat → lat < 90 → lat2tiley lat z = some y →
      (0 ≤ y ∧ y < 2 ^ z.toNat ↔ -edgeLatitude < lat ∧ lat ≤ edgeLatitude)) := by
  lift z to Nat using hz
  refine ⟨fun lat hsouth hnorth => ?_, fun k hk hk' => ?_, fun hlt lat hsouth hnorth => ?_,
    fun lat y hsouth hnorth hy => ?_⟩
  · exact exists_row hsouth hnorth (by omega)
  · exact lat2tiley_tiley2lat (by omega) hk hk'
  · exact lat2tiley_half hsouth hnorth (by omega)
  · rw [lat2tiley_eq (by omega), checked_eq_some] at hy
    rw [← hy.1]
    exact column_mem_iff hsouth hnorth

theorem latitude_tiles_equator :
    (∃ y, lat2tiley 0 (29 + 1) = some y ∧ lat2tiley 0 29 = some (y / 2)) ∧
      ∃ lat, tiley2lat (2 ^ 29) 29 = some lat ∧ lat2tiley lat 29 = some (2 ^ 29) := by
  have hedge := edgeLatitude_pos
  have h := latitude_tiles (z := 29) (by decide) (by decide)
  refine ⟨h.2.2.1 (by decide) 0 (by linarith) hedge.le, h.2.1 (2 ^ 29) (by decide) (by decide)⟩

/-- The latitude of a row of pixels, of which a tile has 256. -/
noncomputable def shownLatitude (z : Nat) (p : ℝ) : ℝ :=
  degrees (latitude (-(p / (rows (z + 8)).cells * (rows (z + 8)).width + (rows (z + 8)).origin)))

noncomputable def shownLongitude (z : Nat) (p : ℝ) : ℝ :=
  p / (world ℝ (z + 8)).cells * (world ℝ (z + 8)).width + (world ℝ (z + 8)).origin

section Resolution

theorem oneShiftLeft_pixels (hz : z ≤ 22) : oneShiftLeft (z + 8) = some (2 ^ (z + 8)) := by
  exact_mod_cast oneShiftLeft_eq (z := z + 8) (by omega)

theorem equator_eq : 2.0 * π * earthRadius * 1000.0 = 2 * π * earthRadius * 1000 := by norm_num

theorem groundResolutionX_eq (hz : z ≤ 22) (lat : ℝ) : groundResolutionX lat z =
    some (cos (radians lat) * (2 * π * earthRadius * 1000) / 2 ^ (z + 8)) := by
  rw [groundResolutionX, oneShiftLeft_pixels hz, Option.map_some, radians, equator_eq]
  norm_cast

theorem groundResolutionY_eq (hz : z ≤ 22) :
    groundResolutionY z = some (2 * π * earthRadius * 1000 / 2 ^ (z + 8)) := by
  rw [groundResolutionY, oneShiftLeft_pixels hz, Option.map_some, equator_eq]
  norm_cast

theorem shownLatitude_eq (z : Nat) (p : ℝ) :
    shownLatitude z p = degrees (latitude (π - 2 * π / 2 ^ (z + 8) * p)) := by
  have hcells : ((rows (z + 8)).cells : ℝ) = 2 ^ (z + 8) := Nat.cast_pow 2 (z + 8)
  rw [shownLatitude, hcells]
  congr 2
  simp only [rows]
  ring

theorem shownLongitude_eq (z : Nat) (p : ℝ) : shownLongitude z p = 360 / 2 ^ (z + 8) * p - 180 := by
  have hcells : ((world ℝ (z + 8)).cells : ℝ) = 2 ^ (z + 8) := Nat.cast_pow 2 (z + 8)
  rw [shownLongitude, hcells, world_width, world_origin]
  ring

theorem tiley2lat_shown (hz : z ≤ 22) (k : ℤ) : tiley2lat k z = some (shownLatitude z (256 * k)) := by
  have hcells : ((rows z).cells : ℝ) = 2 ^ z := Nat.cast_pow 2 z
  have hn : -(rows z).edge k = π - 2 * π / 2 ^ (z + 8) * (256 * k) := by
    rw [Grid.edge, hcells, pow_add]
    simp only [rows]
    ring
  rw [tiley2lat_eq (by omega), hn, shownLatitude_eq]

theorem tilex2lon_shown (hz : z ≤ 22) (k : ℤ) : tilex2lon k z = some (shownLongitude z (256 * k)) := by
  have hcells : ((world ℝ z).cells : ℝ) = 2 ^ z := Nat.cast_pow 2 z
  have hlon : (world ℝ z).edge k = shownLongitude z (256 * k) := by
    rw [Grid.edge, hcells, world_width, world_origin, shownLongitude_eq, pow_add]
    ring
  rw [tilex2lon_eq (by omega), hlon]

theorem hasDerivAt_shownLatitude (p : ℝ) :
    HasDerivAt (fun p => 1000 * earthRadius * radians (shownLatitude z p))
      (-(cos (radians (shownLatitude z p)) * (2 * π * earthRadius * 1000) / 2 ^ (z + 8))) p := by
  have hinner : HasDerivAt (fun p : ℝ => π - 2 * π / 2 ^ (z + 8) * p) (-(2 * π / 2 ^ (z + 8))) p := by
    have hline := ((hasDerivAt_id' p).const_mul (2 * π / 2 ^ (z + 8))).const_sub π
    rwa [mul_one] at hline
  have houter := ((hasDerivAt_latitude _).comp p hinner).const_mul (1000 * earthRadius)
  simp only [shownLatitude_eq, radians_degrees]
  refine houter.congr_deriv ?_
  ring

theorem hasDerivAt_shownLongitude (lat p : ℝ) :
    HasDerivAt (fun p => 1000 * earthRadius * cos (radians lat) * radians (shownLongitude z p))
      (cos (radians lat) * (2 * π * earthRadius * 1000) / 2 ^ (z + 8)) p := by
  generalize cos (radians lat) = c
  have hline := ((hasDerivAt_id' p).const_mul (360 / 2 ^ (z + 8))).sub_const (180 : ℝ)
  have hradians := ((hline.mul_const π).div_const 180).const_mul (1000 * earthRadius * c)
  simp only [shownLongitude_eq, radians_eq]
  refine hradians.congr_deriv ?_
  ring

theorem cos_radians_eq_one (hsouth : -90 < lat) (hnorth : lat < 90) : cos (radians lat) = 1 ↔ lat = 0 := by
  obtain ⟨hlow, hhigh⟩ := radians_mem hsouth hnorth
  have hpi := pi_pos
  rw [cos_eq_one_iff_of_lt_of_lt (by linarith) (by linarith), radians_eq]
  constructor
  · intro h
    have hlat : lat * π = 0 := by linarith
    exact (mul_eq_zero.mp hlat).resolve_right hpi.ne'
  · intro h
    rw [h, zero_mul, zero_div]

theorem groundResolution_le (hz : z ≤ 22) (hsouth : -90 < lat) (hnorth : lat < 90) :
    ∃ x y, groundResolutionX lat z = some x ∧ groundResolutionY z = some y ∧ 0 < x ∧ x ≤ y ∧
      (x = y ↔ lat = 0) := by
  have hequator : 0 < 2 * π * earthRadius * 1000 / 2 ^ (z + 8) := by
    unfold earthRadius
    positivity
  have hx : cos (radians lat) * (2 * π * earthRadius * 1000) / 2 ^ (z + 8) =
      cos (radians lat) * (2 * π * earthRadius * 1000 / 2 ^ (z + 8)) := mul_div_assoc ..
  refine ⟨_, _, groundResolutionX_eq hz lat, groundResolutionY_eq hz, ?_, ?_, ?_⟩
  · rw [hx]
    exact mul_pos (cos_pos_of_mem_Ioo (radians_mem hsouth hnorth)) hequator
  · rw [hx]
    exact mul_le_of_le_one_left hequator.le (cos_le_one _)
  · rw [hx, mul_eq_right₀ hequator.ne', cos_radians_eq_one hsouth hnorth]

end Resolution

theorem groundResolution_exact {z : ℤ} (hz : 0 ≤ z) (hz' : z ≤ 22) :
    (∀ k : ℤ, tiley2lat k z = some (shownLatitude z.toNat (256 * k)) ∧
      tilex2lon k z = some (shownLongitude z.toNat (256 * k))) ∧
    (∀ p q : ℝ, ∃ resol, groundResolutionX (shownLatitude z.toNat p) z = some resol ∧
      HasDerivAt (fun p => 1000 * earthRadius * radians (shownLatitude z.toNat p)) (-resol) p ∧
      HasDerivAt (fun q => 1000 * earthRadius * cos (radians (shownLatitude z.toNat p)) *
        radians (shownLongitude z.toNat q)) resol q) ∧
    (∀ lat, -90 < lat → lat < 90 → ∃ x y, groundResolutionX lat z = some x ∧
      groundResolutionY z = some y ∧ 0 < x ∧ x ≤ y ∧ (x = y ↔ lat = 0)) := by
  lift z to Nat using hz
  have hzoom : z ≤ 22 := by omega
  refine ⟨fun k => ⟨tiley2lat_shown hzoom k, tilex2lon_shown hzoom k⟩, fun p q => ?_,
    fun lat hsouth hnorth => groundResolution_le hzoom hsouth hnorth⟩
  exact ⟨_, groundResolutionX_eq hzoom _, hasDerivAt_shownLatitude p, hasDerivAt_shownLongitude _ q⟩

theorem groundResolution_exact_sixty :
    (tiley2lat 1 22 = some (shownLatitude 22 256) ∧ tilex2lon 1 22 = some (shownLongitude 22 256)) ∧
    (∃ resol, groundResolutionX (shownLatitude 22 256) 22 = some resol ∧
      HasDerivAt (fun p => 1000 * earthRadius * radians (shownLatitude 22 p)) (-resol) 256 ∧
      HasDerivAt (fun q => 1000 * earthRadius * cos (radians (shownLatitude 22 256)) *
        radians (shownLongitude 22 q)) resol 256) ∧
    ∃ x y, groundResolutionX 60 22 = some x ∧ groundResolutionY 22 = some y ∧ 0 < x ∧ x ≤ y ∧
      (x = y ↔ (60 : ℝ) = 0) := by
  have h := groundResolution_exact (z := 22) (by decide) (by decide)
  refine ⟨?_, h.2.1 256 256, h.2.2 60 (by norm_num) (by norm_num)⟩
  simpa using h.1 1

section Main

variable {lon : ℝ} (hsouth : -edgeLatitude ≤ lat) (hnorth : lat ≤ edgeLatitude) (hwest : -180 ≤ lon)
  (heast : lon ≤ 180)

include hsouth hnorth hwest heast

end Main

end RoblSampleCodes.TileLatitude
