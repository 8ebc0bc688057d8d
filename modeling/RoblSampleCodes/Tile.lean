import RoblSampleCodes.CheckedInt
import RoblSampleCodes.UniformGrid

namespace RoblSampleCodes.Tile

open CheckedInt UniformGrid

/-- `1 << z` in an `int` of 32 bits, which has no value for other counts. -/
def oneShiftLeft (z : ℤ) : Option ℤ := if 0 ≤ z ∧ z < 32 then some (1#32 <<< z.toNat).toInt else none

variable {K : Type} [Field K] [LinearOrder K]

/-- A `double` is a number of an ordered field, without rounding. -/
def lon2tilex [FloorRing K] (lon : K) (z : ℤ) : Option ℤ :=
  (oneShiftLeft z).bind (fun n => checked ⌊(lon + 180.0) / 360.0 * n⌋)

def tilex2lon (x z : ℤ) : Option K := (oneShiftLeft z).map (fun n : ℤ => (x : K) / n * 360.0 - 180.0)

variable [IsStrictOrderedRing K]

def world (K : Type) [Field K] [LinearOrder K] [IsStrictOrderedRing K] (z : Nat) : Grid K where
  origin := -180.0
  width := 360.0
  cells := 2 ^ z
  width_pos := by norm_num
  cells_pos := Nat.two_pow_pos z

variable {z : Nat} {lon : K}

theorem oneShiftLeft_eq (hz : z ≤ 30) : oneShiftLeft z = some (2 ^ z) := by
  have hpow : 2 ^ z ≤ 2 ^ 30 := Nat.pow_le_pow_right (by decide) hz
  have hval : (1#32 <<< z).toNat = 2 ^ z := by
    rw [BitVec.toNat_shiftLeft, BitVec.toNat_ofNat, Nat.shiftLeft_eq]
    omega
  rw [oneShiftLeft, if_pos (by omega), Int.toNat_natCast, BitVec.toInt_eq_toNat_of_lt (by omega), hval]
  exact congrArg some (Nat.cast_pow 2 z)

theorem two_pow_lt (hz : z ≤ 30) : (2 : ℤ) ^ z < intMax := by
  have hpow : (2 : ℤ) ^ z ≤ 2 ^ 30 := pow_le_pow_right₀ (by decide) hz
  unfold intMax
  omega

theorem cells_eq : ((world K z).cells : ℤ) = 2 ^ z := Nat.cast_pow 2 z

theorem cells_cast : ((world K z).cells : K) = ((2 ^ z : ℤ) : K) := by
  rw [← cells_eq (K := K), Int.cast_natCast]

theorem world_origin : (world K z).origin = -180 := by norm_num [world]

theorem world_width : (world K z).width = 360 := by norm_num [world]

theorem tilex2lon_eq (hz : z ≤ 30) (k : ℤ) : tilex2lon k z = some ((world K z).edge k) := by
  rw [tilex2lon, oneShiftLeft_eq hz, Option.map_some, ← cells_cast, sub_eq_add_neg]
  rfl

variable [FloorRing K]

theorem column_nonneg (hwest : -180 ≤ lon) : 0 ≤ (world K z).column lon :=
  (world K z).column_nonneg (world_origin.trans_le hwest)

theorem column_le (heast : lon ≤ 180) : (world K z).column lon ≤ 2 ^ z := by
  rw [← cells_eq (K := K)]
  apply (world K z).column_le
  calc lon ≤ 180 := heast
    _ = (world K z).width + (world K z).origin := by norm_num [world_width, world_origin]

theorem lon2tilex_eq (hz : z ≤ 30) (hwest : -180 ≤ lon) (heast : lon ≤ 180) :
    lon2tilex lon z = some ((world K z).column lon) := by
  have hcolumn : ⌊(lon + 180.0) / 360.0 * ((2 ^ z : ℤ) : K)⌋ = (world K z).column lon := by
    rw [← cells_cast, Grid.column, ← sub_neg_eq_add]
    rfl
  rw [lon2tilex, oneShiftLeft_eq hz, Option.bind_some, hcolumn]
  exact checked_eq (column_nonneg hwest) ((column_le heast).trans (two_pow_lt hz).le)

theorem exists_tile (hz : z ≤ 30) (hwest : -180 ≤ lon) (heast : lon ≤ 180) :
    ∃ x l r, lon2tilex lon z = some x ∧ checked (x + 1) = some (x + 1) ∧ tilex2lon x z = some l ∧
      tilex2lon (x + 1) z = some r ∧ l ≤ lon ∧ lon < r := by
  have hle := (column_le heast).trans_lt (two_pow_lt hz)
  have hnonneg : 0 ≤ (world K z).column lon := column_nonneg hwest
  refine ⟨(world K z).column lon, (world K z).edge ((world K z).column lon),
    (world K z).edge ((world K z).column lon + 1), lon2tilex_eq hz hwest heast, ?_, tilex2lon_eq hz _,
    tilex2lon_eq hz _, (world K z).edge_column_le lon, (world K z).lt_edge_column_succ lon⟩
  exact checked_eq (by omega) (by omega)

theorem lon2tilex_tilex2lon (hz : z ≤ 30) {k : ℤ} (hk : 0 ≤ k) (hk' : k ≤ 2 ^ z) :
    ∃ lon : K, tilex2lon k z = some lon ∧ lon2tilex lon z = some k := by
  have hmono := (world K z).edge_strictMono.monotone
  have hwest : -180 ≤ (world K z).edge k := by
    calc -180 = (world K z).edge 0 := ((world K z).edge_zero.trans world_origin).symm
      _ ≤ (world K z).edge k := hmono hk
  have heast : (world K z).edge k ≤ 180 := by
    calc (world K z).edge k ≤ (world K z).edge (world K z).cells := hmono (hk'.trans_eq cells_eq.symm)
      _ = (world K z).width + (world K z).origin := (world K z).edge_cells
      _ = 180 := by norm_num [world_width, world_origin]
  refine ⟨(world K z).edge k, tilex2lon_eq hz k, ?_⟩
  rw [lon2tilex_eq hz hwest heast, Grid.column_edge]

theorem lon2tilex_half (hz : z < 30) (hwest : -180 ≤ lon) (heast : lon ≤ 180) :
    ∃ x, lon2tilex lon (z + 1) = some x ∧ lon2tilex lon z = some (x / 2) := by
  have hhalf : (world K (z + 1)).column lon / 2 = (world K z).column lon := by
    exact (world K z).column_refine lon Nat.two_pos
  refine ⟨(world K (z + 1)).column lon, ?_, ?_⟩
  · exact_mod_cast lon2tilex_eq (z := z + 1) hz hwest heast
  · rw [lon2tilex_eq hz.le hwest heast, hhalf]

/-- The two conversions agree at every zoom, and the tiles of a zoom with those of the next one. -/
theorem longitude_tiles {z : ℤ} (hz : 0 ≤ z) (hz' : z ≤ 30) :
    (∀ lon : K, -180 ≤ lon → lon ≤ 180 → ∃ x l r, lon2tilex lon z = some x ∧
      checked (x + 1) = some (x + 1) ∧ tilex2lon x z = some l ∧ tilex2lon (x + 1) z = some r ∧
      l ≤ lon ∧ lon < r) ∧
    (∀ k : ℤ, 0 ≤ k → k ≤ 2 ^ z.toNat →
      ∃ lon : K, tilex2lon k z = some lon ∧ lon2tilex lon z = some k) ∧
    (z < 30 → ∀ lon : K, -180 ≤ lon → lon ≤ 180 →
      ∃ x, lon2tilex lon (z + 1) = some x ∧ lon2tilex lon z = some (x / 2)) := by
  lift z to Nat using hz
  refine ⟨fun lon hwest heast => ?_, fun k hk hk' => ?_, fun hlt lon hwest heast => ?_⟩
  · exact exists_tile (by omega) hwest heast
  · exact lon2tilex_tilex2lon (by omega) hk hk'
  · exact lon2tilex_half (by omega) hwest heast

theorem longitude_tiles_east :
    (∃ x, lon2tilex (180 : ℚ) (29 + 1) = some x ∧ lon2tilex (180 : ℚ) 29 = some (x / 2)) ∧
      ∃ lon : ℚ, tilex2lon (2 ^ 29) 29 = some lon ∧ lon2tilex lon 29 = some (2 ^ 29) := by
  have h := longitude_tiles (K := ℚ) (z := 29) (by decide) (by decide)
  refine ⟨h.2.2 (by decide) 180 ?_ ?_, h.2.1 (2 ^ 29) (by decide) (by decide)⟩
  · norm_num
  · norm_num

end RoblSampleCodes.Tile
