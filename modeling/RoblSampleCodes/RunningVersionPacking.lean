import RoblSampleCodes.RunningVersion

namespace RoblSampleCodes.RunningVersionPacking

open ByteMemory CommandCapture RunningVersion

def printed (version : BitVec 32) : Version where
  major := (version >>> 24) &&& 0xFF
  minor := (version >>> 16) &&& 0xFF
  patch := (version >>> 8) &&& 0xFF
  rc := version &&& 0xFF

def HasVersion (text : List Byte) (version : Version) : Prop :=
  let decoStr := nextWord (firstLine text)
  let pkgName := nextWord decoStr.2
  pkgName.1 = ascii "copilot" ∧ scanVersion (cStr (nextWord pkgName.2).1) = some version

instance (text : List Byte) (version : Version) : Decidable (HasVersion text version) :=
  inferInstanceAs (Decidable (_ ∧ _))

def Returns (text : List Byte) (value : BitVec 32) : Prop :=
  ∃ fuel, getRunningVersion fuel (some text) = some value

/-- Each version is rejected or printed as it is, and two versions are not taken for one. -/
def Lossless (text : List Byte) (version : Version) (text' : List Byte) (version' : Version) : Prop :=
  ∃ value value', Returns text value ∧ Returns text' value' ∧
    (value = 0#32 ∨ printed value = version) ∧ (value' = 0#32 ∨ printed value' = version') ∧
    (version ≠ version' → value ≠ value')

def InBytes (version : Version) : Prop :=
  version.major.toNat < 256 ∧ version.minor.toNat < 256 ∧ version.patch.toNat < 256 ∧
    version.rc.toNat < 256

def Vanishes (version : Version) : Prop :=
  version.major.toNat % 2 ^ 8 = 0 ∧ version.minor.toNat % 2 ^ 16 = 0 ∧
    version.patch.toNat % 2 ^ 24 = 0 ∧ version.rc = 0#32

theorem shiftLeft_eq_zero_iff (x : BitVec 32) (k m : Nat) (h : m + k = 32) :
    x <<< k = 0#32 ↔ x.toNat % 2 ^ m = 0 := by
  have hpow : 2 ^ 32 = 2 ^ m * 2 ^ k := by rw [← h, Nat.pow_add]
  rw [← BitVec.toNat_inj, BitVec.toNat_shiftLeft, Nat.shiftLeft_eq, hpow, Nat.mul_mod_mul_right]
  exact Nat.mul_eq_zero.trans (or_iff_left (Nat.two_pow_pos k).ne')

theorem pack_eq_zero_iff (version : Version) : pack version = 0#32 ↔ Vanishes version := by
  rw [pack, BitVec.or_eq_zero_iff, BitVec.or_eq_zero_iff, BitVec.or_eq_zero_iff, and_assoc, and_assoc,
    shiftLeft_eq_zero_iff _ 24 8 rfl, shiftLeft_eq_zero_iff _ 16 16 rfl, shiftLeft_eq_zero_iff _ 8 24 rfl,
    Vanishes]

theorem toNat_low_lt (x : BitVec 32) : (x &&& 0xFF).toNat < 256 := by
  rw [BitVec.toNat_and]
  exact Nat.lt_succ_of_le Nat.and_le_right

theorem inBytes_printed (value : BitVec 32) : InBytes (printed value) :=
  ⟨toNat_low_lt _, toNat_low_lt _, toNat_low_lt _, toNat_low_lt _⟩

theorem getLsbD_of_lt {x : BitVec 32} (h : x.toNat < 256) {i : Nat} (hi : 8 ≤ i) :
    x.getLsbD i = false := by
  have hpow : 2 ^ 8 ≤ 2 ^ i := Nat.pow_le_pow_right (by decide) hi
  rw [← BitVec.testBit_toNat]
  exact Nat.testBit_eq_false_of_lt (by omega)

theorem low_eq {x y : BitVec 32} (hy : y.toNat < 256) (h : ∀ i < 8, x.getLsbD i = y.getLsbD i) :
    x &&& 0xFF = y := by
  apply BitVec.eq_of_getLsbD_eq
  intro i _
  by_cases hi : i < 8
  · rw [BitVec.getLsbD_and, h i hi]
    have hone : (0xFF : BitVec 32).getLsbD i = true := by
      interval_cases i <;> rfl
    rw [hone, Bool.and_true]
  · rw [getLsbD_of_lt (toNat_low_lt x) (not_lt.mp hi), getLsbD_of_lt hy (not_lt.mp hi)]

/-- Bytes do not overlap. -/
theorem printed_pack {version : Version} (h : InBytes version) : printed (pack version) = version := by
  obtain ⟨hmajor, hminor, hpatch, hrc⟩ := h
  have hmajor' : (pack version >>> 24) &&& 0xFF = version.major := low_eq hmajor fun i hi => by
    simp only [pack, BitVec.getLsbD_ushiftRight, BitVec.getLsbD_or, BitVec.getLsbD_shiftLeft]
    rw [getLsbD_of_lt hminor (by omega), getLsbD_of_lt hpatch (by omega), getLsbD_of_lt hrc (by omega)]
    simp [show 24 + i < 32 by omega]
  have hminor' : (pack version >>> 16) &&& 0xFF = version.minor := low_eq hminor fun i hi => by
    simp only [pack, BitVec.getLsbD_ushiftRight, BitVec.getLsbD_or, BitVec.getLsbD_shiftLeft]
    rw [getLsbD_of_lt hpatch (by omega), getLsbD_of_lt hrc (by omega)]
    simp [show 16 + i < 24 by omega, show 16 + i < 32 by omega]
  have hpatch' : (pack version >>> 8) &&& 0xFF = version.patch := low_eq hpatch fun i hi => by
    simp only [pack, BitVec.getLsbD_ushiftRight, BitVec.getLsbD_or, BitVec.getLsbD_shiftLeft]
    rw [getLsbD_of_lt hrc (by omega)]
    simp [show 8 + i < 16 by omega, show 8 + i < 24 by omega, show 8 + i < 32 by omega]
  have hrc' : pack version &&& 0xFF = version.rc := low_eq hrc fun i hi => by
    have hlow : i < 16 := by omega
    have hlow' : i < 24 := by omega
    simp [pack, hi, hlow, hlow']
  rw [printed, hmajor', hminor', hpatch', hrc']

theorem printed_pack_iff (version : Version) : printed (pack version) = version ↔ InBytes version :=
  ⟨fun h => h ▸ inBytes_printed (pack version), printed_pack⟩

theorem returns_iff {text : List Byte} {version : Version} (h0 : 0 ∉ text) (h : HasVersion text version)
    (value : BitVec 32) : Returns text value ↔ value = pack version := by
  have hline : lineVersion (firstLine text) = some (pack version) := by
    rw [lineVersion]
    simp only [h.1, h.2, if_true, Option.map_some]
  have hne : text ≠ [] := by
    rintro rfl
    exact absurd h.1 (by decide)
  have hreturns := @getRunningVersion_eq_some_iff (some text) h0 value
  rw [Option.getD_some, hline, or_iff_right fun hempty => hne hempty.1, and_iff_right hne,
    Option.some.injEq, eq_comm] at hreturns
  exact hreturns

theorem pack_ne_iff {v v' : Version} (h : InBytes v ∨ Vanishes v) (h' : InBytes v' ∨ Vanishes v') :
    (v ≠ v' → pack v ≠ pack v') ↔ v = v' ∨ ¬ (Vanishes v ∧ Vanishes v') := by
  constructor
  · intro hne
    by_cases heq : v = v'
    · exact .inl heq
    · refine .inr fun hboth => hne heq ?_
      rw [(pack_eq_zero_iff v).mpr hboth.1, (pack_eq_zero_iff v').mpr hboth.2]
  · rintro (heq | hnot) hne hpack
    · exact hne heq
    · by_cases hv : Vanishes v
      · have hv' : Vanishes v' := by
          rw [← pack_eq_zero_iff, ← hpack, pack_eq_zero_iff]
          exact hv
        exact hnot ⟨hv, hv'⟩
      · have hv' : ¬ Vanishes v' := by
          rw [← pack_eq_zero_iff, ← hpack, pack_eq_zero_iff]
          exact hv
        apply hne
        rw [← printed_pack (h.resolve_right hv), hpack, printed_pack (h'.resolve_right hv')]

/-- Versions are packed without loss just if their components are bytes or all shifted out, and
they are not two of the latter. -/
theorem lossless_iff {text text' : List Byte} {version version' : Version} (h0 : 0 ∉ text)
    (h0' : 0 ∉ text') (h : HasVersion text version) (h' : HasVersion text' version') :
    Lossless text version text' version' ↔
      (InBytes version ∨ Vanishes version) ∧ (InBytes version' ∨ Vanishes version') ∧
        (version = version' ∨ ¬ (Vanishes version ∧ Vanishes version')) := by
  have hone : ∀ v, (pack v = 0#32 ∨ printed (pack v) = v) ↔ InBytes v ∨ Vanishes v := fun v => by
    rw [pack_eq_zero_iff, printed_pack_iff, or_comm]
  have hlossless : Lossless text version text' version' ↔
      (InBytes version ∨ Vanishes version) ∧ (InBytes version' ∨ Vanishes version') ∧
        (version ≠ version' → pack version ≠ pack version') := by
    rw [← hone, ← hone, Lossless]
    simp only [returns_iff h0 h, returns_iff h0' h']
    simp
  rw [hlossless]
  exact and_congr_right fun hv => and_congr_right fun hv' => pack_ne_iff hv hv'

theorem lossless_iff_expected :
    Lossless (ascii "ii  copilot  0.2.1-rc.16  arm64\n") ⟨0, 2, 1, 16⟩
        (ascii "ii  copilot  0.2.1-rc.17  arm64\n") ⟨0, 2, 1, 17⟩ ↔
      (InBytes ⟨0, 2, 1, 16⟩ ∨ Vanishes ⟨0, 2, 1, 16⟩) ∧ (InBytes ⟨0, 2, 1, 17⟩ ∨ Vanishes ⟨0, 2, 1, 17⟩) ∧
        ((⟨0, 2, 1, 16⟩ : Version) = ⟨0, 2, 1, 17⟩ ∨
          ¬ (Vanishes ⟨0, 2, 1, 16⟩ ∧ Vanishes ⟨0, 2, 1, 17⟩)) :=
  lossless_iff (by decide +kernel) (by decide +kernel) (by decide +kernel) (by decide +kernel)

/-- The release candidates 0 and 256 are packed into the same word, and the second is printed
like the first. -/
theorem not_lossless :
    Returns (ascii "ii  copilot  1.2.3-rc.0  arm64\n") 0x01020300 ∧
      Returns (ascii "ii  copilot  1.2.3-rc.256  arm64\n") 0x01020300 ∧
      HasVersion (ascii "ii  copilot  1.2.3-rc.0  arm64\n") ⟨1, 2, 3, 0⟩ ∧
      HasVersion (ascii "ii  copilot  1.2.3-rc.256  arm64\n") ⟨1, 2, 3, 256⟩ ∧
      printed 0x01020300 = ⟨1, 2, 3, 0⟩ ∧
      ¬ Lossless (ascii "ii  copilot  1.2.3-rc.0  arm64\n") ⟨1, 2, 3, 0⟩
        (ascii "ii  copilot  1.2.3-rc.256  arm64\n") ⟨1, 2, 3, 256⟩ := by
  have hzero : HasVersion (ascii "ii  copilot  1.2.3-rc.0  arm64\n") ⟨1, 2, 3, 0⟩ := by decide +kernel
  have hmany : HasVersion (ascii "ii  copilot  1.2.3-rc.256  arm64\n") ⟨1, 2, 3, 256⟩ := by
    decide +kernel
  have hreturns := returns_iff (by decide +kernel) hzero
  have hreturns' := returns_iff (by decide +kernel) hmany
  refine ⟨(hreturns _).mpr (by decide), (hreturns' _).mpr (by decide), hzero, hmany, by decide, ?_⟩
  rintro ⟨value, value', hvalue, hvalue', -, -, hne⟩
  rw [hreturns] at hvalue
  rw [hreturns'] at hvalue'
  refine hne (by decide) ?_
  rw [hvalue, hvalue']
  decide

end RoblSampleCodes.RunningVersionPacking
