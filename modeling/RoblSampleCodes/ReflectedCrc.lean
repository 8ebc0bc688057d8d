import Mathlib

namespace RoblSampleCodes.ReflectedCrc

variable {w : Nat} (poly : BitVec w)

/-- One bit of a reflected CRC: the remainder moves down, and takes the
polynomial if a one has left it. -/
def bitStep (c : BitVec w) : BitVec w := (c >>> 1) ^^^ (if c.getLsbD 0 then poly else 0#w)

def byteStep (c : BitVec w) (b : BitVec 8) : BitVec w := (bitStep poly)^[8] (c ^^^ b.setWidth w)

def remainder (c : BitVec w) (bytes : List (BitVec 8)) : BitVec w := bytes.foldl (byteStep poly) c

theorem bitStep_xor (x y : BitVec w) : bitStep poly (x ^^^ y) = bitStep poly x ^^^ bitStep poly y := by
  have hbit : (if (x ^^^ y).getLsbD 0 then poly else 0#w) =
      (if x.getLsbD 0 then poly else 0#w) ^^^ (if y.getLsbD 0 then poly else 0#w) := by
    rw [BitVec.getLsbD_xor]
    cases x.getLsbD 0 <;> cases y.getLsbD 0 <;> simp
  rw [bitStep, hbit, BitVec.ushiftRight_xor_distrib, bitStep, bitStep]
  ac_rfl

theorem iterate_xor (n : Nat) (x y : BitVec w) :
    (bitStep poly)^[n] (x ^^^ y) = (bitStep poly)^[n] x ^^^ (bitStep poly)^[n] y := by
  induction n generalizing x y with
  | zero => rfl
  | succ n ih => simp only [Function.iterate_succ_apply, bitStep_xor, ih]

theorem iterate_shift {n : Nat} {x : BitVec w} (h : ∀ i < n, x.getLsbD i = false) :
    (bitStep poly)^[n] x = x >>> n := by
  induction n with
  | zero => simp
  | succ n ih =>
    have hbit : (x >>> n).getLsbD 0 = false := by
      rw [BitVec.getLsbD_ushiftRight]
      exact h n (Nat.lt_succ_self n)
    rw [Function.iterate_succ_apply', ih (fun i hi => h i (Nat.lt_succ_of_lt hi)), bitStep, hbit]
    simp [BitVec.shiftRight_add]

theorem split_low (x mask : BitVec w) : (x &&& mask) ^^^ (x &&& ~~~mask) = x := by
  apply BitVec.eq_of_getElem_eq
  intro i hi
  simp only [BitVec.getElem_xor, BitVec.getElem_and, BitVec.getElem_not]
  cases x[i] <;> cases mask[i] <;> rfl

theorem getLsbD_low (i : Nat) : (255#w).getLsbD i = decide (i < w ∧ i < 8) := by
  have hmask : (255 : Nat) = 2 ^ 8 - 1 := rfl
  rw [BitVec.getLsbD_ofNat, hmask, Nat.testBit_two_pow_sub_one, Bool.decide_and]

/-- Eight bits of the remainder: those of its low byte, and the others moved down. -/
theorem iterate_eight (x : BitVec w) :
    (bitStep poly)^[8] x = (bitStep poly)^[8] (x &&& 255#w) ^^^ (x >>> 8) := by
  have hclear : ∀ i < 8, (x &&& ~~~255#w).getLsbD i = false := by
    intro i hi
    rw [BitVec.getLsbD_and, BitVec.getLsbD_not, getLsbD_low]
    by_cases hw : i < w <;> simp [hi, hw]
  have hhigh : (x &&& ~~~255#w) >>> 8 = x >>> 8 := by
    apply BitVec.eq_of_getLsbD_eq
    intro i _
    rw [BitVec.getLsbD_ushiftRight, BitVec.getLsbD_ushiftRight, BitVec.getLsbD_and, BitVec.getLsbD_not,
      getLsbD_low]
    by_cases hw : 8 + i < w
    · simp [hw]
    · simp [BitVec.getLsbD_of_ge x (8 + i) (by omega)]
  calc (bitStep poly)^[8] x
      = (bitStep poly)^[8] ((x &&& 255#w) ^^^ (x &&& ~~~255#w)) := by rw [split_low]
    _ = (bitStep poly)^[8] (x &&& 255#w) ^^^ (x >>> 8) := by
      rw [iterate_xor, iterate_shift poly hclear, hhigh]

/-- A byte at a time, with the eight bits of the low byte from a table. -/
theorem byteStep_table {table : Nat → BitVec w}
    (htable : ∀ i < 256, table i = (bitStep poly)^[8] (BitVec.ofNat w i)) (hw : 8 ≤ w) (c : BitVec w)
    (b : BitVec 8) :
    byteStep poly c b = table ((c ^^^ b.setWidth w) &&& 255#w).toNat ^^^ (c >>> 8) := by
  have hb : (b.setWidth w) >>> 8 = 0#w := by
    apply BitVec.eq_of_getLsbD_eq
    intro i _
    rw [BitVec.getLsbD_ushiftRight, BitVec.getLsbD_setWidth, BitVec.getLsbD_of_ge b (8 + i) (by omega)]
    simp
  have hlt : ((c ^^^ b.setWidth w) &&& 255#w).toNat < 256 := by
    have hpow : 2 ^ 8 ≤ 2 ^ w := Nat.pow_le_pow_right (by decide) hw
    rw [BitVec.toNat_and, BitVec.toNat_ofNat, Nat.mod_eq_of_lt (by omega)]
    exact Nat.lt_succ_of_le Nat.and_le_right
  rw [htable _ hlt, BitVec.ofNat_toNat, BitVec.setWidth_eq, byteStep, iterate_eight,
    BitVec.ushiftRight_xor_distrib, hb, BitVec.xor_zero]

theorem remainder_append (c : BitVec w) (xs ys : List (BitVec 8)) :
    remainder poly c (xs ++ ys) = remainder poly (remainder poly c xs) ys :=
  List.foldl_append

theorem getLsbD_bitStep_last (c : BitVec (w + 1)) {poly : BitVec (w + 1)} (hpoly : poly.getLsbD w = true) :
    (bitStep poly c).getLsbD w = c.getLsbD 0 := by
  have hshift : (c >>> 1).getLsbD w = false := by
    rw [BitVec.getLsbD_ushiftRight]
    exact BitVec.getLsbD_of_ge c (1 + w) (by omega)
  rw [bitStep, BitVec.getLsbD_xor, hshift, Bool.false_xor]
  cases c.getLsbD 0 <;> simp [hpoly]

theorem bitStep_injective {poly : BitVec (w + 1)} (hpoly : poly.getLsbD w = true) :
    Function.Injective (bitStep poly) := by
  intro c d h
  have hlow : c.getLsbD 0 = d.getLsbD 0 := by
    rw [← getLsbD_bitStep_last c hpoly, ← getLsbD_bitStep_last d hpoly, h]
  have hhigh : c >>> 1 = d >>> 1 := by
    rw [bitStep, bitStep, hlow] at h
    exact (BitVec.xor_left_inj _).mp h
  apply BitVec.eq_of_getLsbD_eq
  intro i _
  cases i with
  | zero => exact hlow
  | succ i =>
    have hi := congrArg (fun x => x.getLsbD i) hhigh
    simpa only [BitVec.getLsbD_ushiftRight, Nat.add_comm 1 i] using hi

theorem byteStep_injective {poly : BitVec (w + 1)} (hpoly : poly.getLsbD w = true) (b : BitVec 8) :
    Function.Injective (fun c => byteStep poly c b) := by
  intro c d h
  exact (BitVec.xor_left_inj _).mp ((bitStep_injective hpoly).iterate 8 h)

/-- Different remainders stay different. -/
theorem remainder_injective {poly : BitVec (w + 1)} (hpoly : poly.getLsbD w = true)
    (bytes : List (BitVec 8)) : Function.Injective (fun c => remainder poly c bytes) := by
  induction bytes with
  | nil => exact fun c d h => h
  | cons b bytes ih => exact ih.comp (byteStep_injective hpoly b)

def packed (w : Nat) : List (BitVec 8) → BitVec w
  | [] => 0#w
  | b :: bytes => b.setWidth w ^^^ packed w bytes <<< 8

theorem getLsbD_packed (bytes : List (BitVec 8)) {i : Nat} (h : 8 * bytes.length ≤ i) :
    (packed w bytes).getLsbD i = false := by
  induction bytes generalizing i with
  | nil => exact BitVec.getLsbD_zero
  | cons b bytes ih =>
    rw [List.length_cons] at h
    have hb : b.getLsbD i = false := BitVec.getLsbD_of_ge b i (by omega)
    rw [packed, BitVec.getLsbD_xor, BitVec.getLsbD_setWidth, BitVec.getLsbD_shiftLeft, hb, ih (by omega),
      Bool.and_false, Bool.and_false, Bool.xor_false]

theorem iterate_packed (bytes : List (BitVec 8)) (h : 8 * (bytes.length + 1) ≤ w) :
    (bitStep poly)^[8] (packed w bytes <<< 8) = packed w bytes := by
  rw [iterate_shift]
  · apply BitVec.eq_of_getLsbD_eq
    intro i _
    rw [BitVec.getLsbD_ushiftRight, BitVec.getLsbD_shiftLeft, Nat.add_sub_cancel_left]
    by_cases hi : 8 + i < w
    · simp [hi]
    · rw [getLsbD_packed bytes (by omega), Bool.and_false]
  · intro i hi
    rw [BitVec.getLsbD_shiftLeft]
    simp [hi]

theorem remainder_eq_packed (c : BitVec w) (bytes : List (BitVec 8)) (h : 8 * bytes.length ≤ w) :
    remainder poly c bytes = (bitStep poly)^[8 * bytes.length] (c ^^^ packed w bytes) := by
  induction bytes generalizing c with
  | nil => simp [remainder, packed]
  | cons b bytes ih =>
    rw [List.length_cons] at h
    have hstep : byteStep poly c b ^^^ packed w bytes =
        (bitStep poly)^[8] (c ^^^ packed w (b :: bytes)) := by
      rw [packed, ← BitVec.xor_assoc, iterate_xor, iterate_packed poly bytes h, byteStep]
    calc remainder poly c (b :: bytes)
        = remainder poly (byteStep poly c b) bytes := rfl
      _ = (bitStep poly)^[8 * bytes.length] (byteStep poly c b ^^^ packed w bytes) := ih _ (by omega)
      _ = (bitStep poly)^[8 * (b :: bytes).length] (c ^^^ packed w (b :: bytes)) := by
        rw [hstep, ← Function.iterate_add_apply, List.length_cons, Nat.mul_succ]

theorem packed_inj {xs ys : List (BitVec 8)} (hlen : xs.length = ys.length) (h : 8 * xs.length ≤ w)
    (heq : packed w xs = packed w ys) : xs = ys := by
  induction xs generalizing ys with
  | nil => exact (List.length_eq_zero_iff.mp hlen.symm).symm
  | cons x xs ih =>
    cases ys with
    | nil => cases hlen
    | cons y ys =>
      rw [List.length_cons] at h hlen
      rw [List.length_cons, Nat.add_right_cancel_iff] at hlen
      have hbits : ∀ i, (x.setWidth w ^^^ packed w xs <<< 8).getLsbD i =
          (y.setWidth w ^^^ packed w ys <<< 8).getLsbD i := fun i =>
        congrArg (fun z => z.getLsbD i) heq
      simp only [BitVec.getLsbD_xor, BitVec.getLsbD_setWidth, BitVec.getLsbD_shiftLeft] at hbits
      have hhead : x = y := by
        apply BitVec.eq_of_getLsbD_eq
        intro i hi
        have hw : i < w := by omega
        simpa [hi, hw] using hbits i
      subst hhead
      rw [packed, packed, BitVec.xor_right_inj] at heq
      have htail := congrArg (bitStep 0#w)^[8] heq
      rw [iterate_packed _ xs h, iterate_packed _ ys (by omega)] at htail
      rw [ih hlen (by omega) htail]

/-- A word of bytes, at most as wide as the remainder, is told from every other one, whatever
comes before and after. -/
theorem remainder_ne {poly : BitVec (w + 1)} (hpoly : poly.getLsbD w = true) (c : BitVec (w + 1))
    {xs ys : List (BitVec 8)} (hlen : xs.length = ys.length) (h : 8 * xs.length ≤ w + 1) (hne : xs ≠ ys)
    (before after : List (BitVec 8)) :
    remainder poly c (before ++ xs ++ after) ≠ remainder poly c (before ++ ys ++ after) := by
  have hword : ∀ d, remainder poly d xs ≠ remainder poly d ys := by
    intro d
    rw [remainder_eq_packed poly d xs h, remainder_eq_packed poly d ys (hlen ▸ h), hlen]
    refine ((bitStep_injective hpoly).iterate _).ne fun heq => hne ?_
    exact packed_inj hlen h ((BitVec.xor_right_inj d).mp heq)
  rw [remainder_append, remainder_append, remainder_append, remainder_append]
  exact (remainder_injective hpoly after).ne (hword _)

end RoblSampleCodes.ReflectedCrc
