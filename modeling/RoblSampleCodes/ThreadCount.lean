import Mathlib

namespace RoblSampleCodes.ThreadCount

variable {T P A : Type} [Fintype T]

def count (p : P → Bool) (pc : T → P) : Nat := (Finset.univ.filter (fun t => p (pc t))).card

def total [AddCommMonoid A] (k : P → A) (pc : T → P) : A := Finset.univ.sum (fun t => k (pc t))

theorem total_update [DecidableEq T] [AddCommMonoid A] (k : P → A) (pc : T → P) (t : T) (x : P) :
    total k (Function.update pc t x) + k (pc t) = total k pc + k x := by
  have h : ∀ pc' : T → P, total k pc' = k (pc' t) + (Finset.univ.erase t).sum (fun u => k (pc' u)) :=
    fun pc' => (Finset.add_sum_erase _ (fun u => k (pc' u)) (Finset.mem_univ t)).symm
  have he : (Finset.univ.erase t).sum (fun u => k (Function.update pc t x u)) =
      (Finset.univ.erase t).sum (fun u => k (pc u)) :=
    Finset.sum_congr rfl (fun u hu => by rw [Function.update_of_ne (Finset.ne_of_mem_erase hu)])
  rw [h, h pc, he, Function.update_self]
  abel

theorem total_congr [AddCommMonoid A] {k : P → A} {pc pc' : T → P} (h : ∀ t, k (pc' t) = k (pc t)) :
    total k pc' = total k pc := Finset.sum_congr rfl (fun t _ => h t)

theorem total_le (k : P → Nat) (pc : T → P) {bound : Nat} (h : ∀ t, k (pc t) ≤ bound) :
    total k pc ≤ bound * Fintype.card T := by
  have hle := Finset.sum_le_card_nsmul Finset.univ (fun t => k (pc t)) bound fun t _ => h t
  rwa [smul_eq_mul, Nat.mul_comm] at hle

theorem total_toNat [AddCommMonoidWithOne A] (p : P → Bool) (pc : T → P) :
    total (fun x => if p x then (1 : A) else 0) pc = (count p pc : A) := by
  simp only [total, count, Finset.sum_boole]

theorem count_update [DecidableEq T] (p : P → Bool) (pc : T → P) (t : T) (x : P) :
    count p (Function.update pc t x) + (p (pc t)).toNat = count p pc + (p x).toNat := by
  have h := total_update (fun y => if p y then (1 : Nat) else 0) pc t x
  simp only [total_toNat, Nat.cast_id] at h
  cases ht : p (pc t) <;> cases hx : p x <;> simpa [ht, hx] using h

theorem count_congr {p q : P → Bool} {pc pc' : T → P} (h : ∀ t, p (pc' t) = q (pc t)) :
    count p pc' = count q pc := by
  simp only [count, h]

theorem count_pos {p : P → Bool} {pc : T → P} : 0 < count p pc ↔ ∃ t, p (pc t) = true := by
  simp [count, Finset.card_pos, Finset.filter_nonempty_iff]

theorem toNat_le_count (p : P → Bool) (pc : T → P) (t : T) : (p (pc t)).toNat ≤ count p pc := by
  cases ht : p (pc t) with
  | false => exact Nat.zero_le _
  | true => exact count_pos.mpr ⟨t, ht⟩

theorem count_eq_zero {p : P → Bool} {pc : T → P} : count p pc = 0 ↔ ∀ t, p (pc t) = false := by
  simp [count, Finset.filter_eq_empty_iff]

theorem count_le_one {p : P → Bool} {pc : T → P} :
    count p pc ≤ 1 ↔ ∀ t u, p (pc t) = true → p (pc u) = true → t = u := by
  simp only [count, Finset.card_le_one, Finset.mem_filter, Finset.mem_univ, true_and]
  exact ⟨fun h t u ht hu => h t ht u hu, fun h t ht u hu => h t u ht hu⟩

theorem count_mono {Q : Type} {p : P → Bool} {q : Q → Bool} {pc : T → P} {pc' : T → Q}
    (h : ∀ t, p (pc t) = true → q (pc' t) = true) : count p pc ≤ count q pc' :=
  Finset.card_le_card (fun t ht => by
    simp only [Finset.mem_filter, Finset.mem_univ, true_and] at ht ⊢
    exact h t ht)

theorem count_eq_zero_of_imp {p q : P → Bool} {pc : T → P} (h : ∀ x, p x = true → q x = true)
    (hq : ∀ t, q (pc t) = false) : count p pc = 0 := by
  have hle : count p pc ≤ count q pc := count_mono fun t => h (pc t)
  rw [count_eq_zero.mpr hq] at hle
  exact Nat.eq_zero_of_le_zero hle

theorem count_or {p q : P → Bool} (h : ∀ x, p x = true → q x = false) (pc : T → P) :
    count (fun x => p x || q x) pc = count p pc + count q pc := by
  classical
  have hd : Disjoint (Finset.univ.filter (fun t => p (pc t) = true))
      (Finset.univ.filter (fun t => q (pc t) = true)) :=
    Finset.disjoint_filter.mpr (fun t _ hp hq => by simp [h _ hp] at hq)
  simp only [count, Bool.or_eq_true, Finset.filter_or, Finset.card_union_of_disjoint hd]

theorem count_le_card (p : P → Bool) (pc : T → P) : count p pc ≤ Fintype.card T :=
  Finset.card_le_univ _

end RoblSampleCodes.ThreadCount
