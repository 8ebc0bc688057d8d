import RoblSampleCodes.CheckedInt
import RoblSampleCodes.ThreadCount
import RoblSampleCodes.TransitionSystem

namespace RoblSampleCodes.VectorAdd

open CheckedInt TransitionSystem ThreadCount

variable {F : Type}

def loop (plus : F → F → F) (a b : ℤ → F) (n : ℕ) (c : ℤ → F) : ℤ → F :=
  (List.range n).foldl (fun c (i : ℕ) => Function.update c (i : ℤ) (plus (a i) (b i))) c

def blockDim : ℕ := 256

/-- The number of blocks of the launch, in `int` arithmetic. -/
def gridDim (n : ℤ) : Option ℤ := (checked (n + 255)).map fun x => x.tdiv 256

/-- `blockIdx.x * blockDim.x + threadIdx.x` is unsigned, and `i` is an `int`. -/
def index (blockIdx threadIdx : ℕ) : ℤ :=
  (BitVec.ofNat 32 blockIdx * BitVec.ofNat 32 blockDim + BitVec.ofNat 32 threadIdx).toInt

inductive Pc (F : Type)
  | entry
  | loadA (i : ℤ)
  | loadB (i : ℤ) (x : F)
  | store (i : ℤ) (x y : F)
  | exited

abbrev Thread (grid : ℕ) := Fin grid × Fin blockDim

structure State (F : Type) (grid : ℕ) where
  c : ℤ → F
  pc : Thread grid → Pc F

/-- A step of a thread. Its accesses have to stay within the arrays. -/
def add (plus : F → F → F) (n : ℤ) (devA devB c : ℤ → F) (i : ℤ) : Pc F → Option ((ℤ → F) × Pc F)
  | .entry => if i < n then some (c, .loadA i) else some (c, .exited)
  | .loadA i => if 0 ≤ i ∧ i < n then some (c, .loadB i (devA i)) else none
  | .loadB i x => if 0 ≤ i ∧ i < n then some (c, .store i x (devB i)) else none
  | .store i x y => if 0 ≤ i ∧ i < n then some (Function.update c i (plus x y), .exited) else none
  | .exited => none

/-- The threads of the launch in any order. What `cudaMalloc` leaves in `dev_c` is open. -/
def kernel (plus : F → F → F) (n : ℤ) (a b : ℤ → F) (grid : ℕ) : System (State F grid) (Thread grid) where
  init s := ∀ t, s.pc t = .entry
  step s t := (add plus n a b s.c (index t.1 t.2) (s.pc t)).map fun (c, p) => ⟨c, Function.update s.pc t p⟩

theorem gridDim_eq {n : ℤ} (h0 : 0 ≤ n) (hn : n ≤ intMax - 255) : gridDim n = some ((n + 255) / 256) := by
  rw [gridDim, checked_eq (by omega) (by omega), Option.map_some, Int.tdiv_eq_ediv_of_nonneg (by omega)]

theorem index_eq {n : ℤ} (hn : n ≤ intMax - 255) {blockIdx threadIdx : ℕ}
    (hblock : (blockIdx : ℤ) < (n + 255) / 256) (hthread : threadIdx < blockDim) :
    index blockIdx threadIdx = blockIdx * 256 + threadIdx := by
  have hlt : 2 * (blockIdx * blockDim + threadIdx) < 2 ^ 32 := by
    unfold intMax at hn
    unfold blockDim at *
    omega
  have hnat : (BitVec.ofNat 32 (blockIdx * blockDim + threadIdx)).toNat =
      blockIdx * blockDim + threadIdx := Nat.mod_eq_of_lt (by omega)
  rw [index, ← BitVec.ofNat_mul, ← BitVec.ofNat_add, BitVec.toInt_eq_toNat_of_lt (by rwa [hnat]), hnat,
    blockDim]
  push_cast
  rfl

theorem loop_apply (plus : F → F → F) (a b : ℤ → F) (n : ℕ) (c : ℤ → F) {i : ℤ} (h0 : 0 ≤ i) (hn : i < n) :
    loop plus a b n c i = plus (a i) (b i) := by
  induction n with
  | zero => exact absurd (h0.trans_lt hn) (lt_irrefl _)
  | succ n ih =>
    rw [loop, List.range_succ, List.foldl_append, List.foldl_cons, List.foldl_nil]
    by_cases heq : i = n
    · rw [heq, Function.update_self]
    · rw [Function.update_of_ne heq]
      exact ih (by omega)

section Kernel

variable {plus : F → F → F} {n : ℤ} {a b : ℤ → F} {grid : ℕ} {s s' : State F grid}

def Known (plus : F → F → F) (n : ℤ) (a b c : ℤ → F) (i : ℤ) : Pc F → Prop
  | .entry => True
  | .loadA j => j = i ∧ i < n
  | .loadB j x => j = i ∧ i < n ∧ x = a i
  | .store j x y => j = i ∧ i < n ∧ x = a i ∧ y = b i
  | .exited => i < n → c i = plus (a i) (b i)

theorem add_known {c c' : ℤ → F} {i : ℤ} {p p' : Pc F} (hk : Known plus n a b c i p)
    (h : add plus n a b c i p = some (c', p')) :
    Known plus n a b c' i p' ∧ (c' = c ∨ c' = Function.update c i (plus (a i) (b i))) := by
  cases p with
  | entry =>
    simp only [add] at h
    split at h <;> rename_i hi <;> cases h
    · exact ⟨⟨rfl, hi⟩, .inl rfl⟩
    · exact ⟨fun hlt => absurd hlt hi, .inl rfl⟩
  | loadA j =>
    simp only [add, Option.ite_none_right_eq_some] at h
    obtain ⟨-, ⟨⟩⟩ := h
    obtain ⟨rfl, hi⟩ := hk
    exact ⟨⟨rfl, hi, rfl⟩, .inl rfl⟩
  | loadB j x =>
    simp only [add, Option.ite_none_right_eq_some] at h
    obtain ⟨-, ⟨⟩⟩ := h
    obtain ⟨rfl, hi, hx⟩ := hk
    exact ⟨⟨rfl, hi, hx, rfl⟩, .inl rfl⟩
  | store j x y =>
    simp only [add, Option.ite_none_right_eq_some] at h
    obtain ⟨-, ⟨⟩⟩ := h
    obtain ⟨rfl, -, rfl, rfl⟩ := hk
    exact ⟨fun _ => Function.update_self .., .inr rfl⟩
  | exited => cases h

theorem Known.other {c c' : ℤ → F} {i j : ℤ} {p : Pc F} (hk : Known plus n a b c j p)
    (hc : c' = c ∨ c' = Function.update c i (plus (a i) (b i))) : Known plus n a b c' j p := by
  obtain rfl | rfl := hc
  · exact hk
  · cases p with
    | exited =>
      intro hj
      by_cases heq : j = i
      · rw [heq, Function.update_self]
      · rw [Function.update_of_ne heq]
        exact hk hj
    | _ => exact hk

theorem kernel_step {u : Thread grid} (h : (kernel plus n a b grid).step s u = some s') :
    ∃ p, add plus n a b s.c (index u.1 u.2) (s.pc u) = some (s'.c, p) ∧
      s'.pc = Function.update s.pc u p := by
  obtain ⟨⟨c, p⟩, hadd, rfl⟩ := Option.map_eq_some_iff.mp h
  exact ⟨p, hadd, rfl⟩

theorem known (hs : Reachable (kernel plus n a b grid) s) (t : Thread grid) :
    Known plus n a b s.c (index t.1 t.2) (s.pc t) := by
  induction hs generalizing t with
  | init h =>
    rw [h t]
    trivial
  | @step s s' u _ h ih =>
    obtain ⟨p, hadd, hp⟩ := kernel_step h
    obtain ⟨hself, hc⟩ := add_known (ih u) hadd
    rw [hp]
    by_cases htu : t = u
    · rwa [htu, Function.update_self]
    · rw [Function.update_of_ne htu]
      exact (ih t).other hc

def remaining : Pc F → ℕ
  | .entry => 4
  | .loadA _ => 3
  | .loadB _ _ => 2
  | .store _ _ _ => 1
  | .exited => 0

theorem add_remaining {c c' : ℤ → F} {i : ℤ} {p p' : Pc F} (h : add plus n a b c i p = some (c', p')) :
    remaining p' < remaining p := by
  cases p with
  | entry =>
    simp only [add] at h
    split at h <;> cases h <;> simp [remaining]
  | loadA | loadB | store =>
    simp only [add, Option.ite_none_right_eq_some] at h
    obtain ⟨-, ⟨⟩⟩ := h
    simp [remaining]
  | exited => cases h

theorem length_le_remaining {ts : List (Thread grid)} (h : (kernel plus n a b grid).init s)
    (he : exec (kernel plus n a b grid) s ts = some s') : ts.length ≤ 4 * (grid * blockDim) := by
  have hstep : ∀ u t v, True → (kernel plus n a b grid).step u t = some v →
      True ∧ total remaining v.pc < total remaining u.pc := by
    intro u t v _ h
    obtain ⟨p, hadd, hp⟩ := kernel_step h
    have htotal := total_update remaining u.pc t p
    have hlt := add_remaining hadd
    rw [hp]
    exact ⟨trivial, by omega⟩
  have hlen := length_le_of_measure hstep trivial he
  have hbound : total remaining s.pc ≤ 4 * Fintype.card (Thread grid) :=
    total_le remaining s.pc fun t => (congrArg remaining (h t)).le
  rw [Fintype.card_prod, Fintype.card_fin, Fintype.card_fin] at hbound
  omega

theorem enabled_iff (hs : Reachable (kernel plus n a b grid) s) {t : Thread grid}
    (h0 : 0 ≤ index t.1 t.2) : Enabled (kernel plus n a b grid) s t ↔ s.pc t ≠ .exited := by
  have hk := known hs t
  rw [Enabled, kernel, Option.isSome_map]
  cases hp : s.pc t with
  | entry =>
    simp only [add]
    split <;> simp
  | loadA j | loadB j x | store j x y =>
    rw [hp] at hk
    obtain ⟨rfl, hi⟩ := hk
    simp [add, h0, hi]
  | exited => simp [add]

end Kernel

section Launch

variable {n : ℤ} {grid : ℕ}

theorem index_thread (hn : n ≤ intMax - 255) (hgrid : (grid : ℤ) = (n + 255) / 256) (t : Thread grid) :
    index t.1 t.2 = t.1 * 256 + t.2 := by
  have hblock : (t.1 : ℤ) < (n + 255) / 256 := by
    have hlt := t.1.isLt
    omega
  exact index_eq hn hblock t.2.isLt

theorem exists_thread (hn : n ≤ intMax - 255) (hgrid : (grid : ℤ) = (n + 255) / 256) {i : ℤ} (h0 : 0 ≤ i)
    (hi : i < n) : ∃ t : Thread grid, index t.1 t.2 = i := by
  have hblock : (i / 256).toNat < grid := by omega
  have hthread : (i % 256).toNat < blockDim := by
    unfold blockDim
    omega
  refine ⟨(⟨_, hblock⟩, ⟨_, hthread⟩), ?_⟩
  rw [index_thread hn hgrid]
  simp only
  omega

/-- The launch runs without a race for every length that `int` arithmetic allows, and leaves what the loop
leaves, in whichever order the threads run. -/
theorem kernel_eq_loop (plus : F → F → F) (a b c : ℤ → F) (h0 : 0 ≤ n) (hn : n ≤ intMax - 255) :
    ∃ grid : ℕ, gridDim n = some (grid : ℤ) ∧
      (∀ t u : Thread grid, index t.1 t.2 = index u.1 u.2 → t = u) ∧
      ∀ s ts s', (kernel plus n a b grid).init s → exec (kernel plus n a b grid) s ts = some s' →
        ts.length ≤ 4 * (grid * blockDim) ∧
        ((∀ t, ¬ Enabled (kernel plus n a b grid) s' t) ↔ ∀ t, s'.pc t = .exited) ∧
        ((∀ t, s'.pc t = .exited) → ∀ i, 0 ≤ i → i < n → s'.c i = loop plus a b n.toNat c i) := by
  have hnonneg : 0 ≤ (n + 255) / 256 := Int.ediv_nonneg (by omega) (by decide)
  obtain ⟨grid, hgrid⟩ := Int.eq_ofNat_of_zero_le hnonneg
  have hindex := index_thread hn hgrid.symm
  refine ⟨grid, (gridDim_eq h0 hn).trans (congrArg some hgrid), fun t u heq => ?_,
    fun s ts s' hinit he => ?_⟩
  · have ht := t.2.isLt
    have hu := u.2.isLt
    unfold blockDim at ht hu
    rw [hindex, hindex] at heq
    exact Prod.ext (Fin.ext (by omega)) (Fin.ext (by omega))
  · have hs : Reachable (kernel plus n a b grid) s' := .exec (.init hinit) he
    refine ⟨length_le_remaining hinit he, forall_congr' fun t => ?_, fun hdone i hi hlt => ?_⟩
    · have hpos : 0 ≤ index t.1 t.2 := by
        rw [hindex]
        positivity
      rw [enabled_iff hs hpos, not_not]
    · obtain ⟨t, rfl⟩ := exists_thread hn hgrid.symm hi hlt
      have hk := known hs t
      rw [hdone t] at hk
      rw [hk hlt, loop_apply plus a b n.toNat c hi (by omega)]

/-- Two blocks, of which the second has threads without an element. -/
theorem kernel_eq_loop_twoBlocks : ∃ grid : ℕ, gridDim 300 = some (grid : ℤ) ∧
    (∀ t u : Thread grid, index t.1 t.2 = index u.1 u.2 → t = u) ∧
    ∀ s ts s', (kernel (· + ·) 300 (fun _ => (1 : ℤ)) (fun _ => 1) grid).init s →
      exec (kernel (· + ·) 300 (fun _ => (1 : ℤ)) (fun _ => 1) grid) s ts = some s' →
        ts.length ≤ 4 * (grid * blockDim) ∧
        ((∀ t, ¬ Enabled (kernel (· + ·) 300 (fun _ => (1 : ℤ)) (fun _ => 1) grid) s' t) ↔
          ∀ t, s'.pc t = .exited) ∧
        ((∀ t, s'.pc t = .exited) → ∀ i, 0 ≤ i → i < 300 →
          s'.c i = loop (· + ·) (fun _ => 1) (fun _ => 1) 300 (fun _ => 1) i) :=
  kernel_eq_loop _ _ _ _ (by decide) (by decide)

example : gridDim 300000000 = some 1171875 ∧ gridDim 2147483393 = none := by decide

end Launch

end RoblSampleCodes.VectorAdd
