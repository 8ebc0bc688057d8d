import RoblSampleCodes.ForkJoin

namespace RoblSampleCodes.Counter

open TransitionSystem ThreadCount ThreadProgram Refinement ForkJoin

inductive AtomicPc
  | loop (i : Nat)
  | increment (i : Nat)

/-- The `worker` of the program with an `std::atomic<int>`, which wraps around. -/
def atomicWorker (iterations : Nat) : Worker (BitVec 32) AtomicPc Empty where
  start := .loop 0
  next counter
    | .loop i => if i < iterations then some (counter, .increment i, .none) else none
    | .increment i => some (counter + 1, .loop (i + 1), .none)

/-- `store` has the value loaded for `counter++`. -/
inductive MutexPc
  | loop (i : Nat)
  | lock (i : Nat)
  | load (i : Nat)
  | store (i : Nat) (value : Int)
  | unlock (i : Nat)

/-- The `worker` of the program with a plain `int` and a `std::mutex`. The overflow of the `int` is
undefined, and only runs without it are meant. -/
def mutexWorker (iterations : Nat) : Worker Int MutexPc Unit where
  start := .loop 0
  next counter
    | .loop i => if i < iterations then some (counter, .lock i, .none) else none
    | .lock i => some (counter, .load i, .lock ())
    | .load i => some (counter, .store i counter, .none)
    | .store i value => some (value + 1, .unlock i, .none)
    | .unlock i => some (counter, .loop (i + 1), .unlock ())

/-- The threads and the iterations of the loops are 4 and 10000, and 4 and 1000000 with the mutex. -/
abbrev atomicCounter (workers iterations : Nat) :=
  (atomicWorker iterations).system workers 0

abbrev mutexCounter (workers iterations : Nat) :=
  (mutexWorker iterations).system workers 0

def absPc : MutexPc → AtomicPc
  | .loop i => .loop i
  | .lock i | .load i | .store i _ => .increment i
  | .unlock i => .loop (i + 1)

def locked : MutexPc → Bool
  | .load _ | .store _ _ | .unlock _ => true
  | _ => false

def holds : Place MutexPc → Unit → Bool
  | .running _ p, _ => locked p
  | _, _ => false

variable {workers iterations : Nat} {s : ForkState Int MutexPc Unit workers}

theorem discipline (workers iterations : Nat) :
    Discipline ((mutexWorker iterations).program workers) (fun _ => True) holds := by
  refine ⟨fun sh p u sh' p' e _ h hfree => ⟨trivial, ?_⟩, fun p h _ => absurd rfl h⟩
  cases place_moves h with
  | @run j p p' c e hnext =>
    cases p with
    | loop i =>
      simp only [mutexWorker, Option.ite_none_right_eq_some] at hnext
      obtain ⟨-, ⟨⟩⟩ := hnext
      exact ⟨rfl, nofun⟩
    | lock i =>
      cases hnext
      exact ⟨funext fun m => by simp [holds, locked, Effect.held], nofun⟩
    | load i | store i value =>
      cases hnext
      exact ⟨rfl, nofun⟩
    | unlock i =>
      cases hnext
      exact ⟨funext fun m => by simp [holds, locked, Effect.held], fun _ _ => rfl⟩
  | @«return» j p hnext =>
    cases p with
    | loop i => exact ⟨rfl, nofun⟩
    | lock | load | store | unlock => cases hnext
  | _ => exact ⟨rfl, nofun⟩

theorem owned (hs : Reachable (mutexCounter workers iterations) s) : Owned holds s := by
  have hall : (∀ _ : Thread workers, True) ∧ Owned holds s := by
    induction hs with
    | init h =>
      subst h
      refine ⟨fun _ => trivial, fun m t => ?_⟩
      cases t <;> simp [initial, holds]
    | step _ h ih => exact step_owned (discipline workers iterations) h ih.1 ih.2
  exact hall.2

def Loaded (sh : Shared Int) : Place MutexPc → Prop
  | .running _ (.store _ value) => value = sh.data
  | _ => True

theorem loaded (hs : Reachable (mutexCounter workers iterations) s) (t : Thread workers) :
    Loaded s.shared (s.pc t) := by
  have hheld : ∀ t, holds (s.pc t) () = true → Loaded s.shared (s.pc t) := by
    induction hs with
    | init h =>
      subst h
      intro t ht
      cases t <;> cases ht
    | @step s s' a hs h ih =>
      refine step_guarded (owned hs) (fun p h => absurd rfl h) ?_ ?_ h ih
      · intro t i p e hn hfree q hq
        have hm := place_moves hn
        generalize s.pc t = y at hm hfree
        generalize s'.shared = sh' at hm ⊢
        cases hm with
        | @run j p p' c e hnext =>
          cases p with
          | loop i =>
            simp only [mutexWorker, Option.ite_none_right_eq_some] at hnext
            obtain ⟨-, ⟨⟩⟩ := hnext
            exact hq
          | lock i =>
            cases hnext
            exact hq
          | load | store | unlock => cases hfree
        | _ => exact hq
      · intro t i p e hn hq hp
        have hm := place_moves hn
        generalize s.pc t = y at hm hq
        generalize s'.shared = sh' at hm ⊢
        cases hm with
        | @run j p p' c e hnext =>
          cases p with
          | loop i =>
            simp only [mutexWorker, Option.ite_none_right_eq_some] at hnext
            obtain ⟨-, ⟨⟩⟩ := hnext
            trivial
          | lock i | store i value | unlock i =>
            cases hnext
            trivial
          | load i =>
            cases hnext
            rfl
        | _ => trivial
  cases hp : s.pc t with
  | running j p =>
    cases p with
    | store i value =>
      have ht := hheld t (by rw [hp]; rfl)
      rwa [hp] at ht
    | _ => trivial
  | _ => trivial

theorem simulates (hs : Reachable (mutexCounter workers iterations) s) {t : Thread workers} {j : Nat}
    {p : MutexPc} (hp : s.pc t = .running j p) :
    Simulates (mutexWorker iterations) (atomicWorker iterations) (BitVec.ofInt 32) absPc
      s.shared.data p := by
  have hloaded := loaded hs t
  rw [hp] at hloaded
  cases p with
  | loop i =>
    refine ⟨fun x p' e hnext => ?_, fun hnone => ?_⟩
    · simp only [mutexWorker, Option.ite_none_right_eq_some] at hnext
      obtain ⟨hi, ⟨⟩⟩ := hnext
      exact .inr (if_pos hi)
    · simp only [mutexWorker, ite_eq_right_iff, reduceCtorEq, imp_false] at hnone
      exact if_neg hnone
  | lock i | load i | unlock i =>
    refine ⟨fun x p' e hnext => ?_, nofun⟩
    cases hnext
    exact .inl ⟨rfl, rfl⟩
  | store i value =>
    refine ⟨fun x p' e hnext => ?_, nofun⟩
    cases hnext
    obtain rfl : value = s.shared.data := hloaded
    refine .inr ?_
    simp only [absPc, atomicWorker, BitVec.ofInt_add]
    rfl

/-- The program with the mutex refines the one with the atomic integer. -/
theorem mutexCounter_refines (workers iterations : Nat) :
    Refines (mutexCounter workers iterations) (atomicCounter workers iterations)
      (absState (BitVec.ofInt 32) absPc) :=
  refines_of_worker (g := absPc) rfl fun _ hs _ _ _ hp => simulates hs hp

section Atomic

variable {s : ForkState (BitVec 32) AtomicPc Empty workers}

def atomicCost (iterations : Nat) : AtomicPc → Nat
  | .loop i => 2 * (iterations - i)
  | .increment i => 2 * (iterations - (i + 1)) + 1

theorem atomic_cost {x x' : BitVec 32} {p p' : AtomicPc} {e : Effect Empty Empty}
    (h : (atomicWorker iterations).next x p = some (x', p', e)) :
    atomicCost iterations p' < atomicCost iterations p := by
  cases p with
  | loop i =>
    simp only [atomicWorker, Option.ite_none_right_eq_some] at h
    obtain ⟨hi, ⟨⟩⟩ := h
    simp only [atomicCost]
    omega
  | increment i =>
    cases h
    exact Nat.lt_succ_self _

theorem atomic_live (workers iterations : Nat) : Live (atomicWorker iterations) workers 0 :=
  fun _ _ ⟨_, _, hp⟩ => running_enabled hp fun _ _ m => nomatch m

def AtomicPc.within (iterations : Nat) : AtomicPc → Prop
  | .loop i => i ≤ iterations
  | .increment i => i < iterations

theorem atomic_within {x x' : BitVec 32} {p p' : AtomicPc} {e : Effect Empty Empty}
    (hp : p.within iterations) (h : (atomicWorker iterations).next x p = some (x', p', e)) :
    p'.within iterations := by
  cases p with
  | loop i =>
    simp only [atomicWorker, Option.ite_none_right_eq_some] at h
    obtain ⟨hi, ⟨⟩⟩ := h
    exact hi
  | increment i =>
    cases h
    exact hp

def AtomicPc.added : AtomicPc → BitVec 32
  | .loop i | .increment i => BitVec.ofNat 32 i

theorem atomic_total (hs : Reachable (atomicCounter workers iterations) s) :
    s.shared.data = total (contribution AtomicPc.added (BitVec.ofNat 32 iterations)) s.pc := by
  refine data_total (f := id) rfl rfl ?_ hs
  intro s hs t j p hp
  have hok : p.within iterations :=
    running_ok (Nat.zero_le iterations) (fun _ _ _ _ _ => atomic_within) hs hp
  cases p with
  | loop i =>
    refine ⟨fun x p' e hnext => ?_, fun hnone => ?_⟩
    · simp only [atomicWorker, Option.ite_none_right_eq_some] at hnext
      obtain ⟨-, ⟨⟩⟩ := hnext
      rfl
    · simp only [atomicWorker, ite_eq_right_iff, reduceCtorEq, imp_false, not_lt] at hnone
      exact congrArg (BitVec.ofNat 32) (Nat.le_antisymm hok hnone)
  | increment i =>
    refine ⟨fun x p' e hnext => ?_, nofun⟩
    cases hnext
    simp only [AtomicPc.added, id, BitVec.ofNat_add, BitVec.add_assoc]
    exact congrArg (s.shared.data + ·) (BitVec.add_comm _ _)

theorem atomicCounter_ends {as : List (Action (Thread workers) Unit)}
    (he : exec (atomicCounter workers iterations) (initial workers 0) as = some s) :
    as.length ≤ workers * (2 * iterations + 4) + 3 ∧
      ((∀ a, ¬ Enabled (atomicCounter workers iterations) s a) →
        s.shared.result = some (BitVec.ofNat 32 (workers * iterations))) := by
  have hs : Reachable (atomicCounter workers iterations) s := .exec (.init rfl) he
  refine ⟨length_le_bound (atomicCost iterations) (fun _ _ _ _ _ => atomic_cost) he, fun hb => ?_⟩
  obtain ⟨hresult, hreturned⟩ := settled (atomic_live workers iterations) hs hb
  have hdata := data_of_returned (f := id) (atomic_total hs) hs hreturned
  have hcount : s.shared.data = BitVec.ofNat 32 (workers * iterations) := by
    refine hdata.trans ?_
    rw [nsmul_eq_mul, BitVec.ofNat_mul]
    rfl
  rw [hresult, hcount]

end Atomic

section Mutex

def mutexCost (iterations : Nat) : MutexPc → Nat
  | .loop i => 5 * (iterations - i)
  | .lock i => 5 * (iterations - (i + 1)) + 4
  | .load i => 5 * (iterations - (i + 1)) + 3
  | .store i _ => 5 * (iterations - (i + 1)) + 2
  | .unlock i => 5 * (iterations - (i + 1)) + 1

theorem mutex_cost {x x' : Int} {p p' : MutexPc} {e : Effect Unit Empty}
    (h : (mutexWorker iterations).next x p = some (x', p', e)) :
    mutexCost iterations p' < mutexCost iterations p := by
  cases p with
  | loop i =>
    simp only [mutexWorker, Option.ite_none_right_eq_some] at h
    obtain ⟨hi, ⟨⟩⟩ := h
    simp only [mutexCost]
    omega
  | lock i | load i | store i value | unlock i =>
    cases h
    simp only [mutexCost]
    omega

theorem mutex_live (workers iterations : Nat) : Live (mutexWorker iterations) workers 0 := by
  rintro s hs ⟨j, p, hp⟩
  cases ho : s.owner () with
  | none => exact running_enabled hp fun _ _ _ _ => ho
  | some t =>
    have hheld := (owned hs () t).mp ho
    cases ht : s.pc t with
    | running i q =>
      rw [ht] at hheld
      refine running_enabled ht fun x p' m hnext => ?_
      cases q with
      | loop | lock => cases hheld
      | load | store | unlock => simp [mutexWorker] at hnext
    | _ =>
      rw [ht] at hheld
      cases hheld

def MutexPc.added : MutexPc → Int
  | .loop i | .lock i | .load i | .store i _ => i
  | .unlock i => i + 1

def MutexPc.within (iterations : Nat) : MutexPc → Prop
  | .loop i => i ≤ iterations
  | .lock i | .load i | .store i _ | .unlock i => i < iterations

theorem mutex_within {x x' : Int} {p p' : MutexPc} {e : Effect Unit Empty}
    (hp : p.within iterations) (h : (mutexWorker iterations).next x p = some (x', p', e)) :
    p'.within iterations := by
  cases p with
  | loop i =>
    simp only [mutexWorker, Option.ite_none_right_eq_some] at h
    obtain ⟨hi, ⟨⟩⟩ := h
    exact hi
  | lock i | load i | store i value | unlock i =>
    cases h
    exact hp

theorem running_within (hs : Reachable (mutexCounter workers iterations) s) {t : Thread workers} {j : Nat}
    {p : MutexPc} (hp : s.pc t = .running j p) : p.within iterations :=
  running_ok (Nat.zero_le iterations) (fun _ _ _ _ _ => mutex_within) hs hp

theorem mutex_total (hs : Reachable (mutexCounter workers iterations) s) :
    s.shared.data = total (contribution MutexPc.added (iterations : Int)) s.pc := by
  refine data_total (f := id) rfl rfl ?_ hs
  intro s hs t j p hp
  have hok := running_within hs hp
  have hloaded := loaded hs t
  rw [hp] at hloaded
  cases p with
  | loop i =>
    refine ⟨fun x p' e hnext => ?_, fun hnone => ?_⟩
    · simp only [mutexWorker, Option.ite_none_right_eq_some] at hnext
      obtain ⟨-, ⟨⟩⟩ := hnext
      rfl
    · simp only [mutexWorker, ite_eq_right_iff, reduceCtorEq, imp_false, not_lt] at hnone
      exact congrArg Nat.cast (Nat.le_antisymm hok hnone)
  | lock i | load i =>
    refine ⟨fun x p' e hnext => ?_, nofun⟩
    cases hnext
    rfl
  | store i value =>
    refine ⟨fun x p' e hnext => ?_, nofun⟩
    cases hnext
    obtain rfl : value = s.shared.data := hloaded
    simp only [MutexPc.added, id]
    ring
  | unlock i =>
    refine ⟨fun x p' e hnext => ?_, nofun⟩
    cases hnext
    simp only [MutexPc.added, id, Nat.cast_succ]

theorem mutex_le (hs : Reachable (mutexCounter workers iterations) s) :
    s.shared.data ≤ workers * iterations := by
  have hmain : contribution MutexPc.added (iterations : Int) (s.pc none) = 0 := by
    have hx := worker_pc hs none
    cases hp : s.pc none <;> first | rfl | (rw [hp] at hx; cases hx)
  have hworker : ∀ j, contribution MutexPc.added (iterations : Int) (s.pc (some j)) ≤ iterations := by
    intro j
    cases hp : s.pc (some j) with
    | running i p =>
      have hok := running_within hs hp
      cases p <;> simp only [MutexPc.within] at hok <;> simp only [contribution, MutexPc.added] <;> omega
    | returned => exact le_refl _
    | _ => exact Int.natCast_nonneg iterations
  have hsum := Finset.sum_le_card_nsmul Finset.univ _ _ fun j _ => hworker j
  rw [mutex_total hs, total, Fintype.sum_option, hmain, zero_add]
  simpa only [Finset.card_univ, Fintype.card_fin, nsmul_eq_mul] using hsum

theorem mutexCounter_ends {as : List (Action (Thread workers) Unit)}
    (he : exec (mutexCounter workers iterations) (initial workers 0) as = some s) :
    as.length ≤ workers * (5 * iterations + 4) + 3 ∧ s.shared.data ≤ workers * iterations ∧
      ((∀ a, ¬ Enabled (mutexCounter workers iterations) s a) →
        s.shared.result = some (workers * iterations : Int)) := by
  have hs : Reachable (mutexCounter workers iterations) s := .exec (.init rfl) he
  refine ⟨length_le_bound (mutexCost iterations) (fun _ _ _ _ _ => mutex_cost) he, mutex_le hs,
    fun hb => ?_⟩
  obtain ⟨hresult, hreturned⟩ := settled (mutex_live workers iterations) hs hb
  have hdata := data_of_returned (f := id) (mutex_total hs) hs hreturned
  have hcount : s.shared.data = workers * iterations := hdata.trans (nsmul_eq_mul _ _)
  rw [hresult, hcount]

end Mutex

/-- Every run of the two programs ends, and the main thread then prints the count of all iterations. -/
theorem counter_total (workers iterations : Nat) :
    (∀ as s, exec (atomicCounter workers iterations) (initial workers 0) as = some s →
      as.length ≤ workers * (2 * iterations + 4) + 3 ∧
        ((∀ a, ¬ Enabled (atomicCounter workers iterations) s a) →
          s.shared.result = some (BitVec.ofNat 32 (workers * iterations)))) ∧
    ∀ as s, exec (mutexCounter workers iterations) (initial workers 0) as = some s →
      as.length ≤ workers * (5 * iterations + 4) + 3 ∧ s.shared.data ≤ workers * iterations ∧
        ((∀ a, ¬ Enabled (mutexCounter workers iterations) s a) →
          s.shared.result = some (workers * iterations : Int)) :=
  ⟨fun _ _ => atomicCounter_ends, fun _ _ => mutexCounter_ends⟩

/-- Two workers with an iteration each, where one waits for the mutex of the other. -/
theorem counter_total_two :
    ∃ as s, exec (mutexCounter 2 1) (initial 2 0) as = some s ∧ as.length ≤ 21 ∧
      s.shared.result = some 2 := by
  have hend : (exec (mutexCounter 2 1) (initial 2 0) (List.replicate 3 (.run none () none) ++
      (List.replicate 2 (.run (some 1) () none) ++ List.replicate 7 (.run (some 0) () none) ++
        List.replicate 5 (.run (some 1) () none) ++ List.replicate 4 (.run none () none)))).any
      (fun s => decide (total (placeCost (mutexWorker 1) 2 (mutexCost 1)) s.pc = 0)) = true := by
    decide +kernel
  obtain ⟨s, he, hs⟩ := (Option.any_eq_true _ _).mp hend
  have hsettled := not_enabled_of_cost (c := 0) (fun _ _ _ _ _ => mutex_cost) (of_decide_eq_true hs)
  obtain ⟨hlen, -, hresult⟩ := (counter_total 2 1).2 _ _ he
  exact ⟨_, s, he, hlen, hresult hsettled⟩

end RoblSampleCodes.Counter
