import RoblSampleCodes.SemaphoreLock

namespace RoblSampleCodes.SemaphoreLockInvariant

open TransitionSystem ThreadCount ThreadProgram ProcessThreads SemaphoreLock

inductive Moves (turnstile : Bool) (m : SharedMemory) : Pc → SharedMemory → Pc → Prop
  | readerEntersIn {q : Nat} (hv : turnstile = true) :
      Moves turnstile m (.reader q .loop) m (.reader q .waitIn)
  | readerEnters {q : Nat} (hv : turnstile = false) :
      Moves turnstile m (.reader q .loop) m (.reader q .waitMx)
  | readerLeaves {q : Nat} : Moves turnstile m (.reader q .loop) m (.reader q .finished)
  | readerWaitIn {q : Nat} (h : 0 < m.in_) :
      Moves turnstile m (.reader q .waitIn) { m with in_ := m.in_ - 1 } (.reader q .waitMx)
  | waitMx {q : Nat} (h : 0 < m.mx) :
      Moves turnstile m (.reader q .waitMx) { m with mx := m.mx - 1 } (.reader q .count)
  | countFirst {q : Nat} (h : m.readCount + 1 = 1) :
      Moves turnstile m (.reader q .count) { m with readCount := m.readCount + 1 } (.reader q .waitWrt)
  | count {q : Nat} (h : m.readCount + 1 ≠ 1) :
      Moves turnstile m (.reader q .count) { m with readCount := m.readCount + 1 } (.reader q .postMx)
  | waitWrt {q : Nat} (h : 0 < m.wrt) :
      Moves turnstile m (.reader q .waitWrt) { m with wrt := m.wrt - 1 } (.reader q .postMx)
  | postMxIn {q : Nat} (hv : turnstile = true) :
      Moves turnstile m (.reader q .postMx) { m with mx := m.mx + 1 } (.reader q .postIn)
  | postMx {q : Nat} (hv : turnstile = false) :
      Moves turnstile m (.reader q .postMx) { m with mx := m.mx + 1 } (.reader q .critical)
  | readerPostIn {q : Nat} :
      Moves turnstile m (.reader q .postIn) { m with in_ := m.in_ + 1 } (.reader q .critical)
  | critical {q : Nat} : Moves turnstile m (.reader q .critical) m (.reader q .exitWaitMx)
  | exitWaitMx {q : Nat} (h : 0 < m.mx) :
      Moves turnstile m (.reader q .exitWaitMx) { m with mx := m.mx - 1 } (.reader q .uncount)
  | uncountLast {q : Nat} (h : m.readCount - 1 = 0) :
      Moves turnstile m (.reader q .uncount) { m with readCount := m.readCount - 1 }
        (.reader q .exitPostWrt)
  | uncount {q : Nat} (h : m.readCount - 1 ≠ 0) :
      Moves turnstile m (.reader q .uncount) { m with readCount := m.readCount - 1 }
        (.reader q .exitPostMx)
  | exitPostWrt {q : Nat} :
      Moves turnstile m (.reader q .exitPostWrt) { m with wrt := m.wrt + 1 } (.reader q .exitPostMx)
  | exitPostMx {q : Nat} :
      Moves turnstile m (.reader q .exitPostMx) { m with mx := m.mx + 1 } (.reader q .loop)
  | writerEntersIn {q : Nat} (hv : turnstile = true) :
      Moves turnstile m (.writer q .loop) m (.writer q .waitIn)
  | writerEnters {q : Nat} (hv : turnstile = false) :
      Moves turnstile m (.writer q .loop) m (.writer q .waitWrt)
  | writerLeaves {q : Nat} : Moves turnstile m (.writer q .loop) m (.writer q .finished)
  | writerWaitIn {q : Nat} (h : 0 < m.in_) :
      Moves turnstile m (.writer q .waitIn) { m with in_ := m.in_ - 1 } (.writer q .waitWrt)
  | writerWaitWrt {q : Nat} (h : 0 < m.wrt) :
      Moves turnstile m (.writer q .waitWrt) { m with wrt := m.wrt - 1 } (.writer q .load)
  | load {q : Nat} : Moves turnstile m (.writer q .load) m (.writer q (.store m.increment))
  | store {q : Nat} {value : Int} :
      Moves turnstile m (.writer q (.store value))
        { m with increment := value + 1, stores := m.stores + 1 } (.writer q .print)
  | print {q : Nat} : Moves turnstile m (.writer q .print) m (.writer q .postWrt)
  | postWrtIn {q : Nat} (hv : turnstile = true) :
      Moves turnstile m (.writer q .postWrt) { m with wrt := m.wrt + 1 } (.writer q .postIn)
  | postWrt {q : Nat} (hv : turnstile = false) :
      Moves turnstile m (.writer q .postWrt) { m with wrt := m.wrt + 1 } (.writer q .sleep)
  | writerPostIn {q : Nat} :
      Moves turnstile m (.writer q .postIn) { m with in_ := m.in_ + 1 } (.writer q .sleep)
  | sleep {q : Nat} : Moves turnstile m (.writer q .sleep) m (.writer q .loop)
  | stop {q : Nat} :
      Moves turnstile m (.main q) { m with isRunning := Function.update m.isRunning q false } (.stopped q)

theorem reader_moves {turnstile : Bool} {q : Nat} {m m' : SharedMemory} {p p' : ReaderPc}
    (h : reader turnstile q m p = some (m', p')) :
    Moves turnstile m (.reader q p) m' (.reader q p') := by
  cases p with
  | loop =>
    cases turnstile <;> simp only [reader] at h <;> split at h <;> cases h
    · exact .readerEnters rfl
    · exact .readerLeaves
    · exact .readerEntersIn rfl
    · exact .readerLeaves
  | waitIn | waitMx | waitWrt | exitWaitMx =>
    simp only [reader, Option.ite_none_right_eq_some] at h
    obtain ⟨hpos, h⟩ := h
    cases h
    constructor
    exact hpos
  | count | uncount =>
    simp only [reader, beq_iff_eq] at h
    split at h <;> cases h <;> constructor <;> assumption
  | postMx =>
    cases turnstile <;> cases h
    · exact .postMx rfl
    · exact .postMxIn rfl
  | postIn | critical | exitPostWrt | exitPostMx =>
    cases h
    constructor
  | finished => cases h

theorem writer_moves {turnstile : Bool} {q : Nat} {m m' : SharedMemory} {p p' : WriterPc}
    (h : writer turnstile q m p = some (m', p')) :
    Moves turnstile m (.writer q p) m' (.writer q p') := by
  cases p with
  | loop =>
    cases turnstile <;> simp only [writer] at h <;> split at h <;> cases h
    · exact .writerEnters rfl
    · exact .writerLeaves
    · exact .writerEntersIn rfl
    · exact .writerLeaves
  | waitIn | waitWrt =>
    simp only [writer, Option.ite_none_right_eq_some] at h
    obtain ⟨hpos, h⟩ := h
    cases h
    constructor
    exact hpos
  | postWrt =>
    cases turnstile <;> cases h
    · exact .postWrt rfl
    · exact .postWrtIn rfl
  | load | store value | print | postIn | sleep =>
    cases h
    constructor
  | finished => cases h

variable {T : Type} [DecidableEq T] [Fintype T] {turnstile : Bool} {role : T → Role} {s s' : LockState T}

theorem system_step {a : Action T Unit} (h : (system turnstile role).step s a = some s') :
    ∃ t p, Moves turnstile s.shared (s.pc t) s'.shared p ∧ s'.pc = Function.update s.pc t p := by
  obtain ⟨t, p, hsteps, hp⟩ := system_steps h
  refine ⟨t, p, ?_, hp⟩
  generalize s.pc t = q at hsteps ⊢
  generalize s'.shared = m at hsteps ⊢
  cases hsteps with
  | reader hr => exact reader_moves hr
  | writer hw => exact writer_moves hw
  | stop => exact .stop

def opening : Pc → Bool
  | .reader _ .waitWrt => true
  | _ => false

def grouped : Pc → Bool
  | .reader _ .postMx | .reader _ .postIn | .reader _ .critical | .reader _ .exitWaitMx
  | .reader _ .uncount => true
  | _ => false

def closing : Pc → Bool
  | .reader _ .exitPostWrt => true
  | _ => false

def counting : Pc → Bool
  | .reader _ .count | .reader _ .postMx | .reader _ .uncount | .reader _ .exitPostMx => true
  | _ => false

def owning : Pc → Bool
  | .writer _ .load | .writer _ (.store _) | .writer _ .print | .writer _ .postWrt => true
  | _ => false

def passing : Pc → Bool
  | .reader _ .waitMx | .reader _ .count | .reader _ .waitWrt | .reader _ .postMx
  | .reader _ .postIn => true
  | .writer _ .waitWrt | .writer _ .load | .writer _ (.store _) | .writer _ .print | .writer _ .postWrt
  | .writer _ .postIn => true
  | _ => false

theorem toNat_succ (r : BitVec 32) : (r + 1).toNat = (r.toNat + 1) % 2 ^ 32 := by
  simp [BitVec.toNat_add]

theorem toNat_pred (r : BitVec 32) : (r - 1).toNat = (r.toNat + (2 ^ 32 - 1)) % 2 ^ 32 := by
  simp [BitVec.toNat_sub, Nat.add_comm]

theorem succ_eq_one {r : BitVec 32} : r + 1 = 1 ↔ r.toNat = 0 := by
  bv_omega

theorem pred_eq_zero {r : BitVec 32} : r - 1 = 0 ↔ r.toNat = 1 := by
  bv_omega

theorem mod_eq_zero {n : Nat} (h : n ≤ 2 ^ 32) : n % 2 ^ 32 = 0 ↔ n = 0 ∨ n = 2 ^ 32 := by
  omega

theorem mod_eq_one {n : Nat} (h : n ≤ 2 ^ 32) : n % 2 ^ 32 = 1 ↔ n = 1 := by
  omega

omit [DecidableEq T] in
theorem initial_count {p : Pc → Bool} (hp : ∀ r : Role, p (start r) = false) :
    count p (initial role).pc = 0 := count_eq_zero.mpr (fun t => hp (role t))

theorem start_outside (r : Role) :
    opening (start r) = false ∧ grouped (start r) = false ∧ closing (start r) = false ∧
      counting (start r) = false ∧ owning (start r) = false ∧ passing (start r) = false := by
  cases r <;> exact ⟨rfl, rfl, rfl, rfl, rfl, rfl⟩

/-- `read_count` counts the readers as far as its width goes. -/
theorem readCount_eq (hs : Reachable (system turnstile role) s) :
    s.shared.readCount.toNat = (count opening s.pc + count grouped s.pc) % 2 ^ 32 := by
  induction hs with
  | init h =>
    subst h
    rw [initial_count (fun r => (start_outside r).1), initial_count (fun r => (start_outside r).2.1)]
    rfl
  | @step s s' a _ h ih =>
    obtain ⟨t, p, hm, hp⟩ := system_step h
    have ho := count_update opening s.pc t p
    have hg := count_update grouped s.pc t p
    rw [← hp] at ho hg
    generalize s.pc t = q at hm ho hg
    generalize s'.shared = m' at hm ⊢
    cases hm with
    | countFirst | count =>
      have hn : count opening s'.pc + count grouped s'.pc =
          count opening s.pc + count grouped s.pc + 1 := by
        simp only [opening, grouped, Bool.toNat_true, Bool.toNat_false] at ho hg
        omega
      rw [hn, toNat_succ, ih, Nat.mod_add_mod]
    | uncountLast | uncount =>
      have hn : count opening s.pc + count grouped s.pc =
          count opening s'.pc + count grouped s'.pc + 1 := by
        simp only [opening, grouped, Bool.toNat_true, Bool.toNat_false] at ho hg
        omega
      rw [toNat_pred, ih, hn, Nat.mod_add_mod, Nat.add_assoc]
      exact Nat.add_mod_right _ _
    | _ =>
      have hn : count opening s'.pc + count grouped s'.pc = count opening s.pc + count grouped s.pc := by
        simp only [opening, grouped, Bool.toNat_true, Bool.toNat_false] at ho hg
        omega
      rw [hn]
      exact ih

/-- Who holds `mx` and `wrt`. The reader that wraps `read_count` to one again
waits for its own group. -/
@[mk_iff]
structure Counted (s : LockState T) : Prop where
  mx : s.shared.mx + count opening s.pc + count closing s.pc + count counting s.pc = 1
  wrt : s.shared.wrt + count owning s.pc + min (count grouped s.pc + count closing s.pc) 1 = 1
  first : 0 < count opening s.pc → count grouped s.pc = 0 ∨ count grouped s.pc = 2 ^ 32
  last : 0 < count closing s.pc → count grouped s.pc = 0
  bounded : count grouped s.pc ≤ 2 ^ 32

theorem counted (hs : Reachable (system turnstile role) s) : Counted s := by
  induction hs with
  | init h =>
    subst h
    rw [counted_iff, initial_count (fun r => (start_outside r).1),
      initial_count (fun r => (start_outside r).2.1), initial_count (fun r => (start_outside r).2.2.1),
      initial_count (fun r => (start_outside r).2.2.2.1),
      initial_count (fun r => (start_outside r).2.2.2.2.1)]
    simp [initial]
  | @step s s' a hs h ih =>
    obtain ⟨t, p, hm, hp⟩ := system_step h
    have ho := count_update opening s.pc t p
    have hg := count_update grouped s.pc t p
    have hc := count_update closing s.pc t p
    have hx := count_update counting s.pc t p
    have hw := count_update owning s.pc t p
    rw [← hp] at ho hg hc hx hw
    have hr := readCount_eq hs
    have hhold := toNat_le_count counting s.pc t
    rw [counted_iff] at ih ⊢
    generalize s.pc t = q at hm ho hg hc hx hw hhold
    generalize s'.shared = m' at hm ⊢
    cases hm with
    | countFirst h1 | count h1 | uncountLast h1 | uncount h1 =>
      simp only [opening, grouped, closing, counting, owning, Bool.toNat_true, Bool.toNat_false]
        at ho hg hc hx hw hhold
      -- a thread at these places holds `mx`, so nobody waits for `wrt`
      have hone : count opening s.pc = 0 := by omega
      rw [hone, Nat.zero_add] at hr
      simp only [ne_eq, succ_eq_one, pred_eq_zero, hr, mod_eq_zero ih.2.2.2.2, mod_eq_one ih.2.2.2.2] at h1
      clear hr
      dsimp only
      omega
    | readerEntersIn | readerEnters | readerLeaves | critical | writerEntersIn
    | writerEnters | writerLeaves
    | load | print | sleep =>
      simp only [opening, grouped, closing, counting, owning, Bool.toNat_true, Bool.toNat_false]
        at ho hg hc hx hw
      omega
    | _ =>
      simp only [opening, grouped, closing, counting, owning, Bool.toNat_true, Bool.toNat_false]
        at ho hg hc hx hw
      dsimp only
      omega

theorem roleOf_pc (hs : Reachable (system turnstile role) s) (t : T) : roleOf (s.pc t) = role t := by
  refine Code.roleOf_pc ?_ hs t
  rintro u rfl v
  exact roleOf_start (role v)

def isReader (p : Pc) : Bool := (roleOf p).isReader

theorem counted_le (hs : Reachable (system turnstile role) s) :
    count opening s.pc + count grouped s.pc ≤ count Role.isReader role := by
  have hdisj : ∀ p, opening p = true → grouped p = false := by
    intro p hp
    cases p with
    | reader q p => cases p <;> first | rfl | cases hp
    | writer _ _ | main _ | stopped _ => rfl
  rw [← count_or hdisj]
  apply count_mono
  intro t ht
  rw [← roleOf_pc hs]
  cases hp : s.pc t with
  | reader q p => rfl
  | writer _ _ | main _ | stopped _ =>
    rw [hp] at ht
    cases ht

theorem in_eq (hs : Reachable (withoutWriterStarvation role) s) :
    s.shared.in_ + count passing s.pc = 1 := by
  induction hs with
  | init h =>
    subst h
    rw [initial_count (fun r => (start_outside r).2.2.2.2.2)]
    rfl
  | @step s s' a _ h ih =>
    obtain ⟨t, p, hm, hp⟩ := system_step h
    have hc := count_update passing s.pc t p
    rw [← hp] at hc
    generalize s.pc t = q at hm hc
    generalize s'.shared = m' at hm ⊢
    cases hm with
    | readerEnters hv | postMx hv | writerEnters hv | postWrt hv => cases hv
    | readerWaitIn | writerWaitIn | readerPostIn | writerPostIn =>
      simp only [passing, Bool.toNat_true, Bool.toNat_false] at hc
      dsimp only
      omega
    | _ =>
      have hn : count passing s'.pc = count passing s.pc := Nat.add_right_cancel hc
      rw [hn]
      exact ih

def atIn : Pc → Bool
  | .reader _ .waitIn | .reader _ .postIn | .writer _ .waitIn | .writer _ .postIn => true
  | _ => false

theorem in_unused (hs : Reachable (withWriterStarvation role) s) :
    s.shared.in_ = 1 ∧ ∀ t, atIn (s.pc t) = false := by
  induction hs with
  | init h =>
    subst h
    refine ⟨rfl, fun t => ?_⟩
    simp only [initial]
    cases role t <;> rfl
  | @step s s' a _ h ih =>
    obtain ⟨t, p, hm, hp⟩ := system_step h
    obtain ⟨hin, hat⟩ := ih
    have hmove : s'.shared.in_ = 1 ∧ atIn p = false := by
      have ht := hat t
      generalize s.pc t = q at hm ht
      generalize s'.shared = m' at hm ⊢
      cases hm with
      | readerEntersIn hv | postMxIn hv | writerEntersIn hv | postWrtIn hv => cases hv
      | readerWaitIn | writerWaitIn | readerPostIn | writerPostIn => cases ht
      | _ => exact ⟨hin, rfl⟩
    refine ⟨hmove.1, fun u => ?_⟩
    rw [hp]
    by_cases hut : u = t
    · rw [hut, Function.update_self]
      exact hmove.2
    · rw [Function.update_of_ne hut]
      exact hat u

theorem owning_unique (hs : Reachable (system turnstile role) s) {t u : T} (ht : owning (s.pc t) = true)
    (hu : owning (s.pc u) = true) : t = u := by
  have hw := (counted hs).wrt
  exact count_le_one.mp (by omega : count owning s.pc ≤ 1) t u ht hu

def loaded : Pc → Option Int
  | .writer _ (.store value) => some value
  | _ => none

theorem loaded_owning {p : Pc} {value : Int} (h : loaded p = some value) : owning p = true := by
  cases p with
  | writer q p => cases p <;> first | rfl | cases h
  | reader _ _ | main _ | stopped _ => cases h

theorem moves_increment {m m' : SharedMemory} {p p' : Pc} (h : Moves turnstile m p m' p') :
    (m'.increment = m.increment ∧ m'.stores = m.stores ∧
        ∀ value, loaded p' = some value → value = m.increment) ∨
      ∃ value, loaded p = some value ∧ m'.increment = value + 1 ∧ m'.stores = m.stores + 1 ∧
        loaded p' = none := by
  cases h with
  | load => exact .inl ⟨rfl, rfl, fun value hv => (Option.some.inj hv).symm⟩
  | store => exact .inr ⟨_, rfl, rfl, rfl, rfl⟩
  | _ => exact .inl ⟨rfl, rfl, nofun⟩

theorem increment_eq (hs : Reachable (system turnstile role) s) :
    s.shared.increment = s.shared.stores ∧
      ∀ t value, loaded (s.pc t) = some value → value = s.shared.increment := by
  induction hs with
  | init h =>
    subst h
    refine ⟨rfl, fun t value hv => ?_⟩
    simp only [initial] at hv
    cases hr : role t <;> rw [hr] at hv <;> cases hv
  | @step s s' a hs h ih =>
    obtain ⟨t, p, hm, hp⟩ := system_step h
    obtain ⟨hinc, hload⟩ := ih
    obtain ⟨hi, hst, hl⟩ | ⟨value, ht, hi, hst, hl⟩ := moves_increment hm
    · refine ⟨by rw [hi, hst, hinc], fun u value hu => ?_⟩
      rw [hp] at hu
      rw [hi]
      by_cases hut : u = t
      · rw [hut, Function.update_self] at hu
        exact hl value hu
      · rw [Function.update_of_ne hut] at hu
        exact hload u value hu
    · refine ⟨by rw [hi, hst, hload t value ht, hinc, Nat.cast_add_one], fun u x hu => ?_⟩
      rw [hp] at hu
      by_cases hut : u = t
      · rw [hut, Function.update_self, hl] at hu
        cases hu
      · rw [Function.update_of_ne hut] at hu
        exact absurd (owning_unique hs (loaded_owning hu) (loaded_owning ht)) hut

end RoblSampleCodes.SemaphoreLockInvariant
