import RoblSampleCodes.ReadersWriters
import RoblSampleCodes.RwLock

namespace RoblSampleCodes.RwLockInvariant

open TransitionSystem ThreadCount ThreadProgram Refinement ProcessThreads RwLock
open ReadersWriters (Mode Changes refines_of_changes)

inductive Moves (m : SharedMemory) : Pc → SharedMemory → Pc → Prop
  | readerEnters {q : Nat} (h : m.isRunning q = true) : Moves m (.reader q .loop) m (.reader q .rdlock)
  | readerLeaves {q : Nat} (h : m.isRunning q = false) :
      Moves m (.reader q .loop) m (.reader q .finished)
  | rdlock {q : Nat} (hwriter : m.rwlock.writer = false)
      (hwaiting : m.rwlock.preferWriter = true → m.rwlock.waiting = 0) :
      Moves m (.reader q .rdlock)
        { m with rwlock := { m.rwlock with readers := m.rwlock.readers + 1 } } (.reader q .print)
  | read {q : Nat} :
      Moves m (.reader q .print) { m with loads := .read m.increment :: m.loads } (.reader q .unlock)
  | readerUnlock {q : Nat} :
      Moves m (.reader q .unlock) { m with rwlock := m.rwlock.unlock } (.reader q .loop)
  | writerEnters {q : Nat} (h : m.isRunning q = true) : Moves m (.writer q .loop) m (.writer q .wrlock)
  | writerLeaves {q : Nat} (h : m.isRunning q = false) :
      Moves m (.writer q .loop) m (.writer q .finished)
  | wrlock {q : Nat} :
      Moves m (.writer q .wrlock)
        { m with rwlock := { m.rwlock with waiting := m.rwlock.waiting + 1 } } (.writer q .wait)
  | wrlocked {q : Nat} (hwriter : m.rwlock.writer = false) (hreaders : m.rwlock.readers = 0) :
      Moves m (.writer q .wait)
        { m with rwlock := { m.rwlock with writer := true, waiting := m.rwlock.waiting - 1 } }
        (.writer q .load)
  | load {q : Nat} : Moves m (.writer q .load) m (.writer q (.store m.increment))
  | store {q : Nat} {value : Int} :
      Moves m (.writer q (.store value)) { m with increment := value + 1 } (.writer q .print)
  | wrote {q : Nat} :
      Moves m (.writer q .print) { m with loads := .wrote m.increment :: m.loads } (.writer q .unlock)
  | writerUnlock {q : Nat} :
      Moves m (.writer q .unlock) { m with rwlock := m.rwlock.unlock } (.writer q .sleep)
  | sleep {q : Nat} : Moves m (.writer q .sleep) m (.writer q .loop)
  | stop {q : Nat} :
      Moves m (.main q) { m with isRunning := Function.update m.isRunning q false } (.stopped q)

theorem reader_moves {q : Nat} {m m' : SharedMemory} {p p' : ReaderPc}
    (h : reader q m p = some (m', p')) : Moves m (.reader q p) m' (.reader q p') := by
  cases p with
  | loop =>
    rw [reader] at h
    split at h <;> rename_i hrunning <;> cases h
    · exact .readerEnters hrunning
    · exact .readerLeaves (Bool.eq_false_of_not_eq_true hrunning)
  | rdlock =>
    obtain ⟨l, hl, h⟩ := Option.map_eq_some_iff.mp h
    cases h
    rw [Rwlock.rdlock, Option.ite_none_left_eq_some] at hl
    obtain ⟨hfree, hl⟩ := hl
    cases hl
    simp only [Bool.or_eq_true, Bool.and_eq_true, decide_eq_true_eq, not_or, not_and,
      Bool.not_eq_true] at hfree
    exact .rdlock hfree.1 fun hprefer => Nat.eq_zero_of_not_pos (hfree.2 hprefer)
  | print | unlock =>
    cases h
    constructor
  | finished => cases h

theorem writer_moves {q : Nat} {m m' : SharedMemory} {p p' : WriterPc}
    (h : writer q m p = some (m', p')) : Moves m (.writer q p) m' (.writer q p') := by
  cases p with
  | loop =>
    rw [writer] at h
    split at h <;> rename_i hrunning <;> cases h
    · exact .writerEnters hrunning
    · exact .writerLeaves (Bool.eq_false_of_not_eq_true hrunning)
  | wait =>
    obtain ⟨l, hl, h⟩ := Option.map_eq_some_iff.mp h
    cases h
    rw [Rwlock.wrlocked, Option.ite_none_left_eq_some] at hl
    obtain ⟨hfree, hl⟩ := hl
    cases hl
    simp only [Bool.or_eq_true, decide_eq_true_eq, not_or, Bool.not_eq_true] at hfree
    exact .wrlocked hfree.1 (Nat.eq_zero_of_not_pos hfree.2)
  | wrlock | load | store | print | unlock | sleep =>
    cases h
    constructor
  | finished => cases h

def mode : Pc → Mode
  | .reader _ .print | .reader _ .unlock => .shared
  | .writer _ .wait => .waiting
  | .writer _ .load | .writer _ (.store _) | .writer _ .print | .writer _ .unlock => .exclusive
  | _ => .outside

def has (x : Mode) (p : Pc) : Bool := decide (mode p = x)

theorem mode_start (r : Role) : mode (start r) = .outside := by
  cases r <;> rfl

variable {T : Type} [DecidableEq T] [Fintype T] {preferWriter : Bool} {role : T → Role}
  {s s' : LockState T}

def modes (s : LockState T) (t : T) : Mode := mode (s.pc t)

theorem system_step {a : Action T Unit} (h : (system preferWriter role).step s a = some s') :
    ∃ t p, Moves s.shared (s.pc t) s'.shared p ∧ s'.pc = Function.update s.pc t p := by
  obtain ⟨t, p, hsteps, hp⟩ := system_steps h
  refine ⟨t, p, ?_, hp⟩
  generalize s.pc t = q at hsteps ⊢
  generalize s'.shared = m at hsteps ⊢
  cases hsteps with
  | reader hr => exact reader_moves hr
  | writer hw => exact writer_moves hw
  | stop => exact .stop

theorem roleOf_pc (hs : Reachable (system preferWriter role) s) (t : T) : roleOf (s.pc t) = role t := by
  refine Code.roleOf_pc ?_ hs t
  rintro u rfl v
  exact roleOf_start (role v)

structure Records (l : Rwlock) (sh ex wa : Nat) : Prop where
  readers : l.readers = sh
  writer : l.writer.toNat = ex
  waiting : l.waiting = wa
  excluded : sh = 0 ∨ ex = 0

namespace Records

variable {l : Rwlock} {sh ex wa : Nat}

theorem writer_false (h : Records l sh 0 wa) : l.writer = false := by
  have hzero := h.writer
  cases hw : l.writer with
  | false => rfl
  | true =>
    rw [hw] at hzero
    cases hzero

theorem rdlock (h : Records l sh ex wa) (hwriter : l.writer = false) :
    Records { l with readers := l.readers + 1 } (sh + 1) ex wa := by
  refine ⟨congrArg (· + 1) h.readers, h.writer, h.waiting, .inr ?_⟩
  rw [← h.writer, hwriter]
  rfl

theorem wrlock (h : Records l sh ex wa) :
    Records { l with waiting := l.waiting + 1 } sh ex (wa + 1) :=
  ⟨h.readers, h.writer, congrArg (· + 1) h.waiting, h.excluded⟩

theorem wrlocked (h : Records l sh ex (wa + 1)) (hwriter : l.writer = false) (hreaders : l.readers = 0) :
    Records { l with writer := true, waiting := l.waiting - 1 } sh (ex + 1) wa := by
  have hex : ex = 0 := by
    rw [← h.writer, hwriter]
    rfl
  refine ⟨h.readers, ?_, ?_, .inl (h.readers.symm.trans hreaders)⟩
  · rw [hex]
    rfl
  · rw [h.waiting, Nat.add_sub_cancel]

theorem unlockShared (h : Records l (sh + 1) ex wa) : Records l.unlock sh ex wa := by
  obtain rfl : ex = 0 := h.excluded.resolve_left (Nat.succ_ne_zero sh)
  rw [Rwlock.unlock, if_neg (Bool.not_eq_true _ ▸ h.writer_false)]
  exact ⟨by rw [h.readers, Nat.add_sub_cancel], h.writer, h.waiting, .inr rfl⟩

theorem unlock (h : Records l sh (ex + 1) wa) : Records l.unlock sh ex wa := by
  have hwriter : l.writer = true := by
    cases hw : l.writer with
    | false =>
      have hpos := h.writer
      rw [hw] at hpos
      cases hpos
    | true => rfl
  have hex := h.writer
  rw [hwriter, Bool.toNat_true, Nat.right_eq_add] at hex
  rw [Rwlock.unlock, if_pos hwriter]
  exact ⟨h.readers, hex.symm, h.waiting, .inr hex⟩

end Records

def Counted (s : LockState T) : Prop :=
  Records s.shared.rwlock (count (has .shared) s.pc) (count (has .exclusive) s.pc)
    (count (has .waiting) s.pc)

omit [DecidableEq T] in
theorem count_initial {x : Mode} (hx : x ≠ .outside) :
    count (has x) (initial preferWriter role).pc = 0 := by
  apply count_eq_zero.mpr
  intro t
  rw [has, initial, mode_start]
  exact decide_eq_false hx.symm

theorem counted (hs : Reachable (system preferWriter role) s) : Counted s := by
  unfold Counted
  induction hs with
  | init h =>
    subst h
    rw [count_initial (by decide), count_initial (by decide), count_initial (by decide)]
    exact ⟨rfl, rfl, rfl, .inl rfl⟩
  | @step s s' a _ h ih =>
    obtain ⟨t, p, hm, hp⟩ := system_step h
    have hsh := count_update (has .shared) s.pc t p
    have hex := count_update (has .exclusive) s.pc t p
    have hwa := count_update (has .waiting) s.pc t p
    rw [← hp] at hsh hex hwa
    generalize s.pc t = q at hm hsh hex hwa
    generalize s'.shared = m' at hm ⊢
    cases hm <;> simp only [has, mode, reduceCtorEq, decide_true, decide_false, Bool.toNat_true,
      Bool.toNat_false, Nat.add_zero, Nat.add_right_cancel_iff] at hsh hex hwa
    case rdlock hwriter hwaiting =>
      rw [hsh, hex, hwa]
      exact ih.rdlock hwriter
    case wrlock =>
      rw [hsh, hex, hwa]
      exact ih.wrlock
    case wrlocked hwriter hreaders =>
      rw [← hwa] at ih
      rw [hsh, hex]
      exact ih.wrlocked hwriter hreaders
    case readerUnlock =>
      rw [← hsh] at ih
      rw [hex, hwa]
      exact ih.unlockShared
    case writerUnlock =>
      rw [← hex] at ih
      rw [hsh, hwa]
      exact ih.unlock
    all_goals
      rw [hsh, hex, hwa]
      exact ih

theorem kind (hs : Reachable (system preferWriter role) s) :
    s.shared.rwlock.preferWriter = preferWriter := by
  induction hs with
  | init h =>
    subst h
    rfl
  | @step s s' a _ h ih =>
    obtain ⟨t, p, hm, -⟩ := system_step h
    generalize s.pc t = q at hm
    generalize s'.shared = m' at hm ⊢
    cases hm with
    | readerUnlock | writerUnlock =>
      simp only [Rwlock.unlock]
      split <;> exact ih
    | _ => exact ih

omit [DecidableEq T] in
theorem no_mode {x : Mode} (h : count (has x) s.pc = 0) (t : T) : modes s t ≠ x := by
  intro ht
  have hfalse := count_eq_zero.mp h t
  rw [has, decide_eq_false_iff_not] at hfalse
  exact hfalse ht

theorem Records.no_writer {l : Rwlock} {sh ex wa : Nat} (h : Records l sh ex wa)
    (hwriter : l.writer = false) :
    ex = 0 := by
  rw [← h.writer, hwriter]
  rfl

theorem changes (hs : Reachable (system preferWriter role) s) {t : T} {m : SharedMemory} {p : Pc}
    (hm : Moves s.shared (s.pc t) m p) :
    mode p = modes s t ∨ Changes preferWriter (modes s) (modes s t) (mode p) := by
  have hcounted := counted hs
  have hkind := kind hs
  have hmodes : modes s t = mode (s.pc t) := rfl
  generalize s.pc t = q at hm hmodes
  rw [hmodes]
  cases hm with
  | rdlock hwriter hwaiting =>
    refine .inr (.acquireShared (no_mode (hcounted.no_writer hwriter)) fun hprefer => no_mode ?_)
    rw [← hcounted.waiting]
    exact hwaiting (hkind.trans hprefer)
  | wrlocked hwriter hreaders =>
    have hexclusive := no_mode (hcounted.no_writer hwriter)
    have hshared := no_mode (hcounted.readers.symm.trans hreaders)
    exact .inr (.acquire fun u => ⟨hshared u, hexclusive u⟩)
  | readerUnlock => exact .inr .releaseShared
  | wrlock => exact .inr .request
  | writerUnlock => exact .inr .release
  | _ => exact .inl rfl

theorem refines (preferWriter : Bool) (role : T → Role) :
    Refines (system preferWriter role) (ReadersWriters.system T preferWriter) modes := by
  refine refines_of_changes ?_ ?_
  · rintro s rfl t
    exact mode_start (role t)
  · intro s a s' hs h
    obtain ⟨t, p, hm, hp⟩ := system_step h
    refine ⟨t, mode p, ?_, changes hs hm⟩
    funext u
    rw [modes, hp]
    exact Function.apply_update (fun _ => mode) s.pc t p u

end RoblSampleCodes.RwLockInvariant
