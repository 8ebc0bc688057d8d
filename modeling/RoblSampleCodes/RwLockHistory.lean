import RoblSampleCodes.RwLockInvariant

namespace RoblSampleCodes.RwLockHistory

open TransitionSystem ThreadCount ThreadProgram Refinement ProcessThreads RwLock RwLockInvariant
open ReadersWriters (Mode)

def writes : List Load → Nat
  | [] => 0
  | .read _ :: loads => writes loads
  | .wrote _ :: loads => writes loads + 1

/-- Each writer loads the number of its own write, and each reader that of the last one before. -/
def Sequential : List Load → Prop
  | [] => True
  | .read value :: loads => value = writes loads ∧ Sequential loads
  | .wrote value :: loads => value = writes loads + 1 ∧ Sequential loads

def unprinted : Pc → Bool
  | .writer _ .print => true
  | _ => false

theorem unprinted_has {p : Pc} (h : unprinted p = true) : has .exclusive p = true := by
  cases p with
  | writer q p => cases p <;> first | rfl | cases h
  | reader | main | stopped => cases h

variable {T : Type} [DecidableEq T] [Fintype T] {preferWriter : Bool} {role : T → Role}
  {s s' : LockState T}

omit [DecidableEq T] in
theorem unprinted_le (s : LockState T) : count unprinted s.pc ≤ count (has .exclusive) s.pc :=
  count_mono fun _ => unprinted_has

theorem exclusive_le (hs : Reachable (system preferWriter role) s) : count (has .exclusive) s.pc ≤ 1 := by
  rw [← (counted hs).writer]
  exact Bool.toNat_le _

theorem exclusive_unique (hs : Reachable (system preferWriter role) s) {t u : T}
    (ht : modes s t = .exclusive) (hu : modes s u = .exclusive) : u = t := by
  have hexclusive := ReadersWriters.exclusive ((refines preferWriter role).reachable hs)
  by_contra hne
  exact (hexclusive t ht u hne).2 hu

/-- The value that a writer has loaded is still that of `increment`. -/
theorem loaded (hs : Reachable (system preferWriter role) s) {t : T} {q : Nat} {value : Int}
    (ht : s.pc t = .writer q (.store value)) : value = s.shared.increment := by
  induction hs generalizing t q value with
  | init h =>
    subst h
    change start (role t) = _ at ht
    cases hr : role t <;> rw [hr] at ht <;> cases ht
  | @step s s' a hs h ih =>
    obtain ⟨u, p, hm, hp⟩ := system_step h
    rw [hp] at ht
    by_cases htu : t = u
    · subst htu
      rw [Function.update_self] at ht
      subst ht
      generalize s.pc t = y at hm
      generalize s'.shared = m' at hm ⊢
      cases hm with
      | load => rfl
    · rw [Function.update_of_ne htu] at ht
      have hsame := ih ht
      have hunique : modes s u = .exclusive → t = u := fun hu => exclusive_unique hs hu (congrArg mode ht)
      unfold modes at hunique
      generalize s.pc u = y at hm hunique
      generalize s'.shared = m' at hm ⊢
      cases hm with
      | store => exact absurd (hunique rfl) htu
      | _ => exact hsame

/-- The loads are a history of single steps, also when readers have the lock at the same time. -/
theorem sequential (hs : Reachable (system preferWriter role) s) :
    Sequential s.shared.loads ∧
      s.shared.increment = writes s.shared.loads + count unprinted s.pc := by
  induction hs with
  | init h =>
    subst h
    have hzero : count unprinted (initial preferWriter role).pc = 0 := by
      apply count_eq_zero.mpr
      intro t
      change unprinted (start (role t)) = false
      cases role t <;> rfl
    rw [hzero]
    exact ⟨trivial, rfl⟩
  | @step s s' a hs h ih =>
    obtain ⟨t, p, hm, hp⟩ := system_step h
    obtain ⟨hsequential, hincrement⟩ := ih
    have hun := count_update unprinted s.pc t p
    have hexcluded := (counted hs).excluded
    have hle := unprinted_le s
    have hone := exclusive_le hs
    have hshared := toNat_le_count (has .shared) s.pc t
    have hloaded : ∀ q value, s.pc t = .writer q (.store value) → value = s.shared.increment :=
      fun _ _ => loaded hs
    rw [← hp] at hun
    generalize s.pc t = y at hm hun hshared hloaded
    generalize s'.shared = m' at hm ⊢
    cases hm <;> simp only [unprinted, Bool.toNat_true, Bool.toNat_false, Nat.add_zero] at hun
    case read =>
      have hpos : 1 ≤ count (has .shared) s.pc := hshared
      have hzero : count unprinted s.pc = 0 := by omega
      rw [hzero, Nat.cast_zero, add_zero] at hincrement
      exact ⟨⟨hincrement, hsequential⟩, by rw [hun, hzero, Nat.cast_zero, add_zero]; exact hincrement⟩
    case store q value =>
      refine ⟨hsequential, ?_⟩
      change value + 1 = (writes s.shared.loads : Int) + _
      rw [hloaded q value rfl, hincrement, hun, Nat.cast_succ, add_assoc]
    case wrote =>
      have hlast : s.shared.increment = writes s.shared.loads + 1 := by omega
      refine ⟨⟨hlast, hsequential⟩, ?_⟩
      change s.shared.increment = ((writes s.shared.loads + 1 : Nat) : Int) + _
      omega
    all_goals exact ⟨hsequential, by rw [hun]; exact hincrement⟩

/-- The programs are readers-writers locks of their kind, and the values loaded under them are those
that the threads would load one after the other. -/
theorem lock_sequential (preferWriter : Bool) (role : T → Role) :
    Refines (system preferWriter role) (ReadersWriters.system T preferWriter) modes ∧
      ∀ s, Reachable (system preferWriter role) s → Sequential s.shared.loads :=
  ⟨refines preferWriter role, fun _ hs => (sequential hs).1⟩

end RoblSampleCodes.RwLockHistory
