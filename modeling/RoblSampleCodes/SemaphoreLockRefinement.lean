import RoblSampleCodes.ReadersWriters
import RoblSampleCodes.SemaphoreLockExclusion

namespace RoblSampleCodes.SemaphoreLockRefinement

open TransitionSystem ThreadCount Refinement ProcessThreads
open SemaphoreLock SemaphoreLockInvariant SemaphoreLockExclusion
open ReadersWriters (Mode Changes refines_of_changes)

/-- What a thread has of the lock. A writer waits once it is through the turnstile. -/
def mode : Pc → Mode
  | .reader _ .postMx | .reader _ .postIn | .reader _ .critical | .reader _ .exitWaitMx
  | .reader _ .uncount => .shared
  | .writer _ .waitWrt => .waiting
  | .writer _ .load | .writer _ (.store _) | .writer _ .print | .writer _ .postWrt => .exclusive
  | _ => .outside

theorem mode_shared {p : Pc} : mode p = .shared ↔ grouped p = true := by
  cases p with
  | reader q p | writer q p => cases p <;> simp [mode, grouped]
  | main | stopped => simp [mode, grouped]

theorem mode_exclusive {p : Pc} : mode p = .exclusive ↔ owning p = true := by
  cases p with
  | reader q p | writer q p => cases p <;> simp [mode, owning]
  | main | stopped => simp [mode, owning]

theorem mode_start (r : Role) : mode (start r) = .outside := by
  cases r <;> rfl

theorem passing_of_waiting {p : Pc} (h : mode p = .waiting) : passing p = true ∧ isReader p = false := by
  cases p with
  | reader q p => cases p <;> cases h
  | writer q p => cases p <;> first | exact ⟨rfl, rfl⟩ | cases h
  | main | stopped => cases h

variable {T : Type} [DecidableEq T] [Fintype T] {turnstile : Bool} {role : T → Role} {s s' : LockState T}

def modes (s : LockState T) (t : T) : Mode := mode (s.pc t)

omit [DecidableEq T] in
theorem no_exclusive (h : count owning s.pc = 0) (t : T) : modes s t ≠ .exclusive := by
  intro ht
  have hfalse := count_eq_zero.mp h t
  rw [mode_exclusive.mp ht] at hfalse
  cases hfalse

omit [DecidableEq T] in
theorem no_shared (h : count grouped s.pc = 0) (t : T) : modes s t ≠ .shared := by
  intro ht
  have hfalse := count_eq_zero.mp h t
  rw [mode_shared.mp ht] at hfalse
  cases hfalse

theorem no_waiting (hs : Reachable (system turnstile role) s) {t : T} (ht : passing (s.pc t) = true)
    (hreader : isReader (s.pc t) = true) (hturnstile : turnstile = true) (u : T) :
    modes s u ≠ .waiting := by
  subst hturnstile
  intro hu
  obtain ⟨hpassing, hwriter⟩ := passing_of_waiting hu
  obtain rfl := passing_unique hs ht hpassing
  rw [hreader] at hwriter
  cases hwriter

theorem changes (hs : Reachable (system turnstile role) s) {t : T} {m : SharedMemory} {p : Pc}
    (hm : Moves turnstile s.shared (s.pc t) m p) :
    mode p = modes s t ∨ Changes turnstile (modes s) (modes s t) (mode p) := by
  have hcounted := counted hs
  have hcount := readCount_eq hs
  have hhold := toNat_le_count counting s.pc t
  have hopening := toNat_le_count opening s.pc t
  have hwaiting := no_waiting hs (t := t)
  unfold modes at hwaiting ⊢
  generalize hq : s.pc t = q at hm hhold hopening hwaiting ⊢
  cases hm with
  | count h =>
    rw [ne_eq, succ_eq_one] at h
    have hmx := hcounted.mx
    have hwrt := hcounted.wrt
    simp only [counting, Bool.toNat_true] at hhold
    have hzero : count owning s.pc = 0 := by
      have hgrouped : count grouped s.pc ≠ 0 := by
        intro hzero
        rw [hzero, show count opening s.pc = 0 by omega] at hcount
        exact h hcount
      omega
    exact .inr (.acquireShared (no_exclusive hzero) (hwaiting rfl rfl))
  | waitWrt h =>
    have hwrt := hcounted.wrt
    have hzero : count owning s.pc = 0 := by omega
    exact .inr (.acquireShared (no_exclusive hzero) (hwaiting rfl rfl))
  | writerWaitWrt h =>
    have hwrt := hcounted.wrt
    have howning : count owning s.pc = 0 := by omega
    have hgrouped : count grouped s.pc = 0 := by omega
    exact .inr (.acquire fun u => ⟨no_shared hgrouped u, no_exclusive howning u⟩)
  | uncountLast | uncount => exact .inr .releaseShared
  | writerEnters | writerWaitIn => exact .inr .request
  | postWrtIn | postWrt => exact .inr .release
  | _ => exact .inl rfl

/-- Both variants are readers-writers locks, the one with the turnstile with priority for the writers
that are through it. -/
theorem semaphoreLock_refines (turnstile : Bool) (role : T → Role) :
    Refines (system turnstile role) (ReadersWriters.system T turnstile) modes ∧
      ∀ (s : LockState T) (t : T), (reading (s.pc t) = true → modes s t = .shared) ∧
        (writing (s.pc t) = true → modes s t = .exclusive) := by
  refine ⟨refines_of_changes ?_ ?_, fun s t => ⟨fun h => ?_, fun h => ?_⟩⟩
  · rintro s rfl t
    exact mode_start (role t)
  · intro s a s' hs h
    obtain ⟨t, p, hm, hp⟩ := system_step h
    refine ⟨t, mode p, ?_, changes hs hm⟩
    funext u
    rw [modes, hp]
    exact Function.apply_update (fun _ => mode) s.pc t p u
  · exact mode_shared.mpr (reading_grouped h)
  · exact mode_exclusive.mpr (writing_owning h)

end RoblSampleCodes.SemaphoreLockRefinement
