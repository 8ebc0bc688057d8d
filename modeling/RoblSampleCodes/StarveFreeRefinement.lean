import RoblSampleCodes.ReadersWriters
import RoblSampleCodes.StarveFreeExclusion

namespace RoblSampleCodes.StarveFreeRefinement

open TransitionSystem ThreadCount ThreadProgram Refinement StarveFreeLock StarveFreeInvariant
open ReadersWriters (Mode Changes refines_of_changes)

/-- What a thread has of the lock. A writer waits until `writing_` is set for it, also after it has
left the count. -/
def mode : Pc → Mode
  | .lockShared .unlock | .reading | .unlockShared .decrement => .shared
  | .lock .test | .lock .asleep | .lock .awake | .lock .leave | .lock .setWriting => .waiting
  | .lock .unlock | .writing | .unlock .clearWriting => .exclusive
  | _ => .outside

theorem mode_shared {p : Pc} : mode p = .shared ↔ countedReader p = true := by
  rcases p with _ | _ | p | _ | p | p | _ | p
  case lockShared | unlockShared | lock | unlock => cases p <;> decide
  all_goals decide

theorem mode_exclusive {p : Pc} : mode p = .exclusive ↔ countedWriter p = true := by
  rcases p with _ | _ | p | _ | p | p | _ | p
  case lockShared | unlockShared | lock | unlock => cases p <;> decide
  all_goals decide

theorem mode_waiting {p : Pc} (h : mode p = .waiting) :
    countedWaiting p = true ∨ p = .lock .setWriting := by
  rcases p with _ | _ | p | _ | p | p | _ | p
  case lock => cases p <;> first | exact .inl rfl | exact .inr rfl | cases h
  case lockShared | unlockShared | unlock => cases p <;> cases h
  all_goals cases h

theorem mode_wake (p : Pc) (h : program.asleep p ≠ none) : mode (program.wake p) = mode p := by
  obtain ⟨rfl, hw⟩ | ⟨rfl, hw⟩ := asleep_cases h <;> rw [hw] <;> rfl

variable {T : Type} [DecidableEq T] [Fintype T] {s s' : LockState T}

def modes (s : LockState T) (t : T) : Mode := mode (s.pc t)

theorem no_shared (hs : Reachable system s) (h : s.shared.readerCount = 0) (t : T) :
    modes s t ≠ .shared := by
  intro ht
  have hpos := count_pos.mpr ⟨t, mode_shared.mp ht⟩
  have hcount := readerCount_eq hs
  omega

theorem no_exclusive (hs : Reachable system s) (h : s.shared.writing = false) (t : T) :
    modes s t ≠ .exclusive := by
  intro ht
  have hpos := count_pos.mpr ⟨t, mode_exclusive.mp ht⟩
  have hcount := writing_eq hs
  rw [h] at hcount
  simp only [Bool.false_eq_true, if_false] at hcount
  omega

theorem no_waiting (hs : Reachable system s) (h : s.shared.writerWaitingCount = 0) {t : T}
    (ht : s.pc t = .lockShared .increment) (u : T) : modes s u ≠ .waiting := by
  intro hu
  obtain hcounted | hset := mode_waiting hu
  · have hpos := count_pos.mpr ⟨u, hcounted⟩
    have hcount := writerWaitingCount_eq hs
    omega
  · obtain rfl := (owned hs).unique (m := ()) (t := t) (u := u) (by rw [ht]; rfl) (by rw [hset]; rfl)
    rw [ht] at hset
    cases hset

theorem changes (hs : Reachable system s) {t : T} {m : Members} {p : Pc} {e : Effect Unit Cv}
    (hm : Moves s.shared (s.pc t) m p e) :
    mode p = modes s t ∨ Changes true (modes s) (modes s t) (mode p) := by
  have hknown := known hs t
  have hwaiting := no_waiting hs (t := t)
  unfold modes at hwaiting ⊢
  generalize hq : s.pc t = q at hm hknown hwaiting ⊢
  cases hm with
  | increment =>
    obtain ⟨hzero, hwriting⟩ := hknown rfl
    exact .inr (.acquireShared (no_exclusive hs hwriting) fun _ => hwaiting hzero rfl)
  | setWriting =>
    obtain ⟨hzero, hwriting⟩ := hknown rfl
    exact .inr (.acquire fun u => ⟨no_shared hs hzero u, no_exclusive hs hwriting u⟩)
  | decrementLast | decrement => exact .inr .releaseShared
  | arrive => exact .inr .request
  | clearWriting => exact .inr .release
  | _ => exact .inl rfl

/-- `StarveFreeLock` is a readers-writers lock with priority for the writers. -/
theorem starveFreeLock_refines :
    Refines (system (T := T)) (ReadersWriters.system T true) modes ∧
      ∀ (s : LockState T) (t : T), (s.pc t = .reading → modes s t = .shared) ∧
        (s.pc t = .writing → modes s t = .exclusive) := by
  refine ⟨refines_of_changes ?_ ?_, fun s t => ⟨fun h => ?_, fun h => ?_⟩⟩
  · rintro s rfl t
    rfl
  · intro s a s' hs h
    obtain ⟨t, c, pick, p, e, -, hn, -, hself, hother⟩ | ⟨⟨t, -⟩, -, hsame⟩ := step_local mode mode_wake h
    · refine ⟨t, mode p, ?_, changes hs (next_moves hn)⟩
      funext u
      by_cases hu : u = t
      · rw [hu, Function.update_self]
        exact hself
      · rw [Function.update_of_ne hu]
        exact hother u hu
    · refine ⟨t, modes s t, ?_, .inl rfl⟩
      rw [Function.update_eq_self]
      exact funext hsame
  · rw [modes, h]
    rfl
  · rw [modes, h]
    rfl

end RoblSampleCodes.StarveFreeRefinement
