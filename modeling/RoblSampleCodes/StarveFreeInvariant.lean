import RoblSampleCodes.StarveFreeLock

namespace RoblSampleCodes.StarveFreeInvariant

open TransitionSystem ThreadCount ThreadProgram StarveFreeLock

inductive Moves (m : Members) : Pc → Members → Pc → Effect Unit Cv → Prop
  | callLockShared : Moves m .outside m (.lockShared .test) (.lock ())
  | callLock : Moves m .outside m (.lock .arrive) (.lock ())
  | finish : Moves m .outside m .finished .none
  | admitted (hw : m.writerWaitingCount = 0) (h : m.writing = false) :
      Moves m (.lockShared .test) m (.lockShared .increment) .none
  | refused (h : m.writerWaitingCount ≠ 0 ∨ m.writing = true) :
      Moves m (.lockShared .test) m (.lockShared .asleep) (.unlock ())
  | retryShared : Moves m (.lockShared .awake) m (.lockShared .test) (.lock ())
  | increment :
      Moves m (.lockShared .increment) { m with readerCount := m.readerCount + 1 }
        (.lockShared .unlock) .none
  | sharedLocked : Moves m (.lockShared .unlock) m .reading (.unlock ())
  | callUnlockShared : Moves m .reading m (.unlockShared .decrement) (.lock ())
  | decrementLast (h : m.readerCount = 1) (hw : 0 < m.writerWaitingCount) :
      Moves m (.unlockShared .decrement) { m with readerCount := m.readerCount - 1 }
        (.unlockShared .notify) .none
  | decrement (h : m.readerCount ≠ 1 ∨ m.writerWaitingCount ≤ 0) :
      Moves m (.unlockShared .decrement) { m with readerCount := m.readerCount - 1 }
        (.unlockShared .unlock) .none
  | notifyWriter :
      Moves m (.unlockShared .notify) m (.unlockShared .unlock) (.notifyOne .writerCv)
  | sharedUnlocked : Moves m (.unlockShared .unlock) m .outside (.unlock ())
  | arrive :
      Moves m (.lock .arrive) { m with writerWaitingCount := m.writerWaitingCount + 1 }
        (.lock .test) .none
  | acquired (hr : m.readerCount = 0) (h : m.writing = false) :
      Moves m (.lock .test) m (.lock .leave) .none
  | blocked (h : m.readerCount ≠ 0 ∨ m.writing = true) :
      Moves m (.lock .test) m (.lock .asleep) (.unlock ())
  | retry : Moves m (.lock .awake) m (.lock .test) (.lock ())
  | leave :
      Moves m (.lock .leave) { m with writerWaitingCount := m.writerWaitingCount - 1 }
        (.lock .setWriting) .none
  | setWriting : Moves m (.lock .setWriting) { m with writing := true } (.lock .unlock) .none
  | locked : Moves m (.lock .unlock) m .writing (.unlock ())
  | callUnlock : Moves m .writing m (.unlock .clearWriting) (.lock ())
  | clearWriting : Moves m (.unlock .clearWriting) { m with writing := false } (.unlock .check) .none
  | chooseWriter (hw : 0 < m.writerWaitingCount) :
      Moves m (.unlock .check) m (.unlock .notifyOne) .none
  | chooseReaders (hw : m.writerWaitingCount ≤ 0) :
      Moves m (.unlock .check) m (.unlock .notifyAll) .none
  | notifyOne : Moves m (.unlock .notifyOne) m (.unlock .unlock) (.notifyOne .writerCv)
  | notifyAll : Moves m (.unlock .notifyAll) m (.unlock .unlock) (.notifyAll .readerCv)
  | unlocked : Moves m (.unlock .unlock) m .outside (.unlock ())

theorem next_moves {m m' : Members} {p p' : Pc} {c : Call} {e : Effect Unit Cv}
    (h : program.next m p c = some (m', p', e)) : Moves m p m' p' e := by
  change next m p c = _ at h
  cases p with
  | outside => cases c <;> cases h <;> constructor
  | finished => cases h
  | reading | writing => cases h; constructor
  | lockShared p =>
    cases p <;> simp only [next, lockShared] at h
    case test =>
      split at h <;> rename_i hc <;> cases h
      · simp only [Bool.and_eq_true, beq_iff_eq, Bool.not_eq_true'] at hc
        exact .admitted hc.1 hc.2
      · exact .refused (by simpa [imp_iff_not_or] using hc)
    all_goals cases h <;> constructor
  | unlockShared p =>
    cases p <;> simp only [next, unlockShared] at h
    case decrement =>
      split at h <;> rename_i hc <;> cases h
      · simp only [Bool.and_eq_true, beq_iff_eq, decide_eq_true_eq] at hc
        exact .decrementLast (by omega) hc.2
      · simp only [Bool.and_eq_true, beq_iff_eq, decide_eq_true_eq] at hc
        exact .decrement (by omega)
    all_goals (cases h; constructor)
  | lock p =>
    cases p <;> simp only [next, lock] at h
    case test =>
      split at h <;> rename_i hc <;> cases h
      · simp only [Bool.and_eq_true, beq_iff_eq, Bool.not_eq_true'] at hc
        exact .acquired hc.1 hc.2
      · exact .blocked (by simpa [imp_iff_not_or] using hc)
    all_goals cases h <;> constructor
  | unlock p =>
    cases p <;> simp only [next, unlock] at h
    case check =>
      split at h <;> rename_i hc <;> cases h
      · exact .chooseWriter hc
      · exact .chooseReaders (by omega)
    all_goals (cases h; constructor)

theorem asleep_cases {p : Pc} (h : program.asleep p ≠ none) :
    p = .lockShared .asleep ∧ program.wake p = .lockShared .awake ∨
      p = .lock .asleep ∧ program.wake p = .lock .awake := by
  change asleep p ≠ none at h
  rcases p with _ | _ | p | _ | p | p | _ | p
  case lockShared => cases p <;> first | exact .inl ⟨rfl, rfl⟩ | exact absurd rfl h
  case lock => cases p <;> first | exact .inr ⟨rfl, rfl⟩ | exact absurd rfl h
  all_goals exact absurd rfl h

theorem discipline : Discipline program (fun _ => True) (fun p _ => holdsMutex p) := by
  refine ⟨fun m p c m' p' e _ h _ => ⟨trivial, ?_⟩, fun p h _ => ⟨trivial, ?_⟩⟩
  · cases next_moves h <;> exact ⟨by funext u; simp [holdsMutex, Effect.held], by simp [holdsMutex]⟩
  · obtain ⟨rfl, hw⟩ | ⟨rfl, hw⟩ := asleep_cases h <;> rw [hw] <;> rfl

def countedReader : Pc → Bool
  | .lockShared .unlock | .reading | .unlockShared .decrement => true
  | _ => false

def countedWaiting : Pc → Bool
  | .lock .test | .lock .asleep | .lock .awake | .lock .leave => true
  | _ => false

def countedWriter : Pc → Bool
  | .lock .unlock | .writing | .unlock .clearWriting => true
  | _ => false

/-- What the owner of `mutex_` knows at each place. -/
def Known (m : Members) : Pc → Prop
  | .lockShared .increment | .lockShared .unlock => m.writerWaitingCount = 0 ∧ m.writing = false
  | .lock .leave | .lock .setWriting => m.readerCount = 0 ∧ m.writing = false
  | _ => True

theorem moves_unlocked {m m' : Members} {p p' : Pc} {e : Effect Unit Cv} (h : Moves m p m' p' e)
    (hp : holdsMutex p = false) : m' = m := by
  cases h <;> first | rfl | cases hp

variable {T : Type} [DecidableEq T] [Fintype T] {s s' : LockState T}

theorem owned (hs : Reachable system s) : Owned (fun p _ => holdsMutex p) s := by
  induction hs with
  | init h =>
    subst h
    exact fun m t => by simp [initial, holdsMutex]
  | step _ h ih => exact (step_owned discipline h (fun _ => trivial) ih).2

theorem known (hs : Reachable system s) :
    ∀ t, holdsMutex (s.pc t) = true → Known s.shared (s.pc t) := by
  induction hs with
  | init h =>
    subst h
    intro t ht
    cases ht
  | @step s s' a hr h ih =>
    refine step_guarded (m := ()) (owned hr) ?_ ?_ ?_ h ih
    · intro p hp
      obtain ⟨-, hw⟩ | ⟨-, hw⟩ := asleep_cases hp <;> rw [hw] <;> rfl
    · intro t c p e hn ht q hq
      rwa [moves_unlocked (next_moves hn) ht]
    · intro t c p e hn hk _
      generalize s.pc t = q at hn hk
      generalize s'.shared = m' at hn ⊢
      cases next_moves hn <;> first | trivial | exact hk rfl

theorem readerCount_eq (hs : Reachable system s) : s.shared.readerCount = count countedReader s.pc := by
  rw [← total_toNat]
  induction hs with
  | init h =>
    subst h
    simp [initial, total, countedReader]
  | @step s s' a _ h ih =>
    refine step_total (c := Members.readerCount) (fun p hp => ?_) (fun t c p e hn => ?_) h ih
    · obtain ⟨rfl, hw⟩ | ⟨rfl, hw⟩ := asleep_cases hp <;> rw [hw] <;> rfl
    · generalize s.pc t = q at hn ⊢
      generalize s'.shared = m' at hn ⊢
      cases next_moves hn <;> simp [countedReader]

theorem writerWaitingCount_eq (hs : Reachable system s) :
    s.shared.writerWaitingCount = count countedWaiting s.pc := by
  rw [← total_toNat]
  induction hs with
  | init h =>
    subst h
    simp [initial, total, countedWaiting]
  | @step s s' a _ h ih =>
    refine step_total (c := Members.writerWaitingCount) (fun p hp => ?_) (fun t c p e hn => ?_) h ih
    · obtain ⟨rfl, hw⟩ | ⟨rfl, hw⟩ := asleep_cases hp <;> rw [hw] <;> rfl
    · generalize s.pc t = q at hn ⊢
      generalize s'.shared = m' at hn ⊢
      cases next_moves hn <;> simp [countedWaiting]

theorem writing_eq (hs : Reachable system s) :
    (if s.shared.writing then (1 : Int) else 0) = count countedWriter s.pc := by
  induction hs with
  | init h =>
    subst h
    simp [initial, count, countedWriter]
  | @step s s' a hr h ih =>
    rw [← total_toNat] at ih ⊢
    refine step_total (c := fun m : Members => if m.writing then (1 : Int) else 0)
      (fun p hp => ?_) (fun t c p e hn => ?_) h ih
    · obtain ⟨rfl, hw⟩ | ⟨rfl, hw⟩ := asleep_cases hp <;> rw [hw] <;> rfl
    · -- a thread sets `writing` knowing that it is clear, and clears its own
      have hk := known hr t
      have hset : countedWriter (s.pc t) = true → s.shared.writing = true := by
        intro ht
        have hpos : 0 < count countedWriter s.pc := count_pos.mpr ⟨t, ht⟩
        rw [total_toNat] at ih
        by_contra hw
        rw [if_neg hw] at ih
        omega
      generalize s.pc t = q at hn hk hset ⊢
      generalize s'.shared = m' at hn ⊢
      cases next_moves hn
      case setWriting => simp [countedWriter, (hk rfl).2]
      case clearWriting => simp [countedWriter, hset rfl]
      all_goals simp [countedWriter]

/-- While `writing` is set no reader is counted. -/
theorem readerCount_writing (hs : Reachable system s) (hw : s.shared.writing = true) :
    s.shared.readerCount = 0 := by
  induction hs with
  | init h =>
    subst h
    cases hw
  | @step s s' a hr h ih =>
    obtain ⟨t, c, pick, p, e, ha, hn, -, -, hd⟩ | ⟨t, ha, hsl, hsh, -, hp⟩ := step_cases h
    · have hk := known hr t
      have hreader : countedReader (s.pc t) = true → s.shared.readerCount ≠ 0 := by
        intro ht
        have hpos : 0 < count countedReader s.pc := count_pos.mpr ⟨t, ht⟩
        have hrc := readerCount_eq hr
        omega
      generalize s.pc t = q at hn hk hreader
      generalize s'.shared = m' at hn hw ⊢
      cases next_moves hn
      case increment =>
        rw [(hk rfl).2] at hw
        cases hw
      case setWriting => exact (hk rfl).1
      case clearWriting => cases hw
      case decrement | decrementLast => exact absurd (ih hw) (hreader rfl)
      all_goals exact ih hw
    · rw [hsh] at hw ⊢
      exact ih hw

/-- The counters stay within the number of threads, so that an `int` does not
overflow with fewer than `2 ^ 31` threads. -/
theorem counters_bounded (hs : Reachable system s) :
    (0 ≤ s.shared.readerCount ∧ s.shared.readerCount ≤ Fintype.card T) ∧
      0 ≤ s.shared.writerWaitingCount ∧ s.shared.writerWaitingCount ≤ Fintype.card T := by
  have hr := count_le_card countedReader s.pc
  have hw := count_le_card countedWaiting s.pc
  rw [readerCount_eq hs, writerWaitingCount_eq hs]
  omega

end RoblSampleCodes.StarveFreeInvariant
