import RoblSampleCodes.StarveFreeInvariant

namespace RoblSampleCodes.StarveFreeExclusion

open TransitionSystem ThreadCount ThreadProgram StarveFreeLock StarveFreeInvariant

def holdsShared (p : Pc) : Bool := p == .reading

def holdsExclusive (p : Pc) : Bool := p == .writing

def insideLock : Pc → Bool
  | .lock .unlock => false
  | .lock _ => true
  | _ => false

variable {T : Type} [DecidableEq T] [Fintype T] {s s' : LockState T}

/-- Mutual exclusion and writer priority of a state. The counts are compared
when no thread is inside a section of `mutex_`. -/
structure WriterPriority (s : LockState T) : Prop where
  readers : s.owner () = none → s.shared.readerCount = count holdsShared s.pc
  writer : s.owner () = none → (s.shared.writing = true ↔ count holdsExclusive s.pc = 1)
  oneWriter : s.owner () = none → count holdsExclusive s.pc ≤ 1
  noReader : s.owner () = none → 0 < count holdsExclusive s.pc → count holdsShared s.pc = 0
  waiting : s.owner () = none → s.shared.writerWaitingCount = count insideLock s.pc
  priority : 0 < s.shared.writerWaitingCount → ∀ a s', (system (T := T)).step s a = some s' →
    ∀ t, s'.pc t = .reading → s.pc t = .reading

theorem countedReader_free {p : Pc} (h : holdsMutex p = false) : countedReader p = holdsShared p := by
  rcases p with _ | _ | p | _ | p | p | _ | p
  case lockShared | unlockShared | lock | unlock => cases p <;> first | rfl | cases h
  all_goals rfl

theorem countedWriter_free {p : Pc} (h : holdsMutex p = false) : countedWriter p = holdsExclusive p := by
  rcases p with _ | _ | p | _ | p | p | _ | p
  case lockShared | unlockShared | lock | unlock => cases p <;> first | rfl | cases h
  all_goals rfl

theorem countedWaiting_free {p : Pc} (h : holdsMutex p = false) : countedWaiting p = insideLock p := by
  rcases p with _ | _ | p | _ | p | p | _ | p
  case lockShared | unlockShared | lock | unlock => cases p <;> first | rfl | cases h
  all_goals rfl

theorem count_free (hs : Reachable system s) (ho : s.owner () = none) {k k' : Pc → Bool}
    (h : ∀ p, holdsMutex p = false → k p = k' p) : count k s.pc = count k' s.pc := by
  have hfree := (owned hs).free ho
  simp only [count, fun t => h _ (hfree t)]

theorem reading_priority (hs : Reachable system s) {a : Action T Call}
    (h : system.step s a = some s') {t : T} (ht : s'.pc t = .reading) :
    s.pc t = .reading ∨ s.shared.writerWaitingCount = 0 := by
  obtain hp | ⟨hsl, hp⟩ | ⟨c, pick, e, p, -, hn, hp⟩ := step_pc h t
  · exact .inl (hp ▸ ht)
  · obtain ⟨-, hw⟩ | ⟨-, hw⟩ := asleep_cases hsl <;> rw [hp, hw] at ht <;> cases ht
  · obtain rfl : p = .reading := by
      obtain hp | ⟨hsl, hp⟩ := hp
      · exact hp ▸ ht
      · obtain ⟨-, hw⟩ | ⟨-, hw⟩ := asleep_cases hsl <;> rw [hp, hw] at ht <;> cases ht
    have hk := known hs t
    generalize s.pc t = q at hn hk
    generalize s'.shared = m' at hn
    cases next_moves hn
    exact .inr (hk rfl).1

theorem lock_writerPriority (hs : Reachable system s) : WriterPriority s := by
  have hw := writing_eq hs
  constructor
  · intro ho
    rw [readerCount_eq hs, count_free hs ho (fun _ => countedReader_free)]
  · intro ho
    rw [count_free hs ho (fun _ => countedWriter_free)] at hw
    split at hw <;> rename_i hb
    · exact ⟨fun _ => by omega, fun _ => hb⟩
    · exact ⟨fun h => absurd h hb, fun h => by omega⟩
  · intro ho
    rw [count_free hs ho (fun _ => countedWriter_free)] at hw
    split at hw <;> omega
  · intro ho hpos
    rw [count_free hs ho (fun _ => countedWriter_free)] at hw
    have hwr : s.shared.writing = true := by
      by_contra hb
      rw [if_neg hb] at hw
      omega
    have hr := readerCount_writing hs hwr
    rw [readerCount_eq hs, count_free hs ho (fun _ => countedReader_free)] at hr
    omega
  · intro ho
    rw [writerWaitingCount_eq hs, count_free hs ho (fun _ => countedWaiting_free)]
  · intro hpos a s' h t ht
    obtain hp | hz := reading_priority hs h ht
    · exact hp
    · omega

def contendedRun (t u v : T) : List (Action T Call) :=
  List.replicate 6 (.run t .lock none) ++ List.replicate 3 (.run u .lock none) ++
    List.replicate 2 (.run v .lockShared none)

theorem lock_writerPriority_contended :
    ∃ s : LockState (Fin 3), Reachable system s ∧ WriterPriority s ∧ s.owner () = none ∧
      s.shared = ⟨0, 1, true⟩ ∧ ∀ t, s.pc t = ![.writing, .lock .asleep, .lockShared .asleep] t := by
  obtain ⟨s, hs, h⟩ : ∃ s : LockState (Fin 3), Reachable system s ∧ s.owner () = none ∧
      s.shared = ⟨0, 1, true⟩ ∧ ∀ t, s.pc t = ![.writing, .lock .asleep, .lockShared .asleep] t :=
    exists_reachable rfl (contendedRun 0 1 2) (by decide)
  exact ⟨s, hs, lock_writerPriority hs, h⟩

end RoblSampleCodes.StarveFreeExclusion
