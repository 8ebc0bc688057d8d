import RoblSampleCodes.StarveFreeExclusion

namespace RoblSampleCodes.StarveFreeWakeUp

open TransitionSystem ThreadCount ThreadProgram StarveFreeLock StarveFreeInvariant StarveFreeExclusion

def helpsWriter : Pc → Bool
  | .lock .test | .lock .awake | .lock .leave | .lock .setWriting => true
  | .unlockShared .notify | .unlock .check | .unlock .notifyOne => true
  | _ => false

def helpsReaders : Pc → Bool
  | .lock .setWriting | .unlock .check | .unlock .notifyAll => true
  | _ => false

theorem helpsWriter_awake {p : Pc} (h : helpsWriter p = true) : program.asleep p = none := by
  by_contra ha
  obtain ⟨rfl, -⟩ | ⟨rfl, -⟩ := asleep_cases ha <;> cases h

theorem helpsReaders_awake {p : Pc} (h : helpsReaders p = true) : program.asleep p = none := by
  by_contra ha
  obtain ⟨rfl, -⟩ | ⟨rfl, -⟩ := asleep_cases ha <;> cases h

variable {T : Type} [DecidableEq T] [Fintype T] {s s' : LockState T}

omit [Fintype T] in
theorem notifyOne_writer {pc pc' : T → Pc} {v : T}
    (hd : Delivered program pc (.notifyOne .writerCv) pc') (hv : pc' v = .lock .asleep) :
    ∃ u, pc' u = .lock .awake := by
  obtain ⟨u, hu, rfl⟩ := hd.notifyOne_wakes (v := v) (by rw [hv]; rfl)
  obtain ⟨hp, -⟩ | ⟨-, hw⟩ := asleep_cases (p := pc u) (by rw [hu]; nofun)
  · rw [hp] at hu
    cases hu
  · exact ⟨u, by rw [Function.update_self, hw]⟩

theorem waiting_pos (hs : Reachable system s) {t : T} (ht : s.pc t = .lock .asleep) :
    0 < s.shared.writerWaitingCount := by
  have hpos : 0 < count countedWaiting s.pc := count_pos.mpr ⟨t, by rw [ht]; rfl⟩
  have hw := writerWaitingCount_eq hs
  omega

/-- When a writer sleeps although the lock is free, some thread takes care of
it. Every release, arrival and stolen wake-up keeps this. -/
theorem sleeping_writer (hs : Reachable system s) (hr : s.shared.readerCount = 0)
    (hw : s.shared.writing = false) {v : T} (hv : s.pc v = .lock .asleep) :
    ∃ u, helpsWriter (s.pc u) = true := by
  induction hs generalizing v with
  | init h =>
    subst h
    cases hv
  | @step s s' a hs h ih =>
    obtain ⟨t, c, pick, p, e, -, hn, -, -, hd⟩ | ⟨t, -, hsl, hsh, -, hp⟩ := step_cases h
    · have hself : helpsWriter p = true → ∃ u, helpsWriter (s'.pc u) = true := fun hh =>
        ⟨t, by rw [hd.woken.self (helpsWriter_awake hh)]; exact hh⟩
      have hnotify : e = .notifyOne .writerCv → ∃ u, helpsWriter (s'.pc u) = true := by
        rintro rfl
        obtain ⟨u, hu⟩ := notifyOne_writer hd hv
        exact ⟨u, by rw [hu]; rfl⟩
      have hpos := (counters_bounded hs).1.1
      obtain ⟨-, hv'⟩ | ⟨hvt, hv'⟩ := hd.woken.sleeper (u := v) (by rw [hv]; nofun)
      · -- the writer just went to sleep: its test failed
        obtain rfl := hv'.symm.trans hv
        generalize s.pc t = q at hn
        generalize s'.shared = m' at hn hr hw
        cases next_moves hn with
        | blocked h => simp [hr, hw] at h
      · have hwait := waiting_pos hs (hv'.symm.trans hv)
        have hold : s.shared.readerCount = 0 → s.shared.writing = false →
            (∃ u, helpsWriter (s'.pc u) = true) ∨ helpsWriter (s.pc t) = true := by
          intro hr hw
          obtain ⟨u, hu⟩ := ih hr hw (hv'.symm.trans hv)
          by_cases hut : u = t
          · exact .inr (hut ▸ hu)
          · exact .inl ⟨u, by rw [hd.woken.other hut (helpsWriter_awake hu)]; exact hu⟩
        generalize s.pc t = q at hn hold
        generalize s'.shared = m' at hn hr hw
        cases next_moves hn with
        | increment => exact absurd hr (by dsimp only; omega)
        | decrement h => exact absurd hr (by dsimp only; omega)
        | setWriting => cases hw
        | decrementLast _ _ | clearWriting => exact hself rfl
        | chooseReaders h => omega
        | blocked h => simp [hr, hw] at h
        | notifyWriter | notifyOne => exact hnotify rfl
        | retry | acquired _ _ | leave | chooseWriter _ => exact hself rfl
        | callLockShared | callLock | finish | admitted _ _ | refused _ | retryShared | sharedLocked
        | callUnlockShared | sharedUnlocked | arrive | locked | callUnlock | notifyAll | unlocked =>
          exact (hold hr hw).resolve_right nofun
    · rw [hsh] at hr hw
      have hwk : Woken program s.pc s'.pc := hp ▸ woken_update hsl
      obtain ⟨u, hu⟩ := ih hr hw ((hwk.asleep (u := v) (by rw [hv]; nofun)).symm.trans hv)
      exact ⟨u, by rw [hwk.awake (helpsWriter_awake hu)]; exact hu⟩

/-- A reader sleeps un-notified only while a writer holds the lock or waits,
or while some thread is about to change that. -/
theorem sleeping_reader (hs : Reachable system s) {v : T} (hv : s.pc v = .lockShared .asleep) :
    s.shared.writing = true ∨ 0 < s.shared.writerWaitingCount ∨ ∃ u, helpsReaders (s.pc u) = true := by
  induction hs generalizing v with
  | init h =>
    subst h
    cases hv
  | @step s s' a hs h ih =>
    obtain ⟨t, c, pick, p, e, -, hn, -, -, hd⟩ | ⟨t, -, hsl, hsh, -, hp⟩ := step_cases h
    · have hself : helpsReaders p = true → ∃ u, helpsReaders (s'.pc u) = true := fun hh =>
        ⟨t, by rw [hd.woken.self (helpsReaders_awake hh)]; exact hh⟩
      have hpos := (counters_bounded hs).2.1
      obtain ⟨-, hv'⟩ | ⟨hvt, hv'⟩ := hd.woken.sleeper (u := v) (by rw [hv]; nofun)
      · -- the reader just went to sleep: its test failed
        obtain rfl := hv'.symm.trans hv
        generalize s.pc t = q at hn
        generalize s'.shared = m' at hn ⊢
        cases next_moves hn with
        | refused h =>
          obtain h | h := h
          · exact .inr (.inl (by omega))
          · exact .inl h
      · have hold : s.shared.writing = true ∨ 0 < s.shared.writerWaitingCount ∨
            (∃ u, helpsReaders (s'.pc u) = true) ∨ helpsReaders (s.pc t) = true := by
          obtain hw | hw | ⟨u, hu⟩ := ih (hv'.symm.trans hv)
          · exact .inl hw
          · exact .inr (.inl hw)
          · by_cases hut : u = t
            · exact .inr (.inr (.inr (hut ▸ hu)))
            · exact .inr (.inr (.inl ⟨u, by rw [hd.woken.other hut (helpsReaders_awake hu)]; exact hu⟩))
        have hall : e ≠ .notifyAll .readerCv := by
          rintro rfl
          exact hd.notifyAll_wakes v (by rw [hv]; rfl)
        generalize s.pc t = q at hn hold
        generalize s'.shared = m' at hn ⊢
        cases next_moves hn with
        | setWriting => exact .inl rfl
        | clearWriting | leave | chooseReaders _ => exact .inr (.inr (hself rfl))
        | arrive => exact .inr (.inl (by dsimp only; omega))
        | chooseWriter h => exact .inr (.inl h)
        | notifyAll => exact absurd rfl hall
        | callLockShared | callLock | finish | admitted _ _ | refused _ | retryShared | increment
        | sharedLocked | callUnlockShared | decrementLast _ _ | decrement _ | notifyWriter
        | sharedUnlocked | acquired _ _ | blocked _ | retry | locked | callUnlock | notifyOne
        | unlocked => simpa [helpsReaders] using hold
    · rw [hsh]
      have hwk : Woken program s.pc s'.pc := hp ▸ woken_update hsl
      obtain hw | hw | ⟨u, hu⟩ := ih ((hwk.asleep (u := v) (by rw [hv]; nofun)).symm.trans hv)
      · exact .inl hw
      · exact .inr (.inl hw)
      · exact .inr (.inr ⟨u, by rw [hwk.awake (helpsReaders_awake hu)]; exact hu⟩)

/-- No wake-up is lost in a state. The last field does not ask for a free
`mutex_`, because the owner of `mutex_` does not sleep. -/
structure NoLostWakeUp (s : LockState T) : Prop where
  writer : s.owner () = none → s.shared.readerCount = 0 → s.shared.writing = false →
    (∃ t, insideLock (s.pc t) = true) → ∃ t, insideLock (s.pc t) = true ∧ asleep (s.pc t) = none
  reader : s.owner () = none → ∀ t, asleep (s.pc t) = some .readerCv →
    s.shared.writing = true ∨ 0 < s.shared.writerWaitingCount
  notAllAsleep : (∃ t, s.pc t ≠ .finished) → ∃ t, s.pc t ≠ .finished ∧ asleep (s.pc t) = none

theorem insideLock_asleep {p : Pc} (h : insideLock p = true) : asleep p = none ∨ p = .lock .asleep := by
  rcases p with _ | _ | p | _ | p | p | _ | p
  case lock => cases p <;> first | exact .inl rfl | exact .inr rfl
  all_goals cases h

theorem helpsWriter_free {p : Pc} (hm : holdsMutex p = false) (h : helpsWriter p = true) :
    insideLock p = true := by
  rcases p with _ | _ | p | _ | p | p | _ | p
  case lock | unlockShared | unlock => cases p <;> simp_all [holdsMutex, helpsWriter, insideLock]
  all_goals cases h

theorem helpsReaders_mutex {p : Pc} (h : helpsReaders p = true) : holdsMutex p = true := by
  rcases p with _ | _ | p | _ | p | p | _ | p
  case lock | unlock => cases p <;> first | rfl | cases h
  all_goals cases h

/-- Not all unfinished threads sleep: the lock would be free, and then the
two invariants above ask for a thread that is awake. -/
theorem someone_awake (hs : Reachable system s) (hu : ∃ t, s.pc t ≠ .finished) :
    ∃ t, s.pc t ≠ .finished ∧ asleep (s.pc t) = none := by
  by_contra hall
  have hplace : ∀ t, s.pc t = .finished ∨ s.pc t = .lockShared .asleep ∨ s.pc t = .lock .asleep := by
    intro t
    by_contra hp
    obtain ⟨hf, hp⟩ := not_or.mp hp
    refine hall ⟨t, hf, by_contra fun ha => hp ?_⟩
    obtain ⟨h, -⟩ | ⟨h, -⟩ := asleep_cases ha
    · exact .inl h
    · exact .inr h
  have hidle : ∀ k : Pc → Bool, k .finished = false → k (.lockShared .asleep) = false →
      k (.lock .asleep) = false → ∀ t, k (s.pc t) = false := by
    intro k hf hr hw t
    obtain h | h | h := hplace t <;> rw [h] <;> assumption
  have hrc : s.shared.readerCount = 0 := by
    rw [readerCount_eq hs, count_eq_zero.mpr (hidle countedReader rfl rfl rfl)]
    rfl
  have hwr : s.shared.writing = false := by
    have hw := writing_eq hs
    rw [count_eq_zero.mpr (hidle countedWriter rfl rfl rfl)] at hw
    by_contra hb
    simp [hb] at hw
  have hnoWriter : ∀ t, s.pc t ≠ .lock .asleep := by
    intro t ht
    obtain ⟨u, hu⟩ := sleeping_writer hs hrc hwr ht
    rw [hidle helpsWriter rfl rfl rfl u] at hu
    cases hu
  obtain ⟨t, ht⟩ := hu
  have htr : s.pc t = .lockShared .asleep := by
    obtain h | h | h := hplace t
    · exact absurd h ht
    · exact h
    · exact absurd h (hnoWriter t)
  obtain hw | hw | ⟨u, hu⟩ := sleeping_reader hs htr
  · rw [hwr] at hw
    cases hw
  · have hc := writerWaitingCount_eq hs
    obtain ⟨u, hu⟩ := count_pos.mp (show 0 < count countedWaiting s.pc by omega)
    obtain h | h | h := hplace u
    · rw [h] at hu
      cases hu
    · rw [h] at hu
      cases hu
    · exact hnoWriter u h
  · rw [hidle helpsReaders rfl rfl rfl u] at hu
    cases hu

theorem lock_noLostWakeUp (hs : Reachable system s) : NoLostWakeUp s := by
  constructor
  · intro ho hr hw ⟨t, ht⟩
    obtain ha | ha := insideLock_asleep ht
    · exact ⟨t, ht, ha⟩
    · obtain ⟨u, hu⟩ := sleeping_writer hs hr hw ha
      exact ⟨u, helpsWriter_free ((owned hs).free ho u) hu, helpsWriter_awake hu⟩
  · intro ho t ht
    obtain ⟨hp, -⟩ | ⟨hp, -⟩ := asleep_cases (p := s.pc t)
      (by rw [show program.asleep (s.pc t) = _ from ht]; nofun)
    · obtain hw | hw | ⟨u, hu⟩ := sleeping_reader hs hp
      · exact .inl hw
      · exact .inr hw
      · have hf := (owned hs).free ho u
        rw [helpsReaders_mutex hu] at hf
        cases hf
    · rw [hp] at ht
      cases ht
  · exact someone_awake hs

def releasedRun (t u v : T) : List (Action T Call) :=
  contendedRun t u v ++ List.replicate 3 (.run t .lock none) ++
    [.run t .lock (some u), .run t .lock none]

theorem lock_noLostWakeUp_released :
    ∃ s : LockState (Fin 3), Reachable system s ∧ NoLostWakeUp s ∧ s.owner () = none ∧
      s.shared = ⟨0, 1, false⟩ ∧ ∀ t, s.pc t = ![.outside, .lock .awake, .lockShared .asleep] t := by
  obtain ⟨s, hs, h⟩ : ∃ s : LockState (Fin 3), Reachable system s ∧ s.owner () = none ∧
      s.shared = ⟨0, 1, false⟩ ∧ ∀ t, s.pc t = ![.outside, .lock .awake, .lockShared .asleep] t :=
    exists_reachable rfl (releasedRun 0 1 2) (by decide)
  exact ⟨s, hs, lock_noLostWakeUp hs, h⟩

end RoblSampleCodes.StarveFreeWakeUp
