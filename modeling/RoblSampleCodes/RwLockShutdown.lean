import RoblSampleCodes.RwLockHistory

namespace RoblSampleCodes.RwLockShutdown

open TransitionSystem ThreadCount ThreadProgram ProcessThreads RwLock RwLockInvariant RwLockHistory
open ReadersWriters (Mode)

abbrev working : Pc → Bool := ThreadPc.working .finished .finished

def blocked (l : Rwlock) : Pc → Bool
  | .reader _ .rdlock => l.rdlock.isNone
  | .writer _ .wait => l.wrlocked.isNone
  | _ => false

theorem next_of_unblocked {m : SharedMemory} {p : Pc} (hw : working p = true)
    (hb : blocked m.rwlock p = false) : ∃ m' p', code.next m p = some (m', p', .none) := by
  cases p with
  | reader q p =>
    obtain ⟨⟨m', p'⟩, hr⟩ : ∃ x, reader q m p = some x := by
      cases p with
      | loop => exact Option.isSome_iff_exists.mp (by rw [reader]; split <;> rfl)
      | rdlock =>
        obtain ⟨l, hl⟩ := Option.isSome_iff_exists.mp (Option.isNone_eq_false_iff.mp hb)
        exact ⟨_, Option.map_eq_some_iff.mpr ⟨l, hl, rfl⟩⟩
      | print | unlock => exact ⟨_, rfl⟩
      | finished => cases hw
    exact ⟨m', .reader q p', Option.map_eq_some_iff.mpr ⟨_, hr, rfl⟩⟩
  | writer q p =>
    obtain ⟨⟨m', p'⟩, hr⟩ : ∃ x, writer q m p = some x := by
      cases p with
      | loop => exact Option.isSome_iff_exists.mp (by rw [writer]; split <;> rfl)
      | wait =>
        obtain ⟨l, hl⟩ := Option.isSome_iff_exists.mp (Option.isNone_eq_false_iff.mp hb)
        exact ⟨_, Option.map_eq_some_iff.mpr ⟨l, hl, rfl⟩⟩
      | finished => cases hw
      | _ => exact ⟨_, rfl⟩
    exact ⟨m', .writer q p', Option.map_eq_some_iff.mpr ⟨_, hr, rfl⟩⟩
  | main | stopped => cases hw

theorem working_of_mode {l : Rwlock} {p : Pc} (h : mode p = .shared ∨ mode p = .exclusive) :
    working p = true ∧ blocked l p = false := by
  cases p with
  | reader q p | writer q p =>
    cases p <;> first | exact ⟨rfl, rfl⟩ | (obtain h | h := h <;> cases h)
  | main | stopped => obtain h | h := h <;> cases h

theorem waiting_of_mode {p : Pc} (h : mode p = .waiting) : ∃ q, p = .writer q .wait := by
  cases p with
  | writer q p =>
    cases p with
    | wait => exact ⟨q, rfl⟩
    | _ => cases h
  | reader q p => cases p <;> cases h
  | main | stopped => cases h

variable {T : Type} [DecidableEq T] [Fintype T] {preferWriter : Bool} {role : T → Role}
  {s s' : LockState T}

omit [DecidableEq T] in
theorem mode_of_count {x : Mode} (h : count (has x) s.pc ≠ 0) : ∃ t, mode (s.pc t) = x := by
  obtain ⟨t, ht⟩ := count_pos.mp (Nat.pos_of_ne_zero h)
  exact ⟨t, of_decide_eq_true ht⟩

/-- Whoever has the lock goes on; if nobody has it, a writer that waits can get it, and if none waits,
nobody is blocked. -/
theorem exists_unblocked (hs : Reachable (system preferWriter role) s) {t : T}
    (ht : working (s.pc t) = true) :
    ∃ u, working (s.pc u) = true ∧ blocked s.shared.rwlock (s.pc u) = false := by
  have hcounted := counted hs
  by_cases hexclusive : count (has .exclusive) s.pc = 0
  · by_cases hshared : count (has .shared) s.pc = 0
    · rw [Counted, hexclusive, hshared] at hcounted
      have hwriter := hcounted.writer_false
      by_cases hwaiting : count (has .waiting) s.pc = 0
      · rw [hwaiting] at hcounted
        refine ⟨t, ht, ?_⟩
        cases hp : s.pc t with
        | reader q p =>
          cases p with
          | rdlock => simp [blocked, Rwlock.rdlock, hwriter, hcounted.waiting]
          | _ => rfl
        | writer q p =>
          cases p with
          | wait => simp [blocked, Rwlock.wrlocked, hwriter, hcounted.readers]
          | _ => rfl
        | main | stopped => rfl
      · obtain ⟨u, hu⟩ := mode_of_count hwaiting
        obtain ⟨q, hq⟩ := waiting_of_mode hu
        refine ⟨u, ?_, ?_⟩
        · rw [hq]
          rfl
        · simp [hq, blocked, Rwlock.wrlocked, hwriter, hcounted.readers]
    · obtain ⟨u, hu⟩ := mode_of_count hshared
      exact ⟨u, working_of_mode (.inl hu)⟩
  · obtain ⟨u, hu⟩ := mode_of_count hexclusive
    exact ⟨u, working_of_mode (.inr hu)⟩

theorem lock_progress (hs : Reachable (system preferWriter role) s) {t : T}
    (ht : working (s.pc t) = true) :
    ∃ u pick, working (s.pc u) = true ∧ Enabled (system preferWriter role) s (.run u () pick) := by
  obtain ⟨u, hw, hb⟩ := exists_unblocked hs ht
  obtain ⟨m', p', hn⟩ := next_of_unblocked hw hb
  have hnext : program.next s.shared (s.pc u) () = some (m', p', .none) := hn
  obtain ⟨pick, he⟩ := exists_enabled hnext nofun
  exact ⟨u, pick, hw, he⟩

theorem working_of_waiting {p : Pc} (h : mode p = .waiting) : working p = true := by
  obtain ⟨q, rfl⟩ := waiting_of_mode h
  rfl

omit [DecidableEq T] in
theorem count_finished {x : Mode} (hf : ∀ t, working (s.pc t) = false)
    (hx : ∀ p, mode p = x → working p = true) : count (has x) s.pc = 0 :=
  count_eq_zero_of_imp (fun p hp => hx p (of_decide_eq_true hp)) hf

theorem finished_free (hs : Reachable (system preferWriter role) s) (hf : ∀ t, working (s.pc t) = false) :
    s.shared.rwlock.readers = 0 ∧ s.shared.rwlock.writer = false ∧ s.shared.rwlock.waiting = 0 ∧
      s.shared.increment = writes s.shared.loads := by
  have hexclusive := count_finished hf fun _ h => (working_of_mode (l := s.shared.rwlock) (.inr h)).1
  have hshared := count_finished hf fun _ h => (working_of_mode (l := s.shared.rwlock) (.inl h)).1
  have hwaiting := count_finished hf fun _ h => working_of_waiting h
  have hcounted := counted hs
  rw [Counted, hexclusive, hshared, hwaiting] at hcounted
  have hincrement := (sequential hs).2
  have hzero : count unprinted s.pc = 0 := Nat.eq_zero_of_le_zero (hexclusive ▸ unprinted_le s)
  rw [hzero, Nat.cast_zero, add_zero] at hincrement
  exact ⟨hcounted.readers, hcounted.writer_false, hcounted.waiting, hincrement⟩

/-- A bound for the steps of a thread to the end of its loop, when it does not begin another turn. -/
def remaining : Pc → Nat
  | .reader _ .rdlock => 4
  | .reader _ .print => 3
  | .reader _ .unlock => 2
  | .reader _ .loop => 1
  | .reader _ .finished => 0
  | .writer _ .wrlock => 8
  | .writer _ .wait => 7
  | .writer _ .load => 6
  | .writer _ (.store _) => 5
  | .writer _ .print => 4
  | .writer _ .unlock => 3
  | .writer _ .sleep => 2
  | .writer _ .loop => 1
  | .writer _ .finished => 0
  | .main _ => 1
  | .stopped _ => 0

theorem remaining_le (p : Pc) : remaining p ≤ 8 := by
  cases p with
  | reader q p | writer q p => cases p <;> simp [remaining]
  | main | stopped => simp [remaining]

theorem ending : code.Ending remaining := by
  refine ⟨fun q m p m' p' hstop h => ?_, fun q m p m' p' hstop h => ?_, fun _ => Nat.zero_lt_one⟩
  · have hmoves := reader_moves h
    cases hmoves with
    | readerEnters hrunning => exact absurd hrunning (Bool.eq_false_iff.mp hstop)
    | _ => exact ⟨rfl, by simp [remaining]⟩
  · have hmoves := writer_moves h
    cases hmoves with
    | writerEnters hrunning => exact absurd hrunning (Bool.eq_false_iff.mp hstop)
    | _ => exact ⟨rfl, by simp [remaining]⟩

/-- Some thread can go on until all have left their loops, and once the processes have cleared
`is_running` every run ends, with the lock free and all writes counted. -/
theorem rwlock_shutsDown (hs : Reachable (system preferWriter role) s) :
    ((∃ t, working (s.pc t) = true) →
      ∃ t pick, working (s.pc t) = true ∧ Enabled (system preferWriter role) s (.run t () pick)) ∧
    (code.Stopping s → ∀ as s', exec (system preferWriter role) s as = some s' →
      as.length ≤ 8 * Fintype.card T ∧ ((∀ a, ¬ Enabled (system preferWriter role) s' a) →
        (∀ t, working (s'.pc t) = false) ∧ s'.shared.rwlock.readers = 0 ∧
          s'.shared.rwlock.writer = false ∧ s'.shared.rwlock.waiting = 0 ∧
          s'.shared.increment = writes s'.shared.loads)) := by
  refine ⟨fun ⟨t, ht⟩ => lock_progress hs ht, fun hstop as s' he => ⟨?_, fun hstuck => ?_⟩⟩
  · exact ending.length_le remaining_le hstop he
  · have hdone := not_working_of_stuck (fun _ => lock_progress (hs.exec he)) hstuck
    exact ⟨hdone, finished_free (hs.exec he) hdone⟩

/-- The process ends its loops while two readers share the lock and a writer waits for it. -/
theorem rwlock_shutsDown_contended :
    ∃ s t, Reachable (withWriterStarvation ![.reader 0, .reader 0, .writer 0, .main 0]) s ∧
      s.shared.rwlock = ⟨false, 2, false, 1⟩ ∧ code.Stopping s ∧
      (∃ t pick, working (s.pc t) = true ∧
        Enabled (withWriterStarvation ![.reader 0, .reader 0, .writer 0, .main 0]) s (.run t () pick)) ∧
      exec (withWriterStarvation ![.reader 0, .reader 0, .writer 0, .main 0]) s
        (List.replicate 3 (.run 0 () none) ++ List.replicate 3 (.run 1 () none) ++
          List.replicate 7 (.run 2 () none)) = some t ∧
      (∀ u, working (t.pc u) = false) ∧ t.shared.rwlock.readers = 0 ∧ t.shared.rwlock.writer = false ∧
        t.shared.rwlock.waiting = 0 ∧ t.shared.increment = writes t.shared.loads := by
  obtain ⟨s, hs, hlock, hw, hstop, he⟩ :
      ∃ s, Reachable (withWriterStarvation ![.reader 0, .reader 0, .writer 0, .main 0]) s ∧
        s.shared.rwlock = ⟨false, 2, false, 1⟩ ∧ working (s.pc 2) = true ∧
        (∀ t, s.shared.isRunning (process (s.pc t)) = false) ∧
        (exec (withWriterStarvation ![.reader 0, .reader 0, .writer 0, .main 0]) s
          (List.replicate 3 (.run 0 () none) ++ List.replicate 3 (.run 1 () none) ++
            List.replicate 7 (.run 2 () none))).any
              (fun t => decide (∀ u, (code.next t.shared (t.pc u)).isNone = true)) = true :=
    exists_reachable rfl
      [.run 0 () none, .run 1 () none, .run 2 () none, .run 0 () none, .run 1 () none, .run 2 () none,
        .run 3 () none]
      (by decide +kernel)
  obtain ⟨t, he, ht⟩ := (Option.any_eq_true _ _).mp he
  have hends := (rwlock_shutsDown hs).2 hstop _ t he
  exact ⟨s, t, hs, hlock, hstop, (rwlock_shutsDown hs).1 ⟨2, hw⟩, he,
    hends.2 (stuck (of_decide_eq_true ht))⟩

end RoblSampleCodes.RwLockShutdown
