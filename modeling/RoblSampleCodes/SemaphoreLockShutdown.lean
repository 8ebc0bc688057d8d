import RoblSampleCodes.SemaphoreLockProgress

namespace RoblSampleCodes.SemaphoreLockShutdown

open TransitionSystem ThreadCount ThreadProgram ProcessThreads
open SemaphoreLock SemaphoreLockInvariant SemaphoreLockProgress

def remaining : Pc → Nat
  | .reader _ .waitIn => 12
  | .reader _ .waitMx => 11
  | .reader _ .count => 10
  | .reader _ .waitWrt => 9
  | .reader _ .postMx => 8
  | .reader _ .postIn => 7
  | .reader _ .critical => 6
  | .reader _ .exitWaitMx => 5
  | .reader _ .uncount => 4
  | .reader _ .exitPostWrt => 3
  | .reader _ .exitPostMx => 2
  | .reader _ .loop => 1
  | .reader _ .finished => 0
  | .writer _ .waitIn => 9
  | .writer _ .waitWrt => 8
  | .writer _ .load => 7
  | .writer _ (.store _) => 6
  | .writer _ .print => 5
  | .writer _ .postWrt => 4
  | .writer _ .postIn => 3
  | .writer _ .sleep => 2
  | .writer _ .loop => 1
  | .writer _ .finished => 0
  | .main _ => 1
  | .stopped _ => 0

theorem remaining_le (p : Pc) : remaining p ≤ 12 := by
  cases p with
  | reader q p | writer q p => cases p <;> simp [remaining]
  | main | stopped => simp [remaining]

variable {T : Type} [DecidableEq T] [Fintype T] {turnstile : Bool} {role : T → Role} {s t : LockState T}

theorem ending (turnstile : Bool) : (code turnstile).Ending remaining := by
  refine ⟨fun q m p m' p' hstop h => ?_, fun q m p m' p' hstop h => ?_, fun _ => Nat.zero_lt_one⟩
  · have hmoves := reader_moves h
    cases hmoves with
    | readerEntersIn | readerEnters =>
      change m.isRunning q = false at hstop
      simp [code, reader, hstop] at h
    | _ => exact ⟨rfl, by simp [remaining]⟩
  · have hmoves := writer_moves h
    cases hmoves with
    | writerEntersIn | writerEnters =>
      change m.isRunning q = false at hstop
      simp [code, writer, hstop] at h
    | _ => exact ⟨rfl, by simp [remaining]⟩

/-- Once the processes have cleared `is_running`, every run ends, and it ends with all threads out of
their loops and the semaphores as they were initialised. -/
theorem semaphoreLock_shutsDown (hs : Reachable (system turnstile role) s)
    (hstop : (code turnstile).Stopping s)
    {as : List (Action T Unit)} (he : exec (system turnstile role) s as = some t) :
    as.length ≤ 12 * Fintype.card T ∧
      (count Role.isReader role ≤ 2 ^ 32 → (∀ a, ¬ Enabled (system turnstile role) t a) →
        (∀ u, working (t.pc u) = false) ∧ t.shared.in_ = 1 ∧ t.shared.mx = 1 ∧ t.shared.wrt = 1 ∧
          t.shared.readCount = 0) := by
  have ht := hs.exec he
  refine ⟨(ending turnstile).length_le remaining_le hstop he, fun hN hstuck => ?_⟩
  have hdone := not_working_of_stuck (fun _ => lock_progress ht hN) hstuck
  exact ⟨hdone, finished_released ht hdone⟩

/-- The process ends its loops while its reader is in and its writer waits. -/
theorem semaphoreLock_shutsDown_reader :
    ∃ s t, Reachable (withoutWriterStarvation ![.main 0, .reader 0, .writer 0]) s ∧
      s.pc 1 = .reader 0 .critical ∧ s.pc 2 = .writer 0 .waitWrt ∧ (code true).Stopping s ∧
      exec (withoutWriterStarvation ![.main 0, .reader 0, .writer 0]) s
        (List.replicate 6 (.run 1 () none) ++ List.replicate 8 (.run 2 () none)) = some t ∧
      (∀ u, working (t.pc u) = false) ∧ t.shared.in_ = 1 ∧ t.shared.mx = 1 ∧ t.shared.wrt = 1 ∧
        t.shared.readCount = 0 := by
  obtain ⟨s, hs, hreader, hwriter, hstop, he⟩ :
      ∃ s, Reachable (withoutWriterStarvation ![.main 0, .reader 0, .writer 0]) s ∧
        s.pc 1 = .reader 0 .critical ∧ s.pc 2 = .writer 0 .waitWrt ∧
        (∀ t, s.shared.isRunning (process (s.pc t)) = false) ∧
        (exec (withoutWriterStarvation ![.main 0, .reader 0, .writer 0]) s
          (List.replicate 6 (.run 1 () none) ++ List.replicate 8 (.run 2 () none))).any
            (fun t => decide (∀ u, ((code true).next t.shared (t.pc u)).isNone = true)) = true :=
    exists_reachable rfl
      (List.replicate 7 (.run 1 () none) ++ List.replicate 2 (.run 2 () none) ++ [.run 0 () none])
      (by decide +kernel)
  obtain ⟨t, he, ht⟩ := (Option.any_eq_true _ _).mp he
  have hdone := (semaphoreLock_shutsDown hs hstop he).2 (by decide) (stuck (of_decide_eq_true ht))
  exact ⟨s, t, hs, hreader, hwriter, hstop, he, hdone⟩

end RoblSampleCodes.SemaphoreLockShutdown
