import RoblSampleCodes.MidListenerProgress

namespace RoblSampleCodes.MidListenerReentry

open TransitionSystem TaskProgram MidListener MidListenerInvariant MidListenerProgress

variable {τ Q : Type}

section Calls

variable {m m' : Members τ} {n : Nat} {c c' : CallPc τ} {e : Effect Unit (Pc τ)}

theorem calls_begin (h : Calls m n .outside m' c' e) : WantsMutex c' := by
  cases h <;> trivial

theorem calls_lock (h : Calls m n c m' c' e) (hwants : WantsMutex c) : e = .lock () := by
  cases h with
  | registerLock | cancelLock | notifyLock => rfl
  | _ => cases hwants

end Calls

section Step

variable [DecidableEq τ] [DecidableEq Q] {int : τ} {s s' : MidState τ Q} {a : Action Q (Input τ)}

/-- No task needs the mutex of the `Notify` that waits for it. The owner of the mutex
returns if no condition or callback calls the listener from now on, and whoever
needs the mutex can take it then. -/
structure Tolerates (int : τ) (s : MidState τ Q) : Prop where
  deadlockFree : ∀ t k message n rest, callOf (s.pc t) = .wait k message n rest →
    ¬ WantsMutex (callOf (s.pc (.task n)))
  returns : ∀ t, s.owner () = some t → ∃ q, t = .main q ∧ ∃ n, Within (system int Q) NoReentry (Serves t)
    (fun v => v.pc t = .client .outside) n s
  acquires : ∀ t, WantsMutex (callOf (s.pc t)) → s.owner () = none → ∀ i, Enabled (system int Q) s ⟨t, i⟩

theorem tolerates (hs : ReachableBy (system int Q) NoReentry s) : Tolerates int s := by
  refine ⟨fun t k message n rest _ hwants => ?_, fun t ht => ?_, fun t hwants hfree i => ?_⟩
  · rw [task_outside hs n] at hwants
    exact hwants
  · exact owner_returns hs ht
  · exact wants_enabled hwants hfree i

structure Deadlocked (int : τ) (q : Q) (n : Nat) (s : MidState τ Q) : Prop where
  reachable : Reachable (system int Q) s
  waits : ∃ k message rest, s.pc (.main q) = .client (.wait k message n rest)
  wants : WantsMutex (callOf (s.pc (.task n)))

theorem Deadlocked.not_done {q : Q} {n : Nat} (h : Deadlocked int q n s) :
    done (s.pc (.task n)) = false := by
  have hwants := h.wants
  cases hp : s.pc (.task n) with
  | finished =>
    rw [hp] at hwants
    cases hwants
  | client | anyCast | condition | callback => rfl

theorem Deadlocked.not_tolerates {q : Q} {n : Nat} (h : Deadlocked int q n s) : ¬ Tolerates int s := by
  intro htolerates
  obtain ⟨k, message, rest, hq⟩ := h.waits
  exact htolerates.deadlockFree (.main q) k message n rest (by rw [hq]; rfl) h.wants

theorem Deadlocked.step {q : Q} {n : Nat} (h : Deadlocked int q n s)
    (hs : (system int Q).step s a = some s') : Deadlocked int q n s' := by
  obtain ⟨p, e, hstep⟩ := step_cases hs
  have hinv := inv h.reachable
  obtain ⟨k, message, rest, hq⟩ := h.waits
  have howner : s.owner () = some (.main q) := (hinv.owned () _).mpr (holds_client hq rfl)
  have hmain : a.thread ≠ .main q := by
    intro ha
    rw [ha] at hstep
    obtain ⟨c', -, hcalls⟩ := client_calls hq hstep
    obtain ⟨-, -, rfl⟩ := hcalls.join
    have hd : done (s.pc (.task n)) = true := hstep.ready
    rw [h.not_done] at hd
    cases hd
  have htask : a.thread ≠ .task n := by
    intro ha
    rw [ha] at hstep
    have hwants := h.wants
    obtain hcalls | ⟨hexec, -⟩ := (next_moves hstep.next).calls
    · obtain rfl := calls_lock hcalls hwants
      have hready := hstep.ready
      simp [Program.ready, howner] at hready
    · rw [hexec.outside.1] at hwants
      exact hwants
  refine ⟨h.reachable.step hs, ⟨k, message, rest, ?_⟩, ?_⟩
  · rw [hstep.main_stays hmain.symm, hq]
  · obtain hsame | ⟨p₀, -, hu, -⟩ := hstep.other htask.symm
    · rw [hsame]
      exact h.wants
    · have hd := h.not_done
      rw [Thread.task.inj hu, hinv.fresh _ (Nat.le_refl _)] at hd
      cases hd

/-- A call of a condition or a callback needs the mutex that its `Notify` holds. -/
theorem deadlocked_of_reenters (hs : Reachable (system int Q) s) (ha : Reenters s a)
    (h : (system int Q).step s a = some s') : ∃ q n, Deadlocked int q n s' := by
  obtain ⟨n, c, rfl, k, executor, value, hp⟩ := ha
  obtain ⟨p, e, hstep⟩ := step_cases h
  have hinv := inv hs
  obtain ⟨q, k', message, rest, hq⟩ := hinv.awaited n hstep.not_done
  have hself : s'.pc (.task n) = p := hstep.self hinv.fresh
  refine ⟨q, n, hs.step h, ⟨k', message, rest, ?_⟩, ?_⟩
  · rw [hstep.main_stays (by simp), hq]
  · rw [hself]
    have hn := hstep.next
    obtain hp | hp := hp
    all_goals
      simp only [hp, program, next, Option.map_eq_some_iff, Prod.mk.injEq] at hn
      obtain ⟨⟨m', c', e'⟩, hcall, -, rfl, -⟩ := hn
      exact calls_begin (call_calls hcall)

/-- `Notify` tolerates exactly the conditions and callbacks that do not call the listener. -/
theorem listener_tolerates :
    (∀ s, ReachableBy (system int Q) NoReentry s → Tolerates int s) ∧
      ∀ s a s', Reachable (system int Q) s → (system int Q).step s a = some s' → ¬ NoReentry s a →
        ∀ v, RunBy (system int Q) (fun _ _ => True) s' v → ¬ Tolerates int v := by
  refine ⟨fun s hs => tolerates hs, fun s a s' hs h ha v hv => ?_⟩
  obtain ⟨q, n, hdead⟩ := deadlocked_of_reenters hs (not_not.mp ha) h
  have hv' : Deadlocked int q n v := hv.invariant hdead (fun _ _ _ hu _ hstep => hu.step hstep)
  exact hv'.not_tolerates

end Step

def reentrantRun : List (Action Unit (Input Unit)) :=
  [⟨.main (), .call (.register 1 (.plain ()))⟩] ++ List.replicate 3 ⟨.main (), .go 0⟩ ++
    [⟨.main (), .call (.notify 1 1)⟩] ++ List.replicate 3 ⟨.main (), .go 0⟩ ++
    [⟨.task 0, .go 0⟩, ⟨.task 0, .returns true⟩, ⟨.task 0, .call (.register 1 (.plain ()))⟩]

theorem reentry_deadlocks :
    ∃ s, Reachable (system () Unit) s ∧ ¬ Tolerates () s ∧ s.owner () = some (.main ()) ∧
      s.pc (.main ()) = .client (.wait 0 1 0 []) ∧
      s.pc (.task 0) = .callback 0 ⟨0, 1, .plain ()⟩ 1 (.registerLock 1 (.plain ())) := by
  obtain ⟨s, hs, ho, hq, ht⟩ : ∃ s, Reachable (system () Unit) s ∧ s.owner () = some (.main ()) ∧
      s.pc (.main ()) = .client (.wait 0 1 0 []) ∧
      s.pc (.task 0) = .callback 0 ⟨0, 1, .plain ()⟩ 1 (.registerLock 1 (.plain ())) :=
    exists_reachable rfl reentrantRun (by decide +kernel)
  refine ⟨s, hs, fun htolerates => ?_, ho, hq, ht⟩
  apply htolerates.deadlockFree (.main ()) 0 1 0 []
  · rw [hq]
    rfl
  · rw [ht]
    trivial

end RoblSampleCodes.MidListenerReentry
