import RoblSampleCodes.MidListenerInvariant

namespace RoblSampleCodes.MidListenerProgress

open TransitionSystem TaskProgram MidListener MidListenerInvariant

variable {τ Q : Type}

def Reenters (s : MidState τ Q) (a : Action Q (Input τ)) : Prop :=
  ∃ n c, a = ⟨.task n, .call c⟩ ∧ ∃ k executor value,
    s.pc (.task n) = .condition k executor value .outside ∨
      s.pc (.task n) = .callback k executor value .outside

def NoReentry (s : MidState τ Q) (a : Action Q (Input τ)) : Prop := ¬ Reenters s a

def Serves (t : Thread Q) (a : Action Q (Input τ)) : Prop := a.thread = t ∨ ∃ n, a.thread = .task n

def taskWork : Pc τ → Nat
  | .anyCast _ _ _ => 3
  | .condition _ _ _ _ => 2
  | .callback _ _ _ _ => 1
  | .client _ | .finished => 0

def work (size : Nat) (task : Nat → Pc τ) : CallPc τ → Nat
  | .equalRange _ _ => 5 * size + 3
  | .loop _ _ rest => 5 * rest.length + 2
  | .wait _ _ future rest => 5 * rest.length + 3 + taskWork (task future)
  | .emplace _ _ | .erase _ => 2
  | .registerUnlock _ | .cancelUnlock | .notifyUnlock _ => 1
  | _ => 0

section Calls

variable {int : τ} {m m' : Members τ} {n : Nat} {c c' : CallPc τ} {p p' : Pc τ} {e : Effect Unit (Pc τ)}

theorem calls_work_lt (task task' : Nat → Pc τ) (h : Calls m n c m' c' e) (hholds : callHolds c = true)
    (hspawn : ∀ p₀, e = .spawn p₀ → task' n = p₀) :
    c' = .outside ∨ callHolds c' = true ∧
      work m'.callbackMultimap.length task' c' < work m.callbackMultimap.length task c := by
  cases h with
  | register | cancelEnd | cancel | notify | registerLock | cancelLock | notifyLock => cases hholds
  | registerUnlock | cancelUnlock | notifyUnlock => exact .inl rfl
  | emplace | eraseEnd | erase | loopEnd => exact .inr ⟨rfl, by simp [work]⟩
  | @equalRange mid _ _ h =>
    have hle := List.length_filter_le (fun r => decide (r.mid = mid)) m.callbackMultimap
    refine .inr ⟨rfl, ?_⟩
    simp only [work, h]
    omega
  | launch =>
    refine .inr ⟨rfl, ?_⟩
    simp only [work, hspawn _ rfl, taskWork, List.length_cons]
    omega
  | wait =>
    refine .inr ⟨rfl, ?_⟩
    simp only [work]
    omega

theorem executes_work_lt (h : Executes int m p m' p') : taskWork p' < taskWork p := by
  cases h <;> simp [taskWork]

theorem owner_next (h : callHolds c = true) (m : Members τ) (n : Nat) :
    ∃ m' c' e, call m n c (.go 0) = some (m', c', e) ∧ (∀ x, e ≠ .lock x) ∧
      ∀ future, e = .join future → ∃ k message rest, c = .wait k message future rest := by
  cases c with
  | outside | registerLock | cancelLock | notifyLock => cases h
  | emplace =>
    simp only [call, Nat.zero_le, if_true, Option.some.injEq, Prod.mk.injEq]
    exact ⟨_, _, _, ⟨rfl, rfl, rfl⟩, by simp, by simp⟩
  | erase it => cases it <;> exact ⟨_, _, _, rfl, by simp, by simp⟩
  | loop k message rest => cases rest <;> exact ⟨_, _, _, rfl, by simp, by simp⟩
  | wait k message future rest => exact ⟨_, _, _, rfl, by simp, by simp⟩
  | registerUnlock | cancelUnlock | equalRange | notifyUnlock => exact ⟨_, _, _, rfl, by simp, by simp⟩

end Calls

section Step

variable [DecidableEq τ] [DecidableEq Q] {int : τ} {s s' : MidState τ Q} {a : Action Q (Input τ)}
  {i : Input τ} {p : Pc τ} {e : Effect Unit (Pc τ)}

theorem task_executes {n : Nat} (hinv : Inv int s) (hout : callOf (s.pc (.task n)) = .outside)
    (hc : NoReentry s ⟨.task n, i⟩) (hstep : Steps (program int) s (.task n) i p e s') :
    Executes int s.shared (s.pc (.task n)) s'.shared p ∧ e = .none := by
  have hmoves := next_moves hstep.next
  generalize hp : s.pc (.task n) = p₀ at hmoves hout
  cases hmoves with
  | client _ => exact absurd hp (hinv.tasks n _)
  | executes h => exact ⟨h, rfl⟩
  | @condition k executor value _ _ _ _ h | @callback k executor value _ _ _ _ h =>
    simp only [callOf] at hout
    subst hout
    obtain ⟨c, rfl⟩ := call_outside h
    exact absurd ⟨n, c, rfl, k, executor, value, by simp [hp]⟩ hc

theorem task_outside (hs : ReachableBy (system int Q) NoReentry s) (n : Nat) :
    callOf (s.pc (.task n)) = .outside := by
  induction hs generalizing n with
  | init h =>
    subst h
    rfl
  | @step s s' a hs hc h ih =>
    obtain ⟨p, e, hstep⟩ := step_cases h
    have hinv := inv hs.reachable
    by_cases hn : .task n = a.thread
    · obtain ⟨t, i⟩ := a
      subst hn
      rw [hstep.self hinv.fresh]
      exact (task_executes hinv (ih n) hc hstep).1.outside.2
    · obtain hsame | ⟨p₀, rfl, -, hnew⟩ := hstep.other hn
      · rw [hsame]
        exact ih n
      · obtain ⟨k, message, executor, rest, -, -, -, rfl⟩ := (next_moves hstep.next).spawn
        rw [hnew]
        rfl

structure Serving (int : τ) (q : Q) (s : MidState τ Q) : Prop where
  reachable : ReachableBy (system int Q) NoReentry s
  owner : ∃ c, s.pc (.main q) = .client c ∧ callHolds c = true

def remaining (q : Q) (s : MidState τ Q) : Nat :=
  work s.shared.callbackMultimap.length (fun n => s.pc (.task n)) (callOf (s.pc (.main q)))

theorem Serving.holds {q : Q} (h : Serving int q s) : holds (s.pc (.main q)) () = true := by
  obtain ⟨c, hq, hholds⟩ := h.owner
  exact holds_client hq hholds

theorem Serving.enabled {q : Q} (h : Serving int q s) :
    ∃ a, Serves (.main q) a ∧ NoReentry s a ∧ Enabled (system int Q) s a := by
  obtain ⟨c, hq, hholds⟩ := h.owner
  obtain ⟨m', c', e, hn, hlock, hjoin⟩ := owner_next hholds s.shared s.spawned
  have hnext : (program int).next s.shared s.spawned (s.pc (.main q)) (.go 0) =
      some (m', .client c', e) := by
    rw [hq]
    simp only [program, next, hn, Option.map_some]
  obtain hen | ⟨x, u, he, -⟩ | ⟨future, -, hd, -⟩ := enabled_or_waits hnext
  · refine ⟨⟨.main q, .go 0⟩, .inl rfl, ?_, hen⟩
    rintro ⟨n, c, ha, -⟩
    cases ha
  · exact absurd he (hlock x)
  · have hout := task_outside h.reachable future
    refine ⟨⟨.task future, .returns true⟩, .inr ⟨future, rfl⟩, ?_, ?_⟩
    · rintro ⟨n, c, ha, -⟩
      cases ha
    · have hp := (inv h.reachable.reachable).tasks future
      cases hp' : s.pc (.task future) with
      | finished =>
        rw [hp'] at hd
        cases hd
      | client c => exact absurd hp' (hp c)
      | anyCast k executor message =>
        by_cases hint : executor.type.removeCvref = int <;>
          simp [Enabled, system, Program.system, Program.step, hp', program, next, hint, Program.ready]
      | condition k executor value c | callback k executor value c =>
        rw [hp'] at hout
        simp only [callOf] at hout
        subst hout
        simp [Enabled, system, Program.system, Program.step, hp', program, next, Program.ready]

theorem Serving.other {q : Q} (h : Serving int q s) (hc : NoReentry s a) (ha : ¬ Serves (.main q) a)
    (hs : (system int Q).step s a = some s') : Serving int q s' ∧ remaining q s' = remaining q s := by
  obtain ⟨p, e, hstep⟩ := step_cases hs
  have hinv := inv h.reachable.reachable
  have hfree : MidListenerInvariant.holds (s.pc a.thread) () = false := by
    by_contra hholds
    exact ha (.inl (hinv.owned.unique (Bool.eq_true_of_not_eq_false hholds) h.holds))
  obtain ⟨q', hq'⟩ : ∃ q', a.thread = .main q' := by
    cases ht : a.thread with
    | main q' => exact ⟨q', rfl⟩
    | task n => exact absurd (.inr ⟨n, ht⟩) ha
  have hother : ∀ u, (u = .main q ∨ ∃ n, u = .task n) → s'.pc u = s.pc u := by
    intro u hu
    have hne : u ≠ a.thread := by
      rintro rfl
      exact ha hu
    exact hstep.stays hne ((next_moves hstep.next).not_spawn hfree)
  have hmultimap : s'.shared.callbackMultimap = s.shared.callbackMultimap := by
    obtain ⟨c, hp⟩ := hinv.clients q'
    rw [hq'] at hstep hfree
    obtain ⟨c', -, hcalls⟩ := client_calls hp hstep
    rw [hp] at hfree
    exact (hcalls.free hfree).1
  obtain ⟨c, hq, hholds⟩ := h.owner
  refine ⟨⟨h.reachable.step hc hs, c, by rw [hother _ (.inl rfl), hq], hholds⟩, ?_⟩
  have htasks : (fun n => s'.pc (.task n)) = fun n => s.pc (.task n) := by
    funext n
    exact hother _ (.inr ⟨n, rfl⟩)
  rw [remaining, remaining, hmultimap, htasks, hother _ (.inl rfl)]

theorem Serving.own {q : Q} (h : Serving int q s) (hc : NoReentry s a) (ha : Serves (.main q) a)
    (hs : (system int Q).step s a = some s') :
    s'.pc (.main q) = .client .outside ∨ Serving int q s' ∧ remaining q s' < remaining q s := by
  obtain ⟨p, e, hstep⟩ := step_cases hs
  have hinv := inv h.reachable.reachable
  obtain ⟨c, hq, hholds⟩ := h.owner
  obtain ⟨t, i⟩ := a
  obtain rfl | ⟨n, rfl⟩ : t = .main q ∨ ∃ n, t = .task n := ha
  · obtain ⟨c', rfl, hcalls⟩ := client_calls hq hstep
    have hself : s'.pc (.main q) = .client c' := hstep.self hinv.fresh
    have hspawn : ∀ p₀, e = .spawn p₀ → s'.pc (.task s.spawned) = p₀ := by
      rintro p₀ rfl
      rw [hstep.pc]
      exact Function.update_self ..
    obtain rfl | ⟨hholds', hlt⟩ := calls_work_lt (fun n => s.pc (.task n)) (fun n => s'.pc (.task n))
      hcalls hholds hspawn
    · exact .inl hself
    · refine .inr ⟨⟨h.reachable.step hc hs, c', hself, hholds'⟩, ?_⟩
      rw [remaining, remaining, hself, hq]
      exact hlt
  · obtain ⟨hexec, rfl⟩ := task_executes hinv (task_outside h.reachable n) hc hstep
    obtain ⟨k, message, rest, hwait⟩ := hinv.owner_waits h.holds hstep.not_done
    have hself : s'.pc (.task n) = p := hstep.self hinv.fresh
    have hsame : s'.pc (.main q) = s.pc (.main q) := hstep.main_stays (by simp)
    refine .inr ⟨⟨h.reachable.step hc hs, c, by rw [hsame, hq], hholds⟩, ?_⟩
    have hlt := executes_work_lt hexec
    obtain ⟨events, hlog⟩ := hexec.log
    rw [remaining, remaining, hsame, hwait, hlog]
    simp only [callOf, work, hself]
    omega

/-- The thread that owns the mutex gives it back, if no condition or callback re-enters. -/
theorem owner_returns {t : Thread Q} (hs : ReachableBy (system int Q) NoReentry s)
    (ht : s.owner () = some t) : ∃ q, t = .main q ∧ ∃ n, Within (system int Q) NoReentry (Serves t)
      (fun v => v.pc t = .client .outside) n s := by
  have hinv := inv hs.reachable
  have hholds := (hinv.owned () t).mp ht
  cases t with
  | task n =>
    rw [hinv.task_free n] at hholds
    cases hholds
  | main q =>
    obtain ⟨c, hc⟩ := hinv.clients q
    rw [hc] at hholds
    refine ⟨q, rfl, remaining q s + 1, within_of_measure (Serving int q) (remaining q) ?_ ?_ ?_
      ⟨hs, c, hc, hholds⟩ (Nat.lt_succ_self _)⟩
    · intro u hu
      exact hu.enabled
    · intro u a v hu hc ha hv
      obtain ⟨hserving, he⟩ := hu.other hc ha hv
      exact ⟨hserving, he.le⟩
    · intro u a v hu hc ha hv
      exact hu.own hc ha hv

theorem wants_enabled {t : Thread Q} (h : WantsMutex (callOf (s.pc t))) (hfree : s.owner () = none)
    (i : Input τ) : Enabled (system int Q) s ⟨t, i⟩ := by
  cases hp : s.pc t with
  | anyCast | finished =>
    rw [hp] at h
    cases h
  | client c | condition k executor value c | callback k executor value c =>
    rw [hp] at h
    cases c with
    | registerLock | cancelLock | notifyLock =>
      simp [Enabled, system, Program.system, Program.step, hp, program, next, call, Program.ready, hfree]
    | _ => cases h

end Step

end RoblSampleCodes.MidListenerProgress
