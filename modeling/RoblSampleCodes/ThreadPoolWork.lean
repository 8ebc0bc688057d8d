import RoblSampleCodes.ThreadPoolInvariant

namespace RoblSampleCodes.ThreadPoolWork

open TransitionSystem ThreadCount ThreadProgram ThreadPool ThreadPoolInvariant

variable {J Q : Type} {n : Nat}

def idle : Pc J → Bool
  | .worker _ _ .loop | .worker _ _ .acquire | .worker _ _ .test | .worker _ _ .sleep | .worker _ _ .awake
  | .worker _ _ .check | .worker _ _ .swap | .worker _ _ .pop => true
  | _ => false

def isAsleep (p : Pc J) : Bool := (asleep p).isSome

def notifying : Pc J → Bool
  | .worker _ _ (.running .notify) | .poster .notify => true
  | _ => false

def signal : Effect Unit Unit → Nat
  | .notifyOne _ => 1
  | _ => 0

theorem moves_covered {m m' : Members J} {p p' : Pc J} {e : Effect Unit Unit} (h : Moves n m p m' p' e)
    (ha : m'.isActive = true) (hs : isAsleep p' = false) :
    m'.pendingJobs = [] ∨ m'.pendingJobs.length + (idle p).toNat + (notifying p).toNat ≤
      m.pendingJobs.length + (idle p').toNat + (notifying p').toNat + signal e := by
  cases h with
  | inactive h | breaks h =>
    rw [h] at ha
    cases ha
  | stop => cases ha
  | sleep => cases hs
  | swapEmpty h => exact .inl h
  | swap h =>
    right
    simp [h, idle, notifying, signal]
  | pop =>
    cases hq : m.pendingJobs with
    | nil => exact .inl rfl
    | cons x rest =>
      right
      simp [idle, notifying, signal]
  | jobPosts h | posts h =>
    right
    cases h <;> simp [idle, notifying, signal]
  | _ =>
    right
    simp [idle, notifying, signal]

variable [DecidableEq Q] [Fintype Q] {s s' : PoolState J n Q}

theorem count_wake {pc : Thread n Q → Pc J} {u : Thread n Q} (h : (program J n).asleep (pc u) ≠ none) :
    count idle (Function.update pc u ((program J n).wake (pc u))) = count idle pc + 1 ∧
      count notifying (Function.update pc u ((program J n).wake (pc u))) = count notifying pc := by
  obtain ⟨k, job, hp, hw⟩ := asleep_cases h
  rw [hw]
  have hi := count_update idle pc u (.worker k job .awake)
  have hn := count_update notifying pc u (.worker k job .awake)
  rw [hp] at hi hn
  exact ⟨hi, hn⟩

theorem count_delivered {pc pc' : Thread n Q → Pc J} {e : Effect Unit Unit}
    (hd : Delivered (program J n) pc e pc') {t : Thread n Q}
    (ht : (program J n).asleep (pc' t) = some ()) :
    count idle pc' = count idle pc + signal e ∧ count notifying pc' = count notifying pc := by
  cases e with
  | none | lock | unlock =>
    cases hd
    exact ⟨rfl, rfl⟩
  | notifyOne c =>
    obtain ⟨u, hu, rfl⟩ := hd.notifyOne_wakes ht
    exact count_wake (by rw [hu]; nofun)
  | notifyAll c => exact absurd ht (hd.notifyAll_wakes t)

/-- While a worker sleeps, every pending job has a worker that is awake for it
or a thread that is about to notify one. -/
theorem covered (hs : Reachable (system J n Q) s) (ha : s.shared.isActive = true) {t : Thread n Q}
    (ht : (program J n).asleep (s.pc t) = some ()) :
    s.shared.pendingJobs.length ≤ count idle s.pc + count notifying s.pc := by
  induction hs generalizing t with
  | init h =>
    subst h
    exact Nat.zero_le _
  | @step s s' a hr h ih =>
    obtain ⟨u, c, pick, p, e, -, hn, -, -, hd⟩ | ⟨u, -, hsl, hsh, -, hp⟩ := step_cases h
    · have hm := next_moves hn
      have hactive : s.shared.isActive = true := by
        by_contra hoff
        rw [moves_inactive hm (Bool.eq_false_of_not_eq_true hoff)] at ha
        cases ha
      cases hp : isAsleep p with
      | true =>
        -- the predicate was false, and the guard was held since then
        have hk := known hr u
        have hempty : s'.shared.pendingJobs = [] := by
          generalize s.pc u = q at hm hk
          generalize s'.shared = m' at hm ⊢
          cases hm with
          | sleep => exact hk rfl
          | _ => cases hp
        rw [hempty]
        exact Nat.zero_le _
      | false =>
        have hsleeper : (program J n).asleep (s.pc t) = some () := by
          obtain ⟨-, hw⟩ | ⟨-, hw⟩ := hd.woken.sleeper (u := t) (by rw [ht]; nofun)
          · rw [hw] at ht
            simp [isAsleep, show asleep p = some () from ht] at hp
          · rwa [hw] at ht
        have hcov := ih hactive hsleeper
        have hidle := count_update idle s.pc u p
        have hnot := count_update notifying s.pc u p
        obtain ⟨hi, hno⟩ := count_delivered hd ht
        obtain hempty | hle := moves_covered hm ha hp
        · rw [hempty]
          exact Nat.zero_le _
        · omega
    · have hactive : s.shared.isActive = true := hsh ▸ ha
      have hsleeper : (program J n).asleep (s.pc t) = some () := by
        have hw := (woken_update hsl).asleep (u := t) (by rw [← hp, ht]; nofun)
        rw [← hp] at hw
        rwa [hw] at ht
      have hcov := ih hactive hsleeper
      obtain ⟨hi, hno⟩ := count_wake hsl
      rw [hsh, hp, hi, hno]
      omega

theorem isAsleep_some {p : Pc J} (h : isAsleep p = true) : (program J n).asleep p = some () :=
  Option.isSome_iff_exists.mp h |>.elim (fun _ h => h)

theorem idle_worker (hs : Reachable (system J n Q) s) {t : Thread n Q} (h : idle (s.pc t) = true) :
    ∃ i : Fin n, t = .worker i ∧ isAsleep (s.pc t) = false := by
  cases hp : s.pc t with
  | worker k job p =>
    obtain ⟨i, ht, -⟩ := worker_place hs hp
    rw [hp] at h
    refine ⟨i, ht, ?_⟩
    cases p <;> first | rfl | cases h
  | poster _ | owner _ =>
    rw [hp] at h
    cases h

/-- While a worker sleeps, there are at least as many workers awake without a
job as there are pending jobs. -/
structure WorkConserving (s : PoolState J n Q) : Prop where
  covered : ∀ i : Fin n, isAsleep (s.pc (.worker i)) = true →
    s.shared.pendingJobs.length ≤ count idle s.pc
  awake : 0 < n → s.shared.pendingJobs ≠ [] → ∃ i : Fin n, isAsleep (s.pc (.worker i)) = false
  available : ∀ i : Fin n, isAsleep (s.pc (.worker i)) = true → s.shared.pendingJobs ≠ [] →
    ∃ j : Fin n, idle (s.pc (.worker j)) = true

theorem run_workConserving (hs : Reachable (system J n Q) s) (hg : s.owner () = none)
    (ha : s.shared.isActive = true) : WorkConserving s := by
  have hnotify : count notifying s.pc = 0 := by
    apply count_eq_zero.mpr
    intro t
    have hfree := (owned hs).free hg t
    cases hp : s.pc t with
    | worker k job p =>
      rw [hp] at hfree
      cases p with
      | running p => cases p <;> first | rfl | cases hfree
      | _ => rfl
    | poster p =>
      rw [hp] at hfree
      cases p <;> first | rfl | cases hfree
    | owner p => rfl
  have hcov : ∀ i : Fin n, isAsleep (s.pc (.worker i)) = true →
      s.shared.pendingJobs.length ≤ count idle s.pc := by
    intro i hi
    have hle := covered hs ha (isAsleep_some hi)
    omega
  have hidle : ∀ i : Fin n, isAsleep (s.pc (.worker i)) = true → s.shared.pendingJobs ≠ [] →
      ∃ j : Fin n, idle (s.pc (.worker j)) = true := by
    intro i hi hne
    obtain ⟨t, ht⟩ := count_pos.mp (Nat.lt_of_lt_of_le (List.length_pos_of_ne_nil hne) (hcov i hi))
    obtain ⟨j, rfl, -⟩ := idle_worker hs ht
    exact ⟨j, ht⟩
  refine ⟨hcov, fun hn hne => ?_, hidle⟩
  by_contra hall
  have hall : ∀ i : Fin n, isAsleep (s.pc (.worker i)) = true := fun i =>
    Bool.eq_true_of_not_eq_false (not_exists.mp hall i)
  obtain ⟨j, hj⟩ := hidle ⟨0, hn⟩ (hall _) hne
  obtain ⟨i, hi, hawake⟩ := idle_worker hs hj
  rw [hall j] at hawake
  cases hawake

def notifiedRun (t u : Thread 2 Unit) : List (Action (Thread 2 Unit) (Call Nat)) :=
  [List.replicate 3 (.run .owner .finish none), List.replicate 5 (.run t .finish none),
    List.replicate 5 (.run u .finish none), List.replicate 2 (.run (.poster ()) (.post 7) none),
    [.run (.poster ()) .finish (some u), .run (.poster ()) .finish none]].flatten

theorem run_workConserving_notified :
    ∃ s, Reachable (system Nat 2 Unit) s ∧ WorkConserving s ∧ isAsleep (s.pc (.worker 0)) = true ∧
      idle (s.pc (.worker 1)) = true ∧ s.shared.pendingJobs = [.fresh 7] := by
  obtain ⟨s, hs, hg, ha, h⟩ : ∃ s, Reachable (system Nat 2 Unit) s ∧ s.owner () = none ∧
      s.shared.isActive = true ∧ isAsleep (s.pc (.worker 0)) = true ∧
      idle (s.pc (.worker 1)) = true ∧ s.shared.pendingJobs = [.fresh 7] :=
    exists_reachable rfl (notifiedRun (.worker 0) (.worker 1)) (by decide +kernel)
  exact ⟨s, hs, run_workConserving hs hg ha, h⟩

end RoblSampleCodes.ThreadPoolWork
