import RoblSampleCodes.SemaphoreLockOverflow

namespace RoblSampleCodes.SemaphoreLockProgress

open TransitionSystem ThreadCount ThreadProgram ProcessThreads
open SemaphoreLock SemaphoreLockInvariant SemaphoreLockOverflow

variable {T : Type} [DecidableEq T] [Fintype T] {turnstile : Bool} {role : T → Role} {s : LockState T}

abbrev working : Pc → Bool := ThreadPc.working .finished .finished

def blocked (m : SharedMemory) : Pc → Bool
  | .reader _ .waitIn | .writer _ .waitIn => m.in_ == 0
  | .reader _ .waitMx | .reader _ .exitWaitMx => m.mx == 0
  | .reader _ .waitWrt | .writer _ .waitWrt => m.wrt == 0
  | _ => false

theorem reader_unblocked (turnstile : Bool) {q : Nat} {m : SharedMemory} {p : ReaderPc}
    (hw : working (.reader q p) = true)
    (hb : blocked m (.reader q p) = false) : ∃ r, reader turnstile q m p = some r := by
  cases p with
  | loop =>
    by_cases h : m.isRunning q = true
    · exact ⟨_, if_pos h⟩
    · exact ⟨_, if_neg h⟩
  | waitIn | waitMx | waitWrt | exitWaitMx =>
    exact ⟨_, if_pos (Nat.pos_of_ne_zero (by simpa [blocked] using hb))⟩
  | finished => cases hw
  | _ => exact ⟨_, rfl⟩

theorem writer_unblocked (turnstile : Bool) {q : Nat} {m : SharedMemory} {p : WriterPc}
    (hw : working (.writer q p) = true)
    (hb : blocked m (.writer q p) = false) : ∃ r, writer turnstile q m p = some r := by
  cases p with
  | loop =>
    by_cases h : m.isRunning q = true
    · exact ⟨_, if_pos h⟩
    · exact ⟨_, if_neg h⟩
  | waitIn | waitWrt => exact ⟨_, if_pos (Nat.pos_of_ne_zero (by simpa [blocked] using hb))⟩
  | finished => cases hw
  | _ => exact ⟨_, rfl⟩

theorem unblocked_enabled (turnstile : Bool) (role : T → Role) {t : T} (hw : working (s.pc t) = true)
    (hb : blocked s.shared (s.pc t) = false) :
    ∃ pick, Enabled (system turnstile role) s (.run t () pick) := by
  obtain ⟨m', p', hn⟩ : ∃ m' p', (program turnstile).next s.shared (s.pc t) () = some (m', p', .none) := by
    cases hp : s.pc t with
    | reader q p =>
      rw [hp] at hw hb
      obtain ⟨⟨m', p'⟩, hr⟩ := reader_unblocked turnstile hw hb
      exact ⟨m', .reader q p', by simp [Code.program, Code.next, code, hr]⟩
    | writer q p =>
      rw [hp] at hw hb
      obtain ⟨⟨m', p'⟩, hr⟩ := writer_unblocked turnstile hw hb
      exact ⟨m', .writer q p', by simp [Code.program, Code.next, code, hr]⟩
    | main q | stopped q =>
      rw [hp] at hw
      cases hw
  exact exists_enabled hn (fun x hx => by cases hx)

section Runs

variable {m : SharedMemory} (p : Pc)

theorem inside_runs (h : owning p = true ∨ closing p = true ∨ counting p = true) :
    working p = true ∧ blocked m p = false := by
  cases p with
  | reader q p => cases p <;> first | exact ⟨rfl, rfl⟩ | simp [owning, closing, counting] at h
  | writer q p => cases p <;> first | exact ⟨rfl, rfl⟩ | simp [owning, closing, counting] at h
  | main _ | stopped _ => simp [owning, closing, counting] at h

theorem opening_runs (hwrt : m.wrt ≠ 0) (h : opening p = true) :
    working p = true ∧ blocked m p = false := by
  cases p with
  | reader q p => cases p <;> first | exact ⟨rfl, beq_false_of_ne hwrt⟩ | cases h
  | writer _ _ | main _ | stopped _ => cases h

theorem grouped_runs (hmx : m.mx ≠ 0) (h : grouped p = true) : working p = true ∧ blocked m p = false := by
  cases p with
  | reader q p => cases p <;> first | exact ⟨rfl, rfl⟩ | exact ⟨rfl, beq_false_of_ne hmx⟩ | cases h
  | writer _ _ | main _ | stopped _ => cases h

theorem passing_runs (hmx : m.mx ≠ 0) (hwrt : m.wrt ≠ 0) (h : passing p = true) :
    working p = true ∧ blocked m p = false := by
  cases p with
  | reader q p =>
    cases p <;>
      first
        | exact ⟨rfl, rfl⟩
        | exact ⟨rfl, beq_false_of_ne hmx⟩
        | exact ⟨rfl, beq_false_of_ne hwrt⟩
        | cases h
  | writer q p => cases p <;> first | exact ⟨rfl, rfl⟩ | exact ⟨rfl, beq_false_of_ne hwrt⟩ | cases h
  | main _ | stopped _ => cases h

theorem blocked_atIn (hmx : m.mx ≠ 0) (hwrt : m.wrt ≠ 0) (h : blocked m p = true) :
    atIn p = true ∧ m.in_ = 0 := by
  cases p with
  | reader q p =>
    cases p <;> simp only [blocked, beq_iff_eq, Bool.false_eq_true] at h <;>
      first | exact ⟨rfl, h⟩ | exact absurd h hmx | exact absurd h hwrt
  | writer q p =>
    cases p <;> simp only [blocked, beq_iff_eq, Bool.false_eq_true] at h <;>
      first | exact ⟨rfl, h⟩ | exact absurd h hwrt
  | main _ | stopped _ => cases h

end Runs

section AllBlocked

variable (hs : Reachable (system turnstile role) s)
  (hall : ∀ t, working (s.pc t) = true → blocked s.shared (s.pc t) = true)

include hall

omit [DecidableEq T] in
theorem count_unblocked {p : Pc → Bool}
    (hp : ∀ x, p x = true → working x = true ∧ blocked s.shared x = false) :
    count p s.pc = 0 := by
  apply count_eq_zero.mpr
  intro t
  by_contra ht
  obtain ⟨hw, hb⟩ := hp _ (Bool.eq_true_of_not_eq_false ht)
  rw [hall t hw] at hb
  cases hb

include hs

theorem allBlocked_free (hN : count Role.isReader role ≤ 2 ^ 32) : s.shared.mx = 1 ∧ s.shared.wrt = 1 := by
  have hc := counted hs
  have hmx := hc.mx
  have hwrt := hc.wrt
  have hle := counted_le hs
  have hown := count_unblocked hall (fun p h => inside_runs p (.inl h))
  have hclose := count_unblocked hall (fun p h => inside_runs p (.inr (.inl h)))
  have hcount := count_unblocked hall (fun p h => inside_runs p (.inr (.inr h)))
  have hopen : count opening s.pc = 0 := by
    by_contra hpos
    have hfirst := hc.first (Nat.pos_of_ne_zero hpos)
    -- the first reader finds `wrt` free
    have hfree : s.shared.wrt ≠ 0 := by omega
    exact hpos (count_unblocked hall (fun p => opening_runs p hfree))
  have hgroup := count_unblocked hall (fun p => grouped_runs p (by omega))
  omega

theorem allBlocked_finished (hN : count Role.isReader role ≤ 2 ^ 32) (t : T) :
    working (s.pc t) = false := by
  obtain ⟨hmx, hwrt⟩ := allBlocked_free hs hall hN
  by_contra ht
  obtain ⟨hat, hin⟩ := blocked_atIn _ (by omega) (by omega) (hall t (Bool.eq_true_of_not_eq_false ht))
  cases turnstile with
  | false =>
    obtain ⟨hone, -⟩ := in_unused hs
    omega
  | true =>
    have hpass := count_unblocked hall (fun p => passing_runs p (by omega) (by omega))
    have heq := in_eq hs
    omega

end AllBlocked

theorem lock_progress (hs : Reachable (system turnstile role) s) (hN : count Role.isReader role ≤ 2 ^ 32)
    {t : T} (ht : working (s.pc t) = true) :
    ∃ u pick, working (s.pc u) = true ∧ Enabled (system turnstile role) s (.run u () pick) := by
  by_contra hno
  have hall : ∀ u, working (s.pc u) = true → blocked s.shared (s.pc u) = true := by
    intro u hu
    by_contra hb
    obtain ⟨pick, he⟩ := unblocked_enabled turnstile role hu (Bool.eq_false_of_not_eq_true hb)
    exact hno ⟨u, pick, hu, he⟩
  rw [allBlocked_finished hs hall hN t] at ht
  cases ht

theorem finished_released (hs : Reachable (system turnstile role) s) (hf : ∀ t, working (s.pc t) = false) :
    s.shared.in_ = 1 ∧ s.shared.mx = 1 ∧ s.shared.wrt = 1 ∧ s.shared.readCount = 0 := by
  have hmx : (initial role).shared.mx ≠ 0 := Nat.one_ne_zero
  have hwrt : (initial role).shared.wrt ≠ 0 := Nat.one_ne_zero
  have hopen := count_eq_zero_of_imp (fun p h => (opening_runs p hwrt h).1) hf
  have hgroup := count_eq_zero_of_imp (fun p h => (grouped_runs p hmx h).1) hf
  have hclose := count_eq_zero_of_imp (fun p h => (inside_runs (m := s.shared) p (.inr (.inl h))).1) hf
  have hcount := count_eq_zero_of_imp (fun p h => (inside_runs (m := s.shared) p (.inr (.inr h))).1) hf
  have hown := count_eq_zero_of_imp (fun p h => (inside_runs (m := s.shared) p (.inl h)).1) hf
  have hc := counted hs
  have hcmx := hc.mx
  have hcwrt := hc.wrt
  have hread := readCount_eq hs
  rw [hopen, hgroup] at hread
  refine ⟨?_, by omega, by omega, BitVec.eq_of_toNat_eq hread⟩
  cases turnstile with
  | false => exact (in_unused hs).1
  | true =>
    have hpass := count_eq_zero_of_imp (fun p h => (passing_runs p hmx hwrt h).1) hf
    have heq := in_eq hs
    omega

/-- Some reader or writer can always go on unless `read_count` wraps, and when
all have left their loops the semaphores are as they were. -/
theorem lock_deadlockFree (hs : Reachable (system turnstile role) s) :
    (count Role.isReader role ≤ 2 ^ 32 → (∃ t, working (s.pc t) = true) →
      ∃ t pick, working (s.pc t) = true ∧ Enabled (system turnstile role) s (.run t () pick)) ∧
    ((∀ t, working (s.pc t) = false) →
      s.shared.in_ = 1 ∧ s.shared.mx = 1 ∧ s.shared.wrt = 1 ∧ s.shared.readCount = 0) :=
  ⟨fun hN ⟨_, ht⟩ => lock_progress hs hN ht, finished_released hs⟩

theorem wrapped_stuck (turnstile : Bool) (t : Fin (2 ^ 32 + 1)) (pick : Option (Fin (2 ^ 32 + 1))) :
    ¬ Enabled (system turnstile (crowd (2 ^ 32 + 1))) (wrapped turnstile .exitWaitMx)
      (.run t () pick) := by
  apply not_enabled
  change (code turnstile).next (wrappedShared turnstile)
    (.reader 0 (if t.val < 2 ^ 32 then .exitWaitMx else .waitWrt)) = none
  by_cases ht : t.val < 2 ^ 32
  · rw [if_pos ht]
    rfl
  · rw [if_neg ht]
    simp [Code.next, code, reader, wrappedShared, crowdShared]

/-- One reader too many holds `mx` and waits for its own group. -/
theorem lock_deadlocks :
    (∃ s, Reachable (withWriterStarvation (crowd (2 ^ 32 + 1))) s ∧ (∃ t, working (s.pc t) = true) ∧
      ∀ t pick, ¬ Enabled (withWriterStarvation (crowd (2 ^ 32 + 1))) s (.run t () pick)) ∧
    ∃ s, Reachable (withoutWriterStarvation (crowd (2 ^ 32 + 1))) s ∧ (∃ t, working (s.pc t) = true) ∧
      ∀ t pick, ¬ Enabled (withoutWriterStarvation (crowd (2 ^ 32 + 1))) s (.run t () pick) :=
  ⟨⟨_, jammed_reachable false, ⟨⟨0, by omega⟩, rfl⟩, wrapped_stuck false⟩,
    ⟨_, jammed_reachable true, ⟨⟨0, by omega⟩, rfl⟩, wrapped_stuck true⟩⟩

/-- The first reader is blocked with `mx` while the writer owns `wrt`. -/
theorem lock_deadlockFree_contended :
    ∃ s, Reachable (withWriterStarvation ![.reader 0, .writer 0]) s ∧
      blocked s.shared (s.pc 0) = true ∧
      ∃ t pick, working (s.pc t) = true ∧
        Enabled (withWriterStarvation ![.reader 0, .writer 0]) s (.run t () pick) := by
  obtain ⟨s, hs, hb, hw⟩ : ∃ s, Reachable (withWriterStarvation ![.reader 0, .writer 0]) s ∧
      blocked s.shared (s.pc 0) = true ∧ working (s.pc 0) = true :=
    exists_reachable rfl (List.replicate 2 (.run 1 () none) ++ List.replicate 3 (.run 0 () none))
      (by decide +kernel)
  exact ⟨s, hs, hb, (lock_deadlockFree hs).1 (by decide) ⟨0, hw⟩⟩

end RoblSampleCodes.SemaphoreLockProgress
