import RoblSampleCodes.SemaphoreLockOverflow

namespace RoblSampleCodes.SemaphoreLockExclusion

open TransitionSystem ThreadCount ThreadProgram ProcessThreads
open SemaphoreLock SemaphoreLockInvariant SemaphoreLockOverflow

variable {T : Type} [DecidableEq T] [Fintype T] {turnstile : Bool} {role : T → Role} {s s' : LockState T}

def reading : Pc → Bool
  | .reader _ .critical => true
  | _ => false

def writing : Pc → Bool
  | .writer _ .load | .writer _ (.store _) | .writer _ .print => true
  | _ => false

def between : Pc → Bool
  | .reader _ .postIn | .reader _ .critical | .reader _ .exitWaitMx => true
  | _ => false

theorem reading_grouped {p : Pc} (h : reading p = true) : grouped p = true := by
  cases p with
  | reader q p => cases p <;> first | rfl | cases h
  | writer _ _ | main _ | stopped _ => cases h

theorem writing_owning {p : Pc} (h : writing p = true) : owning p = true := by
  cases p with
  | writer q p => cases p <;> first | rfl | cases h
  | reader _ _ | main _ | stopped _ => cases h

/-- Writers exclude each other and the readers, `wrt` is taken when a writer
or the group of readers owns it, and no store is lost. -/
structure Exclusion (s : LockState T) : Prop where
  writer : ∀ t, writing (s.pc t) = true →
    ∀ u, reading (s.pc u) = false ∧ (writing (s.pc u) = true → u = t)
  wrt : s.shared.wrt = 0 ↔
    (∃ t, owning (s.pc t) = true) ∨ ∃ t, grouped (s.pc t) = true ∨ closing (s.pc t) = true
  increment : s.shared.increment = s.shared.stores

/-- `read_count` is never decremented at zero, and it is the number of readers
between entry and exit when nobody holds `mx`. -/
structure ReadCounted (s : LockState T) : Prop where
  decrement : ∀ t q, s.pc t = .reader q .uncount → 0 < s.shared.readCount.toNat
  available : 0 < s.shared.mx → s.shared.readCount.toNat = count between s.pc

theorem exclusion (hs : Reachable (system turnstile role) s) : Exclusion s := by
  have hwrt := (counted hs).wrt
  refine ⟨fun t ht u => ⟨?_, fun hu => ?_⟩, ?_, (increment_eq hs).1⟩
  · have hown := count_pos.mpr ⟨t, writing_owning ht⟩
    by_contra hu
    have hgroup := count_pos.mpr ⟨u, reading_grouped (Bool.eq_true_of_not_eq_false hu)⟩
    omega
  · exact owning_unique hs (writing_owning hu) (writing_owning ht)
  · rw [exists_or, ← count_pos (p := owning), ← count_pos (p := grouped), ← count_pos (p := closing)]
    omega

omit [DecidableEq T] in
theorem grouped_between (h : count counting s.pc = 0) : count grouped s.pc = count between s.pc := by
  apply count_congr
  intro t
  have ht := count_eq_zero.mp h t
  cases hp : s.pc t with
  | reader q p =>
    rw [hp] at ht
    cases p <;> first | rfl | cases ht
  | writer _ _ | main _ | stopped _ => rfl

theorem readCounted (hs : Reachable (system turnstile role) s) (hN : count Role.isReader role < 2 ^ 32) :
    ReadCounted s := by
  have hmx := (counted hs).mx
  have hread := readCount_eq hs
  have hle := counted_le hs
  rw [Nat.mod_eq_of_lt (Nat.lt_of_le_of_lt hle hN)] at hread
  refine ⟨fun t q ht => ?_, fun ha => ?_⟩
  · have hg : 0 < count grouped s.pc := count_pos.mpr ⟨t, by rw [ht]; rfl⟩
    omega
  · rw [hread, ← grouped_between (by omega)]
    omega

/-- The lock excludes for any number of threads, and `read_count` is exact as
long as it does not wrap. -/
theorem lock_exclusion (hs : Reachable (withWriterStarvation role) s) :
    Exclusion s ∧ (count Role.isReader role < 2 ^ 32 → ReadCounted s) :=
  ⟨exclusion hs, readCounted hs⟩

/-- With all of its readers inside, `read_count` is back at zero. -/
theorem readCount_wraps : ∃ s, Reachable (withWriterStarvation (crowd (2 ^ 32))) s ∧ ¬ ReadCounted s := by
  refine ⟨_, entered_reachable false (K := 2 ^ 32) (Nat.le_refl _) (Nat.le_refl _), fun h => ?_⟩
  have hz : (0 : Nat) = count between _ := h.available Nat.one_pos
  have hno := count_eq_zero.mp hz.symm ⟨0, by omega⟩
  cases hno

/-- Thread 0 reads while thread 1 waits for `wrt`. -/
theorem lock_exclusion_reads :
    ∃ s, Reachable (withWriterStarvation ![.reader 0, .writer 0]) s ∧ Exclusion s ∧ ReadCounted s ∧
      reading (s.pc 0) = true ∧ s.shared.wrt = 0 ∧ s.pc 1 = .writer 0 .waitWrt := by
  obtain ⟨s, hs, h⟩ : ∃ s, Reachable (withWriterStarvation ![.reader 0, .writer 0]) s ∧
      reading (s.pc 0) = true ∧ s.shared.wrt = 0 ∧ s.pc 1 = .writer 0 .waitWrt :=
    exists_reachable rfl (List.replicate 5 (.run 0 () none) ++ [.run 1 () none]) (by decide +kernel)
  have he := lock_exclusion hs
  exact ⟨s, hs, he.1, he.2 (by decide), h⟩

def admitted : Pc → Bool
  | .writer _ .waitWrt | .writer _ .load | .writer _ (.store _) | .writer _ .print | .writer _ .postWrt
  | .writer _ .postIn => true
  | _ => false

theorem admitted_passing {p : Pc} (h : admitted p = true) : passing p = true ∧ isReader p = false := by
  cases p with
  | writer q p => cases p <;> first | exact ⟨rfl, rfl⟩ | cases h
  | reader _ _ | main _ | stopped _ => cases h

theorem opening_passing {p : Pc} (h : opening p = true) : passing p = true ∧ isReader p = true := by
  cases p with
  | reader q p => cases p <;> first | exact ⟨rfl, rfl⟩ | cases h
  | writer _ _ | main _ | stopped _ => cases h

theorem owning_passing {p : Pc} (h : owning p = true) : passing p = true ∧ isReader p = false := by
  cases p with
  | writer q p => cases p <;> first | exact ⟨rfl, rfl⟩ | cases h
  | reader _ _ | main _ | stopped _ => cases h

theorem passing_unique (hs : Reachable (withoutWriterStarvation role) s) {t u : T}
    (ht : passing (s.pc t) = true) (hu : passing (s.pc u) = true) : t = u := by
  have hin := in_eq hs
  exact count_le_one.mp (by omega : count passing s.pc ≤ 1) t u ht hu

/-- A reader passes the turnstile alone, so no writer owns `wrt` when the
first one waits for it. -/
theorem opening_free (hs : Reachable (withoutWriterStarvation role) s)
    (hN : count Role.isReader role ≤ 2 ^ 32) {t : T} (ht : opening (s.pc t) = true) :
    0 < s.shared.wrt := by
  have hc := counted hs
  have hle := counted_le hs
  have ho := count_pos.mpr ⟨t, ht⟩
  have hown : count owning s.pc = 0 := by
    apply count_eq_zero.mpr
    intro u
    by_contra hu
    have hu := owning_passing (Bool.eq_true_of_not_eq_false hu)
    obtain rfl := passing_unique hs hu.1 (opening_passing ht).1
    rw [(opening_passing ht).2] at hu
    cases hu.2
  have hwrt := hc.wrt
  have hmx := hc.mx
  have hfirst := hc.first ho
  omega

theorem moves_reading {m m' : SharedMemory} {p p' : Pc} (h : Moves true m p m' p')
    (hr : reading p' = true) :
    passing p = true ∧ isReader p = true := by
  cases h with
  | readerPostIn => exact ⟨rfl, rfl⟩
  | postMx hv => cases hv
  | _ => cases hr

theorem admitted_step (hs : Reachable (withoutWriterStarvation role) s) {a : Action T Unit}
    (h : (withoutWriterStarvation role).step s a = some s') {t : T} (ht : admitted (s.pc t) = true) (u : T)
    (hu : reading (s'.pc u) = true) : reading (s.pc u) = true := by
  obtain ⟨v, p, hm, hp⟩ := system_step h
  rw [hp] at hu
  by_cases huv : u = v
  · subst huv
    rw [Function.update_self] at hu
    obtain ⟨hpass, hreader⟩ := moves_reading hm hu
    obtain ⟨hpass', hwriter⟩ := admitted_passing ht
    obtain rfl := passing_unique hs hpass hpass'
    rw [hreader] at hwriter
    cases hwriter
  · rwa [Function.update_of_ne huv] at hu

theorem admitted_run (hs : Reachable (withoutWriterStarvation role) s) {t : T}
    (h : RunWhile (withoutWriterStarvation role) (fun v => admitted (v.pc t) = true) s s') (u : T)
    (hu : reading (s'.pc u) = true) : reading (s.pc u) = true := by
  induction h with
  | refl => exact hu
  | step hr hp hstep ih => exact ih (admitted_step (hr.reachable hs) hstep hp u hu)

/-- With the turnstile the first reader never blocks on `wrt`, and no reader
gets past a writer that has passed the turnstile. -/
theorem turnstile_exclusion (hs : Reachable (withoutWriterStarvation role) s) :
    Exclusion s ∧
      (count Role.isReader role ≤ 2 ^ 32 → ∀ t, opening (s.pc t) = true → 0 < s.shared.wrt) ∧
      ∀ t s', RunWhile (withoutWriterStarvation role) (fun v => admitted (v.pc t) = true) s s' →
        (∀ u, reading (s'.pc u) = true → reading (s.pc u) = true) ∧
          count reading s'.pc ≤ count reading s.pc :=
  ⟨exclusion hs, fun hN _ ht => opening_free hs hN ht,
    fun _ _ h => ⟨admitted_run hs h, count_mono (admitted_run hs h)⟩⟩

/-- One reader too many waits for the `wrt` of its own group. -/
theorem turnstile_wraps :
    ∃ s, Reachable (withoutWriterStarvation (crowd (2 ^ 32 + 1))) s ∧
      ∃ t, opening (s.pc t) = true ∧ s.shared.wrt = 0 := by
  refine ⟨_, wrapped_reachable true, ⟨2 ^ 32, by omega⟩, ?_, ?_⟩
  · simp [wrapped, crowdState, opening]
  · simp [wrapped, crowdState, wrappedShared, crowdShared]

/-- Thread 0 reads, the writer has passed the turnstile and thread 1 waits
there. -/
theorem turnstile_exclusion_turned :
    ∃ s, Reachable (withoutWriterStarvation ![.reader 0, .reader 0, .writer 0]) s ∧ Exclusion s ∧
      admitted (s.pc 2) = true ∧ reading (s.pc 0) = true ∧
      ∀ s', RunWhile (withoutWriterStarvation ![.reader 0, .reader 0, .writer 0])
        (fun v => admitted (v.pc 2) = true) s s' → reading (s'.pc 1) = false := by
  obtain ⟨s, hs, ha, hr, hw⟩ :
      ∃ s, Reachable (withoutWriterStarvation ![.reader 0, .reader 0, .writer 0]) s ∧
        admitted (s.pc 2) = true ∧ reading (s.pc 0) = true ∧ reading (s.pc 1) = false :=
    exists_reachable rfl (List.replicate 7 (.run 0 () none) ++ List.replicate 2 (.run 2 () none) ++
      [.run 1 () none]) (by decide +kernel)
  have h := turnstile_exclusion hs
  refine ⟨s, hs, h.1, ha, hr, fun s' hrun => ?_⟩
  by_contra hn
  have hold := (h.2.2 2 s' hrun).1 1 (Bool.eq_true_of_not_eq_false hn)
  rw [hw] at hold
  cases hold

end RoblSampleCodes.SemaphoreLockExclusion
