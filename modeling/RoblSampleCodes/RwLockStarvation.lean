import RoblSampleCodes.RwLockInvariant

namespace RoblSampleCodes.RwLockStarvation

open TransitionSystem ThreadCount ThreadProgram ProcessThreads RwLock RwLockInvariant
open ReadersWriters (Mode)

theorem reader_of_shared {p : Pc} (h : has .shared p = true) : (roleOf p).isReader = true := by
  cases p with
  | reader => rfl
  | writer q p => cases p <;> cases h
  | main | stopped => cases h

variable {T : Type} [DecidableEq T] [Fintype T] {preferWriter : Bool} {role : T → Role}
  {s s' : LockState T}

def readersIn (s : LockState T) : Nat := count (has .shared) s.pc

def Waits (w : T) (s : LockState T) : Prop := (∃ q, s.pc w = .writer q .wait) ∧ 0 < s.shared.rwlock.readers

/-- The readers that get the lock while `w` waits and has no moment in which it could get it. -/
abbrev Starved (preferWriter : Bool) (role : T → Role) (w : T) : LockState T → Nat → Prop :=
  Gains (system preferWriter role) (Waits w) readersIn

def Starves (preferWriter : Bool) (role : T → Role) : Prop :=
  ∃ w, Unbounded (system preferWriter role) (Waits w) readersIn

variable {w : T} {n : Nat}

/-- A lock that prefers writers lets no reader in while one waits. -/
theorem starved_preferred (h : Starved true role w s n) : n = 0 := by
  induction h with
  | start => rfl
  | @step s s' a n h hs _ ih =>
    obtain ⟨⟨q, hq⟩, -⟩ := h.holds
    have hwaiting : modes s w = .waiting := congrArg mode hq
    have hkeep : ∀ t, modes s' t = .shared → modes s t = .shared := by
      intro t ht
      obtain hsame | ⟨b, hb⟩ := (refines true role).step s a s' h.reachable hs
      · rwa [hsame] at ht
      · exact ReadersWriters.shared_of_waiting (.step .refl hwaiting hb) ht
    have hle : readersIn s' ≤ readersIn s :=
      count_mono fun t ht => decide_eq_true (hkeep t (of_decide_eq_true ht))
    omega

theorem starved_alone (hone : count Role.isReader role ≤ 1) (h : Starved preferWriter role w s n) :
    n = 0 := by
  induction h with
  | start => rfl
  | @step s s' a n h hs _ ih =>
    have hpos := h.holds.2
    have hle : readersIn s' ≤ count Role.isReader role :=
      count_mono fun t ht => roleOf_pc (h.reachable.step hs) t ▸ reader_of_shared ht
    have hreaders : s.shared.rwlock.readers = readersIn s := (counted h.reachable).readers
    omega

section Relay

variable {r : T} {q : Nat}

theorem Starved.moves {p x : ReaderPc} {m : SharedMemory} (h : Starved preferWriter role w s n)
    (hr : s.pc r = .reader q p) (hnext : reader q s.shared p = some (m, x)) (hpos : 0 < m.rwlock.readers) :
    Starved preferWriter role w (s.moved r m (.reader q x))
      (n + (m.rwlock.readers - s.shared.rwlock.readers)) := by
  obtain ⟨⟨q', hq⟩, -⟩ := h.holds
  have hwr : w ≠ r := by
    rintro rfl
    rw [hq] at hr
    cases hr
  have hstep : (system preferWriter role).step s (.run r () none) = some (s.moved r m (.reader q x)) :=
    reader_step hr hnext
  have hgain := Gains.step h hstep ⟨⟨q', (Function.update_of_ne hwr ..).trans hq⟩, hpos⟩
  have hbefore : s.shared.rwlock.readers = readersIn s := (counted h.reachable).readers
  have hafter : m.rwlock.readers = readersIn (s.moved r m (.reader q x)) :=
    (counted (h.reachable.step hstep)).readers
  rwa [hbefore, hafter]

structure Shared (k : Nat) (m : SharedMemory) : Prop where
  running : ∀ q, m.isRunning q = true
  rwlock : ∃ wa, m.rwlock = ⟨false, k, false, wa⟩

theorem enters (h : Starved false role w s n) (hr : s.pc r = .reader q .loop) (hone : Shared 1 s.shared) :
    ∃ m, Shared 2 m ∧ Starved false role w (s.moved r m (.reader q .print)) (n + 1) := by
  obtain ⟨⟨increment, rwlock, isRunning, loads⟩, owner, pc⟩ := s
  obtain ⟨hrunning, wa, rfl⟩ := hone
  have hcalls := h.moves hr (x := .rdlock) (if_pos (hrunning q)) Nat.one_pos
  have hgets := hcalls.moves (x := .print) (m := ⟨increment, ⟨false, 2, false, wa⟩, isRunning, loads⟩)
    State.moved_self rfl Nat.two_pos
  rw [State.moved_moved] at hgets
  exact ⟨⟨increment, ⟨false, 2, false, wa⟩, isRunning, loads⟩, ⟨hrunning, wa, rfl⟩, hgets⟩

theorem leaves (h : Starved false role w s n) (hr : s.pc r = .reader q .print)
    (htwo : Shared 2 s.shared) :
    ∃ m, Shared 1 m ∧ Starved false role w (s.moved r m (.reader q .loop)) n := by
  obtain ⟨⟨increment, rwlock, isRunning, loads⟩, owner, pc⟩ := s
  obtain ⟨hrunning, wa, rfl⟩ := htwo
  have hloads := h.moves hr (x := .unlock) rfl Nat.two_pos
  have hleft := hloads.moves (x := .loop)
    (m := ⟨increment, ⟨false, 1, false, wa⟩, isRunning, .read increment :: loads⟩)
    State.moved_self rfl Nat.one_pos
  rw [State.moved_moved] at hleft
  exact ⟨⟨increment, ⟨false, 1, false, wa⟩, isRunning, .read increment :: loads⟩,
    ⟨hrunning, wa, rfl⟩, hleft⟩

theorem exists_relay {r' : T} {p p' : Nat} (hne : r ≠ r') (hr : role r = .reader p)
    (hr' : role r' = .reader p') (hw : role w = .writer q) :
    ∃ s, Relay .loop .print (Shared 1) r r' s ∧ Starved false role w s 0 := by
  have hwr : w ≠ r := by
    rintro rfl
    rw [hr] at hw
    cases hw
  have hwr' : r' ≠ w := by
    rintro rfl
    rw [hr'] at hw
    cases hw
  have hinit : ∀ t, (initial false role).pc t = start (role t) := fun _ => rfl
  have hreads : Reachable (system false role) ⟨⟨0, ⟨false, 1, false, 0⟩, fun _ => true, []⟩,
      (initial false role).owner, Function.update (initial false role).pc r (.reader p .print)⟩ :=
    solo_reachable (i := ()) (n := 2) (.init rfl) (by rw [hinit, hr]; rfl)
  have hwaits : Reachable (system false role) ⟨⟨0, ⟨false, 1, false, 1⟩, fun _ => true, []⟩,
      (initial false role).owner,
      Function.update (Function.update (initial false role).pc r (.reader p .print)) w
        (.writer q .wait)⟩ :=
    solo_reachable (i := ()) (n := 2) hreads (by simp only [Function.update_of_ne hwr, hinit, hw]; rfl)
  refine ⟨_, ⟨⟨p, ?_⟩, ⟨p', ?_⟩, fun _ => rfl, 1, rfl⟩,
    .start hwaits ⟨⟨q, Function.update_self ..⟩, Nat.one_pos⟩⟩
  · simp only [Function.update_of_ne hwr.symm, Function.update_self]
  · simp only [Function.update_of_ne hwr', Function.update_of_ne hne.symm, hinit, hr']
    rfl

end Relay

/-- Writers starve with the default kind of lock where there are two readers to take over from each
other, and not with the kind that prefers writers. -/
theorem rwlock_starves_iff (role : T → Role) :
    (Starves false role ↔ (∃ w q, role w = .writer q) ∧ 2 ≤ count Role.isReader role) ∧
      ¬ Starves true role := by
  refine ⟨⟨fun h => ?_, fun h => ?_⟩, ?_⟩
  · obtain ⟨w, h⟩ := h
    obtain ⟨s, n, hn, hstarved⟩ := h 1
    obtain ⟨⟨q, hq⟩, -⟩ := hstarved.holds
    have hrole := roleOf_pc hstarved.reachable w
    rw [hq] at hrole
    refine ⟨⟨w, q, hrole.symm⟩, ?_⟩
    by_contra hlt
    have hzero := starved_alone (by omega) hstarved
    omega
  · obtain ⟨⟨w, q, hw⟩, htwo⟩ := h
    obtain ⟨r, r', hne, ⟨p, hr⟩, p', hr'⟩ := exists_readers htwo
    exact ⟨w, Relay.unbounded hne (fun _ _ _ _ => enters) (fun _ _ _ _ => leaves)
      (exists_relay hne hr hr' hw)⟩
  · rintro ⟨w, h⟩
    obtain ⟨s, n, hn, hstarved⟩ := h 1
    have hzero := starved_preferred hstarved
    omega

end RoblSampleCodes.RwLockStarvation
