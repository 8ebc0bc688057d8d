import RoblSampleCodes.SemaphoreLockExclusion

namespace RoblSampleCodes.SemaphoreLockStarvation

open TransitionSystem ThreadCount ThreadProgram ProcessThreads
open SemaphoreLock SemaphoreLockInvariant SemaphoreLockExclusion

variable {T : Type} [DecidableEq T] [Fintype T] {turnstile : Bool} {role : T → Role} {s s' : LockState T}

def Waits (w : T) (s : LockState T) : Prop := (∃ q, s.pc w = .writer q .waitWrt) ∧ s.shared.wrt = 0

def readersIn (s : LockState T) : Nat := count reading s.pc

/-- The readers that enter their critical sections while `w` waits and has no moment in which it
could get `wrt`. -/
abbrev Starved (turnstile : Bool) (role : T → Role) (w : T) : LockState T → Nat → Prop :=
  Gains (system turnstile role) (Waits w) readersIn

def Starves (turnstile : Bool) (role : T → Role) : Prop :=
  ∃ w, Unbounded (system turnstile role) (Waits w) readersIn

variable {w : T} {n : Nat}

def arriving : Pc → Bool
  | .reader _ .postMx | .reader _ .postIn => true
  | _ => false

theorem arriving_grouped {p : Pc} (h : arriving p = true) : grouped p = true ∧ reading p = false := by
  cases p with
  | reader q p => cases p <;> first | exact ⟨rfl, rfl⟩ | cases h
  | writer _ _ | main _ | stopped _ => cases h

theorem starved_alone (hone : count Role.isReader role ≤ 1) (h : Starved turnstile role w s n) :
    n + count arriving s.pc ≤ 1 := by
  induction h with
  | @start s hs _ =>
    have hle := counted_le hs
    have hmono : count arriving s.pc ≤ count grouped s.pc :=
      count_mono fun t ht => (arriving_grouped ht).1
    omega
  | @step s s' a n h hs _ ih =>
    obtain ⟨t, p, hm, hp⟩ := system_step hs
    have harriving := count_update arriving s.pc t p
    have hreading := count_update reading s.pc t p
    have hopening := count_update opening s.pc t p
    have hgrouped := count_update grouped s.pc t p
    have hcount := readCount_eq h.reachable
    have hle := counted_le (h.reachable.step hs)
    have htaken := h.holds.2
    unfold readersIn
    rw [← hp] at harriving hreading hopening hgrouped
    generalize s.pc t = q at hm harriving hreading hopening hgrouped
    generalize s'.shared = m' at hm
    cases hm with
    | count hne =>
      -- the reader would be counted beside itself
      simp only [opening, grouped, Bool.toNat_true, Bool.toNat_false] at hopening hgrouped
      rw [show count opening s.pc + count grouped s.pc = 0 by omega] at hcount
      exact absurd (succ_eq_one.mpr hcount) hne
    | waitWrt hpos => omega
    | _ =>
      simp only [arriving, reading, Bool.toNat_true, Bool.toNat_false] at harriving hreading
      omega

section Relay

variable {r : T} {q : Nat}

omit [Fintype T] in
theorem Waits.moved {p x : ReaderPc} {m : SharedMemory} (h : Waits w s) (hr : s.pc r = .reader q p)
    (hwrt : m.wrt = 0) : Waits w (s.moved r m (.reader q x)) := by
  obtain ⟨⟨q', hq⟩, -⟩ := h
  have hwr : w ≠ r := by
    rintro rfl
    rw [hq] at hr
    cases hr
  exact ⟨⟨q', (Function.update_of_ne hwr ..).trans hq⟩, hwrt⟩

theorem goesOn {p x : ReaderPc} {m : SharedMemory} (h : Starved turnstile role w s n)
    (hr : s.pc r = .reader q p) (hnext : reader turnstile q s.shared p = some (m, x))
    (hwrt : m.wrt = 0) (hx : x ≠ .critical) : Starved turnstile role w (s.moved r m (.reader q x)) n := by
  have hstep := h.step (reader_step hr hnext) (h.holds.moved hr hwrt)
  have hcount := count_update reading s.pc r (.reader q x)
  have hreading : reading (.reader q x) = false := by
    cases x <;> first | rfl | exact absurd rfl hx
  have hle : readersIn (s.moved r m (.reader q x)) ≤ readersIn s := by
    rw [hreading] at hcount
    exact (Nat.le_add_right _ _).trans hcount.le
  rwa [Nat.sub_eq_zero_of_le hle, Nat.add_zero] at hstep

theorem goesIn {p : ReaderPc} {m : SharedMemory} (h : Starved turnstile role w s n)
    (hr : s.pc r = .reader q p) (hnext : reader turnstile q s.shared p = some (m, .critical))
    (hwrt : m.wrt = 0) (hp : p ≠ .critical) :
    Starved turnstile role w (s.moved r m (.reader q .critical)) (n + 1) := by
  have hstep := h.step (reader_step hr hnext) (h.holds.moved hr hwrt)
  have hcount := count_update reading s.pc r (.reader q .critical)
  have hreading : reading (s.pc r) = false := by
    rw [hr]
    cases p <;> first | rfl | exact absurd rfl hp
  have heq : readersIn (s.moved r m (.reader q .critical)) = readersIn s + 1 := by
    rw [hreading] at hcount
    exact hcount
  rwa [heq, Nat.add_sub_cancel_left] at hstep

structure Shared (k : BitVec 32) (m : SharedMemory) : Prop where
  running : ∀ q, m.isRunning q = true
  mx : m.mx = 1
  readCount : m.readCount = k

theorem enters (h : Starved false role w s n) (hr : s.pc r = .reader q .loop) (hone : Shared 1 s.shared) :
    ∃ m, Shared 2 m ∧ Starved false role w (s.moved r m (.reader q .critical)) (n + 1) := by
  obtain ⟨⟨increment, in_, mx, wrt, readCount, isRunning, stores⟩, owner, pc⟩ := s
  obtain ⟨hrunning, rfl, rfl⟩ := hone
  obtain rfl : wrt = 0 := h.holds.2
  have hmutex := goesOn h (x := .waitMx) hr (if_pos (hrunning q)) rfl (by decide)
  have hcounts := goesOn hmutex (x := .count) (m := ⟨increment, in_, 0, 0, 1, isRunning, stores⟩)
    State.moved_self rfl rfl (by decide)
  have hposts := goesOn hcounts (x := .postMx) (m := ⟨increment, in_, 0, 0, 2, isRunning, stores⟩)
    State.moved_self rfl rfl (by decide)
  have hreads := goesIn hposts (m := ⟨increment, in_, 1, 0, 2, isRunning, stores⟩)
    State.moved_self rfl rfl (by decide)
  simp only [State.moved_moved] at hreads
  exact ⟨⟨increment, in_, 1, 0, 2, isRunning, stores⟩, ⟨hrunning, rfl, rfl⟩, hreads⟩

theorem leaves (h : Starved false role w s n) (hr : s.pc r = .reader q .critical)
    (htwo : Shared 2 s.shared) :
    ∃ m, Shared 1 m ∧ Starved false role w (s.moved r m (.reader q .loop)) n := by
  obtain ⟨⟨increment, in_, mx, wrt, readCount, isRunning, stores⟩, owner, pc⟩ := s
  obtain ⟨hrunning, rfl, rfl⟩ := htwo
  obtain rfl : wrt = 0 := h.holds.2
  have hmutex := goesOn h hr (x := .exitWaitMx) (m := ⟨increment, in_, 1, 0, 2, isRunning, stores⟩)
    rfl rfl (by decide)
  have huncounts := goesOn hmutex (x := .uncount) (m := ⟨increment, in_, 0, 0, 2, isRunning, stores⟩)
    State.moved_self rfl rfl (by decide)
  have hposts := goesOn huncounts (x := .exitPostMx) (m := ⟨increment, in_, 0, 0, 1, isRunning, stores⟩)
    State.moved_self (by simp [reader, State.moved]) rfl (by decide)
  have hleft := goesOn hposts (x := .loop) (m := ⟨increment, in_, 1, 0, 1, isRunning, stores⟩)
    State.moved_self rfl rfl (by decide)
  simp only [State.moved_moved] at hleft
  exact ⟨⟨increment, in_, 1, 0, 1, isRunning, stores⟩, ⟨hrunning, rfl, rfl⟩, hleft⟩

theorem exists_relay {r' : T} {p p' : Nat} (hne : r ≠ r') (hr : role r = .reader p)
    (hr' : role r' = .reader p') (hw : role w = .writer q) :
    ∃ s, Relay .loop .critical (Shared 1) r r' s ∧ Starved false role w s 0 := by
  have hwr : w ≠ r := by
    rintro rfl
    rw [hr] at hw
    cases hw
  have hwr' : r' ≠ w := by
    rintro rfl
    rw [hr'] at hw
    cases hw
  have hinit : ∀ t, (initial role).pc t = start (role t) := fun _ => rfl
  have hwaits : Reachable (system false role) ⟨(initial role).shared, (initial role).owner,
      Function.update (initial role).pc w (.writer q .waitWrt)⟩ :=
    solo_reachable (i := ()) (n := 1) (.init rfl) (by rw [hinit, hw]; rfl)
  have hreads : Reachable (system false role) ⟨⟨0, 1, 1, 0, 1, fun _ => true, 0⟩, (initial role).owner,
      Function.update (Function.update (initial role).pc w (.writer q .waitWrt)) r
        (.reader p .critical)⟩ :=
    solo_reachable (i := ()) (n := 5) hwaits
      (by simp only [Function.update_of_ne hwr.symm, hinit, hr]; rfl)
  refine ⟨_, ⟨⟨p, Function.update_self ..⟩, ⟨p', ?_⟩, fun _ => rfl, rfl, rfl⟩,
    .start hreads ⟨⟨q, ?_⟩, rfl⟩⟩
  · simp only [Function.update_of_ne hne.symm, Function.update_of_ne hwr', hinit, hr']
    rfl
  · simp only [Function.update_of_ne hwr, Function.update_self]

end Relay

end RoblSampleCodes.SemaphoreLockStarvation
