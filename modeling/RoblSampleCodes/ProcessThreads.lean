import RoblSampleCodes.ThreadProgram

namespace RoblSampleCodes.ProcessThreads

open TransitionSystem ThreadCount ThreadProgram

/-- The threads of process `q`: its readers and writers with their places, and its main thread, which
ends the loops of both. -/
inductive ThreadPc (R W : Type)
  | reader (q : Nat) (p : R)
  | writer (q : Nat) (p : W)
  | main (q : Nat)
  | stopped (q : Nat)
  deriving DecidableEq

inductive Role
  | reader (q : Nat)
  | writer (q : Nat)
  | main (q : Nat)
  deriving DecidableEq

def Role.isReader : Role → Bool
  | .reader _ => true
  | _ => false

variable {S R W T : Type}

def Role.start (r : R) (w : W) : Role → ThreadPc R W
  | .reader q => .reader q r
  | .writer q => .writer q w
  | .main q => .main q

def roleOf : ThreadPc R W → Role
  | .reader q _ => .reader q
  | .writer q _ => .writer q
  | .main q | .stopped q => .main q

def process : ThreadPc R W → Nat
  | .reader q _ | .writer q _ | .main q | .stopped q => q

def ThreadPc.working [DecidableEq R] [DecidableEq W] (r : R) (w : W) : ThreadPc R W → Bool
  | .reader _ p => p != r
  | .writer _ p => p != w
  | _ => false

/-- The code of the threads over the data `S`. `stop` clears the flag `is_running` of a process. -/
structure Code (S R W : Type) where
  reader : Nat → S → R → Option (S × R)
  writer : Nat → S → W → Option (S × W)
  isRunning : S → Nat → Bool
  stop : Nat → S → S
  isRunning_stop : ∀ q m, isRunning (stop q m) = Function.update (isRunning m) q false

variable {c : Code S R W}

def Code.next (c : Code S R W) (m : S) : ThreadPc R W → Option (S × ThreadPc R W × Effect Empty Empty)
  | .reader q p => (c.reader q m p).map (fun (m', p') => (m', .reader q p', .none))
  | .writer q p => (c.writer q m p).map (fun (m', p') => (m', .writer q p', .none))
  | .main q => some (c.stop q m, .stopped q, .none)
  | .stopped _ => none

/-- The locks are shared data, so the threads use no mutex and no condition variable. -/
def Code.program (c : Code S R W) : Program S (ThreadPc R W) Unit Empty Empty where
  next m p _ := c.next m p
  asleep _ := none
  wake := id
  asleep_wake _ := rfl
  next_asleep _ _ _ h := absurd rfl h

inductive Code.Steps (c : Code S R W) (m : S) : ThreadPc R W → S → ThreadPc R W → Prop
  | reader {q : Nat} {p p' : R} {m' : S} (h : c.reader q m p = some (m', p')) :
      Steps c m (.reader q p) m' (.reader q p')
  | writer {q : Nat} {p p' : W} {m' : S} (h : c.writer q m p = some (m', p')) :
      Steps c m (.writer q p) m' (.writer q p')
  | stop {q : Nat} : Steps c m (.main q) (c.stop q m) (.stopped q)

theorem next_steps {m m' : S} {p p' : ThreadPc R W} {e : Effect Empty Empty}
    (h : c.next m p = some (m', p', e)) : c.Steps m p m' p' := by
  cases p with
  | reader q p =>
    obtain ⟨⟨m₁, p₁⟩, hr, h⟩ := Option.map_eq_some_iff.mp h
    cases h
    exact .reader hr
  | writer q p =>
    obtain ⟨⟨m₁, p₁⟩, hw, h⟩ := Option.map_eq_some_iff.mp h
    cases h
    exact .writer hw
  | main q =>
    cases h
    exact .stop
  | stopped q => cases h

variable [DecidableEq T] [Fintype T] {init : State S (ThreadPc R W) Empty T → Prop} {role : T → Role}
  {s s' : State S (ThreadPc R W) Empty T}

theorem system_steps {a : Action T Unit} (h : (c.program.system init).step s a = some s') :
    ∃ t p, c.Steps s.shared (s.pc t) s'.shared p ∧ s'.pc = Function.update s.pc t p := by
  obtain ⟨t, i, pick, p, e, -, hn, -, -, hp⟩ := step_sleepless (fun _ => rfl) h
  exact ⟨t, p, next_steps hn, hp⟩

theorem stuck (h : ∀ t, (c.next s.shared (s.pc t)).isNone = true) (a : Action T Unit) :
    ¬ Enabled (c.program.system init) s a := by
  cases a with
  | run t i pick => exact not_enabled (Option.isNone_iff_eq_none.mp (h t)) pick
  | spurious t => simp [Enabled, Program.system, Program.step, Code.program]

/-- If there is always one of the working threads that can go on, nobody works any more when nothing can
happen. -/
theorem not_working_of_stuck {working : ThreadPc R W → Bool}
    (hprogress : ∀ t, working (s.pc t) = true →
      ∃ u pick, working (s.pc u) = true ∧ Enabled (c.program.system init) s (.run u () pick))
    (hstuck : ∀ a, ¬ Enabled (c.program.system init) s a) (t : T) : working (s.pc t) = false := by
  by_contra ht
  obtain ⟨u, pick, -, henabled⟩ := hprogress t (Bool.eq_true_of_not_eq_false ht)
  exact hstuck _ henabled

omit [DecidableEq T] [Fintype T] in
theorem steps_roleOf {m m' : S} {p p' : ThreadPc R W} (h : c.Steps m p m' p') : roleOf p' = roleOf p := by
  cases h <;> rfl

theorem Code.roleOf_pc (hinit : ∀ u, init u → ∀ t, roleOf (u.pc t) = role t)
    (hs : Reachable (c.program.system init) s) (t : T) : roleOf (s.pc t) = role t := by
  induction hs with
  | init h => exact hinit _ h t
  | @step s s' a _ h ih =>
    obtain ⟨u, p, hm, hp⟩ := system_steps h
    rw [hp]
    by_cases htu : t = u
    · subst htu
      rw [Function.update_self, steps_roleOf hm, ih]
    · rw [Function.update_of_ne htu, ih]

omit [DecidableEq T] [Fintype T] in
theorem roleOf_start {r : R} {w : W} (x : Role) : roleOf (x.start r w) = x := by
  cases x <;> rfl

section Shutdown

def Code.Stopping (c : Code S R W) (s : State S (ThreadPc R W) Empty T) : Prop :=
  ∀ t, c.isRunning s.shared (process (s.pc t)) = false

/-- Once its process has cleared `is_running`, every step of a thread brings it nearer to its end. -/
structure Code.Ending (c : Code S R W) (remaining : ThreadPc R W → Nat) : Prop where
  reader : ∀ q m p m' p', c.isRunning m q = false → c.reader q m p = some (m', p') →
    c.isRunning m' = c.isRunning m ∧ remaining (.reader q p') < remaining (.reader q p)
  writer : ∀ q m p m' p', c.isRunning m q = false → c.writer q m p = some (m', p') →
    c.isRunning m' = c.isRunning m ∧ remaining (.writer q p') < remaining (.writer q p)
  stop : ∀ q, remaining (.stopped q) < remaining (.main q)

variable {remaining : ThreadPc R W → Nat} (hend : c.Ending remaining)

include hend

omit [DecidableEq T] [Fintype T] in
theorem Code.Ending.steps {m m' : S} {p p' : ThreadPc R W} (hstop : c.isRunning m (process p) = false)
    (h : c.Steps m p m' p') :
    (∀ q, c.isRunning m q = false → c.isRunning m' q = false) ∧ process p' = process p ∧
      remaining p' < remaining p := by
  cases h with
  | reader h =>
    obtain ⟨hrunning, hlt⟩ := hend.reader _ _ _ _ _ hstop h
    exact ⟨fun _ hq => hrunning ▸ hq, rfl, hlt⟩
  | writer h =>
    obtain ⟨hrunning, hlt⟩ := hend.writer _ _ _ _ _ hstop h
    exact ⟨fun _ hq => hrunning ▸ hq, rfl, hlt⟩
  | stop =>
    refine ⟨fun r hr => ?_, rfl, hend.stop _⟩
    simp only [c.isRunning_stop, Function.update_apply, hr, ite_self]

theorem Code.Ending.step {a : Action T Unit} (hstop : c.Stopping s)
    (h : (c.program.system init).step s a = some s') :
    c.Stopping s' ∧ total remaining s'.pc < total remaining s.pc := by
  obtain ⟨u, p, hm, hp⟩ := system_steps h
  obtain ⟨hrunning, hprocess, hlt⟩ := hend.steps (hstop u) hm
  have htotal := total_update remaining s.pc u p
  rw [← hp] at htotal
  refine ⟨fun v => ?_, by omega⟩
  rw [hp]
  by_cases hv : v = u
  · rw [hv, Function.update_self, hprocess]
    exact hrunning _ (hstop u)
  · rw [Function.update_of_ne hv]
    exact hrunning _ (hstop v)

theorem Code.Ending.length_le {k : Nat} (hk : ∀ p, remaining p ≤ k) (hstop : c.Stopping s)
    {as : List (Action T Unit)} (he : exec (c.program.system init) s as = some s') :
    as.length ≤ k * Fintype.card T := by
  have hlen := length_le_of_measure (fun _ _ _ => hend.step) hstop he
  have hbound := total_le remaining s.pc fun t => hk (s.pc t)
  omega

end Shutdown

section Relay

omit [DecidableEq T] in
theorem exists_readers (h : 2 ≤ count Role.isReader role) :
    ∃ r r', r ≠ r' ∧ (∃ q, role r = .reader q) ∧ ∃ q, role r' = .reader q := by
  have hreader : ∀ x : Role, x.isReader = true → ∃ q, x = .reader q := by
    intro x hx
    cases x with
    | reader q => exact ⟨q, rfl⟩
    | writer | main => cases hx
  obtain ⟨r, hr, r', hr', hne⟩ := Finset.one_lt_card.mp h
  rw [Finset.mem_filter] at hr hr'
  exact ⟨r, r', hne, hreader _ hr.2, hreader _ hr'.2⟩

structure Relay (loop x : R) (Alone : S → Prop) (r r' : T)
    (s : State S (ThreadPc R W) Empty T) : Prop where
  reads : ∃ q, s.pc r = .reader q x
  idles : ∃ q, s.pc r' = .reader q loop
  alone : Alone s.shared

variable {G : State S (ThreadPc R W) Empty T → Nat → Prop} {loop x : R} {Alone Both : S → Prop}
  (enters : ∀ s n r q, G s n → s.pc r = .reader q loop → Alone s.shared →
    ∃ m, Both m ∧ G (s.moved r m (.reader q x)) (n + 1))
  (leaves : ∀ s n r q, G s n → s.pc r = .reader q x → Both s.shared →
    ∃ m, Alone m ∧ G (s.moved r m (.reader q loop)) n)

include enters leaves

omit [Fintype T] in
/-- The one reader takes over from the other. -/
theorem Relay.turn {r r' : T} {n : Nat} (hrel : Relay loop x Alone r r' s) (hne : r ≠ r') (h : G s n) :
    ∃ s', Relay loop x Alone r' r s' ∧ G s' (n + 1) := by
  obtain ⟨q, hr⟩ := hrel.reads
  obtain ⟨q', hr'⟩ := hrel.idles
  obtain ⟨m, hboth, hin⟩ := enters s n r' q' h hr' hrel.alone
  have hstay : (s.moved r' m (.reader q' x)).pc r = .reader q x := (Function.update_of_ne hne ..).trans hr
  obtain ⟨m', halone, hout⟩ := leaves _ _ r q hin hstay hboth
  refine ⟨_, ⟨⟨q', ?_⟩, ⟨q, State.moved_self⟩, halone⟩, hout⟩
  exact (Function.update_of_ne hne.symm ..).trans State.moved_self

end Relay

/-- Two readers that take over from each other do so any number of times. -/
theorem Relay.unbounded {P : State S (ThreadPc R W) Empty T → Prop}
    {f : State S (ThreadPc R W) Empty T → Nat}
    {loop x : R} {Alone Both : S → Prop} {r r' : T} (hne : r ≠ r')
    (enters : ∀ s n r q, Gains (c.program.system init) P f s n → s.pc r = .reader q loop →
      Alone s.shared → ∃ m, Both m ∧ Gains (c.program.system init) P f (s.moved r m (.reader q x)) (n + 1))
    (leaves : ∀ s n r q, Gains (c.program.system init) P f s n → s.pc r = .reader q x →
      Both s.shared → ∃ m, Alone m ∧ Gains (c.program.system init) P f (s.moved r m (.reader q loop)) n)
    (hinit : ∃ s, Relay loop x Alone r r' s ∧ Gains (c.program.system init) P f s 0) :
    Unbounded (c.program.system init) P f := by
  obtain ⟨s, hrel, h⟩ := hinit
  refine .of_relay (R := fun u => Relay loop x Alone r r' u ∨ Relay loop x Alone r' r u)
    ⟨s, .inl hrel, h⟩ ?_
  rintro u n (hu | hu) hgains
  · obtain ⟨v, hv, hnext⟩ := hu.turn enters leaves hne hgains
    exact ⟨v, .inr hv, hnext⟩
  · obtain ⟨v, hv, hnext⟩ := hu.turn enters leaves hne.symm hgains
    exact ⟨v, .inl hv, hnext⟩

theorem reader_step {q : Nat} {p p' : R} {m : S} {r : T} (hr : s.pc r = .reader q p)
    (hnext : c.reader q s.shared p = some (m, p')) :
    (c.program.system init).step s (.run r () none) = some (s.moved r m (.reader q p')) := by
  have hn : c.program.next s.shared (s.pc r) () = some (m, .reader q p', .none) := by
    simp only [Code.program, Code.next, hr, hnext, Option.map_some]
  exact run_moved hn

end RoblSampleCodes.ProcessThreads
