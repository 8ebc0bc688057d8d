import RoblSampleCodes.SemaphoreLockInvariant

namespace RoblSampleCodes.SemaphoreLifetime

open TransitionSystem SemaphoreLock

inductive Sem
  | in_
  | mx
  | wrt
  deriving DecidableEq

/-- Those of a program, in the order in which it initialises and destroys them. -/
def semaphores (turnstile : Bool) : List Sem := if turnstile then [.in_, .mx, .wrt] else [.mx, .wrt]

def maxReaders : Nat := 10

def maxThreads : Nat := maxReaders + 3

/-- A thread of a process, which is `absent` until the process starts it. -/
inductive ThreadPc
  | absent
  | reader (p : ReaderPc)
  | writer (p : WriterPc)
  deriving DecidableEq

/-- Places in `main`, with the semaphores that are left to initialise or destroy, and the number of
threads that are started or joined. A process that is not started is `idle`. -/
inductive MainPc
  | idle
  | memset
  | semInit (left : List Sem)
  | spawn (n : Nat)
  | sleep
  | join (n : Nat)
  | semDestroy (left : List Sem)
  | shmdt
  | ended
  deriving DecidableEq

def MainPc.early : MainPc → Bool
  | .idle | .memset | .semInit _ => true
  | _ => false

/-- The segment and the processes. The history has the semaphores that were destroyed, and whether
a thread has called `sem_wait` or `sem_post` on one of them. -/
structure SegmentState where
  shared : SharedMemory
  destroyed : Sem → Bool
  misused : Bool
  main : Nat → MainPc
  thread : Nat → Nat → ThreadPc

def readerSem : ReaderPc → Option Sem
  | .waitIn | .postIn => some .in_
  | .waitMx | .postMx | .exitWaitMx | .exitPostMx => some .mx
  | .waitWrt | .exitPostWrt => some .wrt
  | .loop | .count | .critical | .uncount | .finished => none

def writerSem : WriterPc → Option Sem
  | .waitIn | .postIn => some .in_
  | .waitWrt | .postWrt => some .wrt
  | .loop | .load | .store _ | .print | .sleep | .finished => none

def ThreadPc.sem : ThreadPc → Option Sem
  | .absent => none
  | .reader p => readerSem p
  | .writer p => writerSem p

def ThreadPc.done : ThreadPc → Bool
  | .absent | .reader .finished | .writer .finished => true
  | _ => false

def start (k : Nat) : ThreadPc := if k < maxReaders then .reader .loop else .writer .loop

def SharedMemory.semInit (m : SharedMemory) : Sem → SharedMemory
  | .in_ => { m with in_ := 1 }
  | .mx => { m with mx := 1 }
  | .wrt => { m with wrt := 1 }

/-- `memset` clears the segment, in which `is_running` is not. -/
def SharedMemory.memset (m : SharedMemory) : SharedMemory := ⟨0, 0, 0, 0, 0, m.isRunning, 0⟩

def threadNext (turnstile : Bool) (q : Nat) (m : SharedMemory) :
    ThreadPc → Option (SharedMemory × ThreadPc)
  | .absent => none
  | .reader p => (reader turnstile q m p).map (fun (m', p') => (m', .reader p'))
  | .writer p => (writer turnstile q m p).map (fun (m', p') => (m', .writer p'))

namespace SegmentState

def initialised (s : SegmentState) : Bool := !(s.main 0).early

def setRunning (s : SegmentState) (q : Nat) (b : Bool) : SegmentState :=
  { s with shared := { s.shared with isRunning := Function.update s.shared.isRunning q b } }

def setDestroyed (s : SegmentState) (x : Sem) (b : Bool) : SegmentState :=
  { s with destroyed := Function.update s.destroyed x b }

def setThread (s : SegmentState) (q k : Nat) (p : ThreadPc) : SegmentState :=
  { s with thread := Function.update s.thread q (Function.update (s.thread q) k p) }

def goto (s : SegmentState) (q : Nat) (p : MainPc) : SegmentState :=
  { s with main := Function.update s.main q p }

end SegmentState

/-- A step of `main`. Process 0 is started with an argument, and the others after it has initialised
the segment. -/
def mainNext (turnstile : Bool) (s : SegmentState) (q : Nat) : MainPc → Option SegmentState
  | .idle =>
    if q = 0 then some ((s.setRunning q true).goto q .memset)
    else if s.initialised then some ((s.setRunning q true).goto q (.spawn 0))
    else none
  | .memset =>
    some ({ s with shared := SharedMemory.memset s.shared }.goto q (.semInit (semaphores turnstile)))
  | .semInit (x :: left) =>
    let s := { s with shared := SharedMemory.semInit s.shared x }
    some ((s.setDestroyed x false).goto q (.semInit left))
  | .semInit [] => some (s.goto q (.spawn 0))
  | .spawn n =>
    some ((s.setThread q n (start n)).goto q (if n + 1 < maxThreads then .spawn (n + 1) else .sleep))
  | .sleep => some ((s.setRunning q false).goto q (.join 0))
  | .join n =>
    if n < maxThreads then
      if (s.thread q n).done then some (s.goto q (.join (n + 1))) else none
    else some (s.goto q (.semDestroy (semaphores turnstile)))
  | .semDestroy (x :: left) => some ((s.setDestroyed x true).goto q (.semDestroy left))
  | .semDestroy [] => some (s.goto q .shmdt)
  | .shmdt => some (s.goto q .ended)
  | .ended => none

inductive Action
  | main (q : Nat)
  | thread (q k : Nat)

/-- A call on a semaphore that is destroyed is noted. What it does is undefined, and the model leaves
the thread where it is. -/
def step (turnstile : Bool) (s : SegmentState) : Action → Option SegmentState
  | .main q => mainNext turnstile s q (s.main q)
  | .thread q k =>
    if (s.thread q k).sem.any s.destroyed then some { s with misused := true }
    else (threadNext turnstile q s.shared (s.thread q k)).map
      (fun (m, p) => { s with shared := m }.setThread q k p)

structure Initial (s : SegmentState) : Prop where
  destroyed : ∀ x, s.destroyed x = false
  misused : s.misused = false
  main : ∀ q, s.main q = .idle
  thread : ∀ q k, s.thread q k = .absent

def system (turnstile : Bool) : System SegmentState Action := ⟨Initial, step turnstile⟩

def ThreadPc.pending (isRunning : Bool) : ThreadPc → Bool
  | .absent | .reader .finished | .writer .finished => false
  | .reader .loop | .writer .loop | .writer .sleep => isRunning
  | _ => true

def MainPc.starting : MainPc → Bool
  | .memset | .semInit _ | .spawn _ => true
  | _ => false

/-- A process that is not started, or that has started its threads and whose threads have left their
loops or leave them at the next test of `is_running`. -/
def Settled (s : SegmentState) (q : Nat) : Prop :=
  (∀ k, (s.thread q k).pending (s.shared.isRunning q) = false) ∧ (s.main q).starting = false

/-- A process destroys a semaphore when all others are settled, and no process is started later. -/
structure Orderly (s : SegmentState) (a : Action) : Prop where
  destroy : ∀ q x left, a = .main q → s.main q = .semDestroy (x :: left) → ∀ q' ≠ q, Settled s q'
  start : ∀ q x, a = .main q → q ≠ 0 → s.main q = .idle → s.destroyed x = false

def head (turnstile : Bool) : Sem := if turnstile then .in_ else .mx

def Place (turnstile : Bool) (s : SegmentState) (q : Nat) : MainPc → Prop
  | .idle | .sleep => True
  | .memset | .semInit _ => q = 0 ∧ s.shared.isRunning q = true
  | .spawn n => n < maxThreads ∧ s.shared.isRunning q = true
  | .join n => ∀ k < n, (s.thread q k).done = true
  | .semDestroy left => (∀ k, (s.thread q k).done = true) ∧
    (left = semaphores turnstile ∨ s.destroyed (head turnstile) = true) ∧
    ∀ x ∈ semaphores turnstile, x ∈ left ∨ s.destroyed x = true
  | .shmdt | .ended => ∀ k, (s.thread q k).done = true

structure Inv (turnstile : Bool) (s : SegmentState) : Prop where
  place : ∀ q, Place turnstile s q (s.main q)
  absent : ∀ q k, maxThreads ≤ k → s.thread q k = .absent
  sem : ∀ q k x, (s.thread q k).sem = some x → x ∈ semaphores turnstile
  fresh : s.initialised = false → (∀ q ≠ 0, s.main q = .idle) ∧ ∀ x, s.destroyed x = false
  head : ∀ x, s.destroyed x = true → s.destroyed (head turnstile) = true
  settled : ∀ x, s.destroyed x = true → ∀ q, Settled s q
  misused : s.misused = false

variable {turnstile : Bool} {s s' : SegmentState} {q k : Nat}

theorem Place.mono {p : MainPc} (h : Place turnstile s q p)
    (hrunning : s'.shared.isRunning q = s.shared.isRunning q)
    (hdone : ∀ k, (s.thread q k).done = true → (s'.thread q k).done = true)
    (hdestroyed : ∀ x, s.destroyed x = true → s'.destroyed x = true) : Place turnstile s' q p := by
  cases p with
  | idle | sleep => trivial
  | memset | semInit => exact ⟨h.1, hrunning.trans h.2⟩
  | spawn => exact ⟨h.1, hrunning.trans h.2⟩
  | join n => exact fun k hk => hdone k (h k hk)
  | semDestroy left =>
    exact ⟨fun k => hdone k (h.1 k), h.2.1.imp_right (hdestroyed _),
      fun x hx => (h.2.2 x hx).imp_right (hdestroyed x)⟩
  | shmdt | ended => exact fun k => hdone k (h k)

theorem pending_of_done {p : ThreadPc} (h : p.done = true) (b : Bool) : p.pending b = false := by
  cases p with
  | absent => rfl
  | reader p => cases p <;> first | rfl | cases h
  | writer p => cases p <;> first | rfl | cases h

theorem pending_of_sem {p : ThreadPc} {x : Sem} (h : p.sem = some x) (b : Bool) : p.pending b = true := by
  cases p with
  | absent => cases h
  | reader p => cases p <;> first | rfl | cases h
  | writer p => cases p <;> first | rfl | cases h

theorem pending_false {p : ThreadPc} {b : Bool} (h : p.pending b = false) : p.pending false = false := by
  cases p with
  | absent => rfl
  | reader p => cases p <;> first | rfl | cases h
  | writer p => cases p <;> first | rfl | cases h

structure Runs (turnstile : Bool) (q : Nat) (m : SharedMemory) (p : ThreadPc) (m' : SharedMemory)
    (p' : ThreadPc) : Prop where
  isRunning : m'.isRunning = m.isRunning
  done : p.done = false
  sem : ∀ x, p'.sem = some x → x ∈ semaphores turnstile
  pending : p.pending (m.isRunning q) = false → p'.pending (m.isRunning q) = false

theorem mx_mem (turnstile : Bool) : Sem.mx ∈ semaphores turnstile := by
  cases turnstile <;> decide

theorem wrt_mem (turnstile : Bool) : Sem.wrt ∈ semaphores turnstile := by
  cases turnstile <;> decide

theorem reader_runs {m m' : SharedMemory} {p p' : ReaderPc} (h : reader turnstile q m p = some (m', p')) :
    Runs turnstile q m (.reader p) m' (.reader p') := by
  have hmoves := SemaphoreLockInvariant.reader_moves h
  refine ⟨?_, ?_, fun x hx => ?_, fun hpending => ?_⟩
  · cases hmoves <;> rfl
  · cases p <;> first | rfl | cases h
  · cases hmoves with
    | readerEntersIn hv | postMxIn hv =>
      subst hv
      cases hx
      exact List.mem_cons_self
    | readerEnters | readerWaitIn | count | waitWrt | critical | uncount | exitPostWrt =>
      cases hx
      exact mx_mem turnstile
    | countFirst | uncountLast =>
      cases hx
      exact wrt_mem turnstile
    | readerLeaves | waitMx | postMx | readerPostIn | exitWaitMx | exitPostMx => cases hx
  · cases p with
    | loop =>
      have hrunning : m.isRunning q = false := hpending
      rw [reader, hrunning] at h
      cases h
      rfl
    | finished => cases h
    | _ => cases hpending

theorem writer_runs {m m' : SharedMemory} {p p' : WriterPc} (h : writer turnstile q m p = some (m', p')) :
    Runs turnstile q m (.writer p) m' (.writer p') := by
  have hmoves := SemaphoreLockInvariant.writer_moves h
  refine ⟨?_, ?_, fun x hx => ?_, fun hpending => ?_⟩
  · cases hmoves <;> rfl
  · cases p <;> first | rfl | cases h
  · cases hmoves with
    | writerEntersIn hv | postWrtIn hv =>
      subst hv
      cases hx
      exact List.mem_cons_self
    | writerEnters | writerWaitIn | print =>
      cases hx
      exact wrt_mem turnstile
    | writerLeaves | writerWaitWrt | load | store | postWrt | writerPostIn | sleep => cases hx
  · cases p with
    | loop =>
      have hrunning : m.isRunning q = false := hpending
      rw [writer, hrunning] at h
      cases h
      rfl
    | sleep =>
      cases h
      exact hpending
    | finished => cases h
    | _ => cases hpending

theorem threadNext_runs {m m' : SharedMemory} {p p' : ThreadPc}
    (h : threadNext turnstile q m p = some (m', p')) : Runs turnstile q m p m' p' := by
  cases p with
  | absent => cases h
  | reader p =>
    obtain ⟨⟨m₁, p₁⟩, hp, h⟩ := Option.map_eq_some_iff.mp h
    cases h
    exact reader_runs hp
  | writer p =>
    obtain ⟨⟨m₁, p₁⟩, hp, h⟩ := Option.map_eq_some_iff.mp h
    cases h
    exact writer_runs hp

inductive ThreadSteps (turnstile : Bool) (s : SegmentState) (q k : Nat) : SegmentState → Prop
  | misuse {x : Sem} (hx : (s.thread q k).sem = some x) (hdestroyed : s.destroyed x = true) :
      ThreadSteps turnstile s q k { s with misused := true }
  | run {m : SharedMemory} {p : ThreadPc} (h : Runs turnstile q s.shared (s.thread q k) m p) :
      ThreadSteps turnstile s q k ({ s with shared := m }.setThread q k p)

theorem step_thread (h : step turnstile s (.thread q k) = some s') : ThreadSteps turnstile s q k s' := by
  rw [step] at h
  split at h
  · next hany =>
    obtain ⟨x, hx, hdestroyed⟩ := (Option.any_eq_true _ _).mp hany
    cases h
    exact .misuse hx hdestroyed
  · obtain ⟨⟨m, p⟩, hp, h⟩ := Option.map_eq_some_iff.mp h
    cases h
    exact .run (threadNext_runs hp)

theorem setThread_self (s : SegmentState) (q k : Nat) (p : ThreadPc) :
    (s.setThread q k p).thread q k = p := by
  simp only [SegmentState.setThread, Function.update_self]

theorem setThread_other {q' k' : Nat} {p : ThreadPc} (h : ¬ (q' = q ∧ k' = k)) :
    (s.setThread q k p).thread q' k' = s.thread q' k' := by
  by_cases hq : q' = q
  · subst hq
    have hk : k' ≠ k := fun hk => h ⟨rfl, hk⟩
    simp only [SegmentState.setThread, Function.update_self, Function.update_of_ne hk]
  · simp only [SegmentState.setThread, Function.update_of_ne hq]

theorem setThread_forall {R : Nat → Nat → ThreadPc → Prop} {p : ThreadPc}
    (hall : ∀ q' k', R q' k' (s.thread q' k')) (hp : R q k p) (q' k' : Nat) :
    R q' k' ((s.setThread q k p).thread q' k') := by
  by_cases h : q' = q ∧ k' = k
  · obtain ⟨rfl, rfl⟩ := h
    rwa [setThread_self]
  · rw [setThread_other h]
    exact hall q' k'

theorem Inv.thread (h : Inv turnstile s) (hs : ThreadSteps turnstile s q k s') : Inv turnstile s' := by
  cases hs with
  | misuse hx hdestroyed =>
    have hpending := (h.settled _ hdestroyed q).1 k
    rw [pending_of_sem hx] at hpending
    cases hpending
  | @run m p hruns =>
    have hne : ∀ q' k', (s.thread q' k').done = true → ¬ (q' = q ∧ k' = k) := by
      rintro q' k' hdone ⟨rfl, rfl⟩
      rw [hruns.done] at hdone
      cases hdone
    refine ⟨fun q' => ?_, fun q' k' hk => ?_, fun q' k' => ?_, h.fresh, h.head, fun x hx q' => ?_,
      h.misused⟩
    · refine (h.place q').mono (congrFun hruns.isRunning q') (fun k' hdone => ?_) (fun x hx => hx)
      rwa [setThread_other (hne q' k' hdone)]
    · have habsent := h.absent q' k' hk
      rwa [setThread_other (hne q' k' (by rw [habsent]; rfl))]
    · exact setThread_forall (R := fun _ _ p => ∀ x, p.sem = some x → x ∈ semaphores turnstile) h.sem
        hruns.sem q' k'
    · have hsettled := h.settled x hx
      have hrunning : m.isRunning q' = s.shared.isRunning q' := congrFun hruns.isRunning q'
      refine ⟨fun k' => ?_, (hsettled q').2⟩
      change ThreadPc.pending (m.isRunning q') _ = false
      rw [hrunning]
      exact setThread_forall (R := fun q' _ p => p.pending (s.shared.isRunning q') = false)
        (fun q' => (hsettled q').1) (hruns.pending ((hsettled q).1 k)) q' k'

theorem Inv.goto (h : Inv turnstile s) {p : MainPc} (hplace : Place turnstile s q p)
    (hearly : p.early = false ∨ q = 0 ∧ s.initialised = false) (hq : q = 0 ∨ s.initialised = true)
    (hsettled : (∀ x, s.destroyed x = false) ∨ p.starting = false) : Inv turnstile (s.goto q p) := by
  have hother : ∀ {q'}, q' ≠ q → (s.goto q p).main q' = s.main q' :=
    fun hne => Function.update_of_ne hne ..
  have hself : (s.goto q p).main q = p := Function.update_self ..
  refine ⟨fun q' => ?_, h.absent, h.sem, fun hinit => ?_, h.head, fun x hx q' => ?_, h.misused⟩
  · by_cases hne : q' = q
    · subst hne
      rw [hself]
      exact hplace.mono rfl (fun _ => id) (fun _ => id)
    · rw [hother hne]
      exact (h.place q').mono rfl (fun _ => id) (fun _ => id)
  · have hfalse : s.initialised = false ∧ q = 0 := by
      by_cases hzero : q = 0
      · subst hzero
        rw [SegmentState.initialised, hself, Bool.not_eq_false'] at hinit
        obtain hearly | ⟨-, hfalse⟩ := hearly
        · rw [hearly] at hinit
          cases hinit
        · exact ⟨hfalse, rfl⟩
      · rw [SegmentState.initialised, hother (Ne.symm hzero)] at hinit
        exact absurd (hq.resolve_left hzero) (by rw [SegmentState.initialised, hinit]; decide)
    obtain ⟨hidle, hnone⟩ := h.fresh hfalse.1
    refine ⟨fun q' hq' => ?_, hnone⟩
    rw [hother (hfalse.2 ▸ hq')]
    exact hidle q' hq'
  · obtain hnone | hstarting := hsettled
    · rw [SegmentState.goto, hnone x] at hx
      cases hx
    · obtain ⟨hpending, hmain⟩ := h.settled x hx q'
      refine ⟨hpending, ?_⟩
      by_cases hne : q' = q
      · subst hne
        rw [hself]
        exact hstarting
      · rw [hother hne]
        exact hmain

/-- Only the process that initialises the segment can be on its way before that. -/
theorem Inv.zero_or_initialised (h : Inv turnstile s) (hq : s.main q ≠ .idle) :
    q = 0 ∨ s.initialised = true := by
  by_cases hzero : q = 0
  · exact .inl hzero
  · refine .inr ?_
    by_contra hinit
    exact hq ((h.fresh (Bool.eq_false_of_not_eq_true hinit)).1 q hzero)

theorem initialised_of_early (hq : (s.main 0).early = true) : s.initialised = false := by
  rw [SegmentState.initialised, hq]
  rfl

theorem Inv.initialised_of_late (h : Inv turnstile s) (hq : (s.main q).early = false) :
    s.initialised = true := by
  obtain rfl | hinit := h.zero_or_initialised (q := q) fun hidle => by rw [hidle] at hq; cases hq
  · rw [SegmentState.initialised, hq]
    rfl
  · exact hinit

theorem head_eq {x : Sem} {left : List Sem} (h : semaphores turnstile = x :: left) :
    head turnstile = x := by
  cases turnstile <;> cases h <;> rfl

theorem isRunning_setRunning (s : SegmentState) (q : Nat) (b : Bool) :
    (s.setRunning q b).shared.isRunning q = b := by
  simp only [SegmentState.setRunning, Function.update_self]

theorem Inv.setRunning (h : Inv turnstile s) {b : Bool} (hq : s.main q = .idle ∨ s.main q = .sleep)
    (hb : (∀ x, s.destroyed x = false) ∨ b = false) : Inv turnstile (s.setRunning q b) := by
  have hother : ∀ {q'}, q' ≠ q → (s.setRunning q b).shared.isRunning q' = s.shared.isRunning q' :=
    fun hne => Function.update_of_ne hne ..
  refine ⟨fun q' => ?_, h.absent, h.sem, h.fresh, h.head, fun x hx q' => ?_, h.misused⟩
  · by_cases hne : q' = q
    · subst hne
      obtain hq | hq := hq <;> (change Place turnstile _ q' (s.main q'); rw [hq]; trivial)
    · exact (h.place q').mono (hother hne) (fun _ => id) (fun _ => id)
  · obtain hnone | rfl := hb
    · rw [SegmentState.setRunning, hnone x] at hx
      cases hx
    · obtain ⟨hpending, hmain⟩ := h.settled x hx q'
      refine ⟨fun k => ?_, hmain⟩
      by_cases hne : q' = q
      · subst hne
        simp only [SegmentState.setRunning, Function.update_self]
        exact pending_false (hpending k)
      · rw [hother hne]
        exact hpending k

theorem Inv.not_destroyed (h : Inv turnstile s) (hq : (s.main q).starting = true) (x : Sem) :
    s.destroyed x = false := by
  by_contra hx
  have hstarting := (h.settled x (Bool.eq_true_of_not_eq_false hx) q).2
  rw [hq] at hstarting
  cases hstarting

theorem sem_start (n : Nat) : (start n).sem = none := by
  unfold start
  split <;> rfl

theorem Inv.setThread (h : Inv turnstile s) {n : Nat} (hq : s.main q = .spawn n) :
    Inv turnstile (s.setThread q n (start n)) := by
  have hplace := h.place q
  rw [hq] at hplace
  have hnone := h.not_destroyed (q := q) (by rw [hq]; rfl)
  refine ⟨fun q' => ?_, fun q' k hk => ?_, ?_, h.fresh, h.head, fun x hx => ?_, h.misused⟩
  · by_cases hne : q' = q
    · subst hne
      change Place turnstile _ q' (s.main q')
      rw [hq]
      exact hplace
    · refine (h.place q').mono rfl (fun k hdone => ?_) (fun _ => id)
      rwa [setThread_other fun heq => hne heq.1]
  · have hk' : k ≠ n := fun heq => absurd hplace.1 (by omega)
    rw [setThread_other fun heq => hk' heq.2]
    exact h.absent q' k hk
  · refine setThread_forall (R := fun _ _ p => ∀ x, p.sem = some x → x ∈ semaphores turnstile) h.sem ?_
    intro x hx
    rw [sem_start] at hx
    cases hx
  · rw [SegmentState.setThread, hnone x] at hx
    cases hx

theorem destroyed_mono {y : Sem} (x : Sem) (hy : s.destroyed y = true) :
    (s.setDestroyed x true).destroyed y = true := by
  by_cases hyx : y = x
  · subst hyx
    exact Function.update_self ..
  · exact (Function.update_of_ne hyx ..).trans hy

theorem left_of_destroy {x : Sem} {left : List Sem}
    (h : ∀ y ∈ semaphores turnstile, y ∈ x :: left ∨ s.destroyed y = true) :
    ∀ y ∈ semaphores turnstile, y ∈ left ∨ (s.setDestroyed x true).destroyed y = true := by
  intro y hy
  obtain hmem | hy := h y hy
  · obtain rfl | hmem := List.mem_cons.mp hmem
    · exact .inr (Function.update_self ..)
    · exact .inl hmem
  · exact .inr (destroyed_mono x hy)

theorem Inv.setDestroyed (h : Inv turnstile s) {x : Sem} {left : List Sem}
    (hq : s.main q = .semDestroy (x :: left)) (hothers : ∀ q' ≠ q, Settled s q') :
    Inv turnstile (s.setDestroyed x true) := by
  have hplace := h.place q
  rw [hq] at hplace
  have hmono := fun y => destroyed_mono (s := s) (y := y) x
  refine ⟨fun q' => ?_, h.absent, h.sem, fun hinit => ?_, fun y hy => ?_, fun y hy q' => ?_, h.misused⟩
  · exact (h.place q').mono rfl (fun _ => id) hmono
  · have htrue := h.initialised_of_late (q := q) (by rw [hq]; rfl)
    exact absurd (htrue.symm.trans hinit) (by decide)
  · by_cases hyx : y = x
    · obtain hall | hhead := hplace.2.1
      · rw [head_eq hall.symm]
        exact Function.update_self ..
      · exact hmono _ hhead
    · exact hmono _ (h.head y ((Function.update_of_ne hyx ..).symm.trans hy))
  · by_cases hne : q' = q
    · subst hne
      refine ⟨fun k => pending_of_done (hplace.1 k) _, ?_⟩
      change (s.main q').starting = false
      rw [hq]
      rfl
    · exact hothers q' hne

theorem Inv.setShared (h : Inv turnstile s) {m : SharedMemory} (hm : m.isRunning = s.shared.isRunning) :
    Inv turnstile { s with shared := m } := by
  have hrunning : ∀ q, m.isRunning q = s.shared.isRunning q := congrFun hm
  refine ⟨fun q => (h.place q).mono (hrunning q) (fun _ => id) (fun _ => id), h.absent, h.sem, h.fresh,
    h.head, fun x hx q => ⟨fun k => ?_, (h.settled x hx q).2⟩, h.misused⟩
  change ThreadPc.pending (m.isRunning q) _ = false
  rw [hrunning]
  exact (h.settled x hx q).1 k

theorem isRunning_semInit (m : SharedMemory) (x : Sem) :
    (SharedMemory.semInit m x).isRunning = m.isRunning := by
  cases x <;> rfl

theorem setDestroyed_false {x : Sem} (hx : s.destroyed x = false) : s.setDestroyed x false = s := by
  rw [SegmentState.setDestroyed, ← hx, Function.update_eq_self]

theorem Inv.starts (h : Inv turnstile s) (hc : Orderly s (.main q)) (hq : s.main q = .idle)
    (hs : mainNext turnstile s q .idle = some s') : Inv turnstile s' := by
  rw [mainNext] at hs
  split at hs
  · next hzero =>
    subst hzero
    have hinit := initialised_of_early (s := s) (by rw [hq]; rfl)
    have hnone := (h.fresh hinit).2
    cases hs
    exact (h.setRunning (.inl hq) (.inl hnone)).goto ⟨rfl, isRunning_setRunning s 0 true⟩
      (.inr ⟨rfl, hinit⟩) (.inl rfl) (.inl hnone)
  · next hzero =>
    rw [Option.ite_none_right_eq_some] at hs
    obtain ⟨hinit, hs⟩ := hs
    have hnone : ∀ x, s.destroyed x = false := fun x => hc.start q x rfl hzero hq
    cases hs
    exact (h.setRunning (.inl hq) (.inl hnone)).goto ⟨by decide, isRunning_setRunning s q true⟩
      (.inl rfl) (.inr hinit) (.inl hnone)

theorem Inv.initialises (h : Inv turnstile s) {left : List Sem} (hq : s.main q = .semInit left)
    (hs : mainNext turnstile s q (.semInit left) = some s') : Inv turnstile s' := by
  have hnone := h.not_destroyed (q := q) (by rw [hq]; rfl)
  have hplace := h.place q
  rw [hq] at hplace
  obtain ⟨rfl, hrunning⟩ := hplace
  have hinit := initialised_of_early (s := s) (by rw [hq]; rfl)
  cases left with
  | nil =>
    cases hs
    exact h.goto ⟨by decide, hrunning⟩ (.inl rfl) (.inl rfl) (.inl hnone)
  | cons x left =>
    have hshared := h.setShared (isRunning_semInit s.shared x)
    have hsame := setDestroyed_false (s := { s with shared := SharedMemory.semInit s.shared x }) (hnone x)
    rw [mainNext, hsame] at hs
    cases hs
    refine hshared.goto (p := .semInit _) ⟨rfl, ?_⟩ (.inr ⟨rfl, hinit⟩) (.inl rfl) (.inl hnone)
    rw [isRunning_semInit]
    exact hrunning

theorem Inv.joins (h : Inv turnstile s) {n : Nat} (hq : s.main q = .join n)
    (hs : mainNext turnstile s q (.join n) = some s') : Inv turnstile s' := by
  have hinit := h.initialised_of_late (q := q) (by rw [hq]; rfl)
  have hplace := h.place q
  rw [hq] at hplace
  rw [mainNext] at hs
  split at hs
  · rw [Option.ite_none_right_eq_some] at hs
    obtain ⟨hdone, hs⟩ := hs
    cases hs
    refine h.goto (fun k hk => ?_) (.inl rfl) (.inr hinit) (.inr rfl)
    obtain hlt | rfl := Nat.lt_succ_iff_lt_or_eq.mp hk
    · exact hplace k hlt
    · exact hdone
  · next hn =>
    cases hs
    refine h.goto ⟨fun k => ?_, .inl rfl, fun x hx => .inl hx⟩ (.inl rfl) (.inr hinit) (.inr rfl)
    by_cases hk : k < n
    · exact hplace k hk
    · rw [h.absent q k (by omega)]
      rfl

theorem Inv.destroys (h : Inv turnstile s) (hc : Orderly s (.main q)) {left : List Sem}
    (hq : s.main q = .semDestroy left) (hs : mainNext turnstile s q (.semDestroy left) = some s') :
    Inv turnstile s' := by
  have hinit := h.initialised_of_late (q := q) (by rw [hq]; rfl)
  have hplace := h.place q
  rw [hq] at hplace
  cases left with
  | nil =>
    cases hs
    exact h.goto hplace.1 (.inl rfl) (.inr hinit) (.inr rfl)
  | cons x left =>
    have hdestroyed := h.setDestroyed hq (hc.destroy q x left rfl hq)
    have hself : (s.setDestroyed x true).destroyed x = true := Function.update_self ..
    cases hs
    exact hdestroyed.goto ⟨hplace.1, .inr (hdestroyed.head x hself), left_of_destroy hplace.2.2⟩
      (.inl rfl) (.inr hinit) (.inr rfl)

theorem Inv.main (h : Inv turnstile s) (hc : Orderly s (.main q))
    (hs : mainNext turnstile s q (s.main q) = some s') : Inv turnstile s' := by
  have hplace := h.place q
  cases hq : s.main q with
  | idle => exact h.starts hc hq (hq ▸ hs)
  | memset =>
    have hnone := h.not_destroyed (q := q) (by rw [hq]; rfl)
    rw [hq] at hs hplace
    obtain ⟨rfl, hrunning⟩ := hplace
    have hinit := initialised_of_early (s := s) (by rw [hq]; rfl)
    cases hs
    exact (h.setShared (m := SharedMemory.memset s.shared) rfl).goto (p := .semInit _) ⟨rfl, hrunning⟩
      (.inr ⟨rfl, hinit⟩) (.inl rfl) (.inl hnone)
  | semInit left => exact h.initialises hq (hq ▸ hs)
  | spawn n =>
    have hnone := h.not_destroyed (q := q) (by rw [hq]; rfl)
    have hinit := h.initialised_of_late (q := q) (by rw [hq]; rfl)
    rw [hq] at hs hplace
    cases hs
    refine (h.setThread hq).goto ?_ (.inl ?_) (.inr hinit) (.inl hnone)
    · split
      · next hn => exact ⟨hn, hplace.2⟩
      · trivial
    · split <;> rfl
  | sleep =>
    have hinit := h.initialised_of_late (q := q) (by rw [hq]; rfl)
    rw [hq] at hs
    cases hs
    exact (h.setRunning (.inr hq) (.inr rfl)).goto (fun k hk => absurd hk (Nat.not_lt_zero k)) (.inl rfl)
      (.inr hinit) (.inr rfl)
  | join n => exact h.joins hq (hq ▸ hs)
  | semDestroy left => exact h.destroys hc hq (hq ▸ hs)
  | shmdt =>
    have hinit := h.initialised_of_late (q := q) (by rw [hq]; rfl)
    rw [hq] at hs hplace
    cases hs
    exact h.goto hplace (.inl rfl) (.inr hinit) (.inr rfl)
  | ended =>
    rw [hq] at hs
    cases hs

theorem Inv.init (h : Initial s) : Inv turnstile s := by
  refine ⟨fun q => ?_, fun q k _ => h.thread q k, fun q k x hx => ?_,
    fun _ => ⟨fun q _ => h.main q, h.destroyed⟩, fun x hx => ?_, fun x hx => ?_, h.misused⟩
  · rw [h.main]
    trivial
  · rw [h.thread] at hx
    cases hx
  · rw [h.destroyed] at hx
    cases hx
  · rw [h.destroyed] at hx
    cases hx

theorem Inv.step {a : Action} (h : Inv turnstile s) (hc : Orderly s a)
    (hs : step turnstile s a = some s') : Inv turnstile s' := by
  cases a with
  | main q => exact h.main hc hs
  | thread q k => exact h.thread (step_thread hs)

abbrev Misuses (turnstile : Bool) (s : SegmentState) : Prop :=
  CanReach (system turnstile) (fun t => ¬ t.misused = false) s

theorem misuses_of_sem {x : Sem} (hx : (s.thread q k).sem = some x) (hdestroyed : s.destroyed x = true) :
    Misuses turnstile s := by
  have hany : (s.thread q k).sem.any s.destroyed = true := (Option.any_eq_true _ _).mpr ⟨x, hx, hdestroyed⟩
  have hstep : (system turnstile).step s (.thread q k) = some { s with misused := true } := if_pos hany
  exact .step (.now (by simp)) hstep

theorem misuses_of_run {m : SharedMemory} {p : ThreadPc} (hsem : (s.thread q k).sem = none)
    (hnext : threadNext turnstile q s.shared (s.thread q k) = some (m, p))
    (h : Misuses turnstile ({ s with shared := m }.setThread q k p)) : Misuses turnstile s := by
  refine CanReach.step (a := .thread q k) h ?_
  change SemaphoreLifetime.step turnstile s (.thread q k) = _
  rw [SemaphoreLifetime.step, hsem, Option.any_none, if_neg (by decide), hnext]
  rfl

def distance : ThreadPc → Nat
  | .writer .load => 2
  | .writer (.store _) | .writer .sleep => 1
  | _ => 0

theorem exists_firstWait (turnstile : Bool) {m : SharedMemory} (hrunning : m.isRunning q = true) :
    ∃ p, reader turnstile q m .loop = some (m, p) ∧ readerSem p = some (head turnstile) := by
  rw [reader, if_pos hrunning]
  cases turnstile
  · exact ⟨.waitMx, rfl, rfl⟩
  · exact ⟨.waitIn, rfl, rfl⟩

theorem exists_readerNext (turnstile : Bool) {m : SharedMemory} {p : ReaderPc} (hp : readerSem p = none)
    (hpending : (ThreadPc.reader p).pending (m.isRunning q) = true) :
    ∃ m' p' x, reader turnstile q m p = some (m', p') ∧ readerSem p' = some x := by
  cases p with
  | loop =>
    obtain ⟨p', hnext, hhead⟩ := exists_firstWait turnstile hpending
    exact ⟨m, p', head turnstile, hnext, hhead⟩
  | count =>
    rw [reader]
    split
    · exact ⟨_, .waitWrt, .wrt, rfl, rfl⟩
    · exact ⟨_, .postMx, .mx, rfl, rfl⟩
  | critical => exact ⟨m, .exitWaitMx, .mx, rfl, rfl⟩
  | uncount =>
    rw [reader]
    split
    · exact ⟨_, .exitPostWrt, .wrt, rfl, rfl⟩
    · exact ⟨_, .exitPostMx, .mx, rfl, rfl⟩
  | finished => cases hpending
  | waitIn | waitMx | waitWrt | postMx | postIn | exitWaitMx | exitPostWrt | exitPostMx => cases hp

theorem exists_threadNext (turnstile : Bool) {m : SharedMemory} {p : ThreadPc} (hp : p.sem = none)
    (hpending : p.pending (m.isRunning q) = true) :
    ∃ m' p', threadNext turnstile q m p = some (m', p') ∧ p'.pending (m.isRunning q) = true ∧
      (p'.sem = none → distance p' < distance p) := by
  cases p with
  | absent => cases hpending
  | reader p =>
    obtain ⟨m', p', x, hnext, hx⟩ := exists_readerNext turnstile hp hpending
    refine ⟨m', .reader p', ?_, pending_of_sem (p := .reader p') hx _, fun hnone => ?_⟩
    · rw [threadNext, hnext, Option.map_some]
    · exact absurd (hx.symm.trans hnone) (Option.some_ne_none x)
  | writer p =>
    cases p with
    | loop =>
      have hrunning : m.isRunning q = true := hpending
      rw [threadNext, writer, if_pos hrunning]
      cases turnstile
      · exact ⟨m, .writer .waitWrt, rfl, rfl, fun hnone => absurd hnone (Option.some_ne_none _)⟩
      · exact ⟨m, .writer .waitIn, rfl, rfl, fun hnone => absurd hnone (Option.some_ne_none _)⟩
    | load => exact ⟨m, .writer (.store m.increment), rfl, rfl, fun _ => Nat.lt_succ_self 1⟩
    | store value => exact ⟨_, .writer .print, rfl, rfl, fun _ => Nat.zero_lt_one⟩
    | print => exact ⟨m, .writer .postWrt, rfl, rfl, fun hnone => absurd hnone (Option.some_ne_none _)⟩
    | sleep => exact ⟨m, .writer .loop, rfl, hpending, fun _ => Nat.zero_lt_one⟩
    | finished => cases hpending
    | waitIn | waitWrt | postWrt | postIn => cases hp

theorem misuses_of_pending (hall : ∀ x ∈ semaphores turnstile, s.destroyed x = true)
    (hsem : ∀ x, (s.thread q k).sem = some x → x ∈ semaphores turnstile)
    (hpending : (s.thread q k).pending (s.shared.isRunning q) = true) : Misuses turnstile s := by
  induction hd : distance (s.thread q k) using Nat.strong_induction_on generalizing s with
  | h n ih =>
    cases hp : (s.thread q k).sem with
    | some x => exact misuses_of_sem hp (hall x (hsem x hp))
    | none =>
      obtain ⟨m, p, hnext, hpending', hlt⟩ := exists_threadNext turnstile hp hpending
      have hruns := threadNext_runs hnext
      have hself := setThread_self { s with shared := m } q k p
      refine misuses_of_run hp hnext ?_
      cases hp' : p.sem with
      | some x =>
        exact misuses_of_sem (by rw [hself]; exact hp') (hall x (hruns.sem x hp'))
      | none =>
        refine ih (distance p) (hd ▸ hlt hp') hall ?_ ?_ (by rw [hself])
        · rw [hself]
          exact hruns.sem
        · rw [hself]
          change p.pending (m.isRunning q) = true
          rwa [hruns.isRunning]

theorem pending_start (n : Nat) (b : Bool) : (start n).pending b = b := by
  unfold start
  split <;> rfl

theorem step_main {p : MainPc} (hq : s.main q = p) (h : mainNext turnstile s q p = some s') :
    (system turnstile).step s (.main q) = some s' := by
  subst hq
  exact h

theorem misuses_of_spawn {n : Nat} (hall : ∀ x ∈ semaphores turnstile, s.destroyed x = true)
    (hq : s.main q = .spawn n) (hrunning : s.shared.isRunning q = true) : Misuses turnstile s := by
  refine CanReach.step ?_ (step_main hq rfl)
  refine misuses_of_pending (q := q) (k := n) hall ?_ ?_
  · intro x hx
    change ((s.setThread q n (start n)).thread q n).sem = some x at hx
    rw [setThread_self, sem_start] at hx
    cases hx
  · change ThreadPc.pending (s.shared.isRunning q) ((s.setThread q n (start n)).thread q n) = true
    rw [setThread_self, pending_start]
    exact hrunning

theorem misuses_of_semDestroy {left : List Sem} (hq : s.main q = .semDestroy left)
    (hleft : ∀ x ∈ semaphores turnstile, x ∈ left ∨ s.destroyed x = true)
    (h : ∀ t, t.shared = s.shared → t.thread = s.thread → (∀ q' ≠ q, t.main q' = s.main q') →
      (∀ x ∈ semaphores turnstile, t.destroyed x = true) → Misuses turnstile t) : Misuses turnstile s := by
  induction left generalizing s with
  | nil => exact h s rfl rfl (fun _ _ => rfl) fun x hx => (hleft x hx).resolve_left nofun
  | cons x left ih =>
    refine CanReach.step ?_ (step_main hq rfl)
    refine ih (Function.update_self ..) (left_of_destroy hleft) fun t hshared hthread hmain => ?_
    exact h t hshared hthread fun q' hq' => (hmain q' hq').trans (Function.update_of_ne hq' ..)

theorem misuses_of_first (hq : s.main q = .spawn 0) (hrunning : s.shared.isRunning q = true)
    (hhead : s.destroyed (head turnstile) = true) : Misuses turnstile s := by
  refine CanReach.step ?_ (step_main hq rfl)
  obtain ⟨p, hnext, hp⟩ := exists_firstWait turnstile hrunning
  have hreader : (s.setThread q 0 (start 0)).thread q 0 = .reader .loop := setThread_self s q 0 (start 0)
  refine misuses_of_run (q := q) (k := 0) (m := s.shared) (p := .reader p) ?_ ?_ ?_
  · exact congrArg ThreadPc.sem hreader
  · refine (congrArg _ hreader).trans ?_
    rw [threadNext]
    exact congrArg (Option.map _) hnext
  · refine misuses_of_sem (q := q) (k := 0) (x := head turnstile) ?_ hhead
    rw [setThread_self]
    exact hp

theorem Inv.misuses_of_unsettled (h : Inv turnstile s) {q' : Nat} {x : Sem} {left : List Sem}
    (hq : s.main q = .semDestroy (x :: left)) (hne : q' ≠ q) (hsettled : ¬ Settled s q')
    {t : SegmentState} (hshared : t.shared = s.shared) (hthread : t.thread = s.thread)
    (hmain : t.main q' = s.main q') (hall : ∀ x ∈ semaphores turnstile, t.destroyed x = true) :
    Misuses turnstile t := by
  by_cases hpending : ∀ k, (s.thread q' k).pending (s.shared.isRunning q') = false
  · have hstarting : (s.main q').starting = true := by
      by_contra hstarting
      exact hsettled ⟨hpending, Bool.eq_false_of_not_eq_true hstarting⟩
    have hplace := h.place q'
    cases hp : s.main q' with
    | spawn n =>
      rw [hp] at hplace hmain
      exact misuses_of_spawn hall hmain (by rw [hshared]; exact hplace.2)
    | memset | semInit =>
      rw [hp] at hplace
      obtain ⟨rfl, -⟩ := hplace
      have hinit := initialised_of_early (s := s) (by rw [hp]; rfl)
      have hidle := (h.fresh hinit).1 q hne.symm
      rw [hq] at hidle
      cases hidle
    | idle | sleep | join | semDestroy | shmdt | ended =>
      rw [hp] at hstarting
      cases hstarting
  · push Not at hpending
    obtain ⟨k, hpending⟩ := hpending
    refine misuses_of_pending (q := q') (k := k) hall ?_ ?_
    · rw [hthread]
      exact h.sem q' k
    · rw [hthread, hshared]
      exact Bool.eq_true_of_not_eq_false hpending

theorem Inv.sharp {a : Action} (h : Inv turnstile s) (hs : SemaphoreLifetime.step turnstile s a = some s')
    (hc : ¬ Orderly s a) : Misuses turnstile s' := by
  by_cases hdestroy : ∀ q x left, a = .main q → s.main q = .semDestroy (x :: left) → ∀ q' ≠ q, Settled s q'
  · have hstart : ¬ ∀ q x, a = .main q → q ≠ 0 → s.main q = .idle → s.destroyed x = false :=
      fun hstart => hc ⟨hdestroy, hstart⟩
    push Not at hstart
    obtain ⟨q, x, rfl, hzero, hidle, hx⟩ := hstart
    change mainNext turnstile s q (s.main q) = some s' at hs
    rw [hidle, mainNext, if_neg hzero, Option.ite_none_right_eq_some] at hs
    obtain ⟨-, hs⟩ := hs
    cases hs
    exact misuses_of_first (Function.update_self ..) (isRunning_setRunning s q true)
      (h.head x (Bool.eq_true_of_not_eq_false hx))
  · push Not at hdestroy
    obtain ⟨q, x, left, rfl, hq, q', hne, hsettled⟩ := hdestroy
    have hplace := h.place q
    rw [hq] at hplace
    have hs' : some ((s.setDestroyed x true).goto q (.semDestroy left)) = some s' := by
      rw [← hs, SemaphoreLifetime.step, hq]
      rfl
    cases hs'
    have hself : ((s.setDestroyed x true).goto q (.semDestroy left)).main q = .semDestroy left :=
      Function.update_self ..
    refine misuses_of_semDestroy hself (left_of_destroy hplace.2.2) fun t hshared hthread hmain hall => ?_
    exact h.misuses_of_unsettled hq hne hsettled hshared hthread
      ((hmain q' hne).trans (Function.update_of_ne hne ..)) hall

/-- The semaphores outlive their users in the runs whose steps are orderly, and in no others. -/
theorem outlive_exactCondition (turnstile : Bool) :
    ExactCondition (system turnstile) Orderly (fun s => s.misused = false) :=
  exactCondition_of_invariant (Inv turnstile) (fun _ h => .init h) (fun _ _ _ h hc hs => h.step hc hs)
    (fun _ h => h.misused) (fun _ _ _ h hs hc => h.sharp hs hc)

def initial : SegmentState :=
  ⟨⟨0, 0, 0, 0, 0, fun _ => false, 0⟩, fun _ => false, false, fun _ => .idle, fun _ _ => .absent⟩

theorem initial_initial : Initial initial := ⟨fun _ => rfl, rfl, fun _ => rfl, fun _ _ => rfl⟩

def overlappingRun (turnstile : Bool) : List Action :=
  List.replicate (maxThreads + 4 + (semaphores turnstile).length) (.main 0) ++ [.main 1, .main 1] ++
    (List.range maxThreads).map (.thread 0) ++
    List.replicate (maxThreads + 1 + (semaphores turnstile).length) (.main 0) ++ [.thread 1 0, .thread 1 0]

theorem exists_reachable_misused :
    (∃ s, Reachable (system false) s ∧ s.misused = true) ∧
      ∃ s, Reachable (system true) s ∧ s.misused = true :=
  ⟨exists_reachable initial_initial (overlappingRun false) (by decide +kernel),
    exists_reachable initial_initial (overlappingRun true) (by decide +kernel)⟩

end RoblSampleCodes.SemaphoreLifetime
