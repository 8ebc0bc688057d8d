import RoblSampleCodes.ThreadProgram

namespace RoblSampleCodes.ThreadPool

open TransitionSystem ThreadProgram

/-- A `packaged_task`. It throws when it is called without a callable or for
the second time. -/
inductive PackagedTask (J : Type)
  | empty
  | fresh (job : J)
  | spent (job : J)
  deriving DecidableEq

/-- The members of the pool, what `join` waits for, and the history of the
jobs posted, dequeued and invoked, the latter two with the worker's index. -/
structure Members (J : Type) where
  isActive : Bool
  pendingJobs : List (PackagedTask J)
  launched : Nat
  exited : Nat → Bool
  posted : List J
  dequeued : List (Nat × PackagedTask J)
  invoked : List (Nat × J)

inductive PostPc (J : Type)
  | outside
  | emplace (job : J)
  | notify
  | unlock
  deriving DecidableEq

/-- Places in `run`. The predicate of `cv.wait` is evaluated at `test`, and
going to sleep is a step of its own. A job may post to the pool while it is
`running`. -/
inductive RunPc (J : Type)
  | created
  | loop
  | acquire
  | test
  | sleep
  | asleep
  | awake
  | check
  | swap
  | pop
  | unlock
  | invoke
  | running (p : PostPc J)
  | breakUnlock
  | leave
  | exited
  | undefined
  | terminated
  deriving DecidableEq

inductive OwnerPc
  | construct (k : Nat)
  | alive
  | notifyAll
  | join (k : Nat)
  | returned
  deriving DecidableEq

inductive Pc (J : Type)
  | worker (k : Nat) (job : PackagedTask J) (p : RunPc J)
  | poster (p : PostPc J)
  | owner (p : OwnerPc)
  deriving DecidableEq

inductive Call (J : Type)
  | post (job : J)
  | finish
  deriving DecidableEq

variable {J : Type}

abbrev Next (J P : Type) := Option (Members J × P × Effect Unit Unit)

def post (m : Members J) : PostPc J → Call J → Next J (PostPc J)
  | .outside, .post job => some (m, .emplace job, .lock ())
  | .outside, .finish => none
  | .emplace job, _ =>
    some ({ m with pendingJobs := m.pendingJobs ++ [.fresh job], posted := m.posted ++ [job] },
      .notify, .none)
  | .notify, _ => some (m, .unlock, .notifyOne ())
  | .unlock, _ => some (m, .outside, .unlock ())

/-- `run` is `noexcept`: an exception of `job()` terminates the program. The
front of an empty queue is undefined. -/
def run (m : Members J) (k : Nat) (job : PackagedTask J) :
    RunPc J → Call J → Next J (PackagedTask J × RunPc J)
  | .created, _ => if k < m.launched then some (m, (job, .loop), .none) else none
  | .loop, _ => some (m, (job, if m.isActive then .acquire else .leave), .none)
  | .acquire, _ => some (m, (job, .test), .lock ())
  | .test, _ =>
    some (m, (job, if !m.pendingJobs.isEmpty || !m.isActive then .check else .sleep), .none)
  | .sleep, _ => some (m, (job, .asleep), .unlock ())
  | .asleep, _ => none
  | .awake, _ => some (m, (job, .test), .lock ())
  | .check, _ => some (m, (job, if !m.isActive then .breakUnlock else .swap), .none)
  | .swap, _ =>
    match m.pendingJobs with
    | front :: rest => some ({ m with pendingJobs := job :: rest }, (front, .pop), .none)
    | [] => some (m, (job, .undefined), .none)
  | .pop, _ =>
    some ({ m with pendingJobs := m.pendingJobs.tail, dequeued := m.dequeued ++ [(k, job)] },
      (job, .unlock), .none)
  | .unlock, _ => some (m, (job, .invoke), .unlock ())
  | .invoke, _ =>
    match job with
    | .fresh j => some ({ m with invoked := m.invoked ++ [(k, j)] }, (.spent j, .running .outside), .none)
    | _ => some (m, (job, .terminated), .none)
  | .running .outside, .finish => some (m, (job, .loop), .none)
  | .running p, c => (post m p c).map (fun (m', p', e) => (m', (job, .running p'), e))
  | .breakUnlock, _ => some (m, (job, .leave), .unlock ())
  | .leave, _ => some ({ m with exited := Function.update m.exited k true }, (job, .exited), .none)
  | .exited, _ => none
  | .undefined, _ => none
  | .terminated, _ => none

def owner (n : Nat) (m : Members J) : OwnerPc → Next J OwnerPc
  | .construct k =>
    if k < n then some ({ m with launched := k + 1 }, .construct (k + 1), .none)
    else some (m, .alive, .none)
  | .alive => some ({ m with isActive := false }, .notifyAll, .none)
  | .notifyAll => some (m, .join 0, .notifyAll ())
  | .join k =>
    if k < n then
      if m.exited k then some (m, .join (k + 1), .none) else none
    else some (m, .returned, .none)
  | .returned => none

def next (n : Nat) (m : Members J) : Pc J → Call J → Next J (Pc J)
  | .worker k job p, c => (run m k job p c).map (fun (m', (job', p'), e) => (m', .worker k job' p', e))
  | .poster p, c => (post m p c).map (fun (m', p', e) => (m', .poster p', e))
  | .owner p, _ => (owner n m p).map (fun (m', p', e) => (m', .owner p', e))

def asleep : Pc J → Option Unit
  | .worker _ _ .asleep => some ()
  | _ => none

def wake : Pc J → Pc J
  | .worker k job .asleep => .worker k job .awake
  | p => p

theorem asleep_wake (p : Pc J) : asleep (wake p) = none := by
  cases p with
  | worker k job p => cases p <;> rfl
  | poster _ | owner _ => rfl

theorem next_asleep (n : Nat) (m : Members J) (p : Pc J) (c : Call J) (h : asleep p ≠ none) :
    next n m p c = none := by
  cases p with
  | worker k job p => cases p <;> first | rfl | exact absurd rfl h
  | poster _ | owner _ => exact absurd rfl h

def program (J : Type) (n : Nat) : Program (Members J) (Pc J) (Call J) Unit Unit where
  next := next n
  asleep := asleep
  wake := wake
  asleep_wake := asleep_wake
  next_asleep := next_asleep n

inductive Thread (n : Nat) (Q : Type)
  | worker (i : Fin n)
  | poster (q : Q)
  | owner
  deriving DecidableEq, Fintype

variable {Q : Type} {n : Nat}

abbrev PoolState (J : Type) (n : Nat) (Q : Type) := State (Members J) (Pc J) Unit (Thread n Q)

def initial (J : Type) (n : Nat) (Q : Type) : PoolState J n Q where
  shared := ⟨true, [], 0, fun _ => false, [], [], []⟩
  owner := fun _ => none
  pc
    | .worker i => .worker i .empty .created
    | .poster _ => .poster .outside
    | .owner => .owner (.construct 0)

def system (J : Type) (n : Nat) (Q : Type) [DecidableEq Q] [Fintype Q] :
    System (PoolState J n Q) (Action (Thread n Q) (Call J)) :=
  (program J n).system (· = initial J n Q)

end RoblSampleCodes.ThreadPool
