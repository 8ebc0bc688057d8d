import RoblSampleCodes.ThreadProgram

namespace RoblSampleCodes.StarveFreeLock

open TransitionSystem ThreadProgram

/-- The data members. The counters are `int`: signed overflow is undefined, so
each defined run of the code is a run over `Int`. -/
structure Members where
  readerCount : Int
  writerWaitingCount : Int
  writing : Bool
  deriving DecidableEq

inductive Cv
  | readerCv
  | writerCv
  deriving DecidableEq

/-- Places in `lock_shared`. At `awake` the wait has to get the mutex again. -/
inductive LockSharedPc
  | test
  | asleep
  | awake
  | increment
  | unlock
  deriving DecidableEq

inductive UnlockSharedPc
  | decrement
  | notify
  | unlock
  deriving DecidableEq

inductive LockPc
  | arrive
  | test
  | asleep
  | awake
  | leave
  | setWriting
  | unlock
  deriving DecidableEq

inductive UnlockPc
  | clearWriting
  | check
  | notifyOne
  | notifyAll
  | unlock
  deriving DecidableEq

/-- Where a thread is. Outside the four operations it holds nothing, or holds
the lock shared (`reading`) or exclusively (`writing`). -/
inductive Pc
  | outside
  | finished
  | lockShared (p : LockSharedPc)
  | reading
  | unlockShared (p : UnlockSharedPc)
  | lock (p : LockPc)
  | writing
  | unlock (p : UnlockPc)
  deriving DecidableEq

inductive Call
  | lockShared
  | lock
  | finish
  deriving DecidableEq

abbrev Next := Option (Members × Pc × Effect Unit Cv)

def lockShared (m : Members) : LockSharedPc → Next
  | .test =>
    if m.writerWaitingCount == 0 && !m.writing then some (m, .lockShared .increment, .none)
    else some (m, .lockShared .asleep, .unlock ())
  | .asleep => none
  | .awake => some (m, .lockShared .test, .lock ())
  | .increment => some ({ m with readerCount := m.readerCount + 1 }, .lockShared .unlock, .none)
  | .unlock => some (m, .reading, .unlock ())

def unlockShared (m : Members) : UnlockSharedPc → Next
  | .decrement =>
    let m' := { m with readerCount := m.readerCount - 1 }
    if m'.readerCount == 0 && decide (m'.writerWaitingCount > 0) then
      some (m', .unlockShared .notify, .none)
    else some (m', .unlockShared .unlock, .none)
  | .notify => some (m, .unlockShared .unlock, .notifyOne .writerCv)
  | .unlock => some (m, .outside, .unlock ())

def lock (m : Members) : LockPc → Next
  | .arrive => some ({ m with writerWaitingCount := m.writerWaitingCount + 1 }, .lock .test, .none)
  | .test =>
    if m.readerCount == 0 && !m.writing then some (m, .lock .leave, .none)
    else some (m, .lock .asleep, .unlock ())
  | .asleep => none
  | .awake => some (m, .lock .test, .lock ())
  | .leave => some ({ m with writerWaitingCount := m.writerWaitingCount - 1 }, .lock .setWriting, .none)
  | .setWriting => some ({ m with writing := true }, .lock .unlock, .none)
  | .unlock => some (m, .writing, .unlock ())

def unlock (m : Members) : UnlockPc → Next
  | .clearWriting => some ({ m with writing := false }, .unlock .check, .none)
  | .check =>
    if m.writerWaitingCount > 0 then some (m, .unlock .notifyOne, .none)
    else some (m, .unlock .notifyAll, .none)
  | .notifyOne => some (m, .unlock .unlock, .notifyOne .writerCv)
  | .notifyAll => some (m, .unlock .unlock, .notifyAll .readerCv)
  | .unlock => some (m, .outside, .unlock ())

/-- A thread calls the operations in matched pairs. A call takes effect when
it gets `mutex_`; until then the thread is where it was before the call. -/
def next (m : Members) : Pc → Call → Next
  | .outside, .lockShared => some (m, .lockShared .test, .lock ())
  | .outside, .lock => some (m, .lock .arrive, .lock ())
  | .outside, .finish => some (m, .finished, .none)
  | .finished, _ => none
  | .lockShared p, _ => lockShared m p
  | .reading, _ => some (m, .unlockShared .decrement, .lock ())
  | .unlockShared p, _ => unlockShared m p
  | .lock p, _ => lock m p
  | .writing, _ => some (m, .unlock .clearWriting, .lock ())
  | .unlock p, _ => unlock m p

def asleep : Pc → Option Cv
  | .lockShared .asleep => some .readerCv
  | .lock .asleep => some .writerCv
  | _ => none

def wake : Pc → Pc
  | .lockShared .asleep => .lockShared .awake
  | .lock .asleep => .lock .awake
  | p => p

def program : Program Members Pc Call Unit Cv where
  next := next
  asleep := asleep
  wake := wake
  asleep_wake p := by rcases p with _ | _ | p | _ | p | p | _ | p <;> first | rfl | (cases p <;> rfl)
  next_asleep m p c h := by
    rcases p with _ | _ | p | _ | p | p | _ | p <;> first | exact absurd rfl h | skip
    all_goals cases p <;> first | rfl | exact absurd rfl h

variable {T : Type} [DecidableEq T] [Fintype T]

abbrev LockState (T : Type) := State Members Pc Unit T

def initial : LockState T := ⟨⟨0, 0, false⟩, fun _ => none, fun _ => .outside⟩

def system : System (LockState T) (Action T Call) := program.system (· = initial)

def holdsMutex : Pc → Bool
  | .outside | .finished | .reading | .writing => false
  | .lockShared .asleep | .lockShared .awake | .lock .asleep | .lock .awake => false
  | .lockShared _ | .unlockShared _ | .lock _ | .unlock _ => true

end RoblSampleCodes.StarveFreeLock
