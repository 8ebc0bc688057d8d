import RoblSampleCodes.ProcessThreads

namespace RoblSampleCodes.RwLock

open TransitionSystem ThreadProgram ProcessThreads

structure Rwlock where
  preferWriter : Bool
  readers : Nat
  writer : Bool
  waiting : Nat
  deriving DecidableEq

namespace Rwlock

/-- `pthread_rwlock_rdlock`, which blocks while there is a writer, or while one waits that the lock
prefers. -/
def rdlock (l : Rwlock) : Option Rwlock :=
  if l.writer || (l.preferWriter && decide (0 < l.waiting)) then none
  else some { l with readers := l.readers + 1 }

def wrlock (l : Rwlock) : Rwlock := { l with waiting := l.waiting + 1 }

def wrlocked (l : Rwlock) : Option Rwlock :=
  if l.writer || decide (0 < l.readers) then none
  else some { l with writer := true, waiting := l.waiting - 1 }

def unlock (l : Rwlock) : Rwlock :=
  if l.writer then { l with writer := false } else { l with readers := l.readers - 1 }

end Rwlock

/-- The value of `increment` that a thread loads for its line. Nothing is said of the line itself, which
is several insertions, between which those of other readers may come. -/
inductive Load
  | read (value : Int)
  | wrote (value : Int)
  deriving DecidableEq

/-- The initialised segment, the flags `is_running` of the processes and the loads, the last one first.
The overflow of `increment` is undefined, and only runs without it are meant. -/
structure SharedMemory where
  increment : Int
  rwlock : Rwlock
  isRunning : Nat → Bool
  loads : List Load

inductive ReaderPc
  | loop
  | rdlock
  | print
  | unlock
  | finished
  deriving DecidableEq

inductive WriterPc
  | loop
  | wrlock
  | wait
  | load
  | store (value : Int)
  | print
  | unlock
  | sleep
  | finished
  deriving DecidableEq

abbrev Pc := ThreadPc ReaderPc WriterPc

abbrev start : Role → Pc := Role.start .loop .loop

def reader (q : Nat) (m : SharedMemory) : ReaderPc → Option (SharedMemory × ReaderPc)
  | .loop => if m.isRunning q then some (m, .rdlock) else some (m, .finished)
  | .rdlock => m.rwlock.rdlock.map (fun l => ({ m with rwlock := l }, .print))
  | .print => some ({ m with loads := .read m.increment :: m.loads }, .unlock)
  | .unlock => some ({ m with rwlock := m.rwlock.unlock }, .loop)
  | .finished => none

def writer (q : Nat) (m : SharedMemory) : WriterPc → Option (SharedMemory × WriterPc)
  | .loop => if m.isRunning q then some (m, .wrlock) else some (m, .finished)
  | .wrlock => some ({ m with rwlock := m.rwlock.wrlock }, .wait)
  | .wait => m.rwlock.wrlocked.map (fun l => ({ m with rwlock := l }, .load))
  | .load => some (m, .store m.increment)
  | .store value => some ({ m with increment := value + 1 }, .print)
  | .print => some ({ m with loads := .wrote m.increment :: m.loads }, .unlock)
  | .unlock => some ({ m with rwlock := m.rwlock.unlock }, .sleep)
  | .sleep => some (m, .loop)
  | .finished => none

def code : Code SharedMemory ReaderPc WriterPc where
  reader := reader
  writer := writer
  isRunning m := m.isRunning
  stop q m := { m with isRunning := Function.update m.isRunning q false }
  isRunning_stop _ _ := rfl

abbrev program : Program SharedMemory Pc Unit Empty Empty := code.program

variable {T : Type} [DecidableEq T] [Fintype T]

abbrev LockState (T : Type) := State SharedMemory Pc Empty T

def initial (preferWriter : Bool) (role : T → Role) : LockState T where
  shared := ⟨0, ⟨preferWriter, 0, false, 0⟩, fun _ => true, []⟩
  owner := nofun
  pc := fun t => start (role t)

abbrev system (preferWriter : Bool) (role : T → Role) : System (LockState T) (Action T Unit) :=
  program.system (· = initial preferWriter role)

/-- The lock of this program is of the default kind, which prefers readers. -/
abbrev withWriterStarvation (role : T → Role) : System (LockState T) (Action T Unit) :=
  system false role

abbrev withoutWriterStarvation (role : T → Role) : System (LockState T) (Action T Unit) :=
  system true role

end RoblSampleCodes.RwLock
