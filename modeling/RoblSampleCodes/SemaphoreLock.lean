import RoblSampleCodes.ProcessThreads

namespace RoblSampleCodes.SemaphoreLock

open TransitionSystem ThreadProgram ProcessThreads

/-- The initialised segment, with the flags `is_running` of the processes and the number of stores to
`increment` that writers have completed. The overflow of `increment` is undefined, and only runs
without it are meant. -/
structure SharedMemory where
  increment : Int
  in_ : Nat
  mx : Nat
  wrt : Nat
  readCount : BitVec 32
  isRunning : Nat → Bool
  stores : Nat

/-- Places in `reader`. At `waitWrt` the reader holds `mx`. -/
inductive ReaderPc
  | loop
  | waitIn
  | waitMx
  | count
  | waitWrt
  | postMx
  | postIn
  | critical
  | exitWaitMx
  | uncount
  | exitPostWrt
  | exitPostMx
  | finished
  deriving DecidableEq

inductive WriterPc
  | loop
  | waitIn
  | waitWrt
  | load
  | store (value : Int)
  | print
  | postWrt
  | postIn
  | sleep
  | finished
  deriving DecidableEq

abbrev Pc := ThreadPc ReaderPc WriterPc

abbrev start : Role → Pc := Role.start .loop .loop

/-- `turnstile` is whether the program has the semaphore `in`. -/
def reader (turnstile : Bool) (q : Nat) (m : SharedMemory) : ReaderPc → Option (SharedMemory × ReaderPc)
  | .loop =>
    if m.isRunning q then some (m, if turnstile then .waitIn else .waitMx) else some (m, .finished)
  | .waitIn => if 0 < m.in_ then some ({ m with in_ := m.in_ - 1 }, .waitMx) else none
  | .waitMx => if 0 < m.mx then some ({ m with mx := m.mx - 1 }, .count) else none
  | .count =>
    let m' := { m with readCount := m.readCount + 1 }
    some (m', if m'.readCount == 1 then .waitWrt else .postMx)
  | .waitWrt => if 0 < m.wrt then some ({ m with wrt := m.wrt - 1 }, .postMx) else none
  | .postMx => some ({ m with mx := m.mx + 1 }, if turnstile then .postIn else .critical)
  | .postIn => some ({ m with in_ := m.in_ + 1 }, .critical)
  | .critical => some (m, .exitWaitMx)
  | .exitWaitMx => if 0 < m.mx then some ({ m with mx := m.mx - 1 }, .uncount) else none
  | .uncount =>
    let m' := { m with readCount := m.readCount - 1 }
    some (m', if m'.readCount == 0 then .exitPostWrt else .exitPostMx)
  | .exitPostWrt => some ({ m with wrt := m.wrt + 1 }, .exitPostMx)
  | .exitPostMx => some ({ m with mx := m.mx + 1 }, .loop)
  | .finished => none

def writer (turnstile : Bool) (q : Nat) (m : SharedMemory) : WriterPc → Option (SharedMemory × WriterPc)
  | .loop =>
    if m.isRunning q then some (m, if turnstile then .waitIn else .waitWrt) else some (m, .finished)
  | .waitIn => if 0 < m.in_ then some ({ m with in_ := m.in_ - 1 }, .waitWrt) else none
  | .waitWrt => if 0 < m.wrt then some ({ m with wrt := m.wrt - 1 }, .load) else none
  | .load => some (m, .store m.increment)
  | .store value => some ({ m with increment := value + 1, stores := m.stores + 1 }, .print)
  | .print => some (m, .postWrt)
  | .postWrt => some ({ m with wrt := m.wrt + 1 }, if turnstile then .postIn else .sleep)
  | .postIn => some ({ m with in_ := m.in_ + 1 }, .sleep)
  | .sleep => some (m, .loop)
  | .finished => none

def code (turnstile : Bool) : Code SharedMemory ReaderPc WriterPc where
  reader := reader turnstile
  writer := writer turnstile
  isRunning m := m.isRunning
  stop q m := { m with isRunning := Function.update m.isRunning q false }
  isRunning_stop _ _ := rfl

abbrev program (turnstile : Bool) : Program SharedMemory Pc Unit Empty Empty := (code turnstile).program

variable {T : Type} [DecidableEq T] [Fintype T]

abbrev LockState (T : Type) := State SharedMemory Pc Empty T

def initial (role : T → Role) : LockState T where
  shared := ⟨0, 1, 1, 1, 0, fun _ => true, 0⟩
  owner := nofun
  pc := fun t => start (role t)

abbrev system (turnstile : Bool) (role : T → Role) : System (LockState T) (Action T Unit) :=
  (program turnstile).system (· = initial role)

abbrev withWriterStarvation (role : T → Role) : System (LockState T) (Action T Unit) :=
  system false role

abbrev withoutWriterStarvation (role : T → Role) : System (LockState T) (Action T Unit) :=
  system true role

end RoblSampleCodes.SemaphoreLock
