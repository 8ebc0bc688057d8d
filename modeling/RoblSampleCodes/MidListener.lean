import RoblSampleCodes.TaskProgram

namespace RoblSampleCodes.MidListener

open TransitionSystem TaskProgram

/-- The type `M` of a message: an object type or a reference to one, which may be `const` or
`volatile`. -/
structure MessageType (τ : Type) where
  object : τ
  isConst : Bool
  isVolatile : Bool
  isReference : Bool
  deriving DecidableEq

/-- The type that `std::any_cast<M>` asks for. -/
def MessageType.removeCvref {τ : Type} (type : MessageType τ) : τ := type.object

def MessageType.plain {τ : Type} (object : τ) : MessageType τ := ⟨object, false, false, false⟩

/-- An element of the multimap, with the type `M` of its `CallbackExecutor<M>`.
The handle stands for the iterator. -/
structure Registration (τ : Type) where
  handle : Nat
  mid : BitVec 32
  type : MessageType τ
  deriving DecidableEq

/-- A call of `Notify`, with the elements of its range, and what was registered
and cancelled when it took the mutex. -/
structure Notification (τ : Type) where
  mid : BitVec 32
  message : BitVec 32
  range : List (Registration τ)
  registered : List (Registration τ)
  cancelled : List Nat

inductive Event
  | condition (k handle : Nat) (value : BitVec 32)
  | outcome (k handle : Nat) (holds : Option Bool)
  | callback (k handle : Nat) (value : BitVec 32)
  deriving DecidableEq

/-- The multimap, and the handles that were returned and not yet passed to
`CancelCallback`. The rest is the history. -/
structure Members (τ : Type) where
  callbackMultimap : List (Registration τ)
  handles : List Nat
  registered : List (Registration τ)
  cancelled : List Nat
  notifications : List (Notification τ)
  log : List Event

inductive Call (τ : Type)
  | register (mid : BitVec 32) (type : MessageType τ)
  | cancel (it : Option Nat)
  | notify (mid message : BitVec 32)

inductive CallPc (τ : Type)
  | outside
  | registerLock (mid : BitVec 32) (type : MessageType τ)
  | emplace (mid : BitVec 32) (type : MessageType τ)
  | registerUnlock (handle : Nat)
  | cancelLock (it : Option Nat)
  | erase (it : Option Nat)
  | cancelUnlock
  | notifyLock (mid message : BitVec 32)
  | equalRange (mid message : BitVec 32)
  | loop (k : Nat) (message : BitVec 32) (rest : List (Registration τ))
  | wait (k : Nat) (message : BitVec 32) (future : Nat) (rest : List (Registration τ))
  | notifyUnlock (k : Nat)
  deriving DecidableEq

inductive Pc (τ : Type)
  | client (p : CallPc τ)
  | anyCast (k : Nat) (executor : Registration τ) (message : BitVec 32)
  | condition (k : Nat) (executor : Registration τ) (value : BitVec 32) (p : CallPc τ)
  | callback (k : Nat) (executor : Registration τ) (value : BitVec 32) (p : CallPc τ)
  | finished
  deriving DecidableEq

/-- What the code leaves open: the calls, what a condition or a callback returns,
and the place of a new element among those with its key. -/
inductive Input (τ : Type)
  | call (c : Call τ)
  | returns (holds : Bool)
  | throws
  | go (position : Nat)

variable {τ : Type}

/-- A step in a public function. An iterator can be passed to `CancelCallback`
once, after it was returned. The executors are never null. The future of a task
waits for it in its destructor, at the end of the loop's body. -/
def call (m : Members τ) (n : Nat) :
    CallPc τ → Input τ → Option (Members τ × CallPc τ × Effect Unit (Pc τ))
  | .outside, .call (.register mid type) => some (m, .registerLock mid type, .none)
  | .outside, .call (.cancel none) => some (m, .cancelLock none, .none)
  | .outside, .call (.cancel (some handle)) =>
    if handle ∈ m.handles then
      some ({ m with handles := m.handles.erase handle }, .cancelLock (some handle), .none)
    else none
  | .outside, .call (.notify mid message) => some (m, .notifyLock mid message, .none)
  | .outside, _ => none
  | .registerLock mid type, _ => some (m, .emplace mid type, .lock ())
  | .emplace mid type, .go position =>
    let element : Registration τ := ⟨m.registered.length, mid, type⟩
    if position ≤ m.callbackMultimap.length then
      some ({ m with
        callbackMultimap := m.callbackMultimap.insertIdx position element
        registered := m.registered ++ [element] }, .registerUnlock element.handle, .none)
    else none
  | .emplace _ _, _ => none
  | .registerUnlock handle, _ =>
    some ({ m with handles := m.handles ++ [handle] }, .outside, .unlock ())
  | .cancelLock it, _ => some (m, .erase it, .lock ())
  | .erase none, _ => some (m, .cancelUnlock, .none)
  | .erase (some handle), _ =>
    some ({ m with
      callbackMultimap := m.callbackMultimap.filter (fun r => r.handle ≠ handle)
      cancelled := m.cancelled ++ [handle] }, .cancelUnlock, .none)
  | .cancelUnlock, _ => some (m, .outside, .unlock ())
  | .notifyLock mid message, _ => some (m, .equalRange mid message, .lock ())
  | .equalRange mid message, _ =>
    let range := m.callbackMultimap.filter (fun r => r.mid = mid)
    some ({ m with
      notifications := m.notifications ++ [⟨mid, message, range, m.registered, m.cancelled⟩] },
      .loop m.notifications.length message range, .none)
  | .loop k message (executor :: rest), _ =>
    some (m, .wait k message n rest, .spawn (.anyCast k executor message))
  | .loop k _ [], _ => some (m, .notifyUnlock k, .none)
  | .wait k message future rest, _ => some (m, .loop k message rest, .join future)
  | .notifyUnlock _, _ => some (m, .outside, .unlock ())

/-- A step of a thread. Conditions and callbacks are any code that makes calls and
then returns or throws. The exceptions end in the `catch` or in the future. -/
def next [DecidableEq τ] (int : τ) (m : Members τ) (n : Nat) :
    Pc τ → Input τ → Option (Members τ × Pc τ × Effect Unit (Pc τ))
  | .client p, i => (call m n p i).map (fun (m', p', e) => (m', .client p', e))
  | .anyCast k executor message, _ =>
    if executor.type.removeCvref = int then
      some ({ m with log := m.log ++ [.condition k executor.handle message] },
        .condition k executor message .outside, .none)
    else some (m, .finished, .none)
  | .condition k executor value .outside, .returns holds =>
    let log := m.log ++ [.outcome k executor.handle (some holds)]
    if holds then
      some ({ m with log := log ++ [.callback k executor.handle value] },
        .callback k executor value .outside, .none)
    else some ({ m with log := log }, .finished, .none)
  | .condition k executor _ .outside, .throws =>
    some ({ m with log := m.log ++ [.outcome k executor.handle none] }, .finished, .none)
  | .condition k executor value p, i =>
    (call m n p i).map (fun (m', p', e) => (m', .condition k executor value p', e))
  | .callback _ _ _ .outside, .returns _ => some (m, .finished, .none)
  | .callback _ _ _ .outside, .throws => some (m, .finished, .none)
  | .callback k executor value p, i =>
    (call m n p i).map (fun (m', p', e) => (m', .callback k executor value p', e))
  | .finished, _ => none

def done : Pc τ → Bool
  | .finished => true
  | _ => false

theorem next_done [DecidableEq τ] (int : τ) (m : Members τ) (n : Nat) (p : Pc τ) (i : Input τ)
    (h : done p = true) : next int m n p i = none := by
  cases p with
  | finished => rfl
  | client _ | anyCast _ _ _ | condition _ _ _ _ | callback _ _ _ _ => cases h

def program [DecidableEq τ] (int : τ) : Program (Members τ) (Pc τ) (Input τ) Unit where
  next := next int
  done := done
  rest := .finished
  rest_done := rfl
  next_done := next_done int

abbrev MidState (τ Q : Type) := State (Members τ) (Pc τ) Unit Q

def initial (τ Q : Type) : MidState τ Q where
  shared := ⟨[], [], [], [], [], []⟩
  owner := fun _ => none
  spawned := 0
  pc
    | .main _ => .client .outside
    | .task _ => .finished

def system [DecidableEq τ] (int : τ) (Q : Type) [DecidableEq Q] :
    System (MidState τ Q) (Action Q (Input τ)) :=
  (program int).system (· = initial τ Q)

end RoblSampleCodes.MidListener
