import RoblSampleCodes.TransitionSystem

namespace RoblSampleCodes.PromiseMap

open TransitionSystem

abbrev Bytes := List (BitVec 8)

def routeListReq : BitVec 32 := 0x4d#32 ||| 0xcd#32 ||| 0x1504#32

structure Key where
  mid : BitVec 32
  sessionIx : BitVec 32
  rcsTick : BitVec 32
  deriving DecidableEq

/-- The arguments of `Receive`, and what the stack holds where `buf` is. -/
structure Message where
  sessionIx : BitVec 32
  rcsTick : BitVec 32
  recordSize : BitVec 32
  stack : Nat → BitVec 8

def word (x : BitVec 32) : Bytes :=
  [x.extractLsb' 0 8, x.extractLsb' 8 8, x.extractLsb' 16 8, x.extractLsb' 24 8]

def routeText (i : Nat) : Bytes :=
  ("route_" ++ toString i).toList.map (fun c => BitVec.ofNat 8 c.toNat) ++ [0]

def routeRecord (stack : Nat → BitVec 8) (offset i : Nat) : Bytes :=
  routeText i ++ (List.range' (routeText i).length (64 - (routeText i).length)).map
    (fun j => stack (offset + j))

def Message.buf (m : Message) : Bytes :=
  word 0 ++ word m.sessionIx ++ word m.rcsTick ++ word m.recordSize ++
    (List.range m.recordSize.toNat).flatMap (fun i => routeRecord m.stack (16 + 64 * i) i)

def Message.key (m : Message) : Key := ⟨routeListReq, m.sessionIx, m.rcsTick⟩

/-- Places in `ForwardRequest`. The local promise lives from `insert` to
`returned`. A call that returns `true` has the bytes of its response. -/
inductive RequestPc
  | idle
  | send
  | insert
  | wait
  | eraseTimeout
  | erase
  | get
  | leave (result : Option Bytes)
  | returned (result : Option Bytes)
  deriving DecidableEq

/-- Places in `Receive`. Between the two steps it has the pointer to the promise
of a call. A promise with a value throws, and one that is gone is undefined. -/
inductive ReceivePc (T : Type)
  | idle
  | found (t : T) (buf : Bytes)
  | threw
  | undefined
  deriving DecidableEq

/-- The calls `T` of `ForwardRequest` with their promises, and the threads `R`
that call `Receive`. The history has the responses, and for each call those for
its session and tick since it was sent until its wait was over, with whether it
was waiting. -/
structure MapState (T R : Type) where
  promiseMap : Key → Option T
  promise : T → Option Bytes
  pc : T → RequestPc
  recv : R → ReceivePc T
  responses : List Message
  received : T → List (Bool × Bytes)

variable {T R : Type}

/-- `std::map::insert` leaves the entry of a key that is in use. -/
def insert (promiseMap : Key → Option T) (k : Key) (t : T) : Key → Option T :=
  match promiseMap k with
  | none => Function.update promiseMap k (some t)
  | some _ => promiseMap

def erase (promiseMap : Key → Option T) (k : Key) : Key → Option T :=
  Function.update promiseMap k none

def RequestPc.awaits : RequestPc → Bool
  | .insert | .wait => true
  | _ => false

def RequestPc.isReturned : RequestPc → Bool
  | .returned _ => true
  | _ => false

def Message.answers (m : Message) (k : Key) : Bool :=
  m.sessionIx == k.sessionIx && m.rcsTick == k.rcsTick

def record (key : T → Key) (s : MapState T R) (m : Message) : MapState T R :=
  { s with
    responses := s.responses ++ [m]
    received := fun t =>
      if m.answers (key t) && (s.pc t).awaits then
        s.received t ++ [(decide (s.pc t = .wait), m.buf)]
      else s.received t }

inductive Action (T R : Type)
  | request (t : T) (timeout : Bool)
  | receive (r : R) (m : Message)
  | resume (r : R)

section Step

variable [DecidableEq T] [DecidableEq R]

def MapState.goto (s : MapState T R) (t : T) (p : RequestPc) : MapState T R :=
  { s with pc := Function.update s.pc t p }

/-- `wait_for` returns when the promise has a value, or when the time is over
and it has none. -/
def forwardRequest (key : T → Key) (s : MapState T R) (t : T) (timeout : Bool) : Option (MapState T R) :=
  match s.pc t with
  | .idle => some (s.goto t .send)
  | .send => some (s.goto t .insert)
  | .insert => some ({ s with promiseMap := insert s.promiseMap (key t) t }.goto t .wait)
  | .wait =>
    match s.promise t with
    | some _ => some (s.goto t .erase)
    | none => if timeout then some (s.goto t .eraseTimeout) else none
  | .eraseTimeout => some ({ s with promiseMap := erase s.promiseMap (key t) }.goto t (.leave none))
  | .erase => some ({ s with promiseMap := erase s.promiseMap (key t) }.goto t .get)
  | .get => (s.promise t).map (fun buf => s.goto t (.leave (some buf)))
  | .leave result => some (s.goto t (.returned result))
  | .returned _ => none

def setValue (s : MapState T R) (r : R) (t : T) (buf : Bytes) : MapState T R :=
  if (s.pc t).isReturned then { s with recv := Function.update s.recv r .undefined }
  else
    match s.promise t with
    | none => { s with
        promise := Function.update s.promise t (some buf)
        recv := Function.update s.recv r .idle }
    | some _ => { s with recv := Function.update s.recv r .threw }

/-- `Receive` finds the promise and sets its value, in one step if `atomic`. -/
def receive (atomic : Bool) (key : T → Key) (s : MapState T R) (r : R) (m : Message) : MapState T R :=
  match s.promiseMap m.key with
  | none => record key s m
  | some t =>
    if atomic then setValue (record key s m) r t m.buf
    else { record key s m with recv := Function.update s.recv r (.found t m.buf) }

def step (atomic : Bool) (key : T → Key) (s : MapState T R) : Action T R → Option (MapState T R)
  | .request t timeout => forwardRequest key s t timeout
  | .receive r m =>
    match s.recv r with
    | .idle => some (receive atomic key s r m)
    | _ => none
  | .resume r =>
    match s.recv r with
    | .found t buf => some (setValue s r t buf)
    | _ => none

end Step

def initial (T R : Type) : MapState T R :=
  ⟨fun _ => none, fun _ => none, fun _ => .idle, fun _ => .idle, [], fun _ => []⟩

def system [DecidableEq T] [DecidableEq R] (atomic : Bool) (key : T → Key) :
    System (MapState T R) (Action T R) :=
  ⟨(· = initial T R), step atomic key⟩

end RoblSampleCodes.PromiseMap
