import RoblSampleCodes.MountMonitor
import RoblSampleCodes.TaskProgram

namespace RoblSampleCodes.MountMonitorSystem

open TransitionSystem TaskProgram MountMonitor

structure Round (F : Type) where
  kind : Kind
  callbacks : List (Option F)

/-- The members. The history has the values of `is_mounted_` that `Monitor` has
read, the rounds, and for each task its round and its callback. -/
structure Members (F : Type) where
  isMounted : Bool
  callbacks : Kind → List (Option F)
  samples : List Bool
  rounds : List (Round F)
  launches : List (Nat × F)

inductive CallPc (F : Type)
  | outside
  | registerLock (kind : Kind) (callback : F)
  | pushBack (kind : Kind) (callback : F)
  | registerUnlock (kind : Kind) (id : Nat)
  | cancelLock (kind : Kind) (index : Nat)
  | setNull (kind : Kind) (index : Nat)
  | cancelUnlock (kind : Kind)
  deriving DecidableEq

/-- Places in `Monitor`, with the state of its loop and the futures of a round. -/
inductive MonitorPc
  | sample (lastMountedState : Bool)
  | lock (kind : Kind) (currentMountedState : Bool)
  | launch (kind : Kind) (currentMountedState : Bool) (i : Nat) (futures : List Nat)
  | erase (kind : Kind) (currentMountedState : Bool) (futures : List Nat)
  | unlock (kind : Kind) (currentMountedState : Bool) (futures : List Nat)
  | get (currentMountedState : Bool) (futures : List Nat)
  | sleep (currentMountedState : Bool)
  deriving DecidableEq

inductive Pc (F : Type)
  | monitor (p : MonitorPc)
  | client (p : CallPc F)
  | task (callback : F) (p : CallPc F)
  | finished
  deriving DecidableEq

variable {F : Type}

def call (m : Members F) :
    CallPc F → Option (Call F) → Option (Members F × CallPc F × Effect Kind (Pc F))
  | .outside, some (.setMounted mounted) => some ({ m with isMounted := mounted }, .outside, .none)
  | .outside, some (.register kind callback) => some (m, .registerLock kind callback, .none)
  | .outside, some (.cancel kind index) => some (m, .cancelLock kind index, .none)
  | .outside, none => none
  | .registerLock kind callback, _ => some (m, .pushBack kind callback, .lock kind)
  | .pushBack kind callback, _ =>
    let (callbacks, id) := registerCallback (m.callbacks kind) callback
    some ({ m with callbacks := Function.update m.callbacks kind callbacks },
      .registerUnlock kind id, .none)
  | .registerUnlock kind _, _ => some (m, .outside, .unlock kind)
  | .cancelLock kind index, _ => some (m, .setNull kind index, .lock kind)
  | .setNull kind index, _ =>
    some ({ m with
        callbacks := Function.update m.callbacks kind (cancelCallback (m.callbacks kind) index) },
      .cancelUnlock kind, .none)
  | .cancelUnlock kind, _ => some (m, .outside, .unlock kind)

/-- The monitor is not destroyed, so `is_monitoring_` stays true. A `future.get`
waits for its task. -/
def monitor (m : Members F) (n : Nat) : MonitorPc → Members F × MonitorPc × Effect Kind (Pc F)
  | .sample last =>
    let place := match edge m.isMounted last with
      | some kind => MonitorPc.lock kind m.isMounted
      | none => .sleep m.isMounted
    ({ m with samples := m.samples ++ [m.isMounted] }, place, .none)
  | .lock kind current =>
    ({ m with rounds := m.rounds ++ [⟨kind, m.callbacks kind⟩] }, .launch kind current 0 [], .lock kind)
  | .launch kind current i futures =>
    match (m.callbacks kind)[i]? with
    | some (some callback) =>
      ({ m with launches := m.launches ++ [(m.rounds.length - 1, callback)] },
        .launch kind current (i + 1) (futures ++ [n]), .spawn (.task callback .outside))
    | some none => (m, .launch kind current (i + 1) futures, .none)
    | none => (m, .erase kind current futures, .none)
  | .erase kind current futures =>
    ({ m with callbacks := Function.update m.callbacks kind (removeNull (m.callbacks kind)) },
      .unlock kind current futures, .none)
  | .unlock kind current futures => (m, .get current futures, .unlock kind)
  | .get current [] => (m, .sleep current, .none)
  | .get current (future :: futures) => (m, .get current futures, .join future)
  | .sleep current => (m, .sample current, .none)

/-- A callback makes any calls on the monitor and then finishes. -/
def next (m : Members F) (n : Nat) :
    Pc F → Option (Call F) → Option (Members F × Pc F × Effect Kind (Pc F))
  | .monitor p, _ =>
    let (m', p', e) := monitor m n p
    some (m', .monitor p', e)
  | .client p, c => (call m p c).map (fun (m', p', e) => (m', .client p', e))
  | .task _ .outside, none => some (m, .finished, .none)
  | .task callback p, c => (call m p c).map (fun (m', p', e) => (m', .task callback p', e))
  | .finished, _ => none

def done : Pc F → Bool
  | .finished => true
  | _ => false

theorem next_done (m : Members F) (n : Nat) (p : Pc F) (c : Option (Call F)) (h : done p = true) :
    next m n p c = none := by
  cases p with
  | finished => rfl
  | monitor _ | client _ | task _ _ => cases h

def program (F : Type) : Program (Members F) (Pc F) (Option (Call F)) Kind where
  next := next
  done := done
  rest := .finished
  rest_done := rfl
  next_done := next_done

inductive Main (Q : Type)
  | monitor
  | client (q : Q)
  deriving DecidableEq

abbrev MonitorState (F Q : Type) := State (Members F) (Pc F) Kind (Main Q)

def initial (F Q : Type) : MonitorState F Q where
  shared := ⟨false, fun _ => [], [], [], []⟩
  owner := fun _ => none
  spawned := 0
  pc
    | .main .monitor => .monitor (.sample false)
    | .main (.client _) => .client .outside
    | .task _ => .finished

def system (F Q : Type) [DecidableEq Q] : System (MonitorState F Q) (Action (Main Q) (Option (Call F))) :=
  (program F).system (· = initial F Q)

end RoblSampleCodes.MountMonitorSystem
