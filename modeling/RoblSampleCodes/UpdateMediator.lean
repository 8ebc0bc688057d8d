import RoblSampleCodes.ThreadProgram

namespace RoblSampleCodes.UpdateMediator

open TransitionSystem ThreadProgram

variable {D : Type} [DecidableEq D]

/-- Devices are compared by pointer; `dependencies` has no entry for a device
that `SetDependency` was not called for. -/
structure Mediator (D : Type) where
  devices : List D
  dependencies : D → Option (List D)

def Mediator.addDevice (md : Mediator D) (device : D) : Mediator D :=
  { md with devices := md.devices ++ [device] }

def Mediator.setDependency (md : Mediator D) (source target : D) : Mediator D :=
  { md with
    dependencies := Function.update md.dependencies source
      (some ((md.dependencies source).getD [] ++ [target])) }

def Mediator.deps (md : Mediator D) (device : D) : List D := (md.dependencies device).getD []

inductive Event (D : Type)
  | started (device : D)
  | finished (device : D)
  deriving DecidableEq

/-- The flags `updated_` of the devices, the futures, and the history of the
calls of `Update`. -/
structure Shared (D : Type) where
  updated : D → Bool
  launched : Nat
  ready : Nat → Bool
  log : List (Event D)

/-- Places in `UpdateDevice`; `visit` has the dependencies still to come. -/
inductive Phase (D : Type)
  | lock
  | check
  | visit (deps : List D)
  | update
  | updating
  | mark
  | unlock
  deriving DecidableEq

structure Frame (D : Type) where
  device : D
  phase : Phase D
  deriving DecidableEq

/-- The main thread in `UpdateAll`, and the task of the `i`-th device with its
call stack. -/
inductive Place (D : Type)
  | launch (k : Nat)
  | join (k : Nat)
  | returned
  | created (i : Nat)
  | running (i : Nat) (stack : List (Frame D))
  | done (i : Nat)
  deriving DecidableEq

def updateDevice (md : Mediator D) (sh : Shared D) (f : Frame D) (rest : List (Frame D)) :
    Shared D × List (Frame D) × Effect D Empty :=
  match f.phase with
  | .lock => (sh, ⟨f.device, .check⟩ :: rest, .lock f.device)
  | .check =>
    if sh.updated f.device || decide (f.device ∉ md.devices) then
      (sh, ⟨f.device, .unlock⟩ :: rest, .none)
    else
      match md.dependencies f.device with
      | some deps => (sh, ⟨f.device, .visit deps⟩ :: rest, .none)
      | none => (sh, ⟨f.device, .update⟩ :: rest, .none)
  | .visit (dep :: deps) => (sh, ⟨dep, .lock⟩ :: ⟨f.device, .visit deps⟩ :: rest, .none)
  | .visit [] => (sh, ⟨f.device, .update⟩ :: rest, .none)
  | .update =>
    ({ sh with log := sh.log ++ [.started f.device] }, ⟨f.device, .updating⟩ :: rest, .none)
  | .updating =>
    ({ sh with log := sh.log ++ [.finished f.device] }, ⟨f.device, .mark⟩ :: rest, .none)
  | .mark =>
    ({ sh with updated := Function.update sh.updated f.device true }, ⟨f.device, .unlock⟩ :: rest, .none)
  | .unlock => (sh, rest, .unlock f.device)

/-- `UpdateAll` launches one task for each entry of `devices` and then gets
the futures in the same order. -/
def next (md : Mediator D) (sh : Shared D) : Place D → Option (Shared D × Place D × Effect D Empty)
  | .launch k =>
    if k < md.devices.length then some ({ sh with launched := k + 1 }, .launch (k + 1), .none)
    else some (sh, .join 0, .none)
  | .join k =>
    if k < md.devices.length then
      if sh.ready k then some (sh, .join (k + 1), .none) else none
    else some (sh, .returned, .none)
  | .returned => none
  | .created i =>
    if i < sh.launched then
      md.devices[i]?.map (fun device => (sh, .running i [⟨device, .lock⟩], .none))
    else none
  | .running i (f :: rest) =>
    let (sh', stack, e) := updateDevice md sh f rest
    some (sh', .running i stack, e)
  | .running i [] => some ({ sh with ready := Function.update sh.ready i true }, .done i, .none)
  | .done _ => none

def program (md : Mediator D) : Program (Shared D) (Place D) Unit D Empty where
  next sh p _ := next md sh p
  asleep _ := none
  wake := id
  asleep_wake _ := rfl
  next_asleep _ _ _ h := absurd rfl h

abbrev Thread (md : Mediator D) := Option (Fin md.devices.length)

abbrev MediatorState (md : Mediator D) := State (Shared D) (Place D) D (Thread md)

def initial (md : Mediator D) (updated : D → Bool) : MediatorState md where
  shared := ⟨updated, 0, fun _ => false, []⟩
  owner := fun _ => none
  pc
    | none => .launch 0
    | some i => .created i

def system (md : Mediator D) (updated : D → Bool) :
    System (MediatorState md) (Action (Thread md) Unit) :=
  (program md).system (· = initial md updated)

inductive Moves (md : Mediator D) (sh : Shared D) : Place D → Shared D → Place D → Effect D Empty → Prop
  | launch {k : Nat} (h : k < md.devices.length) :
      Moves md sh (.launch k) { sh with launched := k + 1 } (.launch (k + 1)) .none
  | launched {k : Nat} (h : md.devices.length ≤ k) : Moves md sh (.launch k) sh (.join 0) .none
  | joined {k : Nat} (h : k < md.devices.length) (hr : sh.ready k = true) :
      Moves md sh (.join k) sh (.join (k + 1)) .none
  | returns {k : Nat} (h : md.devices.length ≤ k) : Moves md sh (.join k) sh .returned .none
  | start {i : Nat} {d : D} (h : i < sh.launched) (hd : md.devices[i]? = some d) :
      Moves md sh (.created i) sh (.running i [⟨d, .lock⟩]) .none
  | lock {i : Nat} {d : D} {rest : List (Frame D)} :
      Moves md sh (.running i (⟨d, .lock⟩ :: rest)) sh (.running i (⟨d, .check⟩ :: rest)) (.lock d)
  | skip {i : Nat} {d : D} {rest : List (Frame D)} (h : d ∈ md.devices → sh.updated d = true) :
      Moves md sh (.running i (⟨d, .check⟩ :: rest)) sh (.running i (⟨d, .unlock⟩ :: rest)) .none
  | visit {i : Nat} {d : D} {rest : List (Frame D)} (hd : d ∈ md.devices) (h : sh.updated d = false) :
      Moves md sh (.running i (⟨d, .check⟩ :: rest)) sh
        (.running i (⟨d, .visit (md.deps d)⟩ :: rest)) .none
  | leaf {i : Nat} {d : D} {rest : List (Frame D)} (hd : d ∈ md.devices) (h : sh.updated d = false)
      (hn : md.deps d = []) :
      Moves md sh (.running i (⟨d, .check⟩ :: rest)) sh (.running i (⟨d, .update⟩ :: rest)) .none
  | descend {i : Nat} {d dep : D} {deps : List D} {rest : List (Frame D)} :
      Moves md sh (.running i (⟨d, .visit (dep :: deps)⟩ :: rest)) sh
        (.running i (⟨dep, .lock⟩ :: ⟨d, .visit deps⟩ :: rest)) .none
  | visited {i : Nat} {d : D} {rest : List (Frame D)} :
      Moves md sh (.running i (⟨d, .visit []⟩ :: rest)) sh (.running i (⟨d, .update⟩ :: rest)) .none
  | update {i : Nat} {d : D} {rest : List (Frame D)} :
      Moves md sh (.running i (⟨d, .update⟩ :: rest)) { sh with log := sh.log ++ [.started d] }
        (.running i (⟨d, .updating⟩ :: rest)) .none
  | updating {i : Nat} {d : D} {rest : List (Frame D)} :
      Moves md sh (.running i (⟨d, .updating⟩ :: rest)) { sh with log := sh.log ++ [.finished d] }
        (.running i (⟨d, .mark⟩ :: rest)) .none
  | mark {i : Nat} {d : D} {rest : List (Frame D)} :
      Moves md sh (.running i (⟨d, .mark⟩ :: rest))
        { sh with updated := Function.update sh.updated d true }
        (.running i (⟨d, .unlock⟩ :: rest)) .none
  | unlock {i : Nat} {d : D} {rest : List (Frame D)} :
      Moves md sh (.running i (⟨d, .unlock⟩ :: rest)) sh (.running i rest) (.unlock d)
  | finish {i : Nat} :
      Moves md sh (.running i []) { sh with ready := Function.update sh.ready i true } (.done i) .none

theorem next_moves {md : Mediator D} {sh sh' : Shared D} {p p' : Place D} {u : Unit} {e : Effect D Empty}
    (h : (program md).next sh p u = some (sh', p', e)) : Moves md sh p sh' p' e := by
  change next md sh p = _ at h
  cases p with
  | launch k =>
    simp only [next] at h
    split at h <;> cases h
    · exact .launch ‹_›
    · exact .launched (Nat.le_of_not_lt ‹_›)
  | join k =>
    simp only [next] at h
    split at h
    · split at h <;> cases h
      exact .joined ‹_› ‹_›
    · cases h
      exact .returns (Nat.le_of_not_lt ‹_›)
  | returned | done i => cases h
  | created i =>
    simp only [next, Option.ite_none_right_eq_some, Option.map_eq_some_iff] at h
    obtain ⟨hl, d, hd, h⟩ := h
    cases h
    exact .start hl hd
  | running i stack =>
    cases stack with
    | nil =>
      cases h
      exact .finish
    | cons f rest =>
      obtain ⟨d, phase⟩ := f
      cases phase with
      | check =>
        simp only [next, updateDevice] at h
        split at h
        · rename_i hc
          cases h
          exact .skip (by simpa [or_iff_not_imp_right] using hc)
        · rename_i hc
          simp only [Bool.or_eq_true, decide_eq_true_eq, not_or, Bool.not_eq_true, not_not] at hc
          split at h <;> rename_i hdep <;> cases h
          · rename_i deps
            have hv : md.deps d = deps := by simp [Mediator.deps, hdep]
            exact hv ▸ .visit hc.2 hc.1
          · exact .leaf hc.2 hc.1 (by simp [Mediator.deps, hdep])
      | visit deps => cases deps <;> cases h <;> constructor
      | lock | update | updating | mark | unlock => cases h; constructor

end RoblSampleCodes.UpdateMediator
