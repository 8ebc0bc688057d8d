import RoblSampleCodes.SlotList

namespace RoblSampleCodes.MountMonitor

open SlotList

inductive Kind
  | mount
  | unmount
  deriving DecidableEq

variable {F : Type}

def registerCallback (callbacks : List (Option F)) (callback : F) : List (Option F) × Nat :=
  (callbacks ++ [some callback], (callbacks ++ [some callback]).length - 1)

/-- A null entry is removed later. -/
def cancelCallback (callbacks : List (Option F)) (index : Nat) : List (Option F) :=
  if index < callbacks.length then callbacks.set index none else callbacks

def launched (callbacks : List (Option F)) : List F := callbacks.reduceOption

def removeNull (callbacks : List (Option F)) : List (Option F) := compact callbacks

def edge (currentMountedState lastMountedState : Bool) : Option Kind :=
  if currentMountedState && !lastMountedState then some .mount
  else if !currentMountedState && lastMountedState then some .unmount
  else none

inductive Call (F : Type)
  | setMounted (mounted : Bool)
  | register (kind : Kind) (callback : F)
  | cancel (kind : Kind) (index : Nat)

def registerMountCallback (callback : F) : Call F := .register .mount callback

def registerUnmountCallback (callback : F) : Call F := .register .unmount callback

def cancelMountCallback (index : Nat) : Call F := .cancel .mount index

def cancelUnmountCallback (index : Nat) : Call F := .cancel .unmount index

theorem registerCallback_id (callbacks : List (Option F)) (callback : F) :
    (registerCallback callbacks callback).2 = callbacks.length := by
  rw [registerCallback, List.length_append]
  exact Nat.add_sub_cancel ..

theorem cancelCallback_eq (callbacks : List (Option F)) (index : Nat) :
    cancelCallback callbacks index = callbacks.set index none := by
  unfold cancelCallback
  split
  · rfl
  · exact (List.set_eq_of_length_le (Nat.le_of_not_lt ‹_›)).symm

end RoblSampleCodes.MountMonitor
