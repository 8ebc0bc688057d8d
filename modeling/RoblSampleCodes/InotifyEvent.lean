import RoblSampleCodes.ByteMemory

namespace RoblSampleCodes.InotifyEvent

open ByteMemory

inductive Command
  | mount
  | unmount
  deriving DecidableEq

/-- The mask of an event and its name, which is absent when its `len` is 0. -/
structure Event where
  mask : BitVec 32
  name : Option (List Byte)
  deriving DecidableEq

def inCreate : BitVec 32 := 0x100

def inDelete : BitVec 32 := 0x200

def storageDevName : List Byte := ascii "mmcblk1p1"

def handleEvent (event : Event) : Option Command :=
  match event.name with
  | none => none
  | some name =>
    if event.mask &&& inCreate ≠ 0 ∧ name = storageDevName then some .mount
    else if event.mask &&& inDelete ≠ 0 ∧ name = storageDevName then some .unmount
    else none

def storageEvent (present : Bool) : Event :=
  ⟨if present then inCreate else inDelete, some storageDevName⟩

def Command.to (present : Bool) : Command := if present then .mount else .unmount

theorem handleEvent_storageEvent (present : Bool) :
    handleEvent (storageEvent present) = some (Command.to present) := by
  cases present <;> decide

theorem handleEvent_of_ne {event : Event} (h : event.name ≠ some storageDevName) :
    handleEvent event = none := by
  unfold handleEvent
  cases hname : event.name with
  | none => rfl
  | some name =>
    have hne : name ≠ storageDevName := fun heq => h (heq ▸ hname)
    simp only [hne, and_false, if_false]

end RoblSampleCodes.InotifyEvent
