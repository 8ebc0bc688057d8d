import RoblSampleCodes.InotifyEvent

namespace RoblSampleCodes.InotifyBatch

open ByteMemory InotifyEvent

section Loop

-- The buffer, of which nothing after the bytes read may be used.
variable (eventBuffer : Memory) (bytesRead : Nat)

/-- The name of the event at `i` is compared only where the mask has the flag. -/
def matchesName (mask flag : BitVec 32) (i : Nat) : Option Bool :=
  if mask &&& flag ≠ 0 then
    (readString eventBuffer bytesRead (i + 16)).map fun name => decide (name = storageDevName)
  else some false

def handleAt (i : Nat) : Option (Option Command) :=
  (read32 eventBuffer 0 bytesRead (i + 12)).bind fun len =>
    if len = 0 then some none
    else
      (read32 eventBuffer 0 bytesRead (i + 4)).bind fun mask =>
        (matchesName eventBuffer bytesRead mask inCreate i).bind fun created =>
          if created then some (some .mount)
          else
            (matchesName eventBuffer bytesRead mask inDelete i).map fun deleted =>
              if deleted then some .unmount else none

/-- The inner loop, with the offsets it visits and the commands it runs. -/
def eventLoop : Nat → Nat → Option (List Nat × List Command)
  | 0, _ => none
  | fuel + 1, i =>
    if i < bytesRead then
      (handleAt eventBuffer bytesRead i).bind fun command =>
        (read32 eventBuffer 0 bytesRead (i + 12)).bind fun len =>
          (eventLoop fuel (i + (16 + len.toNat))).map fun r => (i :: r.1, command.toList ++ r.2)
    else some ([], [])

end Loop

def bufLen : Nat := 1024 * (16 + 16)

/-- What follows the header of an event: nothing, or a name with a NUL and more bytes after it. -/
inductive NameArea
  | absent
  | name (text padding : List Byte) (h : 0 ∉ text)

def NameArea.bytes : NameArea → List Byte
  | .absent => []
  | .name text padding _ => text ++ 0 :: padding

def NameArea.text : NameArea → Option (List Byte)
  | .absent => none
  | .name text _ _ => some text

structure RawEvent where
  wd : BitVec 32
  mask : BitVec 32
  cookie : BitVec 32
  area : NameArea

def RawEvent.bytes (e : RawEvent) : List Byte :=
  bytes32 e.wd ++ bytes32 e.mask ++ bytes32 e.cookie ++ bytes32 (BitVec.ofNat 32 e.area.bytes.length) ++
    e.area.bytes

def RawEvent.event (e : RawEvent) : Event := ⟨e.mask, e.area.text⟩

def offsets : Nat → List RawEvent → List Nat
  | _, [] => []
  | i, e :: rest => i :: offsets (i + e.bytes.length) rest

def action (mask : BitVec 32) : Option Command :=
  if mask &&& inCreate ≠ 0 then some .mount
  else if mask &&& inDelete ≠ 0 then some .unmount
  else none

def actions (events : List RawEvent) : List Command :=
  (events.filter (fun e => e.area.text = some storageDevName)).filterMap (fun e => action e.mask)

theorem handleEvent_storage (mask : BitVec 32) :
    handleEvent ⟨mask, some storageDevName⟩ = action mask := by
  simp [handleEvent, action]

theorem actions_eq (events : List RawEvent) :
    actions events = (events.map RawEvent.event).filterMap handleEvent := by
  rw [actions, List.filterMap_filter, List.filterMap_map]
  apply List.filterMap_congr
  intro e _
  by_cases h : e.area.text = some storageDevName
  · rw [if_pos (decide_eq_true h), Function.comp_apply, RawEvent.event, h, handleEvent_storage]
  · rw [if_neg (by simpa using h), Function.comp_apply]
    exact (handleEvent_of_ne h).symm

variable {eventBuffer : Memory} {bytesRead i : Nat}

theorem RawEvent.length_bytes (e : RawEvent) : e.bytes.length = 16 + e.area.bytes.length := by
  simp [RawEvent.bytes]
  omega

structure Stands (eventBuffer : Memory) (i : Nat) (e : RawEvent) : Prop where
  mask : word32 eventBuffer (i + 4) = e.mask
  len : word32 eventBuffer (i + 12) = BitVec.ofNat 32 e.area.bytes.length
  area : Holds eventBuffer (i + 16) e.area.bytes

theorem stands_of_holds {e : RawEvent} (h : Holds eventBuffer i e.bytes) : Stands eventBuffer i e := by
  rw [RawEvent.bytes] at h
  obtain ⟨h, harea⟩ := holds_append.mp h
  obtain ⟨h, hlen⟩ := holds_append.mp h
  obtain ⟨h, -⟩ := holds_append.mp h
  obtain ⟨-, hmask⟩ := holds_append.mp h
  exact ⟨word32_of_holds hmask, word32_of_holds hlen, harea⟩

theorem matchesName_eq {e : RawEvent} {text padding : List Byte} {htext : 0 ∉ text}
    (h : Stands eventBuffer i e) (harea : e.area = .name text padding htext)
    (hbytes : i + e.bytes.length ≤ bytesRead) (flag : BitVec 32) :
    matchesName eventBuffer bytesRead e.mask flag i =
      some (decide (e.mask &&& flag ≠ 0 ∧ text = storageDevName)) := by
  have hholds := h.area
  rw [RawEvent.length_bytes, harea, NameArea.bytes] at hbytes
  rw [harea, NameArea.bytes] at hholds
  rw [matchesName]
  by_cases hflag : e.mask &&& flag ≠ 0
  · rw [if_pos hflag, readString_of_holds hholds htext (by omega), Option.map_some]
    exact congrArg some (decide_eq_decide.mpr (and_iff_right hflag).symm)
  · rw [if_neg hflag]
    exact congrArg some (decide_eq_false fun hand => hflag hand.1).symm

/-- Where an event stands, the body does what it does with the event. -/
theorem handleAt_eq {e : RawEvent} (h : Stands eventBuffer i e) (hbytes : i + e.bytes.length ≤ bytesRead)
    (hlen : e.bytes.length < 2 ^ 32) :
    handleAt eventBuffer bytesRead i = some (handleEvent e.event) := by
  have hlength := e.length_bytes
  rw [handleAt, read32_eq (Nat.zero_le _) (by omega), Option.bind_some, h.len]
  cases harea : e.area with
  | absent =>
    rw [if_pos (by rfl), RawEvent.event, harea]
    rfl
  | name text padding htext =>
    have hpos : (NameArea.name text padding htext).bytes.length % 2 ^ 32 ≠ 0 := by
      rw [harea] at hlength
      rw [Nat.mod_eq_of_lt (by omega)]
      simp [NameArea.bytes]
    have hne : BitVec.ofNat 32 (NameArea.name text padding htext).bytes.length ≠ 0 := by
      intro hzero
      exact hpos (by simpa using congrArg BitVec.toNat hzero)
    rw [if_neg hne, read32_eq (Nat.zero_le _) (by omega), Option.bind_some, h.mask,
      matchesName_eq h harea hbytes, matchesName_eq h harea hbytes, Option.bind_some, Option.map_some,
      RawEvent.event, harea, NameArea.text, handleEvent]
    simp only [decide_eq_true_eq]
    split <;> rfl

theorem eventLoop_eq (events : List RawEvent) (hbytes : bytesRead < 2 ^ 32)
    (h : Holds eventBuffer i (events.flatMap RawEvent.bytes))
    (hstop : i + (events.flatMap RawEvent.bytes).length = bytesRead) {fuel : Nat}
    (hfuel : events.length < fuel) :
    eventLoop eventBuffer bytesRead fuel i =
      some (offsets i events, (events.map RawEvent.event).filterMap handleEvent) := by
  induction events generalizing i fuel with
  | nil =>
    obtain ⟨fuel, rfl⟩ : ∃ n, fuel = n + 1 := ⟨fuel - 1, by omega⟩
    rw [eventLoop, if_neg (by simpa using hstop.ge)]
    rfl
  | cons e rest ih =>
    obtain ⟨fuel, rfl⟩ : ∃ n, fuel = n + 1 := ⟨fuel - 1, by omega⟩
    rw [List.flatMap_cons] at h hstop
    rw [List.length_append] at hstop
    obtain ⟨hfirst, hrest⟩ := holds_append.mp h
    have hstands := stands_of_holds hfirst
    have hlength := e.length_bytes
    have hnext : i + (16 + (BitVec.ofNat 32 e.area.bytes.length).toNat) = i + e.bytes.length := by
      rw [BitVec.toNat_ofNat, Nat.mod_eq_of_lt (by omega), hlength]
    rw [eventLoop, if_pos (by omega), handleAt_eq hstands (by omega) (by omega), Option.bind_some,
      read32_eq (Nat.zero_le _) (by omega), Option.bind_some, hstands.len, hnext,
      ih hrest (by omega) (by simpa using hfuel), Option.map_some, offsets, List.map_cons]
    cases hevent : handleEvent e.event with
    | none => rw [List.filterMap_cons_none hevent, Option.toList_none, List.nil_append]
    | some command =>
      rw [List.filterMap_cons_some hevent, Option.toList_some, List.singleton_append]

/-- The loop goes over the events that were read, and handles each as it says. -/
theorem eventLoop_decodes (eventBuffer : Memory) (events : List RawEvent)
    (hread : Holds eventBuffer 0 (events.flatMap RawEvent.bytes))
    (hlen : (events.flatMap RawEvent.bytes).length ≤ bufLen) {fuel : Nat} (hfuel : events.length < fuel) :
    eventLoop eventBuffer (events.flatMap RawEvent.bytes).length fuel 0 =
      some (offsets 0 events, actions events) := by
  rw [actions_eq]
  exact eventLoop_eq events (hlen.trans_lt (by decide)) hread (Nat.zero_add _) hfuel

def plugBatch : List RawEvent :=
  [⟨1, inCreate, 0, .name (ascii "sda1") [0, 0, 0] (by decide)⟩,
    ⟨1, inCreate, 0, .name storageDevName [0, 0, 0, 0, 0, 0] (by decide)⟩, ⟨1, inDelete, 0, .absent⟩]

theorem eventLoop_decodes_plugBatch :
    eventLoop (ofList (plugBatch.flatMap RawEvent.bytes)) (plugBatch.flatMap RawEvent.bytes).length 4 0 =
      some (offsets 0 plugBatch, actions plugBatch) ∧
      offsets 0 plugBatch = [0, 24, 56] ∧ actions plugBatch = [.mount] :=
  ⟨eventLoop_decodes _ plugBatch (holds_ofList _) (by decide) (by decide), by decide, by decide⟩

end RoblSampleCodes.InotifyBatch
