import RoblSampleCodes.InotifyBatch
import RoblSampleCodes.Refinement
import RoblSampleCodes.StorageWatcher

namespace RoblSampleCodes.StorageWatcherBytes

open TransitionSystem Refinement ByteMemory InotifyEvent InotifyBatch
open StorageWatcher (follow follow_append follow_snoc filterMap_cons_toList)

/-- Places in `main`. A read outside the bytes of the last `read` ends in `misread`. -/
inductive Pc
  | addWatch
  | testExists
  | read
  | loop
  | finished
  | misread
  deriving DecidableEq

/-- The program with its buffer. What `posted` and `batch` hold, the events that were queued since the
watch and those of the bytes from `i` on, the program does not know, nor whether the storage was
there when the watch was added, nor whether an event of it was lost. -/
structure State where
  present : Bool
  pc : Pc
  queue : List RawEvent
  eventBuffer : Memory
  bytesRead : Nat
  i : Nat
  commands : List Command
  watched : Bool
  found : Bool
  posted : List RawEvent
  batch : List RawEvent
  lost : Bool

inductive Action
  | plug (event : RawEvent)
  | unplug (event : RawEvent)
  | other (event : RawEvent)
  | overflow
  | addWatch
  | testExists
  | read (n : Nat)
  | handle
  | fail

def eventMax : Nat := 16 + 256

def bytesOf (events : List RawEvent) : List Byte := events.flatMap RawEvent.bytes

def init (present : Bool) (s : State) : Prop :=
  s.present = present ∧ s.pc = .addWatch ∧ s.queue = [] ∧ s.commands = [] ∧ s.found = false ∧
    s.posted = [] ∧ s.batch = [] ∧ s.lost = false

def post (s : State) (event : RawEvent) : State :=
  if s.pc = .addWatch then s
  else { s with queue := s.queue ++ [event], posted := s.posted ++ [event] }

def handle (s : State) : State :=
  if s.i < s.bytesRead then
    match handleAt s.eventBuffer s.bytesRead s.i, read32 s.eventBuffer 0 s.bytesRead (s.i + 12) with
    | some command, some len =>
      { s with
        i := s.i + (16 + len.toNat)
        commands := s.commands ++ command.toList
        batch := s.batch.tail }
    | _, _ => { s with pc := .misread }
  else { s with pc := .read }

/-- A `read` returns some of the events, as many as its buffer has room for. -/
def read (s : State) (n : Nat) : State :=
  let bytes := bytesOf (s.queue.take n)
  { s with
    pc := .loop
    queue := s.queue.drop n
    eventBuffer := storeBytes s.eventBuffer 0 bytes
    bytesRead := bytes.length
    i := 0
    batch := s.queue.take n }

/-- The kernel may drop the event of a plug or an unplug, unless its queue has room for all events. It
tells so by an event without a name, which is one of the other events. -/
def step (roomy : Bool) (s : State) : Action → Option State
  | .plug event =>
    if s.present = false ∧ event.event = storageEvent true ∧ event.bytes.length ≤ eventMax then
      some (post { s with present := true } event)
    else none
  | .unplug event =>
    if s.present = true ∧ event.event = storageEvent false ∧ event.bytes.length ≤ eventMax then
      some (post { s with present := false } event)
    else none
  | .other event =>
    if event.area.text ≠ some storageDevName ∧ event.bytes.length ≤ eventMax then some (post s event)
    else none
  | .overflow =>
    if roomy = false ∧ s.pc ≠ .addWatch then some { s with present := !s.present, lost := true }
    else none
  | .addWatch =>
    if s.pc = .addWatch then some { s with pc := .testExists, watched := s.present } else none
  | .testExists =>
    if s.pc = .testExists then
      some { s with
        pc := .read
        found := s.present
        commands := if s.present then s.commands ++ [.mount] else s.commands }
    else none
  | .read n =>
    if s.pc = .read ∧ 0 < n ∧ n ≤ s.queue.length ∧ (bytesOf (s.queue.take n)).length ≤ bufLen then
      some (read s n)
    else none
  | .handle => if s.pc = .loop then some (handle s) else none
  | .fail =>
    -- `inotify_init`, `inotify_add_watch` or `read` returns an error
    if s.pc = .addWatch ∨ s.pc = .read then some { s with pc := .finished } else none

def system (roomy present : Bool) : System State Action where
  init := init present
  step := step roomy

def Action.own : Action → Bool
  | .addWatch | .testExists | .read _ | .handle => true
  | .plug _ | .unplug _ | .other _ | .overflow | .fail => false

/-- The steps that an event of the directory is good for, a lost one, and an error. -/
def Action.gain : Action → Nat
  | .plug _ | .unplug _ | .other _ => 4
  | .overflow | .fail => 1
  | .addWatch | .testExists | .read _ | .handle => 0

structure Unhandled (eventBuffer : Memory) (i bytesRead : Nat) (batch : List RawEvent) : Prop where
  holds : Holds eventBuffer i (bytesOf batch)
  stop : i + (bytesOf batch).length = bytesRead
  room : bytesRead ≤ bufLen

def AtPlace (s : State) : Prop :=
  match s.pc with
  | .addWatch => s.posted = [] ∧ s.queue = [] ∧ s.batch = [] ∧ s.commands = [] ∧ s.found = false
  | .testExists => s.batch = [] ∧ s.commands = [] ∧ s.found = false
  | .read => s.batch = []
  | .loop => Unhandled s.eventBuffer s.i s.bytesRead s.batch
  | .finished => True
  | .misread => False

def Pc.watching : Pc → Bool
  | .testExists | .read | .loop => true
  | .addWatch | .finished | .misread => false

structure Invariant (s : State) : Prop where
  room : ∀ event ∈ s.queue, event.bytes.length ≤ eventMax
  place : AtPlace s
  history : ∃ handled, s.posted = handled ++ (s.batch ++ s.queue) ∧
    s.commands = (if s.found then [.mount] else []) ++ actions handled
  follows : s.pc.watching = true → s.lost = false →
    follow s.watched (actions s.posted) = some s.present

theorem actions_append (xs ys : List RawEvent) : actions (xs ++ ys) = actions xs ++ actions ys := by
  rw [actions_eq, actions_eq, actions_eq, List.map_append, List.filterMap_append]

theorem actions_cons (event : RawEvent) (events : List RawEvent) :
    actions (event :: events) = (handleEvent event.event).toList ++ actions events := by
  rw [actions_eq, actions_eq, List.map_cons, filterMap_cons_toList]

theorem actions_singleton (event : RawEvent) : actions [event] = (handleEvent event.event).toList := by
  rw [actions_cons]
  exact List.append_nil _

theorem length_bytesOf_cons (event : RawEvent) (events : List RawEvent) :
    (bytesOf (event :: events)).length = event.bytes.length + (bytesOf events).length := by
  rw [bytesOf, List.flatMap_cons, List.length_append]
  rfl

section Handle

variable {s : State}

theorem handle_of_nil (h : Unhandled s.eventBuffer s.i s.bytesRead s.batch) (hbatch : s.batch = []) :
    handle s = { s with pc := .read } := by
  have hstop : s.i = s.bytesRead := by
    rw [← h.stop, hbatch]
    rfl
  rw [handle, if_neg hstop.not_lt]

variable {event : RawEvent} {rest : List RawEvent}

theorem handle_of_cons (h : Unhandled s.eventBuffer s.i s.bytesRead s.batch)
    (hbatch : s.batch = event :: rest) :
    handle s = { s with
      i := s.i + event.bytes.length
      commands := s.commands ++ (handleEvent event.event).toList
      batch := rest } := by
  have hlength := event.length_bytes
  have hbytes := length_bytesOf_cons event rest
  have hstop := h.stop
  have hroom := h.room
  have hbuf : bufLen < 2 ^ 32 := by decide
  have hholds := h.holds
  rw [hbatch] at hstop hholds
  rw [bytesOf, List.flatMap_cons] at hholds
  have hstands := stands_of_holds (holds_append.mp hholds).1
  have hnext : 16 + (BitVec.ofNat 32 event.area.bytes.length).toNat = event.bytes.length := by
    rw [BitVec.toNat_ofNat, Nat.mod_eq_of_lt (by omega), hlength]
  rw [handle, if_pos (by omega), handleAt_eq hstands (by omega) (by omega),
    read32_eq (Nat.zero_le _) (by omega), hstands.len]
  simp only [hnext, hbatch, List.tail_cons]

theorem Unhandled.tail {eventBuffer : Memory} {i bytesRead : Nat}
    (h : Unhandled eventBuffer i bytesRead (event :: rest)) :
    Unhandled eventBuffer (i + event.bytes.length) bytesRead rest := by
  have hstop := h.stop
  have hholds := h.holds
  rw [length_bytesOf_cons, ← Nat.add_assoc] at hstop
  rw [bytesOf, List.flatMap_cons] at hholds
  exact ⟨(holds_append.mp hholds).2, hstop, h.room⟩

end Handle

section Steps

variable {roomy present : Bool} {s t : State}

theorem invariant_init (h : init present s) : Invariant s := by
  obtain ⟨-, hpc, hqueue, hcommands, hfound, hposted, hbatch, -⟩ := h
  refine ⟨?_, ?_, ⟨[], ?_, ?_⟩, ?_⟩
  · simp [hqueue]
  · rw [AtPlace, hpc]
    exact ⟨hposted, hqueue, hbatch, hcommands, hfound⟩
  · simp [hposted, hbatch, hqueue]
  · rw [hcommands, hfound]
    rfl
  · intro hwatching
    rw [hpc] at hwatching
    cases hwatching

theorem Invariant.post (h : Invariant s) {event : RawEvent} {after : Bool}
    (hroom : event.bytes.length ≤ eventMax)
    (hfollows : ∀ watched commands, follow watched commands = some s.present →
      follow watched (commands ++ (handleEvent event.event).toList) = some after) :
    Invariant (post { s with present := after } event) := by
  have hplace := h.place
  rw [StorageWatcherBytes.post]
  split
  · rename_i hpc
    refine ⟨h.room, hplace, h.history, fun hwatching _ => ?_⟩
    rw [show s.pc = .addWatch from hpc] at hwatching
    cases hwatching
  · rename_i hpc
    obtain ⟨handled, hposted, hcommands⟩ := h.history
    refine ⟨?_, ?_, ⟨handled, ?_, hcommands⟩, fun hwatching hkept => ?_⟩
    · intro e he
      obtain he | he := List.mem_append.mp he
      · exact h.room e he
      · rw [List.mem_singleton.mp he]
        exact hroom
    · rw [AtPlace] at hplace ⊢
      cases hs : s.pc with
      | addWatch => exact absurd hs hpc
      | testExists | read | loop | finished | misread =>
        rw [hs] at hplace
        exact hplace
    · simp only [hposted, List.append_assoc]
    · simp only [actions_append, actions_singleton]
      exact hfollows _ _ (h.follows hwatching hkept)

theorem storage_follows (present : Bool) {event : RawEvent}
    (hevent : event.event = storageEvent (!present))
    (watched : Bool) (commands : List Command) (h : follow watched commands = some present) :
    follow watched (commands ++ (handleEvent event.event).toList) = some (!present) := by
  rw [hevent, handleEvent_storageEvent]
  apply follow_snoc
  rw [h, Bool.not_not]

theorem Invariant.atPlace {p : Pc} (h : Invariant s) (hpc : s.pc = p) : AtPlace { s with pc := p } :=
  hpc ▸ h.place

theorem Invariant.watched {p : Pc} (h : Invariant s) (hpc : s.pc = p) (hp : p.watching = true)
    (hkept : s.lost = false) : follow s.watched (actions s.posted) = some s.present :=
  h.follows (hpc ▸ hp) hkept

/-- After a `read` the events wait in the buffer. -/
theorem Invariant.read (h : Invariant s) {n : Nat} (hpc : s.pc = .read)
    (hroom : (bytesOf (s.queue.take n)).length ≤ bufLen) : Invariant (read s n) := by
  obtain ⟨handled, hposted, hcommands⟩ := h.history
  have hbatch : s.batch = [] := h.atPlace hpc
  refine ⟨fun e he => h.room e (List.mem_of_mem_drop he), ?_, ⟨handled, ?_, hcommands⟩,
    fun _ => h.watched hpc rfl⟩
  · exact ⟨holds_storeBytes _ 0 _, Nat.zero_add _, hroom⟩
  · simp only [StorageWatcherBytes.read, List.take_append_drop]
    rw [hposted, hbatch, List.nil_append]

theorem Invariant.handle (h : Invariant s) (hpc : s.pc = .loop) : Invariant (handle s) := by
  have hunhandled : Unhandled s.eventBuffer s.i s.bytesRead s.batch := h.atPlace hpc
  obtain ⟨handled, hposted, hcommands⟩ := h.history
  cases hbatch : s.batch with
  | nil =>
    rw [handle_of_nil hunhandled hbatch]
    exact ⟨h.room, hbatch, ⟨handled, hposted, hcommands⟩, fun _ => h.watched hpc rfl⟩
  | cons event rest =>
    rw [handle_of_cons hunhandled hbatch]
    rw [hbatch] at hunhandled
    refine ⟨h.room, ?_, ⟨handled ++ [event], ?_, ?_⟩, h.follows⟩
    · rw [AtPlace, hpc]
      exact hunhandled.tail
    · simp [hposted, hbatch]
    · simp only [hcommands, actions_append, actions_singleton, List.append_assoc]

theorem Invariant.step (h : Invariant s) {a : Action} (ht : (system roomy present).step s a = some t) :
    Invariant t := by
  cases a with
  | plug event =>
    simp only [system, StorageWatcherBytes.step, Option.ite_none_right_eq_some] at ht
    obtain ⟨⟨hp, hevent, hroom⟩, ⟨⟩⟩ := ht
    apply h.post hroom
    rw [hp]
    exact storage_follows false hevent
  | unplug event =>
    simp only [system, StorageWatcherBytes.step, Option.ite_none_right_eq_some] at ht
    obtain ⟨⟨hp, hevent, hroom⟩, ⟨⟩⟩ := ht
    apply h.post hroom
    rw [hp]
    exact storage_follows true hevent
  | other event =>
    simp only [system, StorageWatcherBytes.step, Option.ite_none_right_eq_some] at ht
    obtain ⟨⟨hname, hroom⟩, ⟨⟩⟩ := ht
    refine h.post (s := s) hroom fun watched commands hfollow => ?_
    rw [handleEvent_of_ne hname, Option.toList_none, List.append_nil]
    exact hfollow
  | overflow =>
    simp only [system, StorageWatcherBytes.step, Option.ite_none_right_eq_some] at ht
    obtain ⟨-, ⟨⟩⟩ := ht
    refine ⟨h.room, h.place, h.history, fun _ hkept => ?_⟩
    cases hkept
  | addWatch =>
    simp only [system, StorageWatcherBytes.step, Option.ite_none_right_eq_some] at ht
    obtain ⟨hpc, ⟨⟩⟩ := ht
    obtain ⟨hposted, -, hrest⟩ := h.atPlace hpc
    refine ⟨h.room, hrest, h.history, fun _ _ => ?_⟩
    rw [show s.posted = [] from hposted]
    rfl
  | testExists =>
    simp only [system, StorageWatcherBytes.step, Option.ite_none_right_eq_some] at ht
    obtain ⟨hpc, ⟨⟩⟩ := ht
    obtain ⟨hbatch, hempty, hfound⟩ := h.atPlace hpc
    simp only at hempty hfound
    obtain ⟨handled, hposted, hcommands⟩ := h.history
    refine ⟨h.room, hbatch, ⟨handled, hposted, ?_⟩, fun _ => h.watched hpc rfl⟩
    rw [hempty, hfound] at hcommands
    rw [hempty]
    cases s.present
    · exact hcommands
    · exact congrArg _ hcommands
  | read n =>
    simp only [system, StorageWatcherBytes.step, Option.ite_none_right_eq_some] at ht
    obtain ⟨⟨hpc, -, -, hroom⟩, ⟨⟩⟩ := ht
    exact h.read hpc hroom
  | handle =>
    simp only [system, StorageWatcherBytes.step, Option.ite_none_right_eq_some] at ht
    obtain ⟨hpc, ⟨⟩⟩ := ht
    exact h.handle hpc
  | fail =>
    simp only [system, StorageWatcherBytes.step, Option.ite_none_right_eq_some] at ht
    obtain ⟨-, ⟨⟩⟩ := ht
    exact ⟨h.room, trivial, h.history, fun hwatching => by cases hwatching⟩

theorem invariant (h : Reachable (system roomy present) s) : Invariant s := by
  induction h with
  | init h => exact invariant_init h
  | step _ hs ih => exact ih.step hs

def Pc.decode : Pc → StorageWatcher.Pc
  | .addWatch => .addWatch
  | .testExists => .testExists
  | .read | .loop => .loop
  | .finished | .misread => .finished

def State.decode (s : State) : StorageWatcher.State where
  present := s.present
  pc := s.pc.decode
  queue := s.queue.map RawEvent.event
  eventBuffer := s.batch.map RawEvent.event
  commands := s.commands

theorem decode_eq_addWatch {p : Pc} : p.decode = .addWatch ↔ p = .addWatch := by
  cases p <;> decide

theorem decode_post (s : State) (event : RawEvent) :
    (post s event).decode = { s.decode with queue := StorageWatcher.post s.decode event.event } := by
  rw [post, StorageWatcher.post]
  by_cases hpc : s.pc = .addWatch
  · have hdecode : s.decode.pc = .addWatch := decode_eq_addWatch.mpr hpc
    rw [if_pos hpc, if_pos hdecode]
  · have hdecode : s.decode.pc ≠ .addWatch := fun h => hpc (decode_eq_addWatch.mp h)
    rw [if_neg hpc, if_neg hdecode]
    simp [State.decode]

theorem decode_read {n : Nat} (hpc : s.pc = .read) :
    (read s n).decode =
      { s.decode with
        eventBuffer := s.decode.queue.take n
        queue := s.decode.queue.drop n } := by
  simp [State.decode, read, Pc.decode, hpc, List.map_take, List.map_drop]

theorem decode_handle (hpc : s.pc = .loop) (h : Unhandled s.eventBuffer s.i s.bytesRead s.batch) :
    (handle s).decode = s.decode ∨
      (StorageWatcher.system present).step s.decode .handle = some (handle s).decode := by
  cases hbatch : s.batch with
  | nil =>
    rw [handle_of_nil h hbatch]
    left
    simp [State.decode, Pc.decode, hpc]
  | cons event rest =>
    rw [handle_of_cons h hbatch]
    right
    simp [StorageWatcher.system, StorageWatcher.step, State.decode, Pc.decode, hpc, hbatch]

/-- The bytes in the buffer make no difference to the commands, where the kernel drops no events. -/
theorem watcher_refines (present : Bool) :
    Refines (system true present) (StorageWatcher.system present) State.decode where
  init := by
    rintro s ⟨hp, hpc, hqueue, hcommands, -, -, hbatch, -⟩
    simp [StorageWatcher.system, StorageWatcher.init, State.decode, Pc.decode, hp, hpc, hqueue, hbatch,
      hcommands]
  step := by
    intro s a t hs ht
    have hinv := invariant hs
    cases a with
    | plug event =>
      simp only [system, step, Option.ite_none_right_eq_some] at ht
      obtain ⟨⟨hp, hevent, -⟩, ⟨⟩⟩ := ht
      refine .inr ⟨.plug, ?_⟩
      rw [decode_post, hevent]
      exact if_neg (by simp [State.decode, hp])
    | unplug event =>
      simp only [system, step, Option.ite_none_right_eq_some] at ht
      obtain ⟨⟨hp, hevent, -⟩, ⟨⟩⟩ := ht
      refine .inr ⟨.unplug, ?_⟩
      rw [decode_post, hevent]
      exact if_pos hp
    | other event =>
      simp only [system, step, Option.ite_none_right_eq_some] at ht
      obtain ⟨⟨hname, -⟩, ⟨⟩⟩ := ht
      refine .inr ⟨.other event.event, ?_⟩
      rw [decode_post]
      exact if_neg hname
    | overflow =>
      simp only [system, step, Option.ite_none_right_eq_some] at ht
      exact absurd ht.1.1 (by decide)
    | addWatch =>
      simp only [system, step, Option.ite_none_right_eq_some] at ht
      obtain ⟨hpc, ⟨⟩⟩ := ht
      exact .inr ⟨.addWatch, if_pos (decode_eq_addWatch.mpr hpc)⟩
    | testExists =>
      simp only [system, step, Option.ite_none_right_eq_some] at ht
      obtain ⟨hpc, ⟨⟩⟩ := ht
      exact .inr ⟨.testExists, if_pos (congrArg Pc.decode hpc)⟩
    | read n =>
      simp only [system, step, Option.ite_none_right_eq_some] at ht
      obtain ⟨⟨hpc, hpos, hle, -⟩, ⟨⟩⟩ := ht
      have hbatch : s.batch = [] := hinv.atPlace hpc
      refine .inr ⟨.read n, ?_⟩
      rw [decode_read hpc]
      have hlength : s.decode.queue.length = s.queue.length := List.length_map _
      exact if_pos ⟨congrArg Pc.decode hpc, congrArg (List.map RawEvent.event) hbatch, hpos,
        hle.trans_eq hlength.symm⟩
    | handle =>
      simp only [system, step, Option.ite_none_right_eq_some] at ht
      obtain ⟨hpc, ⟨⟩⟩ := ht
      have hunhandled : Unhandled s.eventBuffer s.i s.bytesRead s.batch := hinv.atPlace hpc
      obtain heq | hnext := decode_handle hpc hunhandled
      · exact .inl heq
      · exact .inr ⟨.handle, hnext⟩
    | fail =>
      simp only [system, step, Option.ite_none_right_eq_some] at ht
      obtain ⟨hpc, ⟨⟩⟩ := ht
      refine .inr ⟨.fail, if_pos ?_⟩
      obtain hpc | hpc := hpc
      · exact .inl (congrArg Pc.decode hpc)
      · exact .inr ⟨congrArg Pc.decode hpc, congrArg (List.map RawEvent.event) (hinv.atPlace hpc)⟩

def remaining (s : State) : Nat :=
  3 * s.queue.length + s.batch.length +
    match s.pc with
    | .addWatch => 2
    | .testExists | .loop => 1
    | .read | .finished | .misread => 0

theorem post_remaining (s : State) (present : Bool) (event : RawEvent) :
    remaining (post { s with present := present } event) ≤ remaining s + 3 := by
  rw [post]
  split
  · exact Nat.le_add_right _ _
  · simp only [remaining, List.length_append, List.length_singleton]
    omega

theorem step_remaining {a : Action} (h : Invariant s) (ht : (system roomy present).step s a = some t) :
    remaining t + 1 ≤ remaining s + a.gain := by
  cases a with
  | plug event | unplug event =>
    simp only [system, step, Option.ite_none_right_eq_some] at ht
    obtain ⟨-, ⟨⟩⟩ := ht
    exact Nat.succ_le_succ (post_remaining s _ event)
  | other event =>
    simp only [system, step, Option.ite_none_right_eq_some] at ht
    obtain ⟨-, ⟨⟩⟩ := ht
    exact Nat.succ_le_succ (post_remaining s s.present event)
  | overflow =>
    simp only [system, step, Option.ite_none_right_eq_some] at ht
    obtain ⟨-, ⟨⟩⟩ := ht
    exact le_rfl
  | fail =>
    simp only [system, step, Option.ite_none_right_eq_some] at ht
    obtain ⟨hpc, ⟨⟩⟩ := ht
    simp [remaining, Action.gain]
  | addWatch | testExists =>
    simp only [system, step, Option.ite_none_right_eq_some] at ht
    obtain ⟨hpc, ⟨⟩⟩ := ht
    simp [remaining, hpc, Action.gain]
  | read n =>
    simp only [system, step, Option.ite_none_right_eq_some] at ht
    obtain ⟨⟨hpc, hpos, hle, -⟩, ⟨⟩⟩ := ht
    simp only [remaining, read, hpc, List.length_drop, List.length_take, Action.gain]
    omega
  | handle =>
    simp only [system, step, Option.ite_none_right_eq_some] at ht
    obtain ⟨hpc, ⟨⟩⟩ := ht
    have hunhandled : Unhandled s.eventBuffer s.i s.bytesRead s.batch := h.atPlace hpc
    cases hbatch : s.batch with
    | nil =>
      rw [handle_of_nil hunhandled hbatch]
      simp [remaining, hpc, Action.gain]
    | cons event rest =>
      rw [handle_of_cons hunhandled hbatch]
      simp [remaining, hbatch, hpc, Action.gain]

theorem length_le_remaining {as : List Action} (h : Invariant s)
    (he : exec (system roomy present) s as = some t) :
    as.length + remaining t ≤ remaining s + (as.map Action.gain).sum :=
  (length_le_of_gain (G := fun _ => True) (fun _ _ _ hu hv => hu.step hv)
    (fun _ _ _ hu hv _ => ⟨trivial, step_remaining hu hv⟩) h he trivial).2

/-- The program waits in `read`, as long as no event comes and no call fails. -/
theorem drained_of_quiet (h : Invariant s) (hpc : s.pc ≠ .finished)
    (hquiet : ∀ a : Action, a.own = true → (system roomy present).step s a = none) :
    s.pc = .read ∧ s.batch = [] ∧ s.queue = [] := by
  cases hs : s.pc with
  | finished => exact absurd hs hpc
  | misread => exact (h.atPlace hs).elim
  | addWatch =>
    have hnone := hquiet .addWatch rfl
    simp [system, step, hs] at hnone
  | testExists =>
    have hnone := hquiet .testExists rfl
    simp [system, step, hs] at hnone
  | loop =>
    have hnone := hquiet .handle rfl
    simp [system, step, hs] at hnone
  | read =>
    refine ⟨rfl, h.atPlace hs, ?_⟩
    cases hqueue : s.queue with
    | nil => rfl
    | cons event rest =>
      -- one event always fits in the buffer
      have hroom := h.room event (hqueue ▸ List.mem_cons_self)
      have hbuf : eventMax ≤ bufLen := by decide
      have hnone := hquiet (.read 1) rfl
      simp [system, step, hs, hqueue, bytesOf, hroom.trans hbuf] at hnone

/-- However the reads cut the events of the directory into batches, the commands are those of
the queued events in their order, the bytes in the buffer are read as the kernel wrote them, and the
program catches up, with the storage as it is if no event of it was lost. -/
theorem watcher_catchesUp (h : Reachable (system roomy present) s) :
    s.pc ≠ .misread ∧
    (∃ handled, s.posted = handled ++ (s.batch ++ s.queue) ∧
      s.commands = (if s.found then [.mount] else []) ++ actions handled) ∧
    (∀ as t, exec (system roomy present) s as = some t →
      as.length + remaining t ≤ remaining s + (as.map Action.gain).sum) ∧
    (s.pc ≠ .finished → (∀ a : Action, a.own = true → (system roomy present).step s a = none) →
      s.commands = (if s.found then [.mount] else []) ++ actions s.posted ∧
      (s.found = s.watched → s.lost = false → follow false s.commands = some s.present)) := by
  have hinv := invariant h
  obtain ⟨handled, hposted, hcommands⟩ := hinv.history
  refine ⟨fun hpc => hinv.atPlace hpc, ⟨handled, hposted, hcommands⟩, fun as t he => ?_,
    fun hpc hquiet => ?_⟩
  · exact length_le_remaining hinv he
  · obtain ⟨hread, hbatch, hqueue⟩ := drained_of_quiet hinv hpc hquiet
    have hall : s.commands = (if s.found then [.mount] else []) ++ actions s.posted := by
      rw [hcommands, hposted, hbatch, hqueue, List.append_nil, List.append_nil]
    refine ⟨hall, fun hfound hkept => ?_⟩
    have hfollow := hinv.watched hread rfl hkept
    have hfirst : follow false (if s.found then [.mount] else []) = some s.found := by
      cases s.found <;> rfl
    rw [hall, follow_append, hfirst, Option.bind_some, hfound, hfollow]

def start (present : Bool) : State :=
  ⟨present, .addWatch, [], ofList [], 0, 0, [], false, false, [], [], false⟩

theorem zero_notMem_storageDevName : 0 ∉ storageDevName := by decide

def plugRun : List Action :=
  [.addWatch, .testExists, .other ⟨1, inDelete, 0, .absent⟩,
    .plug ⟨1, inCreate, 0, .name storageDevName [0, 0, 0, 0, 0, 0] zero_notMem_storageDevName⟩, .read 2,
    .handle, .handle, .handle]

theorem watcher_catchesUp_plugRun :
    ∃ s, Reachable (system false false) s ∧ s.present = true ∧ s.commands = [.mount] ∧
      s.commands = (if s.found then [.mount] else []) ++ actions s.posted ∧
      follow false s.commands = some s.present := by
  obtain ⟨s, hs, hpc, hqueue, hpresent, hcommands, hfound, hkept⟩ :=
    exists_reachable (M := system false false) (s := start false)
      (P := fun s => s.pc = .read ∧ s.queue.length = 0 ∧ s.present = true ∧ s.commands = [.mount] ∧
        s.found = s.watched ∧ s.lost = false) ⟨rfl, rfl, rfl, rfl, rfl, rfl, rfl, rfl⟩ plugRun
        (by decide +kernel)
  have hquiet : ∀ a : Action, a.own = true → (system false false).step s a = none := by
    intro a ha
    cases a with
    | plug | unplug | other | overflow | fail => cases ha
    | addWatch | testExists | handle => simp [system, step, hpc]
    | read n =>
      refine if_neg fun hn => ?_
      omega
  obtain ⟨hall, hfollow⟩ := (watcher_catchesUp hs).2.2.2 (by rw [hpc]; decide) hquiet
  exact ⟨s, hs, hpresent, hcommands, hall, hfollow hfound hkept⟩

end Steps

end RoblSampleCodes.StorageWatcherBytes
