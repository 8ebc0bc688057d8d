import RoblSampleCodes.IpChanged
import RoblSampleCodes.TransitionSystem

namespace RoblSampleCodes.IpMonitor

open TransitionSystem ByteMemory AlignedRecords Rtnetlink InterfaceTable InterfaceTableDump IpChanged

inductive Family
  | inet
  | inet6
  | other
  deriving DecidableEq

structure IfAddr where
  name : List Byte
  family : Option Family
  running : Bool
  host : Option (List Byte)
  deriving DecidableEq

abbrev Line := List Byte × Bool

/-- The first entry of the interface with the wanted family and a text; `active` may be set by
entries before it. -/
def getNicAddr (nic : List Byte) (wantedFamily : Family) :
    List IfAddr → Option Bool → Option (List Byte) × Option Bool
  | [], active => (none, active)
  | ifa :: rest, active =>
    match ifa.family with
    | none => getNicAddr nic wantedFamily rest active
    | some family =>
      if ifa.name ≠ nic then getNicAddr nic wantedFamily rest active
      else if family ≠ wantedFamily then getNicAddr nic wantedFamily rest active
      else
        match ifa.host with
        | none => getNicAddr nic wantedFamily rest (some ifa.running)
        | some host => (some host, some ifa.running)

/-- There is no line if `active` would be printed without a value. -/
def printIp (nic : List Byte) (ifaddr : List IfAddr) : Option Line :=
  match getNicAddr nic .inet ifaddr none with
  | (some addr, active) => active.map (fun a => (addr, a))
  | (none, active) =>
    match getNicAddr nic .inet6 ifaddr active with
    | (some addr, active) => active.map (fun a => (addr, a))
    | (none, _) => some (ascii "127.0.0.1", false)

/-- Places in `main` and `ip_changed`, which looks up the index of the interface after it has
received a message. -/
inductive Pc
  | printFirst
  | createSock
  | recv
  | examine (m : List Byte)
  | print
  | returned
  deriving DecidableEq

/-- The addresses of the host, the index of the interface with the name (0 if there is none), the
datagrams that wait in the socket, and the lines printed. -/
structure State where
  ifaddr : List IfAddr
  index : BitVec 32
  pc : Pc
  queue : List (List Byte)
  buffer : Memory
  lines : List Line

inductive Action
  | change (m : List Byte) (ifaddr : List IfAddr) (index : BitVec 32)
  | print
  | printFails
  | createSock
  | recv
  | examine
  | fail

structure Notification (m : List Byte) : Prop where
  isRecord : IsRecord nlmsghdr m
  body : HasBody m
  length : m.length ≤ bufferLen
  type : typeOf m ≠ nlmsgDone

instance (m : List Byte) : Decidable (Notification m) :=
  decidable_of_iff (((nlmsghdr.hdr ≤ m.length ∧ nlmsghdr.len (ofList m) 0 = m.length) ∧ HasBody m) ∧
      m.length ≤ bufferLen ∧ typeOf m ≠ nlmsgDone)
    ⟨fun h => ⟨h.1.1, h.1.2, h.2.1, h.2.2⟩, fun h => ⟨⟨h.isRecord, h.body⟩, h.length, h.type⟩⟩

variable (nic : List Byte)

def entries (ifaddr : List IfAddr) : List IfAddr := ifaddr.filter (fun ifa => ifa.name = nic)

def socketOpen : Pc → Bool
  | .recv | .examine _ | .print => true
  | .printFirst | .createSock | .returned => false

def afterPrint : Pc → Pc
  | .printFirst => .createSock
  | _ => .recv

def Changes (s : State) (ifaddr : List IfAddr) (index : BitVec 32) : Prop :=
  entries nic ifaddr ≠ entries nic s.ifaddr ∨ index ≠ s.index

instance (s : State) (ifaddr : List IfAddr) (index : BitVec 32) : Decidable (Changes nic s ifaddr index) :=
  inferInstanceAs (Decidable (_ ∨ _))

/-- A change about the interface, the kernel announces under its index, the old one or the new one. -/
def step (s : State) : Action → Option State
  | .change m ifaddr index =>
    if Notification m ∧ (Changes nic s ifaddr index → Announces s.index m ∨ Announces index m) then
      some { s with
        ifaddr := ifaddr
        index := index
        queue := if socketOpen s.pc then s.queue ++ [m] else s.queue }
    else none
  | .print =>
    if s.pc = .printFirst ∨ s.pc = .print then
      (printIp nic s.ifaddr).map fun line =>
        { s with pc := afterPrint s.pc, lines := s.lines ++ [line] }
    else none
  | .printFails =>
    -- `getifaddrs` fails
    if s.pc = .printFirst ∨ s.pc = .print then some { s with pc := afterPrint s.pc } else none
  | .createSock => if s.pc = .createSock then some { s with pc := .recv } else none
  | .recv =>
    match s.pc, s.queue with
    | .recv, m :: queue => some { s with pc := .examine m, queue := queue }
    | _, _ => none
  | .examine =>
    match s.pc with
    | .examine m =>
      (ipChanged (m.length + 1) s.buffer s.index (some m)).map fun ret : Int =>
        { s with
          pc := if ret < 0 then .returned else if ret ≠ 0 then .print else .recv
          buffer := IpChanged.recv s.buffer m }
    | _ => none
  | .fail => if s.pc = .createSock ∨ s.pc = .recv then some { s with pc := .returned } else none

def system : System State Action where
  init s := s.pc = .printFirst ∧ s.queue = [] ∧ s.lines = []
  step := step nic

def Fresh (s : State) : Prop := ∃ line, printIp nic s.ifaddr = some line ∧ s.lines.getLast? = some line

def Current (s : State) : Prop := s.pc = .recv → s.queue = [] → Fresh nic s

def unseen (s : State) : List (List Byte) :=
  match s.pc with
  | .recv => s.queue
  | .examine m => m :: s.queue
  | _ => []

def Printing (p : Pc) : Prop := p = .printFirst ∨ p = .print ∨ p = .returned

def Due (s : State) : Prop := Printing s.pc ∨ ∃ m ∈ unseen s, AnnouncesNew s.index m

/-- A change of the line comes while a print is due, or a message of the interface that has the name
now is among those that wait. The list can be had when a line is due that no message asks for once more. -/
def Noticed (s : State) : Action → Prop
  | .change m ifaddr index =>
    Fresh nic { s with ifaddr := ifaddr } ∨ Printing s.pc ∨
      s.pc ≠ .createSock ∧ ∃ m' ∈ unseen s ++ [m], AnnouncesNew index m'
  | .printFails => Fresh nic s ∨ s.pc = .print ∧ ∃ m ∈ s.queue, AnnouncesNew s.index m
  | .print | .createSock | .recv | .examine | .fail => True

section Print

variable {nic : List Byte}

end Print

theorem ipChanged_notification {m : List Byte} (h : Notification m) (buffer : Memory) (idx : BitVec 32) :
    ipChanged (m.length + 1) buffer idx (some m) = some (if AnnouncesNew idx m then 1 else 0) := by
  have hpos : 0 < m.length := nlmsghdr.hdr_pos.trans_le h.isRecord.1
  have hdatagram : IsDatagram [m] m :=
    ⟨.last h.isRecord, List.ne_nil_of_length_pos hpos, by simpa using h.body⟩
  have hwhole : whole bufferLen [m] = [m] := if_pos h.length
  have hbefore : beforeDone [m] = [m] := List.takeWhile_cons_of_pos (by simpa using h.type)
  rw [ipChanged_eq hdatagram buffer idx (Nat.lt_succ_self _), hwhole, hbefore]
  simp only [List.mem_singleton, exists_eq_left]

variable {nic : List Byte} {s t : State}

structure Invariant (s : State) : Prop where
  sent : ∀ m ∈ s.queue, Notification m
  received : ∀ m, s.pc = .examine m → Notification m
  closed : s.pc = .printFirst ∨ s.pc = .createSock → s.queue = []

def Answered (nic : List Byte) (s : State) : Prop := Fresh nic s ∨ Due s

section Steps

variable (h : Invariant s)

include h

theorem Invariant.change {m : List Byte} {ifaddr : List IfAddr} {index : BitVec 32}
    (ht : (system nic).step s (.change m ifaddr index) = some t) : Invariant t := by
  simp only [system, step, Option.ite_none_right_eq_some] at ht
  obtain ⟨⟨hm, -⟩, ⟨⟩⟩ := ht
  refine ⟨fun m' hm' => ?_, h.received, fun hpc => ?_⟩
  · simp only at hm'
    split at hm'
    · obtain hm' | hm' := List.mem_append.mp hm'
      · exact h.sent m' hm'
      · exact List.mem_singleton.mp hm' ▸ hm
    · exact h.sent m' hm'
  · have hsocket : socketOpen s.pc = false := by
      rcases hpc with hpc | hpc <;> rw [show s.pc = _ from hpc] <;> rfl
    simp only [hsocket, Bool.false_eq_true, if_false]
    exact h.closed hpc

theorem Invariant.afterPrint (hpc : s.pc = .printFirst ∨ s.pc = .print) (lines : List Line) :
    Invariant { s with pc := afterPrint s.pc, lines := lines } := by
  refine ⟨h.sent, fun m hafter => ?_, fun hafter => ?_⟩
  · rcases hpc with hpc | hpc <;> simp [hpc, IpMonitor.afterPrint] at hafter
  · rcases hpc with hpc | hpc
    · exact h.closed (.inl hpc)
    · simp [hpc, IpMonitor.afterPrint] at hafter

omit h in
theorem recv_cases (ht : (system nic).step s .recv = some t) :
    ∃ m queue, s.pc = .recv ∧ s.queue = m :: queue ∧ t = { s with pc := .examine m, queue := queue } := by
  simp only [system, step] at ht
  split at ht
  · rename_i m queue hpc hqueue
    exact ⟨m, queue, hpc, hqueue, (Option.some.inj ht).symm⟩
  · cases ht

theorem Invariant.examine_cases (ht : (system nic).step s .examine = some t) :
    ∃ m, s.pc = .examine m ∧ t = { s with
      pc := if AnnouncesNew s.index m then .print else .recv
      buffer := IpChanged.recv s.buffer m } := by
  simp only [system, IpMonitor.step] at ht
  split at ht
  · rename_i m hpc
    rw [ipChanged_notification (h.received m hpc), Option.map_some, Option.some.injEq] at ht
    refine ⟨m, hpc, ht.symm.trans ?_⟩
    by_cases hnew : AnnouncesNew s.index m
    · simp only [if_pos hnew]
      rfl
    · simp only [if_neg hnew]
      rfl
  · cases ht

theorem Invariant.step {a : Action} (ht : (system nic).step s a = some t) : Invariant t := by
  cases a with
  | change m ifaddr index => exact h.change ht
  | print =>
    simp only [system, IpMonitor.step, Option.ite_none_right_eq_some, Option.map_eq_some_iff] at ht
    obtain ⟨hpc, line, -, rfl⟩ := ht
    exact h.afterPrint hpc _
  | printFails =>
    simp only [system, IpMonitor.step, Option.ite_none_right_eq_some, Option.some.injEq] at ht
    obtain ⟨hpc, rfl⟩ := ht
    exact h.afterPrint hpc s.lines
  | createSock | fail =>
    simp only [system, IpMonitor.step, Option.ite_none_right_eq_some, Option.some.injEq] at ht
    obtain ⟨-, rfl⟩ := ht
    exact ⟨h.sent, fun m hpc => by simp at hpc, fun hpc => by simp at hpc⟩
  | recv =>
    obtain ⟨m, queue, -, hqueue, rfl⟩ := recv_cases ht
    refine ⟨fun m' hm' => h.sent m' (hqueue ▸ List.mem_cons_of_mem m hm'), fun m' hpc => ?_,
      fun hpc => by simp at hpc⟩
    obtain rfl : m = m' := by simpa using hpc
    exact h.sent m (hqueue ▸ List.mem_cons_self)
  | examine =>
    obtain ⟨m, -, rfl⟩ := h.examine_cases ht
    refine ⟨h.sent, fun m' hpc => ?_, fun hpc => ?_⟩ <;>
    · simp only at hpc
      split at hpc <;> simp at hpc

end Steps

section Answers

theorem due_change_iff (m : List Byte) (ifaddr : List IfAddr) (index : BitVec 32) :
    Due { s with
        ifaddr := ifaddr
        index := index
        queue := if socketOpen s.pc then s.queue ++ [m] else s.queue } ↔
      Printing s.pc ∨ s.pc ≠ .createSock ∧ ∃ m' ∈ unseen s ++ [m], AnnouncesNew index m' := by
  cases hpc : s.pc <;> simp [Due, Printing, unseen, hpc, socketOpen]

theorem answered_change_iff {m : List Byte} {ifaddr : List IfAddr} {index : BitVec 32}
    (ht : (system nic).step s (.change m ifaddr index) = some t) :
    Answered nic t ↔ Noticed nic s (.change m ifaddr index) := by
  simp only [system, step, Option.ite_none_right_eq_some] at ht
  obtain ⟨-, ⟨⟩⟩ := ht
  exact or_congr Iff.rfl (due_change_iff m ifaddr index)

theorem answered_printFails_iff (ht : (system nic).step s .printFails = some t) :
    Answered nic t ↔ Noticed nic s .printFails := by
  simp only [system, step, Option.ite_none_right_eq_some, Option.some.injEq] at ht
  obtain ⟨hpc, rfl⟩ := ht
  refine or_congr Iff.rfl ?_
  rcases hpc with hpc | hpc <;> simp [Due, Printing, unseen, hpc, afterPrint]

variable (h : Invariant s)

include h

theorem Invariant.answered {a : Action} (hs : Answered nic s) (hc : Noticed nic s a)
    (ht : (system nic).step s a = some t) : Answered nic t := by
  cases a with
  | change m ifaddr index => exact (answered_change_iff ht).mpr hc
  | print =>
    simp only [system, IpMonitor.step, Option.ite_none_right_eq_some, Option.map_eq_some_iff] at ht
    obtain ⟨-, line, hline, rfl⟩ := ht
    exact .inl ⟨line, hline, List.getLast?_concat⟩
  | printFails => exact (answered_printFails_iff ht).mpr hc
  | createSock =>
    simp only [system, IpMonitor.step, Option.ite_none_right_eq_some, Option.some.injEq] at ht
    obtain ⟨hpc, rfl⟩ := ht
    obtain hfresh | hdue := hs
    · exact .inl hfresh
    · simp [Due, Printing, unseen, hpc] at hdue
  | recv =>
    obtain ⟨m, queue, hpc, hqueue, rfl⟩ := recv_cases ht
    obtain hfresh | hdue := hs
    · exact .inl hfresh
    · simp only [Due, Printing, unseen, hpc, hqueue, reduceCtorEq, false_or] at hdue
      exact .inr (.inr hdue)
  | examine =>
    obtain ⟨m, hpc, rfl⟩ := h.examine_cases ht
    by_cases hnew : AnnouncesNew s.index m
    · exact .inr (.inl (.inr (.inl (if_pos hnew))))
    · obtain hfresh | hdue := hs
      · exact .inl hfresh
      · -- what makes the print due is among the messages that are left
        simp only [Due, Printing, unseen, hpc, reduceCtorEq, false_or, List.exists_mem_cons_iff,
          hnew] at hdue
        refine .inr (.inr ?_)
        simp only [unseen, if_neg hnew]
        exact hdue
  | fail =>
    simp only [system, IpMonitor.step, Option.ite_none_right_eq_some, Option.some.injEq] at ht
    obtain ⟨-, rfl⟩ := ht
    exact .inr (.inl (.inr (.inr rfl)))

omit h in
theorem Answered.current (hs : Answered nic s) : Current nic s := by
  intro hpc hqueue
  obtain hfresh | hdue := hs
  · exact hfresh
  · simp [Due, Printing, unseen, hpc, hqueue] at hdue

end Answers

section Work

def rank : Pc → Nat
  | .printFirst | .examine _ => 3
  | .createSock | .print => 2
  | .recv => 1
  | .returned => 0

def work (s : State) : Nat := 3 * s.queue.length + rank s.pc

def gain : Action → Nat
  | .change _ _ _ => 4
  | .print | .printFails | .createSock | .recv | .examine | .fail => 0

end Work

end RoblSampleCodes.IpMonitor
