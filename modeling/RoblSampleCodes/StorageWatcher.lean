import RoblSampleCodes.InotifyEvent
import RoblSampleCodes.TransitionSystem

namespace RoblSampleCodes.StorageWatcher

open TransitionSystem InotifyEvent

inductive Pc
  | addWatch
  | testExists
  | loop
  | finished
  deriving DecidableEq

/-- Whether the device node exists, the events that wait in the kernel, and those that
were read and not handled yet. -/
structure State where
  present : Bool
  pc : Pc
  queue : List Event
  eventBuffer : List Event
  commands : List Command
  deriving DecidableEq

inductive Action
  | plug
  | unplug
  | other (event : Event)
  | addWatch
  | testExists
  | read (n : Nat)
  | handle
  | fail

/-- Until the watch is added, nothing is queued. -/
def post (s : State) (event : Event) : List Event :=
  if s.pc = .addWatch then s.queue else s.queue ++ [event]

def pending (s : State) : List Command := (s.eventBuffer ++ s.queue).filterMap handleEvent

def init (present : Bool) (s : State) : Prop :=
  s.present = present ∧ s.pc = .addWatch ∧ s.queue = [] ∧ s.eventBuffer = [] ∧ s.commands = []

/-- The storage comes and goes, other files of the directory have events, and `main`
takes its next step. A read returns some of the events, in order. -/
def step (s : State) : Action → Option State
  | .plug =>
    if s.present then none
    else some { s with present := true, queue := post s (storageEvent true) }
  | .unplug =>
    if s.present then some { s with present := false, queue := post s (storageEvent false) }
    else none
  | .other event =>
    if event.name = some storageDevName then none else some { s with queue := post s event }
  | .addWatch => if s.pc = .addWatch then some { s with pc := .testExists } else none
  | .testExists =>
    if s.pc = .testExists then
      some { s with pc := .loop, commands := if s.present then s.commands ++ [.mount] else s.commands }
    else none
  | .read n =>
    if s.pc = .loop ∧ s.eventBuffer = [] ∧ 0 < n ∧ n ≤ s.queue.length then
      some { s with eventBuffer := s.queue.take n, queue := s.queue.drop n }
    else none
  | .handle =>
    match s.pc, s.eventBuffer with
    | .loop, event :: rest =>
      some { s with eventBuffer := rest, commands := s.commands ++ (handleEvent event).toList }
    | _, _ => none
  | .fail =>
    -- `inotify_init`, `inotify_add_watch` or `read` returns an error
    if s.pc = .addWatch ∨ s.pc = .loop ∧ s.eventBuffer = [] then some { s with pc := .finished } else none

def system (present : Bool) : System State Action where
  init := init present
  step := step

def Alternates (commands : List Command) : Prop :=
  ∀ i command, commands[i]? = some command → (command = .mount ↔ i % 2 = 0)

/-- At the existence test, an even number of plugs and unplugs waits. -/
def TestsUnchanged (s : State) : Action → Prop
  | .testExists => (pending s).length % 2 = 0
  | _ => True

def follow (mounted : Bool) : List Command → Option Bool
  | [] => some mounted
  | command :: commands => if command = Command.to (!mounted) then follow (!mounted) commands else none

theorem follow_append (mounted : Bool) (xs ys : List Command) :
    follow mounted (xs ++ ys) = (follow mounted xs).bind fun b => follow b ys := by
  induction xs generalizing mounted with
  | nil => rfl
  | cons x xs ih =>
    simp only [List.cons_append, follow]
    split
    · exact ih _
    · rfl

theorem turn_succ (mounted : Bool) (i : Nat) :
    (mounted ^^ decide ((i + 1) % 2 = 0)) = (!mounted ^^ decide (i % 2 = 0)) := by
  have hparity : decide ((i + 1) % 2 = 0) = !decide (i % 2 = 0) := by
    rw [← decide_not, decide_eq_decide]
    omega
  rw [hparity, Bool.xor_not, Bool.not_xor]

theorem follow_isSome_iff (mounted : Bool) (commands : List Command) :
    (follow mounted commands).isSome ↔ ∀ (i : Nat) (command : Command),
      commands[i]? = some command → command = Command.to (mounted ^^ decide (i % 2 = 0)) := by
  induction commands generalizing mounted with
  | nil => simp [follow]
  | cons c commands ih =>
    have hzero : (mounted ^^ decide (0 % 2 = 0)) = !mounted := Bool.xor_true mounted
    rw [follow]
    constructor
    · intro h i command hi
      split at h
      · rename_i hc
        cases i with
        | zero =>
          rw [hzero, ← hc]
          exact (Option.some.inj hi).symm
        | succ i =>
          rw [turn_succ]
          exact (ih _).mp h i command hi
      · cases h
    · intro h
      have hc : c = Command.to (!mounted) := by
        rw [← hzero]
        exact h 0 c rfl
      rw [if_pos hc, ih]
      intro i command hi
      rw [← turn_succ]
      exact h (i + 1) command hi

theorem alternates_iff (commands : List Command) :
    Alternates commands ↔ (follow false commands).isSome := by
  rw [follow_isSome_iff]
  refine forall_congr' fun i => forall_congr' fun command => imp_congr_right fun _ => ?_
  rw [Bool.false_xor, Command.to]
  cases command <;> simp

theorem follow_parity {mounted after : Bool} {commands : List Command}
    (h : follow mounted commands = some after) : after = mounted ↔ commands.length % 2 = 0 := by
  induction commands generalizing mounted with
  | nil =>
    simp only [follow, Option.some.injEq] at h
    simp [h]
  | cons c commands ih =>
    simp only [follow, Option.ite_none_right_eq_some] at h
    have hlen : (c :: commands).length % 2 = 0 ↔ ¬ commands.length % 2 = 0 := by
      rw [List.length_cons]
      omega
    rw [hlen, ← ih h.2]
    cases after <;> cases mounted <;> decide

/-- The first command cannot follow both presences. -/
theorem follow_not {mounted : Bool} {commands : List Command} (h : (follow mounted commands).isSome)
    (hne : commands ≠ []) : follow (!mounted) commands = none := by
  cases commands with
  | nil => exact absurd rfl hne
  | cons c commands =>
    rw [follow] at h ⊢
    split at h
    · rename_i hc
      rw [if_neg]
      rw [hc]
      cases mounted <;> decide
    · cases h

structure Invariant (s : State) : Prop where
  addWatch : s.pc = .addWatch → s.queue = [] ∧ s.eventBuffer = [] ∧ s.commands = []
  testExists : s.pc = .testExists → s.eventBuffer = [] ∧ s.commands = [] ∧
    ∃ watched, follow watched (pending s) = some s.present
  loop : s.pc = .loop → follow false (s.commands ++ pending s) = some s.present
  finished : s.pc = .finished → Alternates s.commands

theorem invariant_init {present : Bool} {s : State} (h : init present s) : Invariant s := by
  obtain ⟨-, hpc, hempty⟩ := h
  refine ⟨fun _ => hempty, fun h => ?_, fun h => ?_, fun h => ?_⟩ <;>
  · rw [hpc] at h
    cases h

theorem alternates_of_invariant {s : State} (h : Invariant s) : Alternates s.commands := by
  cases hpc : s.pc with
  | addWatch =>
    rw [(h.addWatch hpc).2.2, alternates_iff]
    rfl
  | testExists =>
    rw [(h.testExists hpc).2.1, alternates_iff]
    rfl
  | loop =>
    have hall := h.loop hpc
    rw [follow_append, Option.bind_eq_some_iff] at hall
    obtain ⟨mounted, hmounted, -⟩ := hall
    rw [alternates_iff, hmounted, Option.isSome_some]
  | finished => exact h.finished hpc

theorem filterMap_cons_toList (event : Event) (events : List Event) :
    (event :: events).filterMap handleEvent =
      (handleEvent event).toList ++ events.filterMap handleEvent := by
  rw [List.filterMap_cons]
  cases handleEvent event <;> rfl

theorem pending_post {s : State} (h : s.pc ≠ .addWatch) (present : Bool) (event : Event) :
    pending { s with present := present, queue := post s event } =
      pending s ++ (handleEvent event).toList := by
  simp only [pending, post, if_neg h, ← List.append_assoc, List.filterMap_append, filterMap_cons_toList,
    List.filterMap_nil, List.append_nil]

theorem follow_snoc {mounted present : Bool} {commands : List Command}
    (h : follow mounted commands = some (!present)) :
    follow mounted (commands ++ [.to present]) = some present := by
  rw [follow_append, h, Option.bind_some, follow, Bool.not_not, if_pos rfl]
  rfl

theorem invariant_storage {s : State} (h : Invariant s) {present : Bool} (hp : s.present = !present) :
    Invariant { s with present := present, queue := post s (storageEvent present) } := by
  by_cases hpc : s.pc = .addWatch
  · have hqueue : post s (storageEvent present) = s.queue := if_pos hpc
    rw [hqueue]
    refine ⟨h.addWatch, fun h' => ?_, fun h' => ?_, fun h' => ?_⟩ <;>
    · rw [show s.pc = _ from h'] at hpc
      cases hpc
  · have hpending := pending_post hpc present (storageEvent present)
    rw [handleEvent_storageEvent, Option.toList_some] at hpending
    refine ⟨fun h' => absurd h' hpc, fun h' => ?_, fun h' => ?_, h.finished⟩
    · obtain ⟨hbuffer, hcommands, watched, hwatched⟩ := h.testExists h'
      refine ⟨hbuffer, hcommands, watched, ?_⟩
      rw [hpending]
      exact follow_snoc (hp ▸ hwatched)
    · have hloop := h.loop h'
      rw [hpending, ← List.append_assoc]
      exact follow_snoc (hp ▸ hloop)

theorem invariant_other {s : State} (h : Invariant s) {event : Event}
    (hname : event.name ≠ some storageDevName) : Invariant { s with queue := post s event } := by
  by_cases hpc : s.pc = .addWatch
  · have hqueue : post s event = s.queue := if_pos hpc
    rw [hqueue]
    exact h
  · have hpending := pending_post hpc s.present event
    rw [handleEvent_of_ne hname, Option.toList_none, List.append_nil] at hpending
    refine ⟨fun h' => absurd h' hpc, fun h' => ?_, fun h' => ?_, h.finished⟩
    · rw [hpending]
      exact h.testExists h'
    · rw [hpending]
      exact h.loop h'

theorem follow_test {s : State} (h : Invariant s) (hpc : s.pc = .testExists) :
    ∃ watched, follow watched (pending s) = some s.present ∧
      (watched = s.present ↔ (pending s).length % 2 = 0) := by
  obtain ⟨-, -, watched, hwatched⟩ := h.testExists hpc
  exact ⟨watched, hwatched, eq_comm.trans (follow_parity hwatched)⟩

theorem step_testExists {s t : State} (h : Invariant s) (ht : step s .testExists = some t) :
    s.pc = .testExists ∧ t.pc = .loop ∧ t.present = s.present ∧ t.queue = s.queue ∧ t.eventBuffer = [] ∧
      follow false t.commands = some s.present := by
  simp only [step, Option.ite_none_right_eq_some] at ht
  obtain ⟨hpc, ⟨⟩⟩ := ht
  obtain ⟨hbuffer, hcommands, -⟩ := h.testExists hpc
  refine ⟨hpc, rfl, rfl, rfl, hbuffer, ?_⟩
  simp only [hcommands]
  cases s.present <;> rfl

theorem invariant_of_loop {s : State} (hpc : s.pc = .loop)
    (h : follow false (s.commands ++ pending s) = some s.present) : Invariant s := by
  refine ⟨fun h' => ?_, fun h' => ?_, fun _ => h, fun h' => ?_⟩ <;>
  · rw [hpc] at h'
    cases h'

theorem invariant_testExists {s t : State} (h : Invariant s) (hc : (pending s).length % 2 = 0)
    (ht : step s .testExists = some t) : Invariant t := by
  obtain ⟨hpc, htpc, hpresent, hqueue, hbuffer, hcommands⟩ := step_testExists h ht
  have hpending : pending t = pending s := by
    rw [pending, pending, hqueue, hbuffer, (h.testExists hpc).1]
  obtain ⟨watched, hwatched, hparity⟩ := follow_test h hpc
  rw [hparity.mpr hc] at hwatched
  refine invariant_of_loop htpc ?_
  rw [follow_append, hcommands, Option.bind_some, hpending, hpresent]
  exact hwatched

theorem invariant_loop {s t : State} (h : Invariant s) (hs : s.pc = .loop) (ht : t.pc = .loop)
    (hpresent : t.present = s.present) (hall : t.commands ++ pending t = s.commands ++ pending s) :
    Invariant t := by
  refine invariant_of_loop ht ?_
  rw [hall, hpresent]
  exact h.loop hs

theorem step_handle_eq_some {s t : State} (ht : step s .handle = some t) :
    ∃ event rest, s.pc = .loop ∧ s.eventBuffer = event :: rest ∧
      t = { s with eventBuffer := rest, commands := s.commands ++ (handleEvent event).toList } := by
  simp only [step] at ht
  split at ht
  · rename_i event rest hpc hbuffer
    exact ⟨event, rest, hpc, hbuffer, (Option.some.inj ht).symm⟩
  · cases ht

theorem invariant_step {s t : State} {a : Action} (h : Invariant s) (hc : TestsUnchanged s a)
    (ht : step s a = some t) : Invariant t := by
  cases a with
  | plug =>
    simp only [step, Option.ite_none_left_eq_some, Bool.not_eq_true] at ht
    obtain ⟨hp, ⟨⟩⟩ := ht
    exact invariant_storage h hp
  | unplug =>
    simp only [step, Option.ite_none_right_eq_some] at ht
    obtain ⟨hp, ⟨⟩⟩ := ht
    exact invariant_storage h hp
  | other event =>
    simp only [step, Option.ite_none_left_eq_some] at ht
    obtain ⟨hname, ⟨⟩⟩ := ht
    exact invariant_other h hname
  | addWatch =>
    simp only [step, Option.ite_none_right_eq_some] at ht
    obtain ⟨hpc, ⟨⟩⟩ := ht
    obtain ⟨hqueue, hbuffer, hcommands⟩ := h.addWatch hpc
    refine ⟨by simp, fun _ => ⟨hbuffer, hcommands, s.present, ?_⟩, by simp, by simp⟩
    simp only [pending, hqueue, hbuffer]
    rfl
  | testExists => exact invariant_testExists h hc ht
  | read n =>
    simp only [step, Option.ite_none_right_eq_some] at ht
    obtain ⟨⟨hpc, hbuffer, -, -⟩, ⟨⟩⟩ := ht
    refine invariant_loop h hpc hpc rfl ?_
    simp only [pending, hbuffer, List.take_append_drop, List.nil_append]
  | handle =>
    obtain ⟨event, rest, hpc, hbuffer, rfl⟩ := step_handle_eq_some ht
    refine invariant_loop h hpc hpc rfl ?_
    simp only [pending, hbuffer, List.cons_append, filterMap_cons_toList, List.append_assoc]
  | fail =>
    simp only [step, Option.ite_none_right_eq_some] at ht
    obtain ⟨-, ⟨⟩⟩ := ht
    have halternates := alternates_of_invariant h
    exact ⟨by simp, by simp, by simp, fun _ => halternates⟩

theorem exec_handle (present : Bool) {s : State} {buffer : List Event} (hpc : s.pc = .loop)
    (hbuffer : s.eventBuffer = buffer) :
    ∃ t, exec (system present) s (List.replicate buffer.length .handle) = some t ∧
      t.commands = s.commands ++ buffer.filterMap handleEvent := by
  induction buffer generalizing s with
  | nil => exact ⟨s, rfl, (List.append_nil _).symm⟩
  | cons event rest ih =>
    have hstep : (system present).step s .handle =
        some { s with eventBuffer := rest, commands := s.commands ++ (handleEvent event).toList } := by
      simp only [system, step, hpc, hbuffer]
    obtain ⟨t, ht, hcommands⟩ := ih
      (s := { s with eventBuffer := rest, commands := s.commands ++ (handleEvent event).toList }) hpc rfl
    refine ⟨t, ?_, ?_⟩
    · rw [List.length_cons, List.replicate_succ, exec, hstep, Option.bind_some, ht]
    · rw [hcommands, filterMap_cons_toList, List.append_assoc]

theorem exec_queue (present : Bool) {s : State} (hpc : s.pc = .loop) (hbuffer : s.eventBuffer = [])
    (hne : s.queue ≠ []) :
    ∃ as t, exec (system present) s as = some t ∧
      t.commands = s.commands ++ s.queue.filterMap handleEvent := by
  have hread : (system present).step s (.read s.queue.length) =
      some { s with eventBuffer := s.queue, queue := [] } := by
    simp only [system, step, hpc, hbuffer, List.length_pos_iff.mpr hne, Nat.le_refl, and_self, if_true,
      List.take_length, List.drop_length]
  obtain ⟨t, ht, hcommands⟩ :=
    exec_handle present (s := { s with eventBuffer := s.queue, queue := [] }) hpc rfl
  refine ⟨.read s.queue.length :: List.replicate s.queue.length .handle, t, ?_, hcommands⟩
  rw [exec, hread, Option.bind_some]
  exact ht

theorem exec_after_test (present : Bool) {s t : State} (h : Invariant s)
    (hc : ¬ (pending s).length % 2 = 0) (ht : step s .testExists = some t) :
    ∃ as u, exec (system present) t as = some u ∧ ¬ Alternates u.commands := by
  obtain ⟨hpc, htpc, -, hqueue, hbuffer, htest⟩ := step_testExists h ht
  obtain ⟨watched, hwatched, hparity⟩ := follow_test h hpc
  have hpending : t.queue.filterMap handleEvent = pending s := by
    rw [pending, (h.testExists hpc).1, hqueue, List.nil_append]
  have hne : pending s ≠ [] := by
    intro hnil
    rw [hnil] at hc
    exact hc rfl
  have hnot : s.present = !watched := by
    rw [Bool.eq_not_iff]
    exact fun heq => hc (hparity.mp heq.symm)
  have hqueue : t.queue ≠ [] := by
    intro hnil
    rw [hnil] at hpending
    exact hne hpending.symm
  obtain ⟨as, u, hu, hcommands⟩ := exec_queue present htpc hbuffer hqueue
  refine ⟨as, u, hu, ?_⟩
  rw [alternates_iff, hcommands, follow_append, htest, Option.bind_some, hpending, hnot,
    follow_not (by rw [hwatched]; rfl) hne]
  exact Bool.false_ne_true

/-- The commands alternate as long as the existence test finds the storage as it was when
the watch was added, and no longer. -/
theorem alternates_exactCondition (present : Bool) :
    ExactCondition (system present) TestsUnchanged (fun s => Alternates s.commands) := by
  refine exactCondition_of_invariant Invariant (fun s hs => invariant_init hs) ?_
    (fun s h => alternates_of_invariant h) ?_
  · intro s a t h hc ht
    exact invariant_step h hc ht
  · intro s a t h ht hc
    cases a with
    | testExists => exact exec_after_test present h hc ht
    | plug | unplug | other | addWatch | read | handle | fail => exact absurd trivial hc

/-- The storage is plugged in between the watch and the test. -/
theorem exists_reachable_mountTwice : ∃ s, Reachable (system false) s ∧ ¬ Alternates s.commands := by
  have hreach : Reachable (system false) ⟨true, .loop, [], [], [.mount, .mount]⟩ := by
    have hinit : Reachable (system false) ⟨false, .addWatch, [], [], []⟩ :=
      .init ⟨rfl, rfl, rfl, rfl, rfl⟩
    have hexec : exec (system false) ⟨false, .addWatch, [], [], []⟩
        [.addWatch, .plug, .testExists, .read 1, .handle] =
          some ⟨true, .loop, [], [], [.mount, .mount]⟩ := by decide +kernel
    exact hinit.exec hexec
  refine ⟨_, hreach, fun h => ?_⟩
  have hsecond := (h 1 .mount rfl).mp rfl
  omega

end RoblSampleCodes.StorageWatcher
