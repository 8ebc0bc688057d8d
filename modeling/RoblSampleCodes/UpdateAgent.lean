import RoblSampleCodes.TransitionSystem

namespace RoblSampleCodes.UpdateAgent

open TransitionSystem

variable {Agent : Type}

structure UpdateControlTower where
  isUpdatable : Bool

def setUpdateAvailability (status : Bool) : UpdateControlTower := ⟨status⟩

inductive Output
  | isUpdating
  | isWaiting
  | isCleared
  deriving DecidableEq

def update (mediator : UpdateControlTower) : UpdateControlTower × Output :=
  if mediator.isUpdatable then (setUpdateAvailability false, .isUpdating) else (mediator, .isWaiting)

def clear : UpdateControlTower × Output := (setUpdateAvailability true, .isCleared)

inductive Call (Agent : Type)
  | update (agent : Agent)
  | clear (agent : Agent)

/-- The mediator, and the history: the agents that printed updating and did not
call `Clear` since. -/
structure State (Agent : Type) where
  mediator : UpdateControlTower
  updating : Finset Agent

def initial : State Agent := ⟨⟨true⟩, ∅⟩

def AtMostOne (s : State Agent) : Prop := ∀ a ∈ s.updating, ∀ b ∈ s.updating, a = b

structure Invariant (s : State Agent) : Prop where
  one : AtMostOne s
  flag : s.mediator.isUpdatable = true → s.updating = ∅

theorem invariant_initial : Invariant (initial : State Agent) := by
  refine ⟨fun a ha => ?_, fun _ => rfl⟩
  exact absurd ha (Finset.notMem_empty a)

variable [DecidableEq Agent]

def call (s : State Agent) : Call Agent → State Agent
  | .update agent =>
    let r := update s.mediator
    ⟨r.1, if r.2 = .isUpdating then insert agent s.updating else s.updating⟩
  | .clear agent => ⟨clear.1, s.updating.erase agent⟩

def system (Agent : Type) [DecidableEq Agent] : System (State Agent) (Call Agent) where
  init s := s = initial
  step s c := some (call s c)

instance (s : State Agent) : Decidable (AtMostOne s) :=
  inferInstanceAs (Decidable (∀ a ∈ s.updating, ∀ b ∈ s.updating, a = b))

def ClearsOwn (s : State Agent) : Call Agent → Prop
  | .update _ => True
  | .clear agent => s.updating ⊆ {agent}

theorem call_update_of_updatable {s : State Agent} (h : s.mediator.isUpdatable = true) (agent : Agent) :
    call s (.update agent) = ⟨⟨false⟩, insert agent s.updating⟩ := by
  simp [call, update, h, setUpdateAvailability]

theorem call_update_of_not_updatable {s : State Agent} (h : s.mediator.isUpdatable = false)
    (agent : Agent) : call s (.update agent) = s := by
  simp [call, update, h]

theorem call_clear (s : State Agent) (agent : Agent) :
    call s (.clear agent) = ⟨⟨true⟩, s.updating.erase agent⟩ := rfl

theorem invariant_call {s : State Agent} {c : Call Agent} (h : Invariant s) (hc : ClearsOwn s c) :
    Invariant (call s c) := by
  cases c with
  | update agent =>
    cases hflag : s.mediator.isUpdatable with
    | true =>
      rw [call_update_of_updatable hflag, h.flag hflag]
      refine ⟨fun a ha b hb => ?_, fun hfalse => by cases hfalse⟩
      rw [insert_empty_eq, Finset.mem_singleton] at ha hb
      rw [ha, hb]
    | false =>
      rw [call_update_of_not_updatable hflag]
      exact h
  | clear agent =>
    rw [call_clear]
    have hempty : s.updating.erase agent = ∅ := by
      apply Finset.eq_empty_of_forall_notMem
      intro a ha
      rw [Finset.mem_erase] at ha
      exact ha.1 (Finset.mem_singleton.mp (hc ha.2))
    rw [hempty]
    exact ⟨fun a ha => absurd ha (Finset.notMem_empty a), fun _ => rfl⟩

theorem two_after_clear {s : State Agent} {agent other : Agent} (hother : other ∈ s.updating)
    (hne : other ≠ agent) :
    ¬ AtMostOne (call (call s (.clear agent)) (.update agent)) := by
  rw [call_clear, call_update_of_updatable rfl]
  intro h
  refine hne (h other ?_ agent (Finset.mem_insert_self agent _))
  exact Finset.mem_insert_of_mem (Finset.mem_erase.mpr ⟨hne, hother⟩)

/-- At most one agent is updating as long as no agent calls `Clear` while another one
is, and no longer. -/
theorem atMostOne_exactCondition (Agent : Type) [DecidableEq Agent] :
    ExactCondition (system Agent) ClearsOwn AtMostOne := by
  refine exactCondition_of_invariant Invariant ?_ ?_ (fun s h => h.one) ?_
  · rintro s rfl
    exact invariant_initial
  · rintro s c _ h hc ⟨⟩
    exact invariant_call h hc
  · rintro s c _ h ⟨⟩ hc
    cases c with
    | update agent => exact absurd trivial hc
    | clear agent =>
      simp only [ClearsOwn, Finset.subset_singleton_iff', not_forall] at hc
      obtain ⟨other, hother, hne⟩ := hc
      exact ⟨[.update agent], _, rfl, two_after_clear hother hne⟩

/-- The second agent clears while the first one is updating, and updates as well. -/
theorem exists_reachable_two : ∃ s, Reachable (system (Fin 2)) s ∧ ¬ AtMostOne s := by
  refine exists_reachable (s := initial) rfl [.update 0, .update 1, .clear 1, .update 1] ?_
  decide +kernel

end RoblSampleCodes.UpdateAgent
