import RoblSampleCodes.TransitionSystem

namespace RoblSampleCodes.MulticastConnection

open TransitionSystem

/-- What `TryOpenConnection` does with a new socket. All but the last are calls of `setsockopt`. -/
inductive Step
  | reuseAddr
  | multicastLoop
  | multicastIf
  | addMembership
  | bind
  deriving DecidableEq

def steps : List Step := [.reuseAddr, .multicastLoop, .multicastIf, .addMembership, .bind]

structure Outcome where
  socket : Option Nat
  succeeds : Step → Bool

/-- The global `fd`, the open sockets with the steps they have passed, and what the last call
of `TryOpenConnection` returned. -/
structure State where
  fd : Int
  sockets : Nat → Option (List Step)
  result : Option Bool

inductive Action
  | tryOpenConnection (outcome : Outcome)
  | closeAndReset

def initial : State := ⟨-1, fun _ => none, none⟩

def close (sockets : Nat → Option (List Step)) (fd : Int) : Nat → Option (List Step) :=
  if 0 ≤ fd then Function.update sockets fd.toNat none else sockets

/-- The steps on a new socket. Where one fails, the guard closes the descriptor and leaves
`fd` as it is. -/
def configure (succeeds : Step → Bool) (fd : Nat) :
    List Step → (Nat → Option (List Step)) → Bool × (Nat → Option (List Step))
  | [], sockets => (true, sockets)
  | step :: rest, sockets =>
    if succeeds step then
      configure succeeds fd rest (Function.update sockets fd ((sockets fd).map (· ++ [step])))
    else (false, close sockets fd)

/-- The kernel returns no descriptor that is in use, here or for one of the `others`. -/
def tryOpenConnection (others : Finset Nat) (s : State) (outcome : Outcome) : Option State :=
  if 0 ≤ s.fd then some { s with result := some true }
  else
    match outcome.socket with
    | none => some { s with fd := -1, result := some false }
    | some fd =>
      if fd ∈ others ∨ (s.sockets fd).isSome then none
      else
        let r := configure outcome.succeeds fd steps (Function.update s.sockets fd (some []))
        some ⟨fd, r.2, some r.1⟩

/-- The callers close the descriptor and reset `fd` when they cannot use a connection. -/
def step (others : Finset Nat) (s : State) : Action → Option State
  | .tryOpenConnection outcome => tryOpenConnection others s outcome
  | .closeAndReset => if s.result = some true then some ⟨-1, close s.sockets s.fd, none⟩ else none

def system (others : Finset Nat) : System State Action where
  init s := s = initial
  step := step others

structure Consistent (s : State) : Prop where
  opened : s.result = some true → ∃ d : Nat, s.fd = d ∧ s.sockets d = some steps
  failed : s.result = some false → s.fd < 0 ∧ ∀ d, s.sockets d = none

def ConfiguresAll (s : State) : Action → Prop
  | .tryOpenConnection outcome => s.fd < 0 → outcome.socket.isSome → ∀ step, outcome.succeeds step = true
  | .closeAndReset => True

inductive Invariant (s : State) : Prop
  | closed (hfd : s.fd < 0) (hsockets : ∀ d, s.sockets d = none) (hresult : s.result ≠ some true)
  | opened (d : Nat) (hfd : s.fd = d) (hsocket : s.sockets d = some steps)
      (hothers : ∀ e ≠ d, s.sockets e = none) (hresult : s.result ≠ some false)

theorem consistent_of_invariant {s : State} (h : Invariant s) : Consistent s := by
  cases h with
  | closed hfd hsockets hresult => exact ⟨fun htrue => absurd htrue hresult, fun _ => ⟨hfd, hsockets⟩⟩
  | opened d hfd hsocket hothers hresult =>
    exact ⟨fun _ => ⟨d, hfd, hsocket⟩, fun hfalse => absurd hfalse hresult⟩

theorem configure_of_all {succeeds : Step → Bool} (h : ∀ step, succeeds step = true) {fd : Nat}
    (todo done : List Step) {sockets : Nat → Option (List Step)} (hfd : sockets fd = some done) :
    configure succeeds fd todo sockets = (true, Function.update sockets fd (some (done ++ todo))) := by
  induction todo generalizing done sockets with
  | nil =>
    rw [configure, List.append_nil, ← hfd, Function.update_eq_self]
  | cons step rest ih =>
    rw [configure, if_pos (h step), hfd, Option.map_some, ih (done ++ [step]) (Function.update_self ..),
      Function.update_idem, List.append_assoc, List.singleton_append]

theorem configure_of_not {succeeds : Step → Bool} {fd : Nat} {todo : List Step}
    (h : ∃ step ∈ todo, succeeds step = false) (sockets : Nat → Option (List Step)) :
    (configure succeeds fd todo sockets).1 = false := by
  induction todo generalizing sockets with
  | nil =>
    obtain ⟨step, hstep, -⟩ := h
    cases hstep
  | cons step rest ih =>
    rw [configure]
    split
    · rename_i htrue
      obtain ⟨failing, hmem, hfalse⟩ := h
      refine ih ⟨failing, ?_, hfalse⟩ _
      rcases List.mem_cons.mp hmem with rfl | hmem
      · rw [hfalse] at htrue
        cases htrue
      · exact hmem
    · rfl

theorem tryOpenConnection_cases {others : Finset Nat} {s t : State} {outcome : Outcome}
    (ht : tryOpenConnection others s outcome = some t) :
    (0 ≤ s.fd ∧ t = { s with result := some true }) ∨
      (s.fd < 0 ∧ outcome.socket = none ∧ t = { s with fd := -1, result := some false }) ∨
      ∃ fd : Nat, s.fd < 0 ∧ outcome.socket = some fd ∧ s.sockets fd = none ∧
        t = ⟨fd, (configure outcome.succeeds fd steps (Function.update s.sockets fd (some []))).2,
          some (configure outcome.succeeds fd steps (Function.update s.sockets fd (some []))).1⟩ := by
  rw [tryOpenConnection] at ht
  split at ht
  · exact .inl ⟨‹_›, (Option.some.inj ht).symm⟩
  · rename_i hfd
    rw [not_le] at hfd
    cases hsocket : outcome.socket with
    | none =>
      simp only [hsocket] at ht
      exact .inr (.inl ⟨hfd, rfl, (Option.some.inj ht).symm⟩)
    | some fd =>
      simp only [hsocket, Option.ite_none_left_eq_some, not_or, Option.not_isSome_iff_eq_none] at ht
      exact .inr (.inr ⟨fd, hfd, rfl, ht.1.2, (Option.some.inj ht.2).symm⟩)

theorem Invariant.sockets_of_neg {s : State} (h : Invariant s) (hfd : s.fd < 0) :
    ∀ d, s.sockets d = none := by
  cases h with
  | closed _ hsockets => exact hsockets
  | opened d hd =>
    rw [hd] at hfd
    exact absurd hfd (by omega)

theorem invariant_tryOpenConnection {others : Finset Nat} {s t : State} {outcome : Outcome}
    (h : Invariant s) (hc : ConfiguresAll s (.tryOpenConnection outcome))
    (ht : tryOpenConnection others s outcome = some t) : Invariant t := by
  obtain ⟨hfd, rfl⟩ | ⟨hfd, hsocket, rfl⟩ | ⟨fd, hfd, hsocket, -, rfl⟩ := tryOpenConnection_cases ht
  · cases h with
    | closed hneg => exact absurd hfd (not_le.mpr hneg)
    | opened d hd hsocket hothers => exact .opened d hd hsocket hothers (by simp)
  · exact .closed neg_one_lt_zero (h.sockets_of_neg hfd) (by simp)
  · have hall : ∀ step, outcome.succeeds step = true := hc hfd (by rw [hsocket, Option.isSome_some])
    rw [configure_of_all hall steps [] (Function.update_self ..), Function.update_idem]
    refine .opened fd rfl (Function.update_self ..) (fun e he => ?_) (by simp)
    exact (Function.update_of_ne he ..).trans (h.sockets_of_neg hfd e)

theorem invariant_closeAndReset {s : State} (h : Invariant s) (hresult : s.result = some true) :
    Invariant ⟨-1, close s.sockets s.fd, none⟩ := by
  cases h with
  | closed _ _ hnot => exact absurd hresult hnot
  | opened d hd _ hothers =>
    refine .closed neg_one_lt_zero (fun e => ?_) (by simp)
    simp only [close, hd, Int.natCast_nonneg, if_true, Int.toNat_natCast]
    by_cases he : e = d
    · rw [he, Function.update_self]
    · rw [Function.update_of_ne he, hothers e he]

theorem not_consistent_of_failedStep {others : Finset Nat} {s t : State} {outcome : Outcome}
    (hc : ¬ ConfiguresAll s (.tryOpenConnection outcome))
    (ht : tryOpenConnection others s outcome = some t) : ¬ Consistent t := by
  simp only [ConfiguresAll, not_forall, Bool.not_eq_true] at hc
  obtain ⟨hneg, hsome, failing, hfalse⟩ := hc
  obtain ⟨hfd, -⟩ | ⟨-, hsocket, -⟩ | ⟨fd, -, -, -, rfl⟩ := tryOpenConnection_cases ht
  · exact absurd hneg (not_lt.mpr hfd)
  · rw [hsocket] at hsome
    cases hsome
  · have hmem : failing ∈ steps := by cases failing <;> decide
    intro hconsistent
    have hresult : (configure outcome.succeeds fd steps (Function.update s.sockets fd (some []))).1 =
        false := configure_of_not ⟨failing, hmem, hfalse⟩ _
    obtain ⟨hlt, -⟩ := hconsistent.failed (congrArg some hresult)
    exact absurd hlt (by simp)

/-- What a call returns is true of `fd` as long as every new socket can be configured, and no
longer. -/
theorem consistent_exactCondition (others : Finset Nat) :
    ExactCondition (system others) ConfiguresAll Consistent := by
  refine exactCondition_of_invariant Invariant ?_ ?_ (fun s h => consistent_of_invariant h) ?_
  · rintro s rfl
    exact .closed neg_one_lt_zero (fun _ => rfl) (by simp [initial])
  · intro s a t h hc ht
    cases a with
    | tryOpenConnection outcome => exact invariant_tryOpenConnection h hc ht
    | closeAndReset =>
      simp only [system, step, Option.ite_none_right_eq_some] at ht
      obtain ⟨hresult, ⟨⟩⟩ := ht
      exact invariant_closeAndReset h hresult
  · intro s a t h ht hc
    cases a with
    | tryOpenConnection outcome => exact ⟨[], t, rfl, not_consistent_of_failedStep hc ht⟩
    | closeAndReset => exact absurd trivial hc

/-- `bind` fails, and the next call returns true for the closed descriptor. -/
theorem exec_not_consistent :
    ∃ s, exec (system {0, 1, 2}) initial [.tryOpenConnection ⟨some 3, (· ≠ .bind)⟩] = some s ∧
      s.result = some false ∧ s.fd = 3 ∧ ¬ Consistent s ∧
      ∃ t, exec (system {0, 1, 2}) s [.tryOpenConnection ⟨none, fun _ => false⟩] = some t ∧
        t.result = some true ∧ t.sockets 3 = none ∧ ¬ Consistent t := by
  refine ⟨_, rfl, rfl, rfl, fun h => ?_, _, rfl, rfl, rfl, fun h => ?_⟩
  · exact absurd (h.failed rfl).1 (by decide)
  · obtain ⟨d, hd, hsocket⟩ := h.opened rfl
    have hthree : (3 : Int) = d := hd
    obtain rfl : 3 = d := by exact_mod_cast hthree
    cases hsocket

end RoblSampleCodes.MulticastConnection
