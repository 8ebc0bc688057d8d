import RoblSampleCodes.MidListener

namespace RoblSampleCodes.MidListenerInvariant

open TransitionSystem TaskProgram MidListener

variable {τ Q : Type}

def callOf : Pc τ → CallPc τ
  | .client p | .condition _ _ _ p | .callback _ _ _ p => p
  | .anyCast _ _ _ | .finished => .outside

def callHolds : CallPc τ → Bool
  | .emplace _ _ | .registerUnlock _ | .erase _ | .cancelUnlock | .equalRange _ _ | .loop _ _ _
  | .wait _ _ _ _ | .notifyUnlock _ => true
  | _ => false

def holds (p : Pc τ) (_ : Unit) : Bool := callHolds (callOf p)

def WantsMutex : CallPc τ → Prop
  | .registerLock _ _ | .cancelLock _ | .notifyLock _ _ => True
  | _ => False

inductive Calls (m : Members τ) (n : Nat) :
    CallPc τ → Members τ → CallPc τ → Effect Unit (Pc τ) → Prop
  | register {mid : BitVec 32} {type : MessageType τ} : Calls m n .outside m (.registerLock mid type) .none
  | cancelEnd : Calls m n .outside m (.cancelLock none) .none
  | cancel {handle : Nat} (h : handle ∈ m.handles) :
      Calls m n .outside { m with handles := m.handles.erase handle } (.cancelLock (some handle)) .none
  | notify {mid message : BitVec 32} : Calls m n .outside m (.notifyLock mid message) .none
  | registerLock {mid : BitVec 32} {type : MessageType τ} :
      Calls m n (.registerLock mid type) m (.emplace mid type) (.lock ())
  | emplace {mid : BitVec 32} {type : MessageType τ} {position : Nat}
      (h : position ≤ m.callbackMultimap.length) :
      Calls m n (.emplace mid type)
        { m with
          callbackMultimap := m.callbackMultimap.insertIdx position ⟨m.registered.length, mid, type⟩
          registered := m.registered ++ [⟨m.registered.length, mid, type⟩] }
        (.registerUnlock m.registered.length) .none
  | registerUnlock {handle : Nat} :
      Calls m n (.registerUnlock handle) { m with handles := m.handles ++ [handle] } .outside (.unlock ())
  | cancelLock {it : Option Nat} : Calls m n (.cancelLock it) m (.erase it) (.lock ())
  | eraseEnd : Calls m n (.erase none) m .cancelUnlock .none
  | erase {handle : Nat} :
      Calls m n (.erase (some handle))
        { m with
          callbackMultimap := m.callbackMultimap.filter (fun r => r.handle ≠ handle)
          cancelled := m.cancelled ++ [handle] } .cancelUnlock .none
  | cancelUnlock : Calls m n .cancelUnlock m .outside (.unlock ())
  | notifyLock {mid message : BitVec 32} :
      Calls m n (.notifyLock mid message) m (.equalRange mid message) (.lock ())
  | equalRange {mid message : BitVec 32} {range : List (Registration τ)}
      (h : range = m.callbackMultimap.filter (fun r => r.mid = mid)) :
      Calls m n (.equalRange mid message)
        { m with
          notifications := m.notifications ++ [⟨mid, message, range, m.registered, m.cancelled⟩] }
        (.loop m.notifications.length message range) .none
  | launch {k : Nat} {message : BitVec 32} {executor : Registration τ} {rest : List (Registration τ)} :
      Calls m n (.loop k message (executor :: rest)) m (.wait k message n rest)
        (.spawn (.anyCast k executor message))
  | loopEnd {k : Nat} {message : BitVec 32} : Calls m n (.loop k message []) m (.notifyUnlock k) .none
  | wait {k : Nat} {message : BitVec 32} {future : Nat} {rest : List (Registration τ)} :
      Calls m n (.wait k message future rest) m (.loop k message rest) (.join future)
  | notifyUnlock {k : Nat} : Calls m n (.notifyUnlock k) m .outside (.unlock ())

inductive Executes (int : τ) (m : Members τ) : Pc τ → Members τ → Pc τ → Prop
  | cast {k : Nat} {executor : Registration τ} {message : BitVec 32}
      (h : executor.type.removeCvref = int) :
      Executes int m (.anyCast k executor message)
        { m with log := m.log ++ [.condition k executor.handle message] }
        (.condition k executor message .outside)
  | badCast {k : Nat} {executor : Registration τ} {message : BitVec 32}
      (h : executor.type.removeCvref ≠ int) :
      Executes int m (.anyCast k executor message) m .finished
  | succeeds {k : Nat} {executor : Registration τ} {value : BitVec 32} :
      Executes int m (.condition k executor value .outside)
        { m with log := m.log ++
          [.outcome k executor.handle (some true), .callback k executor.handle value] }
        (.callback k executor value .outside)
  | fails {k : Nat} {executor : Registration τ} {value : BitVec 32} {outcome : Option Bool}
      (h : outcome ≠ some true) :
      Executes int m (.condition k executor value .outside)
        { m with log := m.log ++ [.outcome k executor.handle outcome] } .finished
  | returned {k : Nat} {executor : Registration τ} {value : BitVec 32} :
      Executes int m (.callback k executor value .outside) m .finished

inductive Moves (int : τ) (m : Members τ) (n : Nat) (i : Input τ) :
    Pc τ → Members τ → Pc τ → Effect Unit (Pc τ) → Prop
  | client {p p' : CallPc τ} {m' : Members τ} {e : Effect Unit (Pc τ)}
      (h : call m n p i = some (m', p', e)) : Moves int m n i (.client p) m' (.client p') e
  | condition {k : Nat} {executor : Registration τ} {value : BitVec 32} {p p' : CallPc τ}
      {m' : Members τ} {e : Effect Unit (Pc τ)} (h : call m n p i = some (m', p', e)) :
      Moves int m n i (.condition k executor value p) m' (.condition k executor value p') e
  | callback {k : Nat} {executor : Registration τ} {value : BitVec 32} {p p' : CallPc τ}
      {m' : Members τ} {e : Effect Unit (Pc τ)} (h : call m n p i = some (m', p', e)) :
      Moves int m n i (.callback k executor value p) m' (.callback k executor value p') e
  | executes {p p' : Pc τ} {m' : Members τ} (h : Executes int m p m' p') :
      Moves int m n i p m' p' .none

section Calls

variable {m m' : Members τ} {n : Nat} {p p' : CallPc τ} {i : Input τ} {e : Effect Unit (Pc τ)}

theorem call_calls (h : call m n p i = some (m', p', e)) : Calls m n p m' p' e := by
  cases p with
  | outside =>
    cases i with
    | returns _ | throws | go _ => cases h
    | call c =>
      cases c with
      | register mid type =>
        cases h
        exact .register
      | notify mid message =>
        cases h
        exact .notify
      | cancel it =>
        cases it with
        | none =>
          cases h
          exact .cancelEnd
        | some handle =>
          simp only [call, Option.ite_none_right_eq_some, Option.some.injEq, Prod.mk.injEq] at h
          obtain ⟨hmem, rfl, rfl, rfl⟩ := h
          exact .cancel hmem
  | emplace mid type =>
    cases i with
    | returns _ | throws | call _ => cases h
    | go position =>
      simp only [call, Option.ite_none_right_eq_some, Option.some.injEq, Prod.mk.injEq] at h
      obtain ⟨hle, rfl, rfl, rfl⟩ := h
      exact .emplace hle
  | erase it =>
    cases it <;> cases h
    · exact .eraseEnd
    · exact .erase
  | equalRange mid message =>
    cases h
    exact .equalRange rfl
  | loop k message rest =>
    cases rest <;> cases h
    · exact .loopEnd
    · exact .launch
  | registerLock | registerUnlock | cancelLock | cancelUnlock | notifyLock | wait | notifyUnlock =>
    cases h
    constructor

theorem call_outside {r : Members τ × CallPc τ × Effect Unit (Pc τ)}
    (h : call m n .outside i = some r) : ∃ c, i = .call c := by
  cases i with
  | call c => exact ⟨c, rfl⟩
  | returns _ | throws | go _ => cases h

theorem Calls.held (h : Calls m n p m' p' e) :
    (fun _ => callHolds p') = e.held (fun _ => callHolds p) ∧ e.Allowed holds (.client p) := by
  cases h with
  | registerLock | cancelLock | notifyLock | registerUnlock | cancelUnlock | notifyUnlock =>
    refine ⟨?_, by simp [Effect.Allowed, holds, callOf, callHolds]⟩
    funext _
    simp [callHolds, Effect.held]
  | launch => exact ⟨rfl, fun _ => rfl⟩
  | _ => exact ⟨rfl, trivial⟩

theorem Calls.log (h : Calls m n p m' p' e) : m'.log = m.log := by
  cases h <;> rfl

theorem Calls.spawn {p₀ : Pc τ} (h : Calls m n p m' p' (.spawn p₀)) :
    ∃ k message executor rest, p = .loop k message (executor :: rest) ∧ m' = m ∧
      p' = .wait k message n rest ∧ p₀ = .anyCast k executor message := by
  cases h
  exact ⟨_, _, _, _, rfl, rfl, rfl, rfl⟩

theorem Calls.join {k : Nat} {message : BitVec 32} {future : Nat} {rest : List (Registration τ)}
    (h : Calls m n (.wait k message future rest) m' p' e) :
    m' = m ∧ p' = .loop k message rest ∧ e = .join future := by
  cases h
  exact ⟨rfl, rfl, rfl⟩

theorem Calls.free (h : Calls m n p m' p' e) (hfree : callHolds p = false) :
    m'.callbackMultimap = m.callbackMultimap ∧ m'.registered = m.registered ∧
      m'.cancelled = m.cancelled ∧ m'.notifications = m.notifications := by
  cases h with
  | register | cancelEnd | cancel | notify | registerLock | cancelLock | notifyLock =>
    exact ⟨rfl, rfl, rfl, rfl⟩
  | emplace | registerUnlock | eraseEnd | erase | cancelUnlock | equalRange | launch | loopEnd | wait
  | notifyUnlock => cases hfree

end Calls

section Moves

variable {int : τ} {m m' : Members τ} {n : Nat} {p p' : Pc τ} {i : Input τ} {e : Effect Unit (Pc τ)}

theorem Executes.held (h : Executes int m p m' p') : holds p' = holds p := by
  cases h <;> rfl

theorem Moves.held (h : Moves int m n i p m' p' e) :
    holds p' = e.held (holds p) ∧ e.Allowed holds p := by
  cases h with
  | client h | condition h | callback h =>
    obtain ⟨hheld, hallowed⟩ := (call_calls h).held
    refine ⟨hheld, ?_⟩
    cases e <;> exact hallowed
  | executes h => exact ⟨h.held, trivial⟩

theorem Moves.of_client {c : CallPc τ} (h : Moves int m n i p m' (.client c) e) :
    ∃ c₀, p = .client c₀ := by
  cases h with
  | client _ => exact ⟨_, rfl⟩
  | executes h => cases h

theorem Moves.calls (h : Moves int m n i p m' p' e) :
    Calls m n (callOf p) m' (callOf p') e ∨ Executes int m p m' p' ∧ e = .none := by
  cases h with
  | client h | condition h | callback h => exact .inl (call_calls h)
  | executes h => exact .inr ⟨h, rfl⟩

theorem Executes.outside (h : Executes int m p m' p') : callOf p = .outside ∧ callOf p' = .outside := by
  cases h <;> exact ⟨rfl, rfl⟩

theorem Executes.log (h : Executes int m p m' p') : ∃ events, m' = { m with log := m.log ++ events } := by
  cases h with
  | cast | succeeds | fails => exact ⟨_, rfl⟩
  | badCast | returned => exact ⟨[], by rw [List.append_nil]⟩

theorem Moves.spawn {p₀ : Pc τ} (h : Moves int m n i p m' p' (.spawn p₀)) :
    ∃ k message executor rest, callOf p = .loop k message (executor :: rest) ∧ m' = m ∧
      callOf p' = .wait k message n rest ∧ p₀ = .anyCast k executor message := by
  obtain h | ⟨-, he⟩ := h.calls
  · exact h.spawn
  · cases he

theorem Moves.not_spawn (h : Moves int m n i p m' p' e) (hfree : holds p () = false) (p₀ : Pc τ) :
    e ≠ .spawn p₀ := by
  rintro rfl
  obtain ⟨k, message, executor, rest, hp, -⟩ := h.spawn
  rw [holds, hp] at hfree
  cases hfree

variable [DecidableEq τ]

theorem next_moves (h : next int m n p i = some (m', p', e)) : Moves int m n i p m' p' e := by
  have hmap : ∀ {q : CallPc τ} {f : CallPc τ → Pc τ},
      (call m n q i).map (fun x => (x.1, f x.2.1, x.2.2)) = some (m', p', e) →
        ∃ q', p' = f q' ∧ call m n q i = some (m', q', e) := by
    intro q f hq
    simp only [Option.map_eq_some_iff, Prod.mk.injEq] at hq
    obtain ⟨⟨m₁, q', e₁⟩, hq, rfl, rfl, rfl⟩ := hq
    exact ⟨q', rfl, hq⟩
  cases p with
  | finished => cases h
  | client q =>
    obtain ⟨q', rfl, hq⟩ := hmap h
    exact .client hq
  | anyCast k executor message =>
    by_cases hint : executor.type.removeCvref = int
    · rw [next, if_pos hint] at h
      cases h
      exact .executes (.cast hint)
    · rw [next, if_neg hint] at h
      cases h
      exact .executes (.badCast hint)
  | condition k executor value q =>
    by_cases hq : q = .outside
    · subst hq
      cases i with
      | returns holds =>
        cases holds
        · cases h
          exact .executes (.fails (by simp))
        · cases h
          exact .executes (by simpa using Executes.succeeds)
      | throws =>
        cases h
        exact .executes (.fails (by simp))
      | call c =>
        obtain ⟨q', rfl, hq⟩ := hmap h
        exact .condition hq
      | go position => cases h
    · have hn : next int m n (.condition k executor value q) i =
          (call m n q i).map (fun x => (x.1, .condition k executor value x.2.1, x.2.2)) := by
        cases q <;> first | rfl | exact absurd rfl hq
      obtain ⟨q', rfl, hq⟩ := hmap (hn ▸ h)
      exact .condition hq
  | callback k executor value q =>
    by_cases hq : q = .outside
    · subst hq
      cases i with
      | returns _ | throws =>
        cases h
        exact .executes .returned
      | call c =>
        obtain ⟨q', rfl, hq⟩ := hmap h
        exact .callback hq
      | go position => cases h
    · have hn : next int m n (.callback k executor value q) i =
          (call m n q i).map (fun x => (x.1, .callback k executor value x.2.1, x.2.2)) := by
        cases q <;> first | rfl | exact absurd rfl hq
      obtain ⟨q', rfl, hq⟩ := hmap (hn ▸ h)
      exact .callback hq

theorem discipline (int : τ) : Discipline (program int) holds :=
  ⟨fun _ _ _ _ _ _ _ hn _ => (next_moves hn).held, fun _ => rfl⟩

end Moves

section Step

variable [DecidableEq τ] {int : τ} {s s' : MidState τ Q} {i : Input τ} {p : Pc τ}
  {e : Effect Unit (Pc τ)}

/-- The clients and the tasks keep to their code, and a `Notify` waits for every
task that is not done. -/
structure Inv (int : τ) (s : MidState τ Q) : Prop where
  fresh : Fresh (program int) s
  owned : Owned holds s
  clients : ∀ q, ∃ p, s.pc (.main q) = .client p
  tasks : ∀ n p, s.pc (.task n) ≠ .client p
  awaited : ∀ n, done (s.pc (.task n)) = false →
    ∃ q k message rest, s.pc (.main q) = .client (.wait k message n rest)

omit [DecidableEq τ] in
theorem holds_client {pc : Thread Q → Pc τ} {q : Q} {c : CallPc τ} (hq : pc (.main q) = .client c)
    (hc : callHolds c = true) : holds (pc (.main q)) () = true := by
  rw [hq]
  exact hc

theorem Inv.task_free (h : Inv int s) (n : Nat) : holds (s.pc (.task n)) () = false := by
  by_contra hholds
  have hd : done (s.pc (.task n)) = false := by
    cases hp : s.pc (.task n) with
    | finished =>
      rw [hp] at hholds
      exact absurd rfl hholds
    | _ => rfl
  obtain ⟨q, k, message, rest, hq⟩ := h.awaited n hd
  have he := h.owned.unique (holds_client hq rfl) (Bool.eq_true_of_not_eq_false hholds)
  cases he

theorem Inv.owner_waits (h : Inv int s) {q : Q} (hq : holds (s.pc (.main q)) () = true) {n : Nat}
    (hd : done (s.pc (.task n)) = false) :
    ∃ k message rest, s.pc (.main q) = .client (.wait k message n rest) := by
  obtain ⟨q', k, message, rest, hq'⟩ := h.awaited n hd
  cases h.owned.unique hq (holds_client hq' rfl)
  exact ⟨k, message, rest, hq'⟩

theorem Inv.task_unique (h : Inv int s) {n₁ n₂ : Nat} (h₁ : done (s.pc (.task n₁)) = false)
    (h₂ : done (s.pc (.task n₂)) = false) : n₁ = n₂ := by
  obtain ⟨q, k₁, message₁, rest₁, hq₁⟩ := h.awaited n₁ h₁
  obtain ⟨k₂, message₂, rest₂, hq₂⟩ := h.owner_waits (holds_client hq₁ rfl) h₂
  rw [hq₁] at hq₂
  cases hq₂
  rfl

theorem Inv.task_done (h : Inv int s) {q : Q} {c : CallPc τ} (hq : s.pc (.main q) = .client c)
    (hholds : callHolds c = true) (hwait : ∀ k message n rest, c ≠ .wait k message n rest) (n : Nat) :
    done (s.pc (.task n)) = true := by
  by_contra hd
  obtain ⟨k, message, rest, hq'⟩ :=
    h.owner_waits (holds_client hq hholds) (Bool.eq_false_of_not_eq_true hd)
  rw [hq] at hq'
  cases hq'
  exact hwait _ _ _ _ rfl

variable [DecidableEq Q]

theorem Inv.task_step (h : Inv int s) {n : Nat} (hstep : Steps (program int) s (.task n) i p e s') :
    Inv int s' := by
  have hmoves := next_moves hstep.next
  have hother : ∀ {u}, u ≠ .task n → s'.pc u = s.pc u :=
    fun hu => hstep.stays hu (hmoves.not_spawn (h.task_free n))
  refine ⟨hstep.fresh h.fresh, hstep.owned (discipline int) h.fresh h.owned, fun q => ?_,
    fun n' c hc => ?_, fun n' hd => ?_⟩
  · rw [hother (by simp)]
    exact h.clients q
  · by_cases hn : n' = n
    · subst hn
      rw [hstep.self h.fresh] at hc
      subst hc
      obtain ⟨c₀, hc₀⟩ := hmoves.of_client
      exact h.tasks n' c₀ hc₀
    · rw [hother (by simp [hn])] at hc
      exact h.tasks n' c hc
  · have hd' : done (s.pc (.task n')) = false := by
      by_cases hn : n' = n
      · subst hn
        exact hstep.not_done
      · rwa [hother (by simp [hn])] at hd
    obtain ⟨q, k, message, rest, hq⟩ := h.awaited n' hd'
    exact ⟨q, k, message, rest, by rw [hother (by simp), hq]⟩

theorem client_calls {q : Q} {c : CallPc τ} (hq : s.pc (.main q) = .client c)
    (hstep : Steps (program int) s (.main q) i p e s') :
    ∃ c', p = .client c' ∧ Calls s.shared s.spawned c s'.shared c' e := by
  have hn : next int s.shared s.spawned (.client c) i = some (s'.shared, p, e) := by
    rw [← hq]
    exact hstep.next
  cases next_moves hn with
  | client h => exact ⟨_, rfl, call_calls h⟩
  | executes h => cases h

theorem Inv.client_step (h : Inv int s) {q : Q} (hstep : Steps (program int) s (.main q) i p e s') :
    Inv int s' := by
  obtain ⟨c, hq⟩ := h.clients q
  obtain ⟨c', rfl, hcalls⟩ := client_calls hq hstep
  refine ⟨hstep.fresh h.fresh, hstep.owned (discipline int) h.fresh h.owned, fun q' => ?_,
    fun n c₀ hc => ?_, fun n hd => ?_⟩
  · by_cases hqq : q' = q
    · subst hqq
      exact ⟨c', hstep.self h.fresh⟩
    · rw [hstep.main_stays (by simp [hqq])]
      exact h.clients q'
  · obtain hsame | ⟨p₀, rfl, -, hnew⟩ := hstep.other (u := .task n) (by simp)
    · rw [hsame] at hc
      exact h.tasks n c₀ hc
    · obtain ⟨k, message, executor, rest, -, -, -, rfl⟩ := hcalls.spawn
      rw [hnew] at hc
      cases hc
  · obtain hsame | ⟨p₀, rfl, hu, -⟩ := hstep.other (u := .task n) (by simp)
    · rw [hsame] at hd
      obtain ⟨q', k, message, rest, hq'⟩ := h.awaited n hd
      by_cases hqq : q' = q
      · subst hqq
        rw [hq] at hq'
        cases hq'
        obtain ⟨-, -, rfl⟩ := hcalls.join
        have hdone : done (s.pc (.task n)) = true := hstep.ready
        rw [hdone] at hd
        cases hd
      · exact ⟨q', k, message, rest, by rw [hstep.main_stays (by simp [hqq]), hq']⟩
    · obtain ⟨k, message, executor, rest, -, -, rfl, -⟩ := hcalls.spawn
      cases hu
      exact ⟨q, k, message, rest, hstep.self h.fresh⟩

theorem inv (hs : Reachable (system int Q) s) : Inv int s := by
  induction hs with
  | init h =>
    subst h
    refine ⟨fun _ _ => rfl, fun m t => ?_, fun q => ⟨.outside, rfl⟩, fun n p h => ?_, fun n h => ?_⟩
    · cases t <;> simp [initial, holds, callOf, callHolds]
    · cases h
    · cases h
  | @step s s' a _ h ih =>
    obtain ⟨p, e, hstep⟩ := step_cases h
    cases ha : a.thread with
    | main q =>
      rw [ha] at hstep
      exact ih.client_step hstep
    | task n =>
      rw [ha] at hstep
      exact ih.task_step hstep

end Step

end RoblSampleCodes.MidListenerInvariant
