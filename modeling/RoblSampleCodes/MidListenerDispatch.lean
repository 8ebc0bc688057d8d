import RoblSampleCodes.MidListenerProgress
import RoblSampleCodes.MidListenerRegistry

namespace RoblSampleCodes.MidListenerDispatch

open TransitionSystem TaskProgram MidListener MidListenerInvariant MidListenerProgress MidListenerRegistry

variable {τ Q : Type}

def notificationOf : Event → Nat
  | .condition k _ _ | .outcome k _ _ | .callback k _ _ => k

def logOf (m : Members τ) (k : Nat) : List Event := m.log.filter (fun x => notificationOf x = k)

def serving : CallPc τ → Option Nat
  | .loop k _ _ | .wait k _ _ _ => some k
  | _ => none

theorem logOf_append {m m' : Members τ} {k : Nat} {new : List Event} (hlog : m'.log = m.log ++ new)
    (hnew : ∀ x ∈ new, notificationOf x = k) (k' : Nat) :
    logOf m' k' = logOf m k' ++ if k' = k then new else [] := by
  rw [logOf, hlog, List.filter_append]
  by_cases hk : k' = k
  · subst hk
    rw [if_pos rfl, List.filter_eq_self.mpr (fun x hx => decide_eq_true (hnew x hx))]
    rfl
  · have hnil : new.filter (fun x => notificationOf x = k') = [] := by
      apply List.filter_eq_nil_iff.mpr
      intro x hx
      rw [hnew x hx, decide_eq_true_eq]
      exact Ne.symm hk
    rw [if_neg hk, hnil]
    rfl

def SingleOwner (pc : Thread Q → Pc τ) : Prop :=
  ∀ q₁ q₂, holds (pc (.main q₁)) () = true → holds (pc (.main q₂)) () = true → q₁ = q₂

theorem serving_none {pc : Thread Q → Pc τ} (howned : SingleOwner pc) {q q' : Q}
    (hq : holds (pc (.main q)) () = true) (hne : q' ≠ q) :
    serving (callOf (pc (.main q'))) = none := by
  by_contra hserving
  have hholds : holds (pc (.main q')) () = true := by
    rw [holds]
    cases hc : callOf (pc (.main q')) with
    | loop | wait => rfl
    | _ =>
      rw [hc] at hserving
      exact absurd rfl hserving
  exact hne (howned q' q hholds hq)

section Serve

variable [DecidableEq τ] {int : τ} {k : Nat} {message : BitVec 32}

/-- A registration for another object type is not touched. Otherwise its condition is
evaluated for the message, and its callback is called if the condition holds. -/
def serve (int : τ) (k : Nat) (message : BitVec 32) (r : Registration τ) (outcome : Option Bool) :
    List Event :=
  if r.type.removeCvref = int then
    [.condition k r.handle message, .outcome k r.handle outcome] ++
      if outcome = some true then [.callback k r.handle message] else []
  else []

def serveAll (int : τ) (k : Nat) (message : BitVec 32) (range : List (Registration τ))
    (outcomes : List (Option Bool)) : List Event :=
  (List.zipWith (serve int k message) range outcomes).flatten

theorem serveAll_append {before after : List (Registration τ)} {outcomes outcomes' : List (Option Bool)}
    (h : outcomes.length = before.length) :
    serveAll int k message (before ++ after) (outcomes ++ outcomes') =
      serveAll int k message before outcomes ++ serveAll int k message after outcomes' := by
  rw [serveAll, List.zipWith_append h.symm, List.flatten_append]
  rfl

theorem serveAll_singleton (r : Registration τ) (outcome : Option Bool) :
    serveAll int k message [r] [outcome] = serve int k message r outcome := by
  simp [serveAll]

inductive TaskAt (int : τ) (k : Nat) (message : BitVec 32) (r : Registration τ) :
    Pc τ → List Event → Prop
  | anyCast : TaskAt int k message r (.anyCast k r message) []
  | condition {c : CallPc τ} (h : r.type.removeCvref = int) :
      TaskAt int k message r (.condition k r message c) [.condition k r.handle message]
  | callback {c : CallPc τ} :
      TaskAt int k message r (.callback k r message c) (serve int k message r (some true))
  | finished (outcome : Option Bool) : TaskAt int k message r .finished (serve int k message r outcome)

theorem TaskAt.isPrefix {r : Registration τ} {p : Pc τ} {events : List Event}
    (h : TaskAt int k message r p events) : ∃ outcome, events <+: serve int k message r outcome := by
  cases h with
  | anyCast => exact ⟨none, List.nil_prefix⟩
  | condition h =>
    refine ⟨none, [.outcome k r.handle none], ?_⟩
    simp [serve, h]
  | callback => exact ⟨some true, List.prefix_rfl⟩
  | finished outcome => exact ⟨outcome, List.prefix_rfl⟩

theorem TaskAt.of_done {r : Registration τ} {p : Pc τ} {events : List Event}
    (h : TaskAt int k message r p events) (hdone : done p = true) :
    ∃ outcome, events = serve int k message r outcome := by
  cases h with
  | finished outcome => exact ⟨outcome, rfl⟩
  | anyCast | condition | callback => cases hdone

theorem TaskAt.moves {m m' : Members τ} {n : Nat} {i : Input τ} {r : Registration τ} {p p' : Pc τ}
    {e : Effect Unit (Pc τ)} {events : List Event} (h : TaskAt int k message r p events)
    (hmoves : Moves int m n i p m' p' e) (hfree : holds p () = false) :
    ∃ new, m'.log = m.log ++ new ∧ m'.notifications = m.notifications ∧
      (∀ x ∈ new, notificationOf x = k) ∧ TaskAt int k message r p' (events ++ new) := by
  cases h with
  | anyCast =>
    cases hmoves with
    | executes h =>
      cases h with
      | cast hint => exact ⟨_, rfl, rfl, by simp [notificationOf], .condition hint⟩
      | badCast hint =>
        refine ⟨[], by simp, rfl, by simp, ?_⟩
        have hnone : serve int k message r none = [] := if_neg hint
        rw [List.append_nil, ← hnone]
        exact .finished none
  | condition hint =>
    cases hmoves with
    | condition h =>
      have hcalls := call_calls h
      exact ⟨[], by simp [hcalls.log], (hcalls.free hfree).2.2.2, by simp, .condition hint⟩
    | executes h =>
      cases h with
      | succeeds =>
        refine ⟨_, rfl, rfl, by simp [notificationOf], ?_⟩
        have hserve : serve int k message r (some true) = [.condition k r.handle message] ++
            [.outcome k r.handle (some true), .callback k r.handle message] := by
          simp [serve, hint]
        rw [← hserve]
        exact .callback
      | @fails _ _ _ outcome hne =>
        refine ⟨_, rfl, rfl, by simp [notificationOf], ?_⟩
        have hserve : serve int k message r outcome = [.condition k r.handle message] ++
            [.outcome k r.handle outcome] := by
          simp [serve, hint, hne]
        rw [← hserve]
        exact .finished outcome
  | callback =>
    cases hmoves with
    | callback h =>
      have hcalls := call_calls h
      refine ⟨[], by simp [hcalls.log], (hcalls.free hfree).2.2.2, by simp, ?_⟩
      rw [List.append_nil]
      exact .callback
    | executes h =>
      cases h with
      | returned =>
        refine ⟨[], by simp, rfl, by simp, ?_⟩
        rw [List.append_nil]
        exact .finished (some true)
  | finished outcome =>
    cases hmoves with
    | executes h => cases h

def InProgress (int : τ) (m : Members τ) (k : Nat) (message : BitVec 32) (rest : List (Registration τ))
    (events : List Event) : Prop :=
  ∃ nt before outcomes, m.notifications[k]? = some nt ∧ nt.message = message ∧
    nt.range = before ++ rest ∧ outcomes.length = before.length ∧
    logOf m k = serveAll int k message before outcomes ++ events

def Served (int : τ) (m : Members τ) (k : Nat) (nt : Notification τ) : Prop :=
  ∃ outcomes, outcomes.length = nt.range.length ∧
    logOf m k = serveAll int k nt.message nt.range outcomes

def Doing (int : τ) (m : Members τ) (task : Nat → Pc τ) : CallPc τ → Prop
  | .loop k message rest => InProgress int m k message rest []
  | .wait k message n rest =>
    ∃ r events, InProgress int m k message (r :: rest) events ∧ TaskAt int k message r (task n) events
  | _ => True

theorem doing_of_idle {m : Members τ} {task : Nat → Pc τ} {c : CallPc τ} (h : serving c = none) :
    Doing int m task c := by
  cases c with
  | loop | wait => cases h
  | _ => trivial

theorem InProgress.append {m m' : Members τ} {rest : List (Registration τ)} {events new : List Event}
    (h : InProgress int m k message rest events) (hlog : m'.log = m.log ++ new)
    (hnotifications : m'.notifications = m.notifications) (hnew : ∀ x ∈ new, notificationOf x = k) :
    InProgress int m' k message rest (events ++ new) := by
  obtain ⟨nt, before, outcomes, hnt, hmessage, hrange, hlen, hevents⟩ := h
  refine ⟨nt, before, outcomes, by rw [hnotifications, hnt], hmessage, hrange, hlen, ?_⟩
  rw [logOf_append hlog hnew, if_pos rfl, hevents, List.append_assoc]

theorem InProgress.next {m : Members τ} {r : Registration τ} {rest : List (Registration τ)}
    {outcome : Option Bool} (h : InProgress int m k message (r :: rest) (serve int k message r outcome)) :
    InProgress int m k message rest [] := by
  obtain ⟨nt, before, outcomes, hnt, hmessage, hrange, hlen, hevents⟩ := h
  refine ⟨nt, before ++ [r], outcomes ++ [outcome], hnt, hmessage, ?_, ?_, ?_⟩
  · rw [hrange, List.append_assoc]
    rfl
  · rw [List.length_append, List.length_append, hlen]
    rfl
  · rw [serveAll_append hlen, serveAll_singleton, hevents, List.append_nil]

theorem InProgress.served {m : Members τ} {nt : Notification τ} (h : InProgress int m k message [] [])
    (hnt : m.notifications[k]? = some nt) : Served int m k nt := by
  obtain ⟨nt', before, outcomes, hnt', rfl, hrange, hlen, hevents⟩ := h
  obtain rfl : nt' = nt := by simpa [hnt] using hnt'.symm
  rw [List.append_nil] at hrange hevents
  subst hrange
  exact ⟨outcomes, hlen, hevents⟩

theorem InProgress.isPrefix {m : Members τ} {nt : Notification τ} {rest : List (Registration τ)}
    {events : List Event} (h : InProgress int m k message rest events)
    (hnt : m.notifications[k]? = some nt) (outcomes : List (Option Bool))
    (hlen : outcomes.length = rest.length) (hpart : events <+: serveAll int k message rest outcomes) :
    ∃ outcomes, outcomes.length = nt.range.length ∧
      logOf m k <+: serveAll int k nt.message nt.range outcomes := by
  obtain ⟨nt', before, outcomes', hnt', rfl, hrange, hlen', hevents⟩ := h
  obtain rfl : nt' = nt := by simpa [hnt] using hnt'.symm
  refine ⟨outcomes' ++ outcomes, ?_, ?_⟩
  · rw [List.length_append, hrange, List.length_append, hlen, hlen']
  · rw [hrange, serveAll_append hlen', hevents]
    exact (List.prefix_append_right_inj _).mpr hpart

end Serve

section Recorded

variable [DecidableEq τ] {int : τ} {m m' : Members τ} {pc pc' : Thread Q → Pc τ}

structure Recorded (int : τ) (m : Members τ) (pc : Thread Q → Pc τ) : Prop where
  events : ∀ x ∈ m.log, notificationOf x < m.notifications.length
  doing : ∀ q c, pc (.main q) = .client c → Doing int m (fun n => pc (.task n)) c
  served : ∀ k nt, m.notifications[k]? = some nt → (∀ q, serving (callOf (pc (.main q))) ≠ some k) →
    Served int m k nt

theorem Recorded.owner (h : Recorded int m pc) {q : Q} {c' : CallPc τ}
    (hothers : ∀ q' ≠ q, serving (callOf (pc (.main q'))) = none) (hself : pc' (.main q) = .client c')
    (hother : ∀ q' ≠ q, pc' (.main q') = pc (.main q')) (hlog : m'.log = m.log)
    (hlen : m.notifications.length ≤ m'.notifications.length)
    (hdoing : Doing int m' (fun n => pc' (.task n)) c')
    (hserved : ∀ k nt, m'.notifications[k]? = some nt → serving c' ≠ some k →
      Served int m k nt ∨ m.notifications[k]? = some nt ∧ serving (callOf (pc (.main q))) ≠ some k) :
    Recorded int m' pc' := by
  refine ⟨fun x hx => ?_, fun q' c hq' => ?_, fun k nt hnt hidle => ?_⟩
  · rw [hlog] at hx
    exact Nat.lt_of_lt_of_le (h.events x hx) hlen
  · by_cases hqq : q' = q
    · subst hqq
      rw [hself] at hq'
      cases hq'
      exact hdoing
    · rw [hother q' hqq] at hq'
      have hnone := hothers q' hqq
      rw [hq'] at hnone
      exact doing_of_idle hnone
  · have hlogOf : logOf m' k = logOf m k := by
      rw [logOf, hlog]
      rfl
    have hk := hidle q
    rw [hself] at hk
    have hold : Served int m k nt := by
      obtain hold | ⟨hnt, hq⟩ := hserved k nt hnt hk
      · exact hold
      · apply h.served k nt hnt
        intro q'
        by_cases hqq : q' = q
        · subst hqq
          exact hq
        · rw [hothers q' hqq]
          simp
    obtain ⟨outcomes, houtcomes, hevents⟩ := hold
    exact ⟨outcomes, houtcomes, by rw [hlogOf, hevents]⟩

theorem Recorded.idle (h : Recorded int m pc) {q : Q} {c c' : CallPc τ} (hq : pc (.main q) = .client c)
    (hself : pc' (.main q) = .client c') (hother : ∀ t ≠ .main q, pc' t = pc t) (hlog : m'.log = m.log)
    (hnotifications : m'.notifications = m.notifications) (hc : serving c = none)
    (hc' : serving c' = none) : Recorded int m' pc' := by
  have hlogOf : ∀ k, logOf m' k = logOf m k := by
    intro k
    rw [logOf, hlog]
    rfl
  have htasks : (fun n => pc' (.task n)) = fun n => pc (.task n) := by
    funext n
    exact hother _ (by simp)
  have hprogress : ∀ {k message rest events}, InProgress int m k message rest events →
      InProgress int m' k message rest events := by
    intro k message rest events hp
    simpa only [InProgress, hnotifications, hlogOf] using hp
  refine ⟨fun x hx => ?_, fun q' c₀ hq' => ?_, fun k nt hnt hidle => ?_⟩
  · rw [hlog] at hx
    rw [hnotifications]
    exact h.events x hx
  · by_cases hqq : q' = q
    · subst hqq
      rw [hself] at hq'
      cases hq'
      exact doing_of_idle hc'
    · rw [hother _ (by simp [hqq])] at hq'
      have hdoing := h.doing q' c₀ hq'
      rw [htasks]
      cases c₀ with
      | loop => exact hprogress hdoing
      | wait =>
        obtain ⟨r, events, hp, ht⟩ := hdoing
        exact ⟨r, events, hprogress hp, ht⟩
      | _ => trivial
  · rw [hnotifications] at hnt
    simp only [Served, hlogOf]
    apply h.served k nt hnt
    intro q'
    by_cases hqq : q' = q
    · subst hqq
      rw [hq, callOf, hc]
      simp
    · have hk := hidle q'
      rwa [hother _ (by simp [hqq])] at hk

theorem Recorded.calls (h : Recorded int m pc) (howned : SingleOwner pc) [DecidableEq Q] {q : Q}
    {c c' : CallPc τ} {n : Nat} {e : Effect Unit (Pc τ)}
    (hq : pc (.main q) = .client c) (hcalls : Calls m n c m' c' e)
    (hready : ∀ future, e = .join future → done (pc (.task future)) = true)
    (hpc : pc' = e.place n (Function.update pc (.main q) (.client c'))) : Recorded int m' pc' := by
  have hmain : ∀ q', pc' (.main q') = Function.update pc (.main q) (.client c') (.main q') := by
    intro q'
    subst hpc
    cases e with
    | spawn p₀ =>
      have hne : (.main q' : Thread Q) ≠ .task n := by simp
      exact Function.update_of_ne hne ..
    | _ => rfl
  have hself : pc' (.main q) = .client c' := by
    rw [hmain, Function.update_self]
  have hclients : ∀ q' ≠ q, pc' (.main q') = pc (.main q') := by
    intro q' hne
    rw [hmain, Function.update_of_ne (by simp [hne])]
  have hdoing := h.doing q c hq
  have hothers : callHolds c = true → ∀ q' ≠ q, serving (callOf (pc (.main q'))) = none := by
    intro hholds q' hne
    exact serving_none howned (holds_client hq hholds) hne
  cases hcalls with
  | register | cancelEnd | cancel | notify | registerLock | emplace | registerUnlock | cancelLock
  | eraseEnd | erase | cancelUnlock | notifyLock | notifyUnlock =>
    refine h.idle hq hself (fun t ht => ?_) rfl rfl rfl rfl
    rw [hpc]
    exact Function.update_of_ne ht ..
  | equalRange hrange =>
    refine h.owner (hothers rfl) hself hclients rfl (by simp) ?_ (fun k nt hnt hk => .inr ⟨?_, ?_⟩)
    · refine ⟨_, [], [], List.getElem?_concat_length .., rfl, rfl, rfl, ?_⟩
      apply List.filter_eq_nil_iff.mpr
      intro x hx
      rw [decide_eq_true_eq]
      exact (h.events x hx).ne
    · -- another one that is not being served is an old one
      have hlt : k < m.notifications.length := by
        have hle := (List.getElem?_eq_some_iff.mp hnt).1
        rw [List.length_append, List.length_singleton] at hle
        have hne : k ≠ m.notifications.length := by
          rintro rfl
          exact hk rfl
        omega
      rwa [List.getElem?_append_left hlt] at hnt
    · rw [hq]
      simp [callOf, serving]
  | @launch k message executor rest =>
    refine h.owner (hothers rfl) hself hclients rfl (Nat.le_refl _) ⟨executor, [], hdoing, ?_⟩
      (fun k nt hnt hk => .inr ⟨hnt, ?_⟩)
    · have hnew : pc' (.task n) = .anyCast k executor message := by
        rw [hpc]
        exact Function.update_self ..
      simp only [hnew]
      exact .anyCast
    · rw [hq]
      exact hk
  | @loopEnd k message =>
    refine h.owner (hothers rfl) hself hclients rfl (Nat.le_refl _) trivial (fun k' nt hnt _ => ?_)
    by_cases hk : k' = k
    · subst hk
      exact .inl (hdoing.served hnt)
    · refine .inr ⟨hnt, ?_⟩
      rw [hq]
      simp [callOf, serving, Ne.symm hk]
  | @wait k message future rest =>
    -- the destructor of the future has waited for the task
    obtain ⟨r, events, hp, ht⟩ := hdoing
    obtain ⟨outcome, rfl⟩ := ht.of_done (hready future rfl)
    refine h.owner (hothers rfl) hself hclients rfl (Nat.le_refl _) hp.next
      (fun k nt hnt hk => .inr ⟨hnt, ?_⟩)
    rw [hq]
    exact hk

theorem Recorded.moves (h : Recorded int m pc) (howned : SingleOwner pc) [DecidableEq Q] {q : Q}
    {k n n' : Nat} {message : BitVec 32} {rest : List (Registration τ)}
    {i : Input τ} {p : Pc τ} {e : Effect Unit (Pc τ)}
    (hq : pc (.main q) = .client (.wait k message n rest))
    (hmoves : Moves int m n' i (pc (.task n)) m' p e) (hfree : holds (pc (.task n)) () = false)
    (hpc : pc' = Function.update pc (.task n) p) : Recorded int m' pc' := by
  obtain ⟨r, events, hp, ht⟩ := h.doing q _ hq
  obtain ⟨new, hlog, hnotifications, hnew, ht'⟩ := ht.moves hmoves hfree
  have hmain : ∀ q', pc' (.main q') = pc (.main q') := by
    intro q'
    rw [hpc, Function.update_of_ne (by simp)]
  refine ⟨fun x hx => ?_, fun q' c hq' => ?_, fun k' nt hnt hidle => ?_⟩
  · rw [hnotifications]
    rw [hlog] at hx
    obtain hx | hx := List.mem_append.mp hx
    · exact h.events x hx
    · obtain ⟨nt, -, -, hnt, -⟩ := hp
      rw [hnew x hx]
      exact (List.getElem?_eq_some_iff.mp hnt).1
  · rw [hmain] at hq'
    by_cases hqq : q' = q
    · subst hqq
      rw [hq] at hq'
      cases hq'
      refine ⟨r, events ++ new, hp.append hlog hnotifications hnew, ?_⟩
      simp only [hpc, Function.update_self]
      exact ht'
    · have hnone := serving_none howned (holds_client hq rfl) hqq
      rw [hq'] at hnone
      exact doing_of_idle hnone
  · rw [hnotifications] at hnt
    have hk : k' ≠ k := by
      rintro rfl
      apply hidle q
      rw [hmain, hq]
      rfl
    obtain ⟨outcomes, hlen, hevents⟩ := h.served k' nt hnt (fun q' => by rw [← hmain]; exact hidle q')
    refine ⟨outcomes, hlen, ?_⟩
    rw [logOf_append hlog hnew, if_neg hk, List.append_nil, hevents]

end Recorded

section Step

variable [DecidableEq τ] [DecidableEq Q] {int : τ} {s : MidState τ Q}

theorem recorded (hs : Reachable (system int Q) s) : Recorded int s.shared s.pc := by
  induction hs with
  | init h =>
    subst h
    refine ⟨?_, ?_, ?_⟩
    · intro x hx
      cases hx
    · intro q c hc
      cases hc
      trivial
    · intro k nt hnt
      cases hnt
  | @step s s' a hs h ih =>
    obtain ⟨p, e, hstep⟩ := step_cases h
    have hinv := inv hs
    have howned : SingleOwner s.pc := by
      intro q₁ q₂ h₁ h₂
      cases hinv.owned.unique h₁ h₂
      rfl
    obtain ⟨t, i⟩ := a
    cases t with
    | main q =>
      obtain ⟨c, hq⟩ := hinv.clients q
      obtain ⟨c', rfl, hcalls⟩ := client_calls hq hstep
      refine ih.calls howned hq hcalls ?_ hstep.pc
      rintro future rfl
      exact hstep.ready
    | task n =>
      obtain ⟨q, k, message, rest, hq⟩ := hinv.awaited n hstep.not_done
      have hfree := hinv.task_free n
      have hmoves := next_moves hstep.next
      refine ih.moves howned hq hmoves hfree ?_
      rw [hstep.pc]
      cases e with
      | spawn p₀ => exact absurd rfl (hmoves.not_spawn hfree p₀)
      | _ => rfl

/-- Each `Notify` serves just the registrations of its range: one after the other
until it is past the loop, and then all of them. A condition or a callback that
throws is served like the others. At most one task is not done, and none when a
`Notify` returns, which it does. -/
structure DispatchExact (int : τ) (s : MidState τ Q) : Prop where
  ranges : ∀ nt ∈ s.shared.notifications, RangeExact nt
  serves : ∀ k nt, s.shared.notifications[k]? = some nt → ∃ outcomes, outcomes.length = nt.range.length ∧
    logOf s.shared k <+: serveAll int k nt.message nt.range outcomes
  served : ∀ k nt, s.shared.notifications[k]? = some nt →
    (∀ t, serving (callOf (s.pc t)) ≠ some k) → ∃ outcomes, outcomes.length = nt.range.length ∧
      logOf s.shared k = serveAll int k nt.message nt.range outcomes
  logged : ∀ x ∈ s.shared.log, notificationOf x < s.shared.notifications.length
  single : ∀ n₁ n₂, done (s.pc (.task n₁)) = false → done (s.pc (.task n₂)) = false → n₁ = n₂
  finished : ∀ t k, callOf (s.pc t) = .notifyUnlock k → ∀ n, done (s.pc (.task n)) = true
  returns : ∀ t, s.owner () = some t → ∃ q, t = .main q ∧ ∃ n, Within (system int Q) NoReentry (Serves t)
    (fun v => v.pc t = .client .outside) n s

/-- A `Notify` that is serving its range has served a part of it. -/
theorem serving_serves (hs : Reachable (system int Q) s) {q : Q} {k : Nat} {nt : Notification τ}
    (hq : serving (callOf (s.pc (.main q))) = some k) (hnt : s.shared.notifications[k]? = some nt) :
    ∃ outcomes, outcomes.length = nt.range.length ∧
      logOf s.shared k <+: serveAll int k nt.message nt.range outcomes := by
  obtain ⟨c, hc⟩ := (inv hs).clients q
  have hdoing := (recorded hs).doing q c hc
  rw [hc] at hq
  cases c with
  | loop k' message rest =>
    cases hq
    exact InProgress.isPrefix hdoing hnt (List.replicate rest.length none) (by simp) List.nil_prefix
  | wait k' message n rest =>
    cases hq
    obtain ⟨r, events, hp, ht⟩ := hdoing
    obtain ⟨outcome, hpart⟩ := ht.isPrefix
    refine hp.isPrefix hnt ([outcome] ++ List.replicate rest.length none) (by simp) ?_
    rw [← List.singleton_append, serveAll_append rfl, serveAll_singleton]
    exact hpart.trans (List.prefix_append ..)
  | _ => cases hq

theorem notify_dispatchExact (hs : ReachableBy (system int Q) NoReentry s) : DispatchExact int s := by
  have hinv := inv hs.reachable
  have hrecorded := recorded hs.reachable
  refine ⟨(registered hs.reachable).registry.notifications, fun k nt hnt => ?_, fun k nt hnt hidle => ?_,
    hrecorded.events, fun n₁ n₂ => hinv.task_unique, fun t k ht n => ?_, fun t ht => ?_⟩
  · by_cases hserving : ∃ q, serving (callOf (s.pc (.main q))) = some k
    · obtain ⟨q, hq⟩ := hserving
      exact serving_serves hs.reachable hq hnt
    · push Not at hserving
      obtain ⟨outcomes, hlen, hevents⟩ := hrecorded.served k nt hnt hserving
      exact ⟨outcomes, hlen, hevents ▸ List.prefix_rfl⟩
  · exact hrecorded.served k nt hnt (fun q => hidle (.main q))
  · cases t with
    | main q =>
      obtain ⟨c, hq⟩ := hinv.clients q
      rw [hq] at ht
      obtain rfl : c = .notifyUnlock k := ht
      exact hinv.task_done hq rfl (by simp) n
    | task n' =>
      have hfree := hinv.task_free n'
      rw [holds, ht] at hfree
      cases hfree
  · exact owner_returns hs ht

end Step

def throwingRun : List (Action Unit (Input Bool)) :=
  [(1, true), (1, true), (1, false), (2, true), (1, true)].flatMap (fun x =>
    ⟨.main (), .call (.register x.1 (.plain x.2))⟩ :: List.replicate 3 ⟨.main (), .go 0⟩) ++
    [⟨.main (), .call (.cancel (some 4))⟩] ++ List.replicate 3 ⟨.main (), .go 0⟩ ++
    [⟨.main (), .call (.notify 1 7)⟩] ++ List.replicate 3 ⟨.main (), .go 0⟩ ++
    [⟨.task 0, .throws⟩] ++ List.replicate 2 ⟨.main (), .go 0⟩ ++
    [⟨.task 1, .throws⟩, ⟨.task 1, .returns true⟩, ⟨.task 1, .throws⟩] ++
    List.replicate 2 ⟨.main (), .go 0⟩ ++
    [⟨.task 2, .throws⟩, ⟨.task 2, .throws⟩] ++ List.replicate 3 ⟨.main (), .go 0⟩

theorem notify_dispatchExact_throwing :
    ∃ s, ReachableBy (system true Unit) NoReentry s ∧ DispatchExact true s ∧
      s.pc (.main ()) = .client .outside ∧ logOf s.shared 0 =
        [.condition 0 1 7, .outcome 0 1 (some true), .callback 0 1 7, .condition 0 0 7,
          .outcome 0 0 none] := by
  obtain ⟨s, hs, h⟩ : ∃ s, ReachableBy (system true Unit) NoReentry s ∧
      s.pc (.main ()) = .client .outside ∧ logOf s.shared 0 =
        [.condition 0 1 7, .outcome 0 1 (some true), .callback 0 1 7, .condition 0 0 7,
          .outcome 0 0 none] := by
    refine exists_reachableBy rfl throwingRun ?_ (by decide +kernel)
    rintro a ha u ⟨n, c, rfl, -⟩
    simp [throwingRun] at ha
  exact ⟨s, hs, notify_dispatchExact hs, h⟩

def TouchesOnlyInt (int : τ) (s : MidState τ Q) : Prop :=
  ∀ k nt r value, s.shared.notifications[k]? = some nt → r ∈ nt.range →
    .condition k r.handle value ∈ logOf s.shared k → r.type = .plain int

/-- `std::any_cast<const int &>` finds the `int`. -/
theorem not_touchesOnlyInt_reference :
    ∃ s, ReachableBy (system true Unit) NoReentry s ∧ s.pc (.main ()) = .client .outside ∧
      logOf s.shared 0 = [.condition 0 0 1, .outcome 0 0 (some true), .callback 0 0 1] ∧
      ¬ TouchesOnlyInt true s := by
  obtain ⟨s, hs, hpc, hlog, hrange⟩ : ∃ s, ReachableBy (system true Unit) NoReentry s ∧
      s.pc (.main ()) = .client .outside ∧
      logOf s.shared 0 = [.condition 0 0 1, .outcome 0 0 (some true), .callback 0 0 1] ∧
      s.shared.notifications.map (·.range) = [[⟨0, 1, ⟨true, true, false, true⟩⟩]] := by
    refine exists_reachableBy rfl ([⟨.main (), .call (.register 1 ⟨true, true, false, true⟩)⟩] ++
      List.replicate 3 ⟨.main (), .go 0⟩ ++ [⟨.main (), .call (.notify 1 1)⟩] ++
      List.replicate 3 ⟨.main (), .go 0⟩ ++ List.replicate 3 ⟨.task 0, .returns true⟩ ++
      List.replicate 3 ⟨.main (), .go 0⟩) ?_ (by decide +kernel)
    rintro a ha u ⟨n, c, rfl, -⟩
    simp at ha
  refine ⟨s, hs, hpc, hlog, fun htouches => ?_⟩
  obtain ⟨nt, hnt, hnt'⟩ := List.map_eq_singleton_iff.mp hrange
  have htype := htouches 0 nt ⟨0, 1, ⟨true, true, false, true⟩⟩ 1 (by rw [hnt]; rfl)
    (by rw [hnt']; exact List.mem_singleton_self _) (by rw [hlog]; exact List.mem_cons_self)
  simp [MessageType.plain] at htype

end RoblSampleCodes.MidListenerDispatch
