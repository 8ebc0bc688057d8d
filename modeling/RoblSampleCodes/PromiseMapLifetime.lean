import RoblSampleCodes.PromiseMapHistory

namespace RoblSampleCodes.PromiseMapLifetime

open TransitionSystem PromiseMap PromiseMapSoundness PromiseMapHistory

variable {T R : Type} {key : T → Key} {s s' : MapState T R} {t : T} {r : R} {a : Action T R}

/-- A `set_value` meets a call that has not returned and whose promise has no
value, and none has thrown or written to a stack that is gone. -/
structure Live (s : MapState T R) : Prop where
  found : ∀ r t buf, s.recv r = .found t buf → (s.pc t).isReturned = false ∧ s.promise t = none
  sound : ∀ r, s.recv r ≠ .threw ∧ s.recv r ≠ .undefined

/-- A `find` meets a call that waits without a value and that no other `Receive`
has found, and no call times out while a `Receive` has found it. -/
structure Exclusive (s : MapState T R) (a : Action T R) : Prop where
  find : ∀ r m t, a = .receive r m → s.promiseMap m.key = some t →
    s.pc t = .wait ∧ s.promise t = none ∧ ∀ r' buf, s.recv r' ≠ .found t buf
  timeout : ∀ t timeout, a = .request t timeout → s.pc t = .wait → s.promise t = none →
    ∀ r buf, s.recv r ≠ .found t buf

structure Held (s : MapState T R) : Prop where
  waits : ∀ r t buf, s.recv r = .found t buf → s.pc t = .wait ∧ s.promise t = none
  unique : ∀ r r' t buf buf', s.recv r = .found t buf → s.recv r' = .found t buf' → r = r'
  sound : ∀ r, s.recv r ≠ .threw ∧ s.recv r ≠ .undefined

theorem Held.live (h : Held s) : Live s := by
  refine ⟨fun r t buf hr => ?_, h.sound⟩
  obtain ⟨hw, hn⟩ := h.waits r t buf hr
  rw [hw]
  exact ⟨rfl, hn⟩

section Step

variable [DecidableEq T]

theorem Held.requests (h : Held s) (hstep : Requests key s t s')
    (hout : s.pc t = .wait → s.promise t = none → ∀ r buf, s.recv r ≠ .found t buf) : Held s' := by
  obtain ⟨hpromise, hrecv, -, hpc⟩ := hstep.frame
  refine ⟨fun r u buf hr => ?_, ?_, ?_⟩
  · rw [hrecv] at hr
    obtain ⟨hw, hn⟩ := h.waits r u buf hr
    have hut : u ≠ t := by
      rintro rfl
      exact hout hw hn r buf hr
    rw [hpc u hut, hpromise]
    exact ⟨hw, hn⟩
  · rw [hrecv]
    exact h.unique
  · rw [hrecv]
    exact h.sound

variable [DecidableEq R]

theorem Held.receives (h : Held s) (hc : Exclusive s a) (hstep : Receives false key s r a s') :
    Held s' := by
  cases hstep with
  | misses => exact ⟨h.waits, h.unique, h.sound⟩
  | delivers ha => cases ha
  | @finds m t _ _ hm =>
    obtain ⟨hw, hn, hno⟩ := hc.find r m t rfl hm
    have hcases : ∀ {r' u buf}, Function.update s.recv r (.found t m.buf) r' = .found u buf →
        r' = r ∧ u = t ∨ r' ≠ r ∧ s.recv r' = .found u buf := by
      intro r' u buf hr
      by_cases hrr : r' = r
      · subst hrr
        rw [Function.update_self, ReceivePc.found.injEq] at hr
        exact .inl ⟨rfl, hr.1.symm⟩
      · rw [Function.update_of_ne hrr] at hr
        exact .inr ⟨hrr, hr⟩
    refine ⟨fun r' u buf hr => ?_, fun r₁ r₂ u buf buf' h₁ h₂ => ?_, fun r' => ?_⟩
    · obtain ⟨rfl, rfl⟩ | ⟨-, hr⟩ := hcases hr
      · exact ⟨hw, hn⟩
      · exact h.waits r' u buf hr
    · obtain ⟨hr₁, hu₁⟩ | ⟨-, hf₁⟩ := hcases h₁ <;> obtain ⟨hr₂, hu₂⟩ | ⟨-, hf₂⟩ := hcases h₂
      · exact hr₁.trans hr₂.symm
      · exact absurd (hu₁ ▸ hf₂) (hno r₂ buf')
      · exact absurd (hu₂ ▸ hf₁) (hno r₁ buf)
      · exact h.unique r₁ r₂ u buf buf' hf₁ hf₂
    · by_cases hrr : r' = r
      · subst hrr
        simp
      · simp only [Function.update_of_ne hrr]
        exact h.sound r'
  | @resumes t buf _ hr hs =>
    obtain ⟨hw, hn⟩ := h.waits r t buf hr
    cases hs with
    | throws _ hp =>
      rw [hn] at hp
      cases hp
    | dangles ht =>
      rw [hw] at ht
      cases ht
    | fulfils =>
      have hcases : ∀ {r' u old}, Function.update s.recv r .idle r' = .found u old →
          u ≠ t ∧ s.recv r' = .found u old := by
        intro r' u old hr'
        by_cases hrr : r' = r
        · subst hrr
          rw [Function.update_self] at hr'
          cases hr'
        · rw [Function.update_of_ne hrr] at hr'
          exact ⟨fun hu => hrr (h.unique r' r t old buf (hu ▸ hr') hr), hr'⟩
      refine ⟨fun r' u old hr' => ?_, fun r₁ r₂ u buf buf' h₁ h₂ => ?_, fun r' => ?_⟩
      · obtain ⟨hut, hr'⟩ := hcases hr'
        simp only [Function.update_of_ne hut]
        exact h.waits r' u old hr'
      · exact h.unique r₁ r₂ u buf buf' (hcases h₁).2 (hcases h₂).2
      · by_cases hrr : r' = r
        · subst hrr
          simp
        · simp only [Function.update_of_ne hrr]
          exact h.sound r'

theorem held (hs : ReachableBy (system false key) Exclusive s) : Held s := by
  induction hs with
  | init h =>
    subst h
    refine ⟨?_, ?_, ?_⟩
    · intro _ _ _ h
      cases h
    · intro _ _ _ _ _ h
      cases h
    · intro r
      constructor
      · intro h
        cases h
      · intro h
        cases h
  | step _ hc h ih =>
    obtain ⟨t, timeout, rfl, hstep⟩ | ⟨r, hstep⟩ := step_cases h
    · exact ih.requests hstep (hc.timeout t timeout rfl)
    · exact ih.receives hc hstep

def returnSteps (t : T) : List (Action T R) :=
  [.request t false, .request t false]

theorem timedOut_returns (key : T → Key) (h : s.pc t = .eraseTimeout) :
    ∃ u, exec (system false key) s (returnSteps t) = some u ∧ (u.pc t).isReturned = true ∧
      u.recv = s.recv := by
  have hleave : (system (R := R) false key).step s (.request t false) =
      some ({ s with promiseMap := erase s.promiseMap (key t) }.goto t (.leave none)) := by
    simp only [system, step, forwardRequest, h]
  refine ⟨({ s with promiseMap := erase s.promiseMap (key t) }.goto t (.leave none)).goto t
    (.returned none), ?_, ?_, rfl⟩
  · simp only [returnSteps, exec, hleave, Option.bind_some]
    simp only [system, step, forwardRequest, goto_pc_self, Option.bind_some]
  · rw [goto_pc_self]
    rfl

theorem found_inTime {buf : Bytes} (hno : ∀ as u, exec (system false key) s as = some u → Live u)
    (hr : s.recv r = .found t buf) : s.pc t ≠ .eraseTimeout := by
  intro hpc
  obtain ⟨u, he, hret, hrecv⟩ := timedOut_returns key hpc
  rw [← hrecv] at hr
  rw [((hno _ u he).found r t buf hr).1] at hret
  cases hret

theorem found_once {r' : R} {buf buf' : Bytes}
    (hno : ∀ as u, exec (system false key) s as = some u → Live u) (hr : s.recv r = .found t buf)
    (hr' : s.recv r' = .found t buf') : r' = r := by
  by_contra hne
  have hsets := setValue_sets s r' t buf'
  have hlive := hno [.resume r'] (setValue s r' t buf')
    (by simp only [exec, system, step, hr', Option.bind_some])
  have hstill : (setValue s r' t buf').recv r = .found t buf := by
    rw [hsets.frame.2.2.2.1 r (fun h => hne h.symm)]
    exact hr
  exact sets_promise hsets ((hno [] s rfl).found r t buf hr).1 (hlive.found r t buf hstill).2

theorem find_step {m : Message} (h : Receives false key s r (.receive r m) s')
    (hm : s.promiseMap m.key = some t) :
    s.recv r = .idle ∧ s'.recv r = .found t m.buf ∧ s'.promise = s.promise := by
  cases h with
  | misses _ hn =>
    rw [hn] at hm
    cases hm
  | delivers ha => cases ha
  | finds _ hidle hn =>
    rw [hn, Option.some.injEq] at hm
    subst hm
    exact ⟨hidle, Function.update_self .., rfl⟩

theorem find_of_live {m : Message} (hs : Reachable (system false key) s)
    (hstep : Receives false key s r (.receive r m) s') (hm : s.promiseMap m.key = some t)
    (hno : ∀ as u, exec (system false key) s' as = some u → Live u) :
    s.pc t = .wait ∧ s.promise t = none ∧ ∀ r' buf, s.recv r' ≠ .found t buf := by
  obtain ⟨hidle, hfound, hpromise⟩ := find_step hstep hm
  obtain ⟨hpc, -, hrecv, -⟩ := hstep.frame
  have hn := ((hno [] s' rfl).found r t m.buf hfound).2
  rw [hpromise] at hn
  refine ⟨?_, hn, fun r' buf hr' => ?_⟩
  · obtain hp | hp | hp := registered_cases ((sound hs).entry _ _ hm).2
    · exact hp
    · rw [← hpc] at hp
      exact absurd hp (found_inTime hno hfound)
    · exact absurd hn ((noted hs).ready t (.inl hp))
  · have hne : r' ≠ r := by
      rintro rfl
      rw [hidle] at hr'
      cases hr'
    rw [← hrecv r' hne] at hr'
    exact hne (found_once hno hfound hr')

theorem exclusive_of_live (hs : Reachable (system false key) s)
    (h : (system false key).step s a = some s')
    (hno : ∀ as u, exec (system false key) s' as = some u → Live u) : Exclusive s a := by
  obtain ⟨u, timeout, rfl, hstep⟩ | ⟨r, hstep⟩ := step_cases h
  · refine ⟨fun _ _ _ ha => ?_, fun t _ ha hw hn r buf hr => ?_⟩
    · cases ha
    · cases ha
      obtain rfl := wait_timesOut hw hn hstep
      exact found_inTime hno hr goto_pc_self
  · refine ⟨fun r' m t ha hm => ?_, fun t timeout ha => ?_⟩
    · subst ha
      obtain rfl : r = r' := by cases hstep <;> rfl
      exact find_of_live hs hstep hm hno
    · subst ha
      cases hstep

/-- A `Receive` in its two steps completes only live promises, in the runs all of
whose steps are exclusive. Every other step can be followed by a `set_value` that
throws or meets a call that has returned. -/
theorem receive_completesLive (key : T → Key) :
    (∀ s, ReachableBy (system (R := R) false key) Exclusive s → Live s) ∧
      ∀ s a s', Reachable (system (R := R) false key) s → (system false key).step s a = some s' →
        ¬ Exclusive s a → ∃ as u, exec (system false key) s' as = some u ∧ ¬ Live u := by
  refine ⟨fun s hs => (held hs).live, fun s a s' hs h hc => ?_⟩
  by_contra hno
  push Not at hno
  exact hc (exclusive_of_live hs h hno)

end Step

/-- A second response for a key throws out of `Receive`. A
response whose call times out between the two steps writes to a promise that is gone. -/
theorem receive_completesDead :
    (∃ s, Reachable (system (T := Unit) (R := Unit) false (fun _ => ⟨routeListReq, 1, 123456⟩)) s ∧
        s.recv () = .threw ∧ ¬ Live s) ∧
      ∃ s, Reachable (system (T := Unit) (R := Unit) false (fun _ => ⟨routeListReq, 1, 123456⟩)) s ∧
        s.recv () = .undefined ∧ ¬ Live s := by
  constructor
  · obtain ⟨s, hs, hr⟩ : ∃ s, Reachable (system (T := Unit) (R := Unit) false
        (fun _ => ⟨routeListReq, 1, 123456⟩)) s ∧ s.recv () = .threw :=
      exists_reachable rfl [.request () false, .request () false, .request () false,
        .receive () ⟨1, 123456, 0, fun _ => 0⟩, .resume (), .receive () ⟨1, 123456, 0, fun _ => 0⟩,
        .resume ()] (by decide +kernel)
    exact ⟨s, hs, hr, fun h => (h.sound ()).1 hr⟩
  · obtain ⟨s, hs, hr⟩ : ∃ s, Reachable (system (T := Unit) (R := Unit) false
        (fun _ => ⟨routeListReq, 1, 123456⟩)) s ∧ s.recv () = .undefined :=
      exists_reachable rfl [.request () false, .request () false, .request () false,
        .receive () ⟨1, 123456, 0, fun _ => 0⟩, .request () true, .request () false, .request () false,
        .resume ()] (by decide +kernel)
    exact ⟨s, hs, hr, fun h => (h.sound ()).2 hr⟩

end RoblSampleCodes.PromiseMapLifetime
