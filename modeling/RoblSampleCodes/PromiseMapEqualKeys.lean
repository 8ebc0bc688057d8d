import RoblSampleCodes.PromiseMapHistory

namespace RoblSampleCodes.PromiseMapEqualKeys

open TransitionSystem PromiseMap PromiseMapSoundness PromiseMapHistory

variable {T R : Type} {atomic : Bool} {key : T → Key} {s s' : MapState T R} {t : T} {r : R}
  {m : Message} {buf : Bytes}

/-- An erase removes no entry of another call, and a call that was waiting when
a response for its key came does not time out. -/
structure Undisturbed (key : T → Key) (s : MapState T R) : Prop where
  erases : ∀ t u, s.pc t = .erase ∨ s.pc t = .eraseTimeout → s.promiseMap (key t) = some u → u = t
  answered : ∀ t buf, (key t).mid = routeListReq → (true, buf) ∈ s.received t →
    timedOut (s.pc t) = false

/-- An insert finds its key free, and a call does not time out while a `Receive`
that is not atomic has found its promise and not yet set the value. -/
def KeyFree (key : T → Key) (s : MapState T R) (a : Action T R) : Prop :=
  ∀ t timeout, a = .request t timeout →
    (s.pc t = .insert → s.promiseMap (key t) = none) ∧
      (s.pc t = .wait → s.promise t = none → ∀ r buf, s.recv r ≠ .found t buf)

structure Answered (key : T → Key) (s : MapState T R) : Prop where
  entry : ∀ t, registered (s.pc t) = true → s.promiseMap (key t) = some t
  answered : ∀ t buf, (key t).mid = routeListReq → (true, buf) ∈ s.received t →
    timedOut (s.pc t) = false
  set : ∀ t buf, (key t).mid = routeListReq → (true, buf) ∈ s.received t → s.pc t = .wait →
    s.promise t = none → ∃ r buf, s.recv r = .found t buf

theorem Answered.undisturbed (h : Answered key s) : Undisturbed key s := by
  refine ⟨fun t u ht hu => ?_, h.answered⟩
  have hreg : registered (s.pc t) = true := by
    obtain ht | ht := ht <;> rw [ht] <;> rfl
  rw [h.entry t hreg, Option.some.injEq] at hu
  exact hu.symm

section Step

variable [DecidableEq T]

theorem Answered.requests (h : Answered key s) (hnoted : Noted s) (hstep : Requests key s t s')
    (hfree : s.pc t = .insert → s.promiseMap (key t) = none)
    (hhand : s.pc t = .wait → s.promise t = none → ∀ r buf, s.recv r ≠ .found t buf) :
    Answered key s' := by
  obtain ⟨hpromise, hrecv, hreceived, hpc⟩ := hstep.frame
  refine ⟨Requests.entry hstep hfree h.entry, fun u buf hmid hu => ?_, fun u buf hmid hu hw hn => ?_⟩
  · rw [hreceived] at hu
    by_cases hut : u = t
    · subst hut
      by_contra hto
      obtain ht | ⟨hw, hn⟩ := requests_timedOut hstep (Bool.eq_true_of_not_eq_false hto)
      · rw [h.answered u buf hmid hu] at ht
        cases ht
      · obtain ⟨r, buf', hr⟩ := h.set u buf hmid hu hw hn
        exact hhand hw hn r buf' hr
    · rw [hpc u hut]
      exact h.answered u buf hmid hu
  · rw [hreceived] at hu
    rw [hpromise] at hn
    rw [hrecv]
    by_cases hut : u = t
    · subst hut
      exact absurd hw (requests_entered hstep (hnoted.received u buf hu)).2
    · rw [hpc u hut] at hw
      exact h.set u buf hmid hu hw hn

variable [DecidableEq R]

theorem Answered.receives {a : Action T R} (h : Answered key s) (hstep : Receives atomic key s r a s') :
    Answered key s' := by
  obtain ⟨hpc, hmap, -, hkeep⟩ := hstep.frame
  refine ⟨fun t ht => ?_, fun t buf hmid ht => ?_, fun t buf hmid ht hw hn => ?_⟩
  · rw [hpc] at ht
    rw [hmap]
    exact h.entry t ht
  · rw [hpc]
    obtain ht | ⟨m, -, -, hw, -, -⟩ := receives_received hstep ht
    · exact h.answered t buf hmid ht
    · rw [of_decide_eq_true hw.symm]
      rfl
  · rw [hpc] at hw
    obtain ht | ⟨m, rfl, hp, -, ha, -⟩ := receives_received hstep ht
    · cases hp : s.promise t with
      | some old =>
        rw [hkeep t old hp] at hn
        cases hn
      | none =>
        obtain ⟨r', buf', hr⟩ := h.set t buf hmid ht hw hp
        obtain hne | hr := receives_found hstep hr (by rw [hw]; rfl)
        · exact absurd hn hne
        · exact ⟨r', buf', hr⟩
    · have hentry := h.entry t (by rw [hw]; rfl)
      rw [← answers_key ha hmid] at hentry
      obtain hne | hr := receives_entry hstep hentry (awaits_inside hp)
      · exact absurd hn hne
      · exact ⟨r, m.buf, hr⟩

theorem answered (hs : ReachableBy (system atomic key) (KeyFree key) s) : Answered key s := by
  induction hs with
  | init h =>
    subst h
    refine ⟨?_, ?_, ?_⟩
    · intro _ h
      cases h
    · intro _ _ _ h
      cases h
    · intro _ _ _ h
      cases h
  | step hr hc h ih =>
    obtain ⟨t, timeout, rfl, hstep⟩ | ⟨r, hstep⟩ := step_cases h
    · obtain ⟨hfree, hhand⟩ := hc t timeout rfl
      exact ih.requests (noted hr.reachable) hstep hfree hhand
    · exact ih.receives hstep

/-- Breaking the condition takes at most one more step to a disturbance. -/
theorem inUse_disturbs {a : Action T R} (hs : Reachable (system atomic key) s)
    (h : (system atomic key).step s a = some s') (hc : ¬ KeyFree key s a) :
    ∃ as u, exec (system atomic key) s' as = some u ∧ ¬ Undisturbed key u := by
  simp only [KeyFree, not_forall, not_and_or, not_not] at hc
  obtain ⟨t, timeout, rfl, hc⟩ := hc
  have hstep : Requests key s t s' := forwardRequest_requests h
  obtain ⟨hpc, hne⟩ | ⟨hpc, hp, r, buf, hr⟩ := hc
  · obtain ⟨u, hu⟩ := Option.ne_none_iff_exists'.mp hne
    have hut : u ≠ t := by
      rintro rfl
      have hreg := ((sound hs).entry _ _ hu).2
      rw [hpc] at hreg
      cases hreg
    obtain rfl := insert_used hpc hu hstep
    obtain ⟨p, hp, hnext⟩ : ∃ p, (p = .erase ∨ p = .eraseTimeout) ∧
        (system atomic key).step (s.goto t .wait) (.request t true) = some ((s.goto t .wait).goto t p) :=
      wait_step goto_pc_self
    refine ⟨[.request t true], (s.goto t .wait).goto t p, ?_, fun hno => hut (hno.erases t u ?_ hu)⟩
    · simp only [exec, hnext, Option.bind_some]
    · rw [goto_pc_self]
      exact hp
  · obtain rfl := wait_timesOut hpc hp hstep
    obtain ⟨m, -, hkey, -⟩ := (sound hs).found r t buf hr
    refine ⟨[], _, rfl, fun hno => ?_⟩
    have ht := hno.answered t buf (key_answers hkey).2 (((noted hs).found r t buf hr).2 hpc)
    rw [goto_pc_self] at ht
    cases ht

/-- Calls do not disturb each other in the runs in which each insert finds its
key free, and no call times out between the two steps of a `Receive` for it. Every
other step can be followed by a disturbance. -/
theorem equalKeys_undisturbed (atomic : Bool) (key : T → Key) :
    (∀ s, ReachableBy (system (R := R) atomic key) (KeyFree key) s → Undisturbed key s) ∧
      ∀ s a s', Reachable (system (R := R) atomic key) s → (system atomic key).step s a = some s' →
        ¬ KeyFree key s a → ∃ as u, exec (system atomic key) s' as = some u ∧ ¬ Undisturbed key u :=
  ⟨fun _ hs => (answered hs).undisturbed, fun _ _ _ hs h hc => inUse_disturbs hs h hc⟩

end Step

/-- Two calls have one key. The second does not get into the map, but when it
times out it erases the entry of the first, whose response is then not found. -/
theorem equalKeys_disturb :
    ∃ s, Reachable (system (T := Bool) (R := Unit) true (fun _ => ⟨routeListReq, 1, 123456⟩)) s ∧
      s.pc true = .eraseTimeout ∧ s.promiseMap ⟨routeListReq, 1, 123456⟩ = some false ∧
      ¬ Undisturbed (fun _ => ⟨routeListReq, 1, 123456⟩) s ∧
      ∃ v, exec (system true (fun _ => ⟨routeListReq, 1, 123456⟩)) s
          [.request true false, .receive () ⟨1, 123456, 0, fun _ => 0⟩, .request false true] = some v ∧
        (true, (⟨1, 123456, 0, fun _ => 0⟩ : Message).buf) ∈ v.received false ∧
        timedOut (v.pc false) = true := by
  obtain ⟨s, he, hpc, hmap, v, hv, hreceived, hto⟩ : ∃ s,
      exec (system true (fun _ => ⟨routeListReq, 1, 123456⟩)) (initial Bool Unit)
        [.request false false, .request false false, .request false false, .request true false,
          .request true false, .request true false, .request true true] = some s ∧
      s.pc true = .eraseTimeout ∧ s.promiseMap ⟨routeListReq, 1, 123456⟩ = some false ∧
      ∃ v, exec (system true (fun _ => ⟨routeListReq, 1, 123456⟩)) s
          [.request true false, .receive () ⟨1, 123456, 0, fun _ => 0⟩, .request false true] = some v ∧
        (true, (⟨1, 123456, 0, fun _ => 0⟩ : Message).buf) ∈ v.received false ∧
        timedOut (v.pc false) = true :=
    ⟨_, rfl, rfl, rfl, _, rfl, List.mem_singleton.mpr rfl, rfl⟩
  refine ⟨s, .exec (.init rfl) he, hpc, hmap, fun h => ?_, v, hv, hreceived, hto⟩
  cases h.erases true false (.inr hpc) hmap

end RoblSampleCodes.PromiseMapEqualKeys
