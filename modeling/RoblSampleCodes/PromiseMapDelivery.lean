import RoblSampleCodes.PromiseMapHistory

namespace RoblSampleCodes.PromiseMapDelivery

open TransitionSystem PromiseMap PromiseMapSoundness PromiseMapHistory

variable {T R : Type} {atomic : Bool} {key : T → Key}
  {s s' : MapState T R} {t : T} {r : R} {m : Message} {buf : Bytes} {a : Action T R}

def Settles (t : T) : Action T R → Prop
  | .request u timeout => u = t ∧ timeout = false
  | .receive _ _ => False
  | .resume _ => True

/-- Nothing catches an exception that leaves `Receive`, so the program ends with it. Nothing is
said of it after the use of a promise that is gone. -/
def Running (s : MapState T R) : Prop := ∀ r, s.recv r ≠ .threw ∧ s.recv r ≠ .undefined

inductive SetsValue (atomic : Bool) (s : MapState T R) (t : T) : Action T R → Prop
  | receive {r : R} {m : Message} (ha : atomic = true) (hm : s.promiseMap m.key = some t) :
      SetsValue atomic s t (.receive r m)
  | resume {r : R} {buf : Bytes} (hr : s.recv r = .found t buf) : SetsValue atomic s t (.resume r)

/-- A response finds the calls it answers waiting, sent with the message that it is for, and without a
response of other bytes. No call times out while a `Receive` that is not atomic has found its promise
and not yet set the value. A `set_value` on a promise with a value, or of a call that has returned,
comes only when every call that got a response has returned, as it ends the program. -/
structure Timely (atomic : Bool) (key : T → Key) (s : MapState T R) (a : Action T R) : Prop where
  receive : ∀ r m t, a = .receive r m → m.answers (key t) = true → (s.pc t).awaits = true →
    (key t).mid = routeListReq ∧ s.pc t = .wait ∧ ∀ x ∈ s.received t, x.2 = m.buf
  timeout : ∀ t timeout, a = .request t timeout → s.pc t = .wait → s.promise t = none →
    ∀ r buf, s.recv r ≠ .found t buf
  sets : ∀ t, SetsValue atomic s t a → (s.pc t).isReturned = true ∨ s.promise t ≠ none →
    ∀ u waiting buf, (waiting, buf) ∈ s.received u → (s.pc u).isReturned = true

theorem timely_request {timeout : Bool} (h : s.pc t ≠ .wait) :
    Timely atomic key s (.request t timeout) := by
  refine ⟨fun _ _ _ ha => ?_, fun u _ ha hw => ?_, fun u ha => ?_⟩
  · cases ha
  · cases ha
    exact absurd hw h
  · cases ha

structure Heard (s : MapState T R) (t : T) (buf : Bytes) : Prop where
  entered : entered (s.pc t) = true
  timely : timedOut (s.pc t) = false
  promised : ∀ old, s.promise t = some old → old = buf
  found : s.promise t = none → ∃ r, s.recv r = .found t buf
  only : s.promise t = none → ∀ r old, s.recv r = .found t old → old = buf

def Lost (s : MapState T R) (t : T) (buf : Bytes) : Prop :=
  timedOut (s.pc t) = true ∨ (∃ old, s.promise t = some old ∧ old ≠ buf) ∨
    s.promise t = none ∧ ∀ r old, s.recv r ≠ .found t old

theorem lost_of_unset (hp : ∀ old, s.promise t ≠ some old) (hr : ∀ r old, s.recv r ≠ .found t old) :
    Lost s t buf :=
  .inr (.inr ⟨Option.eq_none_iff_forall_ne_some.mpr hp, hr⟩)

theorem Running.update [DecidableEq R] (h : Running s) {p : ReceivePc T} (hthrew : p ≠ .threw)
    (hundefined : p ≠ .undefined) (hrecv : s'.recv = Function.update s.recv r p) : Running s' := by
  intro r'
  rw [hrecv]
  by_cases hrr : r' = r
  · subst hrr
    rw [Function.update_self]
    exact ⟨hthrew, hundefined⟩
  · rw [Function.update_of_ne hrr]
    exact h r'

section Step

variable [DecidableEq T]

theorem Heard.requests {u : T} (h : Heard s u buf) (hstep : Requests key s t s')
    (hout : s.pc t = .wait → s.promise t = none → ∀ r buf, s.recv r ≠ .found t buf) : Heard s' u buf := by
  obtain ⟨hpromise, hrecv, -, hpc⟩ := hstep.frame
  have hplace : PromiseMapHistory.entered (s'.pc u) = true ∧ timedOut (s'.pc u) = false := by
    by_cases hut : u = t
    · subst hut
      refine ⟨(requests_entered hstep h.entered).1, ?_⟩
      by_contra hto
      obtain ht | ⟨hw, hn⟩ := requests_timedOut hstep (Bool.eq_true_of_not_eq_false hto)
      · rw [h.timely] at ht
        cases ht
      · obtain ⟨r, hr⟩ := h.found hn
        exact hout hw hn r buf hr
    · rw [hpc u hut]
      exact ⟨h.entered, h.timely⟩
  refine ⟨hplace.1, hplace.2, ?_, ?_, ?_⟩
  · rw [hpromise]
    exact h.promised
  · rw [hpromise, hrecv]
    exact h.found
  · rw [hpromise, hrecv]
    exact h.only

theorem Running.requests (h : Running s) (hstep : Requests key s t s') : Running s' := by
  intro r
  rw [hstep.frame.2.1]
  exact h r

variable [DecidableEq R]

theorem Sets.running (h : Sets s r t buf s') (hs : Running s) :
    Running s' ∨ (s.pc t).isReturned = true ∨ s.promise t ≠ none := by
  cases h with
  | fulfils => exact .inl (hs.update (by simp) (by simp) rfl)
  | throws _ hp =>
    refine .inr (.inr ?_)
    rw [hp]
    exact Option.some_ne_none _
  | dangles ht => exact .inr (.inl ht)

theorem Sets.not_running (h : Sets s r t buf s') (ht : (s.pc t).isReturned = true ∨ s.promise t ≠ none) :
    ¬ Running s' := by
  intro hs
  cases h with
  | fulfils hret hp =>
    obtain ht | ht := ht
    · rw [hret] at ht
      cases ht
    · exact ht hp
  | throws => exact (hs r).1 (Function.update_self ..)
  | dangles => exact (hs r).2 (Function.update_self ..)

def Delivered (atomic : Bool) (key : T → Key) (s : MapState T R) (t : T) (buf : Bytes) : Prop :=
  ∃ v, RunBy (system atomic key) (fun u a => Running u ∧ Settles t a) s v ∧ v.pc t = .returned (some buf)

/-- Every response that came for a call, after it was sent and before its wait
was over, is delivered. A call that has timed out or has returned anything else
delivers nothing, and so does one that has not returned when the program ends. -/
def NoResponseLost (atomic : Bool) (key : T → Key) (s : MapState T R) : Prop :=
  ∀ t waiting buf, (waiting, buf) ∈ s.received t → Delivered atomic key s t buf

theorem Delivered.step (hrun : Running s) (hs : Settles t a) (h : (system atomic key).step s a = some s')
    (hd : Delivered atomic key s' t buf) : Delivered atomic key s t buf := by
  obtain ⟨v, hv, hpc⟩ := hd
  exact ⟨v, hv.head ⟨hrun, hs⟩ h, hpc⟩

theorem Delivered.returned (h : Delivered atomic key s t buf) (hs : ¬ Running s) :
    s.pc t = .returned (some buf) := by
  obtain ⟨v, hv, hpc⟩ := h
  have hsame : v = s := by
    refine hv.invariant (P := fun u => u = s) rfl ?_
    rintro u a w rfl hc -
    exact absurd hc.1 hs
  exact hsame ▸ hpc

theorem delivered_request (hrun : Running s) (h : forwardRequest key s t false = some s')
    (hd : Running s' → Delivered atomic key s' t buf) : Delivered atomic key s t buf :=
  (hd (hrun.requests (forwardRequest_requests h))).step (a := .request t false) hrun ⟨rfl, rfl⟩ h

theorem promised_delivered (hrun : Running s) (hs : Sound key s) (hin : entered (s.pc t) = true)
    (hto : timedOut (s.pc t) = false) (hp : s.promise t = some buf) : Delivered atomic key s t buf := by
  have hreturned : ∀ {s : MapState T R}, s.pc t = .returned (some buf) → Delivered atomic key s t buf :=
    fun {s} hpc => ⟨s, .refl, hpc⟩
  have hleave : ∀ {s : MapState T R}, Running s → s.pc t = .leave (some buf) →
      Delivered atomic key s t buf :=
    fun {s} hrun hpc => delivered_request hrun (by rw [forwardRequest, hpc])
      (fun _ => hreturned goto_pc_self)
  have hget : ∀ {s : MapState T R}, Running s → s.pc t = .get → s.promise t = some buf →
      Delivered atomic key s t buf :=
    fun {s} hrun hpc hp =>
      delivered_request hrun (by rw [forwardRequest, hpc, hp]; rfl)
        (fun hrun => hleave hrun goto_pc_self)
  have herase : ∀ {s : MapState T R}, Running s → s.pc t = .erase → s.promise t = some buf →
      Delivered atomic key s t buf :=
    fun {s} hrun hpc hp => by
      have hstep : forwardRequest key s t false =
          some ({ s with promiseMap := erase s.promiseMap (key t) }.goto t .get) := by
        rw [forwardRequest, hpc]
      exact delivered_request hrun hstep (fun hrun => hget hrun goto_pc_self hp)
  cases hpc : s.pc t with
  | idle | send | insert =>
    rw [hpc] at hin
    cases hin
  | eraseTimeout =>
    rw [hpc] at hto
    cases hto
  | wait =>
    exact delivered_request hrun (by rw [forwardRequest, hpc, hp])
      (fun hrun => herase hrun goto_pc_self hp)
  | erase => exact herase hrun hpc hp
  | get => exact hget hrun hpc hp
  | leave result | returned result =>
    cases result with
    | none =>
      rw [hpc] at hto
      cases hto
    | some old =>
      have hold := hs.result t old (by rw [hpc]; rfl)
      rw [hp, Option.some.injEq] at hold
      subst hold
      first | exact hleave hrun hpc | exact hreturned hpc

theorem Heard.waits (h : Heard s t buf) (hs : Reachable (system atomic key) s)
    (hp : s.promise t = none) : s.pc t = .wait := by
  have hin := h.entered
  have hto := h.timely
  cases hpc : s.pc t with
  | wait => rfl
  | erase => exact absurd hp ((noted hs).ready t (.inl hpc))
  | get => exact absurd hp ((noted hs).ready t (.inr hpc))
  | idle | send | insert =>
    rw [hpc] at hin
    cases hin
  | eraseTimeout =>
    rw [hpc] at hto
    cases hto
  | leave result | returned result =>
    cases result with
    | none =>
      rw [hpc] at hto
      cases hto
    | some old =>
      have hold := (sound hs).result t old (by rw [hpc]; rfl)
      rw [hp] at hold
      cases hold

theorem Heard.returned (h : Heard s t buf) (hs : Reachable (system atomic key) s)
    (hret : (s.pc t).isReturned = true) : s.pc t = .returned (some buf) := by
  have hto := h.timely
  cases hpc : s.pc t with
  | returned result =>
    cases result with
    | none =>
      rw [hpc] at hto
      cases hto
    | some old =>
      have hold := h.promised old ((sound hs).result t old (by rw [hpc]; rfl))
      rw [hold]
  | _ =>
    rw [hpc] at hret
    cases hret

theorem Heard.delivered (h : Heard s t buf) (hs : Reachable (system atomic key) s) (hrun : Running s) :
    Delivered atomic key s t buf := by
  cases hp : s.promise t with
  | some old =>
    obtain rfl := h.promised old hp
    exact promised_delivered hrun (sound hs) h.entered h.timely hp
  | none =>
    obtain ⟨r, hr⟩ := h.found hp
    have hpc := h.waits hs hp
    have hstep : (system atomic key).step s (.resume r) = some (setValue s r t buf) := by
      simp only [system, step, hr]
    have hset : setValue s r t buf = { s with
        promise := Function.update s.promise t (some buf)
        recv := Function.update s.recv r .idle } := by
      simp [setValue, hpc, RequestPc.isReturned, hp]
    apply Delivered.step (a := .resume r) hrun trivial hstep
    have hsound := sound (hs.step hstep)
    rw [hset] at hsound ⊢
    exact promised_delivered (hrun.update (by simp) (by simp) rfl) hsound h.entered h.timely
      (Function.update_self ..)

theorem entries (hkey : Function.Injective key) (hs : Reachable (system (R := R) atomic key) s) :
    ∀ t, registered (s.pc t) = true → s.promiseMap (key t) = some t := by
  induction hs with
  | init h =>
    subst h
    intro t ht
    cases ht
  | step hr h ih =>
    obtain ⟨t, timeout, -, hstep⟩ | ⟨r, hstep⟩ := step_cases h
    · refine Requests.entry hstep (fun hpc => ?_) ih
      by_contra hne
      obtain ⟨u, hu⟩ := Option.ne_none_iff_exists'.mp hne
      obtain ⟨hk, hreg⟩ := (sound hr).entry _ _ hu
      rw [hkey hk, hpc] at hreg
      cases hreg
    · obtain ⟨hpc, hmap, -⟩ := hstep.frame
      rw [hpc, hmap]
      exact ih

theorem Heard.receives {u : T} (h : Heard s u buf) (hs : Reachable (system atomic key) s)
    (hstep : Receives atomic key s r a s')
    (hm : ∀ m, a = .receive r m → m.key = key u → s.pc u = .wait → m.buf = buf) : Heard s' u buf := by
  obtain ⟨hpc, -, -, hkeep⟩ := hstep.frame
  have hempty : s'.promise u = none → s.promise u = none := by
    intro hn
    cases hp : s.promise u with
    | none => rfl
    | some old =>
      rw [hkeep u old hp] at hn
      cases hn
  refine ⟨?_, ?_, fun old hold => ?_, fun hn => ?_, fun hn r' old hr => ?_⟩
  · rw [hpc]
    exact h.entered
  · rw [hpc]
    exact h.timely
  · cases hp : s.promise u with
    | some first =>
      rw [hkeep u first hp, Option.some.injEq] at hold
      exact hold ▸ h.promised first hp
    | none =>
      obtain hsame | ⟨m, ha, hk, rfl⟩ | hr := receives_promise (sound hs) hstep hold
      · exact h.promised old hsame
      · exact hm m ha hk (h.waits hs hp)
      · exact h.only hp r old hr
  · obtain ⟨r', hr⟩ := h.found (hempty hn)
    have hin : (s.pc u).isReturned = false := by
      rw [h.waits hs (hempty hn)]
      rfl
    exact ⟨r', (receives_found hstep hr hin).resolve_left (fun hne => hne hn)⟩
  · obtain hr | ⟨m, ha, hk, rfl⟩ := receives_recv (sound hs) hstep hr
    · exact h.only (hempty hn) r' old hr
    · exact hm m ha hk (h.waits hs (hempty hn))

/-- A response that comes in time for call `t` is heard. -/
theorem heard_new (hkey : Function.Injective key) (hs : Reachable (system atomic key) s)
    (hstep : Receives atomic key s r (.receive r m) s') (hw : s.pc t = .wait) (hm : m.key = key t)
    (hold : ∀ x ∈ s.received t, x.2 = m.buf) : Heard s' t m.buf := by
  obtain ⟨hpc, -⟩ := hstep.frame
  have hentry := entries hkey hs t (by rw [hw]; rfl)
  rw [← hm] at hentry
  have hset := receives_entry hstep hentry (by rw [hw]; rfl)
  refine ⟨by rw [hpc, hw]; rfl, by rw [hpc, hw]; rfl, fun old hp => ?_, fun hn => ?_,
    fun hn r' old hr => ?_⟩
  · obtain hp | ⟨m', ha, -, rfl⟩ | hr := receives_promise (sound hs) hstep hp
    · exact hold _ (((noted hs).promised t old hp).2 hw)
    · cases ha
      rfl
    · exact hold _ (((noted hs).found r t old hr).2 hw)
  · exact ⟨r, hset.resolve_left (fun hne => hne hn)⟩
  · obtain hr | ⟨m', ha, -, rfl⟩ := receives_recv (sound hs) hstep hr
    · exact hold _ (((noted hs).found r' t old hr).2 hw)
    · cases ha
      rfl

theorem heard (hkey : Function.Injective key)
    (hs : ReachableBy (system atomic key) (fun s a => Running s ∧ Timely atomic key s a) s) :
    ∀ t waiting buf, (waiting, buf) ∈ s.received t → Heard s t buf := by
  induction hs with
  | init h =>
    subst h
    intro t waiting buf h
    cases h
  | step hr hc h ih =>
    intro t waiting buf ht
    obtain ⟨u, timeout, rfl, hstep⟩ | ⟨r, hstep⟩ := step_cases h
    · rw [hstep.frame.2.2.1] at ht
      exact (ih t waiting buf ht).requests hstep (hc.2.timeout u timeout rfl)
    · obtain ht | ⟨m, rfl, hp, -, ha, rfl⟩ := receives_received hstep ht
      · refine (ih t waiting buf ht).receives hr.reachable hstep (fun m ha hk hw => ?_)
        have hall := (hc.2.receive r m t ha (key_answers hk).1 (by rw [hw]; rfl)).2.2
        exact (hall _ ht).symm
      · obtain ⟨hmid, hw, hall⟩ := hc.2.receive r m t rfl ha hp
        exact heard_new hkey hr.reachable hstep hw (answers_key ha hmid) hall

theorem returned_of_receives (hkey : Function.Injective key)
    (hs : ReachableBy (system atomic key) (fun s a => Running s ∧ Timely atomic key s a) s)
    (hrun : Running s) (hc : Timely atomic key s a) (hstep : Receives atomic key s r a s')
    (hend : ¬ Running s') {waiting : Bool} (ht : (waiting, buf) ∈ s'.received t) :
    s'.pc t = .returned (some buf) := by
  rw [hstep.frame.1]
  have hheard : (waiting, buf) ∈ s.received t → (s.pc t).isReturned = true →
      s.pc t = .returned (some buf) := fun hmem => (heard hkey hs t waiting buf hmem).returned hs.reachable
  have hold := fun h => receives_received hstep ht |>.resolve_right h
  cases hstep with
  | misses => exact absurd hrun hend
  | finds => exact absurd (hrun.update (by simp) (by simp) rfl) hend
  | @delivers m u _ ha _ hm hset =>
    have hover := (Sets.running hset hrun).resolve_left hend
    have hreturned := hc.sets u (.receive ha hm) hover
    suffices hmem : (waiting, buf) ∈ s.received t from hheard hmem (hreturned t waiting buf hmem)
    refine hold ?_
    rintro ⟨m', hm', hp, -, hans, -⟩
    cases hm'
    -- a response that is new has found its call waiting, and so without a value
    obtain ⟨hmid, hw, -⟩ := hc.receive r m t rfl hans hp
    have hentry := entries hkey hs.reachable t (by rw [hw]; rfl)
    rw [← answers_key hans hmid, hm, Option.some.injEq] at hentry
    subst hentry
    obtain hret | hne := hover
    · change (s.pc u).isReturned = true at hret
      rw [hw] at hret
      cases hret
    · obtain ⟨old, hp⟩ := Option.ne_none_iff_exists'.mp hne
      have hret := hreturned u true old (((noted hs.reachable).promised u old hp).2 hw)
      rw [hw] at hret
      cases hret
  | resumes hr hset =>
    have hreturned := hc.sets _ (.resume hr) ((Sets.running hset hrun).resolve_left hend)
    suffices hmem : (waiting, buf) ∈ s.received t from hheard hmem (hreturned t waiting buf hmem)
    refine hold ?_
    rintro ⟨m', hm', -⟩
    cases hm'

theorem returned_of_end (hkey : Function.Injective key)
    (hs : ReachableBy (system atomic key) (fun s a => Running s ∧ Timely atomic key s a) s)
    (hend : ¬ Running s) {waiting : Bool} (ht : (waiting, buf) ∈ s.received t) :
    s.pc t = .returned (some buf) := by
  cases hs with
  | init h =>
    subst h
    cases ht
  | step hr hc h =>
    obtain ⟨u, timeout, rfl, hstep⟩ | ⟨r, hstep⟩ := step_cases h
    · exact absurd (hc.1.requests hstep) hend
    · exact returned_of_receives hkey hr hc.1 hc.2 hstep hend ht

theorem Lost.settles (h : Lost s t buf) (hs : Reachable (system atomic key) s) (ha : Settles t a)
    (hstep : (system atomic key).step s a = some s') : Lost s' t buf := by
  obtain ⟨u, timeout, rfl, hreq⟩ | ⟨r, hstep⟩ := step_cases hstep
  · obtain ⟨rfl, -⟩ := ha
    obtain ⟨hpromise, hrecv, -, -⟩ := hreq.frame
    obtain hto | ⟨old, hp, hne⟩ | ⟨hp, hr⟩ := h
    · exact .inl (timedOut_requests hreq hto)
    · exact .inr (.inl ⟨old, by rw [hpromise, hp], hne⟩)
    · exact .inr (.inr ⟨by rw [hpromise, hp], by rw [hrecv]; exact hr⟩)
  · obtain ⟨hpc, -, -, hkeep⟩ := hstep.frame
    have hreceive : ∀ m, a ≠ .receive r m := by
      rintro m rfl
      exact ha
    obtain hto | ⟨old, hp, hne⟩ | ⟨hp, hr⟩ := h
    · exact .inl (by rw [hpc]; exact hto)
    · exact .inr (.inl ⟨old, hkeep t old hp, hne⟩)
    · refine .inr (.inr ⟨?_, fun r' old hf => ?_⟩)
      · by_contra hne
        obtain ⟨old, hnew⟩ := Option.ne_none_iff_exists'.mp hne
        obtain hold | ⟨m, hm, -⟩ | hf := receives_promise (sound hs) hstep hnew
        · rw [hp] at hold
          cases hold
        · exact hreceive m hm
        · exact hr r old hf
      · obtain hf | ⟨m, hm, -⟩ := receives_recv (sound hs) hstep hf
        · exact hr r' old hf
        · exact hreceive m hm

theorem Lost.not_delivered (h : Lost s t buf) (hs : Reachable (system atomic key) s) :
    ¬ Delivered atomic key s t buf := by
  rintro ⟨v, hrun, hv⟩
  obtain ⟨hlost, hreach⟩ : Lost v t buf ∧ Reachable (system atomic key) v := by
    refine hrun.invariant (P := fun u => Lost u t buf ∧ Reachable (system atomic key) u) ⟨h, hs⟩ ?_
    rintro u a w ⟨hlost, hu⟩ hc hw
    exact ⟨hlost.settles hu hc.2 hw, hu.step hw⟩
  have hp := (sound hreach).result t buf (by rw [hv]; rfl)
  obtain hto | ⟨old, hold, hne⟩ | ⟨hn, -⟩ := hlost
  · rw [hv] at hto
    cases hto
  · rw [hp, Option.some.injEq] at hold
    exact hne hold.symm
  · rw [hp] at hn
    cases hn

theorem mid_lost (hs : Reachable (system atomic key) s) (hmid : (key t).mid ≠ routeListReq) :
    Lost s t buf := by
  have hbuilt : ∀ old, ¬ Built key s t old := fun old ⟨m, _, hk, _⟩ => hmid (key_answers hk).2
  exact lost_of_unset (fun old h => hbuilt old ((sound hs).promised t old h))
    (fun r old h => hbuilt old ((sound hs).found r t old h))

theorem early_lost (hs : Reachable (system atomic key) s) (hin : entered (s.pc t) = false) :
    Lost s t buf := by
  have hnoted : ∀ old, ¬ NotedFor s t old := by
    intro old h
    rw [h.1] at hin
    cases hin
  exact lost_of_unset (fun old h => hnoted old ((noted hs).promised t old h))
    (fun r old h => hnoted old ((noted hs).found r t old h))

theorem settled (hrun : Running s) (hs : s.promise t ≠ none ∨ s.recv r = .found t buf)
    (hp : (s.pc t).isReturned = false) :
    ∃ u, RunWhile (system atomic key) Running s u ∧ u.promise t ≠ none ∧ u.received = s.received := by
  obtain hne | hr := hs
  · exact ⟨s, .refl, hne, rfl⟩
  · have hstep : (system atomic key).step s (.resume r) = some (setValue s r t buf) := by
      simp only [system, step, hr]
    refine ⟨setValue s r t buf, .step .refl hrun hstep, ?_, ?_⟩
    · exact sets_promise (setValue_sets s r t buf) hp
    · exact (setValue_sets s r t buf).frame.2.2.1

theorem settled_same (hs : Reachable (system atomic key) s) (hrun : Running s)
    (hset : s.promise t ≠ none ∨ s.recv r = .found t buf) (hp : (s.pc t).isReturned = false)
    (hno : ∀ u, RunWhile (system atomic key) Running s u → NoResponseLost atomic key u) :
    ∃ old, ∀ x ∈ s.received t, x.2 = old := by
  obtain ⟨u, hu, hne, hreceived⟩ :
      ∃ u, RunWhile (system atomic key) Running s u ∧ u.promise t ≠ none ∧ u.received = s.received :=
    settled hrun hset hp
  obtain ⟨old, hold⟩ := Option.ne_none_iff_exists'.mp hne
  refine ⟨old, fun x hx => ?_⟩
  by_contra hob
  rw [← hreceived] at hx
  have hlost : Lost u t x.2 := .inr (.inl ⟨old, hold, fun he => hob he.symm⟩)
  exact hlost.not_delivered (hu.reachable hs) (hno u hu t x.1 x.2 hx)

theorem timeout_of_lossless (hs : Reachable (system atomic key) s) (hstep : Requests key s t s')
    (hs' : Reachable (system atomic key) s') (hno : NoResponseLost atomic key s') (hw : s.pc t = .wait)
    (hn : s.promise t = none) (r : R) (buf : Bytes) : s.recv r ≠ .found t buf := by
  intro hr
  obtain rfl := wait_timesOut hw hn hstep
  have hlost : Lost (s.goto t .eraseTimeout) t buf := .inl (by rw [goto_pc_self]; rfl)
  exact hlost.not_delivered hs' (hno t true buf (((noted hs).found r t buf hr).2 hw))

theorem receive_of_lossless (hkey : Function.Injective key) (hs : Reachable (system atomic key) s)
    (hstep : Receives atomic key s r (.receive r m) s') (hs' : Reachable (system atomic key) s')
    (hno : ∀ u, RunWhile (system atomic key) Running s' u → NoResponseLost atomic key u)
    (hans : m.answers (key t) = true) (hp : (s.pc t).awaits = true) :
    (key t).mid = routeListReq ∧ s.pc t = .wait ∧ ∀ x ∈ s.received t, x.2 = m.buf := by
  obtain ⟨hpc, -⟩ := hstep.frame
  have hmem : (decide (s.pc t = .wait), m.buf) ∈ s'.received t := by
    rw [receives_record hstep]
    exact record_awaits hans hp
  have hdelivered := hno s' .refl t _ m.buf hmem
  have hmid : (key t).mid = routeListReq := by
    by_contra hmid
    exact (mid_lost hs' hmid).not_delivered hs' hdelivered
  have hrun : Running s' := by
    by_contra hend
    have hreturned := hdelivered.returned hend
    rw [hpc] at hreturned
    rw [hreturned] at hp
    cases hp
  obtain hw | hout := awaits_cases hp
  · refine ⟨hmid, hw, fun x hx => ?_⟩
    have hentry := entries hkey hs t (by rw [hw]; rfl)
    rw [← answers_key hans hmid] at hentry
    have hset := receives_entry hstep hentry (awaits_inside hp)
    obtain ⟨old, hall⟩ := settled_same hs' hrun hset (by rw [hpc]; exact awaits_inside hp) hno
    have hx' : x ∈ s'.received t := by
      rw [receives_record hstep]
      exact record_mono hx
    exact (hall x hx').trans (hall _ hmem).symm
  · rw [← hpc] at hout
    exact ((early_lost hs' hout).not_delivered hs' hdelivered).elim

theorem sets_of_lossless (hstep : Receives atomic key s r a s') (hset : SetsValue atomic s t a)
    (ht : (s.pc t).isReturned = true ∨ s.promise t ≠ none) (hno : NoResponseLost atomic key s') {u : T}
    {waiting : Bool} (hu : (waiting, buf) ∈ s.received u) : (s.pc u).isReturned = true := by
  obtain ⟨hpc, -⟩ := hstep.frame
  obtain ⟨hend, hmem⟩ : ¬ Running s' ∧ (waiting, buf) ∈ s'.received u := by
    cases hstep with
    | misses _ hm | finds ha _ hm =>
      cases hset
      simp_all
    | delivers _ _ hm hsets =>
      cases hset with
      | receive _ hm' =>
        rw [hm, Option.some.injEq] at hm'
        subst hm'
        refine ⟨Sets.not_running hsets ht, ?_⟩
        rw [hsets.frame.2.2.1]
        exact record_mono hu
    | resumes hr hsets =>
      cases hset with
      | resume hr' =>
        rw [hr, ReceivePc.found.injEq] at hr'
        obtain ⟨rfl, -⟩ := hr'
        refine ⟨Sets.not_running hsets ht, ?_⟩
        rw [hsets.frame.2.2.1]
        exact hu
  rw [← hpc, (hno u waiting buf hmem).returned hend]
  rfl

/-- If no continuation of a step loses a response, the step was timely. -/
theorem timely_of_lossless (hkey : Function.Injective key) (hs : Reachable (system atomic key) s)
    (h : (system atomic key).step s a = some s')
    (hno : ∀ u, RunWhile (system atomic key) Running s' u → NoResponseLost atomic key u) :
    Timely atomic key s a := by
  obtain ⟨u, timeout, rfl, hstep⟩ | ⟨r, hstep⟩ := step_cases h
  · refine ⟨fun _ _ _ ha => ?_, fun t _ ha hw hn r buf => ?_, fun t ha => ?_⟩
    · cases ha
    · cases ha
      exact timeout_of_lossless hs hstep (hs.step h) (hno _ .refl) hw hn r buf
    · cases ha
  · refine ⟨fun r' m t ha hans hp => ?_, fun t timeout ha => ?_, fun t hset ht u waiting buf hu => ?_⟩
    · subst ha
      obtain rfl : r = r' := by cases hstep <;> rfl
      exact receive_of_lossless hkey hs hstep (hs.step h) hno hans hp
    · subst ha
      cases hstep
    · exact sets_of_lossless hstep hset ht (hno _ .refl) hu

/-- With distinct keys no response is lost in the runs all of whose steps are
timely, up to the end of the program, and every other step can be followed by the loss
of a response. -/
theorem promiseMap_losesNoResponse (hkey : Function.Injective key) :
    (∀ s, ReachableBy (system (R := R) atomic key) (fun s a => Running s ∧ Timely atomic key s a) s →
      NoResponseLost atomic key s) ∧
      ∀ s a s', Reachable (system (R := R) atomic key) s → (system atomic key).step s a = some s' →
        ¬ Timely atomic key s a →
          ∃ u, RunWhile (system atomic key) Running s' u ∧ ¬ NoResponseLost atomic key u := by
  refine ⟨fun s hs t waiting buf ht => ?_, fun s a s' hs h hc => ?_⟩
  · by_cases hrun : Running s
    · exact (heard hkey hs t waiting buf ht).delivered hs.reachable hrun
    · exact ⟨s, .refl, returned_of_end hkey hs hrun ht⟩
  · by_contra hno
    push Not at hno
    exact hc (timely_of_lossless hkey hs h hno)

end Step

def sessionKey (t : Bool) : Key := ⟨routeListReq, if t then 1 else 2, 123456⟩

/-- One of the calls waits, gets its response and returns it. -/
theorem promiseMap_losesNoResponse_answered :
    ∃ s, Reachable (system (R := Unit) true sessionKey) s ∧
      (true, (⟨1, 123456, 0, fun _ => 0⟩ : Message).buf) ∈ s.received true ∧
      NoResponseLost true sessionKey s := by
  have hinit : ReachableBy (system true sessionKey)
      (fun s a => Running s ∧ Timely true sessionKey s a) (initial Bool Unit) := .init rfl
  have hrun : ∀ u : MapState Bool Unit, u.recv () = .idle → Running u := by
    intro u hu r
    rw [hu]
    exact ⟨by simp, by simp⟩
  have hwaits := ((hinit.step (a := .request true false)
    ⟨hrun _ rfl, timely_request (fun h => by cases h)⟩ rfl).step (a := .request true false)
    ⟨hrun _ rfl, timely_request (fun h => by cases h)⟩ rfl).step (a := .request true false)
    ⟨hrun _ rfl, timely_request (fun h => by cases h)⟩ rfl
  obtain ⟨s, hs, ht⟩ : ∃ s, ReachableBy (system (R := Unit) true sessionKey)
      (fun s a => Running s ∧ Timely true sessionKey s a) s ∧
      (true, (⟨1, 123456, 0, fun _ => 0⟩ : Message).buf) ∈ s.received true := by
    refine ⟨_, hwaits.step (a := .receive () ⟨1, 123456, 0, fun _ => 0⟩) ⟨hrun _ rfl, ?_, ?_, ?_⟩ rfl,
      List.mem_singleton_self _⟩
    · intro r m t ha hans hp
      cases ha
      cases t with
      | false => cases hp
      | true => exact ⟨rfl, rfl, fun x hx => (List.not_mem_nil hx).elim⟩
    · intro t timeout ha
      cases ha
    · intro t _ _ u waiting buf hu
      cases hu
  have hkey : Function.Injective sessionKey := by decide
  exact ⟨s, hs.reachable, ht, (promiseMap_losesNoResponse hkey).1 s hs⟩

/-- The response comes between the sending and the insert. It is not found, and
the call times out. -/
theorem promiseMap_losesResponse :
    Function.Injective (fun _ : Unit => (⟨routeListReq, 1, 123456⟩ : Key)) ∧
      ∃ s, Reachable (system (T := Unit) (R := Unit) true (fun _ => ⟨routeListReq, 1, 123456⟩)) s ∧
        s.received () = [(false, (⟨1, 123456, 0, fun _ => 0⟩ : Message).buf)] ∧
        s.pc () = .returned none ∧ ¬ NoResponseLost true (fun _ => ⟨routeListReq, 1, 123456⟩) s := by
  refine ⟨fun _ _ _ => rfl, ?_⟩
  obtain ⟨s, hs, hreceived, hpc⟩ : ∃ s,
      Reachable (system (T := Unit) (R := Unit) true (fun _ => ⟨routeListReq, 1, 123456⟩)) s ∧
      s.received () = [(false, (⟨1, 123456, 0, fun _ => 0⟩ : Message).buf)] ∧ s.pc () = .returned none :=
    exists_reachable rfl [.request () false, .request () false, .receive () ⟨1, 123456, 0, fun _ => 0⟩,
      .request () false, .request () true, .request () false, .request () false] (by decide +kernel)
  refine ⟨s, hs, hreceived, hpc, fun hno => ?_⟩
  have hlost : Lost s () (⟨1, 123456, 0, fun _ => 0⟩ : Message).buf := .inl (by rw [hpc]; rfl)
  refine hlost.not_delivered hs (hno () false _ ?_)
  rw [hreceived]
  exact List.mem_singleton_self _

end RoblSampleCodes.PromiseMapDelivery
