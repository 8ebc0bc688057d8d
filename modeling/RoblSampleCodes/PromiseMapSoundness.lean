import RoblSampleCodes.PromiseMap

namespace RoblSampleCodes.PromiseMapSoundness

open TransitionSystem PromiseMap

variable {T R : Type} {atomic : Bool} {key : T → Key} {s s' : MapState T R} {t : T} {r : R}
  {m : Message} {buf : Bytes} {p : RequestPc} {a : Action T R}

def registered : RequestPc → Bool
  | .wait | .eraseTimeout | .erase => true
  | _ => false

def swapped : RequestPc → Option Bytes
  | .leave result | .returned result => result
  | _ => none

def Built (key : T → Key) (s : MapState T R) (t : T) (buf : Bytes) : Prop :=
  ∃ m ∈ s.responses, m.key = key t ∧ buf = m.buf

structure Sound (key : T → Key) (s : MapState T R) : Prop where
  entry : ∀ k t, s.promiseMap k = some t → key t = k ∧ registered (s.pc t) = true
  found : ∀ r t buf, s.recv r = .found t buf → Built key s t buf
  promised : ∀ t buf, s.promise t = some buf → Built key s t buf
  result : ∀ t buf, swapped (s.pc t) = some buf → s.promise t = some buf

theorem insert_cases {promiseMap : Key → Option T} {k k' : Key} {u : T}
    (h : insert promiseMap k t k' = some u) : promiseMap k' = some u ∨ k' = k ∧ u = t := by
  cases hm : promiseMap k with
  | some _ =>
    simp only [PromiseMap.insert, hm] at h
    exact .inl h
  | none =>
    simp only [PromiseMap.insert, hm] at h
    by_cases hk : k' = k
    · subst hk
      rw [Function.update_self, Option.some.injEq] at h
      exact .inr ⟨rfl, h.symm⟩
    · rw [Function.update_of_ne hk] at h
      exact .inl h

theorem update_cases [DecidableEq T] {promise : T → Option Bytes} {u : T} {old : Bytes}
    (h : Function.update promise t (some buf) u = some old) :
    promise u = some old ∨ u = t ∧ old = buf := by
  by_cases hut : u = t
  · subst hut
    rw [Function.update_self, Option.some.injEq] at h
    exact .inr ⟨rfl, h.symm⟩
  · rw [Function.update_of_ne hut] at h
    exact .inl h

theorem update_keeps [DecidableEq T] {promise : T → Option Bytes} {u : T} {old : Bytes}
    (ht : promise t = none) (hu : promise u = some old) :
    Function.update promise t (some buf) u = some old := by
  rw [Function.update_of_ne]
  · exact hu
  · rintro rfl
    rw [ht] at hu
    cases hu

theorem erase_cases {promiseMap : Key → Option T} {k k' : Key} {u : T}
    (h : erase promiseMap k k' = some u) : k' ≠ k ∧ promiseMap k' = some u := by
  unfold PromiseMap.erase at h
  by_cases hk : k' = k
  · subst hk
    rw [Function.update_self] at h
    cases h
  · rw [Function.update_of_ne hk] at h
    exact ⟨hk, h⟩

theorem Sound.insert (h : Sound key s) (ht : registered (s.pc t) = true) :
    Sound key { s with promiseMap := insert s.promiseMap (key t) t } := by
  refine ⟨fun k u hk => ?_, h.found, h.promised, h.result⟩
  obtain hk | ⟨rfl, rfl⟩ := insert_cases hk
  · exact h.entry k u hk
  · exact ⟨rfl, ht⟩

theorem Sound.erase (h : Sound key s) (k : Key) :
    Sound key { s with promiseMap := erase s.promiseMap k } :=
  ⟨fun k' u hk => h.entry k' u (erase_cases hk).2, h.found, h.promised, h.result⟩

theorem Sound.record (h : Sound key s) (m : Message) : Sound key (record key s m) := by
  have hmono : ∀ {t buf}, Built key s t buf → Built key (PromiseMap.record key s m) t buf := by
    rintro t buf ⟨m, hm, hb⟩
    exact ⟨m, List.mem_append_left _ hm, hb⟩
  exact ⟨h.entry, fun r t buf hr => hmono (h.found r t buf hr),
    fun t buf ht => hmono (h.promised t buf ht), h.result⟩

section Request

variable [DecidableEq T]

inductive Requests (key : T → Key) (s : MapState T R) (t : T) : MapState T R → Prop
  | calls (h : s.pc t = .idle) : Requests key s t (s.goto t .send)
  | sends (h : s.pc t = .send) : Requests key s t (s.goto t .insert)
  | inserts (h : s.pc t = .insert) :
      Requests key s t ({ s with promiseMap := insert s.promiseMap (key t) t }.goto t .wait)
  | ready {buf : Bytes} (h : s.pc t = .wait) (hp : s.promise t = some buf) :
      Requests key s t (s.goto t .erase)
  | timesOut (h : s.pc t = .wait) (hp : s.promise t = none) : Requests key s t (s.goto t .eraseTimeout)
  | erasesTimeout (h : s.pc t = .eraseTimeout) :
      Requests key s t ({ s with promiseMap := erase s.promiseMap (key t) }.goto t (.leave none))
  | erases (h : s.pc t = .erase) :
      Requests key s t ({ s with promiseMap := erase s.promiseMap (key t) }.goto t .get)
  | gets {buf : Bytes} (h : s.pc t = .get) (hp : s.promise t = some buf) :
      Requests key s t (s.goto t (.leave (some buf)))
  | leaves {result : Option Bytes} (h : s.pc t = .leave result) :
      Requests key s t (s.goto t (.returned result))

theorem forwardRequest_requests {timeout : Bool}
    (h : forwardRequest key s t timeout = some s') : Requests key s t s' := by
  unfold forwardRequest at h
  split at h
  · cases h
    exact .calls ‹_›
  · cases h
    exact .sends ‹_›
  · cases h
    exact .inserts ‹_›
  · split at h
    · cases h
      exact .ready ‹_› ‹_›
    · split at h <;> cases h
      exact .timesOut ‹_› ‹_›
  · cases h
    exact .erasesTimeout ‹_›
  · cases h
    exact .erases ‹_›
  · obtain ⟨buf, hp, rfl⟩ := Option.map_eq_some_iff.mp h
    exact .gets ‹_› hp
  · cases h
    exact .leaves ‹_›
  · cases h

@[simp]
theorem goto_pc_self : (s.goto t p).pc t = p := Function.update_self ..

theorem goto_pc_of_ne {u : T} (h : u ≠ t) : (s.goto t p).pc u = s.pc u := Function.update_of_ne h ..

theorem Sound.goto (h : Sound key s) (hreg : s.promiseMap (key t) = some t → registered p = true)
    (hres : ∀ buf, swapped p = some buf → s.promise t = some buf) : Sound key (s.goto t p) := by
  refine ⟨fun k u hk => ?_, h.found, h.promised, fun u buf hu => ?_⟩
  · obtain ⟨rfl, hu⟩ := h.entry k u hk
    refine ⟨rfl, ?_⟩
    by_cases hut : u = t
    · subst hut
      rw [goto_pc_self]
      exact hreg hk
    · rw [goto_pc_of_ne hut]
      exact hu
  · by_cases hut : u = t
    · subst hut
      rw [goto_pc_self] at hu
      exact hres buf hu
    · rw [goto_pc_of_ne hut] at hu
      exact h.result u buf hu

theorem Requests.frame (h : Requests key s t s') :
    s'.promise = s.promise ∧ s'.recv = s.recv ∧ s'.received = s.received ∧
      ∀ u, u ≠ t → s'.pc u = s.pc u := by
  cases h <;> exact ⟨rfl, rfl, rfl, fun u hu => goto_pc_of_ne hu⟩

theorem Sound.requests (h : Sound key s) (hstep : Requests key s t s') : Sound key s' := by
  have hunreg : registered (s.pc t) = false → s.promiseMap (key t) ≠ some t := by
    intro hp ht
    rw [(h.entry _ _ ht).2] at hp
    cases hp
  have herased : PromiseMap.erase s.promiseMap (key t) (key t) ≠ some t :=
    fun ht => (erase_cases ht).1 rfl
  cases hstep with
  | calls hp | sends hp =>
    exact h.goto (fun ht => (hunreg (by rw [hp]; rfl) ht).elim) (fun _ hb => by cases hb)
  | inserts hp =>
    have hgoto : Sound key (s.goto t .wait) := h.goto (fun _ => rfl) (fun _ hb => by cases hb)
    apply hgoto.insert
    rw [goto_pc_self]
    rfl
  | ready hp | timesOut hp => exact h.goto (fun _ => rfl) (fun _ hb => by cases hb)
  | erasesTimeout hp | erases hp =>
    exact (h.erase (key t)).goto (fun ht => (herased ht).elim) (fun _ hb => by cases hb)
  | gets hp hbuf =>
    refine h.goto (fun ht => (hunreg (by rw [hp]; rfl) ht).elim) (fun _ hb => ?_)
    cases hb
    exact hbuf
  | leaves hp =>
    refine h.goto (fun ht => (hunreg (by rw [hp]; rfl) ht).elim) (fun buf hb => h.result t buf ?_)
    rw [hp]
    exact hb

end Request

section Receive

variable [DecidableEq R]

theorem Sound.recv (h : Sound key s) {p : ReceivePc T}
    (hp : ∀ t buf, p = .found t buf → Built key s t buf) :
    Sound key { s with recv := Function.update s.recv r p } := by
  refine ⟨h.entry, fun r' t buf hr => ?_, h.promised, h.result⟩
  by_cases hrr : r' = r
  · subst hrr
    apply hp
    simpa using hr
  · apply h.found r'
    simpa [Function.update_of_ne hrr] using hr

variable [DecidableEq T]

inductive Sets (s : MapState T R) (r : R) (t : T) (buf : Bytes) : MapState T R → Prop
  | fulfils (ht : (s.pc t).isReturned = false) (hp : s.promise t = none) :
      Sets s r t buf { s with
        promise := Function.update s.promise t (some buf)
        recv := Function.update s.recv r .idle }
  | throws {old : Bytes} (ht : (s.pc t).isReturned = false) (hp : s.promise t = some old) :
      Sets s r t buf { s with recv := Function.update s.recv r .threw }
  | dangles (ht : (s.pc t).isReturned = true) :
      Sets s r t buf { s with recv := Function.update s.recv r .undefined }

inductive Receives (atomic : Bool) (key : T → Key) (s : MapState T R) (r : R) :
    Action T R → MapState T R → Prop
  | misses {m : Message} (hr : s.recv r = .idle) (hm : s.promiseMap m.key = none) :
      Receives atomic key s r (.receive r m) (record key s m)
  | finds {m : Message} {t : T} (ha : atomic = false) (hr : s.recv r = .idle)
      (hm : s.promiseMap m.key = some t) :
      Receives atomic key s r (.receive r m)
        { record key s m with recv := Function.update s.recv r (.found t m.buf) }
  | delivers {m : Message} {t : T} {s' : MapState T R} (ha : atomic = true) (hr : s.recv r = .idle)
      (hm : s.promiseMap m.key = some t) (hs : Sets (record key s m) r t m.buf s') :
      Receives atomic key s r (.receive r m) s'
  | resumes {t : T} {buf : Bytes} {s' : MapState T R} (hr : s.recv r = .found t buf)
      (hs : Sets s r t buf s') : Receives atomic key s r (.resume r) s'

theorem setValue_sets (s : MapState T R) (r : R) (t : T) (buf : Bytes) :
    Sets s r t buf (setValue s r t buf) := by
  unfold setValue
  split
  · exact .dangles ‹_›
  · split
    · exact .fulfils (Bool.eq_false_of_not_eq_true ‹_›) ‹_›
    · exact .throws (Bool.eq_false_of_not_eq_true ‹_›) ‹_›

theorem step_cases (h : (system atomic key).step s a = some s') :
    (∃ t timeout, a = .request t timeout ∧ Requests key s t s') ∨
      ∃ r, Receives atomic key s r a s' := by
  change step atomic key s a = some s' at h
  cases a with
  | request t timeout => exact .inl ⟨t, timeout, rfl, forwardRequest_requests h⟩
  | receive r m =>
    refine .inr ⟨r, ?_⟩
    simp only [step] at h
    split at h
    · next hr =>
      cases h
      unfold receive
      split
      · exact .misses hr ‹_›
      · split
        · exact .delivers ‹_› hr ‹_› (setValue_sets ..)
        · exact .finds (Bool.eq_false_of_not_eq_true ‹_›) hr ‹_›
    · cases h
  | resume r =>
    refine .inr ⟨r, ?_⟩
    simp only [step] at h
    split at h
    · cases h
      exact .resumes ‹_› (setValue_sets ..)
    · cases h

theorem Sets.frame (h : Sets s r t buf s') :
    s'.pc = s.pc ∧ s'.promiseMap = s.promiseMap ∧ s'.received = s.received ∧
      (∀ r', r' ≠ r → s'.recv r' = s.recv r') ∧
      ∀ u old, s.promise u = some old → s'.promise u = some old := by
  cases h with
  | fulfils ht hp =>
    exact ⟨rfl, rfl, rfl, fun r' hr => Function.update_of_ne hr .., fun u old hu => update_keeps hp hu⟩
  | throws | dangles =>
    exact ⟨rfl, rfl, rfl, fun r' hr => Function.update_of_ne hr .., fun _ _ hu => hu⟩

theorem Sets.promise {u : T} {old : Bytes} (h : Sets s r t buf s') (hu : s'.promise u = some old) :
    s.promise u = some old ∨ u = t ∧ old = buf := by
  cases h with
  | fulfils => exact update_cases hu
  | throws | dangles => exact .inl hu

theorem Receives.frame (h : Receives atomic key s r a s') :
    s'.pc = s.pc ∧ s'.promiseMap = s.promiseMap ∧ (∀ r', r' ≠ r → s'.recv r' = s.recv r') ∧
      ∀ u old, s.promise u = some old → s'.promise u = some old := by
  cases h with
  | misses => exact ⟨rfl, rfl, fun _ _ => rfl, fun _ _ hu => hu⟩
  | finds => exact ⟨rfl, rfl, fun r' hr => Function.update_of_ne hr .., fun _ _ hu => hu⟩
  | delivers _ _ _ hs | resumes _ hs =>
    obtain ⟨hpc, hmap, -, hrecv, hpromise⟩ := hs.frame
    exact ⟨hpc, hmap, hrecv, hpromise⟩

theorem Sound.sets (h : Sound key s) (hb : Built key s t buf) (hstep : Sets s r t buf s') :
    Sound key s' := by
  cases hstep with
  | dangles | throws => exact h.recv (fun _ _ hp => by cases hp)
  | fulfils ht hp =>
    have hset : Sound key { s with promise := Function.update s.promise t (some buf) } := by
      refine ⟨h.entry, h.found, fun u old hu => ?_, fun u old hu => update_keeps hp (h.result u old hu)⟩
      obtain hold | ⟨rfl, rfl⟩ := update_cases hu
      · exact h.promised u old hold
      · exact hb
    exact hset.recv (fun _ _ hp => by cases hp)

theorem Sound.receives (h : Sound key s) (hstep : Receives atomic key s r a s') : Sound key s' := by
  have hbuilt : ∀ {m t}, s.promiseMap m.key = some t → Built key (PromiseMap.record key s m) t m.buf :=
    fun {m t} hm => ⟨m, by simp [PromiseMap.record], (h.entry _ _ hm).1.symm, rfl⟩
  cases hstep with
  | misses => exact h.record _
  | finds _ _ hm =>
    refine (h.record _).recv (fun _ _ hp => ?_)
    cases hp
    exact hbuilt hm
  | delivers _ _ hm hs => exact (h.record _).sets (hbuilt hm) hs
  | resumes hr hs => exact h.sets (h.found _ _ _ hr) hs

theorem sound (hs : Reachable (system (R := R) atomic key) s) : Sound key s := by
  induction hs with
  | init h =>
    subst h
    refine ⟨?_, ?_, ?_, ?_⟩
    · intro _ _ h
      cases h
    · intro _ _ _ h
      cases h
    · intro _ _ h
      cases h
    · intro _ _ h
      cases h
  | step _ h ih =>
    obtain ⟨t, timeout, -, hstep⟩ | ⟨r, hstep⟩ := step_cases h
    · exact ih.requests hstep
    · exact ih.receives hstep

/-- An entry belongs to a call with its key that has inserted it and not yet
erased, and a call that returns `true` has the bytes of a response for its own
session and tick. Neither needs `Receive` to be atomic. -/
theorem promiseMap_sound (hs : Reachable (system atomic key) s) :
    (∀ k t, s.promiseMap k = some t → key t = k ∧ registered (s.pc t) = true) ∧
      ∀ t buf, swapped (s.pc t) = some buf →
        ∃ m ∈ s.responses, m.sessionIx = (key t).sessionIx ∧ m.rcsTick = (key t).rcsTick ∧
          buf = m.buf := by
  have h := sound hs
  refine ⟨h.entry, fun t buf ht => ?_⟩
  obtain ⟨m, hm, hk, hb⟩ := h.promised t buf (h.result t buf ht)
  rw [← hk]
  exact ⟨m, hm, rfl, rfl, hb⟩

end Receive

/-- Two calls have one key. The first inserts it and gets the response, and the
second waits without an entry. -/
theorem promiseMap_sound_equalKeys :
    ∃ s, Reachable (system (T := Bool) (R := Unit) true (fun _ => ⟨routeListReq, 1, 123456⟩)) s ∧
      s.pc true = .wait ∧ swapped (s.pc false) = some (⟨1, 123456, 1, fun _ => 0⟩ : Message).buf ∧
      (∀ k t, s.promiseMap k = some t → k = ⟨routeListReq, 1, 123456⟩ ∧ registered (s.pc t) = true) ∧
      ∀ t buf, swapped (s.pc t) = some buf →
        ∃ m ∈ s.responses, m.sessionIx = 1 ∧ m.rcsTick = 123456 ∧ buf = m.buf := by
  obtain ⟨s, hs, hwait, hbuf⟩ : ∃ s, Reachable (system true (fun _ => ⟨routeListReq, 1, 123456⟩)) s ∧
      s.pc true = .wait ∧ swapped (s.pc false) = some (⟨1, 123456, 1, fun _ => 0⟩ : Message).buf :=
    exists_reachable rfl [.request false false, .request false false, .request false false,
      .request true false, .request true false, .request true false,
      .receive () ⟨1, 123456, 1, fun _ => 0⟩,
      .request false false, .request false false, .request false false] (by decide +kernel)
  obtain ⟨hentry, hresult⟩ := promiseMap_sound hs
  exact ⟨s, hs, hwait, hbuf, fun k t hk => ⟨(hentry k t hk).1.symm, (hentry k t hk).2⟩, hresult⟩

end RoblSampleCodes.PromiseMapSoundness
