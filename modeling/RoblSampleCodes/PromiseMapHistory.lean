import RoblSampleCodes.PromiseMapSoundness

namespace RoblSampleCodes.PromiseMapHistory

open TransitionSystem PromiseMap PromiseMapSoundness

variable {T R : Type} {atomic : Bool} {key : T → Key} {s s' : MapState T R} {t : T} {r : R}
  {m : Message} {buf : Bytes} {a : Action T R}

def entered : RequestPc → Bool
  | .idle | .send | .insert => false
  | _ => true

def timedOut : RequestPc → Bool
  | .eraseTimeout | .leave none | .returned none => true
  | _ => false

theorem registered_entered {p : RequestPc} (h : registered p = true) : entered p = true := by
  cases p <;> first | rfl | cases h

theorem registered_cases {p : RequestPc} (h : registered p = true) :
    p = .wait ∨ p = .eraseTimeout ∨ p = .erase := by
  cases p <;> first | exact .inl rfl | exact .inr (.inl rfl) | exact .inr (.inr rfl) | cases h

theorem answers_key {k : Key} (h : m.answers k = true) (hk : k.mid = routeListReq) : m.key = k := by
  obtain ⟨mid, sessionIx, rcsTick⟩ := k
  simp only [Message.answers, Bool.and_eq_true, beq_iff_eq] at h
  simp only [Message.key, h.1, h.2]
  exact hk ▸ rfl

theorem key_answers {k : Key} (h : m.key = k) : m.answers k = true ∧ k.mid = routeListReq := by
  subst h
  simp [Message.answers, Message.key]

theorem awaits_inside {p : RequestPc} (h : p.awaits = true) : p.isReturned = false := by
  cases p <;> first | rfl | cases h

theorem awaits_cases {p : RequestPc} (h : p.awaits = true) : p = .wait ∨ entered p = false := by
  cases p <;> first | exact .inl rfl | exact .inr rfl | cases h

theorem record_received {waiting : Bool} (h : (waiting, buf) ∈ (record key s m).received t) :
    (waiting, buf) ∈ s.received t ∨ (s.pc t).awaits = true ∧ waiting = decide (s.pc t = .wait) ∧
      m.answers (key t) = true ∧ buf = m.buf := by
  simp only [record] at h
  split at h
  · next hc =>
    rw [Bool.and_eq_true] at hc
    simp only [List.mem_append, List.mem_singleton, Prod.mk.injEq] at h
    obtain h | ⟨hw, hb⟩ := h
    · exact .inl h
    · exact .inr ⟨hc.2, hw, hc.1, hb⟩
  · exact .inl h

theorem record_mono {x : Bool × Bytes} (h : x ∈ s.received t) : x ∈ (record key s m).received t := by
  simp only [record]
  split
  · exact List.mem_append_left _ h
  · exact h

theorem record_awaits (ha : m.answers (key t) = true) (hp : (s.pc t).awaits = true) :
    (decide (s.pc t = .wait), m.buf) ∈ (record key s m).received t := by
  simp [record, ha, hp]

theorem record_waiting (hw : s.pc t = .wait) (hk : m.key = key t) :
    (true, m.buf) ∈ (record key s m).received t := by
  have h := record_awaits (m := m) (key_answers hk).1 (by rw [hw]; rfl : (s.pc t).awaits = true)
  rwa [decide_eq_true hw] at h

def NotedFor (s : MapState T R) (t : T) (buf : Bytes) : Prop :=
  entered (s.pc t) = true ∧ (s.pc t = .wait → (true, buf) ∈ s.received t)

structure Noted (s : MapState T R) : Prop where
  received : ∀ t buf, (true, buf) ∈ s.received t → entered (s.pc t) = true
  found : ∀ r t buf, s.recv r = .found t buf → NotedFor s t buf
  promised : ∀ t buf, s.promise t = some buf → NotedFor s t buf
  ready : ∀ t, s.pc t = .erase ∨ s.pc t = .get → s.promise t ≠ none

theorem NotedFor.record (h : NotedFor s t buf) (m : Message) : NotedFor (record key s m) t buf :=
  ⟨h.1, fun hw => record_mono (h.2 hw)⟩

theorem notedFor_entry (hreg : registered (s.pc t) = true) (hk : m.key = key t) :
    NotedFor (PromiseMap.record key s m) t m.buf :=
  ⟨registered_entered hreg, fun hw => record_waiting hw hk⟩

theorem Noted.record (h : Noted s) (m : Message) : Noted (record key s m) := by
  refine ⟨fun t buf ht => ?_, fun r t buf hr => (h.found r t buf hr).record m,
    fun t buf ht => (h.promised t buf ht).record m, h.ready⟩
  obtain ht | ⟨-, hw, -, -⟩ := record_received ht
  · exact h.received t buf ht
  · change entered (s.pc t) = true
    rw [of_decide_eq_true hw.symm]
    rfl

theorem insert_free {promiseMap : Key → Option T} {k : Key} (h : promiseMap k = none) :
    insert promiseMap k t = Function.update promiseMap k (some t) := by
  simp only [PromiseMap.insert, h]

section Step

variable [DecidableEq T]

theorem requests_entered (h : Requests key s t s') (ht : entered (s.pc t) = true) :
    entered (s'.pc t) = true ∧ s'.pc t ≠ .wait := by
  cases h with
  | calls hp | sends hp | inserts hp =>
    rw [hp] at ht
    cases ht
  | _ => simp [entered]

theorem requests_timedOut (h : Requests key s t s') (ht : timedOut (s'.pc t) = true) :
    timedOut (s.pc t) = true ∨ s.pc t = .wait ∧ s.promise t = none := by
  cases h with
  | timesOut hp hn => exact .inr ⟨hp, hn⟩
  | erasesTimeout hp => exact .inl (by rw [hp]; rfl)
  | @leaves result hp =>
    rw [goto_pc_self] at ht
    rw [hp]
    cases result with
    | none => exact .inl rfl
    | some _ => cases ht
  | _ =>
    rw [goto_pc_self] at ht
    cases ht

theorem timedOut_requests (h : Requests key s t s') (ht : timedOut (s.pc t) = true) :
    timedOut (s'.pc t) = true := by
  cases h with
  | erasesTimeout => simp [timedOut]
  | @leaves result hp =>
    rw [hp] at ht
    rw [goto_pc_self]
    cases result with
    | none => rfl
    | some _ => cases ht
  | calls hp | sends hp | inserts hp | ready hp | timesOut hp | erases hp | gets hp =>
    rw [hp] at ht
    cases ht

theorem requests_ready (h : Requests key s t s') (hready : s.pc t = .erase → s.promise t ≠ none)
    (ht : s'.pc t = .erase ∨ s'.pc t = .get) : s.promise t ≠ none := by
  cases h with
  | ready _ hp => simp [hp]
  | erases hp => exact hready hp
  | _ =>
    rw [goto_pc_self] at ht
    obtain ht | ht := ht <;> cases ht

theorem NotedFor.requests {u : T} (h : NotedFor s u buf) (hstep : Requests key s t s') :
    NotedFor s' u buf := by
  obtain ⟨-, -, hreceived, hpc⟩ := hstep.frame
  by_cases hut : u = t
  · subst hut
    obtain ⟨hin, hne⟩ := requests_entered hstep h.1
    exact ⟨hin, fun hw => absurd hw hne⟩
  · rw [NotedFor, hpc u hut, hreceived]
    exact h

theorem Noted.requests (h : Noted s) (hstep : Requests key s t s') : Noted s' := by
  obtain ⟨hpromise, hrecv, hreceived, hpc⟩ := hstep.frame
  refine ⟨fun u buf hu => ?_, fun r u buf hr => ?_, fun u buf hu => ?_, fun u hu => ?_⟩
  · rw [hreceived] at hu
    by_cases hut : u = t
    · subst hut
      exact (requests_entered hstep (h.received u buf hu)).1
    · rw [hpc u hut]
      exact h.received u buf hu
  · rw [hrecv] at hr
    exact (h.found r u buf hr).requests hstep
  · rw [hpromise] at hu
    exact (h.promised u buf hu).requests hstep
  · rw [hpromise]
    by_cases hut : u = t
    · subst hut
      exact requests_ready hstep (fun hp => h.ready u (.inl hp)) hu
    · rw [hpc u hut] at hu
      exact h.ready u hu

theorem Requests.entry (h : Requests key s t s') (hfree : s.pc t = .insert → s.promiseMap (key t) = none)
    (hown : ∀ u, registered (s.pc u) = true → s.promiseMap (key u) = some u) :
    ∀ u, registered (s'.pc u) = true → s'.promiseMap (key u) = some u := by
  obtain ⟨-, -, -, hpc⟩ := h.frame
  intro u hu
  by_cases hut : u = t
  · subst hut
    cases h with
    | inserts hp =>
      change insert s.promiseMap (key u) u (key u) = some u
      rw [insert_free (hfree hp), Function.update_self]
    | ready hp | timesOut hp => exact hown u (by rw [hp]; rfl)
    | _ =>
      rw [goto_pc_self] at hu
      cases hu
  · rw [hpc u hut] at hu
    have hentry := hown u hu
    cases h with
    | inserts hp =>
      change insert s.promiseMap (key t) t (key u) = some u
      rw [insert_free (hfree hp), Function.update_of_ne]
      · exact hentry
      · intro hk
        rw [hk, hfree hp] at hentry
        cases hentry
    | erasesTimeout hp | erases hp =>
      change PromiseMap.erase s.promiseMap (key t) (key u) = some u
      have ht := hown t (by rw [hp]; rfl)
      rw [PromiseMap.erase, Function.update_of_ne]
      · exact hentry
      · intro hk
        rw [hk, ht, Option.some.injEq] at hentry
        exact hut hentry.symm
    | _ => exact hentry

theorem insert_used {u : T} (h : s.pc t = .insert) (hu : s.promiseMap (key t) = some u)
    (hstep : Requests key s t s') : s' = s.goto t .wait := by
  cases hstep with
  | inserts => simp [PromiseMap.insert, hu]
  | calls hp | sends hp | ready hp | timesOut hp | erasesTimeout hp | erases hp | gets hp | leaves hp =>
    rw [hp] at h
    cases h

theorem wait_timesOut (h : s.pc t = .wait) (hp : s.promise t = none) (hstep : Requests key s t s') :
    s' = s.goto t .eraseTimeout := by
  cases hstep with
  | timesOut => rfl
  | ready _ hn =>
    rw [hp] at hn
    cases hn
  | calls hw | sends hw | inserts hw | erasesTimeout hw | erases hw | gets hw | leaves hw =>
    rw [hw] at h
    cases h

variable [DecidableEq R]

theorem Noted.sets (h : Noted s) (hbuf : NotedFor s t buf) (hstep : Sets s r t buf s') : Noted s' := by
  obtain ⟨hpc, -, hreceived, hrecv, hkeep⟩ := hstep.frame
  have hfor : ∀ {u old}, NotedFor s u old → NotedFor s' u old := by
    intro u old hu
    rw [NotedFor, hpc, hreceived]
    exact hu
  refine ⟨fun u old hu => ?_, fun r' u old hr => ?_, fun u old hu => ?_, fun u hu => ?_⟩
  · rw [hpc]
    rw [hreceived] at hu
    exact h.received u old hu
  · by_cases hrr : r' = r
    · subst hrr
      cases hstep <;> simp at hr
    · rw [hrecv r' hrr] at hr
      exact hfor (h.found r' u old hr)
  · apply hfor
    obtain hu | ⟨rfl, rfl⟩ := hstep.promise hu
    · exact h.promised u old hu
    · exact hbuf
  · rw [hpc] at hu
    obtain ⟨old, hp⟩ := Option.ne_none_iff_exists'.mp (h.ready u hu)
    rw [hkeep u old hp]
    exact Option.some_ne_none old

theorem Noted.receives (h : Noted s) (hsound : Sound key s) (hstep : Receives atomic key s r a s') :
    Noted s' := by
  cases hstep with
  | misses => exact h.record _
  | delivers _ _ hm hs =>
    obtain ⟨hkey, hreg⟩ := hsound.entry _ _ hm
    exact (h.record _).sets (notedFor_entry hreg hkey.symm) hs
  | resumes hr hs => exact h.sets (h.found _ _ _ hr) hs
  | @finds m t _ _ hm =>
    obtain ⟨hkey, hreg⟩ := hsound.entry _ _ hm
    refine ⟨(h.record m).received, fun r' u buf hr => ?_, (h.record m).promised, h.ready⟩
    by_cases hrr : r' = r
    · subst hrr
      simp only [Function.update_self, ReceivePc.found.injEq] at hr
      obtain ⟨rfl, rfl⟩ := hr
      exact notedFor_entry hreg hkey.symm
    · simp only [Function.update_of_ne hrr] at hr
      exact (h.record m).found r' u buf hr

theorem noted (hs : Reachable (system atomic key) s) : Noted s := by
  induction hs with
  | init h =>
    subst h
    refine ⟨?_, ?_, ?_, ?_⟩
    · intro _ _ h
      cases h
    · intro _ _ _ h
      cases h
    · intro _ _ h
      cases h
    · rintro _ (h | h) <;> cases h
  | step hr h ih =>
    obtain ⟨t, timeout, -, hstep⟩ | ⟨r, hstep⟩ := step_cases h
    · exact ih.requests hstep
    · exact ih.receives (sound hr) hstep

theorem sets_promise (h : Sets s r t buf s') (ht : (s.pc t).isReturned = false) : s'.promise t ≠ none := by
  cases h with
  | fulfils => simp
  | throws _ hp => simp [hp]
  | dangles hr =>
    rw [ht] at hr
    cases hr

theorem receives_entry (h : Receives atomic key s r (.receive r m) s') (hm : s.promiseMap m.key = some t)
    (ht : (s.pc t).isReturned = false) : s'.promise t ≠ none ∨ s'.recv r = .found t m.buf := by
  cases h with
  | misses _ hn =>
    rw [hm] at hn
    cases hn
  | finds _ _ hn =>
    rw [hm, Option.some.injEq] at hn
    subst hn
    exact .inr (Function.update_self ..)
  | delivers _ _ hn hs =>
    rw [hm, Option.some.injEq] at hn
    subst hn
    exact .inl (sets_promise hs ht)

theorem receives_record (h : Receives atomic key s r (.receive r m) s') :
    s'.received = (record key s m).received := by
  cases h with
  | misses | finds => rfl
  | delivers _ _ _ hs => exact hs.frame.2.2.1

theorem receives_received {waiting : Bool} (h : Receives atomic key s r a s')
    (ht : (waiting, buf) ∈ s'.received t) :
    (waiting, buf) ∈ s.received t ∨ ∃ m, a = .receive r m ∧ (s.pc t).awaits = true ∧
      waiting = decide (s.pc t = .wait) ∧ m.answers (key t) = true ∧ buf = m.buf := by
  cases a with
  | request t timeout => cases h
  | receive r' m =>
    obtain rfl : r = r' := by cases h <;> rfl
    rw [receives_record h] at ht
    obtain ht | ⟨hp, hw, ha, hb⟩ := record_received ht
    · exact .inl ht
    · exact .inr ⟨m, rfl, hp, hw, ha, hb⟩
  | resume r =>
    cases h with
    | resumes _ hs =>
      rw [hs.frame.2.2.1] at ht
      exact .inl ht

theorem receives_found {r' : R} (h : Receives atomic key s r a s') (hr : s.recv r' = .found t buf)
    (ht : (s.pc t).isReturned = false) : s'.promise t ≠ none ∨ s'.recv r' = .found t buf := by
  by_cases hrr : r' = r
  · subst hrr
    cases h with
    | misses hi | finds _ hi | delivers _ hi =>
      rw [hi] at hr
      cases hr
    | resumes hi hs =>
      rw [hi, ReceivePc.found.injEq] at hr
      obtain ⟨rfl, rfl⟩ := hr
      exact .inl (sets_promise hs ht)
  · rw [h.frame.2.2.1 r' hrr]
    exact .inr hr

theorem receives_promise (hs : Sound key s) (h : Receives atomic key s r a s')
    (ht : s'.promise t = some buf) :
    s.promise t = some buf ∨ (∃ m, a = .receive r m ∧ m.key = key t ∧ buf = m.buf) ∨
      s.recv r = .found t buf := by
  cases h with
  | misses | finds => exact .inl ht
  | delivers _ _ hm hset =>
    obtain ht | ⟨rfl, rfl⟩ := hset.promise ht
    · exact .inl ht
    · exact .inr (.inl ⟨_, rfl, (hs.entry _ _ hm).1.symm, rfl⟩)
  | resumes hr hset =>
    obtain ht | ⟨rfl, rfl⟩ := hset.promise ht
    · exact .inl ht
    · exact .inr (.inr hr)

theorem receives_recv {r' : R} (hs : Sound key s) (h : Receives atomic key s r a s')
    (hr : s'.recv r' = .found t buf) :
    s.recv r' = .found t buf ∨ ∃ m, a = .receive r m ∧ m.key = key t ∧ buf = m.buf := by
  by_cases hrr : r' = r
  · subst hrr
    cases h with
    | misses => exact .inl hr
    | finds _ _ hm =>
      simp only [Function.update_self, ReceivePc.found.injEq] at hr
      obtain ⟨rfl, rfl⟩ := hr
      exact .inr ⟨_, rfl, (hs.entry _ _ hm).1.symm, rfl⟩
    | delivers _ _ _ hset | resumes _ hset => cases hset <;> simp at hr
  · rw [h.frame.2.2.1 r' hrr] at hr
    exact .inl hr

theorem wait_step (hw : s.pc t = .wait) :
    ∃ p, (p = .erase ∨ p = .eraseTimeout) ∧
      (system atomic key).step s (.request t true) = some (s.goto t p) := by
  cases hp : s.promise t with
  | none => exact ⟨.eraseTimeout, .inr rfl, by simp [system, step, forwardRequest, hw, hp]⟩
  | some buf => exact ⟨.erase, .inl rfl, by simp [system, step, forwardRequest, hw, hp]⟩

end Step

end RoblSampleCodes.PromiseMapHistory
