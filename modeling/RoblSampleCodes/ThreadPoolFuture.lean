import RoblSampleCodes.ThreadPoolOrder

namespace RoblSampleCodes.ThreadPoolFuture

open TransitionSystem ThreadProgram ThreadPool ThreadPoolInvariant ThreadPoolOrder

/-- A callable, with how its call ends. An exception is an `error`. -/
inductive Callable (V E : Type)
  | void (result : Except E Unit)
  | value (result : Except E V)

/-- The task that `post` makes of `func`, with the number of its shared state. -/
structure Job (V E : Type) where
  state : Nat
  func : Callable V E

structure SharedStates (V E : Type) where
  tasks : Nat → Option (Except E Unit)
  promises : Nat → Option (Except E V)

variable {V E Q : Type} {n : Nat}

def Callable.outcome : Callable V E → Except E (Option V)
  | .void result => result.map (fun _ => none)
  | .value result => result.map some

def Job.retFuture (job : Job V E) (st : SharedStates V E) : Option (Except E (Option V)) :=
  match job.func with
  | .void _ => (st.tasks job.state).map (Except.map (fun _ => none))
  | .value _ => (st.promises job.state).map (Except.map some)

/-- The call of the task, when the call of `func` is over. A packaged task
stores the outcome of its callable. On the other path `set_value` and an
exception of `func` are inside a `noexcept` function, and `none` is the end of
the program. Moving the result into the shared state does not throw. -/
def Job.call (job : Job V E) (st : SharedStates V E) : Option (SharedStates V E) :=
  match job.func with
  | .void result => some { st with tasks := Function.update st.tasks job.state (some result) }
  | .value (.ok v) =>
    match st.promises job.state with
    | none => some ⟨Function.update st.tasks job.state (some (.ok ())),
        Function.update st.promises job.state (some (.ok v))⟩
    | some _ => none
  | .value (.error _) => none

/-- The pool, the shared states, of which `issued` are in use, and the finished
jobs with the indices of their workers. -/
structure FutureState (V E : Type) (n : Nat) (Q : Type) where
  pool : PoolState (Job V E) n Q
  futures : SharedStates V E
  issued : Nat
  terminated : Bool
  completed : List (Nat × Job V E)

def runningJob : Pc (Job V E) → Option (Job V E)
  | .worker _ (.spent job) (.running _) => some job
  | _ => none

def finishing : Pc (Job V E) → Option (Nat × Job V E)
  | .worker k (.spent job) (.running .outside) => some (k, job)
  | _ => none

def calling : Pc (Job V E) → Bool
  | .worker _ _ (.running .outside) | .poster .outside => true
  | _ => false

def initial (V E : Type) (n : Nat) (Q : Type) : FutureState V E n Q :=
  ⟨ThreadPool.initial (Job V E) n Q, ⟨fun _ => none, fun _ => none⟩, 0, false, []⟩

section Step

variable [DecidableEq Q] [Fintype Q]

def step (s : FutureState V E n Q) (a : Action (Thread n Q) (Call (Job V E))) :
    Option (FutureState V E n Q) :=
  if s.terminated then none else do
    let pool ← (ThreadPool.system (Job V E) n Q).step s.pool a
    match a with
    | .run t (.post job) _ =>
      if calling (s.pool.pc t) then
        if job.state = s.issued then some { s with pool := pool, issued := s.issued + 1 } else none
      else some { s with pool := pool }
    | .run t .finish _ =>
      match finishing (s.pool.pc t) with
      | some (k, job) =>
        match job.call s.futures with
        | some futures =>
          some { s with pool := pool, futures := futures, completed := s.completed ++ [(k, job)] }
        | none => some { s with terminated := true }
      | none => some { s with pool := pool }
    | .spurious _ => some { s with pool := pool }

end Step

def system (V E : Type) (n : Nat) (Q : Type) [DecidableEq Q] [Fintype Q] :
    System (FutureState V E n Q) (Action (Thread n Q) (Call (Job V E))) :=
  ⟨(· = initial V E n Q), step⟩

variable {s s' : FutureState V E n Q}

inductive Performs (s s' : FutureState V E n Q) (a : Action (Thread n Q) (Call (Job V E))) : Prop
  | completes {t : Thread n Q} {pick : Option (Thread n Q)} {k : Nat} {job : Job V E}
      (ha : a = .run t .finish pick) (hp : finishing (s.pool.pc t) = some (k, job))
      (hcall : job.call s.futures = some s'.futures) (hdone : s'.completed = s.completed ++ [(k, job)])
      (hissued : s'.issued = s.issued)
  | posts {t : Thread n Q} {pick : Option (Thread n Q)} {job : Job V E} (ha : a = .run t (.post job) pick)
      (hp : calling (s.pool.pc t) = true) (hjob : job.state = s.issued)
      (hissued : s'.issued = s.issued + 1) (hfut : s'.futures = s.futures)
      (hdone : s'.completed = s.completed)
  | moves (hfin : ∀ t pick, a = .run t .finish pick → finishing (s.pool.pc t) = none)
      (hpost : ∀ t job pick, a = .run t (.post job) pick → calling (s.pool.pc t) = false)
      (hissued : s'.issued = s.issued) (hfut : s'.futures = s.futures)
      (hdone : s'.completed = s.completed)

theorem Performs.completed {a : Action (Thread n Q) (Call (Job V E))} (h : Performs s s' a)
    (hfin : ∀ t pick, a = .run t .finish pick → finishing (s.pool.pc t) = none) :
    s'.completed = s.completed ∧ s'.futures = s.futures := by
  cases h with
  | completes ha hp =>
    rw [hfin _ _ ha] at hp
    cases hp
  | posts _ _ _ _ hfut hdone | moves _ _ _ hfut hdone => exact ⟨hdone, hfut⟩

theorem Performs.finishes {t : Thread n Q} {pick : Option (Thread n Q)}
    (h : Performs s s' (.run t .finish pick)) {k : Nat} {job : Job V E}
    (hp : finishing (s.pool.pc t) = some (k, job)) :
    job.call s.futures = some s'.futures ∧ s'.completed = s.completed ++ [(k, job)] := by
  cases h with
  | completes ha hp' hcall hdone =>
    cases ha
    rw [hp] at hp'
    cases hp'
    exact ⟨hcall, hdone⟩
  | posts ha => cases ha
  | moves hfin =>
    rw [hfin _ _ rfl] at hp
    cases hp

theorem Performs.issues {t : Thread n Q} {job : Job V E} {pick : Option (Thread n Q)}
    (h : Performs s s' (.run t (.post job) pick)) (hp : calling (s.pool.pc t) = true) :
    job.state = s.issued ∧ s'.issued = s.issued + 1 := by
  cases h with
  | completes ha => cases ha
  | posts ha _ hjob hissued =>
    cases ha
    exact ⟨hjob, hissued⟩
  | moves _ hpost =>
    rw [hpost _ _ _ rfl] at hp
    cases hp

inductive RunStep (m m' : Members (Job V E)) (p p' : Pc (Job V E)) (c : Call (Job V E)) : Prop
  | same (hfin : c = .finish → finishing p = none) (hr : runningJob p' = runningJob p)
      (hinv : m'.invoked = m.invoked)
  | invoke {k : Nat} {job : Job V E} (hp : p = .worker k (.fresh job) .invoke)
      (hr : runningJob p' = some job) (hinv : m'.invoked = m.invoked ++ [(k, job)])
  | finish {k : Nat} {job : Job V E} (hc : c = .finish)
      (hp : p = .worker k (.spent job) (.running .outside))
      (hp' : p' = .worker k (.spent job) .loop) (hinv : m'.invoked = m.invoked)

theorem next_running {m m' : Members (Job V E)} {p p' : Pc (Job V E)} {c : Call (Job V E)}
    {e : Effect Unit Unit} (hn : (program (Job V E) n).next m p c = some (m', p', e)) :
    RunStep m m' p p' c := by
  have hm := next_moves hn
  cases hm with
  | invoke => exact .invoke rfl rfl rfl
  | @finish k task =>
    cases c with
    | post job => cases hn
    | finish =>
      cases task with
      | spent job => exact .finish rfl rfl rfl rfl
      | empty | fresh job => exact .same (fun _ => rfl) rfl rfl
  | @jobPosts k task q q' m' e h =>
    have hr : runningJob (.worker k task (.running q')) = runningJob (.worker k task (.running q)) := by
      cases task <;> rfl
    cases h with
    | acquire =>
      cases c with
      | post job => exact .same nofun hr rfl
      | finish => cases hn
    | emplace | notify | unlock => exact .same (fun _ => by cases task <;> rfl) hr rfl
  | posts h => cases h <;> exact .same (fun _ => rfl) rfl rfl
  | @start k task | @active k task | @inactive k task | @acquire k task | @ready k task | @idle k task
  | @sleep k task | @reacquire k task | @stays k task | @breaks k task | @swapEmpty k task
  | @pop k task | @unlock k task | @throws k task | @breakUnlock k task | @leave k task =>
    exact .same (fun _ => by cases task <;> rfl) (by cases task <;> rfl) rfl
  | @swap k task front =>
    exact .same (fun _ => by cases task <;> rfl) (by cases task <;> cases front <;> rfl) rfl
  | launch | constructed | stop | notifyAll | joined | returns => exact .same (fun _ => rfl) rfl rfl

def completedBy (completed : List (Nat × Job V E)) (k : Nat) : List (Job V E) :=
  (completed.filter (fun x => x.1 == k)).map Prod.snd

theorem completedBy_append (completed : List (Nat × Job V E)) (k : Nat) (job : Job V E) (i : Nat) :
    completedBy (completed ++ [(k, job)]) i = completedBy completed i ++ if k = i then [job] else [] := by
  simp only [completedBy, List.filter_append, List.map_append]
  by_cases hk : k = i <;> simp [hk]

def emplacing : Pc (Job V E) → Option (Job V E)
  | .worker _ _ (.running (.emplace job)) | .poster (.emplace job) => some job
  | _ => none

theorem emplacing_holds {p : Pc (Job V E)} {job : Job V E} (h : emplacing p = some job) :
    holdsGuard p = true := by
  cases p with
  | worker k task p =>
    cases p with
    | running q => cases q <;> first | rfl | cases h
    | _ => cases h
  | poster p => cases p <;> first | rfl | cases h
  | owner _ => cases h

inductive PostStep (m m' : Members (Job V E)) (p p' : Pc (Job V E)) (c : Call (Job V E)) : Prop
  | same (hp : emplacing p' = none) (hposted : m'.posted = m.posted)
  | acquire {job : Job V E} (hc : c = .post job) (hcall : calling p = true)
      (hp' : emplacing p' = some job) (hposted : m'.posted = m.posted)
  | emplace {job : Job V E} (hp : emplacing p = some job) (hp' : emplacing p' = none)
      (hposted : m'.posted = m.posted ++ [job])

theorem next_posted {m m' : Members (Job V E)} {p p' : Pc (Job V E)} {c : Call (Job V E)}
    {e : Effect Unit Unit} (hn : (program (Job V E) n).next m p c = some (m', p', e)) :
    PostStep m m' p p' c := by
  cases next_moves hn with
  | jobPosts h | posts h =>
    cases h with
    | acquire =>
      cases c with
      | post job =>
        cases hn
        exact .acquire rfl rfl rfl rfl
      | finish => cases hn
    | emplace => exact .emplace rfl rfl rfl
    | notify | unlock => exact .same rfl rfl
  | _ => exact .same rfl rfl

variable [DecidableEq Q] [Fintype Q]

theorem step_cases {a : Action (Thread n Q) (Call (Job V E))} (h : (system V E n Q).step s a = some s') :
    s.terminated = false ∧
      ((∃ t pick k job, a = .run t .finish pick ∧ finishing (s.pool.pc t) = some (k, job) ∧
        job.call s.futures = none ∧ s' = { s with terminated := true }) ∨
      (ThreadPool.system (Job V E) n Q).step s.pool a = some s'.pool ∧ s'.terminated = false ∧
        Performs s s' a) := by
  simp only [system, step, Option.ite_none_left_eq_some, Bool.not_eq_true, Option.bind_eq_bind,
    Option.bind_eq_some_iff] at h
  obtain ⟨hterm, pool, hpool, h⟩ := h
  refine ⟨hterm, ?_⟩
  split at h
  · next t job pick =>
    split at h
    · next hc =>
      split at h
      · next hj =>
        cases h
        exact .inr ⟨hpool, hterm, .posts rfl hc hj rfl rfl rfl⟩
      · cases h
    · next hc =>
      cases h
      exact .inr ⟨hpool, hterm, .moves nofun
        (fun u job' pick' ha => by cases ha; simpa using hc) rfl rfl rfl⟩
  · next t pick =>
    split at h
    · next k job hf =>
      split at h
      · next futures hcall =>
        cases h
        exact .inr ⟨hpool, hterm, .completes rfl hf hcall rfl rfl⟩
      · next hcall =>
        cases h
        exact .inl ⟨t, pick, k, job, rfl, hf, hcall, rfl⟩
    · next hf =>
      cases h
      exact .inr ⟨hpool, hterm, .moves (fun u pick' ha => by cases ha; exact hf) nofun rfl rfl rfl⟩
  · next t =>
    cases h
    exact .inr ⟨hpool, hterm, .moves nofun nofun rfl rfl rfl⟩

theorem pool_reachable (hs : Reachable (system V E n Q) s) :
    Reachable (ThreadPool.system (Job V E) n Q) s.pool := by
  induction hs with
  | init h =>
    subst h
    exact .init rfl
  | step _ h ih =>
    obtain ⟨-, ⟨_, _, _, _, -, -, -, rfl⟩ | ⟨hp, -⟩⟩ := step_cases h
    · exact ih
    · exact ih.step hp

theorem pool_step {β : Type} (f : Pc (Job V E) → β)
    (hf : ∀ k task, f (.worker k task .awake) = f (.worker k task .asleep))
    {s s' : PoolState (Job V E) n Q} {a : Action (Thread n Q) (Call (Job V E))}
    (h : (ThreadPool.system (Job V E) n Q).step s a = some s') :
    (∃ t c pick p e, a = .run t c pick ∧
      (program (Job V E) n).next s.shared (s.pc t) c = some (s'.shared, p, e) ∧
      f (s'.pc t) = f p ∧ ∀ u, u ≠ t → f (s'.pc u) = f (s.pc u)) ∨
    (∃ t, a = .spurious t) ∧ s'.shared = s.shared ∧ ∀ u, f (s'.pc u) = f (s.pc u) := by
  have hwake : ∀ p : Pc (Job V E), (program (Job V E) n).asleep p ≠ none →
      f ((program (Job V E) n).wake p) = f p := by
    intro p hp
    obtain ⟨k, task, rfl, hw⟩ := asleep_cases hp
    rw [hw, hf]
  obtain ⟨t, c, pick, p, e, ha, hn, -, hself, hother⟩ | h := step_local f hwake h
  · exact .inl ⟨t, c, pick, p, e, ha, hn, hself, hother⟩
  · exact .inr h

theorem invoked_completed (hs : Reachable (system V E n Q) s) (i : Fin n) :
    invokedBy s.pool.shared i =
      completedBy s.completed i ++ (runningJob (s.pool.pc (.worker i))).toList := by
  induction hs with
  | init h =>
    subst h
    rfl
  | @step s s' a hr h ih =>
    obtain ⟨-, ⟨_, _, _, _, -, -, -, rfl⟩ | ⟨hstep, -, hmoves⟩⟩ := step_cases h
    · exact ih
    · have hpool := pool_reachable hr
      obtain ⟨t, c, pick, p, e, rfl, hn, hself, hother⟩ | ⟨⟨u, rfl⟩, hsh, hall⟩ :=
        pool_step runningJob (fun _ task => by cases task <;> rfl) hstep
      · have hkeep : ∀ j : Fin n, t = .worker j → j ≠ i →
            runningJob (s'.pool.pc (.worker i)) = runningJob (s.pool.pc (.worker i)) := by
          rintro j rfl hj
          exact hother _ (fun he => hj (Thread.worker.inj he).symm)
        cases next_running hn with
        | same hfin hr hinv =>
          obtain ⟨hdone, -⟩ := hmoves.completed (fun u pick ha => by cases ha; exact hfin rfl)
          have hsame : runningJob (s'.pool.pc (.worker i)) = runningJob (s.pool.pc (.worker i)) := by
            by_cases ht : .worker i = t
            · rw [ht, hself, hr]
            · exact hother _ ht
          simpa only [invokedBy, hinv, hdone, hsame] using ih
        | @invoke k job hp hr hinv =>
          obtain ⟨hdone, -⟩ := hmoves.completed (fun u pick ha => by cases ha; rw [hp]; rfl)
          obtain ⟨j, rfl, rfl⟩ := worker_place hpool hp
          rw [invokedBy_append hinv, hdone, ih]
          by_cases hij : j = i
          · subst hij
            rw [if_pos rfl, hself, hr, hp]
            simp [runningJob]
          · rw [if_neg (fun h => hij (Fin.ext h)), List.append_nil, hkeep j rfl hij]
        | @finish k job hc hp hp' hinv =>
          subst hc hp'
          obtain ⟨-, hdone⟩ := hmoves.finishes (by rw [hp]; rfl)
          obtain ⟨j, rfl, rfl⟩ := worker_place hpool hp
          rw [hdone, completedBy_append]
          simp only [invokedBy, hinv] at ih ⊢
          rw [ih]
          by_cases hij : j = i
          · subst hij
            rw [if_pos rfl, hself, hp]
            simp [runningJob]
          · rw [if_neg (fun h => hij (Fin.ext h)), List.append_nil, hkeep j rfl hij]
      · obtain ⟨hdone, -⟩ := hmoves.completed (fun u pick ha => by cases ha)
        rw [hsh, hall, hdone]
        exact ih

structure OwnStates (s : FutureState V E n Q) : Prop where
  nodup : (s.pool.shared.posted.map Job.state).Nodup
  issued : ∀ job ∈ s.pool.shared.posted, job.state < s.issued
  emplacing : ∀ t job, emplacing (s.pool.pc t) = some job →
    job.state < s.issued ∧ job.state ∉ s.pool.shared.posted.map Job.state

theorem ownStates (hs : Reachable (system V E n Q) s) : OwnStates s := by
  induction hs with
  | init h =>
    subst h
    refine ⟨List.nodup_nil, fun _ h => (List.not_mem_nil h).elim, fun t job h => ?_⟩
    cases t <;> cases h
  | @step s s' a hr h ih =>
    obtain ⟨-, ⟨_, _, _, _, -, -, -, rfl⟩ | ⟨hstep, -, hmoves⟩⟩ := step_cases h
    · exact ⟨ih.nodup, ih.issued, ih.emplacing⟩
    · have hpool := pool_reachable hr
      have hle : s.issued ≤ s'.issued := by
        cases hmoves with
        | completes _ _ _ _ hi | moves _ _ hi => exact hi.ge
        | posts _ _ _ hi => omega
      obtain ⟨t, c, pick, p, e, rfl, hn, hself, hother⟩ | ⟨⟨u, rfl⟩, hsh, hall⟩ :=
        pool_step emplacing (fun _ _ => rfl) hstep
      · -- the threads that are not in this step keep their new jobs
        have hkeep : s'.pool.shared.posted = s.pool.shared.posted → ∀ u job, u ≠ t →
            emplacing (s'.pool.pc u) = some job →
              job.state < s'.issued ∧ job.state ∉ s'.pool.shared.posted.map Job.state := by
          intro hposted u job hu hj
          obtain ⟨hlt, hnew⟩ := ih.emplacing u job (hother u hu ▸ hj)
          exact ⟨Nat.lt_of_lt_of_le hlt hle, hposted ▸ hnew⟩
        cases next_posted hn with
        | same hp' hposted =>
          refine ⟨hposted ▸ ih.nodup, fun job hj => ?_, fun u job hj => ?_⟩
          · exact Nat.lt_of_lt_of_le (ih.issued job (hposted ▸ hj)) hle
          · by_cases hu : u = t
            · rw [hu, hself, hp'] at hj
              cases hj
            · exact hkeep hposted u job hu hj
        | @acquire job hc hcall hp' hposted =>
          subst hc
          obtain ⟨hjob, hissued⟩ := hmoves.issues hcall
          refine ⟨hposted ▸ ih.nodup, fun j hj => ?_, fun u j hj => ?_⟩
          · exact Nat.lt_of_lt_of_le (ih.issued j (hposted ▸ hj)) hle
          · by_cases hu : u = t
            · rw [hu, hself, hp'] at hj
              cases hj
              rw [hposted, hjob, hissued]
              refine ⟨Nat.lt_succ_self _, fun hmem => ?_⟩
              obtain ⟨j, hj, he⟩ := List.mem_map.mp hmem
              exact absurd (ih.issued j hj) (he ▸ Nat.lt_irrefl _)
            · exact hkeep hposted u j hu hj
        | @emplace job hp hp' hposted =>
          obtain ⟨hlt, hnew⟩ := ih.emplacing t job hp
          refine ⟨?_, fun j hj => ?_, fun u j hj => ?_⟩
          · rw [hposted, List.map_append, List.map_singleton, List.nodup_append_comm]
            exact List.nodup_cons.mpr ⟨hnew, ih.nodup⟩
          · rw [hposted, List.mem_append, List.mem_singleton] at hj
            obtain hj | rfl := hj
            · exact Nat.lt_of_lt_of_le (ih.issued j hj) hle
            · exact Nat.lt_of_lt_of_le hlt hle
          · exfalso
            by_cases hu : u = t
            · rw [hu, hself, hp'] at hj
              cases hj
            · rw [hother u hu] at hj
              exact hu ((owned hpool).unique (m := ()) (emplacing_holds hj) (emplacing_holds hp))
      · refine ⟨hsh ▸ ih.nodup, fun job hj => ?_, fun t job hj => ?_⟩
        · exact Nat.lt_of_lt_of_le (ih.issued job (hsh ▸ hj)) hle
        · obtain ⟨hlt, hnew⟩ := ih.emplacing t job (hall t ▸ hj)
          exact ⟨Nat.lt_of_lt_of_le hlt hle, hsh ▸ hnew⟩

theorem dequeued_nodup (hs : Reachable (system V E n Q) s) :
    (s.pool.shared.dequeued.map Prod.snd).Nodup := by
  have hposted : (s.pool.shared.posted.map PackagedTask.fresh).Nodup :=
    (ownStates hs).nodup.of_map.map (fun _ _ h => PackagedTask.fresh.inj h)
  exact hposted.sublist (dequeued_fifo (pool_reachable hs)).sublist

theorem mem_invokedBy {m : Members (Job V E)} {k : Nat} {job : Job V E} (h : job ∈ invokedBy m k) :
    (k, job) ∈ m.invoked := by
  obtain ⟨⟨j, x⟩, hx, rfl⟩ := List.mem_map.mp h
  obtain ⟨hmem, hj⟩ := List.mem_filter.mp hx
  obtain rfl : j = k := by simpa using hj
  exact hmem

theorem running_invoked (hs : Reachable (system V E n Q) s) {i : Fin n} {job : Job V E}
    (h : runningJob (s.pool.pc (.worker i)) = some job) : (i.val, job) ∈ s.pool.shared.invoked := by
  apply mem_invokedBy
  rw [invoked_completed hs i, h]
  exact List.mem_append_right _ List.mem_cons_self

theorem completed_invoked (hs : Reachable (system V E n Q) s) {x : Nat × Job V E}
    (hx : x ∈ s.completed) : x ∈ s.pool.shared.invoked := by
  induction hs with
  | init h =>
    subst h
    cases hx
  | @step s s' a hr h ih =>
    obtain ⟨-, ⟨_, _, _, _, -, -, -, rfl⟩ | ⟨hstep, -, hmoves⟩⟩ := step_cases h
    · exact ih hx
    · obtain ⟨t, c, pick, p, e, rfl, hn, -, -⟩ | ⟨⟨u, rfl⟩, hsh, -⟩ :=
        pool_step (fun _ => ()) (fun _ _ => rfl) hstep
      · cases next_running hn with
        | same hfin _ hinv =>
          obtain ⟨hdone, -⟩ := hmoves.completed (fun u pick ha => by cases ha; exact hfin rfl)
          rw [hinv]
          exact ih (hdone ▸ hx)
        | invoke hp _ hinv =>
          obtain ⟨hdone, -⟩ := hmoves.completed (fun u pick ha => by cases ha; rw [hp]; rfl)
          rw [hinv]
          exact List.mem_append_left _ (ih (hdone ▸ hx))
        | finish hc hp hp' hinv =>
          subst hc
          obtain ⟨-, hdone⟩ := hmoves.finishes (by rw [hp]; rfl)
          obtain ⟨j, rfl, rfl⟩ := worker_place (pool_reachable hr) hp
          rw [hinv]
          rw [hdone, List.mem_append, List.mem_singleton] at hx
          obtain hx | rfl := hx
          · exact ih hx
          · exact running_invoked hr (by rw [hp]; rfl)
      · obtain ⟨hdone, -⟩ := hmoves.completed (fun u pick ha => by cases ha)
        rw [hsh]
        exact ih (hdone ▸ hx)

theorem running_new (hs : Reachable (system V E n Q) s) {i : Fin n} {job : Job V E}
    (h : runningJob (s.pool.pc (.worker i)) = some job) {x : Nat × Job V E} (hx : x ∈ s.completed) :
    x.2.state ≠ job.state := by
  intro hstate
  obtain ⟨k, j⟩ := x
  have hpool := pool_reachable hs
  have hi := (history_workers hpool).2 _ (running_invoked hs h)
  have hk := (history_workers hpool).2 _ (completed_invoked hs hx)
  have hposted : ∀ {y : Nat × PackagedTask (Job V E)}, y ∈ s.pool.shared.dequeued →
      ∀ j, y.2 = .fresh j → j ∈ s.pool.shared.posted := by
    intro y hy j hj
    obtain ⟨j', hj', he⟩ := dequeued_fresh hpool hy
    rw [hj] at he
    cases he
    exact hj'
  obtain rfl : j = job :=
    List.inj_on_of_nodup_map (ownStates hs).nodup (hposted hk j rfl) (hposted hi job rfl) hstate
  have hw := List.inj_on_of_nodup_map (dequeued_nodup hs) hk hi rfl
  simp only [Prod.mk.injEq, and_true] at hw
  subst hw
  -- the worker would have invoked the job twice
  have hdeq : (dequeuedBy s.pool.shared i).Nodup :=
    (dequeued_nodup hs).sublist (List.filter_sublist.map _)
  rw [history hpool i, invoked_completed hs i, h] at hdeq
  have hinv : (completedBy s.completed i ++ [j]).Nodup := (List.nodup_append.mp hdeq).1.of_map
  have hmem : j ∈ completedBy s.completed i :=
    List.mem_map.mpr ⟨(i.val, j), List.mem_filter.mpr ⟨hx, by simp⟩, rfl⟩
  exact (List.nodup_append.mp hinv).2.2 j hmem j List.mem_cons_self rfl

theorem finishing_worker (hs : Reachable (system V E n Q) s) {t : Thread n Q} {k : Nat}
    {job : Job V E} (h : finishing (s.pool.pc t) = some (k, job)) :
    ∃ i : Fin n, t = .worker i ∧ k = i ∧
      s.pool.pc t = .worker i (.spent job) (.running .outside) := by
  cases hp : s.pool.pc t with
  | worker k' task p =>
    obtain ⟨i, ht, hk⟩ := worker_place (pool_reachable hs) hp
    rw [hp] at h
    cases p with
    | running q =>
      cases task <;> cases q <;> cases h
      exact ⟨i, ht, hk, by rw [hk]⟩
    | _ => cases task <;> cases h
  | poster _ | owner _ =>
    rw [hp] at h
    cases h

/-- A call that does not end the program stores the outcome, and nothing else. -/
theorem call_stores {job : Job V E} {st st' : SharedStates V E} (h : job.call st = some st') :
    job.retFuture st' = some job.func.outcome ∧
      ∀ i, i ≠ job.state → st'.tasks i = st.tasks i ∧ st'.promises i = st.promises i := by
  obtain ⟨k, func⟩ := job
  cases func with
  | void result =>
    cases h
    refine ⟨?_, fun i hi => ⟨Function.update_of_ne hi .., rfl⟩⟩
    simp [Job.retFuture, Callable.outcome]
  | value result =>
    cases result with
    | error e => cases h
    | ok v =>
      simp only [Job.call] at h
      split at h
      · cases h
        refine ⟨?_, fun i hi => ⟨Function.update_of_ne hi .., Function.update_of_ne hi ..⟩⟩
        simp only [Job.retFuture, Callable.outcome, Function.update_self, Option.map_some]
      · cases h

theorem retFuture_congr {job : Job V E} {st st' : SharedStates V E}
    (h : st'.tasks job.state = st.tasks job.state ∧ st'.promises job.state = st.promises job.state) :
    job.retFuture st' = job.retFuture st := by
  simp only [Job.retFuture, h.1, h.2]

structure Stored (s : FutureState V E n Q) : Prop where
  ready : ∀ x ∈ s.completed, x.2.retFuture s.futures = some x.2.func.outcome
  empty : ∀ i, (∀ x ∈ s.completed, x.2.state ≠ i) →
    s.futures.tasks i = none ∧ s.futures.promises i = none

theorem stored (hs : Reachable (system V E n Q) s) : Stored s := by
  induction hs with
  | init h =>
    subst h
    exact ⟨fun _ h => (List.not_mem_nil h).elim, fun _ _ => ⟨rfl, rfl⟩⟩
  | @step s s' a hr h ih =>
    obtain ⟨-, ⟨_, _, _, _, -, -, -, rfl⟩ | ⟨hstep, -, hmoves⟩⟩ := step_cases h
    · exact ⟨ih.ready, ih.empty⟩
    · by_cases hfin : ∀ t pick, a = .run t .finish pick → finishing (s.pool.pc t) = none
      · obtain ⟨hdone, hfut⟩ := hmoves.completed hfin
        exact ⟨hdone ▸ hfut ▸ ih.ready, hdone ▸ hfut ▸ ih.empty⟩
      · push Not at hfin
        obtain ⟨t, pick, rfl, hf⟩ := hfin
        obtain ⟨⟨k, job⟩, hf⟩ := Option.ne_none_iff_exists'.mp hf
        obtain ⟨hcall, hdone⟩ := hmoves.finishes hf
        obtain ⟨hready, hsame⟩ := call_stores hcall
        refine ⟨fun x hx => ?_, fun i hi => ?_⟩
        · rw [hdone, List.mem_append, List.mem_singleton] at hx
          obtain hx | rfl := hx
          · obtain ⟨j, rfl, rfl, hp⟩ := finishing_worker hr hf
            have hne := running_new hr (by rw [hp]; rfl) hx
            rw [retFuture_congr (hsame _ hne)]
            exact ih.ready x hx
          · exact hready
        · rw [hdone] at hi
          have hne : i ≠ job.state := fun he => hi (k, job) (by simp) he.symm
          obtain ⟨ht, hp⟩ := hsame i hne
          rw [ht, hp]
          exact ih.empty i (fun x hx => hi x (List.mem_append_left _ hx))

def Callable.contained : Callable V E → Bool
  | .value (.error _) => false
  | _ => true

/-- When a worker is at the end of the job, its next step makes the future
ready with the outcome, and it goes on in its loop. -/
def Delivers (func : Callable V E) : Prop :=
  ∀ (n : Nat) (Q : Type) [DecidableEq Q] [Fintype Q] (s : FutureState V E n Q) (i : Fin n)
    (job : Job V E) (pick : Option (Thread n Q)),
    Reachable (system V E n Q) s → s.terminated = false → job.func = func →
    s.pool.pc (.worker i) = .worker i (.spent job) (.running .outside) →
    job.retFuture s.futures = none ∧
      ∃ s', (system V E n Q).step s (.run (.worker i) .finish pick) = some s' ∧ s'.terminated = false ∧
        job.retFuture s'.futures = some func.outcome ∧
        s'.pool.pc (.worker i) = .worker i (.spent job) .loop

theorem running_call (hs : Reachable (system V E n Q) s) {i : Fin n} {job : Job V E}
    (h : runningJob (s.pool.pc (.worker i)) = some job) :
    job.retFuture s.futures = none ∧ (job.call s.futures = none ↔ job.func.contained = false) := by
  have hempty := (stored hs).empty job.state (fun x hx => running_new hs h hx)
  obtain ⟨k, func⟩ := job
  cases func with
  | void result => simp [Job.retFuture, Job.call, Callable.contained, hempty]
  | value result => cases result <;> simp [Job.retFuture, Job.call, Callable.contained, hempty]

def loops (pool : PoolState (Job V E) n Q) (i : Fin n) (job : Job V E) : PoolState (Job V E) n Q :=
  { pool with pc := Function.update pool.pc (.worker i) (.worker i (.spent job) .loop) }

theorem finish_step (pick : Option (Thread n Q)) {i : Fin n} {job : Job V E}
    (hterm : s.terminated = false)
    (hp : s.pool.pc (.worker i) = .worker i (.spent job) (.running .outside)) :
    (system V E n Q).step s (.run (.worker i) .finish pick) =
      match job.call s.futures with
      | some futures =>
        some ⟨loops s.pool i job, futures, s.issued, false, s.completed ++ [(i.val, job)]⟩
      | none => some { s with terminated := true } := by
  have hstep : (ThreadPool.system (Job V E) n Q).step s.pool (.run (.worker i) .finish pick) =
      some (loops s.pool i job) := by
    simp [loops, ThreadPool.system, Program.system, Program.step, program, next, run, hp, Effect.enabled,
      Program.deliver, Effect.owner]
  simp only [system, step, hterm, hstep, hp, finishing, Bool.false_eq_true, if_false,
    Option.bind_eq_bind, Option.bind_some]

theorem oneJob_reachable (func : Callable V E) :
    ∃ s, Reachable (system V E 1 Unit) s ∧ s.terminated = false ∧
      s.pool.pc (.worker 0) = .worker 0 (.spent ⟨0, func⟩) (.running .outside) := by
  obtain ⟨s, he, h⟩ : ∃ s, exec (system V E 1 Unit) (initial V E 1 Unit)
      ([[.run .owner .finish none], [.run (.poster ()) (.post ⟨0, func⟩) none],
        List.replicate 3 (.run (.poster ()) .finish none),
        List.replicate 9 (.run (.worker 0) .finish none)].flatten) = some s ∧
      s.terminated = false ∧
      s.pool.pc (.worker 0) = .worker 0 (.spent ⟨0, func⟩) (.running .outside) :=
    ⟨_, rfl, rfl, rfl⟩
  exact ⟨s, .exec (.init rfl) he, h⟩

theorem delivers_iff (func : Callable V E) : Delivers func ↔ func.contained = true := by
  constructor
  · intro h
    obtain ⟨s, hs, hterm, hp⟩ := oneJob_reachable func
    obtain ⟨-, s', hstep, hterm', -⟩ := h 1 Unit s 0 ⟨0, func⟩ none hs hterm rfl hp
    by_contra hc
    have hcall := (running_call hs (i := 0) (by rw [hp]; rfl)).2.mpr (Bool.eq_false_of_not_eq_true hc)
    rw [finish_step _ hterm hp, hcall] at hstep
    cases hstep
    cases hterm'
  · rintro hc n Q _ _ s i job pick hs hterm rfl hp
    have hrun : runningJob (s.pool.pc (.worker i)) = some job := by
      rw [hp]
      rfl
    obtain ⟨hnone, hcall⟩ := running_call hs hrun
    refine ⟨hnone, ?_⟩
    rw [finish_step _ hterm hp]
    cases hfut : job.call s.futures with
    | none =>
      rw [hcall.mp hfut] at hc
      cases hc
    | some futures => exact ⟨_, rfl, rfl, (call_stores hfut).1, Function.update_self ..⟩

def PostsContained (_ : FutureState V E n Q) (a : Action (Thread n Q) (Call (Job V E))) : Prop :=
  ∀ t job pick, a = .run t (.post job) pick → job.func.contained = true

theorem posted_contained (hs : ReachableBy (system V E n Q) PostsContained s) :
    (∀ job ∈ s.pool.shared.posted, job.func.contained = true) ∧
      ∀ t job, emplacing (s.pool.pc t) = some job → job.func.contained = true := by
  induction hs with
  | init h =>
    subst h
    refine ⟨fun _ h => (List.not_mem_nil h).elim, fun t job h => ?_⟩
    cases t <;> cases h
  | @step s s' a hr hc h ih =>
    obtain ⟨hposted, hnew⟩ := ih
    obtain ⟨-, ⟨_, _, _, _, -, -, -, rfl⟩ | ⟨hstep, -, -⟩⟩ := step_cases h
    · exact ⟨hposted, hnew⟩
    · obtain ⟨t, c, pick, p, e, rfl, hn, hself, hother⟩ | ⟨-, hsh, hall⟩ :=
        pool_step emplacing (fun _ _ => rfl) hstep
      · have hkeep : (∀ job, emplacing p = some job → job.func.contained = true) →
            ∀ u job, emplacing (s'.pool.pc u) = some job → job.func.contained = true := by
          intro hp u job hu
          by_cases hut : u = t
          · exact hp job (hself ▸ hut ▸ hu)
          · exact hnew u job (hother u hut ▸ hu)
        cases next_posted hn with
        | same hp' hsame =>
          exact ⟨hsame ▸ hposted, hkeep (fun job hj => absurd (hp'.symm.trans hj) nofun)⟩
        | @acquire job hcall _ hp' hsame =>
          refine ⟨hsame ▸ hposted, hkeep (fun j hj => ?_)⟩
          rw [hp'] at hj
          cases hj
          exact hc t job pick (hcall ▸ rfl)
        | @emplace job hp hp' hsame =>
          refine ⟨fun j hj => ?_, hkeep (fun j hj => absurd (hp'.symm.trans hj) nofun)⟩
          rw [hsame, List.mem_append, List.mem_singleton] at hj
          obtain hj | rfl := hj
          · exact hposted j hj
          · exact hnew t j hp
      · exact ⟨hsh ▸ hposted, fun t job hj => hnew t job (hall t ▸ hj)⟩

theorem not_terminated (hs : ReachableBy (system V E n Q) PostsContained s) : s.terminated = false := by
  cases hs with
  | init h =>
    subst h
    rfl
  | @step s s' a hr hc h =>
    obtain ⟨-, ⟨t, pick, k, job, -, hf, hcall, -⟩ | ⟨-, hterm, -⟩⟩ := step_cases h
    · obtain ⟨i, rfl, rfl, hp⟩ := finishing_worker hr.reachable hf
      have hrun : runningJob (s.pool.pc (.worker i)) = some job := by
        rw [hp]
        rfl
      have hpool := pool_reachable hr.reachable
      have hdeq := (history_workers hpool).2 _ (running_invoked hr.reachable hrun)
      obtain ⟨j, hj, he⟩ := dequeued_fresh hpool hdeq
      cases he
      have hcontained := (posted_contained hr).1 job hj
      rw [(running_call hr.reachable hrun).2.mp hcall] at hcontained
      cases hcontained
    · exact hterm

/-- The future of a job gets the outcome of its callable exactly when the
callable returns `void` or does not throw. When all posted callables are such,
no job ends the program and the futures of all completed jobs are ready. -/
theorem post_delivers_iff :
    (∀ func : Callable V E, Delivers func ↔ func.contained = true) ∧
      ∀ (n : Nat) (Q : Type) [DecidableEq Q] [Fintype Q] (s : FutureState V E n Q),
        ReachableBy (system V E n Q) PostsContained s →
          s.terminated = false ∧
            ∀ x ∈ s.completed, x.2.retFuture s.futures = some x.2.func.outcome :=
  ⟨delivers_iff, fun _ _ _ _ _ hs => ⟨not_terminated hs, (stored hs.reachable).ready⟩⟩

/-- A callable with a value throws, and the program ends. The same exception of
a `void` callable reaches the future. -/
theorem throwing_terminates :
    ¬ Delivers (.value (.error ()) : Callable Nat Unit) ∧
      (∃ s, Reachable (system Nat Unit 1 Unit) s ∧ s.terminated = true) ∧
      Delivers (.void (.error ()) : Callable Nat Unit) := by
  refine ⟨fun h => ?_, ?_, (delivers_iff _).mpr rfl⟩
  · cases (delivers_iff _).mp h
  · obtain ⟨s, hs, hterm, hp⟩ := oneJob_reachable (.value (.error ()) : Callable Nat Unit)
    exact ⟨_, hs.step (finish_step none hterm hp), rfl⟩

end RoblSampleCodes.ThreadPoolFuture
