import RoblSampleCodes.ThreadPool

namespace RoblSampleCodes.ThreadPoolInvariant

open TransitionSystem ThreadCount ThreadProgram ThreadPool

variable {J Q : Type} {n : Nat}

inductive Posts (m : Members J) : PostPc J → Members J → PostPc J → Effect Unit Unit → Prop
  | acquire {job : J} : Posts m .outside m (.emplace job) (.lock ())
  | emplace {job : J} :
      Posts m (.emplace job)
        { m with pendingJobs := m.pendingJobs ++ [.fresh job], posted := m.posted ++ [job] } .notify .none
  | notify : Posts m .notify m .unlock (.notifyOne ())
  | unlock : Posts m .unlock m .outside (.unlock ())

inductive Moves (n : Nat) (m : Members J) : Pc J → Members J → Pc J → Effect Unit Unit → Prop
  | start {k : Nat} {job : PackagedTask J} (h : k < m.launched) :
      Moves n m (.worker k job .created) m (.worker k job .loop) .none
  | active {k : Nat} {job : PackagedTask J} (h : m.isActive = true) :
      Moves n m (.worker k job .loop) m (.worker k job .acquire) .none
  | inactive {k : Nat} {job : PackagedTask J} (h : m.isActive = false) :
      Moves n m (.worker k job .loop) m (.worker k job .leave) .none
  | acquire {k : Nat} {job : PackagedTask J} :
      Moves n m (.worker k job .acquire) m (.worker k job .test) (.lock ())
  | ready {k : Nat} {job : PackagedTask J} (h : m.pendingJobs ≠ [] ∨ m.isActive = false) :
      Moves n m (.worker k job .test) m (.worker k job .check) .none
  | idle {k : Nat} {job : PackagedTask J} (h : m.pendingJobs = []) (ha : m.isActive = true) :
      Moves n m (.worker k job .test) m (.worker k job .sleep) .none
  | sleep {k : Nat} {job : PackagedTask J} :
      Moves n m (.worker k job .sleep) m (.worker k job .asleep) (.unlock ())
  | reacquire {k : Nat} {job : PackagedTask J} :
      Moves n m (.worker k job .awake) m (.worker k job .test) (.lock ())
  | stays {k : Nat} {job : PackagedTask J} (h : m.isActive = true) :
      Moves n m (.worker k job .check) m (.worker k job .swap) .none
  | breaks {k : Nat} {job : PackagedTask J} (h : m.isActive = false) :
      Moves n m (.worker k job .check) m (.worker k job .breakUnlock) .none
  | swap {k : Nat} {job front : PackagedTask J} {rest : List (PackagedTask J)}
      (h : m.pendingJobs = front :: rest) :
      Moves n m (.worker k job .swap) { m with pendingJobs := job :: rest } (.worker k front .pop) .none
  | swapEmpty {k : Nat} {job : PackagedTask J} (h : m.pendingJobs = []) :
      Moves n m (.worker k job .swap) m (.worker k job .undefined) .none
  | pop {k : Nat} {job : PackagedTask J} :
      Moves n m (.worker k job .pop)
        { m with pendingJobs := m.pendingJobs.tail, dequeued := m.dequeued ++ [(k, job)] }
        (.worker k job .unlock) .none
  | unlock {k : Nat} {job : PackagedTask J} :
      Moves n m (.worker k job .unlock) m (.worker k job .invoke) (.unlock ())
  | invoke {k : Nat} {j : J} :
      Moves n m (.worker k (.fresh j) .invoke) { m with invoked := m.invoked ++ [(k, j)] }
        (.worker k (.spent j) (.running .outside)) .none
  | throws {k : Nat} {job : PackagedTask J} (h : ∀ j, job ≠ .fresh j) :
      Moves n m (.worker k job .invoke) m (.worker k job .terminated) .none
  | finish {k : Nat} {job : PackagedTask J} :
      Moves n m (.worker k job (.running .outside)) m (.worker k job .loop) .none
  | jobPosts {k : Nat} {job : PackagedTask J} {p p' : PostPc J} {m' : Members J} {e : Effect Unit Unit}
      (h : Posts m p m' p' e) :
      Moves n m (.worker k job (.running p)) m' (.worker k job (.running p')) e
  | breakUnlock {k : Nat} {job : PackagedTask J} :
      Moves n m (.worker k job .breakUnlock) m (.worker k job .leave) (.unlock ())
  | leave {k : Nat} {job : PackagedTask J} :
      Moves n m (.worker k job .leave) { m with exited := Function.update m.exited k true }
        (.worker k job .exited) .none
  | posts {p p' : PostPc J} {m' : Members J} {e : Effect Unit Unit} (h : Posts m p m' p' e) :
      Moves n m (.poster p) m' (.poster p') e
  | launch {k : Nat} (h : k < n) :
      Moves n m (.owner (.construct k)) { m with launched := k + 1 } (.owner (.construct (k + 1))) .none
  | constructed {k : Nat} (h : n ≤ k) : Moves n m (.owner (.construct k)) m (.owner .alive) .none
  | stop : Moves n m (.owner .alive) { m with isActive := false } (.owner .notifyAll) .none
  | notifyAll : Moves n m (.owner .notifyAll) m (.owner (.join 0)) (.notifyAll ())
  | joined {k : Nat} (h : k < n) (he : m.exited k = true) :
      Moves n m (.owner (.join k)) m (.owner (.join (k + 1))) .none
  | returns {k : Nat} (h : n ≤ k) : Moves n m (.owner (.join k)) m (.owner .returned) .none

theorem post_posts {m m' : Members J} {p p' : PostPc J} {c : Call J} {e : Effect Unit Unit}
    (h : post m p c = some (m', p', e)) : Posts m p m' p' e := by
  cases p with
  | outside =>
    cases c <;> cases h
    exact .acquire
  | emplace job | notify | unlock =>
    cases h
    constructor

theorem run_moves {m m' : Members J} {k : Nat} {job job' : PackagedTask J} {p p' : RunPc J} {c : Call J}
    {e : Effect Unit Unit} (h : run m k job p c = some (m', (job', p'), e)) :
    Moves n m (.worker k job p) m' (.worker k job' p') e := by
  cases p with
  | created =>
    simp only [run, Option.ite_none_right_eq_some] at h
    obtain ⟨hl, h⟩ := h
    cases h
    exact .start hl
  | loop =>
    cases ha : m.isActive <;> simp only [run, ha] at h <;> cases h
    · exact .inactive ha
    · exact .active ha
  | test =>
    simp only [run] at h
    split at h <;> rename_i hc <;> cases h
    · exact .ready (by simpa using hc)
    · simp only [Bool.or_eq_true, Bool.not_eq_true', List.isEmpty_eq_false_iff, not_or, not_not,
        Bool.not_eq_false] at hc
      exact .idle hc.1 hc.2
  | check =>
    cases ha : m.isActive <;> simp only [run, ha] at h <;> cases h
    · exact .breaks ha
    · exact .stays ha
  | swap =>
    simp only [run] at h
    split at h <;> rename_i hq <;> cases h
    · exact .swap hq
    · exact .swapEmpty hq
  | invoke =>
    cases job <;> cases h
    · exact .throws nofun
    · exact .invoke
    · exact .throws nofun
  | running q =>
    cases q with
    | outside =>
      cases c with
      | post job =>
        cases h
        exact .jobPosts .acquire
      | finish =>
        cases h
        exact .finish
    | emplace j | notify | unlock =>
      cases h
      exact .jobPosts (by constructor)
  | acquire | sleep | awake | pop | unlock | breakUnlock | leave =>
    cases h
    constructor
  | asleep | exited | undefined | terminated => cases h

theorem next_moves {m m' : Members J} {p p' : Pc J} {c : Call J} {e : Effect Unit Unit}
    (h : (program J n).next m p c = some (m', p', e)) : Moves n m p m' p' e := by
  change next n m p c = _ at h
  cases p with
  | worker k job p =>
    simp only [next, Option.map_eq_some_iff] at h
    obtain ⟨⟨m1, ⟨job', p1⟩, e1⟩, hr, h⟩ := h
    cases h
    exact run_moves hr
  | poster p =>
    simp only [next, Option.map_eq_some_iff] at h
    obtain ⟨⟨m1, p1, e1⟩, hr, h⟩ := h
    cases h
    exact .posts (post_posts hr)
  | owner p =>
    simp only [next, Option.map_eq_some_iff] at h
    obtain ⟨⟨m1, p1, e1⟩, hr, h⟩ := h
    cases h
    cases p with
    | construct k =>
      simp only [owner] at hr
      split at hr <;> cases hr
      · exact .launch ‹_›
      · exact .constructed (Nat.le_of_not_lt ‹_›)
    | join k =>
      simp only [owner] at hr
      split at hr
      · split at hr <;> cases hr
        exact .joined ‹_› ‹_›
      · cases hr
        exact .returns (Nat.le_of_not_lt ‹_›)
    | alive | notifyAll =>
      cases hr
      constructor
    | returned => cases hr

theorem asleep_cases {p : Pc J} (h : (program J n).asleep p ≠ none) :
    ∃ k job, p = .worker k job .asleep ∧ (program J n).wake p = .worker k job .awake := by
  change asleep p ≠ none at h
  cases p with
  | worker k job p => cases p <;> first | exact ⟨k, job, rfl, rfl⟩ | exact absurd rfl h
  | poster _ | owner _ => exact absurd rfl h

def postHolds : PostPc J → Bool
  | .outside => false
  | _ => true

def holdsGuard : Pc J → Bool
  | .worker _ _ .test | .worker _ _ .sleep | .worker _ _ .check | .worker _ _ .swap | .worker _ _ .pop
  | .worker _ _ .unlock | .worker _ _ .breakUnlock | .worker _ _ .undefined => true
  | .worker _ _ (.running p) => postHolds p
  | .poster p => postHolds p
  | _ => false

theorem discipline : Discipline (program J n) (fun _ => True) (fun p _ => holdsGuard p) := by
  refine ⟨fun m p c m' p' e _ h _ => ⟨trivial, ?_⟩, fun p h _ => ⟨trivial, ?_⟩⟩
  · cases next_moves h with
    | jobPosts h | posts h =>
      cases h <;>
        exact ⟨by funext u; simp [holdsGuard, postHolds, Effect.held], by simp [holdsGuard, postHolds]⟩
    | _ => exact ⟨by funext u; simp [holdsGuard, postHolds, Effect.held], by simp [holdsGuard]⟩
  · obtain ⟨k, job, rfl, hw⟩ := asleep_cases h
    rw [hw]
    rfl

/-- What the owner of `guard` knows at each place. -/
def Known (m : Members J) : Pc J → Prop
  | .worker _ _ .sleep => m.pendingJobs = []
  | .worker _ _ .check => m.pendingJobs ≠ [] ∨ m.isActive = false
  | .worker _ _ .swap | .worker _ _ .pop => m.pendingJobs ≠ []
  | .worker _ _ .undefined => False
  | _ => True

theorem moves_unlocked {m m' : Members J} {p p' : Pc J} {e : Effect Unit Unit} (h : Moves n m p m' p' e)
    (hp : holdsGuard p = false) :
    m'.pendingJobs = m.pendingJobs ∧ m'.posted = m.posted ∧ m'.dequeued = m.dequeued := by
  cases h with
  | jobPosts h | posts h => cases h <;> first | exact ⟨rfl, rfl, rfl⟩ | cases hp
  | pop | swap => cases hp
  | _ => exact ⟨rfl, rfl, rfl⟩

theorem moves_inactive {m m' : Members J} {p p' : Pc J} {e : Effect Unit Unit} (h : Moves n m p m' p' e)
    (hm : m.isActive = false) : m'.isActive = false := by
  cases h with
  | jobPosts h | posts h => cases h <;> exact hm
  | stop => rfl
  | _ => exact hm

variable [DecidableEq Q] [Fintype Q] {s s' : PoolState J n Q}

theorem owned (hs : Reachable (system J n Q) s) : Owned (fun p _ => holdsGuard p) s := by
  induction hs with
  | init h =>
    subst h
    intro m t
    cases t <;> simp [initial, holdsGuard, postHolds]
  | step _ h ih => exact (step_owned discipline h (fun _ => trivial) ih).2

theorem known (hs : Reachable (system J n Q) s) :
    ∀ t, holdsGuard (s.pc t) = true → Known s.shared (s.pc t) := by
  induction hs with
  | init h =>
    subst h
    intro t ht
    cases t <;> cases ht
  | @step s s' a hr h ih =>
    refine step_guarded (m := ()) (owned hr) ?_ ?_ ?_ h ih
    · intro p hp
      obtain ⟨k, job, rfl, hw⟩ := asleep_cases hp
      rw [hw]
      rfl
    · intro t c p e hn ht q hq
      have hm := next_moves hn
      obtain ⟨hpending, -, -⟩ := moves_unlocked hm ht
      cases q with
      | worker k job q =>
        cases q with
        | check => exact hq.imp (fun h => hpending ▸ h) (fun h => moves_inactive hm h)
        | sleep | swap | pop => simpa only [Known, hpending] using hq
        | _ => exact hq
      | poster _ | owner _ => trivial
    · intro t c p e hn hk _
      have hm := next_moves hn
      generalize s.pc t = q at hm hk
      generalize s'.shared = m' at hm ⊢
      cases hm with
      | ready h => exact h
      | idle h => exact h
      | stays ha =>
        obtain hne | hoff := hk rfl
        · exact hne
        · rw [ha] at hoff
          cases hoff
      | swap h => exact List.cons_ne_nil _ _
      | swapEmpty h => exact hk rfl h
      | _ => trivial

theorem system_step {β : Type} (f : Pc J → β)
    (hf : ∀ k job, f (.worker k job .awake) = f (.worker k job .asleep))
    {a : Action (Thread n Q) (Call J)} (h : (system J n Q).step s a = some s') :
    (∃ t p e, Moves n s.shared (s.pc t) s'.shared p e ∧ (e = .lock () → s.owner () = none) ∧
      f (s'.pc t) = f p ∧ ∀ u, u ≠ t → f (s'.pc u) = f (s.pc u)) ∨
    s'.shared = s.shared ∧ ∀ u, f (s'.pc u) = f (s.pc u) := by
  have hwake : ∀ p : Pc J, (program J n).asleep p ≠ none → f ((program J n).wake p) = f p := by
    intro p hp
    obtain ⟨k, job, rfl, hw⟩ := asleep_cases hp
    rw [hw, hf]
  obtain ⟨t, c, pick, p, e, -, hn, hl, hself, hother⟩ | ⟨-, hsh, hall⟩ := step_local f hwake h
  · exact .inl ⟨t, p, e, next_moves hn, hl (), hself, hother⟩
  · exact .inr ⟨hsh, hall⟩

def popping : Pc J → Option (PackagedTask J)
  | .worker _ job .pop => some job
  | _ => none

def Queued (m : Members J) (tasks : List (PackagedTask J)) : Prop :=
  m.posted.map .fresh = m.dequeued.map Prod.snd ++ tasks

theorem popping_holds {p : Pc J} {job : PackagedTask J} (h : popping p = some job) :
    holdsGuard p = true := by
  cases p with
  | worker k job p => cases p <;> first | rfl | cases h
  | poster _ | owner _ => cases h

inductive QueueStep (m m' : Members J) (p p' : Pc J) : Prop
  | same (hp : popping p = none) (hp' : popping p' = none) (hq : m'.pendingJobs = m.pendingJobs)
      (hposted : m'.posted = m.posted) (hdeq : m'.dequeued = m.dequeued)
  | swap {job front : PackagedTask J} {rest : List (PackagedTask J)} (hold : holdsGuard p = true)
      (hp : popping p = none) (hp' : popping p' = some front) (hq : m.pendingJobs = front :: rest)
      (hq' : m'.pendingJobs = job :: rest) (hposted : m'.posted = m.posted)
      (hdeq : m'.dequeued = m.dequeued)
  | pop {k : Nat} {job : PackagedTask J} (hp : popping p = some job) (hp' : popping p' = none)
      (hq : m'.pendingJobs = m.pendingJobs.tail) (hposted : m'.posted = m.posted)
      (hdeq : m'.dequeued = m.dequeued ++ [(k, job)])
  | emplace {job : J} (hold : holdsGuard p = true) (hp : popping p = none) (hp' : popping p' = none)
      (hq : m'.pendingJobs = m.pendingJobs ++ [.fresh job]) (hposted : m'.posted = m.posted ++ [job])
      (hdeq : m'.dequeued = m.dequeued)

theorem moves_queue {m m' : Members J} {p p' : Pc J} {e : Effect Unit Unit} (h : Moves n m p m' p' e) :
    QueueStep m m' p p' := by
  cases h with
  | swap h => exact .swap rfl rfl rfl h rfl rfl rfl
  | pop => exact .pop rfl rfl rfl rfl rfl
  | jobPosts h | posts h =>
    cases h with
    | emplace => exact .emplace rfl rfl rfl rfl rfl rfl
    | acquire | notify | unlock => exact .same rfl rfl rfl rfl rfl
  | _ => exact .same rfl rfl rfl rfl rfl

/-- The queue has the posted jobs in order, except that a worker between swap
and pop has the front and its old task is in the front's place. -/
theorem queued (hs : Reachable (system J n Q) s) :
    ((∀ t, popping (s.pc t) = none) → Queued s.shared s.shared.pendingJobs) ∧
      ∀ t job, popping (s.pc t) = some job → Queued s.shared (job :: s.shared.pendingJobs.tail) := by
  induction hs with
  | init h =>
    subst h
    refine ⟨fun _ => rfl, fun t job ht => ?_⟩
    cases t <;> cases ht
  | @step s s' a hr h ih =>
    obtain ⟨hfree, hpop⟩ := ih
    obtain ⟨t, p, e, hm, -, hself, hother⟩ | ⟨hsh, hall⟩ := system_step popping (fun _ _ => rfl) h
    · have hnone : holdsGuard (s.pc t) = true → popping (s.pc t) = none →
          ∀ u, popping (s.pc u) = none := by
        intro ht hp u
        by_contra hu
        obtain ⟨job, hu⟩ := Option.ne_none_iff_exists'.mp hu
        obtain rfl := (owned hr).unique (m := ()) (popping_holds hu) ht
        rw [hp] at hu
        cases hu
      cases moves_queue hm with
      | same hp hp' hq hposted hdeq =>
        have hall : ∀ u, popping (s'.pc u) = popping (s.pc u) := by
          intro u
          by_cases hut : u = t
          · rw [hut, hself, hp', hp]
          · exact hother u hut
        simpa only [hall, Queued, hq, hposted, hdeq] using And.intro hfree hpop
      | @swap job front rest hold hp hp' hq hq' hposted hdeq =>
        have hq1 := hfree (hnone hold hp)
        refine ⟨fun hno => ?_, fun u x hu => ?_⟩
        · have ht := hno t
          rw [hself, hp'] at ht
          cases ht
        · by_cases hut : u = t
          · rw [hut, hself, hp'] at hu
            cases hu
            simpa only [Queued, hq, hq', hposted, hdeq, List.tail_cons] using hq1
          · rw [hother u hut, hnone hold hp u] at hu
            cases hu
      | @pop k job hp hp' hq hposted hdeq =>
        have hq1 := hpop t job hp
        refine ⟨fun _ => ?_, fun u x hu => ?_⟩
        · simpa [Queued, hq, hposted, hdeq] using hq1
        · by_cases hut : u = t
          · rw [hut, hself, hp'] at hu
            cases hu
          · rw [hother u hut] at hu
            exact absurd ((owned hr).unique (m := ()) (popping_holds hu) (popping_holds hp)) hut
      | @emplace job hold hp hp' hq hposted hdeq =>
        have hq1 := hfree (hnone hold hp)
        refine ⟨fun _ => ?_, fun u x hu => ?_⟩
        · simp only [Queued] at hq1 ⊢
          rw [hposted, hdeq, hq, List.map_append, hq1, List.append_assoc]
          rfl
        · by_cases hut : u = t
          · rw [hut, hself, hp'] at hu
            cases hu
          · rw [hother u hut, hnone hold hp u] at hu
            cases hu
    · simpa only [hsh, hall] using And.intro hfree hpop

def Placed : Thread n Q → Pc J → Prop
  | .worker i, .worker k _ _ => k = i
  | .poster _, .poster _ => True
  | .owner, .owner _ => True
  | _, _ => False

omit [DecidableEq Q] [Fintype Q] in
theorem moves_placed {m m' : Members J} {p p' : Pc J} {e : Effect Unit Unit} (h : Moves n m p m' p' e)
    {t : Thread n Q} (hp : Placed t p) : Placed t p' := by
  cases t <;> cases h <;> exact hp

theorem placed (hs : Reachable (system J n Q) s) (t : Thread n Q) : Placed t (s.pc t) := by
  induction hs with
  | init h =>
    subst h
    cases t <;> trivial
  | @step s s' a _ h ih =>
    obtain ⟨u, p, e, hm, -, hself, hother⟩ | ⟨-, hall⟩ :=
      system_step (Placed t) (fun _ _ => by cases t <;> rfl) h
    · by_cases htu : t = u
      · subst htu
        exact hself ▸ moves_placed hm ih
      · exact hother t htu ▸ ih
    · exact hall t ▸ ih

theorem worker_place (hs : Reachable (system J n Q) s) {t : Thread n Q} {k : Nat} {job : PackagedTask J}
    {p : RunPc J} (h : s.pc t = .worker k job p) : ∃ i : Fin n, t = .worker i ∧ k = i := by
  have hp := placed hs t
  rw [h] at hp
  cases t with
  | worker i => exact ⟨i, rfl, hp⟩
  | poster _ | owner => cases hp

end RoblSampleCodes.ThreadPoolInvariant
