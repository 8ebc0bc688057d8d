import RoblSampleCodes.ThreadPoolOrder
import RoblSampleCodes.ThreadPoolWork

namespace RoblSampleCodes.ThreadPoolShutdown

open TransitionSystem ThreadCount ThreadProgram ThreadPool ThreadPoolInvariant ThreadPoolOrder
open ThreadPoolWork

variable {J Q : Type} {n : Nat}

def pastNotify : Pc J → Bool
  | .owner (.join _) | .owner .returned => true
  | _ => false

def fallingAsleep : Pc J → Bool
  | .worker _ _ .sleep => true
  | _ => false

def drowsy (p : Pc J) : Bool := fallingAsleep p || isAsleep p

def ownerPlace : Pc J → Option OwnerPc
  | .owner p => some p
  | _ => none

def OwnerKnown (n : Nat) (m : Members J) : Option OwnerPc → Prop
  | some (.construct k) => m.launched = k ∧ k ≤ n
  | some .alive => m.launched = n
  | some .notifyAll | some .returned => m.isActive = false ∧ m.launched = n
  | some (.join k) => m.isActive = false ∧ m.launched = n ∧ k ≤ n
  | none => True

theorem moves_ownerKnown {m m' : Members J} {p p' : Pc J} {e : Effect Unit Unit}
    (h : Moves n m p m' p' e) (hp : OwnerKnown n m (ownerPlace p)) : OwnerKnown n m' (ownerPlace p') := by
  cases h with
  | launch hk => exact ⟨rfl, hk⟩
  | constructed hk => exact hp.1.trans (Nat.le_antisymm hp.2 hk)
  | stop => exact ⟨rfl, hp⟩
  | notifyAll => exact ⟨hp.1, hp.2, Nat.zero_le n⟩
  | joined hk => exact ⟨hp.1, hp.2.1, hk⟩
  | returns => exact ⟨hp.1, hp.2.1⟩
  | _ => trivial

theorem moves_ownerKeeps {m m' : Members J} {p p' : Pc J} {e : Effect Unit Unit}
    (h : Moves n m p m' p' e) (hp : ownerPlace p = none) :
    m'.isActive = m.isActive ∧ m'.launched = m.launched := by
  cases h with
  | jobPosts h | posts h => cases h <;> exact ⟨rfl, rfl⟩
  | launch | constructed | stop | notifyAll | joined | returns => cases hp
  | _ => exact ⟨rfl, rfl⟩

section Step

variable [DecidableEq Q] [Fintype Q] {s s' : PoolState J n Q}

theorem ownerPlace_owner (hs : Reachable (system J n Q) s) {t : Thread n Q} (ht : t ≠ .owner) :
    ownerPlace (s.pc t) = none := by
  have hp := placed hs t
  cases hpc : s.pc t with
  | worker _ _ _ | poster _ => rfl
  | owner p =>
    rw [hpc] at hp
    cases t with
    | worker _ | poster _ => cases hp
    | owner => exact absurd rfl ht

theorem ownerKnown (hs : Reachable (system J n Q) s) :
    OwnerKnown n s.shared (ownerPlace (s.pc .owner)) := by
  induction hs with
  | init h =>
    subst h
    exact ⟨rfl, Nat.zero_le n⟩
  | @step s s' a hr h ih =>
    obtain ⟨t, p, e, hm, -, hself, hother⟩ | ⟨hsh, hall⟩ := system_step ownerPlace (fun _ _ => rfl) h
    · by_cases ht : t = .owner
      · subst ht
        rw [hself]
        exact moves_ownerKnown hm ih
      · obtain ⟨ha, hl⟩ := moves_ownerKeeps hm (ownerPlace_owner hr ht)
        rw [hother .owner (Ne.symm ht)]
        cases hp : ownerPlace (s.pc .owner) with
        | none => trivial
        | some q =>
          rw [hp] at ih
          cases q <;> simpa only [OwnerKnown, ha, hl] using ih
    · rw [hall, hsh]
      exact ih

/-- After `notify_all` the pool is not active and all workers are launched. -/
theorem pastNotify_known (hs : Reachable (system J n Q) s) (h : pastNotify (s.pc .owner) = true) :
    s.shared.isActive = false ∧ s.shared.launched = n := by
  have hk := ownerKnown hs
  cases hp : s.pc .owner with
  | owner p =>
    rw [hp] at h hk
    cases p with
    | join k => exact ⟨hk.1, hk.2.1⟩
    | returned => exact hk
    | construct _ | alive | notifyAll => cases h
  | worker _ _ _ | poster _ =>
    rw [hp] at h
    cases h

theorem drowsy_awake {p : Pc J} (h : (program J n).asleep p ≠ none) :
    drowsy ((program J n).wake p) = false := by
  obtain ⟨k, job, rfl, hw⟩ := asleep_cases h
  rw [hw]
  rfl

theorem moves_drowsy {m m' : Members J} {p p' : Pc J} {e : Effect Unit Unit} (h : Moves n m p m' p' e)
    (hm : m.isActive = false) (hp : drowsy p = false) : drowsy p' = false := by
  cases h with
  | idle _ ha =>
    rw [hm] at ha
    cases ha
  | sleep => cases hp
  | _ => rfl

/-- When the destructor calls `notify_all`, no worker is between evaluating the
predicate and sleeping. -/
def Attentive (s : PoolState J n Q) (a : Action (Thread n Q) (Call J)) : Prop :=
  ∀ c pick, a = .run .owner c pick → s.pc .owner = .owner .notifyAll →
    ∀ i : Fin n, fallingAsleep (s.pc (.worker i)) = false

theorem moves_pastNotify {m m' : Members J} {p p' : Pc J} {e : Effect Unit Unit}
    (h : Moves n m p m' p' e) (hp : pastNotify p = false) (hp' : pastNotify p' = true) :
    p = .owner .notifyAll ∧ p' = .owner (.join 0) ∧ e = .notifyAll () := by
  cases h with
  | notifyAll => exact ⟨rfl, rfl, rfl⟩
  | joined | returns => cases hp
  | _ => cases hp'

theorem falling_worker (hs : Reachable (system J n Q) s) {t : Thread n Q}
    (h : fallingAsleep (s.pc t) = true) : ∃ i, t = .worker i := by
  have hp := placed hs t
  cases hpc : s.pc t with
  | worker k job p =>
    obtain ⟨i, ht, -⟩ := worker_place hs hpc
    exact ⟨i, ht⟩
  | poster _ | owner _ =>
    rw [hpc] at h
    cases h

theorem awake_pastNotify (hs : ReachableBy (system J n Q) Attentive s)
    (h : pastNotify (s.pc .owner) = true) (t : Thread n Q) : drowsy (s.pc t) = false := by
  induction hs generalizing t with
  | init hi =>
    subst hi
    cases h
  | @step s s' a hr hc hstep ih =>
    cases hpast : pastNotify (s.pc .owner) with
    | true =>
      obtain hw | ⟨hsl, hw⟩ | ⟨c, pick, e, p, -, hn, hw⟩ := step_pc hstep t
      · exact hw ▸ ih hpast t
      · exact hw ▸ drowsy_awake hsl
      · have hp := moves_drowsy (next_moves hn) (pastNotify_known hr.reachable hpast).1 (ih hpast t)
        obtain hw | ⟨hsl, hw⟩ := hw
        · exact hw ▸ hp
        · exact hw ▸ drowsy_awake hsl
    | false =>
      obtain ⟨u, c, pick, p, e, ha, hn, -, -, hd⟩ | ⟨u, -, hsl, -, -, hp⟩ := step_cases hstep
      · have hm := next_moves hn
        have howner := hd.woken.congr pastNotify
          (fun p hp => by obtain ⟨k, job, rfl, hw⟩ := asleep_cases hp; rw [hw]; rfl) .owner
        by_cases hu : u = .owner
        · subst hu
          rw [h, Function.update_self] at howner
          obtain ⟨hplace, rfl, rfl⟩ := moves_pastNotify hm hpast howner.symm
          -- everyone asleep is woken, and nobody was falling asleep
          have hsleep : isAsleep (s'.pc t) = false := by
            by_contra hs
            exact hd.notifyAll_wakes t (isAsleep_some (Bool.eq_true_of_not_eq_false hs))
          have hfall : fallingAsleep (s'.pc t) = false := by
            obtain hw | ⟨hsl, hw⟩ := hd.woken t
            · rw [hw]
              by_cases ht : t = .owner
              · subst ht
                rw [Function.update_self]
                rfl
              · rw [Function.update_of_ne ht]
                by_contra hf
                obtain ⟨i, rfl⟩ := falling_worker hr.reachable (Bool.eq_true_of_not_eq_false hf)
                exact hf (hc c pick ha hplace i)
            · rw [hw]
              exact (Bool.or_eq_false_iff.mp (drowsy_awake hsl)).1
          exact Bool.or_eq_false_iff.mpr ⟨hfall, hsleep⟩
        · rw [Function.update_of_ne (Ne.symm hu), hpast, h] at howner
          cases howner
      · have howner := (woken_update hsl).congr pastNotify
          (fun p hp => by obtain ⟨k, job, rfl, hw⟩ := asleep_cases hp; rw [hw]; rfl) .owner
        rw [← hp, hpast, h] at howner
        cases howner

end Step

def postRank : PostPc J → Nat
  | .outside => 0
  | .unlock => 1
  | .notify => 2
  | .emplace _ => 3

def runRank : RunPc J → Nat
  | .exited | .sleep | .asleep | .undefined | .terminated => 0
  | .leave => 1
  | .loop | .breakUnlock => 2
  | .created | .check => 3
  | .test => 4
  | .acquire | .awake => 5
  | .running p => 3 + postRank p
  | .invoke => 4
  | .unlock => 5
  | .pop => 6
  | .swap => 7

def ownerRank (n : Nat) : OwnerPc → Nat
  | .join k => n + 1 - k
  | _ => 0

def rank (n : Nat) : Pc J → Nat
  | .worker _ _ p => runRank p
  | .poster p => postRank p
  | .owner p => ownerRank n p

theorem moves_rank {m m' : Members J} {p p' : Pc J} {e : Effect Unit Unit}
    (hn : next n m p .finish = some (m', p', e)) (h : Moves n m p m' p' e)
    (hoff : m.isActive = false) (hawake : drowsy p = false)
    (howner : ∀ q, ownerPlace p = some q → pastNotify p = true ∧ OwnerKnown n m (some q)) :
    rank n p' < rank n p := by
  cases h with
  | active ha | stays ha | idle _ ha =>
    rw [hoff] at ha
    cases ha
  | sleep => cases hawake
  | launch | constructed | stop | notifyAll =>
    obtain ⟨hp, -⟩ := howner _ rfl
    cases hp
  | joined hk =>
    simp only [rank, ownerRank]
    omega
  | returns =>
    obtain ⟨-, -, -, hk⟩ := howner _ rfl
    simp only [rank, ownerRank]
    omega
  | jobPosts h =>
    cases h with
    | acquire => cases hn
    | emplace | notify | unlock => simp [rank, runRank, postRank]
  | posts h =>
    cases h with
    | acquire => cases hn
    | emplace | notify | unlock => simp [rank, postRank]
  | _ => simp [rank, runRank, postRank]

/-- The destructor is past `notify_all` and no worker is stranded. -/
structure Draining [DecidableEq Q] [Fintype Q] (s : PoolState J n Q) : Prop where
  reachable : Reachable (system J n Q) s
  past : pastNotify (s.pc .owner) = true
  awake : ∀ t, drowsy (s.pc t) = false

def Finishes (a : Action (Thread n Q) (Call J)) : Prop := ∃ t pick, a = .run t .finish pick

section Drain

variable [DecidableEq Q] [Fintype Q] {s s' : PoolState J n Q}

theorem Draining.owner (hs : Draining s) {t : Thread n Q} {q : OwnerPc}
    (h : ownerPlace (s.pc t) = some q) :
    pastNotify (s.pc t) = true ∧ OwnerKnown n s.shared (some q) := by
  obtain rfl : t = .owner := by
    by_contra ht
    rw [ownerPlace_owner hs.reachable ht] at h
    cases h
  exact ⟨hs.past, h ▸ ownerKnown hs.reachable⟩

theorem moves_past {m m' : Members J} {p p' : Pc J} {e : Effect Unit Unit} (h : Moves n m p m' p' e)
    (hp : pastNotify p = true) : pastNotify p' = true := by
  cases h with
  | joined | returns => rfl
  | _ => cases hp

theorem Draining.step (hs : Draining s) {a : Action (Thread n Q) (Call J)} (hA : Finishes a)
    (h : (system J n Q).step s a = some s') :
    Draining s' ∧ total (rank n) s'.pc < total (rank n) s.pc := by
  have hoff := (pastNotify_known hs.reachable hs.past).1
  obtain ⟨t, c, pick, p, e, rfl, hn, -, -, hd⟩ | ⟨u, rfl, -⟩ := step_cases h
  · obtain ⟨_, _, ha⟩ := hA
    cases ha
    have hm := next_moves hn
    have hp := moves_drowsy hm hoff (hs.awake t)
    -- nobody sleeps, so nobody is woken
    have hupd : ∀ v, drowsy (Function.update s.pc t p v) = false := by
      intro v
      by_cases hv : v = t
      · subst hv
        rwa [Function.update_self]
      · rw [Function.update_of_ne hv]
        exact hs.awake v
    have hpc : s'.pc = Function.update s.pc t p := by
      funext v
      apply hd.woken.awake
      by_contra hsl
      obtain ⟨k, job, hv, -⟩ := asleep_cases hsl
      have hv' := hupd v
      rw [hv] at hv'
      cases hv'
    refine ⟨⟨hs.reachable.step h, ?_, fun v => hpc ▸ hupd v⟩, ?_⟩
    · rw [hpc]
      by_cases ht : t = .owner
      · subst ht
        rw [Function.update_self]
        exact moves_past hm hs.past
      · rw [Function.update_of_ne (Ne.symm ht)]
        exact hs.past
    · have hlt := moves_rank hn hm hoff (hs.awake t) (fun q hq => hs.owner hq)
      have hsum := total_update (rank n) s.pc t p
      rw [hpc]
      omega
  · obtain ⟨_, _, ha⟩ := hA
    cases ha

theorem moves_leave {m m' : Members J} {p p' : Pc J} {e : Effect Unit Unit} (h : Moves n m p m' p' e)
    (hp : isExited p' = true) :
    ∃ k job, p = .worker k job .leave ∧ m'.exited = Function.update m.exited k true := by
  cases h with
  | leave => exact ⟨_, _, rfl, rfl⟩
  | _ => cases hp

theorem exited_shared (hs : Reachable (system J n Q) s) (i : Fin n)
    (hi : isExited (s.pc (.worker i)) = true) : s.shared.exited i = true := by
  induction hs with
  | init h =>
    subst h
    cases hi
  | @step s s' a hr h ih =>
    obtain ⟨t, p, e, hm, -, hself, hother⟩ | ⟨hsh, hall⟩ := system_step isExited (fun _ _ => rfl) h
    · by_cases ht : .worker i = t
      · subst ht
        obtain ⟨k, job, hp, he⟩ := moves_leave hm (hself.symm.trans hi)
        obtain ⟨j, hj, rfl⟩ := worker_place hr hp
        cases hj
        rw [he, Function.update_self]
      · have hold := ih (hother _ ht ▸ hi)
        obtain ⟨-, he | ⟨k, job, hp, he, -⟩⟩ := moves_exited hm
        · rwa [he]
        · rw [he, Function.update_apply, hold, ite_self]
    · rw [hsh]
      exact ih (hall _ ▸ hi)

inductive Rests (n : Nat) (m : Members J) : Pc J → Prop
  | outside : Rests n m (.poster .outside)
  | created {k : Nat} {job : PackagedTask J} (h : m.launched ≤ k) : Rests n m (.worker k job .created)
  | asleep {k : Nat} {job : PackagedTask J} : Rests n m (.worker k job .asleep)
  | exited {k : Nat} {job : PackagedTask J} : Rests n m (.worker k job .exited)
  | terminated {p : Pc J} (h : isTerminated p = true) : Rests n m p
  | joins {k : Nat} (hk : k < n) (h : m.exited k = false) : Rests n m (.owner (.join k))
  | returned : Rests n m (.owner .returned)

theorem next_none {m : Members J} {p : Pc J} (h : (program J n).next m p .finish = none) :
    Rests n m p := by
  change next n m p .finish = none at h
  cases p with
  | worker k job p =>
    simp only [next, Option.map_eq_none_iff] at h
    cases p with
    | created =>
      simp only [run, ite_eq_right_iff, reduceCtorEq, imp_false, Nat.not_lt] at h
      exact .created h
    | swap =>
      simp only [run] at h
      split at h <;> cases h
    | invoke => cases job <;> cases h
    | running q => cases q <;> cases h
    | asleep => exact .asleep
    | exited => exact .exited
    | undefined | terminated => exact .terminated rfl
    | loop | acquire | test | sleep | awake | check | pop | unlock | breakUnlock | leave => cases h
  | poster p =>
    cases p with
    | outside => exact .outside
    | emplace _ | notify | unlock => cases h
  | owner p =>
    simp only [next, Option.map_eq_none_iff] at h
    cases p with
    | construct k =>
      simp only [owner] at h
      split at h <;> cases h
    | join k =>
      simp only [owner] at h
      split at h
      · split at h
        · cases h
        · exact .joins ‹_› (Bool.eq_false_of_not_eq_true ‹_›)
      · cases h
    | alive | notifyAll => cases h
    | returned => exact .returned

theorem rests_unlocked {m : Members J} {p : Pc J} (h : Rests n m p) (hp : isTerminated p = false) :
    holdsGuard p = false := by
  cases h with
  | terminated h =>
    rw [hp] at h
    cases h
  | _ => rfl

theorem moves_lock {m m' : Members J} {p p' : Pc J} (h : Moves n m p m' p' (.lock ())) :
    holdsGuard p = false := by
  cases h with
  | jobPosts h | posts h =>
    cases h
    rfl
  | _ => rfl

/-- When nobody can run any more, the destructor has returned: the guard is
free, so the workers have left `run`. -/
theorem Draining.returned (hs : Draining s)
    (hend : ∀ a, Finishes a → ¬ Enabled (system J n Q) s a) : s.pc .owner = .owner .returned := by
  have hrun : ∀ t m' p e, (program J n).next s.shared (s.pc t) .finish = some (m', p, e) →
      e = .lock () ∧ s.owner () ≠ none := by
    intro t m' p e hn
    by_contra hno
    obtain ⟨pick, h⟩ : ∃ pick, Enabled (system J n Q) s (.run t .finish pick) :=
      exists_enabled hn (fun g hg => by_contra (fun ho => hno ⟨hg, ho⟩))
    exact hend _ ⟨t, pick, rfl⟩ h
  have hrests : ∀ t, s.owner () = none → Rests n s.shared (s.pc t) := by
    intro t hfree
    cases hn : (program J n).next s.shared (s.pc t) .finish with
    | none => exact next_none hn
    | some x => exact absurd hfree (hrun t _ _ _ hn).2
  have hfree : s.owner () = none := by
    by_contra hg
    obtain ⟨t, ht⟩ := Option.ne_none_iff_exists'.mp hg
    have hh := (owned hs.reachable () t).mp ht
    have hno : holdsGuard (s.pc t) = false := by
      cases hn : (program J n).next s.shared (s.pc t) .finish with
      | none => exact rests_unlocked (next_none hn) (not_terminated hs.reachable t)
      | some x =>
        obtain ⟨m', p, e⟩ := x
        obtain ⟨rfl, -⟩ := hrun t _ _ _ hn
        exact moves_lock (next_moves hn)
    exact Bool.false_ne_true (hno.symm.trans hh)
  have hexit : ∀ i : Fin n, s.shared.exited i = true := by
    intro i
    have hlaunched := (pastNotify_known hs.reachable hs.past).2
    have hplace := placed hs.reachable (.worker i)
    have hok := not_terminated hs.reachable (.worker i)
    have hawake := hs.awake (.worker i)
    have hr := hrests (.worker i) hfree
    apply exited_shared hs.reachable
    generalize s.pc (.worker i) = p at hplace hok hawake hr
    cases hr with
    | exited => rfl
    | created hk =>
      have hlt := i.isLt
      rw [hplace] at hk
      omega
    | asleep => cases hawake
    | terminated h =>
      rw [hok] at h
      cases h
    | outside | joins | returned => cases hplace
  have hplace := placed hs.reachable .owner
  have hok := not_terminated hs.reachable .owner
  have hr := hrests .owner hfree
  generalize s.pc .owner = p at hplace hok hr
  cases hr with
  | returned => rfl
  | joins hk h =>
    rw [hexit ⟨_, hk⟩] at h
    cases h
  | terminated h =>
    rw [hok] at h
    cases h
  | outside | created | asleep | exited => cases hplace

theorem Draining.returns (hs : Draining s) :
    ∃ as t, exec (system J n Q) s as = some t ∧ t.pc .owner = .owner .returned := by
  obtain ⟨as, t, he, ht, hend⟩ := exists_drained Finishes Draining (fun s => total (rank n) s.pc)
    (fun s a s' hs hA h => hs.step hA h) hs
  exact ⟨as, t, he, ht.returned hend⟩

/-- Past `notify_all`, no worker sleeps without a notification and every join
can return. -/
def NeverStrands (s : PoolState J n Q) : Prop :=
  pastNotify (s.pc .owner) = true →
    (∀ i : Fin n, isAsleep (s.pc (.worker i)) = false) ∧
      ∃ as t, exec (system J n Q) s as = some t ∧ t.pc .owner = .owner .returned

theorem missed_strands {a : Action (Thread n Q) (Call J)} (h : (system J n Q).step s a = some s')
    (ha : ¬ Attentive s a) : ∃ b t, (system J n Q).step s' b = some t ∧ ¬ NeverStrands t := by
  have hcases := step_cases h
  unfold Attentive at ha
  push Not at ha
  obtain ⟨c, pick, rfl, howner, i, hi⟩ := ha
  obtain ⟨k, job, hw⟩ : ∃ k job, s.pc (.worker i) = .worker k job .sleep := by
    cases hp : s.pc (.worker i) with
    | worker k job p =>
      rw [hp] at hi
      cases p <;> first | exact ⟨k, job, rfl⟩ | exact absurd rfl hi
    | poster _ | owner _ =>
      rw [hp] at hi
      exact absurd rfl hi
  obtain ⟨t, c', pick', p, e, hact, hn, -, -, hd⟩ | ⟨_, hact, -⟩ := hcases
  · cases hact
    rw [howner] at hn
    change some (s.shared, Pc.owner (.join 0), Effect.notifyAll ()) = some (s'.shared, p, e) at hn
    simp only [Option.some.injEq, Prod.mk.injEq] at hn
    obtain ⟨-, rfl, rfl⟩ := hn
    have hself := hd.woken.self rfl
    have hother := hd.woken.other (u := .worker i) (by simp) (by rw [hw]; rfl)
    have hstep : (system J n Q).step s' (.run (.worker i) .finish none) =
        some ⟨s'.shared, Function.update s'.owner () none,
          Function.update s'.pc (.worker i) (.worker k job .asleep)⟩ := by
      simp [system, Program.system, Program.step, program, next, run, hother, hw, Effect.enabled,
        Program.deliver, Effect.owner]
    refine ⟨_, _, hstep, fun hno => ?_⟩
    obtain ⟨hawake, -⟩ := hno (by simp [hself, pastNotify])
    have hi := hawake i
    simp [isAsleep, asleep] at hi
  · cases hact

/-- Past `notify_all` no worker is stranded, in every run in which
`notify_all` is not called while a worker is between evaluating the predicate
and sleeping. A call at such a moment strands the worker. -/
theorem shutdown_neverStrands :
    (∀ s : PoolState J n Q, ReachableBy (system J n Q) Attentive s → NeverStrands s) ∧
      ∀ (s s' : PoolState J n Q) (a : Action (Thread n Q) (Call J)), Reachable (system J n Q) s →
        (system J n Q).step s a = some s' → ¬ Attentive s a →
          ∃ b t, (system J n Q).step s' b = some t ∧ ¬ NeverStrands t := by
  refine ⟨fun s hs hpast => ?_, fun s s' a _ h ha => missed_strands h ha⟩
  have hawake := awake_pastNotify hs hpast
  have hdrain : Draining s := ⟨hs.reachable, hpast, hawake⟩
  exact ⟨fun i => (Bool.or_eq_false_iff.mp (hawake (.worker i))).2, hdrain.returns⟩

/-- The worker evaluates the predicate before the destructor clears `is_active`,
and sleeps after `notify_all`. Then nobody can run. -/
theorem stranded_worker :
    ∃ s, Reachable (system Nat 1 Empty) s ∧ ¬ NeverStrands s ∧
      ∀ t c pick, ¬ Enabled (system Nat 1 Empty) s (.run t c pick) := by
  obtain ⟨s, hs, howner, hworker, hexit⟩ : ∃ s, Reachable (system Nat 1 Empty) s ∧
      s.pc .owner = .owner (.join 0) ∧ s.pc (.worker 0) = .worker 0 .empty .asleep ∧
      s.shared.exited 0 = false :=
    exists_reachable rfl ([List.replicate 2 (.run .owner .finish none),
      List.replicate 4 (.run (.worker 0) .finish none), List.replicate 2 (.run .owner .finish none),
      [.run (.worker 0) .finish none]].flatten) (by decide +kernel)
  refine ⟨s, hs, fun hno => ?_, fun t c pick => not_enabled ?_ pick⟩
  · obtain ⟨hawake, -⟩ := hno (by rw [howner]; rfl)
    have h0 := hawake 0
    rw [hworker] at h0
    cases h0
  · cases t with
    | worker i =>
      obtain rfl := Subsingleton.elim i 0
      rw [hworker]
      rfl
    | poster q => exact q.elim
    | owner =>
      rw [howner]
      simp [program, next, owner, hexit]

end Drain

end RoblSampleCodes.ThreadPoolShutdown
