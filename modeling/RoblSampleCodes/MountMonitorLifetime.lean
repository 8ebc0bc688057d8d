import RoblSampleCodes.MountMonitorRounds

namespace RoblSampleCodes.MountMonitorLifetime

open TransitionSystem TaskProgram MountMonitor MountMonitorSystem MountMonitorRounds

inductive Member
  | isMonitoring
  | isMounted
  | monitorThread
  | callbacksMutex (kind : Kind)
  | callbacks (kind : Kind)
  deriving DecidableEq

/-- The members in the order of their declarations, in which they are constructed. -/
def declared : List Member :=
  [.isMonitoring, .isMounted, .monitorThread, .callbacksMutex .mount, .callbacks .mount,
    .callbacksMutex .unmount, .callbacks .unmount]

/-- The object, with the members that are constructed and not destroyed. It is `usable` after the
constructor and before the destructor, and `callers` are within a public function. -/
structure Object (F : Type) where
  members : Members F
  isMonitoring : Bool
  monitorThread : Nat
  alive : Member → Bool
  usable : Bool
  callers : Nat

inductive OwnerPc
  | construct (i : Nat)
  | use
  | stop
  | join
  | destroy (i : Nat)
  deriving DecidableEq

/-- The thread that owns the object, `Monitor` at the head of its loop, and the places within the
loop and within the other threads. -/
inductive ObjectPc (F : Type)
  | owner (p : OwnerPc)
  | head (lastMountedState : Bool)
  | within (p : Pc F)
  deriving DecidableEq

variable {F Q : Type}

def construct (o : Object F) (n : Nat) : Member → Object F × Effect Kind (ObjectPc F)
  | .isMonitoring => ({ o with isMonitoring := true }, .none)
  | .isMounted => ({ o with members := { o.members with isMounted := false } }, .none)
  | .monitorThread => ({ o with monitorThread := n }, .spawn (.head false))
  | .callbacksMutex _ => (o, .none)
  | .callbacks kind =>
    let callbacks := Function.update o.members.callbacks kind []
    ({ o with members := { o.members with callbacks := callbacks } }, .none)

def Object.setAlive (o : Object F) (x : Member) (b : Bool) : Object F :=
  { o with alive := Function.update o.alive x b }

def owner (o : Object F) (n : Nat) : OwnerPc → Option (Object F × ObjectPc F × Effect Kind (ObjectPc F))
  | .construct i =>
    match declared[i]? with
    | some x =>
      some ((construct o n x).1.setAlive x true, .owner (.construct (i + 1)), (construct o n x).2)
    | none => some ({ o with usable := true }, .owner .use, .none)
  | .use => if o.callers = 0 then some ({ o with usable := false }, .owner .stop, .none) else none
  | .stop => some ({ o with isMonitoring := false }, .owner .join, .none)
  | .join => some (o, .owner (.destroy declared.length), .join o.monitorThread)
  | .destroy 0 => some (o, .within .finished, .none)
  | .destroy (i + 1) =>
    match declared[i]? with
    | some x => some (o.setAlive x false, .owner (.destroy i), .none)
    | none => some (o, .owner (.destroy i), .none)

def resume : Pc F → ObjectPc F
  | .monitor (.sample last) => .head last
  | p => .within p

def calling : Pc F → Nat
  | .client .outside => 0
  | .client _ => 1
  | _ => 0

/-- The clients begin a call only while the object is usable. -/
def mayStep (usable : Bool) : Pc F → Bool
  | .client .outside => usable
  | _ => true

def next (o : Object F) (n : Nat) :
    ObjectPc F → Option (Call F) → Option (Object F × ObjectPc F × Effect Kind (ObjectPc F))
  | .owner p, _ => owner o n p
  | .head last, _ =>
    some (o, if o.isMonitoring then .within (.monitor (.sample last)) else .within .finished, .none)
  | .within p, c =>
    if mayStep o.usable p then
      (MountMonitorSystem.next o.members n p c).map (fun (m, p', e) =>
        ({ o with members := m, callers := o.callers + calling p' - calling p }, resume p',
          e.map .within))
    else none

def done : ObjectPc F → Bool
  | .within .finished => true
  | _ => false

theorem next_done (o : Object F) (n : Nat) (p : ObjectPc F) (c : Option (Call F)) (h : done p = true) :
    next o n p c = none := by
  cases p with
  | within p =>
    cases p with
    | finished => rfl
    | monitor _ | client _ | task _ _ => cases h
  | owner _ | head _ => cases h

def program (F : Type) : Program (Object F) (ObjectPc F) (Option (Call F)) Kind where
  next := next
  done := done
  rest := .within .finished
  rest_done := rfl
  next_done := next_done

inductive Main (Q : Type)
  | owner
  | client (q : Q)
  deriving DecidableEq

abbrev ObjectState (F Q : Type) := State (Object F) (ObjectPc F) Kind (Main Q)

/-- The storage of the object holds anything. -/
structure Initial (s : ObjectState F Q) : Prop where
  alive : ∀ x, s.shared.alive x = false
  usable : s.shared.usable = false
  callers : s.shared.callers = 0
  mutexes : ∀ kind, s.owner kind = none
  spawned : s.spawned = 0
  owner : s.pc (.main .owner) = .owner (.construct 0)
  client : ∀ q, s.pc (.main (.client q)) = .within (.client .outside)
  task : ∀ n, s.pc (.task n) = .within .finished

def initial (F Q : Type) : ObjectState F Q where
  shared := ⟨⟨true, fun _ => [], [], [], []⟩, false, 0, fun _ => false, false, 0⟩
  owner := fun _ => none
  spawned := 0
  pc
    | .main .owner => .owner (.construct 0)
    | .main (.client _) => .within (.client .outside)
    | .task _ => .within .finished

theorem initial_initial (F Q : Type) : Initial (initial F Q) :=
  ⟨fun _ => rfl, rfl, rfl, fun _ => rfl, rfl, rfl, fun _ => rfl, fun _ => rfl⟩

def system (F Q : Type) [DecidableEq Q] :
    System (ObjectState F Q) (TaskProgram.Action (Main Q) (Option (Call F))) := (program F).system Initial

def uses : ObjectPc F → List Member
  | .head _ => [.isMonitoring]
  | .within (.monitor (.sample _)) => [.isMounted]
  | .within (.monitor (.lock kind _)) | .within (.monitor (.unlock kind _ _)) => [.callbacksMutex kind]
  | .within (.monitor (.launch kind _ _ _)) | .within (.monitor (.erase kind _ _)) => [.callbacks kind]
  | _ => []

theorem eq_of_done {p : ObjectPc F} (h : done p = true) : p = .within .finished := by
  cases p with
  | within p =>
    cases p with
    | finished => rfl
    | monitor _ | client _ | task _ _ => cases h
  | owner _ | head _ => cases h

inductive Role
  | owner
  | monitor
  | client
  | task
  | finished
  deriving DecidableEq

def role : ObjectPc F → Role
  | .owner _ => .owner
  | .head _ | .within (.monitor _) => .monitor
  | .within (.client _) => .client
  | .within (.task _ _) => .task
  | .within .finished => .finished

def harmless : ObjectPc F → Bool
  | .head last | .within (.monitor (.sample last)) | .within (.monitor (.sleep last)) => !last
  | .within (.monitor _) | .within (.task _ _) => false
  | _ => true

def Member.rank : Member → Nat
  | .isMonitoring => 0
  | .isMounted => 1
  | .monitorThread => 2
  | .callbacksMutex .mount => 3
  | .callbacks .mount => 4
  | .callbacksMutex .unmount => 5
  | .callbacks .unmount => 6

theorem declared_rank (x : Member) : declared[x.rank]? = some x := by
  cases x with
  | callbacksMutex kind | callbacks kind => cases kind <;> rfl
  | _ => rfl

theorem rank_eq_iff {i : Nat} {x : Member} (h : declared[i]? = some x) (y : Member) :
    y.rank = i ↔ y = x := by
  have hlt := (List.getElem?_eq_some_iff.mp h).1
  constructor
  · rintro rfl
    exact Option.some.inj ((declared_rank y).symm.trans h)
  · rintro rfl
    exact ((List.getElem?_inj hlt (by decide)).mp (h.trans (declared_rank y).symm)).symm

theorem rank_lt (x : Member) : x.rank < declared.length :=
  (List.getElem?_eq_some_iff.mp (declared_rank x)).1

def AliveUpTo (o : Object F) (i : Nat) : Prop := ∀ x, o.alive x = true ↔ x.rank < i

def NoMonitor (s : ObjectState F Q) : Prop := ∀ t, role (s.pc t) ≠ .monitor

structure Constructing (s : ObjectState F Q) (i : Nat) : Prop where
  alive : AliveUpTo s.shared i
  usable : s.shared.usable = false
  isMounted : 2 ≤ i → s.shared.members.isMounted = false
  noMonitor : i ≤ 2 → NoMonitor s
  threads : ∀ t, harmless (s.pc t) = true

structure Destroying (s : ObjectState F Q) (i : Nat) : Prop where
  alive : AliveUpTo s.shared i
  noMonitor : NoMonitor s

def Phase (s : ObjectState F Q) : ObjectPc F → Prop
  | .owner (.construct i) => Constructing s i
  | .owner .use | .owner .stop | .owner .join => AliveUpTo s.shared declared.length
  | .owner (.destroy i) => Destroying s i
  | .within .finished => NoMonitor s
  | _ => False

structure Inv (s : ObjectState F Q) : Prop where
  fresh : Fresh (program F) s
  owner : ∀ t, role (s.pc t) = .owner → t = .main .owner
  monitor : ∀ t, role (s.pc t) = .monitor → t = .task s.shared.monitorThread
  phase : Phase s (s.pc (.main .owner))

variable {s s' : ObjectState F Q} {t u : Thread (Main Q)}

theorem AliveUpTo.update {o : Object F} {i j : Nat} {x : Member} {b : Bool} (h : AliveUpTo o i)
    (hself : b = true ↔ x.rank < j) (hother : ∀ y ≠ x, y.rank < i ↔ y.rank < j) :
    AliveUpTo (o.setAlive x b) j := by
  intro y
  by_cases hyx : y = x
  · simp only [hyx, Object.setAlive, Function.update_self]
    exact hself
  · simp only [Object.setAlive, Function.update_of_ne hyx]
    exact (h y).trans (hother y hyx)

theorem AliveUpTo.setAlive {o : Object F} {i : Nat} {x : Member} (h : AliveUpTo o i)
    (hx : declared[i]? = some x) : AliveUpTo (o.setAlive x true) (i + 1) := by
  have hrank := (rank_eq_iff hx x).mpr rfl
  refine h.update (by simp [hrank]) (fun y hyx => ?_)
  have hne : y.rank ≠ i := fun hy => hyx ((rank_eq_iff hx y).mp hy)
  omega

theorem AliveUpTo.setDead {o : Object F} {i : Nat} {x : Member} (h : AliveUpTo o (i + 1))
    (hx : declared[i]? = some x) : AliveUpTo (o.setAlive x false) i := by
  have hrank := (rank_eq_iff hx x).mpr rfl
  refine h.update (by simp [hrank]) (fun y hyx => ?_)
  have hne : y.rank ≠ i := fun hy => hyx ((rank_eq_iff hx y).mp hy)
  omega

inductive Owns (o : Object F) (n : Nat) :
    OwnerPc → Object F → ObjectPc F → Effect Kind (ObjectPc F) → Prop
  | construct {i : Nat} {x : Member} (h : declared[i]? = some x) :
      Owns o n (.construct i) ((construct o n x).1.setAlive x true) (.owner (.construct (i + 1)))
        (construct o n x).2
  | constructed {i : Nat} (h : declared[i]? = none) :
      Owns o n (.construct i) { o with usable := true } (.owner .use) .none
  | stop (h : o.callers = 0) : Owns o n .use { o with usable := false } (.owner .stop) .none
  | join : Owns o n .stop { o with isMonitoring := false } (.owner .join) .none
  | joined : Owns o n .join o (.owner (.destroy declared.length)) (.join o.monitorThread)
  | destroyed : Owns o n (.destroy 0) o (.within .finished) .none
  | destroy {i : Nat} {x : Member} (h : declared[i]? = some x) :
      Owns o n (.destroy (i + 1)) (o.setAlive x false) (.owner (.destroy i)) .none
  | skip {i : Nat} (h : declared[i]? = none) :
      Owns o n (.destroy (i + 1)) o (.owner (.destroy i)) .none

section Moves

variable {o o' : Object F} {n : Nat} {p p' : ObjectPc F} {e : Effect Kind (ObjectPc F)}
  {c : Option (Call F)}

theorem owner_owns {q : OwnerPc} (h : owner o n q = some (o', p', e)) : Owns o n q o' p' e := by
  cases q with
  | construct i =>
    cases hi : declared[i]? with
    | none =>
      simp only [owner, hi, Option.some.injEq, Prod.mk.injEq] at h
      obtain ⟨rfl, rfl, rfl⟩ := h
      exact .constructed hi
    | some x =>
      simp only [owner, hi, Option.some.injEq, Prod.mk.injEq] at h
      obtain ⟨rfl, rfl, rfl⟩ := h
      exact .construct hi
  | use =>
    rw [owner, Option.ite_none_right_eq_some] at h
    obtain ⟨hcallers, h⟩ := h
    cases h
    exact .stop hcallers
  | stop | join =>
    cases h
    constructor
  | destroy i =>
    cases i with
    | zero =>
      cases h
      exact .destroyed
    | succ i =>
      cases hi : declared[i]? with
      | none =>
        simp only [owner, hi, Option.some.injEq, Prod.mk.injEq] at h
        obtain ⟨rfl, rfl, rfl⟩ := h
        exact .skip hi
      | some x =>
        simp only [owner, hi, Option.some.injEq, Prod.mk.injEq] at h
        obtain ⟨rfl, rfl, rfl⟩ := h
        exact .destroy hi

structure Runs (o : Object F) (p : ObjectPc F) (o' : Object F) (p' : ObjectPc F)
    (e : Effect Kind (ObjectPc F)) : Prop where
  alive : o'.alive = o.alive
  usable : o'.usable = o.usable
  monitorThread : o'.monitorThread = o.monitorThread
  remains : role p' = role p ∨ role p' = .finished
  spawns : ∀ p₀, e = .spawn p₀ → role p₀ = .task
  stays : harmless p = true → o.usable = false → (role p = .monitor → o.members.isMounted = false) →
    harmless p' = true ∧ o'.members.isMounted = o.members.isMounted ∧ ∀ p₀, e ≠ .spawn p₀

theorem role_resume (q : Pc F) : role (resume q) = role (.within q) := by
  cases q with
  | monitor q => cases q <;> rfl
  | client _ | task _ _ | finished => rfl

theorem harmless_resume (q : Pc F) : harmless (resume q) = harmless (.within q) := by
  cases q with
  | monitor q => cases q <;> rfl
  | client _ | task _ _ | finished => rfl

theorem runs_head (o : Object F) (last : Bool) :
    Runs o (.head last) o (if o.isMonitoring then .within (.monitor (.sample last)) else .within .finished)
      .none := by
  refine ⟨rfl, rfl, rfl, ?_, nofun, fun hquiet _ _ => ⟨?_, rfl, nofun⟩⟩
  · cases o.isMonitoring
    · exact .inr rfl
    · exact .inl rfl
  · cases o.isMonitoring
    · rfl
    · exact hquiet

theorem spawned_task {m m' : Members F} {r r' : MonitorPc} {q₀ : Pc F}
    (h : Monitors m n r m' r' (.spawn q₀)) : ∃ callback, q₀ = .task callback .outside := by
  cases h
  exact ⟨_, rfl⟩

theorem harmless_monitors {m m' : Members F} {r r' : MonitorPc} {e : Effect Kind (Pc F)}
    (h : Monitors m n r m' r' e) (hquiet : harmless (.within (.monitor r) : ObjectPc F) = true)
    (hmounted : m.isMounted = false) :
    harmless (.within (.monitor r') : ObjectPc F) = true ∧ m'.isMounted = m.isMounted ∧
      ∀ q₀, e ≠ .spawn q₀ := by
  cases h with
  | @rounds last kind h =>
    have hlast : last = false := by simpa [harmless] using hquiet
    rw [hmounted, hlast] at h
    cases h
  | rests => exact ⟨by simp [harmless, hmounted], rfl, nofun⟩
  | sleep => exact ⟨hquiet, rfl, nofun⟩
  | lock | launch | skip | launched | erase | unlock | get | finished => cases hquiet

theorem isMounted_calls {m m' : Members F} {r r' : CallPc F} {e : Effect Kind (Pc F)}
    (h : Calls m r m' r' e) : m'.isMounted = m.isMounted ∨ r = .outside := by
  cases h with
  | setMounted | register | cancel => exact .inr rfl
  | registerLock | pushBack | registerUnlock | cancelLock | setNull | cancelUnlock => exact .inl rfl

theorem runs_within {q : Pc F} (h : next o n (.within q) c = some (o', p', e)) :
    Runs o (.within q) o' p' e := by
  rw [next, Option.ite_none_right_eq_some, Option.map_eq_some_iff] at h
  obtain ⟨hmay, ⟨m, q', e'⟩, hq, h⟩ := h
  simp only [Prod.mk.injEq] at h
  obtain ⟨rfl, rfl, rfl⟩ := h
  obtain ⟨r, r', rfl, rfl, hmonitors⟩ | ⟨-, hmoves⟩ := next_moves hq
  · refine ⟨rfl, rfl, rfl, .inl (role_resume _), fun p₀ hp₀ => ?_, fun hquiet _ hmounted => ?_⟩
    · obtain ⟨q₀, rfl, rfl⟩ := Effect.spawn_of_map hp₀
      obtain ⟨callback, rfl⟩ := spawned_task hmonitors
      rfl
    · obtain ⟨hquiet', hmounted', hspawn⟩ := harmless_monitors hmonitors hquiet (hmounted rfl)
      refine ⟨by rwa [harmless_resume], hmounted', fun p₀ hp₀ => ?_⟩
      obtain ⟨q₀, he, -⟩ := Effect.spawn_of_map hp₀
      exact hspawn q₀ he
  · have hspawn : ∀ p₀, e'.map ObjectPc.within ≠ .spawn p₀ := by
      intro p₀ hp₀
      obtain ⟨q₀, he, -⟩ := Effect.spawn_of_map hp₀
      exact hmoves.not_spawn q₀ he
    refine ⟨rfl, rfl, rfl, ?_, fun p₀ hp₀ => absurd hp₀ (hspawn p₀), fun hquiet husable _ => ?_⟩
    · rw [role_resume]
      cases hmoves with
      | client | task => exact .inl rfl
      | finish => exact .inr rfl
    · cases hmoves with
      | task | finish => cases hquiet
      | client h =>
        refine ⟨rfl, ?_, hspawn⟩
        obtain hsame | rfl := isMounted_calls h
        · exact hsame
        · rw [mayStep, husable] at hmay
          cases hmay

theorem next_runs (hp : role p ≠ .owner) (h : next o n p c = some (o', p', e)) : Runs o p o' p' e := by
  cases p with
  | owner _ => exact absurd rfl hp
  | head last =>
    cases h
    exact runs_head o last
  | within q => exact runs_within h

theorem construct_frame (o : Object F) (n : Nat) (x : Member) :
    (construct o n x).1.alive = o.alive ∧ (construct o n x).1.usable = o.usable := by
  cases x <;> exact ⟨rfl, rfl⟩

theorem construct_spawn {x : Member} {p₀ : ObjectPc F} (h : (construct o n x).2 = .spawn p₀) :
    x = .monitorThread ∧ p₀ = .head false := by
  cases x <;> cases h
  exact ⟨rfl, rfl⟩

theorem construct_monitorThread (o : Object F) (n : Nat) {x : Member} (h : x ≠ .monitorThread) :
    (construct o n x).1.monitorThread = o.monitorThread := by
  cases x with
  | monitorThread => exact absurd rfl h
  | _ => rfl

theorem construct_isMounted (o : Object F) (n : Nat) (x : Member) :
    (construct o n x).1.members.isMounted = (if x = .isMounted then false else o.members.isMounted) := by
  cases x <;> rfl

end Moves

theorem Phase.place {q : ObjectPc F} (h : Phase s q) : q = .within .finished ∨ ∃ r, q = .owner r := by
  cases q with
  | owner r => exact .inr ⟨r, rfl⟩
  | head => exact h.elim
  | within r =>
    cases r with
    | finished => exact .inl rfl
    | monitor | client | task => exact h.elim

section Step

variable [DecidableEq Q] {c : Option (Call F)} {p : ObjectPc F} {e : Effect Kind (ObjectPc F)}

section Other

variable (hfresh : Fresh (program F) s) (hs : Steps (program F) s t c p e s')
  (hruns : Runs s.shared (s.pc t) s'.shared p e)

include hruns

omit [DecidableEq Q] in
theorem AliveUpTo.other {i : Nat} (h : AliveUpTo s.shared i) : AliveUpTo s'.shared i := by
  intro x
  rw [hruns.alive]
  exact h x

omit [DecidableEq Q] in
theorem role_of_runs {x : Role} (hx : x ≠ .finished) (hp : role p = x) : role (s.pc t) = x := by
  obtain hsame | hfinished := hruns.remains
  · exact hsame.symm.trans hp
  · exact absurd (hp.symm.trans hfinished) hx

include hfresh hs

theorem forall_role {R : Thread (Main Q) → Prop} {x : Role} (hx : x ≠ .finished) (htask : x ≠ .task)
    (hall : ∀ u, role (s.pc u) = x → R u) (u : Thread (Main Q)) (hu : role (s'.pc u) = x) : R u := by
  refine hs.forall_pc hfresh (R := fun u q => role q = x → R u) hall ?_ ?_ u hu
  · exact fun hp => hall t (role_of_runs hruns hx hp)
  · intro p₀ hp₀ hrole
    exact absurd (hrole.symm.trans (hruns.spawns p₀ hp₀)) htask

theorem NoMonitor.other (h : NoMonitor s) : NoMonitor s' :=
  forall_role hfresh hs hruns (R := fun _ => False) (by decide) (by decide) h

theorem Constructing.other {i : Nat} (h : Constructing s i) : Constructing s' i := by
  have hmounted : role (s.pc t) = .monitor → s.shared.members.isMounted = false := by
    intro ht
    by_cases hi : i ≤ 2
    · exact absurd ht (h.noMonitor hi t)
    · exact h.isMounted (by omega)
  obtain ⟨hquiet, hsame, hspawn⟩ := hruns.stays (h.threads t) h.usable hmounted
  refine ⟨h.alive.other hruns, hruns.usable.trans h.usable, fun hi => hsame.trans (h.isMounted hi), ?_, ?_⟩
  · exact fun hi => NoMonitor.other hfresh hs hruns (h.noMonitor hi)
  · refine hs.forall_pc hfresh (R := fun _ q => harmless q = true) h.threads hquiet ?_
    exact fun p₀ hp₀ => absurd hp₀ (hspawn p₀)

end Other

theorem Inv.other_step (h : Inv s) (hs : Steps (program F) s t c p e s') (ht : role (s.pc t) ≠ .owner) :
    Inv s' := by
  have hruns := next_runs ht hs.next
  have hne : .main .owner ≠ t := by
    rintro rfl
    obtain hfinished | ⟨r, hr⟩ := h.phase.place
    · have hdone := hs.not_done
      rw [hfinished] at hdone
      cases hdone
    · exact ht (by rw [hr]; rfl)
  refine ⟨hs.fresh h.fresh, ?_, ?_, ?_⟩
  · exact forall_role h.fresh hs hruns (by decide) (by decide) h.owner
  · rw [hruns.monitorThread]
    exact forall_role h.fresh hs hruns (by decide) (by decide) h.monitor
  · have hphase := h.phase
    rw [hs.main_stays hne]
    obtain hq | ⟨r, hq⟩ := hphase.place
    · rw [hq] at hphase ⊢
      exact NoMonitor.other h.fresh hs hruns hphase
    · rw [hq] at hphase ⊢
      cases r with
      | construct i => exact Constructing.other h.fresh hs hruns hphase
      | use | stop | join => exact AliveUpTo.other hruns hphase
      | destroy i =>
        exact ⟨AliveUpTo.other hruns hphase.alive, NoMonitor.other h.fresh hs hruns hphase.noMonitor⟩

section Owner

variable {r : OwnerPc}

theorem Owns.place {o o' : Object F} {n : Nat} (h : Owns o n r o' p e) :
    p = .within .finished ∨ ∃ q, p = .owner q := by
  cases h with
  | destroyed => exact .inl rfl
  | _ => exact .inr ⟨_, rfl⟩

theorem Owns.spawn {o o' : Object F} {n : Nat} (h : Owns o n r o' p e) :
    r = .construct 2 ∧ o'.monitorThread = n ∧ (∀ p₀, e = .spawn p₀ → p₀ = .head false) ∨
      o'.monitorThread = o.monitorThread ∧ ∀ p₀, e ≠ .spawn p₀ := by
  cases h with
  | @construct i x hx =>
    by_cases hthread : x = .monitorThread
    · subst hthread
      have hi : 2 = i := (rank_eq_iff hx .monitorThread).mpr rfl
      exact .inl ⟨by rw [hi], rfl, fun p₀ hp₀ => (construct_spawn hp₀).2⟩
    · exact .inr ⟨construct_monitorThread o n hthread, fun p₀ hp₀ => hthread (construct_spawn hp₀).1⟩
  | _ => exact .inr ⟨rfl, nofun⟩

variable (hfresh : Fresh (program F) s) (hs : Steps (program F) s t c p e s')
  (howns : Owns s.shared s.spawned r s'.shared p e)

include hfresh hs howns

theorem NoMonitor.owns (h : NoMonitor s) (hr : r ≠ .construct 2) : NoMonitor s' := by
  refine hs.forall_pc hfresh (R := fun _ q => role q ≠ .monitor) h ?_ ?_
  · obtain rfl | ⟨q, rfl⟩ := howns.place <;> nofun
  · intro p₀ hp₀
    obtain ⟨hr', -⟩ | ⟨-, hspawn⟩ := howns.spawn
    · exact absurd hr' hr
    · exact absurd hp₀ (hspawn p₀)

theorem Constructing.owns {i : Nat} {x : Member} (h : Constructing s i) (hx : declared[i]? = some x)
    (hr : r = .construct i)
    (hshared : s'.shared = (construct s.shared s.spawned x).1.setAlive x true) :
    Constructing s' (i + 1) := by
  obtain ⟨halive, husable⟩ := construct_frame s.shared s.spawned x
  have hmounted := construct_isMounted s.shared s.spawned x
  have hrank := rank_eq_iff hx .isMounted
  refine ⟨?_, ?_, fun hi => ?_, fun hi => ?_, ?_⟩
  · rw [hshared]
    refine AliveUpTo.setAlive (fun y => ?_) hx
    rw [halive]
    exact h.alive y
  · rw [hshared]
    exact husable.trans h.usable
  · rw [hshared]
    refine hmounted.trans ?_
    split
    · rfl
    · next hne =>
      have hi1 : i ≠ 1 := fun hi => hne (hrank.mp hi.symm).symm
      exact h.isMounted (by omega)
  · refine NoMonitor.owns hfresh hs howns (h.noMonitor (by omega)) ?_
    rw [hr, Ne, OwnerPc.construct.injEq]
    omega
  · refine hs.forall_pc hfresh (R := fun _ q => harmless q = true) h.threads ?_ ?_
    · obtain rfl | ⟨q, rfl⟩ := howns.place <;> rfl
    · intro p₀ hp₀
      obtain ⟨-, -, hspawn⟩ | ⟨-, hspawn⟩ := howns.spawn
      · rw [hspawn p₀ hp₀]
        rfl
      · exact absurd hp₀ (hspawn p₀)

theorem Phase.owns (h : Phase s (.owner r)) (hthread : ∀ u, role (s.pc u) = .monitor →
    u = .task s.shared.monitorThread) : Phase s' p := by
  have hno : NoMonitor s → r ≠ .construct 2 → NoMonitor s' := NoMonitor.owns hfresh hs howns
  generalize hshared : s'.shared = o at howns
  cases howns with
  | construct hx => exact Constructing.owns hfresh hs (hshared ▸ .construct hx) h hx rfl hshared
  | constructed hi =>
    intro x
    have hlt := (rank_lt x).trans_le (List.getElem?_eq_none_iff.mp hi)
    rw [hshared]
    exact iff_of_true ((h.alive x).mpr hlt) (rank_lt x)
  | stop | join =>
    intro x
    rw [hshared]
    exact h x
  | joined =>
    have hdone : done (s.pc (.task s.shared.monitorThread)) = true := hs.ready
    refine ⟨fun x => ?_, hno (fun u hu => ?_) nofun⟩
    · rw [hshared]
      exact h x
    · rw [← hthread u hu] at hdone
      rw [eq_of_done hdone] at hu
      cases hu
  | destroyed => exact hno h.noMonitor nofun
  | destroy hx => exact ⟨hshared ▸ AliveUpTo.setDead h.alive hx, hno h.noMonitor nofun⟩
  | skip hi =>
    refine ⟨fun x => ?_, hno h.noMonitor nofun⟩
    have hlt := (rank_lt x).trans_le (List.getElem?_eq_none_iff.mp hi)
    rw [hshared]
    exact iff_of_true ((h.alive x).mpr (Nat.lt_succ_of_lt hlt)) hlt

end Owner

theorem Inv.owner_step (h : Inv s) (hs : Steps (program F) s t c p e s') (ht : role (s.pc t) = .owner) :
    Inv s' := by
  obtain rfl := h.owner t ht
  have hphase := h.phase
  obtain hq | ⟨r, hq⟩ := hphase.place
  · rw [hq] at ht
    cases ht
  · have hnext := hs.next
    rw [hq] at hnext hphase
    have howns := owner_owns hnext
    refine ⟨hs.fresh h.fresh, ?_, ?_, ?_⟩
    · refine hs.forall_pc h.fresh (R := fun u q => role q = .owner → u = .main .owner) h.owner
        (fun _ => rfl) ?_
      intro p₀ hp₀ howner
      obtain ⟨-, -, hspawn⟩ | ⟨-, hspawn⟩ := howns.spawn
      · rw [hspawn p₀ hp₀] at howner
        cases howner
      · exact absurd hp₀ (hspawn p₀)
    · obtain ⟨rfl, hthread, -⟩ | ⟨hthread, hspawn⟩ := howns.spawn
      · rw [hthread]
        refine hs.forall_pc h.fresh (R := fun u q => role q = .monitor → u = .task s.spawned) ?_ ?_
          fun _ _ _ => rfl
        · exact fun u hu => absurd hu (hphase.noMonitor (Nat.le_refl 2) u)
        · obtain rfl | ⟨q, rfl⟩ := howns.place <;> nofun
      · rw [hthread]
        refine hs.forall_pc h.fresh (R := fun u q => role q = .monitor → u = .task s.shared.monitorThread)
          h.monitor ?_ fun p₀ hp₀ => absurd hp₀ (hspawn p₀)
        obtain rfl | ⟨q, rfl⟩ := howns.place <;> nofun
    · rw [hs.self h.fresh]
      exact Phase.owns h.fresh hs howns hphase h.monitor

omit [DecidableEq Q] in
theorem Initial.place (h : Initial s) (u : Thread (Main Q)) :
    u = .main .owner ∧ s.pc u = .owner (.construct 0) ∨ s.pc u = .within (.client .outside) ∨
      s.pc u = .within .finished := by
  cases u with
  | main q =>
    cases q with
    | owner => exact .inl ⟨rfl, h.owner⟩
    | client q => exact .inr (.inl (h.client q))
  | task n => exact .inr (.inr (h.task n))

omit [DecidableEq Q] in
theorem Inv.init (h : Initial s) : Inv s := by
  have hno : NoMonitor s := by
    intro u
    obtain ⟨-, hu⟩ | hu | hu := h.place u <;> rw [hu] <;> nofun
  refine ⟨fun n _ => h.task n, fun u howner => ?_, fun u hu => absurd hu (hno u), ?_⟩
  · obtain ⟨hu, -⟩ | hu | hu := h.place u
    · exact hu
    · rw [hu] at howner
      cases howner
    · rw [hu] at howner
      cases howner
  · rw [h.owner]
    refine ⟨fun x => ?_, h.usable, nofun, fun _ => hno, fun u => ?_⟩
    · simp [h.alive x]
    · obtain ⟨-, hu⟩ | hu | hu := h.place u <;> rw [hu] <;> rfl

theorem inv (h : Reachable (system F Q) s) : Inv s := by
  induction h with
  | init h => exact Inv.init h
  | @step s s' a _ hs ih =>
    obtain ⟨p, e, hs⟩ := step_cases hs
    by_cases ht : role (s.pc a.thread) = .owner
    · exact ih.owner_step hs ht
    · exact ih.other_step hs ht

/-- Without a round `Monitor` uses the flags only, which are constructed before it. -/
theorem uses_of_harmless {q : ObjectPc F} (hmonitor : harmless q = true) {x : Member} (hx : x ∈ uses q) :
    x.rank < 2 := by
  cases q with
  | owner => cases hx
  | head =>
    rw [List.mem_singleton.mp hx]
    decide
  | within q =>
    cases q with
    | client | task | finished => cases hx
    | monitor q =>
      cases q with
      | sample =>
        rw [List.mem_singleton.mp hx]
        decide
      | sleep | get => cases hx
      | lock | launch | erase | unlock => cases hmonitor

theorem role_of_uses {q : ObjectPc F} {x : Member} (hx : x ∈ uses q) : role q = .monitor := by
  cases q with
  | owner => cases hx
  | head => rfl
  | within q =>
    cases q with
    | monitor => rfl
    | client | task | finished => cases hx

/-- `Monitor` uses a member only after its construction and before its destruction. -/
theorem monitor_uses_alive (h : Reachable (system F Q) s) (t : Thread (Main Q)) :
    ∀ x ∈ uses (s.pc t), s.shared.alive x = true := by
  intro x hx
  have hinv := inv h
  have hphase := hinv.phase
  have hmonitor := role_of_uses hx
  obtain hq | ⟨r, hq⟩ := hphase.place
  · rw [hq] at hphase
    exact absurd hmonitor (hphase t)
  · rw [hq] at hphase
    cases r with
    | construct i =>
      have hi : ¬ i ≤ 2 := fun hi => hphase.noMonitor hi t hmonitor
      have hrank := uses_of_harmless (hphase.threads t) hx
      exact (hphase.alive x).mpr (by omega)
    | use | stop | join => exact (hphase x).mpr (rank_lt x)
    | destroy i => exact absurd hmonitor (hphase.noMonitor t)

end Step

def earlyRun : List (TaskProgram.Action (Main Unit) (Option (Call Unit))) :=
  List.replicate 3 ⟨.main .owner, none⟩ ++ List.replicate 3 ⟨.task 0, none⟩ ++
    List.replicate 5 ⟨.main .owner, none⟩ ++ [⟨.main (.client ()), some (.setMounted true)⟩] ++
    List.replicate 2 ⟨.task 0, none⟩

theorem monitor_uses_alive_early :
    ∃ s, Reachable (system Unit Unit) s ∧ Member.callbacksMutex .mount ∈ uses (s.pc (.task 0)) ∧
      s.shared.alive (.callbacksMutex .mount) = true := by
  obtain ⟨s, hs, huses⟩ : ∃ s, Reachable (system Unit Unit) s ∧
      uses (s.pc (.task 0)) = [.callbacksMutex .mount] :=
    exists_reachable (initial_initial Unit Unit) earlyRun (by decide +kernel)
  have hmem : Member.callbacksMutex .mount ∈ uses (s.pc (.task 0)) := by
    rw [huses]
    exact List.mem_singleton_self _
  exact ⟨s, hs, hmem, monitor_uses_alive hs (.task 0) _ hmem⟩

end RoblSampleCodes.MountMonitorLifetime
