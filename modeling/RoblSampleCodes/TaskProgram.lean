import RoblSampleCodes.TransitionSystem

namespace RoblSampleCodes.TaskProgram

open TransitionSystem

/-- What one step of a thread asks of the mutexes `M` and the tasks. A `spawn`
starts a task in a local state, and a `join` waits until one is done. -/
inductive Effect (M P : Type)
  | none
  | lock (m : M)
  | unlock (m : M)
  | spawn (p : P)
  | join (n : Nat)

/-- The threads `Q`, and the tasks in the order in which they were spawned. -/
inductive Thread (Q : Type)
  | main (q : Q)
  | task (n : Nat)
  deriving DecidableEq

/-- The code of the threads. `next` is a thread's own step on the shared data
`S` and its local state `P`, with the number that the next task gets and an input
`I` for what the code leaves open. A task that is not spawned is at `rest`. -/
structure Program (S P I M : Type) where
  next : S → Nat → P → I → Option (S × P × Effect M P)
  done : P → Bool
  rest : P
  rest_done : done rest = true
  next_done : ∀ sh n p i, done p = true → next sh n p i = none

structure State (S P M Q : Type) where
  shared : S
  owner : M → Option (Thread Q)
  spawned : Nat
  pc : Thread Q → P

structure Action (Q I : Type) where
  thread : Thread Q
  input : I

variable {S P I M Q : Type}

def Effect.map {P' : Type} (f : P → P') : Effect M P → Effect M P'
  | .none => .none
  | .lock m => .lock m
  | .unlock m => .unlock m
  | .spawn p => .spawn (f p)
  | .join n => .join n

theorem Effect.spawn_of_map {P' : Type} {f : P → P'} {e : Effect M P} {p₀ : P'}
    (h : e.map f = .spawn p₀) : ∃ q₀, e = .spawn q₀ ∧ p₀ = f q₀ := by
  cases e with
  | spawn q₀ =>
    cases h
    exact ⟨q₀, rfl, rfl⟩
  | none | lock _ | unlock _ | join _ => cases h

def Effect.held [DecidableEq M] (e : Effect M P) (held : M → Bool) : M → Bool :=
  match e with
  | .lock m => Function.update held m true
  | .unlock m => Function.update held m false
  | _ => held

/-- A mutex can be locked when no thread owns it, also not the thread itself. -/
def Program.ready (prog : Program S P I M) (s : State S P M Q) : Effect M P → Bool
  | .lock m => (s.owner m).isNone
  | .join n => prog.done (s.pc (.task n))
  | _ => true

def Effect.Allowed (e : Effect M P) (holds : P → M → Bool) (p : P) : Prop :=
  match e with
  | .unlock m => holds p m = true
  | .spawn p₀ => ∀ m, holds p₀ m = false
  | _ => True

def Effect.spawned (e : Effect M P) (n : Nat) : Nat :=
  match e with
  | .spawn _ => n + 1
  | _ => n

variable [DecidableEq Q] [DecidableEq M]

def Effect.owner (e : Effect M P) (t : Thread Q) (o : M → Option (Thread Q)) : M → Option (Thread Q) :=
  match e with
  | .lock m => Function.update o m (some t)
  | .unlock m => Function.update o m Option.none
  | _ => o

def Effect.place (e : Effect M P) (n : Nat) (pc : Thread Q → P) : Thread Q → P :=
  match e with
  | .spawn p => Function.update pc (.task n) p
  | _ => pc

def Program.step (prog : Program S P I M) (s : State S P M Q) (a : Action Q I) :
    Option (State S P M Q) := do
  let (sh, p, e) ← prog.next s.shared s.spawned (s.pc a.thread) a.input
  if prog.ready s e then
    some ⟨sh, e.owner a.thread s.owner, e.spawned s.spawned,
      e.place s.spawned (Function.update s.pc a.thread p)⟩
  else none

def Program.system (prog : Program S P I M) (init : State S P M Q → Prop) :
    System (State S P M Q) (Action Q I) := ⟨init, prog.step⟩

variable {prog : Program S P I M} {s s' : State S P M Q} {a : Action Q I} {t u : Thread Q}

structure Steps (prog : Program S P I M) (s : State S P M Q) (t : Thread Q) (i : I) (p : P)
    (e : Effect M P) (s' : State S P M Q) : Prop where
  next : prog.next s.shared s.spawned (s.pc t) i = some (s'.shared, p, e)
  ready : prog.ready s e = true
  owner : s'.owner = e.owner t s.owner
  spawned : s'.spawned = e.spawned s.spawned
  pc : s'.pc = e.place s.spawned (Function.update s.pc t p)

theorem step_cases (h : prog.step s a = some s') : ∃ p e, Steps prog s a.thread a.input p e s' := by
  simp only [Program.step, Option.bind_eq_bind, Option.bind_eq_some_iff,
    Option.ite_none_right_eq_some, Option.some.injEq] at h
  obtain ⟨⟨sh, p, e⟩, hn, he, rfl⟩ := h
  exact ⟨p, e, hn, he, rfl, rfl, rfl⟩

def Fresh (prog : Program S P I M) (s : State S P M Q) : Prop :=
  ∀ n, s.spawned ≤ n → s.pc (.task n) = prog.rest

section Steps

variable {i : I} {p : P} {e : Effect M P} (h : Steps prog s t i p e s')

include h

theorem Steps.not_done : prog.done (s.pc t) = false := by
  by_contra hd
  have hn := h.next
  rw [prog.next_done _ _ _ _ (Bool.eq_true_of_not_eq_false hd)] at hn
  cases hn

theorem Steps.ne_fresh (hf : Fresh prog s) {n : Nat} (hn : s.spawned ≤ n) : t ≠ .task n := by
  rintro rfl
  have hd := h.not_done
  rw [hf n hn, prog.rest_done] at hd
  cases hd

theorem Steps.self (hf : Fresh prog s) : s'.pc t = p := by
  rw [h.pc]
  cases e with
  | spawn p₀ =>
    rw [Effect.place, Function.update_of_ne (h.ne_fresh hf (Nat.le_refl _)), Function.update_self]
  | _ => exact Function.update_self ..

theorem Steps.other (hu : u ≠ t) :
    s'.pc u = s.pc u ∨ ∃ p₀, e = .spawn p₀ ∧ u = .task s.spawned ∧ s'.pc u = p₀ := by
  rw [h.pc]
  cases e with
  | spawn p₀ =>
    by_cases hn : u = .task s.spawned
    · subst hn
      exact .inr ⟨p₀, rfl, rfl, Function.update_self ..⟩
    · rw [Effect.place, Function.update_of_ne hn, Function.update_of_ne hu]
      exact .inl rfl
  | _ => exact .inl (Function.update_of_ne hu ..)

theorem Steps.stays (hu : u ≠ t) (he : ∀ p₀, e ≠ .spawn p₀) : s'.pc u = s.pc u := by
  obtain hsame | ⟨p₀, hspawn, -, -⟩ := h.other hu
  · exact hsame
  · exact absurd hspawn (he p₀)

theorem Steps.main_stays {q : Q} (hq : .main q ≠ t) : s'.pc (.main q) = s.pc (.main q) := by
  obtain hsame | ⟨p₀, -, hu, -⟩ := h.other hq
  · exact hsame
  · cases hu

theorem Steps.forall_pc (hf : Fresh prog s) {R : Thread Q → P → Prop} (hall : ∀ u, R u (s.pc u))
    (hself : R t p) (hspawn : ∀ p₀, e = .spawn p₀ → R (.task s.spawned) p₀) (u : Thread Q) :
    R u (s'.pc u) := by
  by_cases hu : u = t
  · subst hu
    rwa [h.self hf]
  · obtain hsame | ⟨p₀, he, rfl, hnew⟩ := h.other hu
    · rw [hsame]
      exact hall u
    · rw [hnew]
      exact hspawn p₀ he

theorem Steps.fresh (hf : Fresh prog s) : Fresh prog s' := by
  intro n hn
  have hle : s.spawned ≤ n := by
    rw [h.spawned] at hn
    cases e with
    | spawn => exact Nat.le_of_succ_le hn
    | _ => exact hn
  obtain hsame | ⟨p₀, rfl, hu, -⟩ := h.other (h.ne_fresh hf hle).symm
  · rw [hsame]
    exact hf n hle
  · rw [h.spawned, Thread.task.inj hu] at hn
    exact absurd hn (Nat.not_succ_le_self _)

end Steps

structure Discipline (prog : Program S P I M) (holds : P → M → Bool) : Prop where
  next : ∀ sh n p i sh' p' e, prog.next sh n p i = some (sh', p', e) →
    (∀ m, e = .lock m → holds p m = false) →
    holds p' = e.held (holds p) ∧ e.Allowed holds p
  rest : ∀ m, holds prog.rest m = false

def Owned (holds : P → M → Bool) (s : State S P M Q) : Prop :=
  ∀ m t, s.owner m = some t ↔ holds (s.pc t) m = true

section Owned

variable {holds : P → M → Bool} {m : M}

omit [DecidableEq Q] [DecidableEq M] in
theorem Owned.unique (h : Owned holds s) (ht : holds (s.pc t) m = true) (hu : holds (s.pc u) m = true) :
    t = u := by
  have he := ((h m t).mpr ht).symm.trans ((h m u).mpr hu)
  simpa using he

omit [DecidableEq Q] [DecidableEq M] in
theorem Owned.free (h : Owned holds s) (hm : s.owner m = none) (t : Thread Q) :
    holds (s.pc t) m = false := by
  by_contra ht
  rw [(h m t).mpr (Bool.eq_true_of_not_eq_false ht)] at hm
  cases hm

theorem Steps.owned {i : I} {p : P} {e : Effect M P} (h : Steps prog s t i p e s')
    (hd : Discipline prog holds) (hf : Fresh prog s) (ho : Owned holds s) : Owned holds s' := by
  have hlock : ∀ m, e = .lock m → s.owner m = none := by
    rintro m rfl
    simpa [Program.ready] using h.ready
  obtain ⟨hheld, hallowed⟩ := hd.next _ _ _ _ _ _ _ h.next (fun m hm => ho.free (hlock m hm) t)
  intro m u
  rw [h.owner]
  by_cases hu : u = t
  · subst hu
    rw [h.self hf, hheld]
    have hm := ho m u
    cases e with
    | none | spawn _ | join _ => exact hm
    | lock m' | unlock m' =>
      by_cases hmm : m = m'
      · subst hmm
        simp [Effect.owner, Effect.held]
      · simp [Effect.owner, Effect.held, hmm, hm]
  · have hplace : holds (s'.pc u) m = holds (s.pc u) m := by
      obtain hsame | ⟨p₀, rfl, rfl, hnew⟩ := h.other hu
      · rw [hsame]
      · rw [hnew, hallowed m, hf _ (Nat.le_refl _), hd.rest]
    rw [hplace]
    have hm := ho m u
    cases e with
    | none | spawn _ | join _ => exact hm
    | lock m' =>
      by_cases hmm : m = m'
      · subst hmm
        simp [Effect.owner, ho.free (hlock m rfl) u, Ne.symm hu]
      · simp [Effect.owner, hmm, hm]
    | unlock m' =>
      by_cases hmm : m = m'
      · subst hmm
        have hne : ¬ holds (s.pc u) m = true := fun h => hu (ho.unique h hallowed)
        simp [Effect.owner, hne]
      · simp [Effect.owner, hmm, hm]

end Owned

def WaitsFor (prog : Program S P I M) (s : State S P M Q) (t u : Thread Q) : Prop :=
  ∃ i sh p e, prog.next s.shared s.spawned (s.pc t) i = some (sh, p, e) ∧
    ((∃ m, e = .lock m ∧ s.owner m = some u) ∨
      ∃ n, e = .join n ∧ u = .task n ∧ prog.done (s.pc u) = false)

theorem enabled_of_ready {init : State S P M Q → Prop} {i : I} {sh : S} {p : P} {e : Effect M P}
    (hn : prog.next s.shared s.spawned (s.pc t) i = some (sh, p, e)) (hr : prog.ready s e = true) :
    Enabled (prog.system init) s ⟨t, i⟩ := by
  simp [Enabled, Program.system, Program.step, hn, hr]

theorem enabled_or_waits {init : State S P M Q → Prop} {i : I} {sh : S} {p : P} {e : Effect M P}
    (hn : prog.next s.shared s.spawned (s.pc t) i = some (sh, p, e)) :
    Enabled (prog.system init) s ⟨t, i⟩ ∨
      (∃ m u, e = .lock m ∧ s.owner m = some u ∧ WaitsFor prog s t u) ∨
      ∃ n, e = .join n ∧ prog.done (s.pc (.task n)) = false ∧ WaitsFor prog s t (.task n) := by
  by_cases hr : prog.ready s e = true
  · exact .inl (enabled_of_ready hn hr)
  · right
    cases e with
    | lock m =>
      have hne : s.owner m ≠ none := by
        intro ho
        exact hr (by simp [Program.ready, ho])
      obtain ⟨u, hu⟩ := Option.ne_none_iff_exists'.mp hne
      exact .inl ⟨m, u, rfl, hu, i, sh, p, _, hn, .inl ⟨m, rfl, hu⟩⟩
    | join n =>
      have hd := Bool.eq_false_of_not_eq_true hr
      exact .inr ⟨n, rfl, hd, i, sh, p, _, hn, .inr ⟨n, rfl, rfl, hd⟩⟩
    | none | unlock _ | spawn _ => exact absurd rfl hr

end RoblSampleCodes.TaskProgram
