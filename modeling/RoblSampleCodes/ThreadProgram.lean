import RoblSampleCodes.ThreadCount
import RoblSampleCodes.TransitionSystem

namespace RoblSampleCodes.ThreadProgram

open TransitionSystem ThreadCount

/-- What one step of a thread asks of the mutexes `M` and the condition
variables `C`. Blocking on a condition variable is an `unlock` into a local
state that sleeps. -/
inductive Effect (M C : Type)
  | none
  | lock (m : M)
  | unlock (m : M)
  | notifyOne (c : C)
  | notifyAll (c : C)

/-- The code of the threads. `next` is a thread's own step on the shared data
`S` and its local state `P`, with an input `I` for what the code leaves open.
A local state with `asleep p = some c` is blocked on `c` and not notified, and
`wake p` is where it goes on. -/
structure Program (S P I M C : Type) where
  next : S → P → I → Option (S × P × Effect M C)
  asleep : P → Option C
  wake : P → P
  asleep_wake : ∀ p, asleep (wake p) = none
  next_asleep : ∀ sh p i, asleep p ≠ none → next sh p i = none

structure State (S P M T : Type) where
  shared : S
  owner : M → Option T
  pc : T → P

/-- The scheduler runs a thread, or wakes a sleeper without a notification.
`pick` is the sleeper that a `notifyOne` chooses, if there is one. -/
inductive Action (T I : Type)
  | run (t : T) (i : I) (pick : Option T)
  | spurious (t : T)

variable {S P I M C T : Type}

def Woken (prog : Program S P I M C) (pc pc' : T → P) : Prop :=
  ∀ u, pc' u = pc u ∨ (prog.asleep (pc u) ≠ none ∧ pc' u = prog.wake (pc u))

section Woken

variable {prog : Program S P I M C} {pc pc' : T → P} (h : Woken prog pc pc')

include h

theorem Woken.congr {β : Type} (f : P → β)
    (hf : ∀ p, prog.asleep p ≠ none → f (prog.wake p) = f p) (u : T) : f (pc' u) = f (pc u) := by
  obtain hu | ⟨ha, hu⟩ := h u
  · rw [hu]
  · rw [hu, hf _ ha]

theorem Woken.awake {u : T} (hu : prog.asleep (pc u) = none) : pc' u = pc u := by
  obtain h | ⟨ha, -⟩ := h u
  · exact h
  · exact absurd hu ha

theorem Woken.asleep {u : T} (hu : prog.asleep (pc' u) ≠ none) : pc' u = pc u := by
  obtain h | ⟨-, h⟩ := h u
  · exact h
  · rw [h, prog.asleep_wake] at hu
    exact absurd rfl hu

end Woken

section WokenStep

variable [DecidableEq T] {prog : Program S P I M C} {pc pc' : T → P} {t : T} {p : P}

theorem Woken.self (h : Woken prog (Function.update pc t p) pc') (hp : prog.asleep p = none) :
    pc' t = p := by
  have ht := h.awake (u := t) (by rwa [Function.update_self])
  rwa [Function.update_self] at ht

theorem Woken.other (h : Woken prog (Function.update pc t p) pc') {u : T} (hu : u ≠ t)
    (ha : prog.asleep (pc u) = none) : pc' u = pc u := by
  have ht := h.awake (u := u) (by rwa [Function.update_of_ne hu])
  rwa [Function.update_of_ne hu] at ht

theorem Woken.sleeper (h : Woken prog (Function.update pc t p) pc') {u : T}
    (hu : prog.asleep (pc' u) ≠ none) : u = t ∧ pc' u = p ∨ u ≠ t ∧ pc' u = pc u := by
  have hw := h.asleep hu
  by_cases hut : u = t
  · subst hut
    exact .inl ⟨rfl, by rwa [Function.update_self] at hw⟩
  · exact .inr ⟨hut, by rwa [Function.update_of_ne hut] at hw⟩

end WokenStep

theorem woken_update [DecidableEq T] {prog : Program S P I M C} {pc : T → P} {t : T}
    (h : prog.asleep (pc t) ≠ none) :
    Woken prog pc (Function.update pc t (prog.wake (pc t))) := by
  intro u
  by_cases hu : u = t
  · subst hu
    exact .inr ⟨h, Function.update_self ..⟩
  · exact .inl (Function.update_of_ne hu ..)

variable [DecidableEq T] [DecidableEq M] [DecidableEq C]

def Effect.owner (e : Effect M C) (t : T) (o : M → Option T) : M → Option T :=
  match e with
  | .lock m => Function.update o m (some t)
  | .unlock m => Function.update o m Option.none
  | _ => o

def Program.wakeAll (prog : Program S P I M C) (c : C) (pc : T → P) : T → P :=
  fun u => if prog.asleep (pc u) = some c then prog.wake (pc u) else pc u

omit [DecidableEq T] [DecidableEq M] in
theorem wakeAll_woken (prog : Program S P I M C) (c : C) (pc : T → P) :
    Woken prog pc (prog.wakeAll c pc) := by
  intro u
  simp only [Program.wakeAll]
  split
  · next h => exact .inr ⟨by simp [h], rfl⟩
  · exact .inl rfl

/-- How an effect of thread `t` changes the local states. A `notifyOne`
without a sleeper is lost. -/
inductive Delivered (prog : Program S P I M C) (pc : T → P) : Effect M C → (T → P) → Prop
  | none : Delivered prog pc .none pc
  | lock {m : M} : Delivered prog pc (.lock m) pc
  | unlock {m : M} : Delivered prog pc (.unlock m) pc
  | notified {c : C} {u : T} (h : prog.asleep (pc u) = some c) :
      Delivered prog pc (.notifyOne c) (Function.update pc u (prog.wake (pc u)))
  | unheard {c : C} (h : ∀ u, prog.asleep (pc u) ≠ some c) : Delivered prog pc (.notifyOne c) pc
  | notifiedAll {c : C} : Delivered prog pc (.notifyAll c) (prog.wakeAll c pc)

omit [DecidableEq M] in
theorem Delivered.woken {prog : Program S P I M C} {pc pc' : T → P} {e : Effect M C}
    (h : Delivered prog pc e pc') : Woken prog pc pc' := by
  cases h with
  | none | lock | unlock | unheard _ => exact fun u => .inl rfl
  | notified h => exact woken_update (by simp [h])
  | notifiedAll => exact wakeAll_woken prog _ pc

omit [DecidableEq M] in
theorem Delivered.notifyOne_wakes {prog : Program S P I M C} {pc pc' : T → P} {c : C}
    (h : Delivered prog pc (.notifyOne c) pc') {v : T} (hv : prog.asleep (pc' v) = some c) :
    ∃ u, prog.asleep (pc u) = some c ∧ pc' = Function.update pc u (prog.wake (pc u)) := by
  cases h with
  | notified hu => exact ⟨_, hu, rfl⟩
  | unheard hn => exact absurd hv (hn v)

omit [DecidableEq M] in
theorem Delivered.notifyAll_wakes {prog : Program S P I M C} {pc pc' : T → P} {c : C}
    (h : Delivered prog pc (.notifyAll c) pc') (v : T) : prog.asleep (pc' v) ≠ some c := by
  cases h
  simp only [Program.wakeAll]
  split
  · rw [prog.asleep_wake]
    nofun
  · assumption

variable [Fintype T]

def Program.deliver (prog : Program S P I M C) (pick : Option T) (pc : T → P) :
    Effect M C → Option (T → P)
  | .notifyOne c =>
    match pick with
    | some u =>
      if prog.asleep (pc u) = some c then some (Function.update pc u (prog.wake (pc u))) else none
    | none => if ∀ u, prog.asleep (pc u) ≠ some c then some pc else none
  | .notifyAll c => some (prog.wakeAll c pc)
  | _ => some pc

/-- A mutex can be locked when no thread owns it, also not the thread itself. -/
def Effect.enabled (e : Effect M C) (o : M → Option T) : Bool :=
  match e with
  | .lock m => (o m).isNone
  | _ => true

def Program.step (prog : Program S P I M C) (s : State S P M T) :
    Action T I → Option (State S P M T)
  | .run t i pick => do
    let (sh, p, e) ← prog.next s.shared (s.pc t) i
    if e.enabled s.owner then
      let pc ← prog.deliver pick (Function.update s.pc t p) e
      some ⟨sh, e.owner t s.owner, pc⟩
    else none
  | .spurious t =>
    if (prog.asleep (s.pc t)).isSome then
      some { s with pc := Function.update s.pc t (prog.wake (s.pc t)) }
    else none

def Program.system (prog : Program S P I M C) (init : State S P M T → Prop) :
    System (State S P M T) (Action T I) := ⟨init, prog.step⟩

variable {prog : Program S P I M C} {s s' : State S P M T}

omit [DecidableEq M] in
theorem deliver_delivered {pick : Option T} {pc pc' : T → P} {e : Effect M C}
    (h : prog.deliver pick pc e = some pc') : Delivered prog pc e pc' := by
  cases e with
  | none | lock m | unlock m =>
    simp only [Program.deliver, Option.some.injEq] at h
    subst h
    constructor
  | notifyOne c =>
    cases pick with
    | none =>
      simp only [Program.deliver, Option.ite_none_right_eq_some, Option.some.injEq] at h
      exact h.2 ▸ .unheard h.1
    | some u =>
      simp only [Program.deliver, Option.ite_none_right_eq_some, Option.some.injEq] at h
      exact h.2 ▸ .notified h.1
  | notifyAll c =>
    simp only [Program.deliver, Option.some.injEq] at h
    exact h ▸ .notifiedAll

omit [DecidableEq M] in
theorem exists_deliver (prog : Program S P I M C) (pc : T → P) (e : Effect M C) :
    ∃ pick, (prog.deliver pick pc e).isSome := by
  cases e with
  | none | lock m | unlock m | notifyAll c => exact ⟨none, rfl⟩
  | notifyOne c =>
    by_cases h : ∃ u, prog.asleep (pc u) = some c
    · obtain ⟨u, hu⟩ := h
      exact ⟨some u, by simp [Program.deliver, hu]⟩
    · exact ⟨none, by simpa [Program.deliver] using h⟩

theorem exists_enabled {init : State S P M T → Prop} {t : T} {i : I} {sh : S} {p : P} {e : Effect M C}
    (hn : prog.next s.shared (s.pc t) i = some (sh, p, e)) (hl : ∀ m, e = .lock m → s.owner m = none) :
    ∃ pick, Enabled (prog.system init) s (.run t i pick) := by
  obtain ⟨pick, hd⟩ := exists_deliver prog (Function.update s.pc t p) e
  obtain ⟨pc, hd⟩ := Option.isSome_iff_exists.mp hd
  have he : e.enabled s.owner = true := by
    cases e with
    | lock m => simp [Effect.enabled, hl m rfl]
    | none | unlock _ | notifyOne _ | notifyAll _ => rfl
  refine ⟨pick, ?_⟩
  simp [Enabled, Program.system, Program.step, hn, he, hd]

theorem not_enabled {init : State S P M T → Prop} {t : T} {i : I}
    (hn : prog.next s.shared (s.pc t) i = none)
    (pick : Option T) : ¬ Enabled (prog.system init) s (.run t i pick) := by
  simp [Enabled, Program.system, Program.step, hn]

/-- Everything a step can do: a thread takes its own step and its effect is
delivered, or a sleeper wakes. -/
theorem step_cases {a : Action T I} (h : prog.step s a = some s') :
    (∃ t i pick p e, a = .run t i pick ∧
      prog.next s.shared (s.pc t) i = some (s'.shared, p, e) ∧
      (∀ m, e = .lock m → s.owner m = none) ∧ s'.owner = e.owner t s.owner ∧
      Delivered prog (Function.update s.pc t p) e s'.pc) ∨
    (∃ t, a = .spurious t ∧ prog.asleep (s.pc t) ≠ none ∧ s'.shared = s.shared ∧
      s'.owner = s.owner ∧ s'.pc = Function.update s.pc t (prog.wake (s.pc t))) := by
  cases a with
  | run t i pick =>
    simp only [Program.step, Option.bind_eq_bind, Option.bind_eq_some_iff,
      Option.ite_none_right_eq_some, Option.some.injEq] at h
    obtain ⟨⟨sh, p, e⟩, hn, he, pc, hd, rfl⟩ := h
    refine .inl ⟨t, i, pick, p, e, rfl, hn, ?_, rfl, deliver_delivered hd⟩
    rintro m rfl
    simpa [Effect.enabled] using he
  | spurious t =>
    simp only [Program.step, Option.ite_none_right_eq_some, Option.some.injEq] at h
    obtain ⟨ha, rfl⟩ := h
    exact .inr ⟨t, rfl, Option.isSome_iff_ne_none.mp ha, rfl, rfl, rfl⟩

/-- Without condition variables a step moves one thread only. -/
theorem step_sleepless (hno : ∀ p, prog.asleep p = none) {a : Action T I}
    (h : prog.step s a = some s') :
    ∃ t i pick p e, a = .run t i pick ∧ prog.next s.shared (s.pc t) i = some (s'.shared, p, e) ∧
      (∀ m, e = .lock m → s.owner m = none) ∧ s'.owner = e.owner t s.owner ∧
      s'.pc = Function.update s.pc t p := by
  obtain ⟨t, i, pick, p, e, ha, hn, hl, ho, hd⟩ | ⟨t, -, hsl, -⟩ := step_cases h
  · exact ⟨t, i, pick, p, e, ha, hn, hl, ho, funext (fun u => hd.woken.awake (hno _))⟩
  · exact absurd (hno _) hsl

theorem step_pc {a : Action T I} (h : prog.step s a = some s') (u : T) :
    s'.pc u = s.pc u ∨ (prog.asleep (s.pc u) ≠ none ∧ s'.pc u = prog.wake (s.pc u)) ∨
      ∃ i pick e p, a = .run u i pick ∧ prog.next s.shared (s.pc u) i = some (s'.shared, p, e) ∧
        (s'.pc u = p ∨ (prog.asleep p ≠ none ∧ s'.pc u = prog.wake p)) := by
  obtain ⟨t, i, pick, p, e, ha, hn, -, -, hd⟩ | ⟨t, ha, hs, -, -, hp⟩ := step_cases h
  · have hw := hd.woken u
    by_cases hu : u = t
    · subst hu
      rw [Function.update_self] at hw
      exact .inr (.inr ⟨i, pick, e, p, ha, hn, hw⟩)
    · rw [Function.update_of_ne hu] at hw
      obtain hw | hw := hw
      · exact .inl hw
      · exact .inr (.inl hw)
  · have hw : Woken prog s.pc s'.pc := hp ▸ woken_update hs
    obtain hu | hu := hw u
    · exact .inl hu
    · exact .inr (.inl hu)

/-- A quantity of a thread that waking leaves as it is follows the thread's
own steps. -/
theorem step_local {β : Type} (f : P → β) (hf : ∀ p, prog.asleep p ≠ none → f (prog.wake p) = f p)
    {a : Action T I} (h : prog.step s a = some s') :
    (∃ t i pick p e, a = .run t i pick ∧ prog.next s.shared (s.pc t) i = some (s'.shared, p, e) ∧
      (∀ m, e = .lock m → s.owner m = none) ∧ f (s'.pc t) = f p ∧
      ∀ u, u ≠ t → f (s'.pc u) = f (s.pc u)) ∨
    (∃ t, a = .spurious t) ∧ s'.shared = s.shared ∧ ∀ u, f (s'.pc u) = f (s.pc u) := by
  obtain ⟨t, i, pick, p, e, ha, hn, hl, -, hd⟩ | ⟨t, ha, hsl, hsh, -, hp⟩ := step_cases h
  · have hw := hd.woken.congr f hf
    refine .inl ⟨t, i, pick, p, e, ha, hn, hl, ?_, fun u hu => ?_⟩
    · rw [hw, Function.update_self]
    · rw [hw, Function.update_of_ne hu]
  · exact .inr ⟨⟨t, ha⟩, hsh, fun u => by rw [hp, (woken_update hsl).congr f hf]⟩

/-- A shared quantity that a step changes by the change of the thread's own
contribution stays the sum of all contributions. -/
theorem step_total {A : Type} [AddCommGroup A] {k : P → A} {c : S → A} {a : Action T I}
    (hwake : ∀ p, prog.asleep p ≠ none → k (prog.wake p) = k p)
    (hnext : ∀ t i p e, prog.next s.shared (s.pc t) i = some (s'.shared, p, e) →
      c s'.shared + k (s.pc t) = c s.shared + k p)
    (h : prog.step s a = some s') (hs : c s.shared = total k s.pc) : c s'.shared = total k s'.pc := by
  obtain ⟨t, i, pick, p, e, ha, hn, -, -, hd⟩ | ⟨t, ha, hsl, hsh, -, hp⟩ := step_cases h
  · have hw : total k s'.pc = total k (Function.update s.pc t p) :=
      total_congr (fun u => hd.woken.congr k hwake u)
    have hu := total_update k s.pc t p
    have hc := hnext _ _ _ _ hn
    rw [hw]
    apply add_right_cancel (b := k (s.pc t))
    rw [hc, hs, hu]
  · rw [hsh, hs, hp]
    exact (total_congr (fun u => (woken_update hsl).congr k hwake u)).symm

def State.moved (s : State S P M T) (t : T) (sh : S) (p : P) : State S P M T :=
  ⟨sh, s.owner, Function.update s.pc t p⟩

omit [DecidableEq M] [Fintype T] in
theorem State.moved_self {t : T} {sh : S} {p : P} : (s.moved t sh p).pc t = p := Function.update_self ..

omit [DecidableEq M] [Fintype T] in
theorem State.moved_moved {t : T} {sh sh' : S} {p p' : P} :
    (s.moved t sh p).moved t sh' p' = s.moved t sh' p' := by
  simp only [State.moved, Function.update_idem]

theorem run_moved {init : State S P M T → Prop} {t : T} {i : I} {sh : S} {p : P}
    (hn : prog.next s.shared (s.pc t) i = some (sh, p, .none)) :
    (prog.system init).step s (.run t i none) = some (s.moved t sh p) := by
  simp [Program.system, Program.step, hn, Effect.enabled, Program.deliver, Effect.owner, State.moved]

def Program.solo (prog : Program S P I M C) (i : I) : Nat → S → P → Option (S × P)
  | 0, sh, p => some (sh, p)
  | n + 1, sh, p =>
    match prog.next sh p i with
    | some (sh', p', .none) => prog.solo i n sh' p'
    | _ => none

theorem solo_reachable {init : State S P M T → Prop} {t : T} {i : I} {n : Nat} {sh : S} {p : P}
    (hs : Reachable (prog.system init) s) (h : prog.solo i n s.shared (s.pc t) = some (sh, p)) :
    Reachable (prog.system init) ⟨sh, s.owner, Function.update s.pc t p⟩ := by
  induction n generalizing s with
  | zero =>
    cases h
    rwa [Function.update_eq_self]
  | succ n ih =>
    simp only [Program.solo] at h
    split at h
    · next sh' p' hn =>
      have hr := ih (hs.step (run_moved hn)) (by simpa [State.moved] using h)
      rwa [State.moved, Function.update_idem] at hr
    · cases h

def Effect.held (e : Effect M C) (held : M → Bool) : M → Bool :=
  match e with
  | .lock m => Function.update held m true
  | .unlock m => Function.update held m false
  | _ => held

/-- Threads lock and unlock as `holds` reads off their local states. The local
invariant `ok` may use that a thread never locks a mutex twice. -/
structure Discipline (prog : Program S P I M C) (ok : P → Prop) (holds : P → M → Bool) : Prop where
  next : ∀ sh p i sh' p' e, ok p → prog.next sh p i = some (sh', p', e) →
    (∀ m, e = .lock m → holds p m = false) →
    ok p' ∧ holds p' = e.held (holds p) ∧ ∀ m, e = .unlock m → holds p m = true
  wake : ∀ p, prog.asleep p ≠ none → ok p → ok (prog.wake p) ∧ holds (prog.wake p) = holds p

def Owned (holds : P → M → Bool) (s : State S P M T) : Prop :=
  ∀ m t, s.owner m = some t ↔ holds (s.pc t) m = true

section Owned

omit [DecidableEq T] [DecidableEq M] [Fintype T]

theorem Owned.unique {holds : P → M → Bool} (h : Owned holds s) {m : M} {t u : T}
    (ht : holds (s.pc t) m = true) (hu : holds (s.pc u) m = true) : t = u := by
  have he := ((h m t).mpr ht).symm.trans ((h m u).mpr hu)
  simpa using he

theorem Owned.free {holds : P → M → Bool} (h : Owned holds s) {m : M} (hm : s.owner m = none) (t : T) :
    holds (s.pc t) m = false := by
  have ht := (h m t).not
  simp only [hm, reduceCtorEq, not_false_eq_true, true_iff, Bool.not_eq_true] at ht
  exact ht

end Owned

theorem step_owned {ok : P → Prop} {holds : P → M → Bool} (hd : Discipline prog ok holds)
    {a : Action T I} (h : prog.step s a = some s') (hok : ∀ t, ok (s.pc t)) (ho : Owned holds s) :
    (∀ t, ok (s'.pc t)) ∧ Owned holds s' := by
  -- a woken thread keeps the mutexes of the sleeper it was
  have hwoken : ∀ {pc pc' : T → P}, Woken prog pc pc' → (∀ u, ok (pc u)) →
      ∀ u, ok (pc' u) ∧ holds (pc' u) = holds (pc u) := by
    intro pc pc' hw hpc u
    obtain hu | ⟨ha, hu⟩ := hw u
    · exact ⟨hu ▸ hpc u, by rw [hu]⟩
    · exact hu ▸ hd.wake _ ha (hpc u)
  obtain ⟨t, i, pick, p, e, ha, hn, hlock, howner, hdel⟩ | ⟨t, ha, hsl, -, ho', hp⟩ := step_cases h
  · obtain ⟨hp, hh, hun⟩ := hd.next _ _ _ _ _ _ (hok t) hn (fun m hm => ho.free (hlock m hm) t)
    have hok' : ∀ u, ok (Function.update s.pc t p u) := by
      intro u
      by_cases hu : u = t
      · subst hu
        rwa [Function.update_self]
      · rw [Function.update_of_ne hu]
        exact hok u
    refine ⟨fun u => (hwoken hdel.woken hok' u).1, fun m u => ?_⟩
    rw [(hwoken hdel.woken hok' u).2, howner]
    by_cases hu : u = t
    · subst hu
      rw [Function.update_self, hh]
      have hm := ho m u
      cases e with
      | none | notifyOne _ | notifyAll _ => exact hm
      | lock m' | unlock m' =>
        by_cases hmm : m = m'
        · subst hmm
          simp [Effect.owner, Effect.held]
        · simp [Effect.owner, Effect.held, hmm, hm]
    · rw [Function.update_of_ne hu]
      have hm := ho m u
      cases e with
      | none | notifyOne _ | notifyAll _ => exact hm
      | lock m' =>
        by_cases hmm : m = m'
        · subst hmm
          simp [Effect.owner, ho.free (hlock m rfl) u, Ne.symm hu]
        · simp [Effect.owner, hmm, hm]
      | unlock m' =>
        by_cases hmm : m = m'
        · subst hmm
          have hne : ¬ holds (s.pc u) m = true := fun h => hu (ho.unique h (hun m rfl))
          simp [Effect.owner, hne]
        · simp [Effect.owner, hmm, hm]
  · have hw := hwoken (woken_update hsl) hok
    rw [← hp] at hw
    exact ⟨fun u => (hw u).1, fun m u => by rw [(hw u).2, ho']; exact ho m u⟩

/-- What the owner of a mutex knows about the data the mutex protects. Other
threads keep it, because they do not change that data without the mutex. -/
theorem step_guarded {holds : P → M → Bool} {m : M} {F : S → P → Prop} {a : Action T I}
    (ho : Owned holds s) (hwakes : ∀ p, prog.asleep p ≠ none → holds (prog.wake p) m = false)
    (hkeep : ∀ t i p e, prog.next s.shared (s.pc t) i = some (s'.shared, p, e) →
      holds (s.pc t) m = false → ∀ q, F s.shared q → F s'.shared q)
    (hnext : ∀ t i p e, prog.next s.shared (s.pc t) i = some (s'.shared, p, e) →
      (holds (s.pc t) m = true → F s.shared (s.pc t)) → holds p m = true → F s'.shared p)
    (h : prog.step s a = some s') (hs : ∀ t, holds (s.pc t) m = true → F s.shared (s.pc t)) :
    ∀ t, holds (s'.pc t) m = true → F s'.shared (s'.pc t) := by
  intro u hu
  obtain ⟨t, i, pick, p, e, ha, hn, -, -, hd⟩ | ⟨t, ha, hsl, hsh, -, hp⟩ := step_cases h
  · obtain hw | ⟨hsl, hw⟩ := hd.woken u
    · rw [hw] at hu ⊢
      by_cases hut : u = t
      · subst hut
        rw [Function.update_self] at hu ⊢
        exact hnext u i p e hn (hs u) hu
      · rw [Function.update_of_ne hut] at hu ⊢
        have ht : holds (s.pc t) m = false := by
          by_contra htm
          exact hut (ho.unique hu (by simpa using htm))
        exact hkeep t i p e hn ht _ (hs u hu)
    · rw [hw, hwakes _ hsl] at hu
      cases hu
  · have hw : Woken prog s.pc s'.pc := hp ▸ woken_update hsl
    obtain hw | ⟨hsl, hw⟩ := hw u
    · rw [hw] at hu ⊢
      rw [hsh]
      exact hs u hu
    · rw [hw, hwakes _ hsl] at hu
      cases hu

end RoblSampleCodes.ThreadProgram
