import Mathlib

namespace RoblSampleCodes.TransitionSystem

variable {σ α : Type}

/-- A system driven by a scheduler. The step is `none` when the chosen
action is not enabled in the state. -/
structure System (σ α : Type) where
  init : σ → Prop
  step : σ → α → Option σ

inductive Reachable (M : System σ α) : σ → Prop
  | init {s : σ} (h : M.init s) : Reachable M s
  | step {s s' : σ} {a : α} (h : Reachable M s) (hs : M.step s a = some s') : Reachable M s'

inductive RunWhile (M : System σ α) (P : σ → Prop) (s : σ) : σ → Prop
  | refl : RunWhile M P s s
  | step {u v : σ} {a : α} (h : RunWhile M P s u) (hp : P u) (hs : M.step u a = some v) : RunWhile M P s v

def exec (M : System σ α) (s : σ) : List α → Option σ
  | [] => some s
  | a :: as => (M.step s a).bind (fun s' => exec M s' as)

def Enabled (M : System σ α) (s : σ) (a : α) : Prop := (M.step s a).isSome

variable {M : System σ α} {s s' : σ}

/-- What every step of a schedule preserves holds at its end. -/
theorem exec_induction {P : σ → Prop} {as : List α}
    (hstep : ∀ a ∈ as, ∀ u v, P u → M.step u a = some v → P v) (h : P s) (he : exec M s as = some s') :
    P s' := by
  induction as generalizing s with
  | nil =>
    simp only [exec, Option.some.injEq] at he
    exact he ▸ h
  | cons a as ih =>
    simp only [exec, Option.bind_eq_some_iff] at he
    obtain ⟨u, hu, he⟩ := he
    have hhead := hstep a List.mem_cons_self s u h hu
    exact ih (fun b hb => hstep b (List.mem_cons_of_mem a hb)) hhead he

theorem Reachable.exec {as : List α} (h : Reachable M s) (he : exec M s as = some s') :
    Reachable M s' :=
  exec_induction (fun _ _ _ _ hu hs => .step hu hs) h he

theorem exists_reachable {P : σ → Prop} [DecidablePred P] (hs : M.init s) (as : List α)
    (h : (exec M s as).any (fun t => decide (P t)) = true) : ∃ t, Reachable M t ∧ P t := by
  obtain ⟨t, he, ht⟩ := (Option.any_eq_true _ _).mp h
  exact ⟨t, .exec (.init hs) he, of_decide_eq_true ht⟩

theorem RunWhile.reachable {P : σ → Prop} (h : RunWhile M P s s') (hs : Reachable M s) :
    Reachable M s' := by
  induction h with
  | refl => exact hs
  | step _ _ hstep ih => exact ih.step hstep

inductive ReachableBy (M : System σ α) (C : σ → α → Prop) : σ → Prop
  | init {s : σ} (h : M.init s) : ReachableBy M C s
  | step {s s' : σ} {a : α} (h : ReachableBy M C s) (hc : C s a) (hs : M.step s a = some s') :
      ReachableBy M C s'

theorem ReachableBy.reachable {C : σ → α → Prop} (h : ReachableBy M C s) : Reachable M s := by
  induction h with
  | init h => exact .init h
  | step _ _ hs ih => exact ih.step hs

theorem ReachableBy.exec {C : σ → α → Prop} {as : List α} (h : ReachableBy M C s)
    (hC : ∀ a ∈ as, ∀ u, C u a) (he : exec M s as = some s') : ReachableBy M C s' :=
  exec_induction (fun a ha u _ hu hs => .step hu (hC a ha u) hs) h he

theorem exists_reachableBy {C : σ → α → Prop} {P : σ → Prop} [DecidablePred P] (hs : M.init s)
    (as : List α) (hC : ∀ a ∈ as, ∀ u, C u a)
    (h : (exec M s as).any (fun t => decide (P t)) = true) : ∃ t, ReachableBy M C t ∧ P t := by
  obtain ⟨t, he, ht⟩ := (Option.any_eq_true _ _).mp h
  exact ⟨t, .exec (.init hs) hC he, of_decide_eq_true ht⟩

/-- Runs from `s` all of whose steps meet `C`. -/
inductive RunBy (M : System σ α) (C : σ → α → Prop) (s : σ) : σ → Prop
  | refl : RunBy M C s s
  | step {u v : σ} {a : α} (h : RunBy M C s u) (hc : C u a) (hs : M.step u a = some v) : RunBy M C s v

theorem RunBy.invariant {C : σ → α → Prop} {P : σ → Prop} (h : RunBy M C s s') (hs : P s)
    (hstep : ∀ u a v, P u → C u a → M.step u a = some v → P v) : P s' := by
  induction h with
  | refl => exact hs
  | step _ hc hv ih => exact hstep _ _ _ ih hc hv

theorem RunBy.head {C : σ → α → Prop} {u v : σ} {a : α} (h : RunBy M C u v) (hc : C s a)
    (hs : M.step s a = some u) : RunBy M C s v := by
  induction h with
  | refl => exact .step .refl hc hs
  | step _ hc' hv ih => exact .step ih hc' hv

/-- `C` is the exact condition on the steps for `P`. It keeps `P`, and the first step
that breaks it leads on to a state without `P`. -/
structure ExactCondition (M : System σ α) (C : σ → α → Prop) (P : σ → Prop) : Prop where
  safe : ∀ s, ReachableBy M C s → P s
  sharp : ∀ s a s', ReachableBy M C s → M.step s a = some s' → ¬ C s a →
    ∃ as t, exec M s' as = some t ∧ ¬ P t

theorem ReachableBy.invariant {C : σ → α → Prop} {I : σ → Prop} (h : ReachableBy M C s)
    (hinit : ∀ u, M.init u → I u) (hstep : ∀ u a v, I u → C u a → M.step u a = some v → I v) : I s := by
  induction h with
  | init h => exact hinit _ h
  | step _ hc hs ih => exact hstep _ _ _ ih hc hs

theorem exactCondition_of_invariant {C : σ → α → Prop} {P : σ → Prop} (I : σ → Prop)
    (hinit : ∀ u, M.init u → I u) (hstep : ∀ u a v, I u → C u a → M.step u a = some v → I v)
    (hsafe : ∀ u, I u → P u)
    (hsharp : ∀ u a v, I u → M.step u a = some v → ¬ C u a → ∃ as t, exec M v as = some t ∧ ¬ P t) :
    ExactCondition M C P :=
  ⟨fun u hu => hsafe u (hu.invariant hinit hstep),
    fun u a v hu => hsharp u a v (hu.invariant hinit hstep)⟩

def CanReach (M : System σ α) (P : σ → Prop) (s : σ) : Prop := ∃ as t, exec M s as = some t ∧ P t

theorem CanReach.now {P : σ → Prop} (h : P s) : CanReach M P s := ⟨[], s, rfl, h⟩

theorem CanReach.step {P : σ → Prop} {a : α} (h : CanReach M P s') (hs : M.step s a = some s') :
    CanReach M P s := by
  obtain ⟨as, t, he, ht⟩ := h
  refine ⟨a :: as, t, ?_, ht⟩
  rw [TransitionSystem.exec, hs, Option.bind_some, he]

/-- Runs from a reachable state in which `P` holds all the time, with the sum of the increases of `f`. -/
inductive Gains (M : System σ α) (P : σ → Prop) (f : σ → Nat) : σ → Nat → Prop
  | start {s : σ} (hs : Reachable M s) (hp : P s) : Gains M P f s 0
  | step {s s' : σ} {a : α} {n : Nat} (h : Gains M P f s n) (hs : M.step s a = some s') (hp : P s') :
      Gains M P f s' (n + (f s' - f s))

theorem Gains.reachable {P : σ → Prop} {f : σ → Nat} {n : Nat} (h : Gains M P f s n) : Reachable M s := by
  induction h with
  | start hs => exact hs
  | step _ hs _ ih => exact ih.step hs

theorem Gains.holds {P : σ → Prop} {f : σ → Nat} {n : Nat} (h : Gains M P f s n) : P s := by
  cases h <;> assumption

def Unbounded (M : System σ α) (P : σ → Prop) (f : σ → Nat) : Prop :=
  ∀ bound, ∃ s n, bound ≤ n ∧ Gains M P f s n

/-- Any number of increases, by a relay that can always be run on. -/
theorem Unbounded.of_relay {P R : σ → Prop} {f : σ → Nat} (hinit : ∃ s, R s ∧ Gains M P f s 0)
    (hturn : ∀ s n, R s → Gains M P f s n → ∃ s', R s' ∧ Gains M P f s' (n + 1)) : Unbounded M P f := by
  have hruns : ∀ bound, ∃ s, R s ∧ Gains M P f s bound := by
    intro bound
    induction bound with
    | zero => exact hinit
    | succ n ih =>
      obtain ⟨s, hr, h⟩ := ih
      exact hturn s n hr h
  intro bound
  obtain ⟨s, -, h⟩ := hruns bound
  exact ⟨s, bound, Nat.le_refl _, h⟩

/-- In runs whose steps meet `C`, `P` holds after at most `n` actions of `A`. Until
then one of them is enabled, whatever the other actions do. -/
def Within (M : System σ α) (C : σ → α → Prop) (A : α → Prop) (P : σ → Prop) : Nat → σ → Prop
  | 0, s => P s
  | n + 1, s => P s ∨ ∀ u, RunBy M (fun s a => C s a ∧ ¬ A a) s u →
      (∃ a, A a ∧ C u a ∧ Enabled M u a) ∧
        ∀ a v, A a → C u a → M.step u a = some v → Within M C A P n v

theorem Within.now {C : σ → α → Prop} {A : α → Prop} {P : σ → Prop} (h : P s) (n : Nat) :
    Within M C A P n s := by
  cases n with
  | zero => exact h
  | succ n => exact .inl h

/-- An invariant `I` with a measure that the actions of `A` decrease and the other
actions do not increase, until `P` holds. -/
theorem within_of_measure {C : σ → α → Prop} {A : α → Prop} {P : σ → Prop} (I : σ → Prop)
    (μ : σ → Nat) (henabled : ∀ u, I u → ∃ a, A a ∧ C u a ∧ Enabled M u a)
    (hother : ∀ u a v, I u → C u a → ¬ A a → M.step u a = some v → I v ∧ μ v ≤ μ u)
    (hown : ∀ u a v, I u → C u a → A a → M.step u a = some v → P v ∨ I v ∧ μ v < μ u) {n : Nat}
    (hs : I s) (hn : μ s < n) : Within M C A P n s := by
  induction n generalizing s with
  | zero => exact absurd hn (Nat.not_lt_zero _)
  | succ n ih =>
    refine .inr fun u hu => ?_
    obtain ⟨hu, hle⟩ : I u ∧ μ u ≤ μ s := by
      refine hu.invariant (P := fun u => I u ∧ μ u ≤ μ s) ⟨hs, Nat.le_refl _⟩ ?_
      intro u a v h hc hv
      obtain ⟨hi, hle⟩ := hother u a v h.1 hc.1 hc.2 hv
      exact ⟨hi, hle.trans h.2⟩
    refine ⟨henabled u hu, fun a v ha hc hv => ?_⟩
    obtain hp | ⟨hi, hlt⟩ := hown u a v hu hc ha hv
    · exact .now hp n
    · exact ih hi (by omega)

/-- With a measure that every step decreases the runs are no longer than it. -/
theorem length_le_of_measure {Inv : σ → Prop} {μ : σ → Nat}
    (hμ : ∀ u a v, Inv u → M.step u a = some v → Inv v ∧ μ v < μ u) {as : List α} (h : Inv s)
    (he : exec M s as = some s') : as.length + μ s' ≤ μ s := by
  induction as generalizing s with
  | nil =>
    simp only [TransitionSystem.exec, Option.some.injEq] at he
    rw [he, List.length_nil, Nat.zero_add]
  | cons a as ih =>
    simp only [TransitionSystem.exec, Option.bind_eq_some_iff] at he
    obtain ⟨u, hu, he⟩ := he
    obtain ⟨hinv, hlt⟩ := hμ s a u h hu
    have hle := ih hinv he
    rw [List.length_cons]
    omega

theorem length_le_of_gain {Inv G : σ → Prop} {μ : σ → Nat} {gain : α → Nat}
    (hinv : ∀ u a v, Inv u → M.step u a = some v → Inv v)
    (hμ : ∀ u a v, Inv u → M.step u a = some v → G v → G u ∧ μ v + 1 ≤ μ u + gain a) {as : List α}
    (h : Inv s) (he : exec M s as = some s') (hG : G s') :
    G s ∧ as.length + μ s' ≤ μ s + (as.map gain).sum := by
  induction as generalizing s with
  | nil =>
    simp only [TransitionSystem.exec, Option.some.injEq] at he
    subst he
    exact ⟨hG, (Nat.zero_add _).le⟩
  | cons a as ih =>
    simp only [TransitionSystem.exec, Option.bind_eq_some_iff] at he
    obtain ⟨u, hu, he⟩ := he
    obtain ⟨hGu, hle⟩ := ih (hinv s a u h hu) he
    obtain ⟨hGs, hstep⟩ := hμ s a u h hu hGu
    refine ⟨hGs, ?_⟩
    rw [List.length_cons, List.map_cons, List.sum_cons]
    omega

theorem exists_drained (A : α → Prop) (Inv : σ → Prop) (μ : σ → Nat)
    (hμ : ∀ s a s', Inv s → A a → M.step s a = some s' → Inv s' ∧ μ s' < μ s) (h : Inv s) :
    ∃ as t, exec M s as = some t ∧ Inv t ∧ ∀ a, A a → ¬ Enabled M t a := by
  induction hn : μ s using Nat.strong_induction_on generalizing s with
  | h n ih =>
    by_cases ht : ∀ a, A a → ¬ Enabled M s a
    · exact CanReach.now ⟨h, ht⟩
    · push Not at ht
      obtain ⟨a, hA, ha⟩ := ht
      obtain ⟨u, hu⟩ := Option.isSome_iff_exists.mp ha
      obtain ⟨hinv, hlt⟩ := hμ s a u h hA hu
      exact CanReach.step (ih (μ u) (hn ▸ hlt) hinv rfl) hu

theorem exists_terminal (μ : σ → Nat)
    (hμ : ∀ s a s', Reachable M s → M.step s a = some s' → μ s' < μ s) (h : Reachable M s) :
    ∃ t, Reachable M t ∧ (∃ as, TransitionSystem.exec M s as = some t) ∧ ∀ a, ¬ Enabled M t a := by
  obtain ⟨as, t, he, hr, ht⟩ := exists_drained (fun _ => True) (Reachable M) μ
    (fun s a s' hs _ hstep => ⟨hs.step hstep, hμ s a s' hs hstep⟩) h
  exact ⟨t, hr, ⟨as, he⟩, fun a => ht a trivial⟩

end RoblSampleCodes.TransitionSystem
