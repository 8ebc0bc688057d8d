import Mathlib.Data.Fintype.Basic
import RoblSampleCodes.Refinement

namespace RoblSampleCodes.ReadersWriters

open TransitionSystem Refinement

inductive Mode
  | outside
  | waiting
  | shared
  | exclusive
  deriving DecidableEq

inductive Action (T : Type)
  | acquireShared (t : T)
  | releaseShared (t : T)
  | request (t : T)
  | acquire (t : T)
  | release (t : T)

variable {T : Type} [DecidableEq T] [Fintype T]

/-- With `priority` no thread gets the lock shared while one waits for it. -/
def step (priority : Bool) (l : T → Mode) : Action T → Option (T → Mode)
  | .acquireShared t =>
    if l t = .outside ∧ (∀ u, l u ≠ .exclusive) ∧ (priority = true → ∀ u, l u ≠ .waiting) then
      some (Function.update l t .shared)
    else none
  | .releaseShared t => if l t = .shared then some (Function.update l t .outside) else none
  | .request t => if l t = .outside then some (Function.update l t .waiting) else none
  | .acquire t =>
    if l t = .waiting ∧ ∀ u, l u ≠ .shared ∧ l u ≠ .exclusive then
      some (Function.update l t .exclusive)
    else none
  | .release t => if l t = .exclusive then some (Function.update l t .outside) else none

def system (T : Type) [DecidableEq T] [Fintype T] (priority : Bool) : System (T → Mode) (Action T) :=
  ⟨(· = fun _ => .outside), step priority⟩

inductive Changes (priority : Bool) (l : T → Mode) : Mode → Mode → Prop
  | acquireShared (hexclusive : ∀ u, l u ≠ .exclusive)
      (hwaiting : priority = true → ∀ u, l u ≠ .waiting) : Changes priority l .outside .shared
  | releaseShared : Changes priority l .shared .outside
  | request : Changes priority l .outside .waiting
  | acquire (hfree : ∀ u, l u ≠ .shared ∧ l u ≠ .exclusive) : Changes priority l .waiting .exclusive
  | release : Changes priority l .exclusive .outside

variable {priority : Bool} {l l' : T → Mode}

theorem step_iff : (∃ b, step priority l b = some l') ↔
    ∃ t x, Changes priority l (l t) x ∧ l' = Function.update l t x := by
  constructor
  · rintro ⟨b, h⟩
    cases b with
    | acquireShared t =>
      obtain ⟨⟨ht, hexclusive, hwaiting⟩, h⟩ := Option.ite_none_right_eq_some.mp h
      exact ⟨t, .shared, ht ▸ .acquireShared hexclusive hwaiting, (Option.some.inj h).symm⟩
    | releaseShared t =>
      obtain ⟨ht, h⟩ := Option.ite_none_right_eq_some.mp h
      exact ⟨t, .outside, ht ▸ .releaseShared, (Option.some.inj h).symm⟩
    | request t =>
      obtain ⟨ht, h⟩ := Option.ite_none_right_eq_some.mp h
      exact ⟨t, .waiting, ht ▸ .request, (Option.some.inj h).symm⟩
    | acquire t =>
      obtain ⟨⟨ht, hfree⟩, h⟩ := Option.ite_none_right_eq_some.mp h
      exact ⟨t, .exclusive, ht ▸ .acquire hfree, (Option.some.inj h).symm⟩
    | release t =>
      obtain ⟨ht, h⟩ := Option.ite_none_right_eq_some.mp h
      exact ⟨t, .outside, ht ▸ .release, (Option.some.inj h).symm⟩
  · rintro ⟨t, x, h, rfl⟩
    generalize hy : l t = y at h
    cases h with
    | acquireShared hexclusive hwaiting =>
      exact ⟨.acquireShared t, if_pos ⟨hy, hexclusive, hwaiting⟩⟩
    | releaseShared => exact ⟨.releaseShared t, if_pos hy⟩
    | request => exact ⟨.request t, if_pos hy⟩
    | acquire hfree => exact ⟨.acquire t, if_pos ⟨hy, hfree⟩⟩
    | release => exact ⟨.release t, if_pos hy⟩

def Exclusive (l : T → Mode) : Prop :=
  ∀ t, l t = .exclusive → ∀ u ≠ t, l u ≠ .shared ∧ l u ≠ .exclusive

omit [DecidableEq T] [Fintype T] in
theorem Changes.free {y : Mode} (h : Changes priority l y .exclusive) (u : T) :
    l u ≠ .shared ∧ l u ≠ .exclusive := by
  cases h with
  | acquire hfree => exact hfree u

omit [DecidableEq T] [Fintype T] in
theorem Changes.excluded {x y : Mode} {u : T} (h : Changes priority l y x) (hu : l u = .exclusive) :
    x ≠ .shared ∧ x ≠ .exclusive := by
  cases h with
  | acquireShared hexclusive => exact absurd hu (hexclusive u)
  | acquire hfree => exact absurd hu (hfree u).2
  | releaseShared | request | release => exact ⟨nofun, nofun⟩

theorem exclusive (h : Reachable (system T priority) l) : Exclusive l := by
  induction h with
  | init h =>
    intro t ht
    rw [h] at ht
    cases ht
  | @step l l' b _ hs ih =>
    obtain ⟨t, x, hchanges, rfl⟩ := step_iff.mp ⟨b, hs⟩
    intro u hu v hv
    by_cases hut : u = t
    · subst hut
      rw [Function.update_self] at hu
      rw [Function.update_of_ne hv]
      exact (hu ▸ hchanges).free v
    · rw [Function.update_of_ne hut] at hu
      by_cases hvt : v = t
      · subst hvt
        rw [Function.update_self]
        exact hchanges.excluded hu
      · rw [Function.update_of_ne hvt]
        exact ih u hu v hv

/-- With priority, the threads that have the lock shared only become fewer while a thread waits. -/
theorem shared_of_waiting {t : T}
    (h : RunWhile (system T true) (fun l => l t = .waiting) l l') {u : T} (hu : l' u = .shared) :
    l u = .shared := by
  induction h with
  | refl => exact hu
  | @step k l' b _ ht hs ih =>
    obtain ⟨v, x, hchanges, rfl⟩ := step_iff.mp ⟨b, hs⟩
    by_cases huv : u = v
    · subst huv
      rw [Function.update_self] at hu
      subst hu
      generalize hy : k u = y at hchanges
      cases hchanges with
      | acquireShared _ hwaiting => exact absurd ht (hwaiting rfl t)
    · rw [Function.update_of_ne huv] at hu
      exact ih hu

/-- A lock whose steps change the mode of one thread at a time, and as the abstract lock does. -/
theorem refines_of_changes {σ α : Type} {M : System σ α} {view : σ → T → Mode}
    (hinit : ∀ s, M.init s → ∀ t, view s t = .outside)
    (hstep : ∀ s a s', Reachable M s → M.step s a = some s' → ∃ t x,
      view s' = Function.update (view s) t x ∧ (x = view s t ∨ Changes priority (view s) (view s t) x)) :
    Refines M (system T priority) view := by
  refine ⟨fun s hs => funext (hinit s hs), fun s a s' hs hstep' => ?_⟩
  obtain ⟨t, x, hview, rfl | hchanges⟩ := hstep s a s' hs hstep'
  · exact .inl (by rw [hview, Function.update_eq_self])
  · exact .inr (step_iff.mpr ⟨t, x, hchanges, hview⟩)

end RoblSampleCodes.ReadersWriters
