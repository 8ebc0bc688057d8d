import RoblSampleCodes.TransitionSystem

namespace RoblSampleCodes.Refinement

open TransitionSystem

variable {σ τ υ α β γ : Type} {M : System σ α} {A : System τ β} {B : System υ γ}

/-- Under the abstraction `abs` a step of `M` is a step of `A`, or it changes nothing. -/
structure Refines (M : System σ α) (A : System τ β) (abs : σ → τ) : Prop where
  init : ∀ s, M.init s → A.init (abs s)
  step : ∀ s a s', Reachable M s → M.step s a = some s' →
    abs s' = abs s ∨ ∃ b, A.step (abs s) b = some (abs s')

theorem Refines.exec {abs : σ → τ} (h : Refines M A abs) {s t : σ} {as : List α} (hs : Reachable M s)
    (he : exec M s as = some t) : ∃ bs, exec A (abs s) bs = some (abs t) ∧ bs.length ≤ as.length := by
  induction as generalizing s with
  | nil =>
    rw [TransitionSystem.exec, Option.some.injEq] at he
    exact ⟨[], by rw [he]; rfl, Nat.le_refl 0⟩
  | cons a as ih =>
    rw [TransitionSystem.exec, Option.bind_eq_some_iff] at he
    obtain ⟨u, hu, he⟩ := he
    obtain ⟨bs, hbs, hlen⟩ := ih (hs.step hu) he
    obtain hsame | ⟨b, hb⟩ := h.step s a u hs hu
    · exact ⟨bs, hsame ▸ hbs, hlen.trans (Nat.le_succ _)⟩
    · refine ⟨b :: bs, ?_, Nat.succ_le_succ hlen⟩
      rw [TransitionSystem.exec, hb, Option.bind_some, hbs]

theorem Refines.reachable {abs : σ → τ} (h : Refines M A abs) {s : σ} (hs : Reachable M s) :
    Reachable A (abs s) := by
  induction hs with
  | init hs => exact .init (h.init _ hs)
  | @step s s' a hs hstep ih =>
    obtain hsame | ⟨b, hb⟩ := h.step s a s' hs hstep
    · exact hsame ▸ ih
    · exact ih.step hb

theorem Refines.trans {f : σ → τ} {g : τ → υ} (hf : Refines M A f) (hg : Refines A B g) :
    Refines M B (g ∘ f) := by
  refine ⟨fun s hs => hg.init _ (hf.init s hs), fun s a s' hs hstep => ?_⟩
  obtain hsame | ⟨b, hb⟩ := hf.step s a s' hs hstep
  · exact .inl (congrArg g hsame)
  · exact hg.step _ b _ (hf.reachable hs) hb

end RoblSampleCodes.Refinement
