import RoblSampleCodes.MidListenerInvariant

namespace RoblSampleCodes.MidListenerRegistry

open TransitionSystem TaskProgram MidListener MidListenerInvariant

variable {τ Q : Type}

def handleOf : CallPc τ → Option Nat
  | .registerUnlock handle | .cancelLock (some handle) | .erase (some handle) => some handle
  | _ => none

/-- The range of a `Notify` is what was registered under its mid and not cancelled. -/
structure RangeExact (nt : Notification τ) : Prop where
  distinct : (nt.range.map Registration.handle).Nodup
  mem : ∀ r, r ∈ nt.range ↔ r ∈ nt.registered ∧ r.mid = nt.mid ∧ r.handle ∉ nt.cancelled

structure Registry (m : Members τ) : Prop where
  numbered : m.registered.map Registration.handle = List.range m.registered.length
  distinct : (m.callbackMultimap.map Registration.handle).Nodup
  mem : ∀ r, r ∈ m.callbackMultimap ↔ r ∈ m.registered ∧ r.handle ∉ m.cancelled
  handles : ∀ handle ∈ m.handles, handle < m.registered.length
  cancelled : ∀ handle ∈ m.cancelled, handle < m.registered.length
  notifications : ∀ nt ∈ m.notifications, RangeExact nt

section Registry

variable {m m' : Members τ} {n : Nat} {c c' : CallPc τ} {e : Effect Unit (Pc τ)}

theorem Registry.handle_lt (h : Registry m) {r : Registration τ} (hr : r ∈ m.registered) :
    r.handle < m.registered.length := by
  rw [← List.mem_range, ← h.numbered]
  exact List.mem_map_of_mem hr

theorem Registry.emplace (h : Registry m) {position : Nat} (hle : position ≤ m.callbackMultimap.length)
    (mid : BitVec 32) (type : MessageType τ) :
    Registry { m with
      callbackMultimap := m.callbackMultimap.insertIdx position ⟨m.registered.length, mid, type⟩
      registered := m.registered ++ [⟨m.registered.length, mid, type⟩] } := by
  have hlt : ∀ {k : Nat}, k < m.registered.length →
      k < (m.registered ++ [(⟨m.registered.length, mid, type⟩ : Registration τ)]).length := by
    intro k hk
    rw [List.length_append]
    exact Nat.lt_add_right _ hk
  have hnew : m.registered.length ∉ m.callbackMultimap.map Registration.handle := by
    intro hmem
    obtain ⟨r, hr, he⟩ := List.mem_map.mp hmem
    exact absurd (h.handle_lt ((h.mem r).mp hr).1) (by rw [he]; exact Nat.lt_irrefl _)
  have hperm := List.perm_insertIdx (⟨m.registered.length, mid, type⟩ : Registration τ)
    m.callbackMultimap hle
  refine ⟨?_, ?_, fun r => ?_, fun k hk => hlt (h.handles k hk), fun k hk => hlt (h.cancelled k hk),
    h.notifications⟩
  · rw [List.map_append, h.numbered, List.length_append, List.length_singleton, List.range_succ]
    rfl
  · exact (hperm.map Registration.handle).nodup_iff.mpr (List.nodup_cons.mpr ⟨hnew, h.distinct⟩)
  · rw [hperm.mem_iff, List.mem_cons, h.mem, List.mem_append, List.mem_singleton]
    constructor
    · rintro (rfl | ⟨hr, hc⟩)
      · exact ⟨.inr rfl, fun hc => absurd (h.cancelled _ hc) (Nat.lt_irrefl _)⟩
      · exact ⟨.inl hr, hc⟩
    · rintro ⟨hr | rfl, hc⟩
      · exact .inr ⟨hr, hc⟩
      · exact .inl rfl

theorem Registry.erase (h : Registry m) {handle : Nat} (hlt : handle < m.registered.length) :
    Registry { m with
      callbackMultimap := m.callbackMultimap.filter (fun r => r.handle ≠ handle)
      cancelled := m.cancelled ++ [handle] } := by
  refine ⟨h.numbered, h.distinct.sublist (List.filter_sublist.map _), fun r => ?_, h.handles,
    fun k hk => ?_, h.notifications⟩
  · simp only [List.mem_filter, decide_eq_true_eq, h.mem, List.mem_append,
      List.mem_singleton, not_or, and_assoc]
  · obtain hk | hk := List.mem_append.mp hk
    · exact h.cancelled k hk
    · rw [List.mem_singleton.mp hk]
      exact hlt

theorem Registry.notify (h : Registry m) (mid message : BitVec 32) :
    Registry { m with
      notifications := m.notifications ++ [⟨mid, message,
        m.callbackMultimap.filter (fun r => r.mid = mid), m.registered, m.cancelled⟩] } := by
  refine ⟨h.numbered, h.distinct, h.mem, h.handles, h.cancelled, fun nt hnt => ?_⟩
  obtain hnt | hnt := List.mem_append.mp hnt
  · exact h.notifications nt hnt
  · rw [List.mem_singleton.mp hnt]
    refine ⟨h.distinct.sublist (List.filter_sublist.map _), fun r => ?_⟩
    simp only [List.mem_filter, decide_eq_true_eq, h.mem]
    tauto

theorem Registry.calls (h : Registry m) (hhandle : ∀ k, handleOf c = some k → k < m.registered.length)
    (hcalls : Calls m n c m' c' e) :
    Registry m' ∧ (∀ k, handleOf c' = some k → k < m'.registered.length) ∧
      m.registered.length ≤ m'.registered.length := by
  cases hcalls with
  | register | cancelEnd | notify | registerLock | eraseEnd | cancelUnlock | notifyLock | launch | loopEnd
  | wait | notifyUnlock => exact ⟨h, by simp [handleOf], Nat.le_refl _⟩
  | cancel hmem =>
    refine ⟨⟨h.numbered, h.distinct, h.mem, fun k hk => h.handles k (List.mem_of_mem_erase hk),
      h.cancelled, h.notifications⟩, fun k hk => ?_, Nat.le_refl _⟩
    cases hk
    exact h.handles _ hmem
  | @emplace mid type position hle =>
    refine ⟨h.emplace hle mid type, fun k hk => ?_, ?_⟩
    · cases hk
      simp
    · simp
  | registerUnlock =>
    refine ⟨⟨h.numbered, h.distinct, h.mem, fun k hk => ?_, h.cancelled, h.notifications⟩,
      by simp [handleOf], Nat.le_refl _⟩
    obtain hk | hk := List.mem_append.mp hk
    · exact h.handles k hk
    · exact hhandle k (by rw [List.mem_singleton.mp hk]; rfl)
  | @cancelLock it =>
    refine ⟨h, fun k hk => hhandle k ?_, Nat.le_refl _⟩
    cases it <;> exact hk
  | erase => exact ⟨h.erase (hhandle _ rfl), by simp [handleOf], Nat.le_refl _⟩
  | @equalRange mid message range hrange =>
    subst hrange
    exact ⟨h.notify mid message, by simp [handleOf], Nat.le_refl _⟩

theorem Registry.executes {int : τ} {p p' : Pc τ} (h : Registry m) (hexec : Executes int m p m' p') :
    Registry m' ∧ m.registered.length ≤ m'.registered.length := by
  obtain ⟨events, rfl⟩ := hexec.log
  exact ⟨⟨h.numbered, h.distinct, h.mem, h.handles, h.cancelled, h.notifications⟩, Nat.le_refl _⟩

end Registry

section Step

variable [DecidableEq τ] [DecidableEq Q] {int : τ} {s : MidState τ Q}

structure Registered (s : MidState τ Q) : Prop where
  registry : Registry s.shared
  calls : ∀ t k, handleOf (callOf (s.pc t)) = some k → k < s.shared.registered.length

theorem registered (hs : Reachable (system int Q) s) : Registered s := by
  induction hs with
  | init h =>
    subst h
    refine ⟨⟨rfl, List.nodup_nil, ?_, ?_, ?_, ?_⟩, fun t k hk => ?_⟩
    · simp [initial]
    · simp [initial]
    · simp [initial]
    · simp [initial]
    · cases t <;> cases hk
  | @step s s' a hs h ih =>
    obtain ⟨p, e, hstep⟩ := step_cases h
    have hinv := inv hs
    obtain ⟨hregistry, hself, hle⟩ : Registry s'.shared ∧
        (∀ k, handleOf (callOf p) = some k → k < s'.shared.registered.length) ∧
        s.shared.registered.length ≤ s'.shared.registered.length := by
      obtain hcalls | ⟨hexec, -⟩ := (next_moves hstep.next).calls
      · exact ih.registry.calls (ih.calls a.thread) hcalls
      · obtain ⟨hregistry, hle⟩ := ih.registry.executes hexec
        refine ⟨hregistry, fun k hk => ?_, hle⟩
        rw [hexec.outside.2] at hk
        cases hk
    refine ⟨hregistry, fun t k hk => ?_⟩
    by_cases ht : t = a.thread
    · subst ht
      rw [hstep.self hinv.fresh] at hk
      exact hself k hk
    · obtain hsame | ⟨p₀, rfl, -, hnew⟩ := hstep.other ht
      · rw [hsame] at hk
        exact Nat.lt_of_lt_of_le (ih.calls t k hk) hle
      · obtain ⟨k', message, executor, rest, -, -, -, rfl⟩ := (next_moves hstep.next).spawn
        rw [hnew] at hk
        cases hk

end Step

end RoblSampleCodes.MidListenerRegistry
