import RoblSampleCodes.UpdateMediator

namespace RoblSampleCodes.UpdateMediatorInvariant

open TransitionSystem ThreadProgram UpdateMediator

variable {D : Type} [DecidableEq D] {md : Mediator D} {updated : D → Bool}

def stack : Place D → List (Frame D)
  | .running _ st => st
  | _ => []

def locked (f : Frame D) : Bool :=
  match f.phase with
  | .lock => false
  | _ => true

def opened (f : Frame D) : Bool :=
  match f.phase with
  | .visit _ | .update | .updating | .mark => true
  | _ => false

def held (p : Place D) : List D := ((stack p).filter locked).map Frame.device

section Held

variable (i : Nat) (d : D) (rest : List (Frame D))

omit [DecidableEq D]

theorem held_lock : held (.running i (⟨d, .lock⟩ :: rest)) = held (.running i rest) := rfl

theorem held_check : held (.running i (⟨d, .check⟩ :: rest)) = d :: held (.running i rest) := rfl

theorem held_unlock : held (.running i (⟨d, .unlock⟩ :: rest)) = d :: held (.running i rest) := rfl

end Held

def holds (p : Place D) (d : D) : Bool := decide (d ∈ held p)

theorem holds_iff {p : Place D} {d : D} : holds p d = true ↔ d ∈ held p := decide_eq_true_iff

omit [DecidableEq D] in
theorem opened_locked {f : Frame D} (h : opened f = true) : locked f = true := by
  obtain ⟨d, phase⟩ := f
  cases phase <;> first | rfl | cases h

theorem discipline (md : Mediator D) : Discipline (program md) (fun p => (held p).Nodup) holds := by
  refine ⟨fun sh p u sh' p' e hok h hfree => ?_, fun p h _ => absurd rfl h⟩
  have hsame : ∀ q : Place D, held q = held p → (held q).Nodup ∧ holds q = holds p := by
    intro q hq
    exact ⟨hq ▸ hok, by funext d; simp [holds, hq]⟩
  cases next_moves h with
  | lock =>
    rename_i i d rest
    have hd : d ∉ held (.running i rest) := of_decide_eq_false (hfree d rfl)
    refine ⟨List.nodup_cons.mpr ⟨hd, hok⟩, ?_, fun x hx => by cases hx⟩
    funext x
    rw [Bool.eq_iff_iff, holds_iff, held_check]
    by_cases hx : x = d
    · simp [Effect.held, hx]
    · rw [Effect.held, Function.update_of_ne hx, holds_iff, held_lock]
      simp [hx]
  | unlock =>
    rename_i i d rest
    obtain ⟨hd, hrest⟩ : d ∉ held (.running i rest) ∧ (held (.running i rest)).Nodup :=
      List.nodup_cons.mp hok
    refine ⟨hrest, ?_, fun x hx => ?_⟩
    · funext x
      rw [Bool.eq_iff_iff, holds_iff]
      by_cases hx : x = d
      · simpa [Effect.held, hx] using hd
      · rw [Effect.held, Function.update_of_ne hx, holds_iff, held_unlock]
        simp [hx]
    · cases hx
      rw [holds_iff, held_unlock]
      exact List.mem_cons_self
  | launch _ | launched _ | joined _ _ | returns _ | start _ _ | skip _ | visit _ _ | leaf _ _ _
  | descend | visited | update | updating | mark | finish =>
    obtain ⟨hn, hh⟩ := hsame _ rfl
    exact ⟨hn, hh, fun x hx => by cases hx⟩

/-- What an activation knows: the dependencies it has dealt with are updated
when they were added. `above` is the device of the activation it waits for. -/
def FrameOk (md : Mediator D) (u : D → Bool) (above : List D) (f : Frame D) : Prop :=
  match f.phase with
  | .lock | .check => above = []
  | .visit deps =>
    f.device ∈ md.devices ∧ ∃ seen, md.deps f.device = seen ++ (above ++ deps) ∧
      ∀ x ∈ seen, x ∈ md.devices → u x = true
  | .update | .updating | .mark =>
    above = [] ∧ f.device ∈ md.devices ∧ ∀ x ∈ md.deps f.device, x ∈ md.devices → u x = true
  | .unlock => above = [] ∧ (f.device ∈ md.devices → u f.device = true)

def StackOk (md : Mediator D) (u : D → Bool) : List D → List (Frame D) → Prop
  | _, [] => True
  | above, f :: rest => FrameOk md u above f ∧ StackOk md u [f.device] rest

def RootOk (md : Mediator D) (u : D → Bool) (i : Nat) (ds : List D) : Prop :=
  ∀ d, md.devices[i]? = some d → ds.getLast? = some d ∨ (ds = [] ∧ u d = true)

def PlaceOk (md : Mediator D) (u : D → Bool) : Place D → Prop
  | .running i st => StackOk md u [] st ∧ RootOk md u i (st.map Frame.device)
  | .done i => RootOk md u i []
  | _ => True

section Mono

omit [DecidableEq D]

variable {u u' : D → Bool} (hu : ∀ x, u x = true → u' x = true)

include hu

theorem FrameOk.mono {above : List D} {f : Frame D} (h : FrameOk md u above f) :
    FrameOk md u' above f := by
  obtain ⟨d, phase⟩ := f
  cases phase with
  | lock | check => exact h
  | visit deps =>
    obtain ⟨hd, seen, he, hs⟩ := h
    exact ⟨hd, seen, he, fun x hx ha => hu x (hs x hx ha)⟩
  | update | updating | mark => exact ⟨h.1, h.2.1, fun x hx ha => hu x (h.2.2 x hx ha)⟩
  | unlock => exact ⟨h.1, fun ha => hu d (h.2 ha)⟩

theorem StackOk.mono {above : List D} {st : List (Frame D)} (h : StackOk md u above st) :
    StackOk md u' above st := by
  induction st generalizing above with
  | nil => trivial
  | cons f rest ih => exact ⟨h.1.mono hu, ih h.2⟩

theorem PlaceOk.mono {p : Place D} (h : PlaceOk md u p) : PlaceOk md u' p := by
  have hroot : ∀ {i ds}, RootOk md u i ds → RootOk md u' i ds := fun hr d hd =>
    (hr d hd).imp id (fun h => ⟨h.1, hu d h.2⟩)
  cases p with
  | running i st => exact ⟨h.1.mono hu, hroot h.2⟩
  | done i => exact hroot h
  | launch _ | join _ | returned | created _ => trivial

end Mono

theorem moves_updated {sh sh' : Shared D} {p p' : Place D} {e : Effect D Empty}
    (h : Moves md sh p sh' p' e) {x : D} (hx : sh.updated x = true) : sh'.updated x = true := by
  cases h with
  | mark =>
    rename_i i d rest
    by_cases hxd : x = d <;> simp [hxd, hx]
  | _ => exact hx

theorem moves_placeOk {sh sh' : Shared D} {p p' : Place D} {e : Effect D Empty}
    (h : Moves md sh p sh' p' e) (hp : PlaceOk md sh.updated p) : PlaceOk md sh'.updated p' := by
  cases h with
  | launch _ | launched _ | joined _ _ | returns _ => trivial
  | start _ hd => exact ⟨⟨rfl, trivial⟩, fun d h => .inl (by simpa [hd] using h)⟩
  | lock => exact hp
  | skip h => exact ⟨⟨⟨hp.1.1, h⟩, hp.1.2⟩, hp.2⟩
  | visit hd _ => exact ⟨⟨⟨hd, [], by rw [hp.1.1]; rfl, nofun⟩, hp.1.2⟩, hp.2⟩
  | leaf hd _ hn => exact ⟨⟨⟨hp.1.1, hd, by rw [hn]; nofun⟩, hp.1.2⟩, hp.2⟩
  | descend =>
    obtain ⟨⟨hf, hrest⟩, hroot⟩ := hp
    exact ⟨⟨rfl, hf, hrest⟩, fun d h =>
      (hroot d h).imp (fun h => by simpa using h) (fun h => by cases h.1)⟩
  | visited =>
    obtain ⟨⟨⟨hd, seen, he, hs⟩, hrest⟩, hroot⟩ := hp
    exact ⟨⟨⟨rfl, hd, fun x hx => hs x (by simpa [he] using hx)⟩, hrest⟩, hroot⟩
  | update | updating => exact hp
  | mark =>
    rename_i i d rest
    have hmark : Moves md sh (.running i (⟨d, .mark⟩ :: rest)) _ _ _ := .mark
    have hmono := fun x => moves_updated hmark (x := x)
    obtain ⟨⟨hf, hrest⟩, hroot⟩ := hp
    exact ⟨⟨⟨hf.1, fun _ => Function.update_self ..⟩, hrest.mono hmono⟩,
      fun x hx => (hroot x hx).imp id (fun h => by cases h.1)⟩
  | unlock =>
    rename_i i d rest
    obtain ⟨⟨hf, hrest⟩, hroot⟩ := hp
    cases rest with
    | nil =>
      refine ⟨trivial, fun x hx => .inr ⟨rfl, ?_⟩⟩
      obtain h | h := hroot x hx
      · obtain rfl : d = x := by simpa using h
        exact hf.2 (List.mem_of_getElem? hx)
      · cases h.1
    | cons g rest =>
      refine ⟨⟨?_, hrest.2⟩, fun x hx =>
        (hroot x hx).imp (fun h => by simpa using h) (fun h => by cases h.1)⟩
      -- the activation below has dealt with one more dependency
      obtain ⟨g, phase⟩ := g
      cases phase with
      | visit deps =>
        obtain ⟨hg, seen, he, hs⟩ := hrest.1
        refine ⟨hg, seen ++ [d], by simpa using he, fun x hx ha => ?_⟩
        obtain hx | hx := List.mem_append.mp hx
        · exact hs x hx ha
        · obtain rfl := List.mem_singleton.mp hx
          exact hf.2 ha
      | lock | check => cases hrest.1
      | update | updating | mark | unlock => cases hrest.1.1
  | finish => exact hp.2

theorem system_step {s s' : MediatorState md} {a : Action (Thread md) Unit}
    (h : (system md updated).step s a = some s') :
    ∃ t p e, Moves md s.shared (s.pc t) s'.shared p e ∧ (∀ d, e = .lock d → s.owner d = none) ∧
      s'.owner = e.owner t s.owner ∧ s'.pc = Function.update s.pc t p := by
  obtain ⟨t, u, pick, p, e, -, hn, hl, ho, hp⟩ := step_sleepless (fun _ => rfl) h
  exact ⟨t, p, e, next_moves hn, hl, ho, hp⟩

variable {s : MediatorState md}

theorem owned (hs : Reachable (system md updated) s) :
    (∀ t, (held (s.pc t)).Nodup) ∧ Owned holds s := by
  induction hs with
  | init h =>
    subst h
    refine ⟨fun t => ?_, fun d t => ?_⟩ <;> cases t <;> simp [initial, held, stack, holds]
  | step _ h ih => exact step_owned (discipline md) h ih.1 ih.2

theorem placeOk (hs : Reachable (system md updated) s) (t : Thread md) :
    PlaceOk md s.shared.updated (s.pc t) := by
  induction hs generalizing t with
  | init h =>
    subst h
    cases t <;> trivial
  | @step s s' a _ h ih =>
    obtain ⟨u, p, e, hm, -, -, hp⟩ := system_step h
    rw [hp]
    by_cases htu : t = u
    · subst htu
      rw [Function.update_self]
      exact moves_placeOk hm (ih t)
    · rw [Function.update_of_ne htu]
      exact (ih t).mono (fun x hx => moves_updated hm hx)

theorem updated_mono (hs : Reachable (system md updated) s) {d : D} (hd : updated d = true) :
    s.shared.updated d = true := by
  induction hs with
  | init h =>
    subst h
    exact hd
  | step _ h ih =>
    obtain ⟨t, p, e, hm, -, -, -⟩ := system_step h
    exact moves_updated hm ih

end RoblSampleCodes.UpdateMediatorInvariant
