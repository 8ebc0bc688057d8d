import RoblSampleCodes.TransitionSystem

namespace RoblSampleCodes.WeatherData

open TransitionSystem

/-- The arguments of `Update`, which a `ConditionObserver` keeps. The type `F` is
that of a `float`, which the program only copies. -/
structure Measure (F : Type) where
  temperature : F
  humidity : F
  pressure : Int
  deriving DecidableEq

structure Members (Observer F : Type) where
  humidity : F
  pressure : Int
  temperature : F
  observers : List Observer

inductive Call (Observer F : Type)
  | construct (observer : Observer)
  | destroy (observer : Observer)
  | register (observer : Observer)
  | remove (observer : Observer)
  | setMeasureChanged (humidity : F) (pressure : Int) (temperature : F)

/-- The subject, and the live observers by their addresses. The history is what was
registered and neither removed nor destroyed since. -/
structure State (Observer F : Type) where
  weather : Members Observer F
  objects : Observer → Option (Measure F)
  registered : Finset Observer

variable {Observer F : Type}

def setMeasureChanged (weather : Members Observer F) (humidity : F) (pressure : Int) (temperature : F) :
    Members Observer F :=
  { weather with humidity := humidity, pressure := pressure, temperature := temperature }

def notifyObserver (weather : Members Observer F) : List (Observer × Measure F) :=
  weather.observers.map fun observer =>
    (observer, ⟨weather.temperature, weather.humidity, weather.pressure⟩)

def registerObserver (weather : Members Observer F) (observer : Observer) : Members Observer F :=
  { weather with observers := weather.observers ++ [observer] }

theorem notifyObserver_setMeasureChanged (weather : Members Observer F) (humidity : F) (pressure : Int)
    (temperature : F) :
    notifyObserver (setMeasureChanged weather humidity pressure temperature) =
      weather.observers.map fun observer => (observer, ⟨temperature, humidity, pressure⟩) := rfl

theorem map_fst_notify (weather : Members Observer F) (measure : Measure F) :
    (weather.observers.map fun observer => (observer, measure)).map Prod.fst = weather.observers := by
  rw [List.map_map]
  exact List.map_id _

structure Invariant (s : State Observer F) : Prop where
  nodup : s.weather.observers.Nodup
  mem_iff : ∀ observer, observer ∈ s.weather.observers ↔ observer ∈ s.registered
  live : ∀ observer ∈ s.registered, (s.objects observer).isSome

def initial [Zero F] : State Observer F := ⟨⟨0, 0, 0, []⟩, fun _ => none, ∅⟩

theorem invariant_initial [Zero F] : Invariant (initial : State Observer F) := by
  refine ⟨List.nodup_nil, fun observer => ?_, fun observer h => ?_⟩
  · simp [initial]
  · exact absurd h (Finset.notMem_empty observer)

variable [DecidableEq Observer]

def removeObserver (weather : Members Observer F) (observer : Observer) : Members Observer F :=
  { weather with observers := weather.observers.filter (· ≠ observer) }

def update (objects : Observer → Option (Measure F)) (c : Observer × Measure F) :
    Observer → Option (Measure F) :=
  Function.update objects c.1 ((objects c.1).map fun _ => c.2)

theorem update_of_ne {objects : Observer → Option (Measure F)} {observer : Observer}
    {c : Observer × Measure F} (h : observer ≠ c.1) : update objects c observer = objects observer :=
  Function.update_of_ne h _ _

theorem isSome_update (objects : Observer → Option (Measure F)) (c : Observer × Measure F)
    (observer : Observer) : (update objects c observer).isSome = (objects observer).isSome := by
  by_cases h : observer = c.1
  · rw [h, update, Function.update_self, Option.isSome_map]
  · rw [update_of_ne h]

theorem isSome_foldl_update (calls : List (Observer × Measure F)) (objects : Observer → Option (Measure F))
    (observer : Observer) : (calls.foldl update objects observer).isSome = (objects observer).isSome := by
  induction calls generalizing objects with
  | nil => rfl
  | cons c calls ih => rw [List.foldl_cons, ih, isSome_update]

variable [Zero F]

/-- An observer is constructed where no live one is. -/
def call (s : State Observer F) : Call Observer F → Option (State Observer F)
  | .construct observer =>
    if (s.objects observer).isSome then none
    else some ⟨registerObserver s.weather observer, Function.update s.objects observer (some ⟨0, 0, 0⟩),
      insert observer s.registered⟩
  | .destroy observer =>
    if (s.objects observer).isSome then
      some ⟨s.weather, Function.update s.objects observer none, s.registered.erase observer⟩
    else none
  | .register observer =>
    some ⟨registerObserver s.weather observer, s.objects, insert observer s.registered⟩
  | .remove observer =>
    some ⟨removeObserver s.weather observer, s.objects, s.registered.erase observer⟩
  | .setMeasureChanged humidity pressure temperature =>
    let weather := setMeasureChanged s.weather humidity pressure temperature
    some ⟨weather, (notifyObserver weather).foldl update s.objects, s.registered⟩

def system (Observer F : Type) [DecidableEq Observer] [Zero F] :
    System (State Observer F) (Call Observer F) where
  init s := s = initial
  step := call

structure Exact (s : State Observer F) (measure : Measure F) (calls : List (Observer × Measure F)) :
    Prop where
  once : ∀ observer ∈ s.registered, (s.objects observer).isSome → (calls.map Prod.fst).count observer = 1
  registered : ∀ c ∈ calls, c.1 ∈ s.registered
  live : ∀ c ∈ calls, (s.objects c.1).isSome
  arguments : ∀ c ∈ calls, c.2 = measure

def NotifiesExactly (s : State Observer F) : Prop :=
  ∀ humidity pressure temperature, Exact s ⟨temperature, humidity, pressure⟩
    (notifyObserver (setMeasureChanged s.weather humidity pressure temperature))

/-- Only a live observer that is not registered is registered, and none that is
registered is destroyed. -/
def InTurn (s : State Observer F) : Call Observer F → Prop
  | .register observer => (s.objects observer).isSome ∧ observer ∉ s.registered
  | .destroy observer => observer ∉ s.registered
  | _ => True

omit [Zero F] in
theorem invariant_register {s : State Observer F} {observer : Observer}
    {objects : Observer → Option (Measure F)} (h : Invariant s)
    (hnew : observer ∉ s.registered) (hlive : (objects observer).isSome)
    (hobjects : ∀ o, (s.objects o).isSome → (objects o).isSome) :
    Invariant ⟨registerObserver s.weather observer, objects, insert observer s.registered⟩ := by
  refine ⟨?_, fun o => ?_, fun o ho => ?_⟩
  · refine List.nodup_append.mpr ⟨h.nodup, List.nodup_singleton observer, ?_⟩
    intro o ho o' ho' heq
    rw [List.mem_singleton] at ho'
    exact hnew ((h.mem_iff observer).mp (ho' ▸ heq ▸ ho))
  · rw [registerObserver, List.mem_append, List.mem_singleton, h.mem_iff, Finset.mem_insert, or_comm]
  · rcases Finset.mem_insert.mp ho with rfl | ho
    · exact hlive
    · exact hobjects o (h.live o ho)

theorem invariant_call {s t : State Observer F} {c : Call Observer F} (h : Invariant s) (hc : InTurn s c)
    (ht : call s c = some t) : Invariant t := by
  cases c with
  | construct observer =>
    simp only [call, Option.ite_none_left_eq_some] at ht
    obtain ⟨hfree, ⟨⟩⟩ := ht
    refine invariant_register h (fun hmem => hfree (h.live observer hmem)) ?_ fun o ho => ?_
    · rw [Function.update_self, Option.isSome_some]
    · by_cases heq : o = observer
      · exact absurd (heq ▸ ho) hfree
      · rw [Function.update_of_ne heq]
        exact ho
  | destroy observer =>
    simp only [call, Option.ite_none_right_eq_some] at ht
    obtain ⟨-, ⟨⟩⟩ := ht
    have herase : s.registered.erase observer = s.registered := Finset.erase_eq_of_notMem hc
    refine ⟨h.nodup, fun o => by rw [herase]; exact h.mem_iff o, fun o ho => ?_⟩
    rw [herase] at ho
    have hne : o ≠ observer := by
      rintro rfl
      exact hc ho
    have hlive : (Function.update s.objects observer none o).isSome := by
      rw [Function.update_of_ne hne]
      exact h.live o ho
    exact hlive
  | register observer =>
    cases ht
    exact invariant_register h hc.2 hc.1 fun o ho => ho
  | remove observer =>
    cases ht
    refine ⟨h.nodup.filter _, fun o => ?_, fun o ho => h.live o (Finset.mem_of_mem_erase ho)⟩
    rw [removeObserver, List.mem_filter, h.mem_iff, Finset.mem_erase, decide_eq_true_eq, and_comm]
  | setMeasureChanged humidity pressure temperature =>
    cases ht
    refine ⟨h.nodup, h.mem_iff, fun o ho => ?_⟩
    rw [isSome_foldl_update]
    exact h.live o ho

omit [Zero F] in
theorem notifiesExactly_of_invariant {s : State Observer F} (h : Invariant s) : NotifiesExactly s := by
  intro humidity pressure temperature
  rw [notifyObserver_setMeasureChanged]
  have hcalls : ∀ c ∈ s.weather.observers.map fun observer =>
      (observer, (⟨temperature, humidity, pressure⟩ : Measure F)),
      c.1 ∈ s.registered ∧ c.2 = ⟨temperature, humidity, pressure⟩ := by
    intro c hc
    obtain ⟨observer, hobserver, rfl⟩ := List.mem_map.mp hc
    exact ⟨(h.mem_iff observer).mp hobserver, rfl⟩
  refine ⟨fun observer hmem _ => ?_, fun c hc => (hcalls c hc).1,
    fun c hc => h.live c.1 (hcalls c hc).1, fun c hc => (hcalls c hc).2⟩
  rw [map_fst_notify]
  exact List.count_eq_one_of_mem h.nodup ((h.mem_iff observer).mpr hmem)

theorem mem_notify {s : State Observer F} (h : NotifiesExactly s) (observer : Observer)
    (hmem : observer ∈ s.weather.observers) :
    observer ∈ s.registered ∧ (s.objects observer).isSome ∧
      s.weather.observers.count observer = 1 := by
  have hexact := h 0 0 0
  rw [notifyObserver_setMeasureChanged] at hexact
  have hcall := List.mem_map_of_mem (f := fun o => (o, (⟨0, 0, 0⟩ : Measure F))) hmem
  have hregistered := hexact.registered _ hcall
  have hlive := hexact.live _ hcall
  have honce := hexact.once observer hregistered hlive
  rw [map_fst_notify] at honce
  exact ⟨hregistered, hlive, honce⟩

theorem not_notifiesExactly_of_not_inTurn {s t : State Observer F} {c : Call Observer F} (h : Invariant s)
    (hc : ¬ InTurn s c) (ht : call s c = some t) : ¬ NotifiesExactly t := by
  intro hexact
  cases c with
  | register observer =>
    cases ht
    obtain ⟨-, hlive, hcount⟩ := mem_notify hexact observer
      (List.mem_append_right s.weather.observers (List.mem_singleton_self observer))
    refine hc ⟨hlive, fun hmem => ?_⟩
    rw [registerObserver, List.count_append, List.count_singleton_self,
      List.count_eq_one_of_mem h.nodup ((h.mem_iff observer).mpr hmem)] at hcount
    omega
  | destroy observer =>
    simp only [call, Option.ite_none_right_eq_some] at ht
    obtain ⟨-, ⟨⟩⟩ := ht
    have hmem : observer ∈ s.registered := not_not.mp hc
    obtain ⟨-, hlive, -⟩ := mem_notify hexact observer ((h.mem_iff observer).mpr hmem)
    simp only [Function.update_self, Option.isSome_none, Bool.false_eq_true] at hlive
  | construct observer => exact hc trivial
  | remove observer => exact hc trivial
  | setMeasureChanged humidity pressure temperature => exact hc trivial

/-- Every `SetMeasureChanged` notifies exactly the live registered observers as long as
observers are registered and destroyed in turn, and no longer. -/
theorem notifiesExactly_exactCondition (Observer F : Type) [DecidableEq Observer] [Zero F] :
    ExactCondition (system Observer F) InTurn NotifiesExactly := by
  refine exactCondition_of_invariant Invariant ?_ ?_ (fun s h => notifiesExactly_of_invariant h) ?_
  · rintro s rfl
    exact invariant_initial
  · intro s c t h hc ht
    exact invariant_call h hc ht
  · intro s c t h ht hc
    exact ⟨[], t, rfl, not_notifiesExactly_of_not_inTurn h hc ht⟩

/-- An observer that is registered explicitly after its constructor did so, and one that
is destroyed. -/
theorem exec_not_notifiesExactly :
    (∃ s, exec (system Nat Nat) initial [.construct 0, .register 0] = some s ∧ ¬ NotifiesExactly s) ∧
      ∃ s, exec (system Nat Nat) initial [.construct 0, .destroy 0] = some s ∧ ¬ NotifiesExactly s := by
  refine ⟨⟨_, rfl, fun h => ?_⟩, ⟨_, rfl, fun h => ?_⟩⟩
  · have hcount := (mem_notify h 0 (by decide)).2.2
    revert hcount
    decide
  · have hmem := (mem_notify h 0 (by decide)).1
    revert hmem
    decide

end RoblSampleCodes.WeatherData
