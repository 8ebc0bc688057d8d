import RoblSampleCodes.UpdateMediatorInvariant

namespace RoblSampleCodes.UpdateMediatorOrder

open TransitionSystem ThreadProgram UpdateMediator UpdateMediatorInvariant

variable {D : Type} [DecidableEq D] {md : Mediator D} {updated : D → Bool}

def device : Event D → D
  | .started d | .finished d => d

def calls (log : List (Event D)) (d : D) : Nat × Nat := (log.count (.started d), log.count (.finished d))

def made : Phase D → Nat × Nat
  | .updating => (1, 0)
  | .mark => (1, 1)
  | _ => (0, 0)

def openCalls (p : Place D) : List (D × (Nat × Nat)) :=
  ((stack p).filter opened).map (fun f => (f.device, made f.phase))

theorem calls_append_ne {log : List (Event D)} {ev : Event D} {d : D} (h : d ≠ device ev) :
    calls (log ++ [ev]) d = calls log d := by
  cases ev with
  | started x | finished x =>
    have hx : x ≠ d := fun he => h he.symm
    simp [calls, hx]

omit [DecidableEq D] in
theorem openCalls_sublist (p : Place D) : ((openCalls p).map Prod.fst).Sublist (held p) := by
  have hs : ((stack p).filter opened).Sublist ((stack p).filter locked) :=
    List.monotone_filter_right _ (fun f => opened_locked)
  simpa [openCalls, held, List.map_map, Function.comp_def] using hs.map Frame.device

inductive Stage (sh sh' : Shared D) (p p' : Place D) : Prop
  | same (hu : sh'.updated = sh.updated) (hl : sh'.log = sh.log) (ho : openCalls p' = openCalls p)
  | opens {d : D} (hu : sh'.updated = sh.updated) (hl : sh'.log = sh.log)
      (ho : openCalls p' = (d, 0, 0) :: openCalls p) (hd : sh.updated d = false) (hh : d ∈ held p)
      (hn : (held p).Nodup → d ∉ (openCalls p).map Prod.fst)
  | calls (ev : Event D) {c c' : Nat × Nat} {cs : List (D × (Nat × Nat))}
      (hu : sh'.updated = sh.updated) (hl : sh'.log = sh.log ++ [ev])
      (ho : openCalls p = (device ev, c) :: cs) (ho' : openCalls p' = (device ev, c') :: cs)
      (hc : calls sh.log (device ev) = c → calls (sh.log ++ [ev]) (device ev) = c')
  | marks {d : D} (hl : sh'.log = sh.log) (hu : sh'.updated = Function.update sh.updated d true)
      (ho : openCalls p = (d, 1, 1) :: openCalls p')

omit [DecidableEq D] in
theorem check_closed {i : Nat} {d : D} {rest : List (Frame D)}
    (hn : (held (.running i (⟨d, .check⟩ :: rest))).Nodup) :
    d ∉ (openCalls (.running i (⟨d, .check⟩ :: rest))).map Prod.fst := fun hd =>
  (List.nodup_cons.mp hn).1 ((openCalls_sublist (.running i rest)).subset hd)

theorem moves_stage {sh sh' : Shared D} {p p' : Place D} {e : Effect D Empty}
    (h : Moves md sh p sh' p' e) : Stage sh sh' p p' := by
  cases h with
  | launch _ | launched _ | joined _ _ | returns _ | start _ _ | lock | skip _ | descend | visited
  | unlock | finish => exact .same rfl rfl rfl
  | visit _ h => exact .opens rfl rfl rfl h (by simp [held_check]) check_closed
  | leaf _ h _ => exact .opens rfl rfl rfl h (by simp [held_check]) check_closed
  | update =>
    rename_i i d rest
    refine .calls (.started d) rfl rfl rfl rfl (fun h => ?_)
    simp_all [calls, device, made]
  | updating =>
    rename_i i d rest
    refine .calls (.finished d) rfl rfl rfl rfl (fun h => ?_)
    simp_all [calls, device, made]
  | mark => exact .marks rfl rfl rfl

omit [DecidableEq D] in
theorem stackOk_opened {u : D → Bool} {above : List D} {st : List (Frame D)}
    (h : StackOk md u above st) {f : Frame D} (hf : f ∈ st) (ho : opened f = true) :
    f.device ∈ md.devices := by
  induction st generalizing above with
  | nil => cases hf
  | cons g rest ih =>
    obtain rfl | hf := List.mem_cons.mp hf
    · obtain ⟨d, phase⟩ := f
      cases phase with
      | visit deps => exact h.1.1
      | update | updating | mark => exact h.1.2.1
      | lock | check | unlock => cases ho
    · exact ih h.2 hf

/-- The history of `Update` calls agrees with the flags and the activations:
an opened device has the calls its activation has made, a device marked in
this run has one complete call, and no other device was called. -/
structure Recorded (md : Mediator D) (updated : D → Bool) (s : MediatorState md) : Prop where
  opened : ∀ t, ∀ c ∈ openCalls (s.pc t), s.shared.updated c.1 = false ∧ calls s.shared.log c.1 = c.2
  marked : ∀ d, s.shared.updated d = true → updated d = false → calls s.shared.log d = (1, 1)
  quiet : ∀ d, s.shared.updated d = false → (∀ t, d ∉ (openCalls (s.pc t)).map Prod.fst) →
    calls s.shared.log d = (0, 0)
  logged : ∀ ev ∈ s.shared.log, device ev ∈ md.devices ∧ updated (device ev) = false

variable {s : MediatorState md}

theorem openCalls_added (hs : Reachable (system md updated) s) {t : Thread md} {c : D × (Nat × Nat)}
    (hc : c ∈ openCalls (s.pc t)) : c.1 ∈ md.devices := by
  obtain ⟨f, hf, rfl⟩ := List.mem_map.mp hc
  obtain ⟨hf, ho⟩ := List.mem_filter.mp hf
  have hok := placeOk hs t
  generalize s.pc t = p at hf hok
  cases p with
  | running i st => exact stackOk_opened hok.1 hf ho
  | launch _ | join _ | returned | created _ | done _ => cases hf

theorem held_foreign (hs : Reachable (system md updated) s) {t u : Thread md} {d : D} (hu : u ≠ t)
    (hd : d ∈ held (s.pc t)) : d ∉ (openCalls (s.pc u)).map Prod.fst := fun hc =>
  hu ((owned hs).2.unique (holds_iff.mpr ((openCalls_sublist _).subset hc)) (holds_iff.mpr hd))

theorem openCalls_nodup (hs : Reachable (system md updated) s) (t : Thread md) :
    ((openCalls (s.pc t)).map Prod.fst).Nodup := (openCalls_sublist _).nodup ((owned hs).1 t)

section RecordedStep

variable {s' : MediatorState md} {t : Thread md} {p : Place D} (ih : Recorded md updated s)
  (hself : s'.pc t = p) (hother : ∀ u, u ≠ t → s'.pc u = s.pc u)

include ih hself hother

theorem recorded_same (hu : s'.shared.updated = s.shared.updated) (hl : s'.shared.log = s.shared.log)
    (hoc : openCalls p = openCalls (s.pc t)) : Recorded md updated s' := by
  have hall : ∀ u, openCalls (s'.pc u) = openCalls (s.pc u) := by
    intro u
    by_cases hut : u = t
    · rw [hut, hself, hoc]
    · rw [hother u hut]
  constructor
  · simpa only [hall, hu, hl] using ih.opened
  · simpa only [hu, hl] using ih.marked
  · simpa only [hall, hu, hl] using ih.quiet
  · simpa only [hl] using ih.logged

theorem recorded_opens {d : D} (hu : s'.shared.updated = s.shared.updated)
    (hl : s'.shared.log = s.shared.log) (hoc : openCalls p = (d, 0, 0) :: openCalls (s.pc t))
    (hd : s.shared.updated d = false) (hnone : ∀ u, d ∉ (openCalls (s.pc u)).map Prod.fst) :
    Recorded md updated s' := by
  refine ⟨fun u c hc => ?_, by simpa only [hu, hl] using ih.marked, fun x hx hno => ?_,
    by simpa only [hl] using ih.logged⟩
  · rw [hu, hl]
    by_cases hut : u = t
    · rw [hut, hself, hoc] at hc
      obtain rfl | hc := List.mem_cons.mp hc
      · exact ⟨hd, ih.quiet d hd hnone⟩
      · exact ih.opened t c hc
    · rw [hother u hut] at hc
      exact ih.opened u c hc
  · rw [hl]
    apply ih.quiet x (hu ▸ hx)
    intro u hc
    by_cases hut : u = t
    · subst hut
      have hno := hno u
      rw [hself, hoc] at hno
      exact hno (List.mem_cons_of_mem _ hc)
    · exact hno u (by rwa [hother u hut])

variable (hs : Reachable (system md updated) s)

include hs

theorem recorded_calls {ev : Event D} {c c' : Nat × Nat} {cs : List (D × (Nat × Nat))}
    (hu : s'.shared.updated = s.shared.updated) (hl : s'.shared.log = s.shared.log ++ [ev])
    (hoc : openCalls (s.pc t) = (device ev, c) :: cs) (hoc' : openCalls p = (device ev, c') :: cs)
    (hc : calls s.shared.log (device ev) = c → calls (s.shared.log ++ [ev]) (device ev) = c') :
    Recorded md updated s' := by
  have hev : (device ev, c) ∈ openCalls (s.pc t) := hoc ▸ List.mem_cons_self
  have hheld : device ev ∈ held (s.pc t) :=
    (openCalls_sublist _).subset (List.mem_map_of_mem hev)
  have hopen := openCalls_nodup hs t
  obtain ⟨hfresh, hcalls⟩ := ih.opened t _ hev
  rw [hoc, List.map_cons, List.nodup_cons] at hopen
  -- the other opened activations are of other devices
  have hkeep : ∀ x ∈ cs, x.1 ≠ device ev := fun x hx he =>
    hopen.1 (List.mem_map.mpr ⟨x, hx, he⟩)
  refine ⟨fun u x hx => ?_, fun d hd hnew => ?_, fun d hd hno => ?_, fun ev' hev' => ?_⟩
  · rw [hu, hl]
    by_cases hut : u = t
    · rw [hut, hself, hoc'] at hx
      obtain rfl | hx := List.mem_cons.mp hx
      · exact ⟨hfresh, hc hcalls⟩
      · rw [calls_append_ne (hkeep x hx)]
        exact ih.opened t x (hoc ▸ List.mem_cons_of_mem _ hx)
    · rw [hother u hut] at hx
      have hne : x.1 ≠ device ev := fun he =>
        held_foreign hs hut hheld (he ▸ List.mem_map_of_mem hx)
      rw [calls_append_ne hne]
      exact ih.opened u x hx
  · rw [hu] at hd
    have hne : d ≠ device ev := by
      rintro rfl
      rw [hfresh] at hd
      cases hd
    rw [hl, calls_append_ne hne]
    exact ih.marked d hd hnew
  · have hne : d ≠ device ev := by
      rintro rfl
      apply hno t
      rw [hself, hoc']
      exact List.mem_cons_self
    rw [hl, calls_append_ne hne]
    apply ih.quiet d (hu ▸ hd)
    intro u hcu
    by_cases hut : u = t
    · subst hut
      have hno := hno u
      rw [hself, hoc'] at hno
      rw [hoc] at hcu
      exact hno hcu
    · exact hno u (by rwa [hother u hut])
  · rw [hl] at hev'
    obtain hev' | hev' := List.mem_append.mp hev'
    · exact ih.logged ev' hev'
    · obtain rfl := List.mem_singleton.mp hev'
      refine ⟨openCalls_added hs hev, ?_⟩
      by_contra hold
      have hmarked := updated_mono hs (Bool.eq_true_of_not_eq_false hold)
      rw [hfresh] at hmarked
      cases hmarked

theorem recorded_marks {d : D} (hl : s'.shared.log = s.shared.log)
    (hu : s'.shared.updated = Function.update s.shared.updated d true)
    (hoc : openCalls (s.pc t) = (d, 1, 1) :: openCalls p) : Recorded md updated s' := by
  have hd : (d, 1, 1) ∈ openCalls (s.pc t) := hoc ▸ List.mem_cons_self
  have hheld : d ∈ held (s.pc t) := (openCalls_sublist _).subset (List.mem_map_of_mem hd)
  have hopen := openCalls_nodup hs t
  obtain ⟨-, hcalls⟩ := ih.opened t _ hd
  rw [hoc, List.map_cons, List.nodup_cons] at hopen
  refine ⟨fun u x hx => ?_, fun x hx hnew => ?_, fun x hx hno => ?_, by simpa only [hl] using ih.logged⟩
  · have hne : x.1 ≠ d := by
      rintro rfl
      by_cases hut : u = t
      · rw [hut, hself] at hx
        exact hopen.1 (List.mem_map.mpr ⟨x, hx, rfl⟩)
      · rw [hother u hut] at hx
        exact held_foreign hs hut hheld (List.mem_map_of_mem hx)
    rw [hu, hl, Function.update_of_ne hne]
    by_cases hut : u = t
    · rw [hut, hself] at hx
      exact ih.opened t x (hoc ▸ List.mem_cons_of_mem _ hx)
    · rw [hother u hut] at hx
      exact ih.opened u x hx
  · rw [hl]
    by_cases hxd : x = d
    · rw [hxd]
      exact hcalls
    · rw [hu, Function.update_of_ne hxd] at hx
      exact ih.marked x hx hnew
  · have hxd : x ≠ d := by
      rintro rfl
      rw [hu, Function.update_self] at hx
      cases hx
    rw [hu, Function.update_of_ne hxd] at hx
    rw [hl]
    apply ih.quiet x hx
    intro u hcu
    by_cases hut : u = t
    · subst hut
      rw [hoc, List.map_cons, List.mem_cons] at hcu
      exact hno u (hself ▸ hcu.resolve_left hxd)
    · exact hno u (by rwa [hother u hut])

end RecordedStep

theorem recorded (hs : Reachable (system md updated) s) : Recorded md updated s := by
  induction hs with
  | init h =>
    subst h
    refine ⟨fun t c hc => ?_, fun d hd hu => ?_, fun d _ _ => rfl, nofun⟩
    · cases t <;> cases hc
    · exact absurd (hu.symm.trans hd) nofun
  | @step s s' a hs h ih =>
    obtain ⟨t, p, e, hm, -, -, hp⟩ := system_step h
    have hself : s'.pc t = p := by rw [hp, Function.update_self]
    have hother : ∀ u, u ≠ t → s'.pc u = s.pc u := fun u hu => by rw [hp, Function.update_of_ne hu]
    cases moves_stage hm with
    | same hu hl hoc => exact recorded_same ih hself hother hu hl hoc
    | opens hu hl hoc hd hh hn =>
      apply recorded_opens ih hself hother hu hl hoc hd
      intro u
      by_cases hut : u = t
      · exact hut ▸ hn ((owned hs).1 t)
      · exact held_foreign hs hut hh
    | calls ev hu hl hoc hoc' hc => exact recorded_calls ih hself hother hs hu hl hoc hoc' hc
    | marks hl hu hoc => exact recorded_marks ih hself hother hs hl hu hoc

/-- No `Update` starts before those of the added dependencies have finished. -/
def Ordered (md : Mediator D) (updated : D → Bool) (log : List (Event D)) : Prop :=
  ∀ past d future, log = past ++ .started d :: future →
    ∀ x ∈ md.deps d, x ∈ md.devices → updated x = true ∨ .finished x ∈ past

omit [DecidableEq D] in
theorem Ordered.append {log : List (Event D)} {ev : Event D} (h : Ordered md updated log)
    (hev : ∀ d, ev = .started d →
      ∀ x ∈ md.deps d, x ∈ md.devices → updated x = true ∨ .finished x ∈ log) :
    Ordered md updated (log ++ [ev]) := by
  intro past d future he x hx ha
  obtain rfl | ⟨future, last, rfl⟩ := List.eq_nil_or_concat future
  · obtain ⟨rfl, hd⟩ := List.append_inj' he rfl
    exact hev d (List.singleton_inj.mp hd) x hx ha
  · rw [List.concat_eq_append, ← List.cons_append, ← List.append_assoc] at he
    exact h past d future (List.append_inj' he rfl).1 x hx ha

theorem ordered (hs : Reachable (system md updated) s) : Ordered md updated s.shared.log := by
  induction hs with
  | init h =>
    subst h
    intro past d future he
    simp [initial] at he
  | @step s s' a hs h ih =>
    obtain ⟨t, p, e, hm, -, -, -⟩ := system_step h
    have hok := placeOk hs t
    generalize s.pc t = q at hm hok
    generalize s'.shared = sh' at hm ⊢
    cases hm with
    | update =>
      apply ih.append
      intro x hx y hy ha
      cases hx
      rw [or_iff_not_imp_left, Bool.not_eq_true]
      intro hnew
      have hc : s.shared.log.count (.finished y) = 1 :=
        congrArg Prod.snd ((recorded hs).marked y (hok.1.1.2.2 y hy ha) hnew)
      exact List.count_pos_iff.mp (hc ▸ Nat.one_pos)
    | updating =>
      apply ih.append
      intro x hx
      cases hx
    | launch _ | launched _ | joined _ _ | returns _ | start _ _ | lock | skip _ | visit _ _ | leaf _ _ _
    | descend | visited | mark | unlock | finish => exact ih

def index : Place D → Option Nat
  | .created i | .running i _ | .done i => some i
  | _ => none

def joined (md : Mediator D) : Place D → Nat
  | .join k => k
  | .returned => md.devices.length
  | _ => 0

theorem moves_index {sh sh' : Shared D} {p p' : Place D} {e : Effect D Empty}
    (h : Moves md sh p sh' p' e) : index p' = index p := by
  cases h <;> rfl

theorem index_pc (hs : Reachable (system md updated) s) (t : Thread md) :
    index (s.pc t) = t.map Fin.val := by
  induction hs generalizing t with
  | init h =>
    subst h
    cases t <;> rfl
  | step _ h ih =>
    obtain ⟨u, p, e, hm, -, -, hp⟩ := system_step h
    rw [hp]
    by_cases htu : t = u
    · subst htu
      rw [Function.update_self, moves_index hm, ih]
    · rw [Function.update_of_ne htu, ih]

theorem ready_done (hs : Reachable (system md updated) s) :
    (∀ i : Fin md.devices.length, s.shared.ready i = true → s.pc (some i) = .done i) ∧
      ∀ t, ∀ j < joined md (s.pc t), s.shared.ready j = true := by
  induction hs with
  | init h =>
    subst h
    refine ⟨nofun, fun t j hj => ?_⟩
    cases t <;> cases hj
  | @step s s' a hs h ih =>
    obtain ⟨t, p, e, hm, -, -, hp⟩ := system_step h
    obtain ⟨hdone, hjoin⟩ := ih
    have hmono : ∀ j, s.shared.ready j = true → s'.shared.ready j = true := by
      intro j hj
      generalize s.pc t = q at hm
      generalize s'.shared = sh' at hm ⊢
      cases hm with
      | finish =>
        rename_i i
        by_cases hji : j = i <;> simp [hji, hj]
      | _ => exact hj
    refine ⟨fun i hi => ?_, fun u j hj => ?_⟩
    · rw [hp]
      by_cases hit : some i = t
      · subst hit
        rw [Function.update_self]
        have hx := index_pc hs (some i)
        have hd := hdone i
        generalize s.pc (some i) = q at hm hx hd
        generalize s'.shared = sh' at hm hi
        cases hm with
        | finish =>
          simp only [index, Option.map_some, Option.some.injEq] at hx
          rw [hx]
        | _ => cases hd hi
      · rw [Function.update_of_ne hit]
        apply hdone
        have hx := index_pc hs t
        generalize s.pc t = q at hm hx
        generalize s'.shared = sh' at hm hi
        cases hm with
        | finish =>
          rename_i k
          have hne : i.val ≠ k := by
            rintro rfl
            apply hit
            cases t <;> simp_all [index, Fin.ext_iff]
          simpa [Function.update_of_ne hne] using hi
        | _ => exact hi
    · rw [hp] at hj
      by_cases hut : u = t
      · subst hut
        rw [Function.update_self] at hj
        have hju := hjoin u
        generalize s.pc u = q at hm hju
        generalize s'.shared = sh' at hm hmono ⊢
        cases hm with
        | joined hk hr =>
          obtain hlt | rfl := Nat.lt_succ_iff_lt_or_eq.mp hj
          · exact hju j hlt
          · exact hr
        | returns hk => exact hju j (Nat.lt_of_lt_of_le hj hk)
        | launch _ | launched _ => cases hj
        | start _ _ | lock | skip _ | visit _ _ | leaf _ _ _ | descend | visited | update | updating
        | mark | unlock | finish => cases hj
      · rw [Function.update_of_ne hut] at hj
        exact hmono j (hjoin u j hj)

def Completed (s : MediatorState md) : Prop := ∀ i, s.pc (some i) = .done i

theorem returned_completed (hs : Reachable (system md updated) s) (h : s.pc none = .returned) :
    Completed s := fun i =>
  (ready_done hs).1 i ((ready_done hs).2 none i (by rw [h]; exact i.isLt))

theorem completed_updated (hs : Reachable (system md updated) s) (h : Completed s) {d : D}
    (hd : d ∈ md.devices) : s.shared.updated d = true := by
  obtain ⟨i, hi, he⟩ := List.getElem_of_mem hd
  have hok := placeOk hs (some ⟨i, hi⟩)
  rw [h ⟨i, hi⟩] at hok
  obtain hr | ⟨-, hu⟩ := hok d (List.getElem?_eq_some_iff.mpr ⟨hi, he⟩)
  · cases hr
  · exact hu

/-- Each added device that was not updated is updated by one complete call, no
other device is, and dependencies come first. -/
structure UpdatedOnce (md : Mediator D) (updated : D → Bool) (log : List (Event D)) : Prop where
  once : ∀ d ∈ md.devices, updated d = false → calls log d = (1, 1)
  never : ∀ d, d ∉ md.devices ∨ updated d = true → calls log d = (0, 0)
  ordered : Ordered md updated log

/-- `UpdateAll` returns when every task is over, and then every added device
is updated once and in dependency order. -/
theorem updateAll_updatesOnce (hs : Reachable (system md updated) s) :
    (s.pc none = .returned → Completed s) ∧ (Completed s → UpdatedOnce md updated s.shared.log) := by
  refine ⟨returned_completed hs, fun h => ⟨fun d hd hnew => ?_, fun d hd => ?_, ordered hs⟩⟩
  · exact (recorded hs).marked d (completed_updated hs h hd) hnew
  · have hlog : ∀ ev ∈ s.shared.log, device ev ≠ d := by
      rintro ev hev rfl
      obtain ⟨ha, hnew⟩ := (recorded hs).logged ev hev
      obtain hd | hd := hd
      · exact hd ha
      · rw [hnew] at hd
        cases hd
    exact Prod.ext (List.count_eq_zero.mpr (fun h => hlog _ h rfl))
      (List.count_eq_zero.mpr (fun h => hlog _ h rfl))

def twoDevices (d x : D) : Mediator D :=
  (((⟨[], fun _ => none⟩ : Mediator D).addDevice d).addDevice x).setDependency d x

def twoDevicesRun (i j : Fin md.devices.length) : List (Action (Thread md) Unit) :=
  [List.replicate 3 (.run none () none), List.replicate 4 (.run (some i) () none),
    List.replicate 8 (.run (some j) () none), List.replicate 9 (.run (some i) () none),
    List.replicate 3 (.run none () none)].flatten

theorem updateAll_updatesOnce_twoDevices :
    ∃ s, Reachable (system (twoDevices false true) fun _ => false) s ∧
      UpdatedOnce (twoDevices false true) (fun _ => false) s.shared.log ∧
      s.shared.log = [.started true, .finished true, .started false, .finished false] := by
  obtain ⟨s, hs, hr, h⟩ : ∃ s, Reachable (system (twoDevices false true) fun _ => false) s ∧
      s.pc none = .returned ∧
      s.shared.log = [.started true, .finished true, .started false, .finished false] :=
    exists_reachable rfl (twoDevicesRun ⟨0, by decide⟩ ⟨1, by decide⟩) (by decide +kernel)
  have hu := updateAll_updatesOnce hs
  exact ⟨s, hs, hu.2 (hu.1 hr), h⟩

end RoblSampleCodes.UpdateMediatorOrder
