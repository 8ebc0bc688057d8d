import RoblSampleCodes.UpdateMediatorOrder
import RoblSampleCodes.WaitCycle

namespace RoblSampleCodes.UpdateMediatorDeadlock

open Relation TransitionSystem ThreadCount ThreadProgram WaitCycle
open UpdateMediator UpdateMediatorInvariant UpdateMediatorOrder

variable {D : Type} [DecidableEq D] {md : Mediator D} {updated : D → Bool} {s s' : MediatorState md}
  {a : Action (Thread md) Unit}

def Depends (md : Mediator D) (d x : D) : Prop := d ∈ md.devices ∧ x ∈ md.devices ∧ x ∈ md.deps d

def Cyclic (md : Mediator D) : Prop := ∃ d, TransGen (Depends md) d d

/-- A launched task is unfinished and no task can take a step. -/
def Stuck (md : Mediator D) (updated : D → Bool) (s : MediatorState md) : Prop :=
  (∃ i : Fin md.devices.length, i < s.shared.launched ∧ s.pc (some i) ≠ .done i) ∧
    ∀ i u pick, ¬ Enabled (system md updated) s (.run (some i) u pick)

def Waits (p : Place D) (d : D) : Prop := ∃ i rest, p = .running i (⟨d, .lock⟩ :: rest)

theorem enabled_of_next {t : Thread md} {sh : Shared D} {p : Place D} {e : Effect D Empty}
    (hn : next md s.shared (s.pc t) = some (sh, p, e)) (hl : ∀ d, e = .lock d → s.owner d = none) :
    ∃ pick, Enabled (system md updated) s (.run t () pick) := by
  have hp : (program md).next s.shared (s.pc t) () = some (sh, p, e) := hn
  exact exists_enabled hp hl

theorem run_enabled (updated : D → Bool) {i : Nat} {f : Frame D} {rest : List (Frame D)} {t : Thread md}
    (hp : s.pc t = .running i (f :: rest)) (hl : f.phase = .lock → s.owner f.device = none) :
    ∃ pick, Enabled (system md updated) s (.run t () pick) := by
  obtain ⟨⟨sh, p, e⟩, hn⟩ : ∃ r, next md s.shared (s.pc t) = some r := ⟨_, by rw [hp]; rfl⟩
  apply enabled_of_next hn
  intro d hd
  have hm := next_moves (u := ()) hn
  rw [hp, hd] at hm
  cases hm
  exact hl rfl

theorem blocked_waits (hs : Reachable (system md updated) s) {i : Fin md.devices.length}
    (hi : s.pc (some i) = .created i → i < s.shared.launched) (hdone : s.pc (some i) ≠ .done i)
    (hb : ∀ u pick, ¬ Enabled (system md updated) s (.run (some i) u pick)) :
    ∃ d, Waits (s.pc (some i)) d ∧ s.owner d ≠ none := by
  have hx := index_pc hs (some i)
  have hno : ∀ {sh p e}, next md s.shared (s.pc (some i)) = some (sh, p, e) →
      ¬ ∀ d, e = .lock d → s.owner d = none := by
    intro sh p e hn hl
    obtain ⟨pick, h⟩ := enabled_of_next hn hl
    exact hb () pick h
  cases hp : s.pc (some i) with
  | launch k | join k | returned =>
    rw [hp] at hx
    cases hx
  | created j =>
    rw [hp] at hx hi hno
    obtain rfl : j = i := by simpa [index] using hx
    have hn : next md s.shared (.created i) =
        some (s.shared, .running i [⟨md.devices[i], .lock⟩], .none) := by
      simp [next, hi rfl]
    exact absurd (fun x hx => by cases hx) (hno hn)
  | running j stack =>
    cases stack with
    | nil =>
      rw [hp] at hno
      exact absurd (fun x hx => by cases hx) (hno rfl)
    | cons f rest =>
      obtain ⟨d, phase⟩ := f
      have hlock : phase = .lock ∧ s.owner d ≠ none := by
        by_contra hfree
        obtain ⟨pick, h⟩ := run_enabled updated hp
          (fun hl => by_contra (fun ho => hfree ⟨hl, ho⟩))
        exact hb () pick h
      obtain ⟨rfl, ho⟩ := hlock
      exact ⟨d, ⟨j, rest, rfl⟩, ho⟩
  | done j =>
    rw [hp] at hx hdone
    obtain rfl : j = i := by simpa [index] using hx
    exact absurd rfl hdone

section Stack

omit [DecidableEq D]

variable {u : D → Bool} {above : List D} {f g : Frame D} {rest : List (Frame D)}

theorem stack_opened (hok : StackOk md u above (f :: rest)) (hg : g ∈ rest) : opened g = true := by
  induction rest generalizing above f with
  | nil => cases hg
  | cons b rest ih =>
    obtain rfl | hg := List.mem_cons.mp hg
    · obtain ⟨-, hb, -⟩ := hok
      obtain ⟨d, phase⟩ := g
      cases phase with
      | visit deps => rfl
      | lock | check => cases hb
      | update | updating | mark | unlock => cases hb.1
    · exact ih hok.2 hg

theorem stack_added (hok : StackOk md u above (f :: rest)) (hg : g ∈ rest) : g.device ∈ md.devices :=
  stackOk_opened hok (List.mem_cons_of_mem f hg) (stack_opened hok hg)

theorem stack_depends (hok : StackOk md u above (f :: rest)) (hf : f.device ∈ md.devices)
    (hg : g ∈ rest) : TransGen (Depends md) g.device f.device := by
  induction rest generalizing above f with
  | nil => cases hg
  | cons b rest ih =>
    have hb : Depends md b.device f.device := by
      refine ⟨stack_added hok List.mem_cons_self, hf, ?_⟩
      obtain ⟨-, hb, -⟩ := hok
      obtain ⟨d, phase⟩ := b
      cases phase with
      | visit deps =>
        obtain ⟨-, seen, he, -⟩ := hb
        exact he ▸ by simp
      | lock | check => cases hb
      | update | updating | mark | unlock => cases hb.1
    obtain rfl | hg := List.mem_cons.mp hg
    · exact .single hb
    · exact (ih hok.2 hb.1 hg).tail hb

end Stack

/-- When no task can take a step, the mutex a task waits for belongs to an
added device, and its owner waits further along the dependencies. -/
theorem waits_next (hs : Reachable (system md updated) s)
    (hb : ∀ i u pick, ¬ Enabled (system md updated) s (.run (some i) u pick)) {t : Thread md} {d : D}
    (hw : Waits (s.pc t) d) :
    d ∈ md.devices ∧
      ∃ t' d', Waits (s.pc t') d' ∧ (d' ∈ md.devices → TransGen (Depends md) d d') := by
  have htask : ∀ {t : Thread md} {j st}, s.pc t = .running j st →
      ∃ x, Waits (s.pc t) x ∧ s.owner x ≠ none := by
    intro t j st hp
    have hx := index_pc hs t
    cases t with
    | none =>
      rw [hp] at hx
      cases hx
    | some i => exact blocked_waits hs (by rw [hp]; nofun) (by rw [hp]; nofun) (hb i)
  obtain ⟨i, rest, hp⟩ := hw
  obtain ⟨x, ⟨_, _, hp'⟩, ho⟩ := htask hp
  rw [hp] at hp'
  cases hp'
  obtain ⟨t', ho⟩ := Option.ne_none_iff_exists'.mp ho
  have hheld : d ∈ held (s.pc t') := holds_iff.mp (((owned hs).2 d t').mp ho)
  obtain ⟨g, hg, rfl⟩ := List.mem_map.mp hheld
  obtain ⟨hg, hl⟩ := List.mem_filter.mp hg
  have hok := placeOk hs t'
  cases hp' : s.pc t' with
  | running j st =>
    obtain ⟨d', hw', -⟩ := htask hp'
    obtain ⟨_, above, he⟩ := hw'
    rw [hp'] at he hg hok
    cases he
    obtain rfl | hg := List.mem_cons.mp hg
    · cases hl
    · exact ⟨stack_added hok.1 hg, t', d', ⟨j, above, hp'⟩, fun ha => stack_depends hok.1 ha hg⟩
  | launch _ | join _ | returned | created _ | done _ =>
    rw [hp'] at hg
    cases hg

theorem stuck_cyclic (hs : Reachable (system md updated) s) (h : Stuck md updated s) : Cyclic md := by
  obtain ⟨⟨i, hi, hdone⟩, hb⟩ := h
  have hadded : ∀ d, (∃ t, Waits (s.pc t) d) → d ∈ md.devices := fun d ⟨t, hw⟩ => (waits_next hs hb hw).1
  obtain ⟨d, hw, -⟩ := blocked_waits hs (fun _ => hi) hdone (hb i)
  have hfin : {d | ∃ t, Waits (s.pc t) d}.Finite := (List.finite_toSet md.devices).subset hadded
  obtain ⟨d, -, hd⟩ := exists_cycle (r := Depends md) hfin ⟨d, _, hw⟩ (fun d ⟨t, hw⟩ => by
    obtain ⟨-, t', d', hw', hd⟩ := waits_next hs hb hw
    exact ⟨d', ⟨t', hw'⟩, hd (hadded d' ⟨t', hw'⟩)⟩)
  exact ⟨d, hd⟩

/-- The steps that an activation still takes. A visited dependency takes three
when it is skipped, and opening it is paid for by `weight`. -/
def phaseCost : Phase D → Nat
  | .lock => 3
  | .check => 2
  | .visit deps => 4 * deps.length + 5
  | .update => 4
  | .updating => 3
  | .mark => 2
  | .unlock => 1

def placeCost (md : Mediator D) : Place D → Nat
  | .launch k => md.devices.length - k + md.devices.length + 2
  | .join k => md.devices.length - k + 1
  | .returned | .done _ => 0
  | .created _ => 5
  | .running _ st => (st.map (fun f => phaseCost f.phase)).sum + 1

def weight (md : Mediator D) (d : D) : Nat := 4 * (md.deps d).length + 4

def Fresh (s : MediatorState md) (d : D) : Prop :=
  s.shared.updated d = false ∧ ∀ t, d ∉ (openCalls (s.pc t)).map Prod.fst

instance (s : MediatorState md) (d : D) : Decidable (Fresh s d) :=
  inferInstanceAs (Decidable (_ ∧ _))

def remaining (s : MediatorState md) : Nat :=
  total (placeCost md) s.pc + ∑ d ∈ md.devices.toFinset, if Fresh s d then weight md d else 0

theorem moves_cost {sh sh' : Shared D} {p p' : Place D} {e : Effect D Empty}
    (h : Moves md sh p sh' p' e) :
    placeCost md p' < placeCost md p ∨
      ∃ i d rest, p = .running i (⟨d, .check⟩ :: rest) ∧ d ∈ md.devices ∧ sh.updated d = false ∧
        d ∈ (openCalls p').map Prod.fst ∧ placeCost md p' < placeCost md p + weight md d := by
  cases h with
  | visit hd hu =>
    refine .inr ⟨_, _, _, rfl, hd, hu, List.mem_cons_self, ?_⟩
    simp only [placeCost, phaseCost, weight, List.map_cons, List.sum_cons]
    omega
  | leaf hd hu hn =>
    refine .inr ⟨_, _, _, rfl, hd, hu, List.mem_cons_self, ?_⟩
    simp only [placeCost, phaseCost, weight, List.map_cons, List.sum_cons]
    omega
  | launch _ | launched _ | joined _ _ | returns _ | start _ _ | lock | skip _ | descend | visited
  | update | updating | mark | unlock | finish =>
    left
    simp only [placeCost, phaseCost, List.map_cons, List.map_nil, List.sum_cons, List.sum_nil,
      List.length_cons, List.length_nil]
    omega

theorem fresh_step (h : (system md updated).step s a = some s') {d : D} (hd : Fresh s' d) :
    Fresh s d := by
  obtain ⟨t, p, e, hm, -, -, hp⟩ := system_step h
  obtain ⟨hnew, hclosed⟩ := hd
  have hother : ∀ u, u ≠ t → d ∉ (openCalls (s.pc u)).map Prod.fst := by
    intro u hu
    have hc := hclosed u
    rwa [hp, Function.update_of_ne hu] at hc
  have hself := hclosed t
  rw [hp, Function.update_self] at hself
  have hall : s.shared.updated d = false → d ∉ (openCalls (s.pc t)).map Prod.fst → Fresh s d := by
    refine fun hu ht => ⟨hu, fun u => ?_⟩
    by_cases hut : u = t
    · exact hut ▸ ht
    · exact hother u hut
  cases moves_stage hm with
  | same hu _ ho => exact hall (hu ▸ hnew) (ho ▸ hself)
  | opens hu _ ho =>
    apply hall (hu ▸ hnew)
    intro hc
    apply hself
    rw [ho]
    exact List.mem_cons_of_mem _ hc
  | calls ev hu _ ho ho' =>
    rw [ho'] at hself
    apply hall (hu ▸ hnew)
    intro hc
    apply hself
    rwa [ho] at hc
  | @marks x _ hu ho =>
    have hdx : d ≠ x := by
      rintro rfl
      rw [hu, Function.update_self] at hnew
      cases hnew
    rw [hu, Function.update_of_ne hdx] at hnew
    apply hall hnew
    intro hc
    rw [ho, List.map_cons, List.mem_cons] at hc
    exact hself (hc.resolve_left hdx)

theorem remaining_step (hs : Reachable (system md updated) s)
    (h : (system md updated).step s a = some s') : remaining s' < remaining s := by
  obtain ⟨t, p, e, hm, -, -, hp⟩ := system_step h
  have hu := total_update (placeCost md) s.pc t p
  rw [← hp] at hu
  have hle : ∀ d, (if Fresh s' d then weight md d else 0) ≤ if Fresh s d then weight md d else 0 := by
    intro d
    by_cases hd : Fresh s' d
    · rw [if_pos hd, if_pos (fresh_step h hd)]
    · rw [if_neg hd]
      exact Nat.zero_le _
  obtain hlt | ⟨i, d, rest, hpt, hd, hnew, hopen, hlt⟩ := moves_cost hm
  · have hsum := Finset.sum_le_sum (fun d (_ : d ∈ md.devices.toFinset) => hle d)
    simp only [remaining]
    omega
  · -- the weight of the opened device is no longer in the sum
    have hfresh : Fresh s d := by
      refine ⟨hnew, fun u => ?_⟩
      have hn := (owned hs).1 t
      have hheld : d ∈ held (s.pc t) := by
        rw [hpt]
        exact List.mem_cons_self
      by_cases hut : u = t
      · rw [hpt] at hn
        rw [hut, hpt]
        exact check_closed hn
      · exact held_foreign hs hut hheld
    have hopened : ¬ Fresh s' d := fun hf => hf.2 t (by rwa [hp, Function.update_self])
    have hmem := List.mem_toFinset.mpr hd
    have hsum := Finset.sum_le_sum (fun x (_ : x ∈ md.devices.toFinset.erase d) => hle x)
    have hs' := Finset.add_sum_erase _ (fun x => if Fresh s' x then weight md x else 0) hmem
    have hs := Finset.add_sum_erase _ (fun x => if Fresh s x then weight md x else 0) hmem
    simp only [if_neg hopened, if_pos hfresh] at hs' hs
    simp only [remaining]
    omega

theorem cycle_updated (hnew : ∀ d ∈ md.devices, updated d = false)
    (hs : Reachable (system md updated) s) {d : D} (hd : TransGen (Depends md) d d) :
    s.shared.updated d = false := by
  induction hs generalizing d with
  | init h =>
    subst h
    obtain ⟨x, hx, -⟩ := cycle_succ hd
    exact hnew d hx.1
  | @step s s' a hs h ih =>
    obtain ⟨t, p, e, hm, -, -, -⟩ := system_step h
    have hok := placeOk hs t
    have hu := ih hd
    generalize s.pc t = q at hm hok
    generalize s'.shared = sh' at hm ⊢
    cases hm with
    | @mark i x rest =>
      by_cases hdx : d = x
      · subst hdx
        obtain ⟨y, hy, hcycle⟩ := cycle_succ hd
        have hmarked := hok.1.1.2.2 y hy.2.2 hy.2.1
        rw [ih hcycle] at hmarked
        cases hmarked
      · simpa [hdx] using hu
    | _ => exact hu

def LaunchedOk (md : Mediator D) (sh : Shared D) : Place D → Prop
  | .launch k => sh.launched = k
  | .join _ | .returned => md.devices.length ≤ sh.launched
  | _ => True

theorem launchedOk (hs : Reachable (system md updated) s) : LaunchedOk md s.shared (s.pc none) := by
  induction hs with
  | init h =>
    subst h
    rfl
  | @step s s' a hs h ih =>
    obtain ⟨t, p, e, hm, -, -, hp⟩ := system_step h
    have hx := index_pc hs t
    rw [hp]
    cases t with
    | none =>
      rw [Function.update_self]
      generalize s.pc none = q at hm hx ih
      generalize s'.shared = sh' at hm ⊢
      cases hm with
      | launch _ => rfl
      | launched hk =>
        have hl : s.shared.launched = _ := ih
        change md.devices.length ≤ s.shared.launched
        rw [hl]
        exact hk
      | joined _ _ | returns _ => exact ih
      | start _ _ | lock | skip _ | visit _ _ | leaf _ _ _ | descend | visited | update | updating
      | mark | unlock | finish => cases hx
    | some i =>
      rw [Function.update_of_ne (Option.some_ne_none i).symm]
      have hl : s'.shared.launched = s.shared.launched := by
        generalize s.pc (some i) = q at hm hx
        generalize s'.shared = sh' at hm ⊢
        cases hm with
        | launch _ => cases hx
        | _ => rfl
      generalize s.pc none = q at ih ⊢
      cases q with
      | launch _ | join _ | returned => simpa only [LaunchedOk, hl] using ih
      | _ => trivial

theorem launch_enabled (updated : D → Bool) {k : Nat} (hp : s.pc none = .launch k) :
    ∃ pick, Enabled (system md updated) s (.run none () pick) := by
  by_cases hk : k < md.devices.length
  · exact enabled_of_next (e := .none) (by rw [hp]; exact if_pos hk) nofun
  · exact enabled_of_next (e := .none) (by rw [hp]; exact if_neg hk) nofun

theorem all_launched (hs : Reachable (system md updated) s)
    (hb : ∀ pick, ¬ Enabled (system md updated) s (.run none () pick)) :
    md.devices.length ≤ s.shared.launched := by
  have hx := index_pc hs none
  have hl := launchedOk hs
  cases hp : s.pc none with
  | launch k =>
    obtain ⟨pick, h⟩ := launch_enabled updated hp
    exact absurd h (hb pick)
  | join k | returned =>
    rw [hp] at hl
    exact hl
  | created _ | running _ _ | done _ =>
    rw [hp] at hx
    cases hx

theorem cyclic_stuck (hnew : ∀ d ∈ md.devices, updated d = false) (hc : Cyclic md) :
    ∃ s, Reachable (system md updated) s ∧ Stuck md updated s := by
  obtain ⟨d, hd⟩ := hc
  obtain ⟨s, hs, -, hb⟩ := exists_terminal remaining (fun s a s' hs h => remaining_step hs h)
    (.init rfl : Reachable (system md updated) (initial md updated))
  refine ⟨s, hs, ?_, fun i u pick => hb _⟩
  by_contra hall
  have hl := all_launched hs (fun pick => hb _)
  have hdone : Completed s := by
    intro i
    by_contra hi
    exact hall ⟨i, Nat.lt_of_lt_of_le i.isLt hl, hi⟩
  obtain ⟨x, hx, -⟩ := cycle_succ hd
  have hmarked := completed_updated hs hdone hx.1
  rw [cycle_updated hnew hs hd] at hmarked
  cases hmarked

/-- `UpdateAll` can get stuck when the dependencies have a cycle and only
then; without a cycle every unfinished state has a step. -/
theorem updateAll_deadlock (hnew : ∀ d ∈ md.devices, updated d = false) :
    ((∃ s, Reachable (system md updated) s ∧ Stuck md updated s) ↔ Cyclic md) ∧
      (¬ Cyclic md → ∀ s, Reachable (system md updated) s → (∃ i, s.pc (some i) ≠ .done i) →
        ∃ a, Enabled (system md updated) s a) := by
  refine ⟨⟨fun ⟨s, hs, h⟩ => stuck_cyclic hs h, cyclic_stuck hnew⟩, fun hc s hs ⟨i, hi⟩ => ?_⟩
  by_contra hb
  have hb := not_exists.mp hb
  have hl := all_launched hs (fun pick => hb _)
  exact hc (stuck_cyclic hs ⟨⟨i, Nat.lt_of_lt_of_le i.isLt hl, hi⟩, fun i u pick => hb _⟩)

def ring (d x : D) : Mediator D := (twoDevices d x).setDependency x d

theorem ring_depends : Depends (ring false true) false true ∧ Depends (ring false true) true false := by
  simp only [Depends]
  decide

theorem updateAll_deadlock_ring :
    ∃ s, Reachable (system (ring false true) fun _ => false) s ∧
      Stuck (ring false true) (fun _ => false) s :=
  (updateAll_deadlock (fun _ _ => rfl)).1.mpr
    ⟨false, (TransGen.single ring_depends.1).tail ring_depends.2⟩

end RoblSampleCodes.UpdateMediatorDeadlock
