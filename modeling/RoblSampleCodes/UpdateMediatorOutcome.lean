import RoblSampleCodes.UpdateMediatorDeadlock

namespace RoblSampleCodes.UpdateMediatorOutcome

open Relation TransitionSystem ThreadCount ThreadProgram WaitCycle
open UpdateMediator UpdateMediatorInvariant UpdateMediatorOrder UpdateMediatorDeadlock

variable {D : Type} [DecidableEq D] {md : Mediator D} {updated : D → Bool} {s s' : MediatorState md}

def Awaits (md : Mediator D) (updated : D → Bool) (d x : D) : Prop :=
  Depends md d x ∧ updated d = false ∧ updated x = false

theorem new_of_new (hs : Reachable (system md updated) s) {d : D} (hd : s.shared.updated d = false) :
    updated d = false := by
  by_contra hold
  rw [updated_mono hs (Bool.eq_true_of_not_eq_false hold)] at hd
  cases hd

theorem doomed_updated (hs : Reachable (system md updated) s) {d : D}
    (hd : LeadsToCycle (Awaits md updated) d) : s.shared.updated d = false := by
  induction hs generalizing d with
  | init h =>
    subst h
    obtain ⟨x, hx, -⟩ := hd.succ
    exact hx.2.1
  | @step s s' a hs h ih =>
    obtain ⟨t, p, e, hm, -, -, -⟩ := system_step h
    have hok := placeOk hs t
    have hu := ih hd
    generalize s.pc t = q at hm hok
    generalize s'.shared = sh' at hm ⊢
    cases hm with
    | @mark i x rest =>
      by_cases hdx : d = x
      · subst hdx
        obtain ⟨y, hy, hleads⟩ := hd.succ
        have hmarked := hok.1.1.2.2 y hy.1.2.2 hy.1.2.1
        rw [ih hleads] at hmarked
        cases hmarked
      · simpa [hdx] using hu
    | _ => exact hu

theorem below_new (hs : Reachable (system md updated) s) {t : Thread md} {i : Nat} {f g : Frame D}
    {rest : List (Frame D)} (hp : s.pc t = .running i (f :: rest)) (hg : g ∈ rest) :
    g.device ∈ md.devices ∧ s.shared.updated g.device = false := by
  have hok := placeOk hs t
  rw [hp] at hok
  have hopened := stack_opened hok.1 hg
  have hmem : (g.device, made g.phase) ∈ openCalls (s.pc t) := by
    rw [hp]
    exact List.mem_map_of_mem (List.mem_filter.mpr ⟨List.mem_cons_of_mem f hg, hopened⟩)
  exact ⟨stack_added hok.1 hg, ((recorded hs).opened t _ hmem).1⟩

omit [DecidableEq D] in
/-- Along a call stack every device awaits the one above. -/
theorem stack_awaits {u : D → Bool} {above : List D} {f g : Frame D} {rest : List (Frame D)}
    (hok : StackOk md u above (f :: rest)) (hf : f.device ∈ md.devices) (hnew : updated f.device = false)
    (hrest : ∀ b ∈ rest, updated b.device = false) (hg : g ∈ rest) :
    TransGen (Awaits md updated) g.device f.device := by
  induction rest generalizing above f with
  | nil => cases hg
  | cons b rest ih =>
    have hbnew := hrest b List.mem_cons_self
    have hb : Awaits md updated b.device f.device := by
      refine ⟨⟨stack_added hok List.mem_cons_self, hf, ?_⟩, hbnew, hnew⟩
      obtain ⟨-, hb, -⟩ := hok
      obtain ⟨d, phase⟩ := b
      cases phase with
      | visit deps =>
        obtain ⟨-, seen, he, -⟩ := hb
        rw [he]
        simp
      | lock | check => cases hb
      | update | updating | mark | unlock => cases hb.1
    obtain rfl | hg := List.mem_cons.mp hg
    · exact .single hb
    · exact (ih hok.2 hb.1.1 hbnew (fun x hx => hrest x (List.mem_cons_of_mem b hx)) hg).tail hb

def Settled (md : Mediator D) (updated : D → Bool) (s : MediatorState md) : Prop :=
  ∀ a, ¬ Enabled (system md updated) s a

theorem settled_waits (hs : Reachable (system md updated) s) (hb : Settled md updated s)
    {i : Fin md.devices.length} (hdone : s.pc (some i) ≠ .done i) :
    ∃ d, Waits (s.pc (some i)) d ∧ s.owner d ≠ none :=
  blocked_waits hs (fun _ => Nat.lt_of_lt_of_le i.isLt (all_launched hs fun _ => hb _)) hdone
    fun _ _ => hb _

theorem waits_below (hs : Reachable (system md updated) s) (hb : Settled md updated s) {d : D}
    (ho : s.owner d ≠ none) :
    ∃ t i x rest, s.pc t = .running i (⟨x, .lock⟩ :: rest) ∧ s.owner x ≠ none ∧
      ∃ g ∈ rest, g.device = d := by
  obtain ⟨t, ho⟩ := Option.ne_none_iff_exists'.mp ho
  have hheld : d ∈ held (s.pc t) := holds_iff.mp (((owned hs).2 d t).mp ho)
  obtain ⟨g, hg, hgd⟩ := List.mem_map.mp hheld
  obtain ⟨hg, hl⟩ := List.mem_filter.mp hg
  have hx := index_pc hs t
  cases hp : s.pc t with
  | running j st =>
    rw [hp] at hx hg
    cases t with
    | none => cases hx
    | some i =>
      obtain ⟨x, ⟨k, rest, hw⟩, hox⟩ := settled_waits hs hb (i := i) (by rw [hp]; nofun)
      rw [hp] at hw
      cases hw
      obtain rfl | hg := List.mem_cons.mp hg
      · cases hl
      · exact ⟨some i, j, x, rest, hp, hox, g, hg, hgd⟩
  | launch _ | join _ | returned | created _ | done _ =>
    rw [hp] at hg
    cases hg

def Wanted (s : MediatorState md) : Set D := {d | ∃ t, Waits (s.pc t) d ∧ s.owner d ≠ none}

theorem wanted_new (hs : Reachable (system md updated) s) (hb : Settled md updated s) {d : D}
    (hd : d ∈ Wanted s) : d ∈ md.devices ∧ s.shared.updated d = false := by
  obtain ⟨t, -, ho⟩ := hd
  obtain ⟨t', i, x, rest, hp, -, g, hg, rfl⟩ := waits_below hs hb ho
  exact below_new hs hp hg

theorem below_awaits (hs : Reachable (system md updated) s) (hb : Settled md updated s) {t : Thread md}
    {i : Nat} {x : D} {g : Frame D} {rest : List (Frame D)} (hp : s.pc t = .running i (⟨x, .lock⟩ :: rest))
    (ho : s.owner x ≠ none) (hg : g ∈ rest) : TransGen (Awaits md updated) g.device x := by
  have hok := placeOk hs t
  rw [hp] at hok
  obtain ⟨hx, hnew⟩ := wanted_new hs hb ⟨t, ⟨i, rest, hp⟩, ho⟩
  exact stack_awaits hok.1 hx (new_of_new hs hnew) (fun b hb => new_of_new hs (below_new hs hp hb).2) hg

theorem wanted_doomed (hs : Reachable (system md updated) s) (hb : Settled md updated s) {d : D}
    (hd : d ∈ Wanted s) : LeadsToCycle (Awaits md updated) d := by
  have hfin : (Wanted s).Finite :=
    (List.finite_toSet md.devices).subset fun x hx => (wanted_new hs hb hx).1
  refine leadsToCycle hfin ?_ hd
  rintro x ⟨t, -, ho⟩
  obtain ⟨t', i, y, rest, hp, hoy, g, hg, rfl⟩ := waits_below hs hb ho
  exact ⟨y, ⟨t', ⟨i, rest, hp⟩, hoy⟩, below_awaits hs hb hp hoy hg⟩

theorem unfinished_doomed (hs : Reachable (system md updated) s) (hb : Settled md updated s)
    {i : Fin md.devices.length} (hdone : s.pc (some i) ≠ .done i) :
    LeadsToCycle (Awaits md updated) md.devices[i] := by
  obtain ⟨x, ⟨j, rest, hp⟩, ho⟩ := settled_waits hs hb hdone
  have hx := index_pc hs (some i)
  have hok := placeOk hs (some i)
  rw [hp] at hx hok
  obtain rfl : j = i := Option.some.inj hx
  have hdoomed := wanted_doomed hs hb ⟨some i, ⟨_, rest, hp⟩, ho⟩
  obtain hlast | ⟨hnil, -⟩ := hok.2 md.devices[i] (List.getElem?_eq_getElem i.isLt)
  · obtain heq | hmem := List.mem_cons.mp (List.mem_of_getLast? hlast)
    · exact heq ▸ hdoomed
    · obtain ⟨g, hg, heq⟩ := List.mem_map.mp hmem
      exact heq ▸ hdoomed.of_path (below_awaits hs hb hp ho hg).to_reflTransGen
  · cases hnil

theorem done_ready (hs : Reachable (system md updated) s) {i : Fin md.devices.length}
    (hi : s.pc (some i) = .done i) : s.shared.ready i = true := by
  induction hs with
  | init h =>
    subst h
    cases hi
  | @step s s' a hs h ih =>
    obtain ⟨t, p, e, hm, -, -, hp⟩ := system_step h
    rw [hp] at hi
    by_cases hit : some i = t
    · subst hit
      rw [Function.update_self] at hi
      subst hi
      generalize s.pc (some i) = q at hm
      generalize s'.shared = sh' at hm ⊢
      cases hm
      exact Function.update_self ..
    · rw [Function.update_of_ne hit] at hi
      have hready := ih hi
      generalize s.pc t = q at hm
      generalize s'.shared = sh' at hm ⊢
      cases hm with
      | @finish j =>
        by_cases hij : (i : Nat) = j <;> simp [hij, hready]
      | _ => exact hready

theorem returned_of_completed (hs : Reachable (system md updated) s) (hb : Settled md updated s)
    (hc : Completed s) : s.pc none = .returned := by
  have hx := index_pc hs none
  cases hp : s.pc none with
  | launch k =>
    obtain ⟨pick, h⟩ := launch_enabled updated hp
    exact absurd h (hb _)
  | join k =>
    obtain ⟨p, hnext⟩ : ∃ p, next md s.shared (.join k) = some (s.shared, p, .none) := by
      by_cases hk : k < md.devices.length
      · have hready : s.shared.ready k = true := done_ready hs (hc ⟨k, hk⟩)
        exact ⟨.join (k + 1), by rw [next, if_pos hk, if_pos hready]⟩
      · exact ⟨.returned, by rw [next, if_neg hk]⟩
    obtain ⟨pick, h⟩ := enabled_of_next (e := .none) (hp ▸ hnext) fun _ hd => by cases hd
    exact absurd h (hb _)
  | returned => rfl
  | created _ | running _ _ | done _ =>
    rw [hp] at hx
    cases hx

theorem settled_updated_iff (hs : Reachable (system md updated) s) (hb : Settled md updated s) {d : D}
    (hd : d ∈ md.devices) :
    s.shared.updated d = true ↔ ¬ LeadsToCycle (Awaits md updated) d := by
  refine ⟨fun hmarked hdoomed => ?_, fun hsafe => ?_⟩
  · rw [doomed_updated hs hdoomed] at hmarked
    cases hmarked
  · obtain ⟨i, hi, rfl⟩ := List.getElem_of_mem hd
    have hdone : s.pc (some ⟨i, hi⟩) = .done i := by
      by_contra hne
      exact hsafe (unfinished_doomed hs hb hne)
    have hok := placeOk hs (some ⟨i, hi⟩)
    rw [hdone] at hok
    obtain hr | ⟨-, hu⟩ := hok _ (List.getElem?_eq_getElem hi)
    · cases hr
    · exact hu

theorem settled_returned_iff (hs : Reachable (system md updated) s) (hb : Settled md updated s) :
    s.pc none = .returned ↔ ∀ d ∈ md.devices, ¬ LeadsToCycle (Awaits md updated) d := by
  refine ⟨fun hr d hd => ?_, fun hsafe => returned_of_completed hs hb fun i => ?_⟩
  · exact (settled_updated_iff hs hb hd).mp (completed_updated hs (returned_completed hs hr) hd)
  · by_contra hne
    exact hsafe _ (List.getElem_mem i.isLt) (unfinished_doomed hs hb hne)

def bound (md : Mediator D) : Nat :=
  7 * md.devices.length + 2 + ∑ d ∈ md.devices.toFinset, (4 * (md.deps d).length + 4)

theorem remaining_initial (md : Mediator D) (updated : D → Bool) :
    remaining (initial md updated) ≤ bound md := by
  have hplaces : total (placeCost md) (initial md updated).pc = 7 * md.devices.length + 2 := by
    rw [total, Fintype.sum_option]
    simp only [initial, placeCost, Finset.sum_const, Finset.card_univ, Fintype.card_fin, smul_eq_mul]
    omega
  have hweights : (∑ d ∈ md.devices.toFinset, if Fresh (initial md updated) d then weight md d else 0) ≤
      ∑ d ∈ md.devices.toFinset, weight md d :=
    Finset.sum_le_sum fun d _ => by split <;> simp
  rw [remaining, hplaces]
  exact Nat.add_le_add_left hweights _

/-- Every run of `UpdateAll` ends. It has then updated exactly the devices that do not lead to a cycle,
whatever the schedule was, and it has returned when there are no others. -/
theorem updateAll_outcome {as : List (Action (Thread md) Unit)}
    (he : exec (system md updated) (initial md updated) as = some s) :
    as.length ≤ bound md ∧ (Settled md updated s →
      (∀ d ∈ md.devices, s.shared.updated d = true ↔ ¬ LeadsToCycle (Awaits md updated) d) ∧
      (s.pc none = .returned ↔ ∀ d ∈ md.devices, ¬ LeadsToCycle (Awaits md updated) d)) := by
  have hs : Reachable (system md updated) s := .exec (.init rfl) he
  refine ⟨?_, fun hb => ⟨fun d hd => settled_updated_iff hs hb hd, settled_returned_iff hs hb⟩⟩
  have hstep : ∀ u a v, Reachable (system md updated) u → (system md updated).step u a = some v →
      Reachable (system md updated) v ∧ remaining v < remaining u :=
    fun u a v hu h => ⟨hu.step h, remaining_step hu h⟩
  have hlen := length_le_of_measure hstep (.init rfl) he
  have hle := remaining_initial md updated
  omega

/-- The run that updates two devices in turn is over. -/
theorem updateAll_outcome_twoDevices :
    ∃ s, exec (system (twoDevices false true) fun _ => false) (initial _ fun _ => false)
        (twoDevicesRun ⟨0, by decide⟩ ⟨1, by decide⟩) = some s ∧ s.pc none = .returned ∧
      ∀ d ∈ (twoDevices false true).devices,
        ¬ LeadsToCycle (Awaits (twoDevices false true) fun _ => false) d := by
  have hend : (exec (system (twoDevices false true) fun _ => false) (initial _ fun _ => false)
      (twoDevicesRun ⟨0, by decide⟩ ⟨1, by decide⟩)).any
        (fun s => decide (s.pc none = .returned ∧ remaining s = 0)) = true := by
    decide +kernel
  obtain ⟨s, he, hs⟩ := (Option.any_eq_true _ _).mp hend
  obtain ⟨hreturned, hzero⟩ := of_decide_eq_true hs
  have hb : Settled (twoDevices false true) (fun _ => false) s := by
    intro a ha
    obtain ⟨v, hv⟩ := Option.isSome_iff_exists.mp ha
    have hlt := remaining_step (.exec (.init rfl) he) hv
    omega
  exact ⟨s, he, hreturned, ((updateAll_outcome he).2 hb).2.mp hreturned⟩

end RoblSampleCodes.UpdateMediatorOutcome
