import RoblSampleCodes.MountMonitor

namespace RoblSampleCodes.MountMonitorCancel

open SlotList MountMonitor

variable {F : Type}

structure Registration (F : Type) where
  serial : Nat
  callback : F

/-- A vector of callbacks. The history has the ids that the registrations got,
and the registrations whose id was used to cancel. -/
structure Registry (F : Type) where
  callbacks : List (Option (Registration F))
  ids : List Nat
  cancelled : List Nat

def Registry.register (l : Registry F) (callback : F) : Registry F :=
  let (callbacks, id) := registerCallback l.callbacks ⟨l.ids.length, callback⟩
  { l with callbacks := callbacks, ids := l.ids ++ [id] }

def Registry.cancel (l : Registry F) (index : Nat) : Registry F :=
  { l with
    callbacks := cancelCallback l.callbacks index
    cancelled := l.cancelled ++ (List.range l.ids.length).filter (fun q => l.ids[q]? == some index) }

def Registry.removeNull (l : Registry F) : Registry F :=
  { l with callbacks := MountMonitor.removeNull l.callbacks }

def Registry.live (l : Registry F) : List Nat := (launched l.callbacks).map Registration.serial

structure MonitorState (F : Type) where
  isMounted : Bool
  lastMountedState : Bool
  registry : Kind → Registry F

inductive Op (F : Type)
  | call (c : Call F)
  | monitor

def initial (F : Type) : MonitorState F := ⟨false, false, fun _ => ⟨[], [], []⟩⟩

def step (s : MonitorState F) : Op F → MonitorState F
  | .call (.setMounted mounted) => { s with isMounted := mounted }
  | .call (.register kind callback) =>
    { s with registry := Function.update s.registry kind ((s.registry kind).register callback) }
  | .call (.cancel kind index) =>
    { s with registry := Function.update s.registry kind ((s.registry kind).cancel index) }
  | .monitor =>
    match edge s.isMounted s.lastMountedState with
    | some kind => { s with
        registry := Function.update s.registry kind (s.registry kind).removeNull
        lastMountedState := s.isMounted }
    | none => { s with lastMountedState := s.isMounted }

def run (ops : List (Op F)) : MonitorState F := ops.foldl step (initial F)

structure Registry.Valid (l : Registry F) : Prop where
  stands : ∀ q ∈ l.live, ∀ i, l.ids[q]? = some i → ∃ a, l.callbacks[i]? = some (some a) ∧ a.serial = q
  distinct : ∀ q ∈ l.live, ∀ q' ∈ l.live, l.ids[q]? = l.ids[q']? → q = q'
  live : ∀ q, q ∈ l.live ↔ q < l.ids.length ∧ q ∉ l.cancelled

def Registry.CancelExact (l : Registry F) (index : Nat) : Prop :=
  ∀ q, l.ids[q]? = some index → ∀ q', q' ∈ (l.cancel index).live ↔ q' ∈ l.live ∧ q' ≠ q

structure Exact (s : MonitorState F) (op : Op F) : Prop where
  valid : ∀ kind, ((step s op).registry kind).Valid
  cancel : ∀ kind index, op = .call (.cancel kind index) → (s.registry kind).CancelExact index ∧
    ∀ other, other ≠ kind → (step s op).registry other = s.registry other

/-- A round finds no cancelled callback before a live one in its vector, and an id
that is cancelled was not given to a live registration and another one. -/
structure Settled (s : MonitorState F) (op : Op F) : Prop where
  round : ∀ kind, op = .monitor → edge s.isMounted s.lastMountedState = some kind →
    Packed (s.registry kind).callbacks
  cancel : ∀ kind index, op = .call (.cancel kind index) → ∀ q q',
    (s.registry kind).ids[q]? = some index → (s.registry kind).ids[q']? = some index →
      q' ∈ (s.registry kind).live → q = q'

def Along (P : MonitorState F → Op F → Prop) (ops : List (Op F)) : Prop :=
  ∀ before op after, ops = before ++ op :: after → P (run before) op

structure Registry.Numbered (l : Registry F) : Prop where
  distinct : Distinct Registration.serial l.callbacks
  lt : ∀ q ∈ l.live, q < l.ids.length
  cancelled : ∀ q ∈ l.cancelled, q < l.ids.length

section Registry

variable {l : Registry F} {callback : F} {index q i : Nat} {a : Registration F}

theorem mem_live :
    q ∈ l.live ↔ ∃ (i : Nat) (a : Registration F), l.callbacks[i]? = some (some a) ∧ a.serial = q := by
  simp only [Registry.live, launched, List.mem_map, mem_reduceOption]
  constructor
  · rintro ⟨a, ⟨i, hi⟩, hq⟩
    exact ⟨i, a, hi, hq⟩
  · rintro ⟨i, a, hi, hq⟩
    exact ⟨a, ⟨i, hi⟩, hq⟩

theorem live_register : (l.register callback).live = l.live ++ [l.ids.length] := by
  simp only [Registry.live, Registry.register, registerCallback, launched,
    List.reduceOption_append, List.reduceOption_singleton, List.map_append]
  rfl

theorem live_removeNull : l.removeNull.live = l.live := by
  simp only [Registry.live, Registry.removeNull, MountMonitor.removeNull, launched, reduceOption_compact]

theorem Registry.Numbered.register (h : l.Numbered) : (l.register callback).Numbered := by
  have hnew : l.ids.length ∉ l.live := fun hq => Nat.lt_irrefl _ (h.lt _ hq)
  refine ⟨?_, fun q hq => ?_, fun q hq => ?_⟩
  · change (l.register callback).live.Nodup
    rw [live_register, List.nodup_append]
    refine ⟨h.distinct, List.nodup_singleton _, ?_⟩
    rintro q hq q' hq' rfl
    exact hnew (List.mem_singleton.mp hq' ▸ hq)
  · rw [live_register, List.mem_append, List.mem_singleton] at hq
    simp only [Registry.register, List.length_append, List.length_singleton]
    obtain hq | rfl := hq
    · exact Nat.lt_succ_of_lt (h.lt q hq)
    · exact Nat.lt_succ_self _
  · simp only [Registry.register, List.length_append, List.length_singleton]
    exact Nat.lt_succ_of_lt (h.cancelled q hq)

theorem live_cancel_sublist : (l.cancel index).live.Sublist l.live := by
  simp only [Registry.live, Registry.cancel, cancelCallback_eq, launched]
  exact reduceOption_set_sublist.map _

theorem mem_cancelled : q ∈ (l.cancel index).cancelled ↔ q ∈ l.cancelled ∨ l.ids[q]? = some index := by
  simp only [Registry.cancel, List.mem_append, List.mem_filter, List.mem_range, beq_iff_eq]
  refine or_congr_right ⟨fun h => h.2, fun h => ⟨?_, h⟩⟩
  exact (List.getElem?_eq_some_iff.mp h).1

theorem Registry.Numbered.cancel (h : l.Numbered) : (l.cancel index).Numbered := by
  refine ⟨h.distinct.sublist live_cancel_sublist, fun q hq => h.lt q (live_cancel_sublist.subset hq),
    fun q hq => ?_⟩
  obtain hq | hq := mem_cancelled.mp hq
  · exact h.cancelled q hq
  · exact (List.getElem?_eq_some_iff.mp hq).1

theorem Registry.Numbered.removeNull (h : l.Numbered) : l.removeNull.Numbered := by
  refine ⟨?_, fun q hq => h.lt q (live_removeNull ▸ hq), h.cancelled⟩
  change l.removeNull.live.Nodup
  rw [live_removeNull]
  exact h.distinct

/-- The id of a live registration is its place. -/
theorem Registry.Valid.ids_eq (h : l.Valid) (hn : l.Numbered) (ha : l.callbacks[i]? = some (some a)) :
    l.ids[a.serial]? = some i := by
  have hlive := mem_live.mpr ⟨i, a, ha, rfl⟩
  have hid := List.getElem?_eq_getElem (hn.lt _ hlive)
  obtain ⟨b, hb, hserial⟩ := h.stands _ hlive _ hid
  rw [hid, hn.distinct.index_eq hb ha hserial]

theorem Registry.Valid.live_cancel (h : l.Valid) (hn : l.Numbered) :
    q ∈ (l.cancel index).live ↔ q ∈ l.live ∧ l.ids[q]? ≠ some index := by
  simp only [mem_live, Registry.cancel, cancelCallback_eq, List.getElem?_set]
  constructor
  · rintro ⟨i, a, ha, rfl⟩
    by_cases hi : index = i
    · rw [if_pos hi] at ha
      split at ha <;> cases ha
    · rw [if_neg hi] at ha
      refine ⟨⟨i, a, ha, rfl⟩, fun hid => hi ?_⟩
      rw [h.ids_eq hn ha, Option.some.injEq] at hid
      exact hid.symm
  · rintro ⟨⟨i, a, ha, rfl⟩, hid⟩
    rw [h.ids_eq hn ha] at hid
    refine ⟨i, a, ?_, rfl⟩
    rw [if_neg (fun hi => hid (congrArg some hi.symm))]
    exact ha

theorem Registry.Numbered.valid (hn : l.Numbered)
    (hstands : ∀ q ∈ l.live, ∀ i, l.ids[q]? = some i → ∃ a, l.callbacks[i]? = some (some a) ∧ a.serial = q)
    (hlive : ∀ q, q ∈ l.live ↔ q < l.ids.length ∧ q ∉ l.cancelled) : l.Valid := by
  refine ⟨hstands, fun q hq q' hq' hid => ?_, hlive⟩
  have hi := List.getElem?_eq_getElem (hn.lt q hq)
  obtain ⟨a, ha, rfl⟩ := hstands q hq _ hi
  obtain ⟨b, hb, rfl⟩ := hstands q' hq' _ (hid ▸ hi)
  rw [ha, Option.some.injEq, Option.some.injEq] at hb
  rw [hb]

theorem Registry.Valid.register (h : l.Valid) (hn : l.Numbered) : (l.register callback).Valid := by
  have hids : (l.register callback).ids = l.ids ++ [l.callbacks.length] := by
    simp only [Registry.register]
    rw [registerCallback_id]
  have hcallbacks : (l.register callback).callbacks =
      l.callbacks ++ [some ⟨l.ids.length, callback⟩] := rfl
  apply hn.register.valid
  · intro q hq i hid
    rw [hids] at hid
    rw [hcallbacks]
    rw [live_register, List.mem_append, List.mem_singleton] at hq
    obtain hq | rfl := hq
    · rw [List.getElem?_append_left (hn.lt q hq)] at hid
      obtain ⟨a, ha, hserial⟩ := h.stands q hq i hid
      refine ⟨a, ?_, hserial⟩
      rw [List.getElem?_append_left (List.getElem?_eq_some_iff.mp ha).1, ha]
    · rw [List.getElem?_concat_length, Option.some.injEq] at hid
      subst hid
      exact ⟨_, List.getElem?_concat_length .., rfl⟩
  · intro q
    have hnew : l.ids.length ∉ l.cancelled := fun hq => Nat.lt_irrefl _ (hn.cancelled _ hq)
    rw [live_register, List.mem_append, List.mem_singleton, h.live, hids, List.length_append,
      List.length_singleton, Nat.lt_succ_iff_lt_or_eq]
    constructor
    · rintro (⟨hlt, hq⟩ | rfl)
      · exact ⟨.inl hlt, hq⟩
      · exact ⟨.inr rfl, hnew⟩
    · rintro ⟨hlt | rfl, hq⟩
      · exact .inl ⟨hlt, hq⟩
      · exact .inr rfl

theorem Registry.Valid.cancel (h : l.Valid) (hn : l.Numbered) : (l.cancel index).Valid := by
  apply hn.cancel.valid
  · intro q hq i hid
    obtain ⟨hlive, hne⟩ := (h.live_cancel hn).mp hq
    obtain ⟨a, ha, hserial⟩ := h.stands q hlive i hid
    refine ⟨a, ?_, hserial⟩
    have hi : index ≠ i := fun hi => hne (by rw [hi]; exact hid)
    simp only [Registry.cancel, cancelCallback_eq, List.getElem?_set_ne hi]
    exact ha
  · intro q
    rw [h.live_cancel hn, h.live, mem_cancelled, not_or, and_assoc]
    rfl

theorem Registry.Valid.cancelExact_iff (h : l.Valid) (hn : l.Numbered) :
    l.CancelExact index ↔ ∀ q q', l.ids[q]? = some index → l.ids[q']? = some index →
      q' ∈ l.live → q = q' := by
  constructor
  · intro hc q q' hq hq' hlive
    by_contra hne
    have hkept := (hc q hq q').mpr ⟨hlive, fun he => hne he.symm⟩
    exact ((hc q' hq' q').mp hkept).2 rfl
  · intro hc q hq q'
    rw [h.live_cancel hn]
    refine and_congr_right (fun hlive => not_congr ?_)
    constructor
    · intro hq'
      exact (hc q q' hq hq' hlive).symm
    · rintro rfl
      exact hq

theorem Registry.Valid.removeNull_iff (h : l.Valid) (hn : l.Numbered) :
    l.removeNull.Valid ↔ Packed l.callbacks := by
  constructor
  · intro hv
    refine packed_of_compact (fun i a ha => ?_)
    have hlive := mem_live.mpr ⟨i, a, ha, rfl⟩
    obtain ⟨b, hb, hserial⟩ := hv.stands a.serial (by rwa [live_removeNull]) i (h.ids_eq hn ha)
    have hmem : b ∈ l.callbacks.reduceOption := by
      rw [← reduceOption_compact]
      exact mem_reduceOption.mpr ⟨i, hb⟩
    obtain ⟨j, hj⟩ := mem_reduceOption.mp hmem
    obtain rfl := hn.distinct.index_eq hj ha hserial
    rw [ha, Option.some.injEq, Option.some.injEq] at hj
    rw [hj]
    exact hb
  · intro hp
    apply hn.removeNull.valid
    · intro q hq i hi
      rw [live_removeNull] at hq
      obtain ⟨a, ha, hserial⟩ := h.stands q hq i hi
      exact ⟨a, hp.compact_getElem? ha, hserial⟩
    · rw [live_removeNull]
      exact h.live

end Registry

section Run

variable {P : MonitorState F → Op F → Prop} {s : MonitorState F} {ops : List (Op F)} {op : Op F}

theorem run_append : run (ops ++ [op]) = step (run ops) op := by
  rw [run, List.foldl_append]
  rfl

theorem along_append : Along P (ops ++ [op]) ↔ Along P ops ∧ P (run ops) op := by
  constructor
  · intro h
    refine ⟨fun before op' after hops => h before op' (after ++ [op]) ?_, h ops op [] rfl⟩
    rw [hops, List.append_assoc, List.cons_append]
  · rintro ⟨h, hlast⟩ before op' after hops
    obtain rfl | ⟨after, last, rfl⟩ := List.eq_nil_or_concat after
    · obtain ⟨rfl, hop⟩ := List.append_inj' hops rfl
      cases hop
      exact hlast
    · rw [List.concat_eq_append, ← List.cons_append, ← List.append_assoc] at hops
      exact h before op' after (List.append_inj' hops rfl).1

theorem step_numbered (hregistry : ∀ kind, (s.registry kind).Numbered) (kind : Kind) :
    ((step s op).registry kind).Numbered := by
  revert kind
  cases op with
  | call c =>
    cases c with
    | setMounted => exact hregistry
    | register kind =>
      exact (Function.forall_update_iff ..).mpr ⟨(hregistry kind).register, fun k _ => hregistry k⟩
    | cancel kind =>
      exact (Function.forall_update_iff ..).mpr ⟨(hregistry kind).cancel, fun k _ => hregistry k⟩
  | monitor =>
    simp only [step]
    split
    · next kind _ =>
      exact (Function.forall_update_iff ..).mpr ⟨(hregistry kind).removeNull, fun k _ => hregistry k⟩
    · exact hregistry

theorem numbered (ops : List (Op F)) : ∀ kind, ((run ops).registry kind).Numbered := by
  induction ops using List.reverseRecOn with
  | nil =>
    intro kind
    refine ⟨List.nodup_nil, ?_, ?_⟩
    · intro q hq
      cases hq
    · intro q hq
      cases hq
  | append_singleton ops op ih =>
    rw [run_append]
    exact step_numbered ih

theorem settled_of_call {c : Call F} (hc : ∀ kind index, c ≠ .cancel kind index) :
    Settled s (.call c) := by
  refine ⟨?_, ?_⟩
  · intro _ h
    cases h
  · intro kind index h
    cases h
    exact absurd rfl (hc kind index)

theorem exact_iff (hn : ∀ kind, (s.registry kind).Numbered) (hv : ∀ kind, (s.registry kind).Valid) :
    Exact s op ↔ Settled s op := by
  have hothers : ∀ {kind : Kind} {l : Registry F}, l.Valid →
      ∀ k, (Function.update s.registry kind l k).Valid :=
    fun h => (Function.forall_update_iff ..).mpr ⟨h, fun k _ => hv k⟩
  cases op with
  | call c =>
    cases c with
    | setMounted =>
      constructor
      · intro _
        apply settled_of_call
        intro _ _ h
        cases h
      · intro _
        refine ⟨hv, ?_⟩
        intro _ _ h
        cases h
    | register kind =>
      constructor
      · intro _
        apply settled_of_call
        intro _ _ h
        cases h
      · intro _
        refine ⟨hothers ((hv kind).register (hn kind)), ?_⟩
        intro _ _ h
        cases h
    | cancel kind index =>
      constructor
      · intro h
        refine ⟨?_, ?_⟩
        · intro _ h
          cases h
        · intro _ _ hop
          cases hop
          exact ((hv kind).cancelExact_iff (hn kind)).mp (h.cancel kind index rfl).1
      · intro h
        refine ⟨hothers ((hv kind).cancel (hn kind)), ?_⟩
        intro _ _ hop
        cases hop
        exact ⟨((hv kind).cancelExact_iff (hn kind)).mpr (h.cancel kind index rfl),
          fun other hne => Function.update_of_ne hne ..⟩
  | monitor =>
    constructor
    · intro h
      refine ⟨fun kind _ hedge => ?_, ?_⟩
      · have hvalid := h.valid kind
        simp only [step, hedge, Function.update_self] at hvalid
        exact ((hv kind).removeNull_iff (hn kind)).mp hvalid
      · intro _ _ h
        cases h
    · intro h
      refine ⟨?_, ?_⟩
      · cases hedge : edge s.isMounted s.lastMountedState with
        | none =>
          simp only [step, hedge]
          exact hv
        | some kind =>
          simp only [step, hedge]
          exact hothers (((hv kind).removeNull_iff (hn kind)).mpr (h.round kind rfl hedge))
      · intro _ _ h
        cases h

theorem exact_valid (h : Along Exact ops) : ∀ kind, ((run ops).registry kind).Valid := by
  obtain rfl | ⟨before, op, rfl⟩ := List.eq_nil_or_concat ops
  · intro kind
    apply (numbered [] kind).valid
    · intro q hq
      cases hq
    · intro q
      constructor
      · intro hq
        cases hq
      · rintro ⟨hq, -⟩
        cases hq
  · rw [List.concat_eq_append] at h ⊢
    rw [run_append]
    exact (along_append.mp h).2.valid

/-- Cancellation is exact along a sequence of calls and passes of `Monitor` just
if no round moves a live callback, and no cancel uses an id that was given twice
and once to a live callback. -/
theorem cancellation_exact_iff (ops : List (Op F)) : Along Exact ops ↔ Along Settled ops := by
  induction ops using List.reverseRecOn with
  | nil =>
    have hnil : ∀ P : MonitorState F → Op F → Prop, Along P [] := by
      intro P before op after h
      cases List.append_eq_nil_iff.mp h.symm with
      | intro _ h => cases h
    exact iff_of_true (hnil _) (hnil _)
  | append_singleton ops op ih =>
    rw [along_append, along_append, ← ih]
    exact and_congr_right (fun h => exact_iff (numbered ops) (exact_valid h))

end Run

def staleRun : List (Op Unit) :=
  [.call (registerMountCallback ()), .call (registerMountCallback ()), .call (cancelMountCallback 0),
    .call (.setMounted true), .monitor]

theorem cancellation_stale :
    ((run staleRun).registry .mount).ids = [0, 1] ∧ ((run staleRun).registry .mount).live = [1] ∧
      ((run (staleRun ++ [.call (cancelMountCallback 1)])).registry .mount).live = [1] ∧
      ¬ Along Exact (staleRun ++ [.call (cancelMountCallback 1)]) := by
  refine ⟨rfl, rfl, rfl, fun h => ?_⟩
  have hexact := ((along_append.mp h).2.cancel .mount 1 rfl).1 1 rfl 1
  exact (hexact.mp (List.mem_singleton_self _)).2 rfl

end RoblSampleCodes.MountMonitorCancel
