import RoblSampleCodes.MidListener

namespace RoblSampleCodes.MidListenerHandles

open MidListener

variable {τ : Type}

/-- The public functions that a client calls. A handle is the number of its
registration, and the iterator that `RegisterCallback` returned for it. -/
inductive Call (τ : Type)
  | register (mid : BitVec 32) (type : MessageType τ)
  | cancel (handle : Nat)

inductive Action (τ : Type)
  | register (mid : BitVec 32) (type : MessageType τ) (rehash : Option Nat)
  | cancel (handle : Nat)

def Action.call : Action τ → Call τ
  | .register mid type _ => .register mid type
  | .cancel handle => .cancel handle

/-- The elements, the iterators that are valid, the handles that were returned and
not cancelled, and the number of registrations. -/
structure State (τ : Type) where
  callbackMultimap : List (Registration τ)
  bucketCount : Nat
  iterators : List Nat
  handles : List Nat
  count : Nat

def initial (bucketCount : Nat) : State τ := ⟨[], bucketCount, [], [], 0⟩

/-- The listener leaves the default. -/
def maxLoadFactor : Nat := 1

def Exceeds (s : State τ) : Prop := maxLoadFactor * s.bucketCount < s.callbackMultimap.length + 1

instance (s : State τ) : Decidable (Exceeds s) := inferInstanceAs (Decidable (_ < _))

def designates (s : State τ) (it : Nat) : Option (Registration τ) :=
  if it ∈ s.iterators then s.callbackMultimap.find? (·.handle = it) else none

/-- The step is `none` where the behaviour is undefined, and for a rehash that the
standard does not allow. -/
def step (s : State τ) : Action τ → Option (State τ)
  | .register mid type none =>
    some { s with
      callbackMultimap := s.callbackMultimap ++ [⟨s.count, mid, type⟩]
      iterators := s.count :: s.iterators
      handles := s.count :: s.handles
      count := s.count + 1 }
  | .register mid type (some buckets) =>
    if Exceeds s ∧ s.callbackMultimap.length + 1 ≤ maxLoadFactor * buckets then
      some ⟨s.callbackMultimap ++ [⟨s.count, mid, type⟩], buckets, [s.count], s.count :: s.handles,
        s.count + 1⟩
    else none
  | .cancel handle =>
    (designates s handle).map fun element =>
      { s with
        callbackMultimap := s.callbackMultimap.eraseP (·.handle = element.handle)
        iterators := s.iterators.erase handle
        handles := s.handles.erase handle }

def CancelsExactly (s : State τ) (handle : Nat) : Prop :=
  ∃ element t, designates s handle = some element ∧ element.handle = handle ∧
    step s (.cancel handle) = some t ∧
    ∀ r, r ∈ t.callbackMultimap ↔ r ∈ s.callbackMultimap ∧ r ≠ element

def CancelsOnce : Nat → List Nat → List (Call τ) → Prop
  | _, _, [] => True
  | count, handles, .register _ _ :: calls => CancelsOnce (count + 1) (count :: handles) calls
  | count, handles, .cancel handle :: calls =>
    handle ∈ handles ∧ CancelsOnce count (handles.erase handle) calls

def Sound : State τ → List (Call τ) → Prop
  | _, [] => True
  | s, call :: calls => (∀ handle, call = .cancel handle → CancelsExactly s handle) ∧
      ∀ a t, a.call = call → step s a = some t → Sound t calls

def Fits : State τ → List (Call τ) → Prop
  | _, [] => True
  | s, call :: calls =>
      (∀ mid type, call = .register mid type → Exceeds s → ∀ handle ∈ s.handles, .cancel handle ∉ calls) ∧
      ∀ a t, a.call = call → step s a = some t → Fits t calls

structure Invariant (s : State τ) : Prop where
  lt : ∀ r ∈ s.callbackMultimap, r.handle < s.count
  nodup : (s.callbackMultimap.map (·.handle)).Nodup
  handles : s.handles.Perm (s.callbackMultimap.map (·.handle))

theorem invariant_initial (bucketCount : Nat) : Invariant (initial bucketCount : State τ) := by
  refine ⟨fun r hr => absurd hr List.not_mem_nil, List.nodup_nil, List.Perm.refl _⟩

theorem Invariant.handle_lt {s : State τ} (h : Invariant s) {handle : Nat} (hout : handle ∈ s.handles) :
    handle < s.count := by
  obtain ⟨r, hr, rfl⟩ := List.mem_map.mp (h.handles.mem_iff.mp hout)
  exact h.lt r hr

theorem register_eq_some {s t : State τ} {mid : BitVec 32} {type : MessageType τ} {rehash : Option Nat}
    (ht : step s (.register mid type rehash) = some t) :
    t.callbackMultimap = s.callbackMultimap ++ [⟨s.count, mid, type⟩] ∧ t.handles = s.count :: s.handles ∧
      t.count = s.count + 1 ∧ s.count ∈ t.iterators ∧
      (¬ Exceeds s → t.iterators = s.count :: s.iterators) := by
  cases rehash with
  | none =>
    obtain rfl := Option.some.inj ht
    exact ⟨rfl, rfl, rfl, List.mem_cons_self, fun _ => rfl⟩
  | some buckets =>
    simp only [step, Option.ite_none_right_eq_some] at ht
    obtain ⟨⟨hexceeds, -⟩, ⟨⟩⟩ := ht
    exact ⟨rfl, rfl, rfl, List.mem_singleton_self _, fun h => absurd hexceeds h⟩

theorem designates_eq_some {s : State τ} {it : Nat} {element : Registration τ}
    (h : designates s it = some element) :
    it ∈ s.iterators ∧ element ∈ s.callbackMultimap ∧ element.handle = it := by
  simp only [designates, Option.ite_none_right_eq_some] at h
  exact ⟨h.1, List.mem_of_find?_eq_some h.2, by simpa only [decide_eq_true_eq] using List.find?_some h.2⟩

theorem cancel_eq_some {s t : State τ} {handle : Nat} (ht : step s (.cancel handle) = some t) :
    t.callbackMultimap = s.callbackMultimap.eraseP (·.handle = handle) ∧
      t.iterators = s.iterators.erase handle ∧ t.handles = s.handles.erase handle ∧ t.count = s.count := by
  simp only [step, Option.map_eq_some_iff] at ht
  obtain ⟨element, helement, rfl⟩ := ht
  rw [(designates_eq_some helement).2.2]
  exact ⟨rfl, rfl, rfl, rfl⟩

theorem invariant_step {s t : State τ} {a : Action τ} (h : Invariant s) (ht : step s a = some t) :
    Invariant t := by
  cases a with
  | register mid type rehash =>
    obtain ⟨hmap, hhandles, hcount, -, -⟩ := register_eq_some ht
    refine ⟨fun r hr => ?_, ?_, ?_⟩
    · rw [hmap, List.mem_append, List.mem_singleton] at hr
      rw [hcount]
      rcases hr with hr | rfl
      · exact Nat.lt_succ_of_lt (h.lt r hr)
      · exact Nat.lt_succ_self _
    · rw [hmap, List.map_append, List.nodup_append]
      refine ⟨h.nodup, List.nodup_singleton _, ?_⟩
      intro k hk k' hk' heq
      obtain ⟨r, hr, hrk⟩ := List.mem_map.mp hk
      have hcount : k' = s.count := List.mem_singleton.mp hk'
      have hlt := h.lt r hr
      omega
    · rw [hmap, hhandles, List.map_append]
      exact (h.handles.cons _).trans (List.perm_append_singleton _ _).symm
  | cancel handle =>
    obtain ⟨hmap, -, hhandles, hcount⟩ := cancel_eq_some ht
    have herase : (s.callbackMultimap.eraseP (·.handle = handle)).map (·.handle) =
        (s.callbackMultimap.map (·.handle)).erase handle := by
      rw [List.erase_eq_eraseP', List.eraseP_map]
      rfl
    refine ⟨fun r hr => ?_, ?_, ?_⟩
    · rw [hcount]
      rw [hmap] at hr
      exact h.lt r (List.mem_of_mem_eraseP hr)
    · rw [hmap, herase]
      exact h.nodup.erase _
    · rw [hmap, hhandles, herase]
      exact h.handles.erase _

theorem CancelsOnce.next {s t : State τ} {a : Action τ} {calls : List (Call τ)}
    (h : CancelsOnce s.count s.handles (a.call :: calls)) (ht : step s a = some t) :
    CancelsOnce t.count t.handles calls := by
  cases a with
  | register mid type rehash =>
    obtain ⟨-, hhandles, hcount, -, -⟩ := register_eq_some ht
    rw [hhandles, hcount]
    exact h
  | cancel handle =>
    obtain ⟨-, -, hhandles, hcount⟩ := cancel_eq_some ht
    rw [hhandles, hcount]
    exact h.2

theorem eraseP_handle {l : List (Registration τ)} (h : (l.map (·.handle)).Nodup) (handle : Nat) :
    l.eraseP (·.handle = handle) = l.filter (·.handle ≠ handle) := by
  induction l with
  | nil => rfl
  | cons r l ih =>
    rw [List.map_cons, List.nodup_cons] at h
    by_cases hr : r.handle = handle
    · rw [List.eraseP_cons_of_pos (by simp [hr]), List.filter_cons_of_neg (by simp [hr])]
      refine (List.filter_eq_self.mpr fun r' hr' => decide_eq_true ?_).symm
      rintro rfl
      exact h.1 (hr ▸ List.mem_map_of_mem hr')
    · rw [List.eraseP_cons_of_neg (by simp [hr]), List.filter_cons_of_pos (by simp [hr]), ih h.2]

theorem exists_designates {s : State τ} {handle : Nat} (h : Invariant s) (hout : handle ∈ s.handles)
    (hvalid : handle ∈ s.iterators) : ∃ element, designates s handle = some element := by
  obtain ⟨r, hr, hhandle⟩ := List.mem_map.mp (h.handles.mem_iff.mp hout)
  rw [designates, if_pos hvalid, ← Option.isSome_iff_exists, List.find?_isSome]
  exact ⟨r, hr, decide_eq_true hhandle⟩

theorem cancelsExactly_of_mem {s : State τ} {handle : Nat} (h : Invariant s) (hout : handle ∈ s.handles)
    (hvalid : handle ∈ s.iterators) : CancelsExactly s handle := by
  obtain ⟨element, hdesignates⟩ := exists_designates h hout hvalid
  obtain ⟨-, helement, heq⟩ := designates_eq_some hdesignates
  obtain ⟨t, ht⟩ : ∃ t, step s (.cancel handle) = some t := by
    rw [step, hdesignates]
    exact ⟨_, rfl⟩
  refine ⟨element, t, hdesignates, heq, ht, fun r => ?_⟩
  rw [(cancel_eq_some ht).1, eraseP_handle h.nodup, List.mem_filter, decide_eq_true_eq]
  refine and_congr_right fun hr => not_congr ⟨fun hhandle => ?_, fun hr => hr ▸ heq⟩
  exact List.inj_on_of_nodup_map h.nodup hr helement (hhandle.trans heq.symm)

theorem mem_iterators_of_cancelsExactly {s : State τ} {handle : Nat} (h : CancelsExactly s handle) :
    handle ∈ s.iterators := by
  obtain ⟨element, -, hdesignates, -⟩ := h
  exact (designates_eq_some hdesignates).1

theorem sound_of_fits {s : State τ} {calls : List (Call τ)} (h : Invariant s)
    (honce : CancelsOnce s.count s.handles calls)
    (hvalid : ∀ handle ∈ s.handles, .cancel handle ∈ calls → handle ∈ s.iterators) (hfits : Fits s calls) :
    Sound s calls := by
  induction calls generalizing s with
  | nil => trivial
  | cons call calls ih =>
    obtain ⟨hload, hnext⟩ := hfits
    refine ⟨fun handle hcall => ?_, fun a t ha ht => ?_⟩
    · subst hcall
      exact cancelsExactly_of_mem h honce.1 (hvalid handle honce.1 List.mem_cons_self)
    · subst ha
      refine ih (invariant_step h ht) (honce.next ht) (fun handle hout hcancel => ?_) (hnext a t rfl ht)
      cases a with
      | register mid type rehash =>
        obtain ⟨-, hhandles, -, hnew, hkept⟩ := register_eq_some ht
        rw [hhandles, List.mem_cons] at hout
        rcases hout with rfl | hout
        · exact hnew
        · have hroom : ¬ Exceeds s := fun hexceeds => hload mid type rfl hexceeds handle hout hcancel
          rw [hkept hroom]
          exact List.mem_cons_of_mem _ (hvalid handle hout (List.mem_cons_of_mem _ hcancel))
      | cancel other =>
        obtain ⟨-, hiterators, hhandles, -⟩ := cancel_eq_some ht
        have hnodup : s.handles.Nodup := h.handles.nodup_iff.mpr h.nodup
        rw [hhandles, hnodup.mem_erase_iff] at hout
        rw [hiterators, List.mem_erase_of_ne hout.1]
        exact hvalid handle hout.2 (List.mem_cons_of_mem _ hcancel)

theorem not_sound_of_not_mem {s : State τ} {calls : List (Call τ)} (h : Invariant s)
    (honce : CancelsOnce s.count s.handles calls) {handle : Nat} (hout : handle ∈ s.handles)
    (hinvalid : handle ∉ s.iterators) (hcancel : .cancel handle ∈ calls) : ¬ Sound s calls := by
  induction calls generalizing s with
  | nil => exact absurd hcancel List.not_mem_nil
  | cons call calls ih =>
    rintro ⟨hexact, hsound⟩
    rcases List.mem_cons.mp hcancel with heq | hlater
    · exact hinvalid (mem_iterators_of_cancelsExactly (hexact handle heq.symm))
    · cases call with
      | register mid type =>
        have hsound := hsound (.register mid type none) _ rfl rfl
        refine ih (invariant_step (a := .register mid type none) h rfl) honce
          (List.mem_cons_of_mem _ hout) ?_ hlater hsound
        intro hmem
        rcases List.mem_cons.mp hmem with heq | hmem
        · exact absurd (h.handle_lt hout) (by omega)
        · exact hinvalid hmem
      | cancel other =>
        obtain ⟨element, t, -, -, ht, -⟩ := hexact other rfl
        have hsound := hsound (.cancel other) t rfl ht
        obtain ⟨-, hiterators, hhandles, -⟩ := cancel_eq_some ht
        have hne : handle ≠ other := by
          rintro rfl
          exact hinvalid (mem_iterators_of_cancelsExactly (hexact handle rfl))
        refine ih (invariant_step h ht) (CancelsOnce.next (a := .cancel other) honce ht) ?_ ?_
          hlater hsound
        · rw [hhandles, List.mem_erase_of_ne hne]
          exact hout
        · rw [hiterators, List.mem_erase_of_ne hne]
          exact hinvalid

theorem fits_of_sound {s : State τ} {calls : List (Call τ)} (h : Invariant s)
    (honce : CancelsOnce s.count s.handles calls) (hsound : Sound s calls) : Fits s calls := by
  induction calls generalizing s with
  | nil => trivial
  | cons call calls ih =>
    obtain ⟨-, hsound⟩ := hsound
    refine ⟨?_, fun a t ha ht => ?_⟩
    · rintro mid type rfl hexceeds handle hout hcancel
      -- the map may be rehashed here, which leaves only the new iterator valid
      have hrehash : step s (.register mid type (some (s.callbackMultimap.length + 1))) =
          some ⟨s.callbackMultimap ++ [⟨s.count, mid, type⟩], s.callbackMultimap.length + 1, [s.count],
            s.count :: s.handles, s.count + 1⟩ := by
        rw [step, if_pos ⟨hexceeds, by rw [maxLoadFactor]; omega⟩]
      refine not_sound_of_not_mem (invariant_step h hrehash) honce (List.mem_cons_of_mem _ hout) ?_ hcancel
        (hsound _ _ rfl hrehash)
      intro hmem
      have hlt := h.handle_lt hout
      have hcount := List.mem_singleton.mp hmem
      omega
    · subst ha
      exact ih (invariant_step h ht) (honce.next ht) (hsound a t rfl ht)

/-- All cancels of a sequence of calls are exact just if no registration exceeds the load
while a handle is out that is cancelled later. -/
theorem sound_iff_fits (bucketCount : Nat) (calls : List (Call τ)) (honce : CancelsOnce 0 [] calls) :
    Sound (initial bucketCount) calls ↔ Fits (initial bucketCount) calls := by
  constructor
  · exact fits_of_sound (invariant_initial bucketCount) honce
  · refine sound_of_fits (invariant_initial bucketCount) honce ?_
    exact fun handle hout => absurd hout List.not_mem_nil

/-- The program's own calls, with two registrations. -/
theorem sound_iff_fits_two :
    Sound (initial 13) [.register 1 (.plain ()), .register 1 (.plain ()), .cancel 0, .cancel 1] ↔
      Fits (initial 13) [.register 1 (.plain ()), .register 1 (.plain ()), .cancel 0, .cancel 1] :=
  sound_iff_fits 13 _ ⟨by decide, by decide, trivial⟩

theorem Sound.foldlM {s t : State τ} {calls : List (Call τ)} (as : List (Action τ))
    (h : Sound s (as.map Action.call ++ calls)) (ht : as.foldlM step s = some t) : Sound t calls := by
  induction as generalizing s with
  | nil => exact Option.some.inj ht ▸ h
  | cons a as ih =>
    rw [List.foldlM_cons, Option.bind_eq_bind, Option.bind_eq_some_iff] at ht
    obtain ⟨u, hu, ht⟩ := ht
    exact ih (h.2 a u rfl hu) ht

/-- With thirteen buckets, the fourteenth registration may rehash the map, and the first
handle is no longer valid when it is cancelled. -/
theorem not_sound_fourteen :
    CancelsOnce 0 [] (List.replicate 14 (.register 1 (.plain ())) ++ [.cancel 0]) ∧
      ¬ Sound (initial 13) (List.replicate 14 (.register 1 (.plain ())) ++ [.cancel 0]) := by
  refine ⟨⟨by decide, trivial⟩, fun h => ?_⟩
  have hcancel := Sound.foldlM
    (List.replicate 13 (.register 1 (.plain ()) none) ++ [.register 1 (.plain ()) (some 29)]) h rfl
  have hmem := mem_iterators_of_cancelsExactly (hcancel.1 0 rfl)
  revert hmem
  decide

end RoblSampleCodes.MidListenerHandles
