import RoblSampleCodes.Refinement
import RoblSampleCodes.ThreadProgram

namespace RoblSampleCodes.ForkJoin

open TransitionSystem ThreadCount ThreadProgram Refinement

/-- The function that the worker threads run on the data `C`. It returns where it has no next step. -/
structure Worker (C P M : Type) where
  start : P
  next : C → P → Option (C × P × Effect M Empty)

/-- The data, how many workers were created, which have returned, and what the main thread read in the
end. -/
structure Shared (C : Type) where
  data : C
  created : Nat
  returned : Nat → Bool
  result : Option C

inductive Place (P : Type)
  | create (k : Nat)
  | join (k : Nat)
  | read
  | ended
  | created (j : Nat)
  | running (j : Nat) (p : P)
  | returned (j : Nat)

variable {C P M : Type}

/-- The main thread creates the workers, joins them in the same order and reads the data. -/
def Worker.place (w : Worker C P M) (workers : Nat) (sh : Shared C) :
    Place P → Option (Shared C × Place P × Effect M Empty)
  | .create k =>
    if k < workers then some ({ sh with created := k + 1 }, .create (k + 1), .none)
    else some (sh, .join 0, .none)
  | .join k =>
    if k < workers then
      if sh.returned k then some (sh, .join (k + 1), .none) else none
    else some (sh, .read, .none)
  | .read => some ({ sh with result := some sh.data }, .ended, .none)
  | .ended => none
  | .created j => if j < sh.created then some (sh, .running j w.start, .none) else none
  | .running j p =>
    match w.next sh.data p with
    | some (c, p', e) => some ({ sh with data := c }, .running j p', e)
    | none => some ({ sh with returned := Function.update sh.returned j true }, .returned j, .none)
  | .returned _ => none

def Worker.program (w : Worker C P M) (workers : Nat) : Program (Shared C) (Place P) Unit M Empty where
  next sh p _ := w.place workers sh p
  asleep _ := none
  wake := id
  asleep_wake _ := rfl
  next_asleep _ _ _ h := absurd rfl h

abbrev Thread (workers : Nat) := Option (Fin workers)

abbrev ForkState (C P M : Type) (workers : Nat) := State (Shared C) (Place P) M (Thread workers)

def initial (workers : Nat) (c : C) : ForkState C P M workers where
  shared := ⟨c, 0, fun _ => false, none⟩
  owner := fun _ => none
  pc
    | none => .create 0
    | some j => .created j

def Worker.system [DecidableEq M] (w : Worker C P M) (workers : Nat) (c : C) :
    System (ForkState C P M workers) (Action (Thread workers) Unit) :=
  (w.program workers).system (· = initial workers c)

inductive Moves (w : Worker C P M) (workers : Nat) (sh : Shared C) :
    Place P → Shared C → Place P → Effect M Empty → Prop
  | create {k : Nat} (h : k < workers) :
      Moves w workers sh (.create k) { sh with created := k + 1 } (.create (k + 1)) .none
  | allCreated {k : Nat} (h : workers ≤ k) : Moves w workers sh (.create k) sh (.join 0) .none
  | join {k : Nat} (h : k < workers) (hr : sh.returned k = true) :
      Moves w workers sh (.join k) sh (.join (k + 1)) .none
  | allJoined {k : Nat} (h : workers ≤ k) : Moves w workers sh (.join k) sh .read .none
  | read : Moves w workers sh .read { sh with result := some sh.data } .ended .none
  | start {j : Nat} (h : j < sh.created) : Moves w workers sh (.created j) sh (.running j w.start) .none
  | run {j : Nat} {p p' : P} {c : C} {e : Effect M Empty} (h : w.next sh.data p = some (c, p', e)) :
      Moves w workers sh (.running j p) { sh with data := c } (.running j p') e
  | return {j : Nat} {p : P} (h : w.next sh.data p = none) :
      Moves w workers sh (.running j p) { sh with returned := Function.update sh.returned j true }
        (.returned j) .none

theorem place_moves {w : Worker C P M} {workers : Nat} {sh sh' : Shared C} {p p' : Place P}
    {e : Effect M Empty} (h : w.place workers sh p = some (sh', p', e)) :
    Moves w workers sh p sh' p' e := by
  cases p with
  | create k =>
    simp only [Worker.place] at h
    split at h <;> cases h
    · exact .create ‹_›
    · exact .allCreated (Nat.le_of_not_lt ‹_›)
  | join k =>
    simp only [Worker.place] at h
    split at h
    · split at h <;> cases h
      exact .join ‹_› ‹_›
    · cases h
      exact .allJoined (Nat.le_of_not_lt ‹_›)
  | read =>
    cases h
    exact .read
  | created j =>
    simp only [Worker.place, Option.ite_none_right_eq_some] at h
    obtain ⟨hlt, h⟩ := h
    cases h
    exact .start hlt
  | running j p =>
    simp only [Worker.place] at h
    split at h <;> rename_i hnext <;> cases h
    · exact .run hnext
    · exact .return hnext
  | ended | returned => cases h

variable [DecidableEq M] {w : Worker C P M} {workers : Nat} {c : C} {s s' : ForkState C P M workers}

theorem system_step {a : Action (Thread workers) Unit} (h : (w.system workers c).step s a = some s') :
    ∃ t p e, Moves w workers s.shared (s.pc t) s'.shared p e ∧ (∀ m, e = .lock m → s.owner m = none) ∧
      s'.owner = e.owner t s.owner ∧ s'.pc = Function.update s.pc t p := by
  obtain ⟨t, u, pick, p, e, -, hn, hl, ho, hp⟩ := step_sleepless (fun _ => rfl) h
  exact ⟨t, p, e, place_moves hn, hl, ho, hp⟩

def worker : Place P → Option Nat
  | .created j | .running j _ | .returned j => some j
  | _ => none

theorem worker_pc (hs : Reachable (w.system workers c) s) (t : Thread workers) :
    worker (s.pc t) = t.map Fin.val := by
  induction hs generalizing t with
  | init h =>
    subst h
    cases t <;> rfl
  | @step s s' a _ h ih =>
    obtain ⟨u, p, e, hm, -, -, hp⟩ := system_step h
    rw [hp]
    by_cases htu : t = u
    · subst htu
      rw [Function.update_self, ← ih]
      generalize s.pc t = q at hm
      generalize s'.shared = sh' at hm
      cases hm <;> rfl
    · rw [Function.update_of_ne htu, ih]

theorem thread_step (hs : Reachable (w.system workers c) s) {a : Action (Thread workers) Unit}
    (h : (w.system workers c).step s a = some s') :
    (∃ p e, Moves w workers s.shared (s.pc none) s'.shared p e ∧ worker (s.pc none) = none ∧
      s'.pc none = p ∧ ∀ j, s'.pc (some j) = s.pc (some j)) ∨
    (∃ (j : Fin workers) (p : Place P) (e : Effect M Empty),
      Moves w workers s.shared (s.pc (some j)) s'.shared p e ∧ worker (s.pc (some j)) = some j.val ∧
      s'.pc (some j) = p ∧ ∀ u, u ≠ some j → s'.pc u = s.pc u) := by
  obtain ⟨t, p, e, hm, -, -, hp⟩ := system_step h
  have hself : s'.pc t = p := by rw [hp, Function.update_self]
  have hother : ∀ u, u ≠ t → s'.pc u = s.pc u := fun u hu => by rw [hp, Function.update_of_ne hu]
  have hx := worker_pc hs t
  cases t with
  | none => exact .inl ⟨p, e, hm, hx, hself, fun j => hother _ (Option.some_ne_none j)⟩
  | some j => exact .inr ⟨j, p, e, hm, hx, hself, hother⟩

def Created (workers : Nat) (sh : Shared C) : Place P → Prop
  | .create k => sh.created = k
  | .join _ | .read | .ended => workers ≤ sh.created
  | _ => True

theorem created (hs : Reachable (w.system workers c) s) : Created workers s.shared (s.pc none) := by
  induction hs with
  | init h =>
    subst h
    rfl
  | @step s s' a hs h ih =>
    obtain ⟨p, e, hm, hx, rfl, -⟩ | ⟨j, p, e, hm, hx, -, hother⟩ := thread_step hs h
    · generalize s.pc none = q at hm hx ih
      generalize s'.pc none = q' at hm ⊢
      generalize s'.shared = sh' at hm ⊢
      cases hm with
      | create _ => rfl
      | allCreated hk =>
        have hcreated : s.shared.created = _ := ih
        exact hk.trans hcreated.ge
      | join _ _ | allJoined _ | read => exact ih
      | start _ | run _ | «return» _ => cases hx
    · rw [hother none (Option.some_ne_none j).symm]
      have hcreated : s'.shared.created = s.shared.created := by
        generalize s.pc (some j) = q at hm hx
        generalize s'.shared = sh' at hm ⊢
        cases hm <;> first | rfl | cases hx
      generalize s.pc none = q at ih ⊢
      cases q with
      | create _ | join _ | read | ended => simpa only [Created, hcreated] using ih
      | _ => trivial

/-- The workers that have returned are marked. -/
theorem marked (hs : Reachable (w.system workers c) s) (j : Fin workers) :
    s.shared.returned j = true ↔ s.pc (some j) = .returned j := by
  induction hs with
  | init h =>
    subst h
    simp [initial]
  | @step s s' a hs h ih =>
    obtain ⟨p, e, hm, hx, -, hother⟩ | ⟨i, p, e, hm, hx, rfl, hother⟩ := thread_step hs h
    · rw [hother, ← ih]
      generalize s.pc none = q at hm hx
      generalize s'.shared = sh' at hm ⊢
      cases hm <;> first | rfl | cases hx
    · by_cases hij : j = i
      · subst hij
        generalize s.pc (some j) = q at hm hx ih
        generalize s'.pc (some j) = q' at hm ⊢
        generalize s'.shared = sh' at hm ⊢
        cases hm with
        | «return» _ =>
          obtain rfl := Option.some.inj hx
          simp
        | start _ | run _ => simpa using ih
        | _ => cases hx
      · rw [hother (some j) (fun heq => hij (Option.some.inj heq)), ← ih]
        generalize s.pc (some i) = q at hm hx
        generalize s'.pc (some i) = q' at hm
        generalize s'.shared = sh' at hm ⊢
        cases hm with
        | «return» _ =>
          obtain rfl := Option.some.inj hx
          have hne : j.val ≠ i.val := fun heq => hij (Fin.ext heq)
          simp only [Function.update_of_ne hne]
        | _ => rfl

def joined (workers : Nat) : Place P → Nat
  | .join k => k
  | .read | .ended => workers
  | _ => 0

omit [DecidableEq M] in
theorem moves_returned {sh sh' : Shared C} {p p' : Place P} {e : Effect M Empty}
    (h : Moves w workers sh p sh' p' e) {j : Nat} (hj : sh.returned j = true) : sh'.returned j = true := by
  cases h with
  | @«return» i _ _ =>
    by_cases hij : j = i <;> simp [hij, hj]
  | _ => exact hj

theorem passed (hs : Reachable (w.system workers c) s) {j : Nat} (hj : j < joined workers (s.pc none)) :
    s.shared.returned j = true := by
  induction hs generalizing j with
  | init h =>
    subst h
    cases hj
  | @step s s' a hs h ih =>
    obtain ⟨p, e, hm, hx, rfl, -⟩ | ⟨i, p, e, hm, -, -, hother⟩ := thread_step hs h
    · generalize s.pc none = q at hm hx ih
      generalize s'.pc none = q' at hm hj
      generalize s'.shared = sh' at hm ⊢
      cases hm with
      | create _ | allCreated _ => cases hj
      | join hk hr =>
        obtain hlt | rfl := Nat.lt_succ_iff_lt_or_eq.mp hj
        · exact ih hlt
        · exact hr
      | allJoined hk => exact ih (Nat.lt_of_lt_of_le hj hk)
      | read => exact ih hj
      | start _ | run _ | «return» _ => cases hx
    · rw [hother none (Option.some_ne_none i).symm] at hj
      exact moves_returned hm (ih hj)

theorem all_returned (hs : Reachable (w.system workers c) s)
    (hj : joined workers (s.pc none) = workers) (j : Fin workers) : s.pc (some j) = .returned j :=
  (marked hs j).mp (passed hs (by rw [hj]; exact j.isLt))

/-- The main thread reads the data after all workers, so it stays the data. -/
theorem result_eq (hs : Reachable (w.system workers c) s) :
    (s.pc none = .ended → s.shared.result = some s.shared.data) ∧
      ∀ x, s.shared.result = some x → s.pc none = .ended := by
  induction hs with
  | init h =>
    subst h
    exact ⟨nofun, nofun⟩
  | @step s s' a hs h ih =>
    obtain ⟨p, e, hm, hx, rfl, -⟩ | ⟨i, p, e, hm, hx, -, hother⟩ := thread_step hs h
    · generalize s.pc none = q at hm hx ih
      generalize s'.pc none = q' at hm ⊢
      generalize s'.shared = sh' at hm ⊢
      cases hm with
      | read => exact ⟨fun _ => rfl, fun _ _ => rfl⟩
      | create _ | allCreated _ | join _ _ | allJoined _ =>
        exact ⟨nofun, fun x hresult => absurd (ih.2 x hresult) nofun⟩
      | start _ | run _ | «return» _ => cases hx
    · rw [hother none (Option.some_ne_none i).symm]
      have hstays : s'.shared.result = s.shared.result ∧
          (s.pc none = .ended → s'.shared.data = s.shared.data) := by
        have hended := fun he : s.pc none = .ended => all_returned hs (by rw [he]; rfl) i
        generalize s.pc (some i) = q at hm hx hended
        generalize s'.shared = sh' at hm ⊢
        cases hm with
        | run _ => exact ⟨rfl, fun he => absurd (hended he) nofun⟩
        | start _ | «return» _ => exact ⟨rfl, fun _ => rfl⟩
        | _ => cases hx
      refine ⟨fun he => ?_, fun x hresult => ih.2 x (hstays.1 ▸ hresult)⟩
      rw [hstays.1, hstays.2 he]
      exact ih.1 he

def Live (w : Worker C P M) (workers : Nat) (c : C) : Prop :=
  ∀ s : ForkState C P M workers, Reachable (w.system workers c) s →
    (∃ j p, s.pc (some j) = .running j.val p) → ∃ a, Enabled (w.system workers c) s a

theorem enabled_of_place {t : Thread workers} {sh : Shared C} {p : Place P}
    (h : w.place workers s.shared (s.pc t) = some (sh, p, .none)) :
    ∃ a, Enabled (w.system workers c) s a := by
  have hnext : (w.program workers).next s.shared (s.pc t) () = some (sh, p, .none) := h
  obtain ⟨pick, he⟩ := exists_enabled hnext (fun _ hm => by cases hm)
  exact ⟨_, he⟩

theorem progress (hlive : Live w workers c) (hs : Reachable (w.system workers c) s)
    (hmain : s.pc none ≠ .ended) : ∃ a, Enabled (w.system workers c) s a := by
  have hx := worker_pc hs none
  have hcreated := created hs
  cases hp : s.pc none with
  | create k =>
    by_cases hk : k < workers
    · exact enabled_of_place (by rw [hp, Worker.place, if_pos hk])
    · exact enabled_of_place (by rw [hp, Worker.place, if_neg hk])
  | read => exact enabled_of_place (t := none) (by rw [hp, Worker.place])
  | join k =>
    by_cases hk : k < workers
    · have hxk := worker_pc hs (some ⟨k, hk⟩)
      rw [hp] at hcreated
      cases hw : s.pc (some ⟨k, hk⟩) with
      | created j =>
        rw [hw] at hxk
        obtain rfl := Option.some.inj hxk
        exact enabled_of_place (by rw [hw, Worker.place, if_pos (Nat.lt_of_lt_of_le hk hcreated)])
      | running j p =>
        rw [hw] at hxk
        obtain rfl := Option.some.inj hxk
        exact hlive s hs ⟨⟨_, hk⟩, p, hw⟩
      | returned j =>
        rw [hw] at hxk
        obtain rfl := Option.some.inj hxk
        have hreturned := (marked hs ⟨_, hk⟩).mpr hw
        exact enabled_of_place (by rw [hp, Worker.place, if_pos hk, if_pos hreturned])
      | create | join | read | ended =>
        rw [hw] at hxk
        cases hxk
    · exact enabled_of_place (by rw [hp, Worker.place, if_neg hk])
  | ended => exact absurd hp hmain
  | created | running | returned =>
    rw [hp] at hx
    cases hx

def placeCost (w : Worker C P M) (workers : Nat) (cost : P → Nat) : Place P → Nat
  | .create k => workers - k + workers + 3
  | .join k => workers - k + 2
  | .read => 1
  | .ended => 0
  | .created _ => cost w.start + 2
  | .running _ p => cost p + 1
  | .returned _ => 0

def bound (w : Worker C P M) (workers : Nat) (cost : P → Nat) : Nat :=
  workers * (cost w.start + 4) + 3

theorem step_cost {cost : P → Nat}
    (hcost : ∀ x p x' p' e, w.next x p = some (x', p', e) → cost p' < cost p)
    {a : Action (Thread workers) Unit} (h : (w.system workers c).step s a = some s') :
    total (placeCost w workers cost) s'.pc < total (placeCost w workers cost) s.pc := by
  obtain ⟨t, p, e, hm, -, -, hp⟩ := system_step h
  have htotal := total_update (placeCost w workers cost) s.pc t p
  rw [← hp] at htotal
  have hlt : placeCost w workers cost p < placeCost w workers cost (s.pc t) := by
    generalize s.pc t = q at hm
    generalize s'.shared = sh' at hm
    cases hm with
    | run hnext => exact Nat.succ_lt_succ (hcost _ _ _ _ _ hnext)
    | create _ | allCreated _ | join _ _ | allJoined _ | read | start _ | «return» _ =>
      simp only [placeCost]
      omega
  omega

theorem length_le_bound (cost : P → Nat)
    (hcost : ∀ x p x' p' e, w.next x p = some (x', p', e) → cost p' < cost p)
    {as : List (Action (Thread workers) Unit)}
    (he : exec (w.system workers c) (initial workers c) as = some s) :
    as.length ≤ bound w workers cost := by
  have hstep : ∀ u a v, True → (w.system workers c).step u a = some v →
      True ∧ total (placeCost w workers cost) v.pc < total (placeCost w workers cost) u.pc :=
    fun _ _ _ _ h => ⟨trivial, step_cost hcost h⟩
  have hlen := length_le_of_measure hstep trivial he
  have hinit : total (placeCost w workers cost) (initial (M := M) workers c).pc =
      bound w workers cost := by
    rw [total, Fintype.sum_option]
    simp only [initial, placeCost, bound, Finset.sum_const, Finset.card_univ, Fintype.card_fin,
      smul_eq_mul]
    ring_nf
    omega
  omega

theorem not_enabled_of_cost {cost : P → Nat}
    (hcost : ∀ x p x' p' e, w.next x p = some (x', p', e) → cost p' < cost p)
    (h : total (placeCost w workers cost) s.pc = 0) (a : Action (Thread workers) Unit) :
    ¬ Enabled (w.system workers c) s a := by
  intro ha
  obtain ⟨v, hv⟩ := Option.isSome_iff_exists.mp ha
  have hlt := step_cost hcost hv
  omega

theorem settled (hlive : Live w workers c) (hs : Reachable (w.system workers c) s)
    (hb : ∀ a, ¬ Enabled (w.system workers c) s a) :
    s.shared.result = some s.shared.data ∧ ∀ j, s.pc (some j) = .returned j.val := by
  have hmain : s.pc none = .ended := by
    by_contra hne
    obtain ⟨a, ha⟩ := progress hlive hs hne
    exact hb a ha
  exact ⟨(result_eq hs).1 hmain, all_returned hs (by rw [hmain]; rfl)⟩

theorem running_enabled {t : Thread workers} {j : Nat} {p : P} (hp : s.pc t = .running j p)
    (hl : ∀ x p' m, w.next s.shared.data p = some (x, p', .lock m) → s.owner m = none) :
    ∃ a, Enabled (w.system workers c) s a := by
  cases hn : w.next s.shared.data p with
  | none => exact enabled_of_place (by rw [hp, Worker.place, hn])
  | some r =>
    obtain ⟨x, p', e⟩ := r
    have hnext : (w.program workers).next s.shared (s.pc t) () =
        some ({ s.shared with data := x }, .running j p', e) := by
      change w.place workers s.shared (s.pc t) = _
      rw [hp, Worker.place, hn]
    obtain ⟨pick, he⟩ := exists_enabled hnext fun m hm => hl x p' m (by rw [hn, hm])
    exact ⟨_, he⟩

theorem running_ok {ok : P → Prop} (hstart : ok w.start)
    (hnext : ∀ x p x' p' e, ok p → w.next x p = some (x', p', e) → ok p')
    (hs : Reachable (w.system workers c) s) {t : Thread workers} {j : Nat} {p : P}
    (hp : s.pc t = .running j p) : ok p := by
  induction hs generalizing t j p with
  | init h =>
    subst h
    cases t <;> cases hp
  | @step s s' a _ h ih =>
    obtain ⟨u, q, e, hm, -, -, hpc⟩ := system_step h
    rw [hpc] at hp
    by_cases htu : t = u
    · subst htu
      rw [Function.update_self] at hp
      subst hp
      generalize hq : s.pc t = q at hm
      generalize s'.shared = sh' at hm
      cases hm with
      | start _ => exact hstart
      | run hn => exact hnext _ _ _ _ _ (ih hq) hn
    · rw [Function.update_of_ne htu] at hp
      exact ih hp

def contribution {A : Type} [Zero A] (added : P → A) (full : A) : Place P → A
  | .running _ p => added p
  | .returned _ => full
  | _ => 0

/-- The data is the sum of what the workers have added, as long as every step adds what it says. -/
theorem data_total {A : Type} [AddCommGroup A] {f : C → A} {added : P → A} {full : A} (h0 : f c = 0)
    (hstart : added w.start = 0)
    (hrun : ∀ s : ForkState C P M workers, Reachable (w.system workers c) s → ∀ t j p,
      s.pc t = .running j p →
        (∀ x p' e, w.next s.shared.data p = some (x, p', e) →
          f x + added p = f s.shared.data + added p') ∧
        (w.next s.shared.data p = none → added p = full))
    (hs : Reachable (w.system workers c) s) :
    f s.shared.data = total (contribution added full) s.pc := by
  induction hs with
  | init h =>
    subst h
    rw [total, Finset.sum_eq_zero]
    · exact h0
    · intro t _
      cases t <;> rfl
  | @step s s' a hs h ih =>
    refine step_total (c := fun sh => f sh.data) (fun p hp => absurd rfl hp) ?_ h ih
    intro t i p e hn
    have hm := place_moves hn
    have hrun := hrun s hs t
    generalize s.pc t = q at hm hrun
    generalize s'.shared = sh' at hm ⊢
    cases hm with
    | start _ => simp only [contribution, hstart]
    | run hnext => exact (hrun _ _ rfl).1 _ _ _ hnext
    | «return» hnext => simp only [contribution, (hrun _ _ rfl).2 hnext]
    | _ => rfl

theorem data_of_returned {A : Type} [AddCommGroup A] {f : C → A} {added : P → A} {full : A}
    (h : f s.shared.data = total (contribution added full) s.pc) (hs : Reachable (w.system workers c) s)
    (hr : ∀ j, s.pc (some j) = .returned j.val) : f s.shared.data = workers • full := by
  have hmain : contribution added full (s.pc none) = 0 := by
    have hx := worker_pc hs none
    cases hp : s.pc none <;> first | rfl | (rw [hp] at hx; cases hx)
  rw [h, total, Fintype.sum_option, hmain, zero_add]
  simp only [hr, contribution, Finset.sum_const, Finset.card_univ, Fintype.card_fin]

section Simulation

variable {D Q : Type} {v : Worker D Q Empty} {f : C → D} {g : P → Q}

def absPlace (g : P → Q) : Place P → Place Q
  | .create k => .create k
  | .join k => .join k
  | .read => .read
  | .ended => .ended
  | .created j => .created j
  | .running j p => .running j (g p)
  | .returned j => .returned j

def absShared (f : C → D) (sh : Shared C) : Shared D :=
  ⟨f sh.data, sh.created, sh.returned, sh.result.map f⟩

def absState (f : C → D) (g : P → Q) (s : ForkState C P M workers) : ForkState D Q Empty workers :=
  ⟨absShared f s.shared, fun _ => none, fun t => absPlace g (s.pc t)⟩

omit [DecidableEq M] in
theorem abs_pc {t : Thread workers} {p : Place P} (hp : s'.pc = Function.update s.pc t p) :
    (absState f g s').pc = Function.update (absState f g s).pc t (absPlace g p) := by
  funext u
  change absPlace g (s'.pc u) = _
  rw [hp]
  exact Function.apply_update (fun _ => absPlace g) s.pc t p u

omit [DecidableEq M] in
theorem abs_eq {t : Thread workers} {p : Place P} (hp : s'.pc = Function.update s.pc t p)
    (hshared : absShared f s'.shared = absShared f s.shared)
    (hplace : absPlace g p = absPlace g (s.pc t)) :
    absState f g s' = absState f g s := by
  have hpc : (absState f g s').pc = (absState f g s).pc := by
    rw [abs_pc hp, hplace]
    exact Function.update_eq_self t _
  simp only [absState, hshared, State.mk.injEq, true_and]
  exact hpc

omit [DecidableEq M] in
theorem abs_step {t : Thread workers} {p : Place P} (hp : s'.pc = Function.update s.pc t p)
    (h : v.place workers (absShared f s.shared) (absPlace g (s.pc t)) =
      some (absShared f s'.shared, absPlace g p, .none)) :
    (v.system workers (f c)).step (absState f g s) (.run t () none) = some (absState f g s') := by
  have hnext : (v.program workers).next (absState f g s).shared ((absState f g s).pc t) () =
      some (absShared f s'.shared, absPlace g p, .none) := h
  have hpc : (absState f g s').pc = _ := abs_pc hp
  simp only [Worker.system, Program.system, Program.step, hnext, Option.bind_eq_bind, Option.bind_some,
    Effect.enabled, if_true, Program.deliver, Effect.owner, Option.some.injEq]
  rw [← hpc]
  rfl

def Simulates (w : Worker C P M) (v : Worker D Q Empty) (f : C → D) (g : P → Q) (x : C) (p : P) : Prop :=
  (∀ y p' e, w.next x p = some (y, p', e) →
    (f y = f x ∧ g p' = g p) ∨ v.next (f x) (g p) = some (f y, g p', .none)) ∧
  (w.next x p = none → v.next (f x) (g p) = none)

omit [DecidableEq M] in
theorem moves_abs {sh sh' : Shared C} {p p' : Place P} {e : Effect M Empty}
    (h : Moves w workers sh p sh' p' e) (hstart : g w.start = v.start)
    (hrun : ∀ j q, p = .running j q → Simulates w v f g sh.data q) :
    (absShared f sh' = absShared f sh ∧ absPlace g p' = absPlace g p) ∨
      v.place workers (absShared f sh) (absPlace g p) = some (absShared f sh', absPlace g p', .none) := by
  cases h with
  | create hk => exact .inr (if_pos hk)
  | allCreated hk => exact .inr (if_neg (Nat.not_lt.mpr hk))
  | join hk hr => exact .inr ((if_pos hk).trans (if_pos hr))
  | allJoined hk => exact .inr (if_neg (Nat.not_lt.mpr hk))
  | read => exact .inr rfl
  | start hj =>
    refine .inr ((if_pos hj).trans ?_)
    rw [absPlace, hstart]
  | @run j q q' y e hnext =>
    obtain ⟨hdata, hplace⟩ | hv := (hrun j q rfl).1 y q' e hnext
    · exact .inl ⟨by simp only [absShared, hdata], by simp only [absPlace, hplace]⟩
    · refine .inr ?_
      simp only [absPlace, Worker.place, absShared, hv]
  | @«return» j q hnext =>
    have hv := (hrun j q rfl).2 hnext
    refine .inr ?_
    simp only [absPlace, Worker.place, absShared, hv]

/-- Workers refine others without mutexes whose steps their own are, or that stay where they are. -/
theorem refines_of_worker (hstart : g w.start = v.start)
    (hrun : ∀ s : ForkState C P M workers, Reachable (w.system workers c) s → ∀ t j p,
      s.pc t = .running j p → Simulates w v f g s.shared.data p) :
    Refines (w.system workers c) (v.system workers (f c)) (absState f g) := by
  refine ⟨?_, fun s a s' hs h => ?_⟩
  · rintro s rfl
    have hpc : ∀ t, absPlace g ((initial (M := M) workers c).pc t) =
        (initial (M := Empty) workers (f c)).pc t := by
      intro t
      cases t <;> rfl
    exact congrArg (State.mk _ _) (funext hpc)
  · obtain ⟨t, p, e, hm, -, -, hp⟩ := system_step h
    obtain ⟨hshared, hplace⟩ | hv := moves_abs hm hstart (hrun s hs t)
    · exact .inl (abs_eq hp hshared hplace)
    · exact .inr ⟨_, abs_step hp hv⟩

end Simulation

end RoblSampleCodes.ForkJoin
