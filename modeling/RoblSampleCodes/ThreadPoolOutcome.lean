import RoblSampleCodes.ThreadPoolShutdown

namespace RoblSampleCodes.ThreadPoolOutcome

open TransitionSystem ThreadCount ThreadProgram ThreadPool ThreadPoolInvariant ThreadPoolOrder
open ThreadPoolWork ThreadPoolShutdown

variable {J Q : Type} {n : Nat}

theorem perm_of_filter {A : Type} {l l' : List (Nat × A)}
    (h : ∀ k, (l.filter (fun x => x.1 == k)).map Prod.snd = (l'.filter (fun x => x.1 == k)).map Prod.snd) :
    l.Perm l' := by
  classical
  have hfilter : ∀ (l : List (Nat × A)) k, l.filter (fun x => x.1 == k) =
      ((l.filter (fun x => x.1 == k)).map Prod.snd).map (fun a => (k, a)) := by
    intro l k
    rw [List.map_map]
    conv_lhs => rw [← List.map_id (l.filter _)]
    apply List.map_congr_left
    intro x hx
    obtain rfl : x.1 = k := by simpa using (List.mem_filter.mp hx).2
    rfl
  rw [List.perm_iff_count]
  intro x
  have hcount : ∀ l : List (Nat × A), l.count x = (l.filter (fun y => y.1 == x.1)).count x :=
    fun l => (List.count_filter (by simp)).symm
  rw [hcount l, hcount l', hfilter l, hfilter l', h]

def postWork : PostPc J → Nat
  | .outside => 0
  | .unlock => 1
  | .notify => 5
  | .emplace _ => 16

def runWork : RunPc J → Nat
  | .exited | .undefined | .terminated => 0
  | .leave => 1
  | .breakUnlock | .pop => 2
  | .asleep | .swap => 3
  | .sleep | .check => 4
  | .test => 5
  | .acquire | .awake => 6
  | .loop => 7
  | .created => 8
  | .running p => 8 + postWork p
  | .invoke => 9
  | .unlock => 10

def ownerWork (n : Nat) : OwnerPc → Nat
  | .construct k => n + 1 - k
  | _ => 0

def threadWork (n : Nat) : Pc J → Nat
  | .worker _ _ p => runWork p
  | .poster p => postWork p
  | .owner p => ownerWork n p

/-- The steps that are left while the pool is active and nobody posts, ten for a pending job. -/
def work (s : PoolState J n Q) [Fintype Q] : Nat :=
  10 * s.shared.pendingJobs.length + total (threadWork n) s.pc

/-- The steps that a call of `post` and a spurious wake-up are good for. -/
def gain : Action (Thread n Q) (Call J) → Nat
  | .run _ (.post _) _ => 17
  | .run _ .finish _ => 0
  | .spurious _ => 4

def callGain : Call J → Nat
  | .post _ => 17
  | .finish => 0

/-- While the pool is active, a step leaves less to do. -/
theorem next_work {m m' : Members J} {p p' : Pc J} {c : Call J} {e : Effect Unit Unit}
    (hn : next n m p c = some (m', p', e)) (h : Moves n m p m' p' e) (ha : m'.isActive = true)
    (hpop : holdsGuard p = true → Known m p) (howner : OwnerKnown n m (ownerPlace p)) :
    e ≠ .notifyAll () ∧ 10 * m'.pendingJobs.length + threadWork n p' + 3 * signal e + 1 ≤
      10 * m.pendingJobs.length + threadWork n p + callGain c := by
  cases h with
  | stop => cases ha
  | inactive h | breaks h =>
    rw [h] at ha
    cases ha
  | notifyAll | joined | returns =>
    rw [howner.1] at ha
    cases ha
  | launch hk =>
    simp only [threadWork, ownerWork, signal]
    exact ⟨by simp, by omega⟩
  | constructed hk =>
    have hle := howner.2
    simp only [threadWork, ownerWork, signal]
    exact ⟨by simp, by omega⟩
  | pop =>
    have hpos := List.length_pos_iff.mpr (hpop rfl)
    simp only [threadWork, runWork, signal, List.length_tail]
    exact ⟨by simp, by omega⟩
  | swap h =>
    simp only [threadWork, runWork, signal, h, List.length_cons]
    exact ⟨by simp, by omega⟩
  | jobPosts h | posts h =>
    cases h with
    | acquire =>
      cases c with
      | finish => cases hn
      | post job =>
        simp only [threadWork, runWork, postWork, signal, callGain]
        exact ⟨by simp, by omega⟩
    | emplace =>
      simp only [threadWork, runWork, postWork, signal, List.length_append, List.length_singleton]
      exact ⟨by simp, by omega⟩
    | notify | unlock =>
      simp only [threadWork, runWork, postWork, signal]
      exact ⟨by simp, by omega⟩
  | _ =>
    simp only [threadWork, runWork, postWork, signal]
    exact ⟨by simp, by omega⟩

def leaving : Pc J → Bool
  | .worker _ _ .breakUnlock | .worker _ _ .leave | .worker _ _ .exited => true
  | _ => false

theorem moves_leaving {m m' : Members J} {p p' : Pc J} {e : Effect Unit Unit} (h : Moves n m p m' p' e)
    (hp : leaving p = true → m.isActive = false) (hp' : leaving p' = true) : m'.isActive = false := by
  cases h with
  | inactive h | breaks h => exact h
  | breakUnlock | leave => exact hp rfl
  | _ => cases hp'

theorem moves_stops {m m' : Members J} {p p' : Pc J} {e : Effect Unit Unit} (h : Moves n m p m' p' e)
    (ha : m.isActive = true) (ha' : m'.isActive = false) : p = .owner .alive := by
  cases h with
  | stop => rfl
  | jobPosts h | posts h =>
    cases h <;>
    · rw [show m.isActive = false from ha'] at ha
      cases ha
  | _ =>
    rw [show m.isActive = false from ha'] at ha
    cases ha

variable [DecidableEq Q] [Fintype Q] {s s' : PoolState J n Q}

theorem wake_work {pc : Thread n Q → Pc J} {u : Thread n Q} (h : (program J n).asleep (pc u) ≠ none) :
    total (threadWork n) (Function.update pc u ((program J n).wake (pc u))) =
      total (threadWork n) pc + 3 := by
  obtain ⟨k, job, hp, hw⟩ := asleep_cases h
  have hupdate := total_update (threadWork n) pc u ((program J n).wake (pc u))
  rw [hw, hp] at hupdate
  rw [hw]
  simp only [threadWork, runWork] at hupdate
  omega

theorem delivered_work {pc pc' : Thread n Q → Pc J} {e : Effect Unit Unit}
    (hd : Delivered (program J n) pc e pc') (he : e ≠ .notifyAll ()) :
    total (threadWork n) pc' ≤ total (threadWork n) pc + 3 * signal e := by
  cases hd with
  | notified hu => exact (wake_work (by rw [hu]; simp)).le
  | notifiedAll => exact absurd rfl he
  | _ => exact Nat.le_add_right _ _

theorem step_work (hs : Reachable (system J n Q) s) {a : Action (Thread n Q) (Call J)}
    (h : (system J n Q).step s a = some s') (ha : s'.shared.isActive = true) :
    s.shared.isActive = true ∧ work s' + 1 ≤ work s + gain a := by
  obtain ⟨t, c, pick, p, e, rfl, hn, -, -, hd⟩ | ⟨u, rfl, hsl, hsh, -, hp⟩ := step_cases h
  · have hm := next_moves hn
    have hactive : s.shared.isActive = true := by
      by_contra hoff
      rw [moves_inactive hm (Bool.eq_false_of_not_eq_true hoff)] at ha
      cases ha
    have howner : OwnerKnown n s.shared (ownerPlace (s.pc t)) := by
      by_cases ht : t = .owner
      · subst ht
        exact ownerKnown hs
      · rw [ownerPlace_owner hs ht]
        trivial
    obtain ⟨he, hle⟩ := next_work hn hm ha (known hs t) howner
    have hwork := delivered_work hd he
    have hupdate := total_update (threadWork n) s.pc t p
    have hgain : gain (.run t c pick) = callGain c := by cases c <;> rfl
    refine ⟨hactive, ?_⟩
    rw [work, work, hgain]
    omega
  · refine ⟨hsh ▸ ha, ?_⟩
    have hwork := wake_work hsl
    rw [← hp] at hwork
    simp only [work, hsh, hwork, gain]
    omega

theorem length_le_work (hs : Reachable (system J n Q) s) {as : List (Action (Thread n Q) (Call J))}
    (he : exec (system J n Q) s as = some s') (ha : s'.shared.isActive = true) :
    as.length + work s' ≤ work s + (as.map gain).sum :=
  (length_le_of_gain (G := fun u : PoolState J n Q => u.shared.isActive = true)
    (fun _ _ _ hu hv => hu.step hv) (fun _ _ _ hu hv hG => step_work hu hv hG) hs he ha).2

theorem leaving_inactive (hs : Reachable (system J n Q) s) (t : Thread n Q)
    (ht : leaving (s.pc t) = true) : s.shared.isActive = false := by
  induction hs generalizing t with
  | init h =>
    subst h
    cases t <;> cases ht
  | @step s s' a hr h ih =>
    obtain ⟨u, p, e, hm, -, hself, hother⟩ | ⟨hsh, hall⟩ := system_step leaving (fun _ _ => rfl) h
    · by_cases htu : t = u
      · subst htu
        exact moves_leaving hm (ih t) (hself.symm.trans ht)
      · exact moves_inactive hm (ih t ((hother t htu).symm.trans ht))
    · rw [hsh]
      exact ih t ((hall t).symm.trans ht)

/-- The pool is active, and without a call of `post` only the destructor can go on. -/
def Quiet (s : PoolState J n Q) : Prop :=
  s.shared.isActive = true ∧ ∀ t pick s', (system J n Q).step s (.run t .finish pick) = some s' →
    s'.shared.isActive = false

theorem Quiet.next (hq : Quiet s) {t : Thread n Q} {m : Members J} {p : Pc J} {e : Effect Unit Unit}
    (hn : (program J n).next s.shared (s.pc t) .finish = some (m, p, e)) :
    s.pc t = .owner .alive ∨ e = .lock () ∧ s.owner () ≠ none := by
  by_contra hno
  rw [not_or, not_and_or, not_not] at hno
  obtain ⟨halive, hfree⟩ := hno
  obtain ⟨pick, h⟩ : ∃ pick, Enabled (system J n Q) s (.run t .finish pick) :=
    exists_enabled hn (fun g hg => hfree.resolve_left (fun hne => hne hg))
  obtain ⟨s', hs'⟩ := Option.isSome_iff_exists.mp h
  have hstep : (program J n).step s (.run t .finish pick) = some s' := hs'
  obtain ⟨u, c, pick', p', e', ha, hn', -, -, -⟩ | ⟨u, ha, -⟩ := step_cases hstep
  · cases ha
    exact halive (moves_stops (next_moves hn') hq.1 (hq.2 t pick s' hs'))
  · cases ha

theorem Quiet.rests (hq : Quiet s) (hfree : s.owner () = none) (t : Thread n Q) :
    s.pc t = .owner .alive ∨ Rests n s.shared (s.pc t) := by
  cases hn : (program J n).next s.shared (s.pc t) .finish with
  | none => exact .inr (next_none hn)
  | some x => exact .inl ((hq.next hn).resolve_right (fun h => h.2 hfree))

section Quiet

variable (hs : Reachable (system J n Q) s) (hq : Quiet s)

include hs hq

theorem Quiet.free : s.owner () = none := by
  by_contra hg
  obtain ⟨t, ht⟩ := Option.ne_none_iff_exists'.mp hg
  have hh := (owned hs () t).mp ht
  have hno : holdsGuard (s.pc t) = false := by
    cases hn : (program J n).next s.shared (s.pc t) .finish with
    | none => exact rests_unlocked (next_none hn) (not_terminated hs t)
    | some x =>
      obtain ⟨m', p, e⟩ := x
      obtain halive | ⟨rfl, -⟩ := hq.next hn
      · rw [halive]
        rfl
      · exact moves_lock (next_moves hn)
  exact Bool.false_ne_true (hno.symm.trans hh)

theorem Quiet.alive : s.pc .owner = .owner .alive := by
  obtain h | h := hq.rests (hq.free hs) .owner
  · exact h
  · have hplace := placed hs .owner
    have hok := not_terminated hs .owner
    have hknown := ownerKnown hs
    generalize s.pc .owner = p at hplace hok hknown h
    cases h with
    | joins | returned =>
      have hoff := hknown.1
      rw [hq.1] at hoff
      cases hoff
    | terminated h =>
      rw [hok] at h
      cases h
    | outside | created | asleep | exited => cases hplace

theorem Quiet.sleeps (i : Fin n) : ∃ job, s.pc (.worker i) = .worker i job .asleep := by
  have hplace := placed hs (.worker i)
  have hok := not_terminated hs (.worker i)
  have hleft := leaving_inactive hs (.worker i)
  have hlaunched : s.shared.launched = n := by
    have hknown := ownerKnown hs
    rw [hq.alive hs] at hknown
    exact hknown
  have h := hq.rests (hq.free hs) (.worker i)
  generalize s.pc (.worker i) = p at hplace hok hleft h
  obtain rfl | h := h
  · cases hplace
  · cases h with
    | asleep => exact ⟨_, congrArg (Pc.worker · _ _) hplace⟩
    | created hk =>
      have hlt := i.isLt
      rw [hplace] at hk
      omega
    | exited =>
      have hoff := hleft rfl
      rw [hq.1] at hoff
      cases hoff
    | terminated h =>
      rw [hok] at h
      cases h
    | outside | joins | returned => cases hplace

theorem Quiet.outside (q : Q) : s.pc (.poster q) = .poster .outside := by
  have hplace := placed hs (.poster q)
  have hok := not_terminated hs (.poster q)
  have h := hq.rests (hq.free hs) (.poster q)
  generalize s.pc (.poster q) = p at hplace hok h
  obtain rfl | h := h
  · cases hplace
  · cases h with
    | outside => rfl
    | terminated h =>
      rw [hok] at h
      cases h
    | created | asleep | exited | joins | returned => cases hplace

end Quiet

section Outcome

variable (hs : Reachable (system J n Q) s) (hq : Quiet s)

include hs hq

theorem Quiet.count_eq_zero {f : Pc J → Bool} (hworker : ∀ k job, f (.worker k job .asleep) = false)
    (hposter : f (.poster .outside) = false) (howner : f (.owner .alive) = false) : count f s.pc = 0 := by
  apply ThreadCount.count_eq_zero.mpr
  intro t
  cases t with
  | worker i =>
    obtain ⟨job, hpc⟩ := hq.sleeps hs i
    rw [hpc, hworker]
  | poster q => rw [hq.outside hs q, hposter]
  | owner => rw [hq.alive hs, howner]

theorem Quiet.drained (hn : 0 < n) : s.shared.pendingJobs = [] := by
  obtain ⟨job, hpc⟩ := hq.sleeps hs ⟨0, hn⟩
  have hasleep : (program J n).asleep (s.pc (.worker ⟨0, hn⟩)) = some () := by
    rw [hpc]
    rfl
  have hle := covered hs hq.1 hasleep
  have hidle : count idle s.pc = 0 := hq.count_eq_zero hs (fun _ _ => rfl) rfl rfl
  have hnotifying : count notifying s.pc = 0 := hq.count_eq_zero hs (fun _ _ => rfl) rfl rfl
  rw [hidle, hnotifying] at hle
  exact List.length_eq_zero_iff.mp (Nat.le_zero.mp hle)

theorem Quiet.dequeued (hn : 0 < n) : s.shared.posted.map .fresh = s.shared.dequeued.map Prod.snd := by
  have hpopping : ∀ t, popping (s.pc t) = none := by
    intro t
    cases t with
    | worker i =>
      obtain ⟨job, hpc⟩ := hq.sleeps hs i
      rw [hpc]
      rfl
    | poster q =>
      rw [hq.outside hs q]
      rfl
    | owner =>
      rw [hq.alive hs]
      rfl
  have hqueued := (queued hs).1 hpopping
  rw [hq.drained hs hn, Queued, List.append_nil] at hqueued
  exact hqueued

theorem Quiet.dequeuedBy_eq (k : Nat) :
    dequeuedBy s.shared k = (invokedBy s.shared k).map .fresh := by
  by_cases hk : k < n
  · obtain ⟨job, hpc⟩ := hq.sleeps hs ⟨k, hk⟩
    have hhistory := history hs ⟨k, hk⟩
    rw [hpc] at hhistory
    exact hhistory.trans (List.append_nil _)
  · obtain ⟨hdequeued, hinvoked⟩ := history_workers hs
    have hnone : s.shared.dequeued.filter (fun x => x.1 == k) = [] := by
      rw [List.filter_eq_nil_iff]
      intro x hx he
      obtain rfl : x.1 = k := by simpa using he
      exact hk (hdequeued x hx)
    have hnone' : s.shared.invoked.filter (fun x => x.1 == k) = [] := by
      rw [List.filter_eq_nil_iff]
      intro x hx he
      obtain rfl : x.1 = k := by simpa using he
      exact hk (hdequeued _ (hinvoked x hx))
    rw [dequeuedBy, invokedBy, hnone, hnone']
    rfl

theorem Quiet.invoked_perm (hn : 0 < n) : (s.shared.invoked.map Prod.snd).Perm s.shared.posted := by
  have hinjective : Function.Injective (PackagedTask.fresh : J → PackagedTask J) := by
    intro x y h
    cases h
    rfl
  have hperm : (s.shared.invoked.map (Prod.map id PackagedTask.fresh)).Perm s.shared.dequeued := by
    apply perm_of_filter
    intro k
    have hk := hq.dequeuedBy_eq hs k
    rw [dequeuedBy, invokedBy, List.map_map] at hk
    rw [hk, List.filter_map, List.map_map]
    rfl
  have hsnd := hperm.map Prod.snd
  rw [← hq.dequeued hs hn, List.map_map] at hsnd
  rw [← List.map_perm_map_iff hinjective, List.map_map]
  exact hsnd

end Outcome

/-- While the pool is active its runs are bounded by the calls of `post`, and when only the
destructor can go on, every posted job was executed once and all workers sleep. -/
theorem run_executesAll (hn : 0 < n) (hs : Reachable (system J n Q) s) :
    (∀ as t, exec (system J n Q) s as = some t → t.shared.isActive = true →
      as.length + work t ≤ work s + (as.map gain).sum) ∧
    (Quiet s → (s.shared.invoked.map Prod.snd).Perm s.shared.posted ∧
      ∀ i : Fin n, ∃ job, s.pc (.worker i) = .worker i job .asleep) :=
  ⟨fun _ _ he ha => length_le_work hs he ha, fun hq => ⟨hq.invoked_perm hs hn, hq.sleeps hs⟩⟩

def jobRun (t : Thread 1 Unit) : List (Action (Thread 1 Unit) (Call Nat)) :=
  [List.replicate 2 (.run .owner .finish none), List.replicate 5 (.run t .finish none),
    List.replicate 2 (.run (.poster ()) (.post 7) none),
    [.run (.poster ()) .finish (some t), .run (.poster ()) .finish none],
    List.replicate 12 (.run t .finish none)].flatten

theorem run_executesAll_oneJob :
    ∃ s, Reachable (system Nat 1 Unit) s ∧ s.shared.posted = [7] ∧
      (s.shared.invoked.map Prod.snd).Perm s.shared.posted ∧
      ∀ i : Fin 1, ∃ job, s.pc (.worker i) = .worker i job .asleep := by
  obtain ⟨s, hs, hactive, hposted, hworker, hposter, howner⟩ : ∃ s, Reachable (system Nat 1 Unit) s ∧
      s.shared.isActive = true ∧ s.shared.posted = [7] ∧
      s.pc (.worker 0) = .worker 0 (.spent 7) .asleep ∧ s.pc (.poster ()) = .poster .outside ∧
      s.pc .owner = .owner .alive :=
    exists_reachable rfl (jobRun (.worker 0)) (by decide +kernel)
  have hquiet : Quiet s := by
    refine ⟨hactive, fun t pick s' h => ?_⟩
    cases t with
    | worker i =>
      obtain rfl := Subsingleton.elim i 0
      simp [system, Program.system, Program.step, program, next, run, hworker] at h
    | poster q => simp [system, Program.system, Program.step, program, next, post, hposter] at h
    | owner =>
      simp [system, Program.system, Program.step, program, next, owner, howner, Effect.enabled,
        Program.deliver] at h
      rw [← h]
  exact ⟨s, hs, hposted, (run_executesAll Nat.one_pos hs).2 hquiet⟩

end RoblSampleCodes.ThreadPoolOutcome
