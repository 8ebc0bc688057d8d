import RoblSampleCodes.ThreadPoolInvariant

namespace RoblSampleCodes.ThreadPoolOrder

open TransitionSystem ThreadProgram ThreadPool ThreadPoolInvariant

variable {J Q : Type} {n : Nat}

def dequeuedBy (m : Members J) (k : Nat) : List (PackagedTask J) :=
  (m.dequeued.filter (fun x => x.1 == k)).map Prod.snd

def invokedBy (m : Members J) (k : Nat) : List J := (m.invoked.filter (fun x => x.1 == k)).map Prod.snd

def inHand : Pc J → List (PackagedTask J)
  | .worker _ job .unlock | .worker _ job .invoke | .worker _ job .terminated => [job]
  | _ => []

inductive HistoryStep (m m' : Members J) (p p' : Pc J) : Prop
  | same (hdeq : m'.dequeued = m.dequeued) (hinv : m'.invoked = m.invoked) (hand : inHand p' = inHand p)
  | pop {k : Nat} {job : PackagedTask J} (hp : p = .worker k job .pop) (hp' : p' = .worker k job .unlock)
      (hdeq : m'.dequeued = m.dequeued ++ [(k, job)]) (hinv : m'.invoked = m.invoked)
  | invoke {k : Nat} {j : J} (hp : p = .worker k (.fresh j) .invoke)
      (hp' : p' = .worker k (.spent j) (.running .outside)) (hdeq : m'.dequeued = m.dequeued)
      (hinv : m'.invoked = m.invoked ++ [(k, j)])

theorem moves_history {m m' : Members J} {p p' : Pc J} {e : Effect Unit Unit} (h : Moves n m p m' p' e) :
    HistoryStep m m' p p' := by
  cases h with
  | pop => exact .pop rfl rfl rfl rfl
  | invoke => exact .invoke rfl rfl rfl rfl
  | jobPosts h | posts h => cases h <;> exact .same rfl rfl rfl
  | _ => exact .same rfl rfl rfl

theorem dequeuedBy_append {m m' : Members J} {k : Nat} {job : PackagedTask J}
    (h : m'.dequeued = m.dequeued ++ [(k, job)]) (i : Nat) :
    dequeuedBy m' i = dequeuedBy m i ++ if k = i then [job] else [] := by
  simp only [dequeuedBy, h, List.filter_append, List.map_append]
  by_cases hk : k = i <;> simp [hk]

theorem invokedBy_append {m m' : Members J} {k : Nat} {j : J} (h : m'.invoked = m.invoked ++ [(k, j)])
    (i : Nat) : invokedBy m' i = invokedBy m i ++ if k = i then [j] else [] := by
  simp only [invokedBy, h, List.filter_append, List.map_append]
  by_cases hk : k = i <;> simp [hk]

variable [DecidableEq Q] [Fintype Q] {s s' : PoolState J n Q}

/-- A worker has invoked what it dequeued, in the same order, except for the
task in its hand. -/
theorem history (hs : Reachable (system J n Q) s) (i : Fin n) :
    dequeuedBy s.shared i = (invokedBy s.shared i).map .fresh ++ inHand (s.pc (.worker i)) := by
  induction hs with
  | init h =>
    subst h
    rfl
  | @step s s' a hr h ih =>
    obtain ⟨t, p, e, hm, -, hself, hother⟩ | ⟨hsh, hall⟩ := system_step inHand (fun _ _ => rfl) h
    · have hkeep : t ≠ .worker i → inHand (s'.pc (.worker i)) = inHand (s.pc (.worker i)) := fun ht =>
        hother _ ht.symm
      cases moves_history hm with
      | same hdeq hinv hand =>
        have hi : inHand (s'.pc (.worker i)) = inHand (s.pc (.worker i)) := by
          by_cases ht : t = .worker i
          · rw [← ht, hself, hand]
          · exact hkeep ht
        simpa only [dequeuedBy, invokedBy, hdeq, hinv, hi] using ih
      | @pop k job hp hp' hdeq hinv =>
        obtain ⟨i', rfl, rfl⟩ := worker_place hr hp
        have hinv : invokedBy s'.shared i = invokedBy s.shared i := by simp only [invokedBy, hinv]
        rw [dequeuedBy_append hdeq, hinv, ih]
        by_cases hi : i' = i
        · subst hi
          rw [hself, hp, hp']
          simp [inHand]
        · have hne : i'.val ≠ i.val := fun he => hi (Fin.ext he)
          rw [hkeep (fun ht => hi (by simpa using ht)), if_neg hne, List.append_nil]
      | @invoke k j hp hp' hdeq hinv =>
        obtain ⟨i', rfl, rfl⟩ := worker_place hr hp
        have hdeq : dequeuedBy s'.shared i = dequeuedBy s.shared i := by simp only [dequeuedBy, hdeq]
        rw [invokedBy_append hinv, hdeq, ih]
        by_cases hi : i' = i
        · subst hi
          rw [hself, hp, hp']
          simp [inHand]
        · have hne : i'.val ≠ i.val := fun he => hi (Fin.ext he)
          rw [hkeep (fun ht => hi (by simpa using ht)), if_neg hne, List.append_nil]
    · rw [hsh, hall]
      exact ih

theorem dequeued_fifo (hs : Reachable (system J n Q) s) :
    s.shared.dequeued.map Prod.snd <+: s.shared.posted.map .fresh := by
  obtain ⟨hfree, hpop⟩ := queued hs
  by_cases h : ∀ t, popping (s.pc t) = none
  · exact ⟨_, (hfree h).symm⟩
  · obtain ⟨t, ht⟩ := not_forall.mp h
    obtain ⟨job, ht⟩ := Option.ne_none_iff_exists'.mp ht
    exact ⟨_, (hpop t job ht).symm⟩

theorem inHand_dequeued (hs : Reachable (system J n Q) s) {i : Fin n} {job : PackagedTask J}
    (h : job ∈ inHand (s.pc (.worker i))) : (i.val, job) ∈ s.shared.dequeued := by
  have hd : job ∈ dequeuedBy s.shared i := by
    rw [history hs i]
    exact List.mem_append_right _ h
  obtain ⟨⟨k, x⟩, hx, rfl⟩ := List.mem_map.mp hd
  obtain ⟨hx, hk⟩ := List.mem_filter.mp hx
  obtain rfl : k = i := by simpa using hk
  exact hx

theorem dequeued_fresh (hs : Reachable (system J n Q) s) {x : Nat × PackagedTask J}
    (hx : x ∈ s.shared.dequeued) : ∃ j ∈ s.shared.posted, x.2 = .fresh j := by
  have hp := (dequeued_fifo hs).subset (List.mem_map_of_mem hx)
  obtain ⟨j, hj, he⟩ := List.mem_map.mp hp
  exact ⟨j, hj, he.symm⟩

theorem inHand_fresh (hs : Reachable (system J n Q) s) (t : Thread n Q) :
    ∀ job ∈ inHand (s.pc t), ∃ j, job = .fresh j := by
  intro job h
  have hp := placed hs t
  cases t with
  | worker i =>
    obtain ⟨j, -, hj⟩ := dequeued_fresh hs (inHand_dequeued hs h)
    exact ⟨j, hj⟩
  | poster q =>
    cases hpc : s.pc (.poster q) <;> rw [hpc] at h hp <;> first | cases h | cases hp
  | owner =>
    cases hpc : s.pc (.owner : Thread n Q) <;> rw [hpc] at h hp <;> first | cases h | cases hp

def isTerminated : Pc J → Bool
  | .worker _ _ .undefined | .worker _ _ .terminated => true
  | _ => false

theorem not_terminated (hs : Reachable (system J n Q) s) (t : Thread n Q) :
    isTerminated (s.pc t) = false := by
  induction hs with
  | init h =>
    subst h
    cases t <;> rfl
  | @step s s' a hr h ih =>
    obtain ⟨u, p, e, hm, -, hself, hother⟩ | ⟨-, hall⟩ := system_step isTerminated (fun _ _ => rfl) h
    · by_cases htu : t = u
      · subst htu
        rw [hself]
        have hk := known hr t
        have hfresh := inHand_fresh hr t
        generalize s.pc t = q at hm hk ih hfresh
        generalize s'.shared = m' at hm
        cases hm with
        | swapEmpty h => exact absurd h (hk rfl)
        | throws h =>
          obtain ⟨j, hj⟩ := hfresh _ List.mem_cons_self
          exact absurd hj (h j)
        | _ => rfl
      · rw [hother t htu, ih]
    · rw [hall, ih]

theorem history_workers (hs : Reachable (system J n Q) s) :
    (∀ x ∈ s.shared.dequeued, x.1 < n) ∧
      ∀ x ∈ s.shared.invoked, (x.1, .fresh x.2) ∈ s.shared.dequeued := by
  induction hs with
  | init h =>
    subst h
    exact ⟨nofun, nofun⟩
  | @step s s' a hr h ih =>
    obtain ⟨hd, hi⟩ := ih
    obtain ⟨t, p, e, hm, -, -, -⟩ | ⟨hsh, -⟩ := system_step inHand (fun _ _ => rfl) h
    · cases moves_history hm with
      | same hdeq hinv => simpa only [hdeq, hinv] using And.intro hd hi
      | @pop k job hp hp' hdeq hinv =>
        obtain ⟨i, -, rfl⟩ := worker_place hr hp
        refine ⟨fun x hx => ?_, fun x hx => ?_⟩
        · rw [hdeq, List.mem_append, List.mem_singleton] at hx
          obtain hx | rfl := hx
          · exact hd x hx
          · exact i.isLt
        · rw [hdeq]
          exact List.mem_append_left _ (hi x (hinv ▸ hx))
      | @invoke k j hp hp' hdeq hinv =>
        obtain ⟨i, rfl, rfl⟩ := worker_place hr hp
        refine ⟨hdeq ▸ hd, fun x hx => ?_⟩
        rw [hinv, List.mem_append, List.mem_singleton] at hx
        rw [hdeq]
        obtain hx | rfl := hx
        · exact hi x hx
        · apply inHand_dequeued hr
          rw [hp]
          exact List.mem_cons_self
    · simpa only [hsh] using And.intro hd hi

def isExited : Pc J → Bool
  | .worker _ _ .exited => true
  | _ => false

def joined (n : Nat) : Pc J → Nat
  | .owner (.join k) => k
  | .owner .returned => n
  | _ => 0

theorem moves_exited {m m' : Members J} {p p' : Pc J} {e : Effect Unit Unit} (h : Moves n m p m' p' e) :
    isExited p = false ∧ (m'.exited = m.exited ∨
      ∃ k job, p = .worker k job .leave ∧ m'.exited = Function.update m.exited k true ∧
        isExited p' = true) := by
  cases h with
  | leave => exact ⟨rfl, .inr ⟨_, _, rfl, rfl, rfl⟩⟩
  | jobPosts h | posts h => cases h <;> exact ⟨rfl, .inl rfl⟩
  | _ => exact ⟨rfl, .inl rfl⟩

theorem moves_joined {m m' : Members J} {p p' : Pc J} {e : Effect Unit Unit}
    (h : Moves n m p m' p' e) {j : Nat}
    (hj : j < joined n p') : j < joined n p ∨ m.exited j = true := by
  cases h with
  | joined hk he =>
    obtain hlt | rfl := Nat.lt_succ_iff_lt_or_eq.mp hj
    · exact .inl hlt
    · exact .inr he
  | returns hk => exact .inl (Nat.lt_of_lt_of_le hj hk)
  | _ => cases hj

theorem exited_pc (hs : Reachable (system J n Q) s) :
    (∀ i : Fin n, s.shared.exited i = true → isExited (s.pc (.worker i)) = true) ∧
      ∀ t, ∀ j < joined n (s.pc t), s.shared.exited j = true := by
  induction hs with
  | init h =>
    subst h
    refine ⟨nofun, fun t j hj => ?_⟩
    cases t <;> cases hj
  | @step s s' a hr h ih =>
    obtain ⟨hexit, hjoin⟩ := ih
    obtain ⟨t, p, e, hm, -, hself, hother⟩ | ⟨hsh, hall⟩ :=
      system_step (fun p => (isExited p, joined n p)) (fun _ _ => rfl) h
    · simp only [Prod.mk.injEq] at hself hother
      obtain ⟨hlive, hmove⟩ := moves_exited hm
      have hmono : ∀ j, s.shared.exited j = true → s'.shared.exited j = true := by
        intro j hj
        obtain he | ⟨k, job, -, he, -⟩ := hmove
        · rwa [he]
        · rw [he]
          by_cases hjk : j = k <;> simp [hjk, hj]
      have hkeep : ∀ i : Fin n, s.shared.exited i = true → isExited (s'.pc (.worker i)) = true := by
        intro i hi
        have hne : (.worker i : Thread n Q) ≠ t := by
          rintro rfl
          rw [hexit i hi] at hlive
          cases hlive
        exact (hother _ hne).1.trans (hexit i hi)
      refine ⟨fun i hi => ?_, fun u j hj => ?_⟩
      · obtain he | ⟨k, job, hp, he, hleft⟩ := hmove
        · exact hkeep i (he ▸ hi)
        · obtain ⟨i', rfl, rfl⟩ := worker_place hr hp
          by_cases hii : i = i'
          · subst hii
            exact hself.1.trans hleft
          · rw [he, Function.update_of_ne (fun h => hii (Fin.ext h))] at hi
            exact hkeep i hi
      · by_cases hut : u = t
        · subst hut
          rw [hself.2] at hj
          obtain hlt | he := moves_joined hm hj
          · exact hmono j (hjoin u j hlt)
          · exact hmono j he
        · rw [(hother u hut).2] at hj
          exact hmono j (hjoin u j hj)
    · simp only [Prod.mk.injEq] at hall
      refine ⟨fun i hi => ?_, fun u j hj => ?_⟩
      · exact (hall _).1.trans (hexit i (hsh ▸ hi))
      · rw [(hall u).2] at hj
        exact hsh ▸ hjoin u j hj

theorem returned_exited (hs : Reachable (system J n Q) s) (h : s.pc .owner = .owner .returned)
    (i : Fin n) :
    isExited (s.pc (.worker i)) = true :=
  (exited_pc hs).1 i ((exited_pc hs).2 .owner i (by rw [h]; exact i.isLt))

/-- Jobs are dequeued in the order in which they were posted, and each is
invoked once by the worker that dequeued it before it dequeues the next one
and before the destructor returns. -/
structure JobsInOrder (s : PoolState J n Q) : Prop where
  fifo : s.shared.dequeued.map Prod.snd <+: s.shared.posted.map .fresh
  workers : ∀ x ∈ s.shared.dequeued, x.1 < n
  once : ∀ i : Fin n, ∃ hand : List (PackagedTask J), hand.length ≤ 1 ∧
    dequeuedBy s.shared i = (invokedBy s.shared i).map .fresh ++ hand
  before : ∀ i : Fin n, ∀ a s', (system J n Q).step s a = some s' →
    dequeuedBy s'.shared i ≠ dequeuedBy s.shared i →
      dequeuedBy s.shared i = (invokedBy s.shared i).map .fresh
  invoked : ∀ x ∈ s.shared.invoked, (x.1, .fresh x.2) ∈ s.shared.dequeued ∧ x.2 ∈ s.shared.posted
  settled : s.pc .owner = .owner .returned →
    (∀ i : Fin n, dequeuedBy s.shared i = (invokedBy s.shared i).map .fresh) ∧
      ∀ a s', (system J n Q).step s a = some s' → s'.shared.invoked = s.shared.invoked
  sound : ∀ t, isTerminated (s.pc t) = false

omit [DecidableEq Q] [Fintype Q] in
theorem inHand_length (p : Pc J) : (inHand p).length ≤ 1 := by
  cases p with
  | worker k job p => cases p <;> simp [inHand]
  | poster _ | owner _ => simp [inHand]

theorem run_jobsInOrder (hs : Reachable (system J n Q) s) : JobsInOrder s where
  fifo := dequeued_fifo hs
  workers := (history_workers hs).1
  once i := ⟨_, inHand_length _, history hs i⟩
  before i a s' h hne := by
    rw [history hs i]
    obtain ⟨t, p, e, hm, -, -, -⟩ | ⟨hsh, -⟩ := system_step inHand (fun _ _ => rfl) h
    · cases moves_history hm with
      | same hdeq hinv hand =>
        exact absurd (by simp only [dequeuedBy, hdeq]) hne
      | @pop k job hp hp' hdeq hinv =>
        obtain ⟨i', rfl, rfl⟩ := worker_place hs hp
        by_cases hi : i' = i
        · subst hi
          rw [hp]
          exact List.append_nil _
        · rw [dequeuedBy_append hdeq, if_neg (fun h => hi (Fin.ext h)), List.append_nil] at hne
          exact absurd rfl hne
      | invoke hp hp' hdeq hinv =>
        exact absurd (by simp only [dequeuedBy, hdeq]) hne
    · exact absurd (by rw [hsh]) hne
  invoked x hx := by
    have hd := (history_workers hs).2 x hx
    obtain ⟨j, hj, he⟩ := dequeued_fresh hs hd
    cases he
    exact ⟨hd, hj⟩
  settled h := by
    have hexit := returned_exited hs h
    refine ⟨fun i => ?_, fun a s' hstep => ?_⟩
    · have hi := hexit i
      rw [history hs i]
      cases hp : s.pc (.worker i) with
      | worker k job p =>
        rw [hp] at hi
        cases p <;> first | exact List.append_nil _ | cases hi
      | poster _ | owner _ => exact List.append_nil _
    · obtain ⟨t, p, e, hm, -, -, -⟩ | ⟨hsh, -⟩ := system_step inHand (fun _ _ => rfl) hstep
      · cases moves_history hm with
        | same hdeq hinv hand => exact hinv
        | pop hp hp' hdeq hinv => exact hinv
        | invoke hp hp' hdeq hinv =>
          obtain ⟨i, rfl, rfl⟩ := worker_place hs hp
          have hi := hexit i
          rw [hp] at hi
          cases hi
      · rw [hsh]
  sound := not_terminated hs

def oneJobRun (t : Thread 1 Unit) : List (Action (Thread 1 Unit) (Call Nat)) :=
  [List.replicate 2 (.run .owner .finish none), List.replicate 5 (.run t .finish none),
    List.replicate 2 (.run (.poster ()) (.post 7) none),
    [.run (.poster ()) .finish (some t), .run (.poster ()) .finish none],
    List.replicate 8 (.run t .finish none), List.replicate 2 (.run .owner .finish none),
    List.replicate 2 (.run t .finish none), List.replicate 2 (.run .owner .finish none)].flatten

theorem run_jobsInOrder_oneJob :
    ∃ s, Reachable (system Nat 1 Unit) s ∧ JobsInOrder s ∧ s.shared.invoked = [(0, 7)] ∧
      s.pc .owner = .owner .returned := by
  obtain ⟨s, hs, h⟩ : ∃ s, Reachable (system Nat 1 Unit) s ∧ s.shared.invoked = [(0, 7)] ∧
      s.pc .owner = .owner .returned :=
    exists_reachable rfl (oneJobRun (.worker 0)) (by decide +kernel)
  exact ⟨s, hs, run_jobsInOrder hs, h⟩

end RoblSampleCodes.ThreadPoolOrder
