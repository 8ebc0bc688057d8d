import RoblSampleCodes.StarveFreeInvariant

namespace RoblSampleCodes.StarveFreeOvertaking

open TransitionSystem ThreadProgram StarveFreeLock StarveFreeInvariant

inductive Role
  | reader
  | writer
  deriving DecidableEq

def Role.call : Role → Call
  | .reader => .lockShared
  | .writer => .lock

def side : Pc → Option Role
  | .outside | .finished => none
  | .lockShared _ | .reading | .unlockShared _ => some .reader
  | .lock _ | .writing | .unlock _ => some .writer

def waitsShared : Pc → Bool
  | .lockShared .unlock => false
  | .lockShared _ => true
  | _ => false

variable {T : Type} [DecidableEq T] [Fintype T] {role : T → Role} {s s' : LockState T}

def obeys (role : T → Role) : Action T Call → Bool
  | .run t c _ => c == (role t).call
  | .spurious _ => true

def loops (role : T → Role) : System (LockState T) (Action T Call) :=
  ⟨(· = initial), fun s a => if obeys role a then system.step s a else none⟩

def acquisitions (m m' : Members) : Nat := if !m.writing && m'.writing then 1 else 0

/-- A run in which `r` blocks in `lock_shared` and has not acquired since,
with the exclusive acquisitions after `r` blocked. -/
inductive Overtaken (role : T → Role) (r : T) : LockState T → Nat → Prop
  | blocks {s s' : LockState T} {a : Action T Call} (hs : Reachable (loops role) s)
      (h : (loops role).step s a = some s') (hr : s.pc r ≠ .lockShared .asleep)
      (hr' : s'.pc r = .lockShared .asleep) : Overtaken role r s' 0
  | step {s s' : LockState T} {a : Action T Call} {n : Nat} (hs : Overtaken role r s n)
      (h : (loops role).step s a = some s') (hw : waitsShared (s'.pc r) = true) :
      Overtaken role r s' (n + acquisitions s.shared s'.shared)

def BoundedOvertaking (role : T → Role) : Prop :=
  ∃ bound, ∀ r s n, Overtaken role r s n → n ≤ bound

theorem loops_step {a : Action T Call} (h : (loops role).step s a = some s') :
    obeys role a = true ∧ system.step s a = some s' := by
  simpa [loops] using h

theorem next_side {m m' : Members} {p p' : Pc} {ρ : Role} {e : Effect Unit Cv}
    (h : program.next m p ρ.call = some (m', p', e)) (hp : side p = none ∨ side p = some ρ) :
    side p' = none ∨ side p' = some ρ := by
  cases ho : side p with
  | none =>
    rcases p with _ | _ | p | _ | p | p | _ | p <;> cases ho
    · cases ρ <;> cases h <;> exact .inr rfl
    · cases h
  | some σ =>
    obtain rfl : σ = ρ := by simpa [ho] using hp
    cases next_moves h <;> first | exact .inl rfl | exact .inr ho | cases ho

theorem loops_side (hs : Reachable (loops role) s) (t : T) :
    side (s.pc t) = none ∨ side (s.pc t) = some (role t) := by
  induction hs with
  | init h =>
    subst h
    exact .inl rfl
  | @step s s' a hs h ih =>
    obtain ⟨ho, h⟩ := loops_step h
    have hwake : ∀ p, program.asleep p ≠ none → side (program.wake p) = side p := by
      intro p hp
      obtain ⟨rfl, hw⟩ | ⟨rfl, hw⟩ := asleep_cases hp <;> rw [hw] <;> rfl
    obtain hp | ⟨hsl, hp⟩ | ⟨c, pick, e, p, rfl, hn, hp⟩ := step_pc h t
    · rwa [hp]
    · rwa [hp, hwake _ hsl]
    · obtain rfl : c = (role t).call := by simpa [obeys] using ho
      have hside := next_side hn ih
      obtain hp | ⟨hsl, hp⟩ := hp
      · rwa [hp]
      · rwa [hp, hwake _ hsl]

theorem Overtaken.reachable {r : T} {n : Nat} (h : Overtaken role r s n) : Reachable (loops role) s := by
  induction h with
  | blocks hs h _ _ => exact hs.step h
  | step _ h _ ih => exact ih.step h

theorem overtaken_reader {r : T} {n : Nat} (h : Overtaken role r s n) : role r = .reader := by
  have hs := loops_side h.reachable r
  have hw : side (s.pc r) = some .reader := by
    cases h with
    | blocks _ _ _ hr' => rw [hr']; rfl
    | step _ _ hw =>
      cases hp : s.pc r <;> rw [hp] at hw <;> first | rfl | cases hw
  simpa [hw, eq_comm] using hs

theorem acquisitions_writer (hs : Reachable (loops role) s) {a : Action T Call}
    (h : (loops role).step s a = some s') (hw : ∀ t, role t = .reader) :
    acquisitions s.shared s'.shared = 0 := by
  obtain ⟨t, c, pick, p, e, -, hn, -, -, -⟩ | ⟨t, -, -, hsh, -, -⟩ := step_cases (loops_step h).2
  · have hside := loops_side hs t
    rw [hw t] at hside
    generalize s.pc t = q at hn hside
    generalize s'.shared = m' at hn ⊢
    cases next_moves hn <;> first | (simp [acquisitions]; done) | (simp [side] at hside)
  · simp [acquisitions, hsh]

theorem overtaken_readers {r : T} {n : Nat} (hw : ∀ t, role t = .reader) (h : Overtaken role r s n) :
    n = 0 := by
  induction h with
  | blocks _ _ _ _ => rfl
  | step hs h _ ih => rw [ih, acquisitions_writer hs.reachable h hw]

section Duel

variable {r w : T}

def places (r w : T) (pr pw : Pc) (t : T) : Pc :=
  if t = r then pr else if t = w then pw else .outside

def duel (r w : T) (m : Members) (o : Option T) (pr pw : Pc) : LockState T :=
  ⟨m, fun _ => o, places r w pr pw⟩

omit [Fintype T] in
theorem places_reader (pr pr' pw : Pc) :
    Function.update (places r w pr pw) r pr' = places r w pr' pw := by
  funext t
  by_cases h : t = r <;> simp [places, h]

omit [Fintype T] in
theorem places_writer (hrw : r ≠ w) (pr pw pw' : Pc) :
    Function.update (places r w pr pw) w pw' = places r w pr pw' := by
  funext t
  by_cases h : t = w
  · subst h
    simp [places, Ne.symm hrw]
  · simp [places, h]

omit [DecidableEq T] [Fintype T] in
theorem owner_const (o o' : Option T) : Function.update (fun _ : Unit => o) () o' = fun _ => o' := by
  funext u
  rfl

variable {m m' : Members} {o : Option T} {pr pr' pw pw' : Pc} {e : Effect Unit Cv} {pc : T → Pc}

theorem writer_step (hrw : r ≠ w) (hw : role w = .writer) (hn : next m pw .lock = some (m', pw', e))
    (he : e.enabled (fun _ => o) = true) (hd : program.deliver none (places r w pr pw') e = some pc) :
    (loops role).step (duel r w m o pr pw) (.run w .lock none) =
      some ⟨m', e.owner w (fun _ => o), pc⟩ := by
  have hp : places r w pr pw w = pw := by simp [places, Ne.symm hrw]
  have hn' : program.next m pw .lock = some (m', pw', e) := hn
  simp [loops, obeys, hw, Role.call, system, Program.system, Program.step, duel, hp, hn', he, hd,
    places_writer hrw]

theorem reader_step (hr : role r = .reader) (hn : next m pr .lockShared = some (m', pr', e))
    (he : e.enabled (fun _ => o) = true) (hd : program.deliver none (places r w pr' pw) e = some pc) :
    (loops role).step (duel r w m o pr pw) (.run r .lockShared none) =
      some ⟨m', e.owner r (fun _ => o), pc⟩ := by
  have hp : places r w pr pw r = pr := by simp [places]
  have hn' : program.next m pr .lockShared = some (m', pr', e) := hn
  simp [loops, obeys, hr, Role.call, system, Program.system, Program.step, duel, hp, hn', he, hd,
    places_reader]

theorem writer_quiet (hrw : r ≠ w) (hw : role w = .writer)
    (hn : next m pw .lock = some (m', pw', .none)) :
    (loops role).step (duel r w m o pr pw) (.run w .lock none) = some (duel r w m' o pr pw') := by
  rw [writer_step hrw hw hn rfl rfl]
  rfl

theorem writer_locks (hrw : r ≠ w) (hw : role w = .writer)
    (hn : next m pw .lock = some (m', pw', .lock ())) :
    (loops role).step (duel r w m none pr pw) (.run w .lock none) =
      some (duel r w m' (some w) pr pw') := by
  rw [writer_step hrw hw hn rfl rfl, Effect.owner, owner_const]
  rfl

theorem writer_unlocks (hrw : r ≠ w) (hw : role w = .writer)
    (hn : next m pw .lock = some (m', pw', .unlock ())) :
    (loops role).step (duel r w m o pr pw) (.run w .lock none) = some (duel r w m' none pr pw') := by
  rw [writer_step hrw hw hn rfl rfl, Effect.owner, owner_const]
  rfl

theorem reader_locks (hr : role r = .reader) (hn : next m pr .lockShared = some (m', pr', .lock ())) :
    (loops role).step (duel r w m none pr pw) (.run r .lockShared none) =
      some (duel r w m' (some r) pr' pw) := by
  rw [reader_step hr hn rfl rfl, Effect.owner, owner_const]
  rfl

theorem reader_unlocks (hr : role r = .reader)
    (hn : next m pr .lockShared = some (m', pr', .unlock ())) :
    (loops role).step (duel r w m o pr pw) (.run r .lockShared none) =
      some (duel r w m' none pr' pw) := by
  rw [reader_step hr hn rfl rfl, Effect.owner, owner_const]
  rfl

/-- The writer of a release wakes the sleeping reader. -/
theorem writer_notifies (hrw : r ≠ w) (hw : role w = .writer) :
    (loops role).step (duel r w m o (.lockShared .asleep) (.unlock .notifyAll)) (.run w .lock none) =
      some (duel r w m o (.lockShared .awake) (.unlock .unlock)) := by
  refine writer_step (e := .notifyAll .readerCv) hrw hw rfl rfl ?_
  simp only [Program.deliver, Option.some.injEq]
  funext t
  by_cases ht : t = r
  · simp [Program.wakeAll, places, ht, program, asleep, wake]
  · by_cases htw : t = w <;> simp [Program.wakeAll, places, htw, Ne.symm hrw, ht, program, asleep]

variable (hrw : r ≠ w) (hr : role r = .reader) (hw : role w = .writer)

include hrw hr hw

theorem duel_starts :
    Overtaken role r (duel r w ⟨0, 0, true⟩ none (.lockShared .asleep) .writing) 0 := by
  have hinit : (loops role).init (duel r w ⟨0, 0, false⟩ none .outside .outside) := by
    simp only [loops, duel, initial, State.mk.injEq, true_and]
    funext t
    simp [places]
  have harrive := (Reachable.init hinit).step (writer_locks hrw hw rfl)
  have hwriting := ((((harrive.step (writer_quiet hrw hw rfl)).step (writer_quiet hrw hw rfl)).step
    (writer_quiet hrw hw rfl)).step (writer_quiet hrw hw rfl)).step (writer_unlocks hrw hw rfl)
  have htest := hwriting.step (reader_locks (w := w) hr rfl)
  exact .blocks htest (reader_unlocks hr rfl) (by simp [duel, places]) (by simp [duel, places])

/-- One turn of the writer: it releases the lock and wakes the reader, but
takes the lock again before the reader has `mutex_`. -/
theorem duel_turn {n : Nat}
    (h : Overtaken role r (duel r w ⟨0, 0, true⟩ none (.lockShared .asleep) .writing) n) :
    Overtaken role r (duel r w ⟨0, 0, true⟩ none (.lockShared .asleep) .writing) (n + 1) := by
  have hasleep : ∀ m o pw, waitsShared ((duel r w m o (.lockShared .asleep) pw).pc r) = true := by
    simp [duel, places, waitsShared]
  have hawake : ∀ m o pw, waitsShared ((duel r w m o (.lockShared .awake) pw).pc r) = true := by
    simp [duel, places, waitsShared]
  have hcheck := (h.step (writer_locks hrw hw rfl) (hasleep _ _ _)).step (writer_quiet hrw hw rfl)
    (hasleep _ _ _)
  have hreleased := ((hcheck.step (writer_quiet hrw hw rfl) (hasleep _ _ _)).step
    (writer_notifies hrw hw) (hawake _ _ _)).step (writer_unlocks hrw hw rfl) (hawake _ _ _)
  have harrive := (hreleased.step (writer_locks hrw hw rfl) (hawake _ _ _)).step
    (writer_quiet hrw hw rfl) (hawake _ _ _)
  have hwriting := (((harrive.step (writer_quiet hrw hw rfl) (hawake _ _ _)).step
    (writer_quiet hrw hw rfl) (hawake _ _ _)).step (writer_quiet hrw hw rfl) (hawake _ _ _)).step
    (writer_unlocks hrw hw rfl) (hawake _ _ _)
  exact (hwriting.step (reader_locks hr rfl) (by simp [duel, places, waitsShared])).step
    (reader_unlocks hr rfl) (hasleep _ _ _)

theorem duel_unbounded : ¬ BoundedOvertaking role := by
  rintro ⟨bound, hb⟩
  have hturns : ∀ n, Overtaken role r (duel r w ⟨0, 0, true⟩ none (.lockShared .asleep) .writing) n := by
    intro n
    induction n with
    | zero => exact duel_starts hrw hr hw
    | succ n ih => exact duel_turn hrw hr hw ih
  have h := hb r _ _ (hturns (bound + 1))
  omega

end Duel

/-- Overtaking is bounded exactly when there is nobody to overtake, or nobody
who overtakes. -/
theorem boundedOvertaking_iff (role : T → Role) :
    BoundedOvertaking role ↔ (∀ t, role t = .writer) ∨ ∀ t, role t = .reader := by
  constructor
  · intro hb
    by_contra hno
    obtain ⟨hr, hw⟩ := not_or.mp hno
    obtain ⟨r, hr⟩ := not_forall.mp hr
    obtain ⟨w, hw⟩ := not_forall.mp hw
    have hr' : role r = .reader := by cases h : role r <;> simp_all
    have hw' : role w = .writer := by cases h : role w <;> simp_all
    exact duel_unbounded (by rintro rfl; simp_all) hr' hw' hb
  · rintro (hw | hr)
    · refine ⟨0, fun r s n h => ?_⟩
      have hreader := overtaken_reader h
      rw [hw r] at hreader
      cases hreader
    · exact ⟨0, fun r s n h => (overtaken_readers hr h).le⟩

/-- One reader and one writer, as in a `main` with one thread of each. -/
theorem starved_reader : ¬ BoundedOvertaking (![Role.reader, Role.writer]) :=
  duel_unbounded (r := 0) (w := 1) (by decide) rfl rfl

end RoblSampleCodes.StarveFreeOvertaking
