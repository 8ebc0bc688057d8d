import RoblSampleCodes.MountMonitorSystem

namespace RoblSampleCodes.MountMonitorRounds

open TransitionSystem TaskProgram MountMonitor MountMonitorSystem

variable {F Q : Type}

def edges (last : Bool) : List Bool → List Kind
  | [] => []
  | current :: samples => (edge current last).toList ++ edges current samples

def callHolds : CallPc F → Kind → Bool
  | .pushBack kind _ | .registerUnlock kind _ | .setNull kind _ | .cancelUnlock kind => (· = kind)
  | _ => fun _ => false

def holds : Pc F → Kind → Bool
  | .monitor (.launch kind _ _ _) | .monitor (.erase kind _ _) | .monitor (.unlock kind _ _) => (· = kind)
  | .client p | .task _ p => callHolds p
  | _ => fun _ => false

def lastState : MonitorPc → Bool
  | .sample last => last
  | .lock _ current | .launch _ current _ _ | .erase _ current _ | .unlock _ current _
  | .get current _ | .sleep current => current

def pending : MonitorPc → List Kind
  | .lock kind _ => [kind]
  | _ => []

def launching : MonitorPc → Option (Kind × Nat)
  | .launch kind _ i _ => some (kind, i)
  | _ => none

def awaited : MonitorPc → List Nat
  | .launch _ _ _ futures | .erase _ _ futures | .unlock _ _ futures | .get _ futures => futures
  | _ => []

def launchedIn (m : Members F) (r : Nat) : List F :=
  (m.launches.filter (fun x => x.1 == r)).map Prod.snd

structure Recorded (m : Members F) (p : MonitorPc) (n : Nat) : Prop where
  samples : lastState p = m.samples.getLastD false
  edges : m.rounds.map Round.kind ++ pending p = edges false m.samples
  launches : m.launches.length = n
  rounds : ∀ x ∈ m.launches, x.1 < m.rounds.length
  complete : ∀ r round, m.rounds[r]? = some round → (launching p ≠ none → r + 1 < m.rounds.length) →
    launchedIn m r = launched round.callbacks
  current : ∀ kind i, launching p = some (kind, i) →
    m.rounds.getLast? = some ⟨kind, m.callbacks kind⟩ ∧
      launchedIn m (m.rounds.length - 1) = launched ((m.callbacks kind).take i)
  futures : ∀ id ∈ awaited p, ∃ f, m.launches[id]? = some (m.rounds.length - 1, f)

theorem edges_append (last : Bool) (samples : List Bool) (current : Bool) :
    edges last (samples ++ [current]) =
      edges last samples ++ (edge current (samples.getLastD last)).toList := by
  induction samples generalizing last with
  | nil => simp [edges]
  | cons x samples ih =>
    simp only [List.cons_append, edges, ih, List.append_assoc]
    cases samples <;> rfl

theorem edge_eq (current last : Bool) :
    edge current last = if current = last then none else some (if current then .mount else .unmount) := by
  cases current <;> cases last <;> rfl

/-- The rounds alternate, and the first one ends the state before the samples. -/
theorem edges_alternate {last : Bool} {samples : List Bool} {i : Nat} {kind : Kind}
    (h : (edges last samples)[i]? = some kind) :
    kind = if i % 2 = last.toNat then .mount else .unmount := by
  induction samples generalizing last i with
  | nil => cases h
  | cons current samples ih =>
    rw [edges, edge_eq] at h
    by_cases hc : current = last
    · rw [if_pos hc] at h
      subst hc
      exact ih h
    · rw [if_neg hc] at h
      have hlast : last = !current := by
        cases current <;> cases last <;> first | rfl | exact absurd rfl hc
      subst hlast
      cases i with
      | zero =>
        cases h
        cases current <;> rfl
      | succ i =>
        rw [ih h]
        have hparity : i % 2 = current.toNat ↔ (i + 1) % 2 = (!current).toNat := by
          cases current <;> simp only [Bool.toNat, cond, Bool.not_true, Bool.not_false] <;> omega
        exact if_congr hparity rfl rfl

inductive Calls (m : Members F) : CallPc F → Members F → CallPc F → Effect Kind (Pc F) → Prop
  | setMounted {mounted : Bool} : Calls m .outside { m with isMounted := mounted } .outside .none
  | register {kind : Kind} {callback : F} : Calls m .outside m (.registerLock kind callback) .none
  | registerLock {kind : Kind} {callback : F} :
      Calls m (.registerLock kind callback) m (.pushBack kind callback) (.lock kind)
  | pushBack {kind : Kind} {callback : F} {id : Nat} {callbacks : List (Option F)} :
      Calls m (.pushBack kind callback) { m with callbacks := Function.update m.callbacks kind callbacks }
        (.registerUnlock kind id) .none
  | registerUnlock {kind : Kind} {id : Nat} :
      Calls m (.registerUnlock kind id) m .outside (.unlock kind)
  | cancel {kind : Kind} {index : Nat} : Calls m .outside m (.cancelLock kind index) .none
  | cancelLock {kind : Kind} {index : Nat} :
      Calls m (.cancelLock kind index) m (.setNull kind index) (.lock kind)
  | setNull {kind : Kind} {index : Nat} {callbacks : List (Option F)} :
      Calls m (.setNull kind index) { m with callbacks := Function.update m.callbacks kind callbacks }
        (.cancelUnlock kind) .none
  | cancelUnlock {kind : Kind} : Calls m (.cancelUnlock kind) m .outside (.unlock kind)

inductive Monitors (m : Members F) (n : Nat) :
    MonitorPc → Members F → MonitorPc → Effect Kind (Pc F) → Prop
  | rounds {last : Bool} {kind : Kind} (h : edge m.isMounted last = some kind) :
      Monitors m n (.sample last) { m with samples := m.samples ++ [m.isMounted] }
        (.lock kind m.isMounted) .none
  | rests {last : Bool} (h : edge m.isMounted last = none) :
      Monitors m n (.sample last) { m with samples := m.samples ++ [m.isMounted] }
        (.sleep m.isMounted) .none
  | lock {kind : Kind} {current : Bool} :
      Monitors m n (.lock kind current) { m with rounds := m.rounds ++ [⟨kind, m.callbacks kind⟩] }
        (.launch kind current 0 []) (.lock kind)
  | launch {kind : Kind} {current : Bool} {i : Nat} {futures : List Nat} {callback : F}
      (h : (m.callbacks kind)[i]? = some (some callback)) :
      Monitors m n (.launch kind current i futures)
        { m with launches := m.launches ++ [(m.rounds.length - 1, callback)] }
        (.launch kind current (i + 1) (futures ++ [n])) (.spawn (.task callback .outside))
  | skip {kind : Kind} {current : Bool} {i : Nat} {futures : List Nat}
      (h : (m.callbacks kind)[i]? = some none) :
      Monitors m n (.launch kind current i futures) m (.launch kind current (i + 1) futures) .none
  | launched {kind : Kind} {current : Bool} {i : Nat} {futures : List Nat}
      (h : (m.callbacks kind)[i]? = none) :
      Monitors m n (.launch kind current i futures) m (.erase kind current futures) .none
  | erase {kind : Kind} {current : Bool} {futures : List Nat} :
      Monitors m n (.erase kind current futures)
        { m with callbacks := Function.update m.callbacks kind (removeNull (m.callbacks kind)) }
        (.unlock kind current futures) .none
  | unlock {kind : Kind} {current : Bool} {futures : List Nat} :
      Monitors m n (.unlock kind current futures) m (.get current futures) (.unlock kind)
  | get {current : Bool} {future : Nat} {futures : List Nat} :
      Monitors m n (.get current (future :: futures)) m (.get current futures) (.join future)
  | finished {current : Bool} : Monitors m n (.get current []) m (.sleep current) .none
  | sleep {current : Bool} : Monitors m n (.sleep current) m (.sample current) .none

inductive Moves (m : Members F) : Pc F → Members F → Pc F → Effect Kind (Pc F) → Prop
  | client {p p' : CallPc F} {m' : Members F} {e : Effect Kind (Pc F)} (h : Calls m p m' p' e) :
      Moves m (.client p) m' (.client p') e
  | task {callback : F} {p p' : CallPc F} {m' : Members F} {e : Effect Kind (Pc F)}
      (h : Calls m p m' p' e) : Moves m (.task callback p) m' (.task callback p') e
  | finish {callback : F} : Moves m (.task callback .outside) m .finished .none

section Moves

variable {m m' : Members F} {p p' : Pc F} {c : Option (Call F)} {e : Effect Kind (Pc F)} {n : Nat}

theorem call_calls {p p' : CallPc F} (h : call m p c = some (m', p', e)) : Calls m p m' p' e := by
  cases p with
  | outside =>
    cases c with
    | none => cases h
    | some c =>
      cases c <;> cases h
      · exact .setMounted
      · exact .register
      · exact .cancel
  | registerLock | pushBack | registerUnlock | cancelLock | setNull | cancelUnlock =>
    cases h
    constructor

theorem monitor_monitors (q : MonitorPc) :
    Monitors m n q (monitor m n q).1 (monitor m n q).2.1 (monitor m n q).2.2 := by
  cases q with
  | sample last =>
    cases h : edge m.isMounted last <;> simp only [monitor, h]
    · exact .rests h
    · exact .rounds h
  | launch kind current i futures =>
    cases h : (m.callbacks kind)[i]? with
    | none =>
      simp only [monitor, h]
      exact .launched h
    | some x =>
      cases x <;> simp only [monitor, h]
      · exact .skip h
      · exact .launch h
  | get current futures => cases futures <;> constructor
  | lock | erase | unlock | sleep => constructor

theorem next_moves (h : next m n p c = some (m', p', e)) :
    (∃ q q', p = .monitor q ∧ p' = .monitor q' ∧ Monitors m n q m' q' e) ∨
      (∀ q, p ≠ .monitor q) ∧ Moves m p m' p' e := by
  cases p with
  | monitor q =>
    cases h
    exact .inl ⟨q, _, rfl, rfl, monitor_monitors q⟩
  | client q =>
    refine .inr ⟨by simp, ?_⟩
    simp only [next, Option.map_eq_some_iff] at h
    obtain ⟨⟨m₁, q₁, e₁⟩, hq, h⟩ := h
    cases h
    exact .client (call_calls hq)
  | task callback q =>
    refine .inr ⟨by simp, ?_⟩
    by_cases hfin : q = .outside ∧ c = none
    · obtain ⟨rfl, rfl⟩ := hfin
      cases h
      exact .finish
    · have hn : next m n (.task callback q) c =
          (call m q c).map (fun x => (x.1, .task callback x.2.1, x.2.2)) := by
        cases q <;> cases c <;> first | rfl | exact absurd ⟨rfl, rfl⟩ hfin
      rw [hn, Option.map_eq_some_iff] at h
      obtain ⟨⟨m₁, q₁, e₁⟩, hq, h⟩ := h
      cases h
      exact .task (call_calls hq)
  | finished => cases h

theorem Calls.held {p p' : CallPc F} (h : Calls m p m' p' e) :
    callHolds p' = e.held (callHolds p) ∧ e.Allowed (fun _ => callHolds p) .finished := by
  cases h with
  | registerLock | cancelLock =>
    refine ⟨?_, trivial⟩
    funext kind
    simp [callHolds, Effect.held, Function.update_apply]
  | registerUnlock | cancelUnlock =>
    refine ⟨?_, by simp [callHolds, Effect.Allowed]⟩
    funext kind
    simp [callHolds, Effect.held, Function.update_apply]
  | _ => exact ⟨rfl, trivial⟩

theorem Calls.not_spawn {p p' : CallPc F} (h : Calls m p m' p' e) (p₀ : Pc F) : e ≠ .spawn p₀ := by
  cases h <;> simp

theorem Calls.history {p p' : CallPc F} (h : Calls m p m' p' e) :
    m'.samples = m.samples ∧ m'.rounds = m.rounds ∧ m'.launches = m.launches := by
  cases h <;> exact ⟨rfl, rfl, rfl⟩

theorem Calls.callbacks {p p' : CallPc F} (h : Calls m p m' p' e) {kind : Kind}
    (hfree : callHolds p kind = false) : m'.callbacks kind = m.callbacks kind := by
  cases h with
  | pushBack | setNull =>
    apply Function.update_of_ne
    simpa [callHolds] using hfree
  | _ => rfl

theorem Monitors.held {q q' : MonitorPc} (h : Monitors m n q m' q' e) :
    holds (.monitor q' : Pc F) = e.held (holds (.monitor q : Pc F)) ∧
      e.Allowed holds (.monitor q) := by
  cases h with
  | lock =>
    refine ⟨?_, trivial⟩
    funext kind
    simp [holds, Effect.held, Function.update_apply]
  | unlock =>
    refine ⟨?_, by simp [holds, Effect.Allowed]⟩
    funext kind
    simp [holds, Effect.held, Function.update_apply]
  | launch => exact ⟨rfl, fun _ => rfl⟩
  | _ => exact ⟨rfl, trivial⟩

theorem Monitors.awaited {q q' : MonitorPc} (h : Monitors m n q m' q' e) {id : Nat}
    (hid : id ∈ awaited q) :
    id ∈ MountMonitorRounds.awaited q' ∨ e = .join id := by
  cases h with
  | launch => exact .inl (List.mem_append_left _ hid)
  | get =>
    obtain rfl | hid := List.mem_cons.mp hid
    · exact .inr rfl
    · exact .inl hid
  | rounds | rests | lock | finished | sleep => cases hid
  | skip | launched | erase | unlock => exact .inl hid

theorem Monitors.spawns {q q' : MonitorPc} {p₀ : Pc F} (h : Monitors m n q m' q' (.spawn p₀)) :
    n ∈ MountMonitorRounds.awaited q' ∧ ∀ q₀, p₀ ≠ .monitor q₀ := by
  cases h with
  | launch => exact ⟨List.mem_append_right _ (List.mem_singleton_self n), by simp⟩

theorem Moves.not_spawn (h : Moves m p m' p' e) (p₀ : Pc F) : e ≠ .spawn p₀ := by
  cases h with
  | client h | task h => exact h.not_spawn p₀
  | finish => simp

theorem Moves.not_monitor (h : Moves m p m' p' e) (q : MonitorPc) : p' ≠ .monitor q := by
  cases h <;> simp

theorem Moves.history (h : Moves m p m' p' e) :
    m'.samples = m.samples ∧ m'.rounds = m.rounds ∧ m'.launches = m.launches := by
  cases h with
  | client h | task h => exact h.history
  | finish => exact ⟨rfl, rfl, rfl⟩

theorem Moves.callbacks (h : Moves m p m' p' e) {kind : Kind} (hfree : holds p kind = false) :
    m'.callbacks kind = m.callbacks kind := by
  cases h with
  | client h | task h => exact h.callbacks hfree
  | finish => rfl

theorem discipline : Discipline (program F) holds := by
  refine ⟨fun m n p c m' p' e hn _ => ?_, fun _ => rfl⟩
  obtain ⟨q, q', rfl, rfl, hq⟩ | ⟨-, hmoves⟩ := next_moves hn
  · exact hq.held
  · cases hmoves with
    | client h | task h =>
      obtain ⟨hheld, hallowed⟩ := h.held
      refine ⟨hheld, ?_⟩
      cases h <;> exact hallowed
    | finish => exact ⟨rfl, trivial⟩

theorem launchedIn_append {r r' : Nat} {callback : F} :
    launchedIn { m with launches := m.launches ++ [(r', callback)] } r =
      launchedIn m r ++ if r' = r then [callback] else [] := by
  simp only [launchedIn, List.filter_append, List.map_append]
  by_cases hr : r' = r <;> simp [hr]

theorem Recorded.calls {q : MonitorPc} (h : Recorded m q n) (hsamples : m'.samples = m.samples)
    (hrounds : m'.rounds = m.rounds) (hlaunches : m'.launches = m.launches)
    (hcallbacks : ∀ kind i, launching q = some (kind, i) → m'.callbacks kind = m.callbacks kind) :
    Recorded m' q n := by
  have hin : launchedIn m' = launchedIn m := by
    funext r
    simp only [launchedIn, hlaunches]
  refine ⟨?_, ?_, ?_, ?_, ?_, ?_, ?_⟩
  · rw [hsamples]
    exact h.samples
  · rw [hrounds, hsamples]
    exact h.edges
  · rw [hlaunches]
    exact h.launches
  · rw [hlaunches, hrounds]
    exact h.rounds
  · rw [hrounds, hin]
    exact h.complete
  · intro kind i hi
    rw [hrounds, hin, hcallbacks kind i hi]
    exact h.current kind i hi
  · rw [hlaunches, hrounds]
    exact h.futures

theorem Recorded.goto {q q' : MonitorPc} (h : Recorded m q n) (hstate : lastState q' = lastState q)
    (hpending : pending q' = pending q) (hq : launching q = none) (hq' : launching q' = none)
    (hawaited : ∀ id ∈ awaited q', id ∈ awaited q) : Recorded m q' n := by
  refine ⟨?_, ?_, h.launches, h.rounds, fun r round hr _ => ?_, fun kind i hi => ?_,
    fun id hid => h.futures id (hawaited id hid)⟩
  · rw [hstate]
    exact h.samples
  · rw [hpending]
    exact h.edges
  · exact h.complete r round hr (fun hne => absurd hq hne)
  · rw [hq'] at hi
    cases hi

theorem Recorded.sample {last : Bool} {q' : MonitorPc} (h : Recorded m (.sample last) n)
    (hstate : lastState q' = m.isMounted) (hpending : pending q' = (edge m.isMounted last).toList)
    (hq' : launching q' = none) (hawaited : awaited q' = []) :
    Recorded { m with samples := m.samples ++ [m.isMounted] } q' n := by
  refine ⟨?_, ?_, h.launches, h.rounds, fun r round hr _ => ?_, fun kind i hi => ?_, fun id hid => ?_⟩
  · rw [hstate, List.getLastD_concat]
  · have hedges := h.edges
    have hlast := h.samples
    simp only [pending, List.append_nil] at hedges
    simp only [lastState] at hlast
    rw [edges_append, ← hlast, ← hedges, hpending]
  · exact h.complete r round hr (fun hne => absurd rfl hne)
  · rw [hq'] at hi
    cases hi
  · rw [hawaited] at hid
    cases hid

theorem launchedIn_fresh {q : MonitorPc} (h : Recorded m q n) : launchedIn m m.rounds.length = [] := by
  rw [launchedIn, List.map_eq_nil_iff, List.filter_eq_nil_iff]
  intro x hx hr
  exact absurd (h.rounds x hx) (by rw [beq_iff_eq.mp hr]; exact Nat.lt_irrefl _)

theorem Recorded.lock {kind : Kind} {current : Bool} (h : Recorded m (.lock kind current) n) :
    Recorded { m with rounds := m.rounds ++ [⟨kind, m.callbacks kind⟩] }
      (.launch kind current 0 []) n := by
  refine ⟨h.samples, ?_, h.launches, fun x hx => ?_, fun r round hr hlt => ?_, fun kind' i hi => ?_,
    fun id hid => ?_⟩
  · simpa only [List.map_append, List.map_cons, List.map_nil, pending, List.append_nil] using h.edges
  · rw [List.length_append]
    exact Nat.lt_add_right _ (h.rounds x hx)
  · have hlen := hlt (Option.some_ne_none _)
    rw [List.length_append, List.length_singleton, Nat.add_lt_add_iff_right] at hlen
    rw [List.getElem?_append_left hlen] at hr
    exact h.complete r round hr (fun hne => absurd rfl hne)
  · cases hi
    refine ⟨List.getLast?_concat .., ?_⟩
    rw [List.length_append, List.length_singleton, Nat.add_sub_cancel]
    exact launchedIn_fresh h
  · cases hid

theorem Recorded.launch {kind : Kind} {current : Bool} {i : Nat} {futures : List Nat} {callback : F}
    (h : Recorded m (.launch kind current i futures) n)
    (hi : (m.callbacks kind)[i]? = some (some callback)) :
    Recorded { m with launches := m.launches ++ [(m.rounds.length - 1, callback)] }
      (.launch kind current (i + 1) (futures ++ [n])) (n + 1) := by
  obtain ⟨hlast, hdone⟩ := h.current kind i rfl
  have hpos : m.rounds.length - 1 < m.rounds.length := by
    have hne : m.rounds ≠ [] := by
      rintro hnil
      rw [hnil] at hlast
      cases hlast
    exact Nat.sub_lt (List.length_pos_iff.mpr hne) Nat.one_pos
  refine ⟨h.samples, h.edges, ?_, fun x hx => ?_, fun r round hr hlt => ?_, fun kind' j hj => ?_,
    fun id hid => ?_⟩
  · rw [List.length_append, List.length_singleton, h.launches]
  · obtain hx | hx := List.mem_append.mp hx
    · exact h.rounds x hx
    · rw [List.mem_singleton.mp hx]
      exact hpos
  · have hlen := hlt (Option.some_ne_none _)
    have hne : m.rounds.length - 1 ≠ r := by
      intro he
      simp only at hlen
      omega
    rw [launchedIn_append, if_neg hne, List.append_nil]
    exact h.complete r round hr (fun _ => hlen)
  · cases hj
    refine ⟨hlast, ?_⟩
    rw [launchedIn_append, if_pos rfl, hdone, List.take_add_one, hi, launched, launched,
      List.reduceOption_append]
    rfl
  · obtain hid | hid := List.mem_append.mp hid
    · obtain ⟨f, hf⟩ := h.futures id hid
      refine ⟨f, ?_⟩
      rw [List.getElem?_append_left (List.getElem?_eq_some_iff.mp hf).1, hf]
    · refine ⟨callback, ?_⟩
      rw [List.mem_singleton.mp hid, ← h.launches]
      exact List.getElem?_concat_length ..

theorem Recorded.skip {kind : Kind} {current : Bool} {i : Nat} {futures : List Nat}
    (h : Recorded m (.launch kind current i futures) n) (hi : (m.callbacks kind)[i]? = some none) :
    Recorded m (.launch kind current (i + 1) futures) n := by
  refine ⟨h.samples, h.edges, h.launches, h.rounds, fun r round hr hlt => ?_, fun kind' j hj => ?_,
    h.futures⟩
  · exact h.complete r round hr (fun _ => hlt (Option.some_ne_none _))
  · cases hj
    obtain ⟨hlast, hdone⟩ := h.current kind i rfl
    refine ⟨hlast, ?_⟩
    rw [hdone, List.take_add_one, hi, launched, launched, List.reduceOption_append]
    exact (List.append_nil _).symm

theorem Recorded.launched {kind : Kind} {current : Bool} {i : Nat} {futures : List Nat}
    (h : Recorded m (.launch kind current i futures) n) (hi : (m.callbacks kind)[i]? = none) :
    Recorded m (.erase kind current futures) n := by
  refine ⟨h.samples, h.edges, h.launches, h.rounds, fun r round hr _ => ?_, fun _ _ hj => ?_, h.futures⟩
  · obtain ⟨hlast, hdone⟩ := h.current kind i rfl
    by_cases hlt : r + 1 < m.rounds.length
    · exact h.complete r round hr (fun _ => hlt)
    · have hr' : r = m.rounds.length - 1 := by
        have := (List.getElem?_eq_some_iff.mp hr).1
        omega
      rw [List.getLast?_eq_getElem?, ← hr', hr, Option.some.injEq] at hlast
      rw [hr', hdone, hlast, List.take_of_length_le (List.getElem?_eq_none_iff.mp hi)]
  · cases hj

theorem Recorded.monitors {q q' : MonitorPc} (h : Recorded m q n) (hstep : Monitors m n q m' q' e) :
    Recorded m' q' (e.spawned n) := by
  cases hstep with
  | rounds hedge => exact h.sample rfl (by rw [hedge]; rfl) rfl rfl
  | rests hedge => exact h.sample rfl (by rw [hedge]; rfl) rfl rfl
  | lock => exact h.lock
  | launch hi => exact h.launch hi
  | skip hi => exact h.skip hi
  | launched hi => exact h.launched hi
  | @erase kind current futures =>
    have hgoto : Recorded m (.unlock kind current futures) n :=
      h.goto rfl rfl rfl rfl (fun _ hid => hid)
    exact hgoto.calls rfl rfl rfl (fun _ _ hi => by cases hi)
  | unlock | finished | sleep => exact h.goto rfl rfl rfl rfl (fun _ hid => hid)
  | get => exact h.goto rfl rfl rfl rfl (fun _ hid => List.mem_cons_of_mem _ hid)

end Moves

section Step

variable [DecidableEq Q] {s s' : MonitorState F Q}

structure Watching (s : MonitorState F Q) (q : MonitorPc) : Prop where
  place : s.pc (.main .monitor) = .monitor q
  recorded : Recorded s.shared q s.spawned
  awaited : ∀ n, done (s.pc (.task n)) = false → n ∈ awaited q

structure Inv (s : MonitorState F Q) : Prop where
  fresh : Fresh (program F) s
  owned : Owned holds s
  watching : ∃ q, Watching s q
  others : ∀ t, t ≠ .main .monitor → ∀ q, s.pc t ≠ .monitor q

variable {t : Thread (Main Q)} {c : Option (Call F)} {p : Pc F} {e : Effect Kind (Pc F)}

theorem Watching.monitors {q q' : MonitorPc} (h : Watching s q) (hfresh : Fresh (program F) s)
    (hstep : Steps (program F) s (.main .monitor) c (.monitor q') e s')
    (hmoves : Monitors s.shared s.spawned q s'.shared q' e) : Watching s' q' := by
  refine ⟨hstep.self hfresh, ?_, fun n hn => ?_⟩
  · rw [hstep.spawned]
    exact h.recorded.monitors hmoves
  · obtain hsame | ⟨p₀, rfl, hu, -⟩ := hstep.other (u := .task n) (by simp)
    · rw [hsame] at hn
      obtain hid | rfl := hmoves.awaited (h.awaited n hn)
      · exact hid
      · have hdone : done (s.pc (.task n)) = true := hstep.ready
        rw [hdone] at hn
        cases hn
    · rw [Thread.task.inj hu]
      exact hmoves.spawns.1

theorem Watching.moves {q : MonitorPc} (h : Watching s q) (howned : Owned holds s)
    (ht : t ≠ .main .monitor) (hstep : Steps (program F) s t c p e s')
    (hmoves : Moves s.shared (s.pc t) s'.shared p e) : Watching s' q := by
  have hother : ∀ {u}, u ≠ t → s'.pc u = s.pc u := fun hu => hstep.stays hu hmoves.not_spawn
  obtain ⟨hsamples, hrounds, hlaunches⟩ := hmoves.history
  refine ⟨?_, ?_, fun n hn => ?_⟩
  · rw [hother ht.symm]
    exact h.place
  · have hspawned : s'.spawned = s.spawned := by
      rw [hstep.spawned]
      cases e with
      | spawn p₀ => exact absurd rfl (hmoves.not_spawn p₀)
      | _ => rfl
    rw [hspawned]
    refine h.recorded.calls hsamples hrounds hlaunches (fun kind i hi => hmoves.callbacks ?_)
    by_contra hholds
    have hq : holds (s.pc (.main .monitor)) kind = true := by
      rw [h.place]
      cases q with
      | launch =>
        cases hi
        simp [holds]
      | _ => cases hi
    exact ht (howned.unique (Bool.eq_true_of_not_eq_false hholds) hq)
  · by_cases hu : .task n = t
    · apply h.awaited n
      rw [hu]
      exact hstep.not_done
    · rw [hother hu] at hn
      exact h.awaited n hn

theorem inv (hs : Reachable (system F Q) s) : Inv s := by
  induction hs with
  | init h =>
    subst h
    refine ⟨fun _ _ => rfl, ?_, ⟨.sample false, rfl, ?_, ?_⟩, ?_⟩
    · intro kind t
      cases t with
      | task _ => simp [initial, holds]
      | main q => cases q <;> simp [initial, holds, callHolds]
    · refine ⟨rfl, rfl, rfl, ?_, ?_, ?_, ?_⟩
      · intro _ h
        cases h
      · intro _ _ h
        cases h
      · intro _ _ h
        cases h
      · intro _ h
        cases h
    · intro _ h
      cases h
    · intro t ht q
      cases t with
      | task _ => simp [initial]
      | main t =>
        cases t with
        | monitor => exact absurd rfl ht
        | client _ => simp [initial]
  | @step s s' a _ h ih =>
    obtain ⟨p, e, hstep⟩ := step_cases h
    obtain ⟨q, hq⟩ := ih.watching
    have hfresh := hstep.fresh ih.fresh
    have howned := hstep.owned discipline ih.fresh ih.owned
    obtain ⟨q₀, q', hq₀, rfl, hmoves⟩ | ⟨hne, hmoves⟩ := next_moves hstep.next
    · have ht : a.thread = .main .monitor := by
        by_contra ht
        exact ih.others _ ht _ hq₀
      rw [ht] at hstep hq₀
      rw [hq.place, Pc.monitor.injEq] at hq₀
      subst hq₀
      refine ⟨hfresh, howned, ⟨q', hq.monitors ih.fresh hstep hmoves⟩, fun u hu q₀ => ?_⟩
      obtain hsame | ⟨p₀, rfl, -, hnew⟩ := hstep.other hu
      · rw [hsame]
        exact ih.others u hu q₀
      · rw [hnew]
        exact hmoves.spawns.2 q₀
    · have ht : a.thread ≠ .main .monitor := by
        intro ht
        rw [ht] at hne
        exact hne q hq.place
      refine ⟨hfresh, howned, ⟨q, hq.moves ih.owned ht hstep hmoves⟩, fun u hu q₀ => ?_⟩
      by_cases hut : u = a.thread
      · subst hut
        rw [hstep.self ih.fresh]
        exact hmoves.not_monitor q₀
      · rw [hstep.stays hut hmoves.not_spawn]
        exact ih.others u hu q₀

theorem holder_enabled {kind : Kind} (h : holds (s.pc t) kind = true) :
    Enabled (system F Q) s ⟨t, none⟩ := by
  cases hp : s.pc t with
  | finished =>
    rw [hp] at h
    cases h
  | monitor q =>
    have hn : (program F).next s.shared s.spawned (s.pc t) none =
        some ((monitor s.shared s.spawned q).1, .monitor (monitor s.shared s.spawned q).2.1,
          (monitor s.shared s.spawned q).2.2) := by
      rw [hp]
      rfl
    apply enabled_of_ready hn
    rw [hp] at h
    cases q with
    | sample | lock | get | sleep => cases h
    | erase | unlock => rfl
    | launch kind current i futures =>
      simp only [monitor]
      split <;> rfl
  | client q | task _ q =>
    rw [hp] at h
    cases q with
    | outside | registerLock | cancelLock => cases h
    | pushBack | registerUnlock | setNull | cancelUnlock =>
      simp [Enabled, system, Program.system, Program.step, hp, program, next, call, Program.ready]

theorem exists_next {m : Members F} {n : Nat} {p : Pc F} (h : done p = false) :
    ∃ c m' p' e, (program F).next m n p c = some (m', p', e) ∧
      ∀ id, e = .join id → ∃ q, p = .monitor q := by
  cases p with
  | finished => cases h
  | monitor q => exact ⟨none, _, _, _, rfl, fun _ _ => ⟨q, rfl⟩⟩
  | client q =>
    cases q with
    | outside => exact ⟨some (.setMounted false), _, _, _, rfl, by simp⟩
    | _ => exact ⟨none, _, _, _, rfl, by simp⟩
  | task _ q => cases q <;> exact ⟨none, _, _, _, rfl, by simp⟩

theorem other_enabled (hs : Reachable (system F Q) s) (ht : t ≠ .main .monitor)
    (hd : done (s.pc t) = false) :
    ∃ u, Relation.ReflTransGen (WaitsFor (program F) s) t u ∧ ∃ c, Enabled (system F Q) s ⟨u, c⟩ := by
  have hinv := inv hs
  obtain ⟨c, m', p', e, hn, hjoin⟩ := exists_next (m := s.shared) (n := s.spawned) hd
  obtain hen | ⟨kind, u, -, hu, hw⟩ | ⟨id, he, -⟩ := enabled_or_waits hn
  · exact ⟨t, .refl, c, hen⟩
  · exact ⟨u, .single hw, none, holder_enabled ((hinv.owned kind u).mp hu)⟩
  · obtain ⟨q, hq⟩ := hjoin id he
    exact absurd hq (hinv.others t ht q)

theorem someone_enabled (hs : Reachable (system F Q) s) (hd : done (s.pc t) = false) :
    ∃ u, Relation.ReflTransGen (WaitsFor (program F) s) t u ∧ ∃ c, Enabled (system F Q) s ⟨u, c⟩ := by
  by_cases ht : t = .main .monitor
  · obtain ⟨c, m', p', e, hn, -⟩ := exists_next (m := s.shared) (n := s.spawned) hd
    obtain hen | ⟨kind, u, -, hu, hw⟩ | ⟨id, -, hid, hw⟩ := enabled_or_waits hn
    · exact ⟨t, .refl, c, hen⟩
    · exact ⟨u, .single hw, none, holder_enabled (((inv hs).owned kind u).mp hu)⟩
    · obtain ⟨u, hu, hen⟩ := other_enabled hs (by simp) hid
      exact ⟨u, .head hw hu, hen⟩
  · exact other_enabled hs ht hd

/-- The rounds are the edges of the samples and do not overlap, and nobody is
stuck: a thread that is not done can go on, or waits in the end for one that can. -/
structure RoundsExact (s : MonitorState F Q) : Prop where
  alternate : ∀ i round, s.shared.rounds[i]? = some round →
    round.kind = if i % 2 = 0 then .mount else .unmount
  edges : ∀ q, s.pc (.main .monitor) = .monitor q →
    s.shared.rounds.map Round.kind ++ pending q = edges false s.shared.samples
  launched : ∀ q, s.pc (.main .monitor) = .monitor q → ∀ r round, s.shared.rounds[r]? = some round →
    (launching q = none ∨ r + 1 < s.shared.rounds.length →
      launchedIn s.shared r = launched round.callbacks) ∧
      ∀ kind i, launching q = some (kind, i) → r + 1 = s.shared.rounds.length →
        launchedIn s.shared r = launched (round.callbacks.take i)
  tasks : s.shared.launches.length = s.spawned ∧ ∀ x ∈ s.shared.launches, x.1 < s.shared.rounds.length
  finished : ∀ n r f, s.shared.launches[n]? = some (r, f) → r + 1 < s.shared.rounds.length →
    done (s.pc (.task n)) = true
  progress : ∀ t, done (s.pc t) = false →
    ∃ u, Relation.ReflTransGen (WaitsFor (program F) s) t u ∧ ∃ c, Enabled (system F Q) s ⟨u, c⟩

theorem monitor_roundsExact (hs : Reachable (system F Q) s) : RoundsExact s := by
  obtain ⟨q, hq⟩ := (inv hs).watching
  have hrec := hq.recorded
  have hplace : ∀ q', s.pc (.main .monitor) = .monitor q' → q' = q := by
    intro q' hq'
    rw [hq.place, Pc.monitor.injEq] at hq'
    exact hq'.symm
  refine ⟨fun i round hi => ?_, fun q' hq' => ?_,
    fun q' hq' r round hr => ⟨fun hcase => ?_, fun kind i hi hlast => ?_⟩,
    ⟨hrec.launches, hrec.rounds⟩, fun n r f hn hr => ?_, fun t ht => someone_enabled hs ht⟩
  · have hedge : (MountMonitorRounds.edges false s.shared.samples)[i]? = some round.kind := by
      rw [← hrec.edges, List.getElem?_append_left, List.getElem?_map, hi, Option.map_some]
      rw [List.length_map]
      exact (List.getElem?_eq_some_iff.mp hi).1
    exact edges_alternate hedge
  · rw [hplace q' hq']
    exact hrec.edges
  · rw [hplace q' hq'] at hcase
    exact hrec.complete r round hr (fun hne => hcase.resolve_left hne)
  · rw [hplace q' hq'] at hi
    obtain ⟨hround, hdone⟩ := hrec.current kind i hi
    have hr' : r = s.shared.rounds.length - 1 := by omega
    rw [List.getLast?_eq_getElem?, ← hr', hr, Option.some.injEq] at hround
    rw [hr', hdone, hround]
  · by_contra hd
    obtain ⟨f', hf'⟩ := hrec.futures n (hq.awaited n (Bool.eq_false_of_not_eq_true hd))
    rw [hn, Option.some.injEq, Prod.mk.injEq] at hf'
    omega

end Step

def nestedRun : List (Action (Main Unit) (Option (Call Unit))) :=
  [⟨.main (.client ()), some (registerMountCallback ())⟩] ++
    List.replicate 3 ⟨.main (.client ()), none⟩ ++
    [⟨.main (.client ()), some (.setMounted true)⟩] ++ List.replicate 5 ⟨.main .monitor, none⟩ ++
    [⟨.task 0, some (registerUnmountCallback ())⟩] ++ List.replicate 4 ⟨.task 0, none⟩ ++
    List.replicate 4 ⟨.main .monitor, none⟩

theorem monitor_roundsExact_nested :
    ∃ s, Reachable (system Unit Unit) s ∧ RoundsExact s ∧ s.shared.launches = [(0, ())] ∧
      s.shared.rounds.map Round.kind = [.mount] ∧ s.shared.callbacks .unmount = [some ()] ∧
      s.pc (.task 0) = .finished ∧ s.pc (.main .monitor) = .monitor (.sample true) := by
  obtain ⟨s, hs, h⟩ : ∃ s, Reachable (system Unit Unit) s ∧ s.shared.launches = [(0, ())] ∧
      s.shared.rounds.map Round.kind = [.mount] ∧ s.shared.callbacks .unmount = [some ()] ∧
      s.pc (.task 0) = .finished ∧ s.pc (.main .monitor) = .monitor (.sample true) :=
    exists_reachable rfl nestedRun (by decide +kernel)
  exact ⟨s, hs, monitor_roundsExact hs, h⟩

end RoblSampleCodes.MountMonitorRounds
