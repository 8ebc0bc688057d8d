import RoblSampleCodes.TransitionSystem

namespace RoblSampleCodes.SegmentHandshake

open TransitionSystem

abbrev Byte := BitVec 8

def size : ℕ := 27

def letter (i : ℕ) : Byte := BitVec.ofNat 8 (97 + i)

def star : Byte := 42

def newline : Byte := 10

inductive ServerPc
  | store (i : ℕ)
  | wait
  | done
  deriving DecidableEq

/-- The client reads a byte to test it, and again to print it. -/
inductive ClientPc
  | test (i : ℕ)
  | put (i : ℕ)
  | newline
  | star
  | done
  deriving DecidableEq

structure State where
  mem : ℕ → Byte
  server : ServerPc
  client : ClientPc
  printed : List Byte

inductive Party
  | server
  | client
  deriving DecidableEq

/-- The letters up to z, then the NUL. The server polls until it finds the star. -/
def server (s : State) : ServerPc → Option State
  | .store i =>
    if size ≤ i then none
    else if 97 + i ≤ 122 then
      some { s with mem := Function.update s.mem i (letter i), server := .store (i + 1) }
    else some { s with mem := Function.update s.mem i 0, server := .wait }
  | .wait => if s.mem 0 = star then some { s with server := .done } else none
  | .done => none

def client (s : State) : ClientPc → Option State
  | .test i =>
    if size ≤ i then none
    else if s.mem i ≠ 0 then some { s with client := .put i }
    else some { s with client := .newline }
  | .put i =>
    if size ≤ i then none
    else some { s with printed := s.printed ++ [s.mem i], client := .test (i + 1) }
  | .newline => some { s with printed := s.printed ++ [newline], client := .star }
  | .star => some { s with mem := Function.update s.mem 0 star, client := .done }
  | .done => none

def initial (segment : ℕ → Byte) : State := ⟨segment, .store 0, .test 0, []⟩

/-- The two programs on a segment that exists already, with what is in it. -/
def system (segment : ℕ → Byte) : System State Party where
  init s := s = initial segment
  step s
    | .server => server s s.server
    | .client => client s s.client

def ServerPc.stored : ServerPc → ℕ
  | .store i => i
  | .wait | .done => size

inductive Moves (s : State) : Party → State → Prop
  | letter {i : ℕ} (hs : s.server = .store i) (hi : i < 26) :
      Moves s .server { s with mem := Function.update s.mem i (letter i), server := .store (i + 1) }
  | nul (hs : s.server = .store 26) :
      Moves s .server { s with mem := Function.update s.mem 26 0, server := .wait }
  | found (hs : s.server = .wait) (hstar : s.mem 0 = star) : Moves s .server { s with server := .done }
  | nonzero {i : ℕ} (hc : s.client = .test i) (hi : i < size) (hm : s.mem i ≠ 0) :
      Moves s .client { s with client := .put i }
  | zero {i : ℕ} (hc : s.client = .test i) (hi : i < size) (hm : s.mem i = 0) :
      Moves s .client { s with client := .newline }
  | put {i : ℕ} (hc : s.client = .put i) (hi : i < size) :
      Moves s .client { s with printed := s.printed ++ [s.mem i], client := .test (i + 1) }
  | newline (hc : s.client = .newline) :
      Moves s .client { s with printed := s.printed ++ [newline], client := .star }
  | star (hc : s.client = .star) :
      Moves s .client { s with mem := Function.update s.mem 0 star, client := .done }

theorem step_moves {segment : ℕ → Byte} {s s' : State} {a : Party}
    (h : (system segment).step s a = some s') : Moves s a s' := by
  cases a with
  | server =>
    change server s s.server = some s' at h
    cases hs : s.server with
    | store i =>
      simp only [hs, server, Option.ite_none_left_eq_some, not_le] at h
      obtain ⟨hi, h⟩ := h
      split at h <;> rename_i hz <;> cases h
      · exact .letter hs (by omega)
      · obtain rfl : i = 26 := by
          unfold size at hi
          omega
        exact .nul hs
    | wait =>
      simp only [hs, server, Option.ite_none_right_eq_some] at h
      obtain ⟨hstar, ⟨⟩⟩ := h
      exact .found hs hstar
    | done =>
      rw [hs] at h
      cases h
  | client =>
    change client s s.client = some s' at h
    cases hc : s.client with
    | test i =>
      simp only [hc, client, Option.ite_none_left_eq_some, not_le] at h
      obtain ⟨hi, h⟩ := h
      split at h <;> rename_i hm <;> cases h
      · exact .nonzero hc hi hm
      · exact .zero hc hi (not_not.mp hm)
    | put i =>
      simp only [hc, client, Option.ite_none_left_eq_some, not_le] at h
      obtain ⟨hi, ⟨⟩⟩ := h
      exact .put hc hi
    | newline =>
      rw [hc] at h
      cases h
      exact .newline hc
    | star =>
      rw [hc] at h
      cases h
      exact .star hc
    | done =>
      rw [hc] at h
      cases h

/-- The characters before the newline. Each is a letter, or was in the segment before. -/
def IsText (segment : ℕ → Byte) (text : List Byte) : Prop :=
  ∀ j c, text[j]? = some c → c ≠ 0 ∧ (c = letter j ∨ c = segment j)

theorem isText_append {segment : ℕ → Byte} {text : List Byte} {c : Byte} (h : IsText segment text)
    (hc : c ≠ 0) (hfrom : c = letter text.length ∨ c = segment text.length) :
    IsText segment (text ++ [c]) := by
  intro j x hx
  rw [List.getElem?_append] at hx
  split at hx
  · exact h j x hx
  · obtain ⟨hj, rfl⟩ := List.getElem?_eq_some_iff.mp hx
    rw [List.length_singleton] at hj
    obtain rfl : j = text.length := by omega
    exact ⟨by simpa using hc, by simpa using hfrom⟩

def Printed (segment : ℕ → Byte) (mem : ℕ → Byte) (printed : List Byte) : ClientPc → Prop
  | .test i => i ≤ 26 ∧ printed.length = i ∧ IsText segment printed
  | .put i => i < 26 ∧ mem i ≠ 0 ∧ printed.length = i ∧ IsText segment printed
  | .newline => printed.length ≤ 26 ∧ IsText segment printed
  | .star | .done => ∃ text, printed = text ++ [newline] ∧ text.length ≤ 26 ∧ IsText segment text

structure Inv (segment : ℕ → Byte) (s : State) : Prop where
  stored : ∀ i, s.server = .store i → i ≤ 26
  last : s.mem 26 = 0
  bytes : ∀ j < 26, (j = 0 → s.client ≠ .done) →
    s.mem j = if j < s.server.stored then letter j else segment j
  printed : Printed segment s.mem s.printed s.client

variable {segment : ℕ → Byte} {s s' : State}

theorem letter_ne_zero {i : ℕ} (hi : i < 26) : letter i ≠ 0 := by
  intro h
  have hnat : 97 + i = 0 := by
    have hval := congrArg BitVec.toNat h
    rw [letter, BitVec.toNat_ofNat, Nat.mod_eq_of_lt (by omega)] at hval
    exact hval
  omega

theorem Printed.store {mem : ℕ → Byte} {printed : List Byte} {p : ClientPc} {i : ℕ} {x : Byte}
    (h : Printed segment mem printed p) (hx : i < 26 → x ≠ 0) :
    Printed segment (Function.update mem i x) printed p := by
  cases p with
  | put j =>
    obtain ⟨hj, hm, hrest⟩ := h
    refine ⟨hj, ?_, hrest⟩
    by_cases hij : j = i
    · subst hij
      rw [Function.update_self]
      exact hx hj
    · rwa [Function.update_of_ne hij]
  | _ => exact h

theorem Inv.step {a : Party} (h : Inv segment s) (hm : Moves s a s') : Inv segment s' := by
  cases hm with
  | @letter i hs hi =>
    refine ⟨?_, ?_, fun j hj hclient => ?_, h.printed.store fun hlt => letter_ne_zero hlt⟩
    · rintro k ⟨⟩
      omega
    · exact (Function.update_of_ne (by omega) ..).trans h.last
    · have hold := h.bytes j hj hclient
      rw [hs] at hold
      change Function.update s.mem i _ j = if j < i + 1 then letter j else segment j
      by_cases hij : j = i
      · rw [hij, Function.update_self, if_pos (Nat.lt_succ_self i)]
      · rw [Function.update_of_ne hij, hold]
        exact if_congr (by rw [ServerPc.stored]; omega) rfl rfl
  | nul hs =>
    have hlast : Function.update s.mem 26 0 26 = 0 := Function.update_self ..
    refine ⟨nofun, hlast, fun j hj hclient => ?_, h.printed.store fun hlt => ?_⟩
    · have hold := h.bytes j hj hclient
      rw [hs] at hold
      change Function.update s.mem 26 _ j = if j < size then letter j else segment j
      rw [Function.update_of_ne (by omega), hold]
      exact if_congr (by rw [ServerPc.stored, size]; omega) rfl rfl
    · omega
  | found hs hstar =>
    refine ⟨nofun, h.last, fun j hj hclient => ?_, h.printed⟩
    have hold := h.bytes j hj hclient
    rw [hs] at hold
    exact hold
  | @nonzero i hc hi hm =>
    have hp := h.printed
    rw [hc] at hp
    have hlt : i < 26 := by
      by_contra hge
      obtain rfl : i = 26 := by
        unfold size at hi
        omega
      exact hm h.last
    exact ⟨h.stored, h.last, fun j hj _ => h.bytes j hj (by rw [hc]; nofun), hlt, hm, hp.2.1, hp.2.2⟩
  | @zero i hc hi hm =>
    have hp := h.printed
    rw [hc] at hp
    exact ⟨h.stored, h.last, fun j hj _ => h.bytes j hj (by rw [hc]; nofun), hp.2.1 ▸ hp.1, hp.2.2⟩
  | @put i hc hi =>
    have hp := h.printed
    rw [hc] at hp
    obtain ⟨hlt, hm, hlen, htext⟩ := hp
    have hclient : i = 0 → s.client ≠ .done := fun _ => by rw [hc]; nofun
    have hbyte := h.bytes i hlt hclient
    refine ⟨h.stored, h.last, fun j hj _ => h.bytes j hj (by rw [hc]; nofun), hlt, ?_, ?_⟩
    · rw [List.length_append, hlen, List.length_singleton]
    · refine isText_append htext hm ?_
      rw [hlen, hbyte]
      split
      · exact .inl rfl
      · exact .inr rfl
  | newline hc =>
    have hp := h.printed
    rw [hc] at hp
    exact ⟨h.stored, h.last, fun j hj _ => h.bytes j hj (by rw [hc]; nofun), _, rfl, hp.1, hp.2⟩
  | star hc =>
    have hp := h.printed
    rw [hc] at hp
    have hlast : Function.update s.mem 0 star 26 = s.mem 26 := Function.update_of_ne (by decide) ..
    refine ⟨h.stored, hlast.trans h.last, fun j hj hclient => ?_, hp⟩
    have hne : j ≠ 0 := fun hj0 => hclient hj0 rfl
    have hbyte : Function.update s.mem 0 star j = s.mem j := Function.update_of_ne hne ..
    exact hbyte.trans (h.bytes j hj fun hj0 => absurd hj0 hne)

theorem inv (hnul : segment 26 = 0) (hs : Reachable (system segment) s) : Inv segment s := by
  induction hs with
  | init h =>
    subst h
    refine ⟨?_, hnul, fun j _ _ => rfl, Nat.zero_le _, rfl, fun j c hc => ?_⟩
    · rintro i ⟨⟩
      exact Nat.zero_le _
    · simp [initial] at hc
  | step _ h ih => exact ih.step (step_moves h)

theorem settled (hnul : segment 26 = 0) (hs : Reachable (system segment) s)
    (hb : ∀ a, ¬ Enabled (system segment) s a) :
    s.client = .done ∧ (s.server = .done ∨ s.server = .wait ∧ s.mem 0 ≠ star) := by
  have hinv := inv hnul hs
  have hserver : server s s.server = none := Option.not_isSome_iff_eq_none.mp (hb .server)
  have hclient : client s s.client = none := Option.not_isSome_iff_eq_none.mp (hb .client)
  have hprinted := hinv.printed
  constructor
  · cases hc : s.client with
    | test i =>
      rw [hc] at hclient hprinted
      have hi : ¬ size ≤ i := by
        have hle := hprinted.1
        unfold size
        omega
      simp only [client, if_neg hi] at hclient
      split at hclient <;> cases hclient
    | put i =>
      rw [hc] at hclient hprinted
      have hi : ¬ size ≤ i := by
        have hlt := hprinted.1
        unfold size
        omega
      simp only [client, if_neg hi, reduceCtorEq] at hclient
    | newline | star =>
      rw [hc] at hclient
      cases hclient
    | done => rfl
  · cases hsv : s.server with
    | store i =>
      have hle := hinv.stored i hsv
      have hi : ¬ size ≤ i := by
        unfold size
        omega
      rw [hsv] at hserver
      simp only [server, if_neg hi] at hserver
      split at hserver <;> cases hserver
    | wait =>
      rw [hsv] at hserver
      simp only [server, ite_eq_right_iff, reduceCtorEq, imp_false] at hserver
      exact .inr ⟨rfl, hserver⟩
    | done => exact .inl rfl

def Stranded (s : State) : Prop := s.client = .done ∧ s.server = .wait ∧ s.mem 0 ≠ star

instance (s : State) : Decidable (Stranded s) := inferInstanceAs (Decidable (_ ∧ _))

/-- The client does not store its star before the server has stored its first letter. -/
def InOrder (s : State) (a : Party) : Prop := a = .client → s.client = .star → s.server ≠ .store 0

theorem found_of_inOrder (hs : ReachableBy (system segment) InOrder s) (hc : s.client = .done) :
    s.server ≠ .store 0 ∧ s.mem 0 = star := by
  refine hs.invariant (I := fun s => s.client = .done → s.server ≠ .store 0 ∧ s.mem 0 = star) ?_ ?_ hc
  · rintro u rfl hdone
    cases hdone
  · intro u a v hu horder hv hdone
    have hm := step_moves hv
    cases hm with
    | @letter i hs hi =>
      obtain ⟨hne, hstar⟩ := hu hdone
      refine ⟨nofun, (Function.update_of_ne ?_ ..).trans hstar⟩
      rintro rfl
      exact hne hs
    | nul hs =>
      have hfirst : Function.update u.mem 26 0 0 = u.mem 0 := Function.update_of_ne (by decide) ..
      exact ⟨nofun, hfirst.trans (hu hdone).2⟩
    | found hs hstar => exact ⟨nofun, hstar⟩
    | nonzero | zero | put | newline => cases hdone
    | star hc =>
      have hstar : Function.update u.mem 0 star 0 = star := Function.update_self ..
      exact ⟨horder rfl hc, hstar⟩

def Late (s : State) : Prop :=
  s.client = .done ∧ (s.server = .store 0 ∨ s.server ≠ .done ∧ s.mem 0 ≠ star)

theorem Late.step {a : Party} (h : Late s) (hm : Moves s a s') : Late s' := by
  obtain ⟨hclient, hserver⟩ := h
  have hkept : s.server ≠ .store 0 → s.mem 0 ≠ star := fun hne => (hserver.resolve_left hne).2
  cases hm with
  | @letter i hs hi =>
    refine ⟨hclient, .inr ⟨nofun, ?_⟩⟩
    change Function.update s.mem i (letter i) 0 ≠ star
    by_cases h0 : i = 0
    · subst h0
      rw [Function.update_self]
      decide
    · rw [Function.update_of_ne (fun heq => h0 heq.symm)]
      exact hkept (by rw [hs]; exact fun heq => h0 (ServerPc.store.inj heq))
  | nul hs =>
    have hfirst : Function.update s.mem 26 0 0 = s.mem 0 := Function.update_of_ne (by decide) ..
    exact ⟨hclient, .inr ⟨nofun, hfirst ▸ hkept (by rw [hs]; nofun)⟩⟩
  | found hs hstar => exact absurd hstar (hkept (by rw [hs]; nofun))
  | nonzero hc | zero hc | put hc | newline hc | star hc =>
    rw [hclient] at hc
    cases hc

def ServerPc.remaining : ServerPc → ℕ
  | .store i => 28 - i
  | .wait => 1
  | .done => 0

def ClientPc.remaining : ClientPc → ℕ
  | .test i => 2 * (26 - i) + 3
  | .put i => 2 * (26 - i) + 2
  | .newline => 2
  | .star => 1
  | .done => 0

def remaining (s : State) : ℕ := s.server.remaining + s.client.remaining

theorem step_remaining (hnul : segment 26 = 0) {a : Party} (hs : Reachable (system segment) s)
    (h : (system segment).step s a = some s') : remaining s' < remaining s := by
  have hprinted := (inv hnul hs).printed
  have hm := step_moves h
  unfold remaining
  cases hm with
  | letter hsv | nul hsv | found hsv =>
    rw [hsv]
    simp only [ServerPc.remaining]
    omega
  | put hc =>
    rw [hc] at hprinted ⊢
    have hlt := hprinted.1
    simp only [ClientPc.remaining]
    omega
  | nonzero hc | zero hc | newline hc | star hc =>
    rw [hc]
    simp only [ClientPc.remaining]
    omega

theorem exactCondition (hnul : segment 26 = 0) :
    ExactCondition (system segment) InOrder (fun s => ¬ Stranded s) := by
  refine ⟨fun s hs hstranded => hstranded.2.2 (found_of_inOrder hs hstranded.1).2, ?_⟩
  intro s a s' hs h horder
  simp only [InOrder, not_forall, not_not] at horder
  obtain ⟨rfl, hc, hfirst⟩ := horder
  have hs' : Reachable (system segment) s' := hs.reachable.step h
  have hlate : Late s' := by
    change client s s.client = some s' at h
    rw [hc] at h
    cases h
    exact ⟨rfl, .inl hfirst⟩
  obtain ⟨t, ht, ⟨as, he⟩, hb⟩ := exists_terminal remaining (fun _ _ _ => step_remaining hnul) hs'
  have hend : Late t := exec_induction (fun _ _ _ _ hu hv => hu.step (step_moves hv)) hlate he
  obtain ⟨hdone, hserver | hstranded⟩ := settled hnul ht hb
  · obtain hstore | ⟨hne, -⟩ := hend.2
    · rw [hserver] at hstore
      cases hstore
    · exact absurd hserver hne
  · exact ⟨as, t, he, not_not.mpr ⟨hdone, hstranded⟩⟩

inductive Silent : ClientPc → List Byte → Prop
  | test : Silent (.test 0) []
  | newline : Silent .newline []
  | star : Silent .star [newline]
  | done : Silent .done [newline]

theorem silent (hzero : ∀ i, segment i = 0) (hs : Reachable (system segment) s) :
    (s.server = .store 0 → Silent s.client s.printed) ∧
      (s.client = .done → s.server ≠ .store 0 ∧ s.mem 0 = star ∨ s.printed = [newline]) := by
  induction hs with
  | init h =>
    subst h
    exact ⟨fun _ => .test, fun hdone => by cases hdone⟩
  | @step s s' a hs h ih =>
    obtain ⟨hsilent, hfound⟩ := ih
    have hinv := inv (hzero 26) hs
    have hm := step_moves h
    cases hm with
    | @letter i hsv hi =>
      refine ⟨fun hstore => (by cases hstore), fun hdone => ?_⟩
      obtain ⟨hne, hstar⟩ | hprinted := hfound hdone
      · have h0 : (0 : ℕ) ≠ i := fun heq => hne (heq ▸ hsv)
        have hfirst : Function.update s.mem i (letter i) 0 = s.mem 0 := Function.update_of_ne h0 ..
        exact .inl ⟨nofun, hfirst.trans hstar⟩
      · exact .inr hprinted
    | nul hsv =>
      have hfirst : Function.update s.mem 26 0 0 = s.mem 0 := Function.update_of_ne (by decide) ..
      exact ⟨nofun, fun hdone => (hfound hdone).imp (fun hf => ⟨nofun, hfirst.trans hf.2⟩) id⟩
    | found hsv hstar =>
      exact ⟨nofun, fun hdone => (hfound hdone).imp (fun hf => ⟨nofun, hf.2⟩) id⟩
    | @nonzero i hc hi hmem =>
      refine ⟨fun hstore => ?_, fun hdone => by cases hdone⟩
      have hsil := hsilent hstore
      rw [hc] at hsil
      generalize s.printed = printed at hsil
      cases hsil
      have hbyte := hinv.bytes 0 (by decide) fun _ => by rw [hc]; nofun
      rw [hstore, hzero] at hbyte
      exact absurd hbyte hmem
    | @zero i hc hi hmem =>
      refine ⟨fun hstore => ?_, fun hdone => by cases hdone⟩
      have hsil := hsilent hstore
      rw [hc] at hsil
      generalize s.printed = printed at hsil ⊢
      cases hsil
      exact .newline
    | put hc =>
      refine ⟨fun hstore => ?_, fun hdone => by cases hdone⟩
      have hsil := hsilent hstore
      rw [hc] at hsil
      generalize s.printed = printed at hsil
      cases hsil
    | newline hc =>
      refine ⟨fun hstore => ?_, fun hdone => by cases hdone⟩
      have hsil := hsilent hstore
      rw [hc] at hsil
      generalize s.printed = printed at hsil ⊢
      cases hsil
      exact .star
    | star hc =>
      have hsil : s.server = .store 0 → s.printed = [newline] := by
        intro hstore
        have hsil := hsilent hstore
        rw [hc] at hsil
        generalize s.printed = printed at hsil ⊢
        cases hsil
        rfl
      have hstar : Function.update s.mem 0 star 0 = star := Function.update_self ..
      refine ⟨fun hstore => ?_, fun _ => ?_⟩
      · rw [hsil hstore]
        exact .done
      · by_cases hstore : s.server = .store 0
        · exact .inr (hsil hstore)
        · exact .inl ⟨hstore, hstar⟩

/-- The programs stay within the segment and stop. The server stops waiting just if the client's star comes
after its first letter, and where it waits for ever on a cleared segment the client has printed an empty
line. -/
theorem handshake (hnul : segment 26 = 0) :
    ExactCondition (system segment) InOrder (fun s => ¬ Stranded s) ∧
      ∀ as s, exec (system segment) (initial segment) as = some s →
        as.length ≤ 83 ∧
        ((∀ a, ¬ Enabled (system segment) s a) → (s.server = .done ∨ Stranded s) ∧
          ∃ text, s.printed = text ++ [newline] ∧ text.length ≤ 26 ∧ IsText segment text) ∧
        ((∀ i, segment i = 0) → Stranded s → s.printed = [newline]) := by
  refine ⟨exactCondition hnul, fun as s he => ⟨?_, fun hb => ?_, fun hzero hstranded => ?_⟩⟩
  · have hstep : ∀ u a v, Reachable (system segment) u → (system segment).step u a = some v →
        Reachable (system segment) v ∧ remaining v < remaining u :=
      fun u a v hu hv => ⟨hu.step hv, step_remaining hnul hu hv⟩
    have hlen := length_le_of_measure hstep (.init rfl) he
    have hinit : remaining (initial segment) = 83 := rfl
    omega
  · have hs : Reachable (system segment) s := .exec (.init rfl) he
    obtain ⟨hclient, hserver⟩ := settled hnul hs hb
    have hprinted := (inv hnul hs).printed
    rw [hclient] at hprinted
    exact ⟨hserver.imp id fun hwait => ⟨hclient, hwait⟩, hprinted⟩
  · have hs : Reachable (system segment) s := .exec (.init rfl) he
    exact ((silent hzero hs).2 hstranded.1).resolve_left fun hfound => hstranded.2.2 hfound.2

theorem handshake_cleared :
    ExactCondition (system fun _ => 0) InOrder (fun s => ¬ Stranded s) ∧
      ∃ s, exec (system fun _ => 0) (initial fun _ => 0)
          (List.replicate 3 .client ++ List.replicate 27 .server) = some s ∧
        Stranded s ∧ s.printed = [newline] := by
  have hall := @handshake (fun _ => 0) rfl
  have hend : (exec (system fun _ => 0) (initial fun _ => 0)
      (List.replicate 3 .client ++ List.replicate 27 .server)).any
        (fun s => decide (Stranded s)) = true := by decide +kernel
  obtain ⟨s, he, hs⟩ := (Option.any_eq_true _ _).mp hend
  have hstranded := of_decide_eq_true hs
  exact ⟨hall.1, s, he, hstranded, (hall.2 _ s he).2.2 (fun _ => rfl) hstranded⟩

end RoblSampleCodes.SegmentHandshake
