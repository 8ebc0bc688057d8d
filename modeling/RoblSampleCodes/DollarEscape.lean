import RoblSampleCodes.DoubleQuotes

namespace RoblSampleCodes.DollarEscape

open ByteMemory DoubleQuotes

def pwLength : Nat := 32

/-- The memory from `password` on, `password_length`, and the number of bytes from `password` on
that the loop has reached. -/
structure State where
  mem : Memory
  passwordLength : Nat
  reach : Nat

def State.read (s : State) (i : Nat) : State := { s with reach := max s.reach (i + 1) }

def State.escape (s : State) (i : Nat) : State where
  mem := Function.update (memmove s.mem (i + 1) i (s.passwordLength - i + 1)) i backslash
  passwordLength := s.passwordLength + 1
  reach := max s.reach (i + 1 + (s.passwordLength - i + 1))

/-- The loop, which is `none` when the fuel runs out. -/
def escapeLoop : Nat → Nat → State → Option State
  | 0, _, _ => none
  | fuel + 1, i, s =>
    if i < s.passwordLength then
      if s.mem i = dollar then escapeLoop fuel (i + 1 + 1) ((s.read i).escape i)
      else escapeLoop fuel (i + 1) (s.read i)
    else some s

def placed (rest : Memory) (password : List Byte) : Memory :=
  fun a => if a < pwLength + 1 then ofList password a else rest a

def strlen (mem : Memory) : Nat := (cString mem 0 (pwLength + 1)).length

def start (rest : Memory) (password : List Byte) : State :=
  ⟨placed rest password, strlen (placed rest password), 0⟩

def escaped (text : List Byte) : List Byte :=
  text.flatMap fun c => if c = dollar then [backslash, c] else [c]

def extent (rest : List Byte) (n : Nat) : Nat :=
  if 0 < rest.count dollar then n + rest.count dollar + 1 else if rest = [] then 0 else n

theorem escaped_cons (c : Byte) (text : List Byte) :
    escaped (c :: text) = (if c = dollar then [backslash, c] else [c]) ++ escaped text := rfl

theorem length_escaped (text : List Byte) : (escaped text).length = text.length + text.count dollar := by
  induction text with
  | nil => rfl
  | cons c text ih =>
    rw [escaped_cons, List.length_append, ih, List.length_cons, List.count_cons]
    by_cases hc : c = dollar
    · simp [hc]
      omega
    · simp [hc]
      omega

variable {s : State} {front back : List Byte}

theorem holds_escape (h : Holds s.mem 0 (front ++ (dollar :: back ++ [0])))
    (hlen : s.passwordLength = front.length + (back.length + 1)) :
    Holds (s.escape front.length).mem 0 (front ++ [backslash, dollar] ++ (back ++ [0])) := by
  obtain ⟨hfront, hback⟩ := holds_append.mp h
  rw [Nat.zero_add] at hback
  have hmoved := holds_memmove hback (front.length + 1)
  have hn : s.passwordLength - front.length + 1 = (dollar :: back ++ [0]).length := by
    simp
    omega
  have hsplit : front ++ [backslash, dollar] ++ (back ++ [0]) =
      front ++ [backslash] ++ (dollar :: back ++ [0]) := by
    simp
  rw [hsplit, holds_append, holds_append, List.length_append, List.length_singleton, Nat.zero_add,
    Nat.zero_add]
  refine ⟨⟨hfront.congr fun a _ ha => ?_, ?_⟩, ?_⟩
  · rw [Nat.zero_add] at ha
    exact (Function.update_of_ne ha.ne ..).trans (memmove_of_lt (by omega))
  · intro k hk
    obtain rfl : k = 0 := by simpa using hk
    exact Function.update_self ..
  · refine hmoved.congr fun a ha _ => ?_
    rw [State.escape, hn]
    exact Function.update_of_ne (by omega) ..

theorem escape_of_lt {a : Nat} (h : front.length + (back.length + 1) + 1 < a)
    (hlen : s.passwordLength = front.length + (back.length + 1)) :
    (s.escape front.length).mem a = s.mem a :=
  (Function.update_of_ne (by omega) ..).trans (memmove_of_le (by omega))

structure Escapes (s t : State) (front back : List Byte) : Prop where
  holds : Holds t.mem 0 (front ++ (escaped back ++ [0]))
  after : ∀ a, front.length + (escaped back).length < a → t.mem a = s.mem a
  reach : t.reach = max s.reach (extent back (front.length + back.length))

theorem Escapes.keep {t : State} {c : Byte} (hc : c ≠ dollar)
    (h : Escapes (s.read front.length) t (front ++ [c]) back) : Escapes s t front (c :: back) := by
  obtain ⟨hholds, hafter, hreach⟩ := h
  rw [List.length_append, List.length_singleton] at hafter hreach
  have hescaped : escaped (c :: back) = c :: escaped back := by
    rw [escaped_cons, if_neg hc, List.singleton_append]
  refine ⟨?_, fun a ha => ?_, ?_⟩
  · rw [hescaped]
    rwa [List.append_assoc] at hholds
  · rw [hescaped, List.length_cons] at ha
    exact hafter a (by omega)
  · rw [hreach, extent, extent, List.length_cons, List.count_cons_of_ne hc]
    simp only [State.read, reduceCtorEq, if_false]
    split
    · omega
    · split
      · rename_i hnil
        rw [hnil, List.length_nil]
        omega
      · omega

theorem Escapes.grow {t : State} (hlen : s.passwordLength = front.length + (back.length + 1))
    (h : Escapes ((s.read front.length).escape front.length) t (front ++ [backslash, dollar]) back) :
    Escapes s t front (dollar :: back) := by
  obtain ⟨hholds, hafter, hreach⟩ := h
  have hfront : (front ++ [backslash, dollar]).length = front.length + 2 := by simp
  rw [hfront] at hafter hreach
  have hescaped : escaped (dollar :: back) =
      backslash :: dollar :: escaped back := by
    rw [escaped_cons, if_pos rfl, List.cons_append, List.singleton_append]
  refine ⟨?_, fun a ha => ?_, ?_⟩
  · rw [hescaped]
    rwa [List.append_assoc] at hholds
  · rw [hescaped, List.length_cons, List.length_cons] at ha
    rw [hafter a (by omega)]
    exact escape_of_lt (by rw [length_escaped] at ha; omega) hlen
  · rw [hreach, extent, extent, List.length_cons, List.count_cons_self, if_pos (Nat.succ_pos _)]
    simp only [State.read, State.escape, hlen]
    split
    · omega
    · split <;> omega

theorem escapeLoop_eq (h : Holds s.mem 0 (front ++ (back ++ [0])))
    (hlen : s.passwordLength = front.length + back.length) :
    ∃ t, (∀ fuel, back.length < fuel → escapeLoop fuel front.length s = some t) ∧
      Escapes s t front back := by
  induction back generalizing front s with
  | nil =>
    refine ⟨s, fun fuel hfuel => ?_, h, fun _ _ => rfl, (Nat.max_zero _).symm⟩
    obtain ⟨fuel, rfl⟩ := Nat.exists_eq_succ_of_ne_zero (Nat.ne_of_gt hfuel)
    rw [escapeLoop, if_neg (by rw [hlen, List.length_nil]; omega)]
  | cons c back ih =>
    have hc : s.mem front.length = c := by
      have hback := (holds_append.mp h).2 0 (by simp)
      simpa using hback
    rw [List.length_cons] at hlen
    by_cases hdollar : c = dollar
    · subst hdollar
      have hheld : Holds ((s.read front.length).escape front.length).mem 0
          (front ++ [backslash, dollar] ++ (back ++ [0])) := holds_escape h hlen
      obtain ⟨t, ht, hescapes⟩ := ih hheld (by simp [State.escape, State.read]; omega)
      refine ⟨t, fun fuel hfuel => ?_, hescapes.grow hlen⟩
      rw [List.length_cons] at hfuel
      obtain ⟨fuel, rfl⟩ := Nat.exists_eq_succ_of_ne_zero (by omega : fuel ≠ 0)
      have hrest := ht fuel (by omega)
      rw [List.length_append] at hrest
      rw [escapeLoop, if_pos (by omega), if_pos hc]
      exact hrest
    · have hheld : Holds (s.read front.length).mem 0 (front ++ [c] ++ (back ++ [0])) := by
        rw [List.append_assoc]
        exact h
      obtain ⟨t, ht, hescapes⟩ := ih hheld (by simp [State.read]; omega)
      refine ⟨t, fun fuel hfuel => ?_, hescapes.keep hdollar⟩
      rw [List.length_cons] at hfuel
      obtain ⟨fuel, rfl⟩ := Nat.exists_eq_succ_of_ne_zero (by omega : fuel ≠ 0)
      have hrest := ht fuel (by omega)
      rw [List.length_append] at hrest
      rw [escapeLoop, if_pos (by omega), hc, if_neg hdollar]
      exact hrest

section Password

variable {password : List Byte}

theorem holds_placed (rest : Memory) (hlen : password.length ≤ pwLength) :
    Holds (placed rest password) 0 (password ++ [0]) := by
  intro k hk
  rw [List.length_append, List.length_singleton] at hk
  rw [Nat.zero_add, placed, if_pos (by omega), ofList]
  by_cases hlt : k < password.length
  · rw [List.getD_eq_getElem _ _ hlt, List.getElem_append_left hlt]
  · obtain rfl : k = password.length := by omega
    rw [List.getD_eq_default _ _ le_rfl, List.getElem_concat_length rfl]

theorem strlen_placed (rest : Memory) (hnul : 0 ∉ password) (hlen : password.length ≤ pwLength) :
    strlen (placed rest password) = password.length := by
  have htext : cString (placed rest password) 0 (pwLength + 1) = password := by
    have hread : readString (placed rest password) (pwLength + 1) 0 = some password :=
      readString_of_holds (holds_placed rest hlen) hnul (by simp; omega)
    rw [readString] at hread
    split at hread
    · exact Option.some.inj hread
    · cases hread
  rw [strlen, htext]

theorem exists_escapes (rest : Memory) (hnul : 0 ∉ password) (hlen : password.length ≤ pwLength) :
    ∃ t, (∀ fuel, password.length < fuel → escapeLoop fuel 0 (start rest password) = some t) ∧
      Escapes (start rest password) t [] password := by
  have hstart : (start rest password).passwordLength = ([] : List Byte).length + password.length := by
    rw [start, strlen_placed rest hnul hlen, List.length_nil, Nat.zero_add]
  exact escapeLoop_eq (holds_placed rest hlen) hstart

/-- The loop ends. It stays within the buffer just if there is room for the backslashes, and then
the buffer has the escaped password. -/
theorem escapeLoop_fits (rest : Memory) (hnul : 0 ∉ password) (hlen : password.length ≤ pwLength) :
    ∃ t, (∀ fuel, password.length < fuel → escapeLoop fuel 0 (start rest password) = some t) ∧
      (t.reach ≤ pwLength + 1 ↔ password.length + password.count dollar ≤ pwLength) ∧
      (password.length + password.count dollar ≤ pwLength →
        Holds t.mem 0 (escaped password ++ [0]) ∧
          ∀ a, (escaped password).length < a → t.mem a = (start rest password).mem a) := by
  obtain ⟨t, ht, hholds, hafter, hreach⟩ := exists_escapes rest hnul hlen
  rw [List.length_nil, Nat.zero_add] at hreach
  rw [List.nil_append] at hholds
  refine ⟨t, ht, ?_, fun _ => ⟨hholds, fun a ha => hafter a (by rwa [List.length_nil, Nat.zero_add])⟩⟩
  rw [hreach, start, Nat.zero_max, extent]
  split
  · omega
  · split <;> omega

def sample : List Byte := ascii "EA$$$w1<"

theorem escapeLoop_fits_sample :
    (∃ t, (∀ fuel, sample.length < fuel → escapeLoop fuel 0 (start (fun _ => 7) sample) = some t) ∧
      (t.reach ≤ pwLength + 1 ↔ sample.length + sample.count dollar ≤ pwLength) ∧
      (sample.length + sample.count dollar ≤ pwLength →
        Holds t.mem 0 (escaped sample ++ [0]) ∧
          ∀ a, (escaped sample).length < a → t.mem a = (start (fun _ => 7) sample).mem a)) ∧
      sample.length + sample.count dollar ≤ pwLength ∧ escaped sample = ascii "EA\\$\\$\\$w1<" :=
  ⟨escapeLoop_fits (fun _ => 7) (by decide) (by decide), by decide, by decide⟩

end Password

end RoblSampleCodes.DollarEscape
