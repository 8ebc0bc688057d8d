import RoblSampleCodes.ByteMemory

namespace RoblSampleCodes.CommandCapture

open ByteMemory

def newline : Byte := 10

def cStr (bytes : List Byte) : List Byte := bytes.takeWhile (· ≠ 0)

def readLine : Nat → List Byte → List Byte × List Byte
  | 0, pipe => ([], pipe)
  | _, [] => ([], [])
  | n + 1, c :: pipe =>
    if c = newline then ([c], pipe) else (c :: (readLine n pipe).1, (readLine n pipe).2)

/-- What `fgets` stores before its NUL, and what is left in the pipe. It is `none` at the end. -/
def fgets (size : Nat) (pipe : List Byte) : Option (List Byte × List Byte) :=
  if pipe = [] then none else some (readLine (size - 1) pipe)

def bufferSize : Nat := 128

def execLoop : Nat → List Byte → List Byte → Option (List Byte)
  | 0, _, _ => none
  | fuel + 1, result, pipe =>
    match fgets bufferSize pipe with
    | none => some result
    | some (buffer, pipe) => execLoop fuel (result ++ cStr buffer) pipe

theorem readLine_append (n : Nat) (pipe : List Byte) :
    (readLine n pipe).1 ++ (readLine n pipe).2 = pipe := by
  induction n generalizing pipe with
  | zero => rfl
  | succ n ih =>
    cases pipe with
    | nil => rfl
    | cons c pipe =>
      rw [readLine]
      split
      · rfl
      · rw [List.cons_append, ih]

theorem length_readLine_lt {n : Nat} {pipe : List Byte} (hn : 0 < n) (h : pipe ≠ []) :
    (readLine n pipe).2.length < pipe.length := by
  obtain ⟨n, rfl⟩ := Nat.exists_eq_succ_of_ne_zero hn.ne'
  cases pipe with
  | nil => exact absurd rfl h
  | cons c pipe =>
    have hall := congrArg List.length (readLine_append n pipe)
    rw [List.length_append] at hall
    rw [readLine]
    split
    · exact Nat.lt_succ_self _
    · simp only [List.length_cons]
      omega

theorem length_readLine_le (n : Nat) (pipe : List Byte) : (readLine n pipe).1.length ≤ n := by
  induction n generalizing pipe with
  | zero => exact Nat.le_refl 0
  | succ n ih =>
    cases pipe with
    | nil => exact Nat.zero_le _
    | cons c pipe =>
      rw [readLine]
      split
      · exact Nat.succ_le_succ (Nat.zero_le n)
      · exact Nat.succ_le_succ (ih pipe)

theorem cStr_sublist (bytes : List Byte) : (cStr bytes).Sublist bytes := List.takeWhile_sublist _

theorem zero_notMem_cStr (bytes : List Byte) : 0 ∉ cStr bytes := by
  intro h
  simpa using List.mem_takeWhile_imp h

theorem cStr_of_notMem {bytes : List Byte} (h : 0 ∉ bytes) : cStr bytes = bytes := takeWhile_of_notMem h

theorem execLoop_nil (fuel : Nat) (result : List Byte) : execLoop (fuel + 1) result [] = some result := rfl

theorem execLoop_of_ne_nil {pipe : List Byte} (h : pipe ≠ []) (fuel : Nat) (result : List Byte) :
    execLoop (fuel + 1) result pipe = execLoop fuel
      (result ++ cStr (readLine (bufferSize - 1) pipe).1) (readLine (bufferSize - 1) pipe).2 := by
  rw [execLoop, fgets, if_neg h]

theorem exists_forall_execLoop (result pipe : List Byte) :
    ∃ text, ∀ fuel, pipe.length < fuel → execLoop fuel result pipe = some text := by
  induction hn : pipe.length using Nat.strong_induction_on generalizing result pipe with
  | h n ih =>
    by_cases hpipe : pipe = []
    · subst hpipe
      refine ⟨result, fun fuel hfuel => ?_⟩
      obtain ⟨fuel, rfl⟩ := Nat.exists_eq_succ_of_ne_zero (Nat.ne_zero_of_lt hfuel)
      exact execLoop_nil fuel result
    · have hlt := length_readLine_lt (n := bufferSize - 1) (by decide) hpipe
      obtain ⟨text, htext⟩ := ih _ (hn ▸ hlt) (result ++ cStr (readLine (bufferSize - 1) pipe).1) _ rfl
      refine ⟨text, fun fuel hfuel => ?_⟩
      obtain ⟨fuel, rfl⟩ := Nat.exists_eq_succ_of_ne_zero (Nat.ne_zero_of_lt hfuel)
      rw [execLoop_of_ne_nil hpipe]
      exact htext fuel (by omega)

theorem exists_execLoop {fuel : Nat} {pipe : List Byte} (result : List Byte) (hfuel : pipe.length < fuel) :
    ∃ text, execLoop fuel result pipe = some text := by
  obtain ⟨text, htext⟩ := exists_forall_execLoop result pipe
  exact ⟨text, htext fuel hfuel⟩

theorem captured_of_execLoop {fuel : Nat} {result pipe text : List Byte}
    (h : execLoop fuel result pipe = some text) :
    ∃ captured, text = result ++ captured ∧ captured.Sublist pipe ∧ 0 ∉ captured ∧
      (0 ∉ pipe → captured = pipe) := by
  induction fuel generalizing result pipe with
  | zero => cases h
  | succ fuel ih =>
    by_cases hpipe : pipe = []
    · subst hpipe
      rw [execLoop_nil, Option.some.injEq] at h
      exact ⟨[], by rw [← h, List.append_nil], List.Sublist.refl [], List.not_mem_nil, fun _ => rfl⟩
    · rw [execLoop_of_ne_nil hpipe] at h
      obtain ⟨captured, htext, hsub, hnot, heq⟩ := ih h
      have hsplit := readLine_append (bufferSize - 1) pipe
      generalize readLine (bufferSize - 1) pipe = line at *
      refine ⟨cStr line.1 ++ captured, ?_, ?_, ?_, fun hpipe => ?_⟩
      · rw [htext, List.append_assoc]
      · rw [← hsplit]
        exact (cStr_sublist line.1).append hsub
      · rw [List.mem_append, not_or]
        exact ⟨zero_notMem_cStr _, hnot⟩
      · rw [← hsplit, List.mem_append, not_or] at hpipe
        rw [cStr_of_notMem hpipe.1, heq hpipe.2, hsplit]

/-- A text without NULs is captured as it is. -/
theorem eq_of_execLoop {fuel : Nat} {result pipe text : List Byte} (h : 0 ∉ pipe)
    (htext : execLoop fuel result pipe = some text) : text = result ++ pipe := by
  obtain ⟨captured, rfl, -, -, heq⟩ := captured_of_execLoop htext
  rw [heq h]

end RoblSampleCodes.CommandCapture
