import RoblSampleCodes.RunningVersion

namespace RoblSampleCodes.CommandExec

open ByteMemory CommandCapture

def fgetsInto (size : Nat) (buffer : Memory) (pipe : List Byte) : Option (Memory × List Byte) :=
  (fgets size pipe).map (fun r => (filled size buffer (r.1 ++ [0]), r.2))

/-- The loop of `exec`, or `none` when the fuel runs out or a text does not end in the buffer. -/
def captureLoop : Nat → Memory → List Byte → List Byte → Option (List Byte)
  | 0, _, _, _ => none
  | fuel + 1, buffer, result, pipe =>
    match fgetsInto bufferSize buffer pipe with
    | none => some result
    | some (buffer, pipe) =>
      (readString buffer bufferSize 0).bind (fun text => captureLoop fuel buffer (result ++ text) pipe)

def exec (fuel : Nat) (pipe : Option (List Byte)) : Option (Except String (List Byte)) :=
  match pipe with
  | none => some (.error "popen() failed!")
  | some pipe => (captureLoop fuel (fun _ => 0) [] pipe).map .ok

/-- The `exec` within `GetRunningVersion`. It does not throw, and its buffer starts with any bytes. -/
def execLambda (fuel : Nat) (buffer : Memory) (pipe : Option (List Byte)) : Option (List Byte) :=
  match pipe with
  | none => some []
  | some pipe => captureLoop fuel buffer [] pipe

theorem exists_append_zero (bytes : List Byte) : ∃ rest, bytes ++ [0] = cStr bytes ++ 0 :: rest := by
  induction bytes with
  | nil => exact ⟨[], rfl⟩
  | cons c bytes ih =>
    by_cases hc : c = 0
    · refine ⟨bytes ++ [0], ?_⟩
      rw [cStr, List.takeWhile_cons_of_neg (by simp [hc]), hc]
      rfl
    · obtain ⟨rest, hrest⟩ := ih
      refine ⟨rest, ?_⟩
      rw [List.cons_append, hrest, cStr, cStr, List.takeWhile_cons, if_pos (decide_eq_true hc)]
      rfl

theorem readString_filled {size : Nat} {chunk : List Byte} (h : chunk.length < size) (buffer : Memory) :
    readString (filled size buffer (chunk ++ [0])) size 0 = some (cStr chunk) := by
  have hlen : (chunk ++ [0]).length ≤ size := by
    rw [List.length_append, List.length_singleton]
    exact h
  have hholds := holds_filled size buffer (chunk ++ [0])
  obtain ⟨rest, hrest⟩ := exists_append_zero chunk
  rw [List.take_of_length_le hlen] at hholds
  rw [hrest] at hholds hlen ⊢
  exact readString_of_holds hholds (zero_notMem_cStr chunk) (by rwa [Nat.zero_add])

/-- What the buffer had before does not matter. -/
theorem captureLoop_eq (fuel : Nat) (buffer : Memory) (result pipe : List Byte) :
    captureLoop fuel buffer result pipe = execLoop fuel result pipe := by
  induction fuel generalizing buffer result pipe with
  | zero => rfl
  | succ fuel ih =>
    by_cases hpipe : pipe = []
    · subst hpipe
      rfl
    · have hlen := length_readLine_le (bufferSize - 1) pipe
      rw [execLoop_of_ne_nil hpipe, captureLoop, fgetsInto, fgets, if_neg hpipe, Option.map_some]
      simp only
      rw [readString_filled (Nat.lt_of_le_pred (by decide) hlen), Option.bind_some, ih]

theorem execLambda_eq (fuel : Nat) (buffer : Memory) (pipe : Option (List Byte)) :
    execLambda fuel buffer pipe = RunningVersion.exec fuel pipe := by
  cases pipe with
  | none => rfl
  | some pipe => exact captureLoop_eq fuel buffer [] pipe

/-- Both programs capture the output as it is just if it is free of NULs, and lose bytes otherwise. -/
theorem exec_eq_iff (output : List Byte) :
    ∃ text, (∀ fuel, output.length < fuel → exec fuel (some output) = some (.ok text) ∧
      ∀ buffer, execLambda fuel buffer (some output) = some text) ∧
      (text = output ↔ 0 ∉ output) ∧ (0 ∈ output → text.length < output.length) := by
  obtain ⟨text, htext⟩ := exists_forall_execLoop [] output
  have hloop := htext (output.length + 1) (Nat.lt_succ_self _)
  obtain ⟨_, rfl, hsub, hnot, heq⟩ := captured_of_execLoop hloop
  have hne : 0 ∈ output → text ≠ output := by
    rintro hmem rfl
    exact hnot hmem
  refine ⟨text, fun fuel hfuel => ⟨?_, fun buffer => ?_⟩, ⟨?_, fun h => ?_⟩, fun hmem => ?_⟩
  · rw [exec, captureLoop_eq, htext fuel hfuel, Option.map_some]
  · rw [execLambda_eq]
    exact htext fuel hfuel
  · rintro rfl
    exact hnot
  · exact heq h
  · exact lt_of_le_of_ne hsub.length_le fun hlen => hne hmem (hsub.eq_of_length hlen)

end RoblSampleCodes.CommandExec
