import RoblSampleCodes.CommandCapture

namespace RoblSampleCodes.RunningVersion

open ByteMemory CommandCapture

def isSpace (c : Byte) : Bool := c = 32 || 9 ≤ c && c ≤ 13

def isDigit (c : Byte) : Bool := 48 ≤ c && c ≤ 57

def nextWord (stream : List Byte) : List Byte × List Byte :=
  let word := stream.dropWhile isSpace
  (word.takeWhile (!isSpace ·), word.dropWhile (!isSpace ·))

def value (digits : List Byte) : Nat := digits.foldl (fun n c => 10 * n + (c.toNat - 48)) 0

def sign (s : List Byte) : Bool × List Byte :=
  match s with
  | [] => (false, [])
  | c :: rest => if c = 45 then (true, rest) else if c = 43 then (false, rest) else (false, s)

/-- The conversion `%u`. The number is read like `strtoul` does, in 64 bits and with the
largest value for those above, and stored in 32 bits. -/
def scanUnsigned (s : List Byte) : Option (BitVec 32 × List Byte) :=
  let signed := sign (s.dropWhile isSpace)
  let digits := signed.2.takeWhile isDigit
  let number : BitVec 64 :=
    if 2 ^ 64 ≤ value digits then BitVec.allOnes 64
    else if signed.1 then -BitVec.ofNat 64 (value digits)
    else BitVec.ofNat 64 (value digits)
  if digits = [] then none else some (number.setWidth 32, signed.2.dropWhile isDigit)

def scanText (text s : List Byte) : Option (List Byte) :=
  if text.isPrefixOf s then some (s.drop text.length) else none

structure Version where
  major : BitVec 32
  minor : BitVec 32
  patch : BitVec 32
  rc : BitVec 32
  deriving DecidableEq

def scanVersion (s : List Byte) : Option Version := do
  let (major, s) ← scanUnsigned s
  let s ← scanText (ascii ".") s
  let (minor, s) ← scanUnsigned s
  let s ← scanText (ascii ".") s
  let (patch, s) ← scanUnsigned s
  let s ← scanText (ascii "-rc.") s
  let (rc, _) ← scanUnsigned s
  return ⟨major, minor, patch, rc⟩

def pack (version : Version) : BitVec 32 :=
  version.major <<< 24 ||| version.minor <<< 16 ||| version.patch <<< 8 ||| version.rc

/-- The body of the loop, which returns for a line of the package with a version. -/
def lineVersion (line : List Byte) : Option (BitVec 32) :=
  let decoStr := nextWord line
  let pkgName := nextWord decoStr.2
  let version := nextWord pkgName.2
  if pkgName.1 = ascii "copilot" then (scanVersion (cStr version.1)).map pack else none

def getline (stream : List Byte) : Option (List Byte) :=
  if stream = [] then none else some (stream.takeWhile (· ≠ newline))

/-- The loop over the lines, or `none` when the fuel runs out. Each turn reads from a new
stream of the result. -/
def versionLoop : Nat → List Byte → Option (BitVec 32)
  | 0, _ => none
  | fuel + 1, result =>
    match getline result with
    | none => some 0
    | some line =>
      match lineVersion line with
      | some version => some version
      | none => versionLoop fuel result

def exec (fuel : Nat) (pipe : Option (List Byte)) : Option (List Byte) :=
  match pipe with
  | none => some []
  | some text => execLoop fuel [] text

def getRunningVersion (fuel : Nat) (pipe : Option (List Byte)) : Option (BitVec 32) :=
  (exec fuel pipe).bind fun result => if result = [] then some 0 else versionLoop fuel result

def firstVersion (text : List Byte) : BitVec 32 := ((text.splitOn newline).findSome? lineVersion).getD 0

def firstLine (text : List Byte) : List Byte := text.takeWhile (· ≠ newline)

theorem splitOn_eq_cons (text : List Byte) : ∃ rest, text.splitOn newline = firstLine text :: rest := by
  induction text with
  | nil => exact ⟨[], rfl⟩
  | cons c text ih =>
    obtain ⟨rest, hrest⟩ := ih
    rw [List.splitOn_eq_splitOnP] at *
    rw [List.splitOnP_cons_eq_if_modifyHead, firstLine]
    by_cases hc : c = newline
    · exact ⟨_, by rw [if_pos (by simp [hc]), List.takeWhile_cons_of_neg (by simp [hc])]⟩
    · refine ⟨rest, ?_⟩
      rw [if_neg (by simp [hc]), hrest, List.takeWhile_cons_of_pos (by simp [hc]), List.modifyHead_cons]
      rfl

theorem firstVersion_of_firstLine {text : List Byte} {version : BitVec 32}
    (h : lineVersion (firstLine text) = some version) : firstVersion text = version := by
  obtain ⟨rest, hrest⟩ := splitOn_eq_cons text
  rw [firstVersion, hrest, List.findSome?_cons, h, Option.getD_some]

theorem getline_of_ne_nil {text : List Byte} (h : text ≠ []) : getline text = some (firstLine text) := by
  rw [getline, if_neg h, firstLine]

theorem versionLoop_succ {text : List Byte} (h : text ≠ []) (fuel : Nat) :
    versionLoop (fuel + 1) text = lineVersion (firstLine text) := by
  induction fuel with
  | zero =>
    rw [versionLoop, getline_of_ne_nil h]
    cases hline : lineVersion (firstLine text) <;> simp only [hline, versionLoop]
  | succ fuel ih =>
    rw [versionLoop, getline_of_ne_nil h]
    cases hline : lineVersion (firstLine text) with
    | none => simp only [hline, ih]
    | some version => simp only [hline]

theorem versionLoop_eq_some {text : List Byte} {fuel : Nat} {version : BitVec 32} (h : text ≠ [])
    (hloop : versionLoop fuel text = some version) : lineVersion (firstLine text) = some version := by
  cases fuel with
  | zero => cases hloop
  | succ fuel => rwa [versionLoop_succ h] at hloop

theorem eq_of_exec {fuel : Nat} {pipe : Option (List Byte)} {result : List Byte} (h : 0 ∉ pipe.getD [])
    (hresult : exec fuel pipe = some result) : result = pipe.getD [] := by
  cases pipe with
  | none => exact (Option.some.inj hresult).symm
  | some text => exact eq_of_execLoop h hresult

theorem exec_of_lt {fuel : Nat} {pipe : Option (List Byte)} (h : 0 ∉ pipe.getD [])
    (hfuel : (pipe.getD []).length < fuel) : exec fuel pipe = some (pipe.getD []) := by
  obtain ⟨result, hresult⟩ : ∃ result, exec fuel pipe = some result := by
    cases pipe with
    | none => exact ⟨[], rfl⟩
    | some text => exact exists_execLoop [] hfuel
  rw [hresult, eq_of_exec h hresult]

/-- For a text without NULs, the program returns just when there is no text or its first
line gives a version, which it returns. -/
theorem getRunningVersion_eq_some_iff {pipe : Option (List Byte)} (h : 0 ∉ pipe.getD [])
    (version : BitVec 32) :
    (∃ fuel, getRunningVersion fuel pipe = some version) ↔
      pipe.getD [] = [] ∧ version = 0 ∨
        pipe.getD [] ≠ [] ∧ lineVersion (firstLine (pipe.getD [])) = some version := by
  constructor
  · rintro ⟨fuel, hfuel⟩
    rw [getRunningVersion, Option.bind_eq_some_iff] at hfuel
    obtain ⟨result, hresult, hversion⟩ := hfuel
    rw [eq_of_exec h hresult] at hversion
    split at hversion
    · rename_i hempty
      exact .inl ⟨hempty, (Option.some.inj hversion).symm⟩
    · rename_i hne
      exact .inr ⟨hne, versionLoop_eq_some hne hversion⟩
  · intro hversion
    refine ⟨(pipe.getD []).length + 1, ?_⟩
    rw [getRunningVersion, exec_of_lt h (Nat.lt_succ_self _), Option.bind_some]
    rcases hversion with ⟨hempty, rfl⟩ | ⟨hne, hline⟩
    · rw [if_pos hempty]
    · rw [if_neg hne, versionLoop_succ hne, hline]

theorem firstVersion_nil : firstVersion [] = 0 := rfl

/-- The program returns the version of the first line that has one, or 0, just if there is no
text or already the first line has a version. -/
theorem getRunningVersion_iff (pipe : Option (List Byte)) (h : 0 ∉ pipe.getD []) :
    (∃ fuel, getRunningVersion fuel pipe = some (firstVersion (pipe.getD []))) ↔
      pipe.getD [] = [] ∨ (lineVersion (firstLine (pipe.getD []))).isSome := by
  rw [getRunningVersion_eq_some_iff h]
  constructor
  · rintro (⟨hempty, -⟩ | ⟨-, hline⟩)
    · exact .inl hempty
    · exact .inr (Option.isSome_iff_exists.mpr ⟨_, hline⟩)
  · intro hcondition
    by_cases hempty : pipe.getD [] = []
    · exact .inl ⟨hempty, by rw [hempty, firstVersion_nil]⟩
    · obtain ⟨version, hline⟩ := Option.isSome_iff_exists.mp (hcondition.resolve_left hempty)
      exact .inr ⟨hempty, by rw [firstVersion_of_firstLine hline, hline]⟩

/-- The line that the source expects. -/
theorem getRunningVersion_expected :
    (∃ fuel, getRunningVersion fuel (some (ascii "ii  copilot  0.2.1-rc.16  arm64\n")) =
      some (firstVersion (ascii "ii  copilot  0.2.1-rc.16  arm64\n"))) ∧
      firstVersion (ascii "ii  copilot  0.2.1-rc.16  arm64\n") = 0x00020110 := by
  have hiff := getRunningVersion_iff (some (ascii "ii  copilot  0.2.1-rc.16  arm64\n")) (by decide +kernel)
  exact ⟨hiff.mpr (.inr (by decide +kernel)), by decide +kernel⟩

/-- Another package before it, and the program does not return. -/
theorem getRunningVersion_otherFirst :
    firstVersion (ascii "ii  copilot-dev  1.0  all  x\nii  copilot  0.2.1-rc.16  arm64  y\n") =
      0x00020110 ∧
      ∀ fuel, getRunningVersion fuel
        (some (ascii "ii  copilot-dev  1.0  all  x\nii  copilot  0.2.1-rc.16  arm64  y\n")) = none := by
  refine ⟨by decide +kernel, fun fuel => ?_⟩
  rw [Option.eq_none_iff_forall_ne_some]
  intro version hversion
  have hnone : lineVersion (firstLine (ascii
      "ii  copilot-dev  1.0  all  x\nii  copilot  0.2.1-rc.16  arm64  y\n")) = none := by decide +kernel
  rcases (getRunningVersion_eq_some_iff (by decide +kernel) version).mp ⟨fuel, hversion⟩ with
    ⟨hempty, -⟩ | ⟨-, hline⟩
  · revert hempty
    decide +kernel
  · rw [Option.getD_some, hnone] at hline
    cases hline

end RoblSampleCodes.RunningVersion
