import RoblSampleCodes.LineScanner
import RoblSampleCodes.Lottery

namespace RoblSampleCodes.LotteryProgram

open ByteMemory LineScanner Lottery SequentialDraw

/-- A file that has been opened. A read may fail, which leaves the rest of it unread. -/
structure File where
  data : List Byte
  unread : List Byte

def File.content (f : File) : List Byte := f.data ++ f.unread

def scanLoop (limit : ℕ) : ℕ → List Byte → Slice (List Byte) → Option (Slice (List Byte))
  | 0, _, _ => none
  | fuel + 1, data, candidates =>
    match scan limit data with
    | some (text, rest) => scanLoop limit fuel rest (candidates.append [text])
    | none => some candidates

/-- The error is that of `os.Open`. The scanner's own error is not looked at. -/
def readCandidates {ε : Type} (limit fuel : ℕ) :
    Except ε File → Option (Except ε (Slice (List Byte)))
  | .error err => some (.error err)
  | .ok file => (scanLoop limit fuel file.data ⟨[], 0, le_rfl⟩).map .ok

def ReturnsAllLines {ε : Type} (limit : ℕ) (file : Except ε File) : Prop :=
  ∃ r, (∃ n, ∀ fuel, n < fuel → readCandidates limit fuel file = some r) ∧
    ∀ f candidates, file = .ok f → r = .ok candidates → candidates.entries = lines f.content

inductive NumError
  | badSyntax
  | outOfRange
  deriving DecidableEq

def parseDigits : ℕ → List Byte → ℕ × Option NumError
  | n, [] => (n, none)
  | n, c :: cs =>
    match digit c with
    | none => (0, some .badSyntax)
    | some d => if 2 ^ 64 ≤ n * 10 + d then (2 ^ 64 - 1, some .outOfRange) else parseDigits (n * 10 + d) cs

def parseUint (s : List Byte) : ℕ × Option NumError :=
  if s = [] then (0, some .badSyntax) else parseDigits 0 s

def parseInt (neg : Bool) (s : List Byte) : ℤ × Option NumError :=
  match parseUint s with
  | (_, some .badSyntax) => (0, some .badSyntax)
  | (un, _) =>
    if ¬ neg ∧ 2 ^ 63 ≤ un then (2 ^ 63 - 1, some .outOfRange)
    else if neg ∧ 2 ^ 63 < un then (-2 ^ 63, some .outOfRange)
    else (if neg then -un else un, none)

def atoi (s : List Byte) : ℤ × Option NumError :=
  if s.head? = some 0x2B then parseInt false s.tail
  else if s.head? = some 0x2D then parseInt true s.tail
  else parseInt false s

structure Output where
  stdout : List (List Byte)
  stderr : List (List Byte)

def invalidArguments : Output := ⟨[], [ascii "Invalid arguments!\nlottery filename count"]⟩

def cannotConvert (count : ℤ) : Output :=
  ⟨[], [ascii "cannot convert count to integer! count: " ++ ascii (toString count)]⟩

def cannotRead (filename : List Byte) : Output :=
  ⟨[], [ascii "cannot read candidates file! " ++ filename]⟩

def printed (winners : List (List Byte)) : Output := ⟨ascii "Winners are...!!!" :: winners, []⟩

/-- What `os.Open` and `rand.Intn` return. As long as candidates are left, the index is that of one
of them. -/
structure Environment (ε : Type) where
  file : List Byte → Except ε File
  limit : ℕ
  indices : ∀ L, Indices L L

/-- The program with its arguments, which is `none` when the fuel runs out. -/
def main {ε : Type} (env : Environment ε) (fuel : ℕ) : List (List Byte) → Option (Except Panic Output)
  | _ :: filename :: number :: _ =>
    match atoi number with
    | (count, some _) => some (.ok (cannotConvert count))
    | (count, none) =>
      (readCandidates env.limit fuel (env.file filename)).map fun
        | .error _ => .ok (cannotRead filename)
        | .ok candidates =>
          (draw [] count (results (env.indices candidates.len)) candidates).map fun r => printed r.1
  | _ => some (.ok invalidArguments)

def Completes {ε : Type} (env : Environment ε) (args : List (List Byte)) : Prop :=
  ∃ out, (∃ n, ∀ fuel, n < fuel → main env fuel args = some (.ok out)) ∧
    (out.stderr ≠ [] ∧ out.stdout = [] ∨
      ∃ winners, out = printed winners ∧ winners.length = (atoi (args.getD 2 [])).1)

variable {ε : Type} {limit : ℕ}

section ReadCandidates

theorem scanLoop_eq (limit : ℕ) (data : List Byte) (candidates : Slice (List Byte)) :
    ∃ s : Slice (List Byte), (∀ fuel, data.length < fuel → scanLoop limit fuel data candidates = some s) ∧
      s.entries = candidates.entries ++ fitting limit data := by
  induction hn : data.length using Nat.strong_induction_on generalizing data candidates with
  | h n ih =>
    subst hn
    rcases scan_cases limit data with ⟨hscan, hfitting⟩ | ⟨text, rest, hscan, hlt, hfitting⟩
    · refine ⟨candidates, fun fuel hfuel => ?_, by rw [hfitting, List.append_nil]⟩
      obtain ⟨fuel, rfl⟩ := Nat.exists_eq_succ_of_ne_zero (Nat.ne_zero_of_lt hfuel)
      rw [scanLoop, hscan]
    · obtain ⟨s, hs, hentries⟩ := ih rest.length hlt rest (candidates.append [text]) rfl
      refine ⟨s, fun fuel hfuel => ?_, ?_⟩
      · obtain ⟨fuel, rfl⟩ := Nat.exists_eq_succ_of_ne_zero (Nat.ne_zero_of_lt hfuel)
        rw [scanLoop, hscan]
        exact hs fuel (by omega)
      · rw [hentries, hfitting, entries_append, List.append_assoc, List.singleton_append]

theorem readCandidates_eq (limit : ℕ) (f : File) : ∃ s : Slice (List Byte),
    (∀ fuel, f.data.length < fuel → readCandidates limit fuel (.ok f : Except ε File) = some (.ok s)) ∧
      s.entries = fitting limit f.data := by
  obtain ⟨s, hs, hentries⟩ := scanLoop_eq limit f.data ⟨[], 0, le_rfl⟩
  refine ⟨s, fun fuel hfuel => ?_, hentries⟩
  rw [readCandidates, hs fuel hfuel, Option.map_some]

theorem returnsAllLines_ok (limit : ℕ) (f : File) : ReturnsAllLines limit (.ok f : Except ε File) ↔
    fitting limit f.data = lines f.content := by
  obtain ⟨s, hs, hentries⟩ := @readCandidates_eq ε limit f
  rw [← hentries]
  constructor
  · rintro ⟨r, ⟨n, hr⟩, hall⟩
    have hfuel := hr (max n f.data.length + 1) (by omega)
    rw [hs _ (by omega), Option.some.injEq] at hfuel
    exact hall f s rfl hfuel.symm
  · intro h
    refine ⟨.ok s, ⟨f.data.length, hs⟩, ?_⟩
    rintro f' candidates hf hr
    obtain rfl := Except.ok.inj hf
    obtain rfl := Except.ok.inj hr
    exact h

/-- The list is complete just if the scanner does not stop before the end of the file. -/
theorem returnsAllLines_iff (limit : ℕ) (file : Except ε File) : ReturnsAllLines limit file ↔
    ∀ f, file = .ok f →
      (∀ line ∈ rawLines f.data, line.length ≤ limit) ∧ Complete f.data f.unread := by
  cases file with
  | error err =>
    refine iff_of_true ⟨.error err, ⟨0, fun _ _ => rfl⟩, fun f _ hf => ?_⟩ fun f hf => ?_
    · cases hf
    · cases hf
  | ok f =>
    rw [returnsAllLines_ok, File.content, fitting_eq_iff]
    constructor
    · intro h f' hf
      obtain rfl := Except.ok.inj hf
      exact h
    · intro h
      exact h f rfl

/-- The scanner stops before a line that is too long for it, and there is no error. -/
theorem not_returnsAllLines : ¬ ∃ limit ≤ maxScanTokenSize,
    ReturnsAllLines limit (.ok ⟨List.replicate (maxScanTokenSize + 1) 0x61, []⟩ : Except Unit File) := by
  rintro ⟨limit, hlimit, h⟩
  have hnotMem : lineFeed ∉ List.replicate (maxScanTokenSize + 1) (0x61 : Byte) := by
    intro hmem
    exact absurd (List.eq_of_mem_replicate hmem) (by decide)
  rw [returnsAllLines_ok, File.content, fitting_eq_iff] at h
  have hraw := h.1 (List.replicate (maxScanTokenSize + 1) 0x61) ?_
  · rw [List.length_replicate] at hraw
    omega
  · rw [rawLines_of_ne_nil (by simp), takeWhile_self hnotMem]
    exact List.mem_cons_self

end ReadCandidates

section Draw

variable {α : Type} {s : Slice α} {L : ℕ} {count : ℤ}

theorem loop_panics {intn : ℕ → ℕ} {turns i : ℕ} {winners : List α} (hturns : s.len < turns)
    (hi : i + turns ≤ winners.length) (hintn : ∀ j < s.len, intn (i + j) < s.len - j) :
    loop intn i turns winners s = .error .intn := by
  induction turns generalizing i winners s with
  | zero => exact absurd hturns (Nat.not_lt_zero _)
  | succ turns ih =>
    rw [loop]
    by_cases hlen : s.len = 0
    · rw [turn, if_pos hlen]
      rfl
    · have hfirst : intn i < s.entries.length := by
        rw [s.length_entries]
        exact hintn 0 (Nat.pos_of_ne_zero hlen)
      have hturn : i < winners.length := by omega
      obtain ⟨t, ht, hentries⟩ := turn_eq hturn (List.getElem?_eq_getElem hfirst)
      have htlen : t.len = s.len - 1 := by
        rw [← t.length_entries, hentries, List.length_eraseIdx_of_lt hfirst, s.length_entries]
      rw [ht]
      change loop intn (i + 1) turns (winners.set i _) t = _
      refine ih (by omega) (by rw [List.length_set]; omega) fun j hj => ?_
      have hnext := hintn (j + 1) (by omega)
      rw [Nat.add_comm j, ← Nat.add_assoc] at hnext
      omega

theorem results_lt (n : Indices L L) {i : ℕ} (h : i < L) : results n i < L - i := by
  rw [results, dif_pos h]
  exact (n ⟨i, h⟩).isLt

theorem draw_completes (zero : α) (n : Indices s.len s.len) (hcount : 0 ≤ count ∧ count ≤ s.len) :
    ∃ winners t, draw zero count (results n) s = .ok (winners, t) ∧ winners.length = count := by
  obtain ⟨k, rfl⟩ := Int.eq_ofNat_of_zero_le hcount.1
  have hk : k ≤ s.len := Int.ofNat_le.mp hcount.2
  have hvalid : Valid s.entries.length ((List.range k).map (results n)) := by
    intro i hi
    rw [List.length_map, List.length_range] at hi
    rw [List.getElem_map, List.getElem_range, s.length_entries]
    exact results_lt n (hi.trans_le hk)
  obtain ⟨winners, r, hpick⟩ := exists_pick_of_valid hvalid
  obtain ⟨t, ht, -⟩ := draw_eq zero hpick
  refine ⟨winners, t, ht, ?_⟩
  rw [length_of_pick hpick, List.length_map, List.length_range]

theorem draw_panics (zero : α) (n : Indices s.len s.len) (hcount : ¬ (0 ≤ count ∧ count ≤ s.len)) :
    ∃ panic, draw zero count (results n) s = .error panic := by
  rw [draw]
  by_cases hneg : count < 0
  · exact ⟨.makeslice, if_pos hneg⟩
  · rw [if_neg hneg]
    refine ⟨.intn, loop_panics (by omega) (by simp) fun j hj => ?_⟩
    rw [Nat.zero_add]
    exact results_lt n hj

end Draw

section Main

variable {env : Environment ε} {args : List (List Byte)}

def Enough (env : Environment ε) (args : List (List Byte)) : Prop :=
  args.length < 3 ∨ (atoi (args.getD 2 [])).2.isSome ∨
    ∀ f, env.file (args.getD 1 []) = .ok f →
      0 ≤ (atoi (args.getD 2 [])).1 ∧ (atoi (args.getD 2 [])).1 ≤ (fitting env.limit f.data).length

theorem completes_of_report {line : List Byte} (h : ∀ fuel, main env fuel args = some (.ok ⟨[], [line]⟩)) :
    Completes env args :=
  ⟨⟨[], [line]⟩, ⟨0, fun fuel _ => h fuel⟩, .inl ⟨List.cons_ne_nil _ _, rfl⟩⟩

theorem completes_of_length_lt (h : args.length < 3) : Completes env args := by
  match args with
  | [] | [_] | [_, _] => exact completes_of_report fun _ => rfl

section Count

variable {name filename number : List Byte} {rest : List (List Byte)} {count : ℤ} {f : File}

theorem main_of_ok (hcount : atoi number = (count, none)) (hfile : env.file filename = .ok f) :
    ∃ s : Slice (List Byte), s.len = (fitting env.limit f.data).length ∧ ∀ fuel, f.data.length < fuel →
      main env fuel (name :: filename :: number :: rest) =
        some ((draw [] count (results (env.indices s.len)) s).map fun r => printed r.1) := by
  obtain ⟨s, hs, hentries⟩ := @readCandidates_eq ε env.limit f
  refine ⟨s, by rw [← hentries, s.length_entries], fun fuel hfuel => ?_⟩
  rw [main, hcount]
  dsimp only
  rw [hfile, hs fuel hfuel, Option.map_some]

theorem completes_iff_of_ok (hcount : atoi number = (count, none)) (hfile : env.file filename = .ok f) :
    Completes env (name :: filename :: number :: rest) ↔
      0 ≤ count ∧ count ≤ (fitting env.limit f.data).length := by
  obtain ⟨s, hlen, hmain⟩ := @main_of_ok ε env name filename number rest count f hcount hfile
  rw [← hlen]
  constructor
  · rintro ⟨out, ⟨n, hout⟩, -⟩
    by_contra hnot
    obtain ⟨panic, hpanic⟩ := draw_panics [] (env.indices s.len) hnot
    have hfuel := hout (max n f.data.length + 1) (by omega)
    rw [hmain _ (by omega), hpanic, Option.some.injEq] at hfuel
    cases hfuel
  · intro h
    obtain ⟨winners, t, hdraw, hwinners⟩ := draw_completes [] (env.indices s.len) h
    refine ⟨printed winners, ⟨f.data.length, fun fuel hfuel => ?_⟩, .inr ⟨winners, rfl, ?_⟩⟩
    · rw [hmain fuel hfuel, hdraw]
      rfl
    · exact hwinners.trans (congrArg Prod.fst hcount).symm

end Count

/-- The program does not panic just if there are enough candidates. -/
theorem completes_iff (env : Environment ε) (args : List (List Byte)) :
    Completes env args ↔ Enough env args := by
  match args with
  | [] | [_] | [_, _] => exact iff_of_true (completes_of_length_lt (by simp)) (.inl (by simp))
  | name :: filename :: number :: rest =>
    rcases hcount : atoi number with ⟨count, _ | err⟩
    · cases hfile : env.file filename with
      | error err =>
        have hmain : ∀ fuel, main env fuel (name :: filename :: number :: rest) =
            some (.ok (cannotRead filename)) := by
          intro fuel
          rw [main, hcount]
          dsimp only
          rw [hfile]
          rfl
        refine iff_of_true (completes_of_report hmain) (.inr (.inr fun f hf => ?_))
        exact absurd (hf.symm.trans hfile) (by simp)
      | ok f =>
        rw [completes_iff_of_ok hcount hfile, Enough]
        simp [hcount, hfile]
    · have hmain : ∀ fuel, main env fuel (name :: filename :: number :: rest) =
          some (.ok (cannotConvert count)) := by
        intro fuel
        rw [main, hcount]
      exact iff_of_true (completes_of_report hmain) (.inr (.inl (congrArg (fun r => r.2.isSome) hcount)))

def sample : Environment Unit where
  file _ := .ok ⟨ascii "Kim\nLee\n", []⟩
  limit := maxScanTokenSize
  indices _ i := ⟨0, by omega⟩

/-- More winners than there are candidates make the program panic. -/
theorem not_completes : ¬ Completes sample [ascii "lottery", ascii "candidates.txt", ascii "3"] := by
  have hcount : atoi (ascii "3") = (3, none) := by decide
  have hfile : sample.file (ascii "candidates.txt") = .ok ⟨ascii "Kim\nLee\n", []⟩ := rfl
  have hlen : (fitting sample.limit (ascii "Kim\nLee\n")).length = 2 := by decide
  rw [completes_iff_of_ok hcount hfile, hlen]
  omega

end Main

end RoblSampleCodes.LotteryProgram
