import RoblSampleCodes.ByteMemory

namespace RoblSampleCodes.LineScanner

open ByteMemory

def lineFeed : Byte := 0x0A

def carriageReturn : Byte := 0x0D

def rawLines : List Byte → List (List Byte)
  | [] => []
  | c :: cs =>
    if c = lineFeed then [] :: rawLines cs
    else
      match rawLines cs with
      | [] => [[c]]
      | line :: rest => (c :: line) :: rest

/-- A carriage return at the end of a line belongs to its terminator, also where the text ends there
without a line feed. -/
def dropCR (line : List Byte) : List Byte :=
  if line.getLast? = some carriageReturn then line.dropLast else line

def lines (text : List Byte) : List (List Byte) := (rawLines text).map dropCR

def maxScanTokenSize : ℕ := 64 * 1024

/-- The next token of a scanner with `data` ahead of it, and what is ahead of it afterwards. There is
none at the end, and where the line does not fit into the buffer. After a read error the data end
there, so that the part of a line before it is a token too. -/
def scan (limit : ℕ) (data : List Byte) : Option (List Byte × List Byte) :=
  if data = [] then none
  else if (data.takeWhile (· ≠ lineFeed)).length ≤ limit then
    some (dropCR (data.takeWhile (· ≠ lineFeed)), (data.dropWhile (· ≠ lineFeed)).tail)
  else none

def fitting (limit : ℕ) (data : List Byte) : List (List Byte) :=
  ((rawLines data).takeWhile (·.length ≤ limit)).map dropCR

/-- Nothing is left of the text, or only what ends its last line. -/
def Complete (text rest : List Byte) : Prop :=
  rest = [] ∨ ∃ c, text.getLast? = some c ∧ c ≠ lineFeed ∧
    (rest = [lineFeed] ∨
      c ≠ carriageReturn ∧ (rest = [carriageReturn] ∨ rest = [carriageReturn, lineFeed]))

variable {limit : ℕ} {text line rest data : List Byte}

theorem rawLines_of_ne_nil (h : data ≠ []) : rawLines data =
    data.takeWhile (· ≠ lineFeed) :: rawLines (data.dropWhile (· ≠ lineFeed)).tail := by
  induction data with
  | nil => exact absurd rfl h
  | cons c cs ih =>
    by_cases hc : c = lineFeed
    · rw [rawLines, if_pos hc, List.takeWhile_cons_of_neg (by simp [hc]),
        List.dropWhile_cons_of_neg (by simp [hc])]
      rfl
    · rw [rawLines, if_neg hc, List.takeWhile_cons_of_pos (by simp [hc]),
        List.dropWhile_cons_of_pos (by simp [hc])]
      by_cases hcs : cs = []
      · subst hcs
        rfl
      · rw [ih hcs]

theorem takeWhile_line (h : lineFeed ∉ line) (rest : List Byte) :
    (line ++ rest).takeWhile (· ≠ lineFeed) = line ++ rest.takeWhile (· ≠ lineFeed) := by
  apply List.takeWhile_append_of_pos
  intro c hc
  exact decide_eq_true fun heq => h (heq ▸ hc)

theorem dropWhile_line (h : lineFeed ∉ line) (rest : List Byte) :
    (line ++ rest).dropWhile (· ≠ lineFeed) = rest.dropWhile (· ≠ lineFeed) := by
  apply List.dropWhile_append_of_pos
  intro c hc
  exact decide_eq_true fun heq => h (heq ▸ hc)

theorem takeWhile_self (h : lineFeed ∉ line) : line.takeWhile (· ≠ lineFeed) = line := by
  have htake := takeWhile_line h []
  rwa [List.append_nil, List.takeWhile_nil, List.append_nil] at htake

theorem lines_append_lineFeed (h : lineFeed ∉ line) (rest : List Byte) :
    lines (line ++ lineFeed :: rest) = dropCR line :: lines rest := by
  rw [lines, rawLines_of_ne_nil (by simp), takeWhile_line h, dropWhile_line h,
    List.takeWhile_cons_of_neg (by simp), List.dropWhile_cons_of_neg (by simp), List.append_nil,
    List.map_cons, List.tail_cons]
  rfl

theorem lines_of_notMem (h : lineFeed ∉ line) (hne : line ≠ []) : lines line = [dropCR line] := by
  have hdrop := dropWhile_line h []
  rw [List.append_nil, List.dropWhile_nil] at hdrop
  rw [lines, rawLines_of_ne_nil hne, takeWhile_self h, hdrop]
  rfl

theorem lines_eq_nil : lines text = [] ↔ text = [] := by
  constructor
  · intro h
    by_contra hne
    rw [lines, rawLines_of_ne_nil hne] at h
    cases h
  · rintro rfl
    rfl

theorem dropCR_concat (line : List Byte) (c : Byte) :
    dropCR (line ++ [c]) = if c = carriageReturn then line else line ++ [c] := by
  simp only [dropCR, List.getLast?_concat, Option.some.injEq, List.dropLast_concat]

theorem length_dropCR_le (line : List Byte) : (dropCR line).length ≤ line.length := by
  rw [dropCR]
  split
  · exact (List.length_dropLast ..).trans_le (Nat.sub_le ..)
  · exact le_rfl

theorem eq_dropCR : line = dropCR line ↔ line.getLast? ≠ some carriageReturn := by
  rw [dropCR]
  split
  · rename_i h
    have hne : line ≠ [] := by
      rintro rfl
      cases h
    refine iff_of_false (fun heq => ?_) (fun hn => hn h)
    have hlen := congrArg List.length heq
    have hpos := List.length_pos_of_ne_nil hne
    rw [List.length_dropLast] at hlen
    omega
  · rename_i h
    exact iff_of_true rfl h

theorem dropCR_append_eq : dropCR (line ++ rest) = dropCR line ↔
    rest = [] ∨ rest = [carriageReturn] ∧ line.getLast? ≠ some carriageReturn := by
  have hle := length_dropCR_le line
  obtain rfl | ⟨front, c, rfl⟩ := List.eq_nil_or_concat' rest
  · simp
  · rw [← List.append_assoc, dropCR_concat]
    by_cases hc : c = carriageReturn
    · subst hc
      rw [if_pos rfl]
      by_cases hfront : front = []
      · simp [hfront, eq_dropCR]
      · have hpos := List.length_pos_of_ne_nil hfront
        refine iff_of_false (fun heq => ?_) (by simp [hfront])
        have hlen := congrArg List.length heq
        rw [List.length_append] at hlen
        omega
    · rw [if_neg hc]
      refine iff_of_false (fun heq => ?_) (by simp [List.append_eq_singleton_iff, hc])
      have hlen := congrArg List.length heq
      rw [List.length_append, List.length_append, List.length_singleton] at hlen
      omega

theorem lines_append_eq_of_notMem (h : lineFeed ∉ line) (hne : line ≠ []) :
    lines (line ++ rest) = lines line ↔ Complete line rest := by
  obtain ⟨front, c, rfl⟩ := (List.eq_nil_or_concat' line).resolve_left hne
  have hc : c ≠ lineFeed := fun heq => h (by simp [heq])
  have hcomplete : Complete (front ++ [c]) rest ↔ rest = [] ∨ rest = [lineFeed] ∨
      c ≠ carriageReturn ∧ (rest = [carriageReturn] ∨ rest = [carriageReturn, lineFeed]) := by
    simp [Complete, hc]
  rw [hcomplete, lines_of_notMem h hne]
  by_cases hrest : lineFeed ∈ rest
  · obtain ⟨next, after, rfl, hnext⟩ := List.eq_append_cons_of_mem hrest
    have hboth : lineFeed ∉ front ++ [c] ++ next := by
      rw [List.mem_append]
      exact not_or.mpr ⟨h, hnext⟩
    rw [← List.append_assoc, lines_append_lineFeed hboth, List.cons.injEq, lines_eq_nil, dropCR_append_eq,
      List.getLast?_concat]
    have hcr : lineFeed ≠ carriageReturn := by decide
    match next with
    | [] => simp [hcr]
    | [d] =>
      have hd : d ≠ lineFeed := fun heq => hnext (by simp [heq])
      simp [hd, and_assoc, and_left_comm]
    | d :: e :: next => simp
  · have hboth : lineFeed ∉ front ++ [c] ++ rest := by
      rw [List.mem_append]
      exact not_or.mpr ⟨h, hrest⟩
    rw [lines_of_notMem hboth (by simp), List.cons.injEq, dropCR_append_eq, List.getLast?_concat]
    have hfeed : rest ≠ [lineFeed] ∧ rest ≠ [carriageReturn, lineFeed] :=
      ⟨fun heq => hrest (by simp [heq]), fun heq => hrest (by simp [heq])⟩
    simp [hfeed, and_comm]

theorem lines_append_eq : lines (text ++ rest) = lines text ↔ Complete text rest := by
  induction hn : text.length using Nat.strong_induction_on generalizing text with
  | h n ih =>
    subst hn
    by_cases htext : lineFeed ∈ text
    · obtain ⟨line, after, rfl, hline⟩ := List.eq_append_cons_of_mem htext
      rw [List.append_assoc, List.cons_append, lines_append_lineFeed hline, lines_append_lineFeed hline,
        List.cons.injEq, and_iff_right rfl, ih after.length (by simp; omega) rfl]
      cases after with
      | nil => simp [Complete]
      | cons d after => simp [Complete]
    · by_cases hne : text = []
      · subst hne
        exact lines_eq_nil.trans (by simp [Complete])
      · exact lines_append_eq_of_notMem htext hne

theorem length_rawLines_cons {c : Byte} (hc : c ≠ lineFeed) (text : List Byte) :
    (rawLines (c :: text)).length = max 1 (rawLines text).length := by
  rw [rawLines, if_neg hc]
  cases rawLines text with
  | nil => rfl
  | cons line rest => simp

theorem length_lines_le (text rest : List Byte) : (lines text).length ≤ (lines (text ++ rest)).length := by
  simp only [lines, List.length_map]
  induction text with
  | nil => exact Nat.zero_le _
  | cons c text ih =>
    rw [List.cons_append]
    by_cases hc : c = lineFeed
    · rw [rawLines, rawLines, if_pos hc, if_pos hc]
      exact Nat.succ_le_succ ih
    · rw [length_rawLines_cons hc, length_rawLines_cons hc]
      exact max_le_max_left 1 ih

/-- A line that does not fit is missing together with all lines after it. -/
theorem fitting_eq_iff : fitting limit text = lines (text ++ rest) ↔
    (∀ line ∈ rawLines text, line.length ≤ limit) ∧ Complete text rest := by
  by_cases hfit : ∀ line ∈ rawLines text, line.length ≤ limit
  · have hall : fitting limit text = lines text := by
      rw [fitting, lines]
      exact congrArg _ (List.takeWhile_eq_self_iff.mpr fun line hline => decide_eq_true (hfit line hline))
    rw [hall, and_iff_right hfit, ← lines_append_eq, eq_comm]
  · refine iff_of_false (fun heq => hfit ?_) fun h => hfit h.1
    have hlen := length_lines_le text rest
    rw [← heq, fitting, lines, List.length_map, List.length_map] at hlen
    have hall := (List.takeWhile_sublist _).eq_of_length_le hlen
    exact fun line hline => of_decide_eq_true (List.takeWhile_eq_self_iff.mp hall line hline)

theorem fitting_of_ne_nil (h : data ≠ []) : fitting limit data =
    if (data.takeWhile (· ≠ lineFeed)).length ≤ limit then
      dropCR (data.takeWhile (· ≠ lineFeed)) :: fitting limit (data.dropWhile (· ≠ lineFeed)).tail
    else [] := by
  rw [fitting, rawLines_of_ne_nil h, List.takeWhile_cons]
  split
  · rename_i hfit
    rw [if_pos (of_decide_eq_true hfit)]
    rfl
  · rename_i hfit
    rw [if_neg (fun hle => hfit (decide_eq_true hle))]
    rfl

theorem scan_cases (limit : ℕ) (data : List Byte) :
    scan limit data = none ∧ fitting limit data = [] ∨
      ∃ token rest, scan limit data = some (token, rest) ∧ rest.length < data.length ∧
        fitting limit data = token :: fitting limit rest := by
  by_cases hdata : data = []
  · exact .inl ⟨if_pos hdata, by rw [hdata]; rfl⟩
  · rw [scan, if_neg hdata, fitting_of_ne_nil hdata]
    split
    · refine .inr ⟨_, _, rfl, ?_, rfl⟩
      have hle := (List.dropWhile_sublist (· ≠ lineFeed) (l := data)).length_le
      have hpos := List.length_pos_of_ne_nil hdata
      rw [List.length_tail]
      omega
    · exact .inl ⟨rfl, rfl⟩

end RoblSampleCodes.LineScanner
