import RoblSampleCodes.ByteMemory

namespace RoblSampleCodes.DoubleQuotes

open ByteMemory

def dollar : Byte := 0x24

def backquote : Byte := 0x60

def quote : Byte := 0x22

def backslash : Byte := 0x5C

def newline : Byte := 0x0A

/-- What a shell makes of the bytes after an opening double quote. -/
inductive Quoted
  | closed (text rest : List Byte)
  | expansion
  | unterminated
  deriving DecidableEq

def Quoted.cons (c : Byte) : Quoted → Quoted
  | .closed text rest => .closed (c :: text) rest
  | .expansion => .expansion
  | .unterminated => .unterminated

def Escapable (c : Byte) : Prop := c = dollar ∨ c = backquote ∨ c = quote ∨ c = backslash

instance (c : Byte) : Decidable (Escapable c) := inferInstanceAs (Decidable (_ ∨ _))

/-- A backslash before a newline is removed with it. Before other bytes it stands for itself. -/
def scan : List Byte → Quoted
  | [] => .unterminated
  | c :: cs =>
    if c = quote then .closed [] cs
    else if c = dollar ∨ c = backquote then .expansion
    else if c = backslash then
      match cs with
      | [] => .unterminated
      | d :: ds =>
        if d = newline then scan ds
        else if Escapable d then (scan ds).cons d
        else ((scan ds).cons d).cons backslash
    else (scan cs).cons c

variable {c d : Byte} {cs text rest : List Byte} {q : Quoted}

theorem cons_eq_closed : q.cons c = .closed text rest ↔ ∃ t, q = .closed t rest ∧ text = c :: t := by
  cases q with
  | closed t r =>
    rw [Quoted.cons, Quoted.closed.injEq]
    constructor
    · rintro ⟨rfl, rfl⟩
      exact ⟨t, rfl, rfl⟩
    · rintro ⟨t', ht, rfl⟩
      obtain ⟨rfl, rfl⟩ := Quoted.closed.inj ht
      exact ⟨rfl, rfl⟩
  | expansion | unterminated => simp [Quoted.cons]

theorem scan_quote (cs : List Byte) : scan (quote :: cs) = .closed [] cs := by
  rw [scan.eq_def]
  exact if_pos rfl

theorem scan_expansion (h : c = dollar ∨ c = backquote) (cs : List Byte) :
    scan (c :: cs) = .expansion := by
  have hquote : c ≠ quote := by
    rcases h with rfl | rfl <;> decide
  rw [scan.eq_def]
  dsimp only
  rw [if_neg hquote, if_pos h]

theorem scan_backslash (hd : Escapable d) (cs : List Byte) :
    scan (backslash :: d :: cs) = (scan cs).cons d := by
  have hnewline : d ≠ newline := by
    rcases hd with rfl | rfl | rfl | rfl <;> decide
  rw [scan, if_neg (by decide), if_neg (by decide), if_pos rfl, if_neg hnewline, if_pos hd]

theorem scan_backslash_of_not (hd : ¬ Escapable d) (hnewline : d ≠ newline) (cs : List Byte) :
    scan (backslash :: d :: cs) = ((scan cs).cons d).cons backslash := by
  rw [scan, if_neg (by decide), if_neg (by decide), if_pos rfl, if_neg hnewline, if_neg hd]

theorem scan_of_not_escapable (hc : ¬ Escapable c) (cs : List Byte) :
    scan (c :: cs) = (scan cs).cons c := by
  simp only [Escapable, not_or] at hc
  rw [scan.eq_def]
  dsimp only
  rw [if_neg hc.2.2.1, if_neg (not_or.mpr ⟨hc.1, hc.2.1⟩), if_neg hc.2.2.2]

theorem scan_append (h : ∀ c ∈ text, ¬ Escapable c) (cs : List Byte) :
    scan (text ++ cs) = text.foldr Quoted.cons (scan cs) := by
  induction text with
  | nil => rfl
  | cons c text ih =>
    rw [List.forall_mem_cons] at h
    rw [List.cons_append, scan_of_not_escapable h.1, ih h.2, List.foldr_cons]

theorem scan_eq_unterminated (h : ∀ c ∈ text, ¬ Escapable c) : scan text = .unterminated := by
  induction text with
  | nil => rfl
  | cons c text ih =>
    rw [List.forall_mem_cons] at h
    rw [scan_of_not_escapable h.1, ih h.2]
    rfl

theorem foldr_eq_closed {front : List Byte} :
    front.foldr Quoted.cons q = .closed (front ++ text) rest ↔ q = .closed text rest := by
  induction front with
  | nil => rfl
  | cons c front ih =>
    rw [List.foldr_cons, cons_eq_closed, ← ih]
    constructor
    · rintro ⟨t, ht, heq⟩
      obtain ⟨-, rfl⟩ := List.cons.inj heq
      exact ht
    · intro h
      exact ⟨front ++ text, h, rfl⟩

end RoblSampleCodes.DoubleQuotes
