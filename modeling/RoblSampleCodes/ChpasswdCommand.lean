import RoblSampleCodes.DollarEscape

namespace RoblSampleCodes.ChpasswdCommand

open ByteMemory DoubleQuotes DollarEscape

def bufferSize : Nat := 128

def commandText (password : List Byte) : List Byte :=
  ascii "echo \"" ++ (ascii "root" ++ ascii ":" ++ password) ++ ascii "\" | chpasswd"

/-- The program from the password to the command, which has to fit into its buffer. -/
def command (fuel : Nat) (rest : Memory) (password : List Byte) : Option (List Byte) :=
  (escapeLoop fuel 0 (start rest password)).bind fun s =>
    (readString s.mem (pwLength + 1) 0).bind fun text =>
      if (commandText text).length + 1 ≤ bufferSize then some (commandText text) else none

/-- The word of the shell that starts with the double quote. -/
def quotedWord (cmd : List Byte) : Quoted := scan (cmd.drop (ascii "echo \"").length)

def PassesUnchanged (rest : Memory) (password : List Byte) : Prop :=
  ∀ fuel, password.length < fuel → ∃ cmd, command fuel rest password = some cmd ∧
    quotedWord cmd = .closed (ascii "root:" ++ password) (ascii " | chpasswd")

@[mk_iff]
structure Plain (password : List Byte) : Prop where
  noQuote : quote ∉ password
  noBackquote : backquote ∉ password
  noBackslash : ¬ [backslash, dollar] <:+: password ∧ ¬ [backslash, backslash] <:+: password ∧
    password.getLast? ≠ some backslash

variable {c d : Byte} {text password tail : List Byte}

theorem escaped_dollar (text : List Byte) :
    escaped (dollar :: text) = backslash :: dollar :: escaped text := by
  rw [escaped_cons, if_pos rfl, List.cons_append, List.singleton_append]

theorem escaped_of_ne (hc : c ≠ dollar) (text : List Byte) : escaped (c :: text) = c :: escaped text := by
  rw [escaped_cons, if_neg hc, List.singleton_append]

/-- The escaped text up to the closing quote of the command. -/
def shown (text tail : List Byte) : Quoted := scan (escaped text ++ quote :: tail)

theorem shown_nil (tail : List Byte) : shown [] tail = .closed [] tail := scan_quote tail

theorem shown_dollar (text tail : List Byte) :
    shown (dollar :: text) tail = (shown text tail).cons dollar := by
  rw [shown, escaped_dollar]
  exact scan_backslash (.inl rfl) _

theorem shown_quote (text tail : List Byte) :
    shown (quote :: text) tail = .closed [] (escaped text ++ quote :: tail) := by
  rw [shown, escaped_of_ne (by decide)]
  exact scan_quote _

theorem shown_backquote (text tail : List Byte) : shown (backquote :: text) tail = .expansion := by
  rw [shown, escaped_of_ne (by decide)]
  exact scan_expansion (.inr rfl) _

theorem shown_of_not_escapable (hc : ¬ Escapable c) (text tail : List Byte) :
    shown (c :: text) tail = (shown text tail).cons c := by
  rw [shown, escaped_of_ne fun h => hc (.inl h)]
  exact scan_of_not_escapable hc _

theorem shown_backslash (tail : List Byte) : shown [backslash] tail = (scan tail).cons quote := by
  rw [shown, escaped_of_ne (by decide)]
  exact scan_backslash (.inr (.inr (.inl rfl))) _

theorem shown_backslash_dollar (text tail : List Byte) :
    shown (backslash :: dollar :: text) tail = .expansion := by
  rw [shown, escaped_of_ne (by decide), escaped_dollar]
  refine (scan_backslash (.inr (.inr (.inr rfl))) _).trans ?_
  exact congrArg (Quoted.cons backslash) (scan_expansion (.inl rfl) _)

theorem shown_backslash_escapable (hd : Escapable d) (hne : d ≠ dollar) (text tail : List Byte) :
    shown (backslash :: d :: text) tail = (shown text tail).cons d := by
  rw [shown, escaped_of_ne (by decide), escaped_of_ne hne]
  exact scan_backslash hd _

theorem shown_backslash_of_not (hd : ¬ Escapable d) (hnewline : d ≠ newline) (text tail : List Byte) :
    shown (backslash :: d :: text) tail = ((shown text tail).cons d).cons backslash := by
  rw [shown, escaped_of_ne (by decide), escaped_of_ne fun h => hd (.inl h)]
  exact scan_backslash_of_not hd hnewline _

/-- The cases of what the shell makes of the next byte of the text, or of the next two. -/
theorem text_induction {motive : List Byte → Prop} (nil : motive [])
    (keep : ∀ c text, ¬ Escapable c → motive text → motive (c :: text))
    (escape : ∀ text, motive text → motive (dollar :: text))
    (close : ∀ text, motive (quote :: text)) (expand : ∀ text, motive (backquote :: text))
    (last : motive [backslash]) (expose : ∀ text, motive (backslash :: dollar :: text))
    (remove : ∀ d text, Escapable d → d ≠ dollar → motive text → motive (backslash :: d :: text))
    (both : ∀ d text, ¬ Escapable d → motive text → motive (backslash :: d :: text)) (text : List Byte) :
    motive text := by
  induction hn : text.length using Nat.strong_induction_on generalizing text with
  | h n ih =>
    subst hn
    match text with
    | [] => exact nil
    | c :: text =>
      have htext := ih text.length (by simp) text rfl
      by_cases hc : Escapable c
      · rcases hc with rfl | rfl | rfl | rfl
        · exact escape text htext
        · exact expand text
        · exact close text
        · match text with
          | [] => exact last
          | d :: text =>
            have hrest := ih text.length (by simp) text rfl
            by_cases hd : Escapable d
            · by_cases hdollar : d = dollar
              · exact hdollar ▸ expose text
              · exact remove d text hd hdollar hrest
            · exact both d text hd hrest
      · exact keep c text hc htext

theorem length_le_of_shown {x r : List Byte} (htail : scan tail = .unterminated)
    (hnewline : newline ∉ text) (h : shown text tail = .closed x r) : x.length ≤ text.length := by
  induction text using text_induction generalizing x with
  | nil =>
    obtain ⟨rfl, -⟩ := Quoted.closed.inj ((shown_nil tail).symm.trans h)
    exact le_rfl
  | keep c text hc ih =>
    rw [shown_of_not_escapable hc, cons_eq_closed] at h
    obtain ⟨y, hy, rfl⟩ := h
    exact Nat.succ_le_succ (ih (List.not_mem_of_not_mem_cons hnewline) hy)
  | escape text ih =>
    rw [shown_dollar, cons_eq_closed] at h
    obtain ⟨y, hy, rfl⟩ := h
    exact Nat.succ_le_succ (ih (List.not_mem_of_not_mem_cons hnewline) hy)
  | close text =>
    obtain ⟨rfl, -⟩ := Quoted.closed.inj ((shown_quote text tail).symm.trans h)
    exact Nat.zero_le _
  | expand text => cases (shown_backquote text tail).symm.trans h
  | last =>
    rw [shown_backslash, htail] at h
    cases h
  | expose text => cases (shown_backslash_dollar text tail).symm.trans h
  | remove d text hd hdollar ih =>
    rw [shown_backslash_escapable hd hdollar, cons_eq_closed] at h
    obtain ⟨y, hy, rfl⟩ := h
    have hlen := ih (List.not_mem_of_not_mem_cons (List.not_mem_of_not_mem_cons hnewline)) hy
    simp only [List.length_cons]
    omega
  | both d text hd ih =>
    simp only [List.mem_cons, not_or] at hnewline
    rw [shown_backslash_of_not hd (Ne.symm hnewline.2.1), cons_eq_closed] at h
    obtain ⟨y, hy, rfl⟩ := h
    obtain ⟨z, hz, rfl⟩ := cons_eq_closed.mp hy
    exact Nat.succ_le_succ (Nat.succ_le_succ (ih hnewline.2.2 hz))

theorem plain_cons (hquote : c ≠ quote) (hback : c ≠ backquote) (hslash : c ≠ backslash) :
    Plain (c :: text) ↔ Plain text := by
  rw [plain_iff, plain_iff, List.infix_cons_iff, List.infix_cons_iff, List.cons_prefix_cons,
    List.cons_prefix_cons, List.mem_cons, List.mem_cons]
  cases text with
  | nil => simp [hquote.symm, hback.symm, hslash, hslash.symm]
  | cons d text => simp [hquote.symm, hback.symm, hslash.symm]

theorem plain_backslash (hdollar : d ≠ dollar) (hslash : d ≠ backslash) :
    Plain (backslash :: d :: text) ↔ Plain (d :: text) := by
  have hquote : quote ≠ backslash := by decide
  have hback : backquote ≠ backslash := by decide
  rw [plain_iff, plain_iff]
  simp [List.infix_cons_iff, hquote, hback, hdollar.symm, hslash.symm]

theorem not_plain_backslash (hd : Escapable d) : ¬ Plain (backslash :: d :: text) := by
  rintro ⟨hquote, hback, hdollar, hslash, -⟩
  rcases hd with rfl | rfl | rfl | rfl
  · exact hdollar ⟨[], text, rfl⟩
  · exact hback (by simp)
  · exact hquote (by simp)
  · exact hslash ⟨[], text, rfl⟩

theorem cons_eq_closed_self : Quoted.cons c (shown text tail) = .closed (c :: text) tail ↔
    shown text tail = .closed text tail :=
  @foldr_eq_closed text tail _ [c]

theorem shown_eq_iff (htail : scan tail = .unterminated) (hnewline : newline ∉ text) :
    shown text tail = .closed text tail ↔ Plain text := by
  induction text using text_induction with
  | nil => exact iff_of_true (shown_nil tail) ((plain_iff _).mpr (by decide))
  | keep c text hc ih =>
    rw [shown_of_not_escapable hc, cons_eq_closed_self, ih (List.not_mem_of_not_mem_cons hnewline)]
    simp only [Escapable, not_or] at hc
    exact (plain_cons hc.2.2.1 hc.2.1 hc.2.2.2).symm
  | escape text ih =>
    rw [shown_dollar, cons_eq_closed_self, ih (List.not_mem_of_not_mem_cons hnewline)]
    exact (plain_cons (by decide) (by decide) (by decide)).symm
  | close text =>
    refine iff_of_false (fun h => ?_) fun h => h.noQuote List.mem_cons_self
    cases (shown_quote text tail).symm.trans h
  | expand text =>
    refine iff_of_false (fun h => ?_) fun h => h.noBackquote List.mem_cons_self
    cases (shown_backquote text tail).symm.trans h
  | last =>
    refine iff_of_false (fun h => ?_) fun h => absurd h.noBackslash (by decide)
    rw [shown_backslash, htail] at h
    cases h
  | expose text =>
    refine iff_of_false (fun h => ?_) (not_plain_backslash (.inl rfl))
    cases (shown_backslash_dollar text tail).symm.trans h
  | remove d text hd hdollar _ =>
    refine iff_of_false (fun h => ?_) (not_plain_backslash hd)
    rw [shown_backslash_escapable hd hdollar, cons_eq_closed] at h
    obtain ⟨y, hy, heq⟩ := h
    -- The backslash is gone, and nothing of what is left can make up for it.
    have htext := List.not_mem_of_not_mem_cons (List.not_mem_of_not_mem_cons hnewline)
    have hlen := length_le_of_shown htail htext hy
    obtain ⟨-, rfl⟩ := List.cons.inj heq
    rw [List.length_cons] at hlen
    omega
  | both d text hd ih =>
    simp only [List.mem_cons, not_or] at hnewline
    rw [shown_backslash_of_not hd (Ne.symm hnewline.2.1)]
    simp only [Escapable, not_or] at hd
    rw [plain_backslash hd.1 hd.2.2.2, plain_cons hd.2.2.1 hd.2.1 hd.2.2.2, ← ih hnewline.2.2]
    exact @foldr_eq_closed text tail _ [backslash, d]

theorem zero_notMem_escaped (hnul : 0 ∉ text) : 0 ∉ escaped text := by
  simp only [escaped, List.mem_flatMap, not_exists, not_and]
  intro c hc h
  split at h
  · simp only [List.mem_cons, List.not_mem_nil, or_false] at h
    rcases h with h | rfl
    · exact absurd h (by decide)
    · exact hnul hc
  · obtain rfl := List.mem_singleton.mp h
    exact hnul hc

theorem command_eq {fuel : Nat} (rest : Memory) (hnul : 0 ∉ password)
    (hfits : password.length + password.count dollar ≤ pwLength) (hfuel : password.length < fuel) :
    command fuel rest password = some (commandText (escaped password)) := by
  obtain ⟨t, ht, hescapes⟩ := exists_escapes rest hnul (by omega)
  have hlen := length_escaped password
  have hread : readString t.mem (pwLength + 1) 0 = some (escaped password) :=
    readString_of_holds hescapes.holds (zero_notMem_escaped hnul) (by simp; omega)
  have hroom : (commandText (escaped password)).length + 1 ≤ bufferSize := by
    have hroot : (ascii "echo \"").length = 6 ∧ (ascii "root" ++ ascii ":").length = 5 ∧
        (ascii "\" | chpasswd").length = 12 := by decide
    rw [commandText, List.length_append, List.length_append, List.length_append, hroot.1, hroot.2.1,
      hroot.2.2]
    unfold pwLength at hfits
    unfold bufferSize
    omega
  rw [command, ht fuel hfuel, Option.bind_some, hread, Option.bind_some, if_pos hroom]

theorem quotedWord_commandText (text : List Byte) : quotedWord (commandText (escaped text)) =
    (ascii "root:").foldr Quoted.cons (shown text (ascii " | chpasswd")) := by
  have hroot : ascii "root" ++ ascii ":" = ascii "root:" := rfl
  have hend : ascii "\" | chpasswd" = quote :: ascii " | chpasswd" := rfl
  rw [quotedWord, commandText, List.append_assoc, List.drop_left, hroot, hend, List.append_assoc,
    scan_append (by decide), shown]

theorem quotedWord_eq_iff (hnewline : newline ∉ text) : quotedWord (commandText (escaped text)) =
    .closed (ascii "root:" ++ text) (ascii " | chpasswd") ↔ Plain text := by
  have htail : scan (ascii " | chpasswd") = .unterminated := scan_eq_unterminated (by decide)
  rw [quotedWord_commandText, foldr_eq_closed, shown_eq_iff htail hnewline]

/-- The shell leaves the password as it is just if it is plain. -/
theorem passesUnchanged_iff (rest : Memory) (hnul : 0 ∉ password) (hnewline : newline ∉ password)
    (hfits : password.length + password.count dollar ≤ pwLength) :
    PassesUnchanged rest password ↔ Plain password := by
  rw [← quotedWord_eq_iff hnewline]
  constructor
  · intro h
    obtain ⟨cmd, hcmd, hword⟩ := h (password.length + 1) (Nat.lt_succ_self _)
    rw [command_eq rest hnul hfits (Nat.lt_succ_self _), Option.some.injEq] at hcmd
    rwa [hcmd]
  · intro h fuel hfuel
    exact ⟨_, command_eq rest hnul hfits hfuel, h⟩

theorem passesUnchanged_iff_sample :
    (PassesUnchanged (fun _ => 7) sample ↔ Plain sample) ∧ Plain sample :=
  ⟨passesUnchanged_iff (fun _ => 7) (by decide) (by decide) (by decide), (plain_iff _).mpr (by decide)⟩

/-- A double quote in the password ends the word. -/
theorem not_passesUnchanged_quote :
    0 ∉ ascii "a\"b" ∧ newline ∉ ascii "a\"b" ∧
      (ascii "a\"b").length + (ascii "a\"b").count dollar ≤ pwLength ∧
      ¬ ∀ rest, PassesUnchanged rest (ascii "a\"b") := by
  refine ⟨by decide, by decide, by decide, fun h => ?_⟩
  obtain ⟨cmd, hcmd, hword⟩ := h (fun _ => 0) 4 (by decide)
  rw [command_eq (fun _ => 0) (by decide) (by decide) (by decide), Option.some.injEq] at hcmd
  rw [← hcmd, quotedWord_eq_iff (by decide)] at hword
  exact absurd hword.noQuote (by decide)

end RoblSampleCodes.ChpasswdCommand
