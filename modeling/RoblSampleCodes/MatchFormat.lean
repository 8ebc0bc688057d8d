import RoblSampleCodes.ByteMemory

namespace RoblSampleCodes.MatchFormat

open ByteMemory

def dollar : Byte := 0x24

def ampersand : Byte := 0x26

def apostrophe : Byte := 0x27

def backquote : Byte := 0x60

/-- A match of a pattern without groups, and the text before and after it. -/
structure Match where
  before : List Byte
  text : List Byte
  after : List Byte

def Match.group (m : Match) (n : ℕ) : List Byte := if n = 0 then m.text else []

/-- The replacement of a match in the syntax of ECMAScript. A dollar sign that starts nothing stands
for itself. -/
def format (m : Match) : List Byte → List Byte
  | [] => []
  | c :: cs =>
    if c = dollar then
      match cs with
      | [] => [dollar]
      | d :: ds =>
        if d = dollar then dollar :: format m ds
        else if d = ampersand then m.text ++ format m ds
        else if d = backquote then m.before ++ format m ds
        else if d = apostrophe then m.after ++ format m ds
        else
          match digit d with
          | none => dollar :: format m (d :: ds)
          | some n =>
            match ds with
            | [] => m.group n
            | e :: es =>
              match digit e with
              | none => m.group n ++ format m (e :: es)
              | some k => m.group (10 * n + k) ++ format m es
    else c :: format m cs

def replaceFrom (pattern fmt : List Byte) : ℕ → List Byte → List Byte → List Byte
  | 0, before, subject => before ++ subject
  | fuel + 1, before, subject =>
    if pattern.isPrefixOf subject then
      before ++ format ⟨before, pattern, subject.drop pattern.length⟩ fmt ++
        replaceFrom pattern fmt fuel [] (subject.drop pattern.length)
    else
      match subject with
      | [] => before
      | c :: cs => replaceFrom pattern fmt fuel (before ++ [c]) cs

def regexReplace (subject pattern fmt : List Byte) : List Byte :=
  replaceFrom pattern fmt (subject.length + 1) [] subject

def Special (c : Byte) : Prop :=
  c = dollar ∨ c = ampersand ∨ c = backquote ∨ c = apostrophe ∨ (digit c).isSome

instance (c : Byte) : Decidable (Special c) := inferInstanceAs (Decidable (_ ∨ _))

def Literal (text : List Byte) : Prop := ∀ c, Special c → ¬ [dollar, c] <:+: text

variable {m : Match} {c d : Byte} {text : List Byte}

theorem literal_cons (hc : c ≠ dollar) : Literal (c :: text) ↔ Literal text := by
  apply forall₂_congr
  intro d _
  rw [List.infix_cons_iff, List.cons_prefix_cons, or_iff_right fun h => hc h.1.symm]

theorem literal_dollar : Literal (dollar :: d :: text) ↔ ¬ Special d ∧ Literal (d :: text) := by
  constructor
  · intro h
    exact ⟨fun hd => h d hd ⟨[], text, rfl⟩, fun c hc hin => h c hc (hin.trans ⟨[dollar], [], by simp⟩)⟩
  · rintro ⟨hd, h⟩ c hc hin
    rw [List.infix_cons_iff, List.cons_prefix_cons, List.cons_prefix_cons] at hin
    obtain ⟨-, rfl, -⟩ | hin := hin
    · exact hd hc
    · exact h c hc hin

theorem count_group (htext : dollar ∉ m.text) (n : ℕ) : (m.group n).count dollar = 0 := by
  rw [Match.group]
  split
  · exact List.count_eq_zero_of_not_mem htext
  · rfl

section Replace

variable {p : Byte} {ps fmt before after : List Byte}

theorem replaceFrom_of_notMem {fuel : ℕ} (hafter : p ∉ after) (hfuel : after.length < fuel) :
    replaceFrom (p :: ps) fmt fuel before after = before ++ after := by
  induction after generalizing fuel before with
  | nil =>
    obtain ⟨fuel, rfl⟩ := Nat.exists_eq_succ_of_ne_zero (Nat.ne_zero_of_lt hfuel)
    rw [List.append_nil]
    rfl
  | cons c after ih =>
    rw [List.mem_cons, not_or] at hafter
    rw [List.length_cons] at hfuel
    obtain ⟨fuel, rfl⟩ := Nat.exists_eq_succ_of_ne_zero (Nat.ne_zero_of_lt hfuel)
    rw [replaceFrom, if_neg (by simp [hafter.1])]
    rw [ih hafter.2 (by omega), List.append_assoc, List.singleton_append]

theorem replaceFrom_append {fuel : ℕ} {start : List Byte} (hbefore : p ∉ before) (hafter : p ∉ after)
    (hfuel : (before ++ (p :: ps ++ after)).length < fuel) :
    replaceFrom (p :: ps) fmt fuel start (before ++ (p :: ps ++ after)) =
      start ++ before ++ format ⟨start ++ before, p :: ps, after⟩ fmt ++ after := by
  induction before generalizing fuel start with
  | nil =>
    obtain ⟨fuel, rfl⟩ := Nat.exists_eq_succ_of_ne_zero (Nat.ne_zero_of_lt hfuel)
    have hmatch : (p :: ps).isPrefixOf (p :: ps ++ after) := by simp
    rw [List.nil_append] at hfuel
    rw [List.nil_append, replaceFrom.eq_def]
    dsimp only
    rw [if_pos hmatch, List.drop_left, List.append_nil,
      replaceFrom_of_notMem hafter (by simp at hfuel; omega), List.nil_append]
  | cons c before ih =>
    rw [List.mem_cons, not_or] at hbefore
    rw [List.cons_append, List.length_cons] at hfuel
    obtain ⟨fuel, rfl⟩ := Nat.exists_eq_succ_of_ne_zero (Nat.ne_zero_of_lt hfuel)
    rw [List.cons_append, replaceFrom, if_neg (by simp [hbefore.1])]
    rw [ih hbefore.2 (by omega), List.append_assoc start, List.singleton_append]

/-- A pattern whose first byte is found nowhere else is replaced once. -/
theorem regexReplace_eq (hbefore : p ∉ before) (hafter : p ∉ after) :
    regexReplace (before ++ (p :: ps ++ after)) (p :: ps) fmt =
      before ++ format ⟨before, p :: ps, after⟩ fmt ++ after :=
  replaceFrom_append hbefore hafter (Nat.lt_succ_self _)

end Replace

def Settled (text out : List Byte) : Prop :=
  Literal text ∧ out = text ∨ ¬ Literal text ∧ out.count dollar < text.count dollar

theorem Settled.count_le {out : List Byte} (h : Settled text out) :
    out.count dollar ≤ text.count dollar := by
  obtain ⟨-, rfl⟩ | ⟨-, hlt⟩ := h
  · exact le_rfl
  · exact hlt.le

theorem Settled.cons {out : List Byte} (hc : c ≠ dollar) (h : Settled text out) :
    Settled (c :: text) (c :: out) := by
  rw [Settled, literal_cons hc, List.count_cons_of_ne hc, List.count_cons_of_ne hc, List.cons.injEq,
    and_iff_right rfl]
  exact h

theorem Settled.dollar {out : List Byte} (hd : ¬ Special d) (h : Settled (d :: text) out) :
    Settled (dollar :: d :: text) (dollar :: out) := by
  rw [Settled, literal_dollar, and_iff_right hd, List.count_cons_self, List.count_cons_self,
    Nat.add_lt_add_iff_right, List.cons.injEq, and_iff_right rfl]
  exact h

theorem settled_of_special {out : List Byte} (hd : Special d)
    (hout : out.count dollar ≤ (d :: text).count dollar) : Settled (dollar :: d :: text) out := by
  refine .inr ⟨fun h => (literal_dollar.mp h).1 hd, ?_⟩
  rw [List.count_cons_self]
  exact Nat.lt_succ_of_le hout

theorem settled_of_insert {inserted out rest : List Byte} (hd : Special d)
    (hinserted : inserted.count dollar = 0) (hrest : rest <:+ text) (h : Settled rest out) :
    Settled (dollar :: d :: text) (inserted ++ out) := by
  apply settled_of_special hd
  rw [List.count_append, hinserted, Nat.zero_add]
  exact h.count_le.trans ((hrest.sublist.count_le _).trans (List.count_le_count_cons ..))

theorem special_of_digit {n : ℕ} (h : digit d = some n) : Special d := by
  refine .inr (.inr (.inr (.inr ?_)))
  rw [h]
  rfl

theorem settled_format (hbefore : dollar ∉ m.before) (htext : dollar ∉ m.text) (hafter : dollar ∉ m.after)
    (text : List Byte) : Settled text (format m text) := by
  fun_induction format m text with
  | case1 => exact .inl ⟨fun c _ hin => by simpa using hin.length_le, rfl⟩
  | case2 => exact .inl ⟨fun c _ hin => by simpa using hin.length_le, rfl⟩
  | case3 ds ih =>
    apply settled_of_special (.inl rfl)
    rw [List.count_cons_self, List.count_cons_self]
    exact Nat.succ_le_succ ih.count_le
  | case4 ds _ ih =>
    exact settled_of_insert (.inr (.inl rfl)) (List.count_eq_zero_of_not_mem htext) List.suffix_rfl ih
  | case5 ds _ _ ih =>
    exact settled_of_insert (.inr (.inr (.inl rfl))) (List.count_eq_zero_of_not_mem hbefore)
      List.suffix_rfl ih
  | case6 ds _ _ _ ih =>
    exact settled_of_insert (.inr (.inr (.inr (.inl rfl)))) (List.count_eq_zero_of_not_mem hafter)
      List.suffix_rfl ih
  | case7 d ds hdollar hampersand hbackquote hapostrophe hdigit ih =>
    refine ih.dollar ?_
    rintro (h | h | h | h | h)
    · exact hdollar h
    · exact hampersand h
    · exact hbackquote h
    · exact hapostrophe h
    · rw [hdigit] at h
      cases h
  | case8 d _ _ _ _ n hdigit =>
    apply settled_of_special (special_of_digit hdigit)
    rw [count_group htext]
    exact Nat.zero_le _
  | case9 d _ _ _ _ n hdigit e es _ ih =>
    exact settled_of_insert (special_of_digit hdigit) (count_group htext n)
      List.suffix_rfl ih
  | case10 d _ _ _ _ n hdigit e es k _ ih =>
    exact settled_of_insert (special_of_digit hdigit) (count_group htext _)
      (List.suffix_cons e es) ih
  | case11 c cs hc ih => exact ih.cons hc

theorem format_eq_self_iff (hbefore : dollar ∉ m.before) (htext : dollar ∉ m.text)
    (hafter : dollar ∉ m.after) : format m text = text ↔ Literal text := by
  rcases settled_format hbefore htext hafter text with ⟨hliteral, heq⟩ | ⟨hliteral, hlt⟩
  · exact iff_of_true heq hliteral
  · refine iff_of_false (fun heq => ?_) hliteral
    rw [heq] at hlt
    exact lt_irrefl _ hlt

end RoblSampleCodes.MatchFormat
