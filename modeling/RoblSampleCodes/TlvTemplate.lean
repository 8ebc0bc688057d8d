import RoblSampleCodes.MatchFormat

namespace RoblSampleCodes.TlvTemplate

open ByteMemory MatchFormat

def ah : List Byte := ascii "AH"

def sh : List Byte := ascii "SH"

def modePattern : List Byte := ascii "\x7bmode\x7d"

def valuePattern : List Byte := ascii "\x7bvalue\x7d"

def template : List Byte := ascii "\x7bmode\x7d.hdg,i,4,\x7bvalue\x7d;"

structure Output where
  line : List Byte
  status : ℕ

def main : List (List Byte) → Output
  | [_, mode, value] =>
    if mode = ah then ⟨regexReplace (regexReplace template modePattern ah) valuePattern value, 0⟩
    else if mode = sh then ⟨regexReplace (regexReplace template modePattern sh) valuePattern value, 0⟩
    else ⟨ascii "Invalid mode: " ++ mode, 1⟩
  | args => ⟨ascii "Usage: " ++ args.headD [] ++ ascii " <mode> <value>", 1⟩

def filled (mode value : List Byte) : List Byte := mode ++ ascii ".hdg,i,4," ++ value ++ ascii ";"

variable {name mode value : List Byte}

theorem notMem_of_mode (hmode : mode = ah ∨ mode = sh) :
    0x7B ∉ mode ++ ascii ".hdg,i,4," ∧ dollar ∉ mode ++ ascii ".hdg,i,4," := by
  rcases hmode with rfl | rfl <;> decide

theorem main_eq (name value : List Byte) (hmode : mode = ah ∨ mode = sh) : main [name, mode, value] =
    ⟨mode ++ ascii ".hdg,i,4," ++
      format ⟨mode ++ ascii ".hdg,i,4,", valuePattern, ascii ";"⟩ value ++ ascii ";", 0⟩ := by
  have hfirst : regexReplace template modePattern mode =
      mode ++ ascii ".hdg,i,4," ++ (valuePattern ++ ascii ";") := by
    rcases hmode with rfl | rfl <;> rfl
  have hsecond := @regexReplace_eq 0x7B (ascii "value\x7d") value (mode ++ ascii ".hdg,i,4,") (ascii ";")
    (notMem_of_mode hmode).1 (by decide)
  rw [main]
  rcases hmode with rfl | rfl
  · rw [if_pos rfl, hfirst]
    exact congrArg (Output.mk · 0) hsecond
  · rw [if_neg (by decide), if_pos rfl, hfirst]
    exact congrArg (Output.mk · 0) hsecond

/-- The value comes out as it is just if no dollar sign of it starts anything. -/
theorem main_filled_iff (name value : List Byte) (hmode : mode = ah ∨ mode = sh) :
    main [name, mode, value] = ⟨filled mode value, 0⟩ ↔ Literal value := by
  have hvalue : dollar ∉ valuePattern := by decide
  have hend : dollar ∉ ascii ";" := by decide
  rw [main_eq name value hmode, filled, Output.mk.injEq, and_iff_left rfl, List.append_left_inj,
    List.append_right_inj, format_eq_self_iff (notMem_of_mode hmode).2 hvalue hend]

theorem main_filled_iff_value :
    main [ascii "tlv", sh, ascii "\x7bvalue\x7d"] = ⟨filled sh (ascii "\x7bvalue\x7d"), 0⟩ ↔
      Literal (ascii "\x7bvalue\x7d") :=
  main_filled_iff (ascii "tlv") (ascii "\x7bvalue\x7d") (.inr rfl)

/-- Two dollar signs come out as one. -/
theorem not_main_filled : main [ascii "tlv", ah, ascii "$$"] ≠ ⟨filled ah (ascii "$$"), 0⟩ := by
  intro h
  rw [main_eq (ascii "tlv") (ascii "$$") (.inl rfl)] at h
  have hlen := congrArg (fun out => out.line.length) h
  exact absurd hlen (by decide)

end RoblSampleCodes.TlvTemplate
