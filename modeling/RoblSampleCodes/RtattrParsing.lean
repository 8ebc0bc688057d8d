import RoblSampleCodes.Rtnetlink

namespace RoblSampleCodes.RtattrParsing

open ByteMemory AlignedRecords
open Rtnetlink hiding parseRtattr

section Area

-- Nothing may be read before `start` or from `stop` on.
variable (mem : Memory) (start stop : Nat)

/-- `RTA_OK`, which reads the length only where a header fits. -/
def rtaOk (rta : Nat) (len : Int) : Option Bool :=
  if 4 ≤ len then
    (read16 mem start stop rta).map fun rtaLen => decide (4 ≤ rtaLen.toNat ∧ rtaLen.toNat ≤ len)
  else some false

def rtaNext (rta : Nat) (len : Int) : Option (Nat × Int) :=
  (read16 mem start stop rta).map fun rtaLen => (rta + align rtaLen.toNat, len - align rtaLen.toNat)

/-- A store to the table, which may not be outside of it. -/
def store (tb : List (Option Nat)) (type rta : Nat) : Option (List (Option Nat)) :=
  if type < tb.length then some (tb.set type (some rta)) else none

def storeAttribute (max : Nat) (tb : List (Option Nat)) (rta : Nat) : Option (List (Option Nat)) :=
  (read16 mem start stop (rta + 2)).bind fun rtaType =>
    if rtaType.toNat ≤ max then store tb rtaType.toNat rta else some tb

def parseLoop (max : Nat) : Nat → List (Option Nat) → Nat → Int → Option (List (Option Nat))
  | 0, _, _, _ => none
  | fuel + 1, tb, rta, len =>
    (rtaOk mem start stop rta len).bind fun ok =>
      if ok then
        (storeAttribute mem start stop max tb rta).bind fun tb =>
          (rtaNext mem start stop rta len).bind fun next => parseLoop max fuel tb next.1 next.2
      else some tb

end Area

def memset (tb : List (Option Nat)) (n : Nat) : Option (List (Option Nat)) :=
  if n ≤ tb.length then some (List.replicate n none ++ tb.drop n) else none

/-- The area is the `len` bytes from `rta` on, which is none for a negative `len`. -/
def parseRtattr (fuel : Nat) (mem : Memory) (tb : List (Option Nat)) (max rta : Nat) (len : Int) :
    Option (List (Option Nat)) :=
  (memset tb (max + 1)).bind fun tb => parseLoop mem rta (rta + len.toNat) max fuel tb rta len

def tableWith (mem : Memory) (max : Nat) (tb : List (Option Nat)) (attributes : List Nat) :
    List (Option Nat) :=
  attributes.foldl
    (fun tb rta => if rtaType mem rta ≤ max then tb.set (rtaType mem rta) (some rta) else tb) tb

variable {mem : Memory} {start stop rta max : Nat} {len : Int} {tb : List (Option Nat)}

theorem read16_rtaLen (hstart : start ≤ rta) (hlen : len.toNat = stop - rta) (hhdr : (4 : Int) ≤ len) :
    read16 mem start stop rta = some (word16 mem rta) := read16_eq hstart (by omega)

theorem rtaOk_of_ok (hstart : start ≤ rta) (hlen : len.toNat = stop - rta) (h : Ok rtattr mem rta len) :
    rtaOk mem start stop rta len = some true := by
  have hhdr : (4 : Int) ≤ len := h.1
  rw [rtaOk, if_pos hhdr, read16_rtaLen hstart hlen hhdr, Option.map_some]
  exact congrArg some (decide_eq_true h.2)

theorem rtaOk_of_not_ok (hstart : start ≤ rta) (hlen : len.toNat = stop - rta)
    (h : ¬ Ok rtattr mem rta len) : rtaOk mem start stop rta len = some false := by
  by_cases hhdr : (4 : Int) ≤ len
  · rw [rtaOk, if_pos hhdr, read16_rtaLen hstart hlen hhdr, Option.map_some]
    exact congrArg some (decide_eq_false fun hok => h ⟨hhdr, hok⟩)
  · rw [rtaOk, if_neg hhdr]

theorem rtaNext_of_ok (hstart : start ≤ rta) (hlen : len.toNat = stop - rta) (h : Ok rtattr mem rta len) :
    rtaNext mem start stop rta len =
      some (rta + align (rtattr.len mem rta), len - align (rtattr.len mem rta)) := by
  rw [rtaNext, read16_rtaLen hstart hlen h.1, Option.map_some]
  rfl

theorem storeAttribute_of_ok (hstart : start ≤ rta) (hlen : len.toNat = stop - rta)
    (h : Ok rtattr mem rta len) (htb : max < tb.length) :
    storeAttribute mem start stop max tb rta = some (tableWith mem max tb [rta]) := by
  have hhdr : (4 : Int) ≤ len := h.1
  rw [storeAttribute, read16_eq (by omega) (by omega), Option.bind_some]
  change (if rtaType mem rta ≤ max then store tb (rtaType mem rta) rta else some tb) =
    some (if rtaType mem rta ≤ max then tb.set (rtaType mem rta) (some rta) else tb)
  split
  · rw [store, if_pos (by omega)]
  · rfl

theorem length_tableWith (attributes : List Nat) :
    (tableWith mem max tb attributes).length = tb.length := by
  rw [tableWith]
  induction attributes generalizing tb with
  | nil => rfl
  | cons rta rest ih =>
    rw [List.foldl_cons, ih]
    split
    · exact List.length_set
    · rfl

theorem tableWith_cons (rta : Nat) (rest : List Nat) :
    tableWith mem max tb (rta :: rest) = tableWith mem max (tableWith mem max tb [rta]) rest := rfl

theorem parseLoop_eq (hstart : start ≤ rta) (hlen : len.toNat = stop - rta) (htb : max < tb.length)
    {fuel : Nat} (hfuel : len.toNat < fuel) :
    parseLoop mem start stop max fuel tb rta len =
      some (tableWith mem max tb (records rtattr mem rta len)) := by
  induction fuel generalizing tb rta len with
  | zero => exact absurd hfuel (Nat.not_lt_zero _)
  | succ fuel ih =>
    rw [parseLoop]
    by_cases hok : Ok rtattr mem rta len
    · have hlt := hok.lt
      rw [records_of_ok hok, tableWith_cons, rtaOk_of_ok hstart hlen hok, Option.bind_some, if_pos rfl,
        storeAttribute_of_ok hstart hlen hok htb, Option.bind_some, rtaNext_of_ok hstart hlen hok,
        Option.bind_some]
      refine ih (by omega) (by omega) ?_ (by omega)
      rw [length_tableWith]
      exact htb
    · rw [rtaOk_of_not_ok hstart hlen hok, Option.bind_some, if_neg (by decide), records_of_not_ok hok]
      rfl

theorem parseRtattr_eq_tableWith (htb : max < tb.length) {fuel : Nat} (hfuel : len.toNat < fuel) :
    parseRtattr fuel mem tb max rta len =
      some (tableWith mem max (List.replicate (max + 1) none ++ tb.drop (max + 1))
        (records rtattr mem rta len)) := by
  rw [parseRtattr, memset, if_pos (Nat.succ_le_of_lt htb), Option.bind_some]
  refine parseLoop_eq le_rfl (Nat.add_sub_cancel_left ..).symm ?_ hfuel
  rw [List.length_append, List.length_replicate]
  omega

theorem getElem?_tableWith_of_lt {t : Nat} (ht : max < t) (attributes : List Nat) :
    (tableWith mem max tb attributes)[t]? = tb[t]? := by
  rw [tableWith]
  induction attributes generalizing tb with
  | nil => rfl
  | cons rta rest ih =>
    rw [List.foldl_cons, ih]
    split
    · exact List.getElem?_set_ne (by omega)
    · rfl

def Represents (tb : List (Option Nat)) (max : Nat) (attributeOf : Nat → Option Nat) : Prop :=
  ∀ t ≤ max, tb[t]? = some (attributeOf t)

theorem represents_replicate (rest : List (Option Nat)) :
    Represents (List.replicate (max + 1) none ++ rest) max fun _ => none := by
  intro t ht
  rw [List.getElem?_append_left (by rw [List.length_replicate]; omega), List.getElem?_replicate,
    if_pos (by omega)]

theorem Represents.set {attributeOf : Nat → Option Nat} (h : Represents tb max attributeOf) (type : Nat)
    (rta : Option Nat) :
    Represents (tb.set type rta) max (Function.update attributeOf type rta) := by
  intro t ht
  by_cases heq : t = type
  · obtain ⟨hlt, -⟩ := List.getElem?_eq_some_iff.mp (h t ht)
    rw [heq, Function.update_self, List.getElem?_set_self (heq ▸ hlt)]
  · rw [List.getElem?_set_ne (Ne.symm heq), Function.update_of_ne heq, h t ht]

theorem represents_tableWith {attributeOf : Nat → Option Nat} (h : Represents tb max attributeOf)
    (attributes : List Nat) :
    Represents (tableWith mem max tb attributes) max (attributes.foldl
      (fun tb rta => if rtaType mem rta ≤ max then Function.update tb (rtaType mem rta) (some rta) else tb)
      attributeOf) := by
  rw [tableWith]
  induction attributes generalizing tb attributeOf with
  | nil => exact h
  | cons rta rest ih =>
    rw [List.foldl_cons, List.foldl_cons]
    by_cases htype : rtaType mem rta ≤ max
    · rw [if_pos htype, if_pos htype]
      exact ih (h.set _ _)
    · rw [if_neg htype, if_neg htype]
      exact ih h

/-- The loop leaves the table that the callers are modelled with. -/
theorem represents_parseRtattr (rest : List (Option Nat)) :
    Represents (tableWith mem max (List.replicate (max + 1) none ++ rest) (records rtattr mem rta len)) max
      (Rtnetlink.parseRtattr mem max rta len) := represents_tableWith (represents_replicate _) _

/-- The table has the last attribute of each type in the longest run of whole attributes that the
area starts with. -/
theorem parseRtattr_total (mem : Memory) (max rta : Nat) (len : Int) (tb : List (Option Nat))
    (htb : max < tb.length) :
    ∃ attributes tb', Longest rtattr mem (rta + len.toNat) rta attributes ∧
      (∀ fuel, len.toNat < fuel → parseRtattr fuel mem tb max rta len = some tb') ∧
      tb'.length = tb.length ∧ (∀ t, max < t → tb'[t]? = tb[t]?) ∧
      ∀ t ≤ max, tb'[t]? = some (attributes.filter (fun rta => rtaType mem rta = t)).getLast? := by
  refine ⟨records rtattr mem rta len, _, longest_records (Nat.add_sub_cancel_left ..).symm,
    fun fuel hfuel => parseRtattr_eq_tableWith htb hfuel, ?_, fun t ht => ?_, fun t ht => ?_⟩
  · rw [length_tableWith, List.length_append, List.length_replicate, List.length_drop]
    omega
  · rw [getElem?_tableWith_of_lt ht, List.getElem?_append_right (by rw [List.length_replicate]; omega),
      List.length_replicate, List.getElem?_drop, Nat.add_sub_cancel' ht]
  · rw [← parseRtattr_eq ht]
    exact represents_parseRtattr _ t ht

def flaggedArea : Memory := ofList [4, 0, 1, 0x80, 5, 0, 1, 0, 7, 0, 0, 0, 9, 0, 1, 0]

theorem parseRtattr_total_flagged :
    ∃ attributes tb', Longest rtattr flaggedArea 16 0 attributes ∧
      (∀ fuel, 16 < fuel → parseRtattr fuel flaggedArea [some 1, some 2] 1 0 16 = some tb') ∧
      tb'.length = 2 ∧ (∀ t, 1 < t → tb'[t]? = [some 1, some 2][t]?) ∧
      ∀ t ≤ 1, tb'[t]? = some (attributes.filter (fun rta => rtaType flaggedArea rta = t)).getLast? :=
  parseRtattr_total flaggedArea 1 0 16 [some 1, some 2] (by decide)

end RoblSampleCodes.RtattrParsing
