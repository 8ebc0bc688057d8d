import Mathlib

namespace RoblSampleCodes.ByteMemory

abbrev Byte := BitVec 8

abbrev Memory := Nat → Byte

def word16 (mem : Memory) (i : Nat) : BitVec 16 := mem (i + 1) ++ mem i

def word32 (mem : Memory) (i : Nat) : BitVec 32 := mem (i + 3) ++ mem (i + 2) ++ mem (i + 1) ++ mem i

/-- A read of a halfword, which is allowed from `start` up to `stop` only. -/
def read16 (mem : Memory) (start stop i : Nat) : Option (BitVec 16) :=
  if start ≤ i ∧ i + 2 ≤ stop then some (word16 mem i) else none

def read32 (mem : Memory) (start stop i : Nat) : Option (BitVec 32) :=
  if start ≤ i ∧ i + 4 ≤ stop then some (word32 mem i) else none

def bytes16 (x : BitVec 16) : List Byte := [x.extractLsb' 0 8, x.extractLsb' 8 8]

def bytes32 (x : BitVec 32) : List Byte :=
  [x.extractLsb' 0 8, x.extractLsb' 8 8, x.extractLsb' 16 8, x.extractLsb' 24 8]

def ascii (text : String) : List Byte := text.toList.map (fun c => BitVec.ofNat 8 c.toNat)

def digit (c : Byte) : Option Nat :=
  if 0x30 ≤ c.toNat ∧ c.toNat ≤ 0x39 then some (c.toNat - 0x30) else none

def slice (mem : Memory) (i n : Nat) : List Byte := (List.range n).map (fun k => mem (i + k))

def ofList (bytes : List Byte) : Memory := fun i => bytes.getD i 0

/-- The memory after its first `size` bytes have received as many of `bytes` as they have room for. -/
def filled (size : Nat) (mem : Memory) (bytes : List Byte) : Memory :=
  fun i => if i < min bytes.length size then ofList bytes i else mem i

def memmove (mem : Memory) (dst src n : Nat) : Memory :=
  fun a => if dst ≤ a ∧ a < dst + n then mem (src + (a - dst)) else mem a

def storeBytes (mem : Memory) (i : Nat) (bytes : List Byte) : Memory :=
  fun a => if i ≤ a ∧ a < i + bytes.length then ofList bytes (a - i) else mem a

def Holds (mem : Memory) (i : Nat) (bytes : List Byte) : Prop :=
  ∀ k (h : k < bytes.length), mem (i + k) = bytes[k]

variable {mem mem' : Memory} {i j n : Nat} {xs ys : List Byte}

@[simp] theorem length_bytes16 (x : BitVec 16) : (bytes16 x).length = 2 := rfl

@[simp] theorem length_bytes32 (x : BitVec 32) : (bytes32 x).length = 4 := rfl

theorem read16_eq {start stop : Nat} (hstart : start ≤ i) (hstop : i + 2 ≤ stop) :
    read16 mem start stop i = some (word16 mem i) := if_pos ⟨hstart, hstop⟩

theorem read32_eq {start stop : Nat} (hstart : start ≤ i) (hstop : i + 4 ≤ stop) :
    read32 mem start stop i = some (word32 mem i) := if_pos ⟨hstart, hstop⟩

@[simp] theorem length_slice : (slice mem i n).length = n := by
  simp [slice]

theorem holds_iff_slice : Holds mem i xs ↔ slice mem i xs.length = xs := by
  constructor
  · intro h
    apply List.ext_getElem
    · simp
    · intro k _ hk
      simpa [slice] using h k hk
  · intro h k hk
    have hk' : (slice mem i xs.length)[k]? = xs[k]? := by rw [h]
    rw [List.getElem?_eq_getElem hk, slice, List.getElem?_map, List.getElem?_range hk] at hk'
    exact Option.some.inj hk'

theorem holds_append : Holds mem i (xs ++ ys) ↔ Holds mem i xs ∧ Holds mem (i + xs.length) ys := by
  constructor
  · intro h
    refine ⟨fun k hk => ?_, fun k hk => ?_⟩
    · rw [h k (by rw [List.length_append]; omega), List.getElem_append_left hk]
    · have hk' := h (xs.length + k) (by rw [List.length_append]; omega)
      rw [List.getElem_append_right (by omega)] at hk'
      simpa [Nat.add_assoc] using hk'
  · rintro ⟨hx, hy⟩ k hk
    by_cases hlt : k < xs.length
    · rw [hx k hlt, List.getElem_append_left hlt]
    · have hk' := hy (k - xs.length) (by rw [List.length_append] at hk; omega)
      rw [List.getElem_append_right (by omega), ← hk']
      congr 1
      omega

theorem Holds.congr (h : Holds mem i xs) (hsame : ∀ a, i ≤ a → a < i + xs.length → mem' a = mem a) :
    Holds mem' i xs := by
  intro k hk
  rw [hsame (i + k) (by omega) (by omega)]
  exact h k hk

theorem memmove_of_lt {dst src a : Nat} (h : a < dst) : memmove mem dst src n a = mem a :=
  if_neg fun hin => absurd hin.1 (Nat.not_le_of_lt h)

theorem memmove_of_le {dst src a : Nat} (h : dst + n ≤ a) : memmove mem dst src n a = mem a :=
  if_neg fun hin => absurd hin.2 (Nat.not_lt_of_le h)

theorem holds_memmove {src : Nat} (h : Holds mem src xs) (dst : Nat) :
    Holds (memmove mem dst src xs.length) dst xs := by
  intro k hk
  rw [memmove, if_pos ⟨by omega, by omega⟩, Nat.add_sub_cancel_left]
  exact h k hk

theorem Holds.take (h : Holds mem i xs) (k : Nat) : Holds mem i (xs.take k) := by
  intro l hl
  rw [List.getElem_take]
  exact h l (hl.trans_le (List.length_take_le' k xs))

theorem Holds.drop (h : Holds mem i xs) (k : Nat) : Holds mem (i + k) (xs.drop k) := by
  intro l hl
  rw [List.length_drop] at hl
  rw [List.getElem_drop, Nat.add_assoc]
  exact h (k + l) (by omega)

theorem holds_ofList (bytes : List Byte) : Holds (ofList bytes) 0 bytes := by
  intro k hk
  rw [Nat.zero_add, ofList, List.getD_eq_getElem _ _ hk]

theorem holds_filled (size : Nat) (mem : Memory) (bytes : List Byte) :
    Holds (filled size mem bytes) 0 (bytes.take size) := by
  intro k hk
  rw [List.length_take] at hk
  rw [Nat.zero_add, filled, if_pos (by omega), ofList, List.getElem_take, List.getD_eq_getElem]

theorem holds_storeBytes (mem : Memory) (i : Nat) (bytes : List Byte) :
    Holds (storeBytes mem i bytes) i bytes := by
  intro k hk
  rw [storeBytes, if_pos (by omega), Nat.add_sub_cancel_left, ofList, List.getD_eq_getElem]

theorem storeBytes_of_outside {bytes : List Byte} {a : Nat} (h : a < i ∨ i + bytes.length ≤ a) :
    storeBytes mem i bytes a = mem a := if_neg (by omega)

theorem Holds.storeBytes (h : Holds mem i xs) (hj : i + xs.length ≤ j) (bytes : List Byte) :
    Holds (storeBytes mem j bytes) i xs := h.congr fun a _ ha => storeBytes_of_outside (.inl (by omega))

theorem slice_ofList {bytes : List Byte} (h : i + n ≤ bytes.length) :
    slice (ofList bytes) i n = (bytes.drop i).take n := by
  apply List.ext_getElem
  · simp
    omega
  · intro k hk _
    rw [length_slice] at hk
    simp [slice, ofList, List.getElem?_eq_getElem (show i + k < bytes.length by omega)]

theorem ofList_slice {k : Nat} (h : k < n) : ofList (slice mem i n) k = mem (i + k) := by
  simp [ofList, slice, List.getElem?_range h]

theorem drop_slice (k : Nat) : (slice mem i n).drop k = slice mem (i + k) (n - k) := by
  apply List.ext_getElem
  · simp
  · intro l _ _
    simp [slice, Nat.add_assoc]

theorem take_slice (k : Nat) : (slice mem i n).take k = slice mem i (min k n) := by
  rw [slice, slice, ← List.map_take, List.take_range]

theorem slice_add (mem : Memory) (i m n : Nat) :
    slice mem i (m + n) = slice mem i m ++ slice mem (i + m) n := by
  rw [slice, List.range_add, List.map_append, List.map_map, slice, slice]
  refine congrArg _ (List.map_congr_left fun k _ => ?_)
  rw [Function.comp_apply, Nat.add_assoc]

theorem word16_of_holds {x : BitVec 16} (h : Holds mem i (bytes16 x)) : word16 mem i = x := by
  have h0 := h 0 (by simp)
  have h1 := h 1 (by simp)
  simp only [bytes16, Nat.add_zero, List.getElem_cons_zero, List.getElem_cons_succ] at h0 h1
  rw [word16, h0, h1]
  exact BitVec.extractLsb'_append_extractLsb'

theorem word32_of_holds {x : BitVec 32} (h : Holds mem i (bytes32 x)) : word32 mem i = x := by
  have h0 := h 0 (by simp)
  have h1 := h 1 (by simp)
  have h2 := h 2 (by simp)
  have h3 := h 3 (by simp)
  simp only [bytes32, Nat.add_zero, List.getElem_cons_zero, List.getElem_cons_succ] at h0 h1 h2 h3
  have h32 : x.extractLsb' 24 8 ++ x.extractLsb' 16 8 = x.extractLsb' 16 16 :=
    BitVec.extractLsb'_append_extractLsb'_eq_extractLsb' rfl
  have h21 : x.extractLsb' 16 16 ++ x.extractLsb' 8 8 = x.extractLsb' 8 24 :=
    BitVec.extractLsb'_append_extractLsb'_eq_extractLsb' rfl
  have h10 : x.extractLsb' 8 24 ++ x.extractLsb' 0 8 = x.extractLsb' 0 32 :=
    BitVec.extractLsb'_append_extractLsb'_eq_extractLsb' rfl
  rw [word32, h0, h1, h2, h3, h32, h21, h10]
  exact BitVec.extractLsb'_eq_self

theorem word16_congr (h : ∀ k < 2, mem (i + k) = mem' (j + k)) : word16 mem i = word16 mem' j := by
  have h0 := h 0 (by decide)
  have h1 := h 1 (by decide)
  rw [Nat.add_zero, Nat.add_zero] at h0
  rw [word16, word16, h0, h1]

theorem word32_congr (h : ∀ k < 4, mem (i + k) = mem' (j + k)) : word32 mem i = word32 mem' j := by
  have h0 := h 0 (by decide)
  have h1 := h 1 (by decide)
  have h2 := h 2 (by decide)
  have h3 := h 3 (by decide)
  rw [Nat.add_zero, Nat.add_zero] at h0
  rw [word32, word32, h0, h1, h2, h3]

theorem word16_ofList_slice {k : Nat} (h : k + 2 ≤ n) :
    word16 (ofList (slice mem i n)) k = word16 mem (i + k) :=
  word16_congr fun l hl => by rw [ofList_slice (by omega), Nat.add_assoc]

theorem word32_ofList_slice {k : Nat} (h : k + 4 ≤ n) :
    word32 (ofList (slice mem i n)) k = word32 mem (i + k) :=
  word32_congr fun l hl => by rw [ofList_slice (by omega), Nat.add_assoc]

theorem holds_bytes16 (mem : Memory) (i : Nat) : Holds mem i (bytes16 (word16 mem i)) := by
  have hlow : (word16 mem i).extractLsb' 0 8 = mem i := by
    rw [word16, BitVec.extractLsb'_append_eq_right]
  have hhigh : (word16 mem i).extractLsb' 8 8 = mem (i + 1) := by
    rw [word16, BitVec.extractLsb'_append_eq_left]
  rw [bytes16, hlow, hhigh]
  intro k hk
  have hlt : k < 2 := hk
  interval_cases k <;> rfl

theorem holds_bytes32 (mem : Memory) (i : Nat) : Holds mem i (bytes32 (word32 mem i)) := by
  have h0 : (word32 mem i).extractLsb' 0 8 = mem i := by
    rw [word32, BitVec.extractLsb'_append_eq_right]
  have h1 : (word32 mem i).extractLsb' 8 8 = mem (i + 1) := by
    rw [word32, BitVec.extractLsb'_append_eq_of_le (by decide), BitVec.extractLsb'_append_eq_right]
  have h2 : (word32 mem i).extractLsb' 16 8 = mem (i + 2) := by
    rw [word32, BitVec.extractLsb'_append_eq_of_le (by decide),
      BitVec.extractLsb'_append_eq_of_le (by decide), BitVec.extractLsb'_append_eq_right]
  have h3 : (word32 mem i).extractLsb' 24 8 = mem (i + 3) := by
    rw [word32, BitVec.extractLsb'_append_eq_of_le (by decide),
      BitVec.extractLsb'_append_eq_of_le (by decide), BitVec.extractLsb'_append_eq_of_le (by decide)]
    exact BitVec.extractLsb'_eq_self
  rw [bytes32, h0, h1, h2, h3]
  intro k hk
  have hlt : k < 4 := hk
  interval_cases k <;> rfl

/-- A text in memory, up to its first NUL within `n` bytes. -/
def cString (mem : Memory) (i n : Nat) : List Byte := (slice mem i n).takeWhile (· ≠ 0)

theorem takeWhile_append_of_notMem (h : 0 ∉ xs) (ys : List Byte) :
    (xs ++ ys).takeWhile (· ≠ 0) = xs ++ ys.takeWhile (· ≠ 0) := by
  apply List.takeWhile_append_of_pos
  intro c hc
  rw [decide_eq_true_eq]
  rintro rfl
  exact h hc

theorem takeWhile_of_notMem (h : 0 ∉ xs) : xs.takeWhile (· ≠ 0) = xs := by
  have hall := takeWhile_append_of_notMem h []
  rwa [List.append_nil, List.takeWhile_nil, List.append_nil] at hall

theorem takeWhile_append_of_mem {α : Type} {p : α → Bool} {a : α} {l l' : List α} (ha : a ∈ l)
    (hp : p a = false) : (l ++ l').takeWhile p = l.takeWhile p := by
  induction l with
  | nil => cases ha
  | cons b l ih =>
    rw [List.cons_append, List.takeWhile_cons, List.takeWhile_cons]
    split
    · rename_i hb
      rcases List.mem_cons.mp ha with rfl | ha
      · rw [hp] at hb
        cases hb
      · rw [ih ha]
    · rfl

theorem cString_eq {m : Nat} (h : 0 ∈ (slice mem i n).take m) :
    cString mem i m = (slice mem i n).takeWhile (· ≠ 0) := by
  have hpart : ∀ k, min m n ≤ k →
      (slice mem i k).takeWhile (· ≠ 0) = (slice mem i (min m n)).takeWhile (· ≠ 0) := by
    intro k hk
    have hsplit := List.take_append_drop (min m n) (slice mem i k)
    rw [take_slice, Nat.min_eq_left hk] at hsplit
    rw [take_slice] at h
    rw [← hsplit]
    exact takeWhile_append_of_mem h (by simp)
  rw [cString, hpart m (Nat.min_le_left m n), hpart n (Nat.min_le_right m n)]

/-- A text is read from its field alone just if it ends in the field or right after it. -/
theorem cString_eq_takeWhile_iff {m : Nat} (h : m < n) :
    cString mem i n = (slice mem i m).takeWhile (· ≠ 0) ↔ 0 ∈ slice mem i m ∨ mem (i + m) = 0 := by
  obtain ⟨k, rfl⟩ : ∃ k, n = m + (k + 1) := ⟨n - m - 1, by omega⟩
  have hafter : slice mem (i + m) (k + 1) = mem (i + m) :: slice mem (i + m + 1) k := by
    rw [Nat.add_comm k 1, slice_add]
    rfl
  rw [cString, slice_add, hafter]
  by_cases hzero : 0 ∈ slice mem i m
  · rw [takeWhile_append_of_mem hzero (by simp)]
    exact iff_of_true rfl (.inl hzero)
  · rw [takeWhile_append_of_notMem hzero, takeWhile_of_notMem hzero, List.append_right_eq_self,
      List.takeWhile_cons, or_iff_right hzero]
    by_cases hnext : mem (i + m) = 0 <;> simp [hnext]

def readString (mem : Memory) (stop i : Nat) : Option (List Byte) :=
  if 0 ∈ slice mem i (stop - i) then some (cString mem i (stop - i)) else none

theorem readString_of_holds {text rest : List Byte} {stop : Nat} (h : Holds mem i (text ++ 0 :: rest))
    (htext : 0 ∉ text) (hstop : i + (text ++ 0 :: rest).length ≤ stop) :
    readString mem stop i = some text := by
  obtain ⟨n, hn⟩ : ∃ n, stop - i = (text ++ 0 :: rest).length + n :=
    ⟨stop - i - (text ++ 0 :: rest).length, by omega⟩
  have hslice : slice mem i (stop - i) =
      text ++ (0 :: rest ++ slice mem (i + (text ++ 0 :: rest).length) n) := by
    rw [hn, slice_add, holds_iff_slice.mp h, List.append_assoc]
  rw [readString, cString, hslice, if_pos (by simp), takeWhile_append_of_notMem htext, List.cons_append,
    List.takeWhile_cons_of_neg (by simp), List.append_nil]

theorem length_cString_lt (h : 0 ∈ slice mem i n) : (cString mem i n).length < n := by
  have hle : (cString mem i n).length ≤ n := by
    rw [cString]
    exact (List.takeWhile_sublist _).length_le.trans_eq length_slice
  refine lt_of_le_of_ne hle fun heq => ?_
  have hall : cString mem i n = slice mem i n :=
    (List.takeWhile_sublist _).eq_of_length (heq.trans length_slice.symm)
  rw [← hall, cString] at h
  simpa using List.mem_takeWhile_imp h

end RoblSampleCodes.ByteMemory
