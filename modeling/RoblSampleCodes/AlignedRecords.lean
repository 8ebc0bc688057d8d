import RoblSampleCodes.ByteMemory

namespace RoblSampleCodes.AlignedRecords

open ByteMemory

structure Format where
  hdr : Nat
  hdr_pos : 0 < hdr
  len : Memory → Nat → Nat
  len_congr : ∀ {mem mem' i j}, (∀ k < hdr, mem (i + k) = mem' (j + k)) → len mem i = len mem' j

def align (n : Nat) : Nat := (n + 3) / 4 * 4

variable (F : Format) {mem mem' : Memory} {i j : Nat} {len : Int}

/-- A whole record stands at `i`, in the `len` bytes from there. -/
def Ok (mem : Memory) (i : Nat) (len : Int) : Prop :=
  F.hdr ≤ len ∧ F.hdr ≤ F.len mem i ∧ F.len mem i ≤ len

instance (mem : Memory) (i : Nat) (len : Int) : Decidable (Ok F mem i len) :=
  inferInstanceAs (Decidable (_ ∧ _ ∧ _))

def walk : Nat → Memory → Nat → Int → List Nat
  | 0, _, _, _ => []
  | fuel + 1, mem, i, len =>
    if Ok F mem i len then
      i :: walk fuel mem (i + align (F.len mem i)) (len - align (F.len mem i))
    else []

def records (mem : Memory) (i : Nat) (len : Int) : List Nat := walk F len.toNat mem i len

def record (mem : Memory) (i : Nat) : List Byte := slice mem i (F.len mem i)

/-- The bytes of all records. -/
def contents (mem : Memory) (i : Nat) (len : Int) : List (List Byte) :=
  (records F mem i len).map (record F mem)

theorem le_align (n : Nat) : n ≤ align n := by
  rw [align]
  omega

variable {F}

theorem Ok.lt (h : Ok F mem i len) : (len - align (F.len mem i)).toNat < len.toNat := by
  have hpos := F.hdr_pos
  have hle := le_align (F.len mem i)
  obtain ⟨hlen, hhdr, -⟩ := h
  omega

theorem Ok.pos (h : Ok F mem i len) : 0 < len.toNat := by
  have hpos := F.hdr_pos
  have hlen := h.1
  omega

theorem walk_of_not_ok (h : ¬ Ok F mem i len) (fuel : Nat) : walk F fuel mem i len = [] := by
  cases fuel with
  | zero => rfl
  | succ fuel => rw [walk, if_neg h]

theorem walk_eq_walk {fuel fuel' : Nat} (h : len.toNat ≤ fuel) (h' : len.toNat ≤ fuel') :
    walk F fuel mem i len = walk F fuel' mem i len := by
  induction fuel generalizing fuel' i len with
  | zero =>
    have hnot : ¬ Ok F mem i len := fun hok => absurd hok.pos (by omega)
    rw [walk_of_not_ok hnot, walk_of_not_ok hnot]
  | succ fuel ih =>
    by_cases hok : Ok F mem i len
    · have hlt := hok.lt
      cases fuel' with
      | zero => exact absurd hok.pos (by omega)
      | succ fuel' =>
        rw [walk, walk, if_pos hok, if_pos hok]
        exact congrArg (i :: ·) (ih (by omega) (by omega))
    · rw [walk_of_not_ok hok, walk_of_not_ok hok]

theorem records_of_not_ok (h : ¬ Ok F mem i len) : records F mem i len = [] := walk_of_not_ok h _

theorem records_of_ok (h : Ok F mem i len) : records F mem i len =
    i :: records F mem (i + align (F.len mem i)) (len - align (F.len mem i)) := by
  have hlt := h.lt
  obtain ⟨fuel, hfuel⟩ : ∃ fuel, len.toNat = fuel + 1 := ⟨len.toNat - 1, by have := h.pos; omega⟩
  rw [records, hfuel, walk, if_pos h, walk_eq_walk (by omega) le_rfl]
  rfl

theorem contents_of_not_ok (h : ¬ Ok F mem i len) : contents F mem i len = [] := by
  rw [contents, records_of_not_ok h, List.map_nil]

theorem contents_zero : contents F mem i 0 = [] :=
  contents_of_not_ok fun h => absurd h.pos (Nat.lt_irrefl 0)

theorem contents_of_ok (h : Ok F mem i len) : contents F mem i len =
    record F mem i :: contents F mem (i + align (F.len mem i)) (len - align (F.len mem i)) := by
  rw [contents, records_of_ok h, List.map_cons, contents]

theorem hdr_le_of_mem {p : Nat} (h : p ∈ records F mem i len) : F.hdr ≤ F.len mem p := by
  induction hn : len.toNat using Nat.strong_induction_on generalizing i len with
  | h n ih =>
    by_cases hok : Ok F mem i len
    · rw [records_of_ok hok] at h
      rcases List.mem_cons.mp h with rfl | h
      · exact hok.2.1
      · exact ih _ (hn ▸ hok.lt) h rfl
    · rw [records_of_not_ok hok] at h
      cases h

section WellFormed

variable (F) {stop : Nat} {ps : List Nat}

/-- Whole records before `stop`, of which the first one stands at `i` and each other one where
the one before it ends. -/
inductive WellFormed (mem : Memory) (stop : Nat) : Nat → List Nat → Prop
  | nil {i : Nat} : WellFormed mem stop i []
  | cons {i : Nat} {ps : List Nat} (hhdr : F.hdr ≤ F.len mem i) (hstop : i + F.len mem i ≤ stop)
      (hrest : WellFormed mem stop (i + align (F.len mem i)) ps) : WellFormed mem stop i (i :: ps)

def Longest (mem : Memory) (stop i : Nat) (ps : List Nat) : Prop :=
  WellFormed F mem stop i ps ∧ ∀ qs, WellFormed F mem stop i qs → qs <+: ps

variable {F}

theorem Ok.le_stop (h : Ok F mem i len) (hlen : len.toNat = stop - i) : i + F.len mem i ≤ stop := by
  obtain ⟨-, hhdr, hle⟩ := h
  have hpos := F.hdr_pos
  omega

theorem wellFormed_records (hlen : len.toNat = stop - i) :
    WellFormed F mem stop i (records F mem i len) := by
  induction hn : len.toNat using Nat.strong_induction_on generalizing i len with
  | h n ih =>
    by_cases hok : Ok F mem i len
    · rw [records_of_ok hok]
      exact .cons hok.2.1 (hok.le_stop hlen) (ih _ (hn ▸ hok.lt) (by omega) rfl)
    · rw [records_of_not_ok hok]
      exact .nil

theorem WellFormed.isPrefix (h : WellFormed F mem stop i ps) (hlen : len.toNat = stop - i) :
    ps <+: records F mem i len := by
  induction h generalizing len with
  | nil => exact List.nil_prefix
  | @cons i ps hhdr hstop hrest ih =>
    have hpos := F.hdr_pos
    have hok : Ok F mem i len := ⟨by omega, hhdr, by omega⟩
    rw [records_of_ok hok]
    exact List.cons_prefix_cons.mpr ⟨rfl, ih (by omega)⟩

theorem longest_records (hlen : len.toNat = stop - i) : Longest F mem stop i (records F mem i len) :=
  ⟨wellFormed_records hlen, fun _ h => h.isPrefix hlen⟩

end WellFormed

def Agree (mem mem' : Memory) (i j : Nat) (len : Int) : Prop :=
  ∀ k : Nat, k < len → mem (i + k) = mem' (j + k)

theorem slice_of_agree {n : Nat} (h : Agree mem mem' i j len) (hn : n ≤ len) :
    slice mem i n = slice mem' j n := by
  apply List.map_congr_left
  intro k hk
  rw [List.mem_range] at hk
  exact h k (by omega)

theorem len_of_agree (h : Agree mem mem' i j len) (hlen : F.hdr ≤ len) : F.len mem i = F.len mem' j :=
  F.len_congr fun k hk => h k (by omega)

theorem Agree.ok (h : Agree mem mem' i j len) (hok : Ok F mem i len) : Ok F mem' j len := by
  rw [Ok, ← len_of_agree h hok.1]
  exact hok

theorem Agree.symm (h : Agree mem mem' i j len) : Agree mem' mem j i len := fun k hk => (h k hk).symm

theorem Agree.next (h : Agree mem mem' i j len) (n : Nat) : Agree mem mem' (i + n) (j + n) (len - n) := by
  intro k hk
  rw [Nat.add_assoc, Nat.add_assoc]
  exact h (n + k) (by omega)

theorem contents_of_agree (h : Agree mem mem' i j len) : contents F mem i len = contents F mem' j len := by
  induction hn : len.toNat using Nat.strong_induction_on generalizing i j len with
  | h n ih =>
    by_cases hok : Ok F mem i len
    · have hlen := len_of_agree h hok.1
      have hrecord : record F mem i = record F mem' j := by
        rw [record, record, ← hlen]
        exact slice_of_agree h hok.2.2
      rw [contents_of_ok hok, contents_of_ok (h.ok hok), ← hlen, hrecord,
        ih _ (hn ▸ hok.lt) (h.next _) rfl]
    · have hnot : ¬ Ok F mem' j len := fun hok' => hok (h.symm.ok hok')
      rw [contents_of_not_ok hok, contents_of_not_ok hnot]

theorem agree_of_holds {bytes : List Byte} (h : Holds mem i bytes) :
    Agree mem (ofList bytes) i 0 bytes.length := by
  intro k hk
  rw [h k (by omega), holds_ofList bytes k (by omega)]

def IsRecord (F : Format) (bytes : List Byte) : Prop :=
  F.hdr ≤ bytes.length ∧ F.len (ofList bytes) 0 = bytes.length

/-- Records laid out one after the other, with any padding up to the next multiple of 4. The
last one need not be padded. -/
inductive Laid (F : Format) : List (List Byte) → List Byte → Prop
  | nil : Laid F [] []
  | last {m : List Byte} (h : IsRecord F m) : Laid F [m] m
  | cons {m padding bytes : List Byte} {ms : List (List Byte)} (h : IsRecord F m)
      (hpadding : m.length + padding.length = align m.length) (hrest : Laid F ms bytes) :
      Laid F (m :: ms) (m ++ padding ++ bytes)

theorem Laid.aligned {m bytes : List Byte} {ms : List (List Byte)} (h : IsRecord F m)
    (halign : align m.length = m.length) (hrest : Laid F ms bytes) : Laid F (m :: ms) (m ++ bytes) := by
  have hcons := @Laid.cons F m [] bytes ms h halign.symm hrest
  rwa [List.append_nil] at hcons

theorem len_of_holds {m : List Byte} (h : Holds mem i m) (hm : IsRecord F m) : F.len mem i = m.length := by
  rw [len_of_agree (agree_of_holds h) (by have := hm.1; omega)]
  exact hm.2

theorem record_of_holds {m : List Byte} (h : Holds mem i m) (hm : IsRecord F m) : record F mem i = m := by
  rw [record, len_of_holds h hm]
  exact holds_iff_slice.mp h

theorem contents_of_laid {ms : List (List Byte)} {bytes : List Byte} (h : Laid F ms bytes)
    (hmem : Holds mem i bytes) : contents F mem i bytes.length = ms := by
  induction h generalizing i with
  | nil => exact contents_zero
  | @last m hm =>
    have hlen := len_of_holds hmem hm
    have hok : Ok F mem i m.length := by
      rw [Ok, hlen]
      exact ⟨by exact_mod_cast hm.1, hm.1, le_rfl⟩
    have hend : ¬ Ok F mem (i + align m.length) (m.length - align m.length) := by
      intro hok'
      have hle := le_align m.length
      exact absurd hok'.pos (by omega)
    rw [contents_of_ok hok, record_of_holds hmem hm, hlen, contents_of_not_ok hend]
  | @cons m padding bytes ms hm hpadding _ ih =>
    obtain ⟨hfirst, hrest⟩ := holds_append.mp hmem
    have hmem' := (holds_append.mp hfirst).1
    have hlen := len_of_holds hmem' hm
    have hok : Ok F mem i (m ++ padding ++ bytes).length := by
      rw [Ok, hlen]
      have hhdr := hm.1
      simp only [List.length_append]
      omega
    rw [List.length_append, hpadding] at hrest
    have hleft : ((m ++ padding ++ bytes).length : Int) - align m.length = bytes.length := by
      simp only [List.length_append]
      omega
    rw [contents_of_ok hok, record_of_holds hmem' hm, hlen, hleft, ih hrest]

def whole : Nat → List (List Byte) → List (List Byte)
  | _, [] => []
  | n, m :: ms => if m.length ≤ n then m :: whole (n - align m.length) ms else []

theorem whole_isPrefix (n : Nat) (ms : List (List Byte)) : whole n ms <+: ms := by
  induction ms generalizing n with
  | nil => exact List.nil_prefix
  | cons m ms ih =>
    rw [whole]
    split
    · exact List.cons_prefix_cons.mpr ⟨rfl, ih _⟩
    · exact List.nil_prefix

/-- A record that is cut off is not taken for one. -/
theorem not_ok_of_cut {m rest : List Byte} {n : Nat} (hm : IsRecord F m) (hlt : n < m.length)
    (hmem : Holds mem i ((m ++ rest).take n)) (hlen : len ≤ n) : ¬ Ok F mem i len := by
  intro hok
  have hhdr : (F.hdr : Int) ≤ n := hok.1.trans hlen
  rw [List.take_append_of_le_length hlt.le] at hmem
  have hcut : (m.take n).length = n := by
    rw [List.length_take]
    omega
  have hsame : F.len mem i = F.len (ofList m) 0 := F.len_congr fun k hk => by
    rw [hmem k (by omega), List.getElem_take, ← holds_ofList m k (by omega)]
  have hle := hok.2.2
  rw [hsame, hm.2] at hle
  omega

theorem contents_of_laid_take {ms : List (List Byte)} {bytes : List Byte} (h : Laid F ms bytes) {n : Nat}
    (hmem : Holds mem i (bytes.take n)) :
    contents F mem i (min n bytes.length : Nat) = whole n ms := by
  induction h generalizing i n with
  | nil =>
    rw [List.length_nil, Nat.min_zero]
    exact contents_zero
  | @last m hm =>
    rw [whole]
    split
    · rename_i hle
      rw [List.take_of_length_le hle] at hmem
      rw [Nat.min_eq_right hle]
      exact contents_of_laid (.last hm) hmem
    · rename_i hnot
      exact contents_of_not_ok (not_ok_of_cut hm (not_le.mp hnot) (by rwa [List.append_nil]) (by omega))
  | @cons m padding bytes ms hm hpadding hrest ih =>
    rw [whole]
    split
    · rename_i hle
      have hfirst : Holds mem i m := by
        have htake := hmem.take m.length
        rwa [List.take_take, Nat.min_eq_left hle, List.append_assoc, List.take_left] at htake
      have hlen := len_of_holds hfirst hm
      have hok : Ok F mem i (min n (m ++ padding ++ bytes).length : Nat) := by
        rw [Ok, hlen]
        have hhdr := hm.1
        simp only [List.length_append]
        omega
      have hnext : Holds mem (i + align m.length) (bytes.take (n - align m.length)) := by
        have hdrop := hmem.drop (align m.length)
        rwa [List.drop_take, List.drop_left' (by rw [List.length_append, hpadding])] at hdrop
      rw [contents_of_ok hok, record_of_holds hfirst hm, hlen, ← ih hnext]
      refine congrArg (m :: ·) ?_
      by_cases hpast : align m.length ≤ n
      · congr 1
        simp only [List.length_append]
        omega
      · have hnot : ¬ Ok F mem (i + align m.length)
            ((min n (m ++ padding ++ bytes).length : Nat) - align m.length) := fun hok' => by
          have hpos := hok'.pos
          omega
        rw [contents_of_not_ok hnot, Nat.sub_eq_zero_of_le (by omega), Nat.zero_min]
        exact contents_zero.symm
    · rename_i hnot
      rw [List.append_assoc] at hmem
      exact contents_of_not_ok (not_ok_of_cut hm (not_le.mp hnot) hmem (by omega))

end RoblSampleCodes.AlignedRecords
