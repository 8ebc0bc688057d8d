import RoblSampleCodes.SequentialDraw

namespace RoblSampleCodes.Lottery

open SequentialDraw

inductive Panic
  | makeslice
  | intn
  | index
  | sliceBounds
  deriving DecidableEq

/-- The array from the start of a slice up to its capacity, and the length of the slice. -/
structure Slice (α : Type) where
  array : List α
  len : ℕ
  len_le : len ≤ array.length

section Slice

variable {α : Type}

def Slice.entries (s : Slice α) : List α := s.array.take s.len

def Slice.get (s : Slice α) (i : ℕ) : Except Panic α :=
  if h : i < s.len then .ok (s.array.get ⟨i, h.trans_le s.len_le⟩) else .error .index

def Slice.before (s : Slice α) (n : ℕ) : Except Panic (Slice α) :=
  if h : n ≤ s.array.length then .ok ⟨s.array, n, h⟩ else .error .sliceBounds

def Slice.after (s : Slice α) (n : ℕ) : Except Panic (Slice α) :=
  if n ≤ s.len then
    .ok ⟨s.array.drop n, s.len - n, by
      rw [List.length_drop]
      exact Nat.sub_le_sub_right s.len_le n⟩
  else .error .sliceBounds

def Slice.append (s : Slice α) (xs : List α) : Slice α :=
  if h : s.len + xs.length ≤ s.array.length then
    ⟨s.entries ++ xs ++ s.array.drop (s.len + xs.length), s.len + xs.length, by
      simp [Slice.entries]
      omega⟩
  else
    ⟨s.entries ++ xs, s.len + xs.length, by
      have := s.len_le
      simp [Slice.entries]
      omega⟩

/-- What `append` writes is taken from the slice first, so that the two may overlap. -/
def Slice.remove (s : Slice α) (n : ℕ) : Except Panic (Slice α) :=
  (s.before n).bind fun head => (s.after (n + 1)).map fun tail => head.append tail.entries

def turn (i n : ℕ) (winners : List α) (candidates : Slice α) : Except Panic (List α × Slice α) :=
  if candidates.len = 0 then .error .intn
  else
    (candidates.get n).bind fun winner =>
      if i < winners.length then
        (candidates.remove n).map fun candidates => (winners.set i winner, candidates)
      else .error .index

def loop (intn : ℕ → ℕ) : ℕ → ℕ → List α → Slice α → Except Panic (List α × Slice α)
  | _, 0, winners, candidates => .ok (winners, candidates)
  | i, turns + 1, winners, candidates =>
    (turn i (intn i) winners candidates).bind fun r => loop intn (i + 1) turns r.1 r.2

/-- The draw of `count` winners, where `rand.Intn` returns `intn i` in the `i`th turn. A `count` too
large for the memory panics in `make` too, and here later, in `rand.Intn`. -/
def draw (zero : α) (count : ℤ) (intn : ℕ → ℕ) (candidates : Slice α) : Except Panic (List α × Slice α) :=
  if count < 0 then .error .makeslice
  else loop intn 0 count.toNat (List.replicate count.toNat zero) candidates

end Slice

def results {L k : ℕ} (n : Indices L k) (i : ℕ) : ℕ := if h : i < k then n ⟨i, h⟩ else 0

def positions (L : ℕ) : Slice ℕ := ⟨List.range L, L, List.length_range.ge⟩

def drawnPositions {L k : ℕ} (n : Indices L k) : List ℕ :=
  match draw 0 k (results n) (positions L) with
  | .ok r => r.1
  | .error _ => []

variable {α : Type} {s : Slice α} {n : ℕ} {x : α}

theorem Slice.length_entries (s : Slice α) : s.entries.length = s.len := List.length_take_of_le s.len_le

theorem get_eq (h : s.entries[n]? = some x) : s.get n = .ok x := by
  obtain ⟨hn, hget⟩ := List.getElem?_eq_some_iff.mp h
  rw [Slice.length_entries] at hn
  rw [Slice.get, dif_pos hn, ← hget]
  simp [Slice.entries]

theorem entries_append (s : Slice α) (xs : List α) : (s.append xs).entries = s.entries ++ xs := by
  have hlen : (s.entries ++ xs).length = s.len + xs.length := by
    rw [List.length_append, s.length_entries]
  rw [Slice.append]
  split
  · exact List.take_left' hlen
  · exact List.take_of_length_le hlen.le

theorem remove_eq (h : n < s.len) : ∃ t, s.remove n = .ok t ∧ t.entries = s.entries.eraseIdx n := by
  have hle := s.len_le
  rw [Slice.remove, Slice.before, dif_pos (by omega), Slice.after, if_pos (Nat.succ_le_of_lt h)]
  refine ⟨_, rfl, ?_⟩
  rw [entries_append, List.eraseIdx_eq_take_drop_succ]
  simp only [Slice.entries, List.take_take, List.drop_take]
  rw [Nat.min_eq_left h.le]

theorem turn_eq {i : ℕ} {winners : List α} (hi : i < winners.length) (h : s.entries[n]? = some x) :
    ∃ t, turn i n winners s = .ok (winners.set i x, t) ∧ t.entries = s.entries.eraseIdx n := by
  obtain ⟨hn, -⟩ := List.getElem?_eq_some_iff.mp h
  rw [Slice.length_entries] at hn
  obtain ⟨t, ht, hentries⟩ := remove_eq hn
  refine ⟨t, ?_, hentries⟩
  rw [turn, if_neg (by omega), get_eq h]
  change (if i < winners.length then (s.remove n).map fun candidates => (winners.set i x, candidates)
    else .error .index) = _
  rw [if_pos hi, ht]
  rfl

theorem loop_eq {intn : ℕ → ℕ} {turns i : ℕ} {winners v r : List α} (hi : i + turns ≤ winners.length)
    (h : pick ((List.range' i turns).map intn) s.entries = some (v, r)) :
    ∃ t, loop intn i turns winners s = .ok (winners.take i ++ v ++ winners.drop (i + turns), t) ∧
      t.entries = r := by
  induction turns generalizing i winners s v with
  | zero =>
    obtain ⟨rfl, rfl⟩ := Prod.mk.inj (Option.some.inj h)
    exact ⟨s, by rw [loop, List.append_nil, Nat.add_zero, List.take_append_drop], rfl⟩
  | succ turns ih =>
    rw [List.range'_succ, List.map_cons] at h
    obtain ⟨x, v', hx, hpick, rfl⟩ := pick_cons_eq_some.mp h
    have hturn : i < winners.length := by omega
    have hnext : i + 1 + turns ≤ (winners.set i x).length := by
      rw [List.length_set]
      omega
    obtain ⟨t, ht, hentries⟩ := turn_eq hturn hx
    rw [← hentries] at hpick
    obtain ⟨u, hu, hr⟩ := ih hnext hpick
    refine ⟨u, ?_, hr⟩
    have htake : (winners.set i x).take (i + 1) = winners.take i ++ [x] := by
      rw [List.take_succ_eq_append_getElem (by rwa [List.length_set]), List.take_set_of_le le_rfl,
        List.getElem_set_self]
    have hdrop : (winners.set i x).drop (i + 1 + turns) = winners.drop (i + (turns + 1)) := by
      rw [List.drop_set_of_lt (by omega), Nat.add_assoc, Nat.add_comm 1]
    rw [loop, ht]
    change loop intn (i + 1) turns (winners.set i x) t = _
    rw [hu, htake, hdrop, List.append_assoc _ [x], List.singleton_append]

theorem draw_eq {intn : ℕ → ℕ} {k : ℕ} {v r : List α} (zero : α)
    (h : pick ((List.range k).map intn) s.entries = some (v, r)) :
    ∃ t, draw zero k intn s = .ok (v, t) ∧ t.entries = r := by
  rw [List.range_eq_range'] at h
  have hwinners : 0 + k ≤ (List.replicate k zero).length := by rw [List.length_replicate, Nat.zero_add]
  obtain ⟨t, ht, hr⟩ := loop_eq hwinners h
  refine ⟨t, ?_, hr⟩
  rw [draw, if_neg (by omega), Int.toNat_natCast, ht, List.take_zero, List.nil_append,
    List.drop_of_length_le (by rw [List.length_replicate, Nat.zero_add]), List.append_nil]

theorem map_results {L k : ℕ} (n : Indices L k) : (List.range k).map (results n) = indexList n := by
  apply List.ext_getElem
  · rw [List.length_map, List.length_range, indexList, List.length_ofFn]
  · intro i hi _
    rw [List.length_map, List.length_range] at hi
    rw [getElem_indexList, List.getElem_map, List.getElem_range, results, dif_pos hi]

theorem entries_positions (L : ℕ) : (positions L).entries = List.range L :=
  List.take_of_length_le List.length_range.le

theorem exists_pick_indexList {L k : ℕ} (n : Indices L k) :
    ∃ r, pick (indexList n) (List.range L) = some (drawn (List.range L) (indexList n), r) := by
  have hvalid : Valid (List.range L).length (indexList n) := by
    rw [List.length_range]
    exact ((bijOn_indexList L k).mapsTo trivial).2
  obtain ⟨w, r, hpick⟩ := exists_pick_of_valid hvalid
  exact ⟨r, by rw [drawn_eq hpick, hpick]⟩

theorem drawnPositions_eq {L k : ℕ} (n : Indices L k) :
    drawnPositions n = drawn (List.range L) (indexList n) := by
  obtain ⟨r, hpick⟩ := exists_pick_indexList n
  rw [← map_results, ← entries_positions L] at hpick
  obtain ⟨t, ht, -⟩ := draw_eq 0 hpick
  rw [drawnPositions, ht, map_results, entries_positions]

/-- The winners of any draw are the entries at the drawn positions, and the others are left. -/
theorem draw_positions {L k : ℕ} (zero : α) (n : Indices L k) (hlen : s.len = L) :
    ∃ t, draw zero k (results n) s =
        .ok ((drawnPositions n).map fun p => s.entries.getD p zero, t) ∧
      t.entries = ((List.range L).filter (· ∉ drawnPositions n)).map fun p => s.entries.getD p zero := by
  obtain ⟨r, hpick⟩ := exists_pick_indexList n
  rw [← drawnPositions_eq] at hpick
  have hleft := left_of_pick List.nodup_range hpick
  have hentries : s.entries = (List.range L).map fun p => s.entries.getD p zero := by
    apply List.ext_getElem
    · rw [s.length_entries, hlen, List.length_map, List.length_range]
    · intro i hi _
      rw [List.getElem_map, List.getElem_range, List.getD_eq_getElem _ _ hi]
  have hmap := pick_map (fun p => s.entries.getD p zero) (indexList n) (List.range L)
  rw [← hentries, hpick, Option.map_some, ← map_results] at hmap
  obtain ⟨t, ht, hr⟩ := draw_eq zero hmap
  exact ⟨t, ht, hr.trans (by rw [hleft])⟩

/-- The indices of `k` turns correspond to the ordered selections of `k` positions, of which all
are equally likely. The entries of all other positions are left. -/
theorem draw_fair (zero : α) (candidates : Slice α) (k : ℕ) :
    Set.BijOn (@drawnPositions candidates.len k) Set.univ (selections (List.range candidates.len) k) ∧
      (∀ n : Indices candidates.len k, ∃ remaining,
        draw zero k (results n) candidates =
          .ok ((drawnPositions n).map fun p => candidates.entries.getD p zero, remaining) ∧
        remaining.entries = ((List.range candidates.len).filter (· ∉ drawnPositions n)).map
          fun p => candidates.entries.getD p zero) ∧
      ∀ w ∈ selections (List.range candidates.len) k, uniform candidates.len k
        {n | drawnPositions n = w} = (candidates.len.descFactorial k : ENNReal)⁻¹ := by
  have heq : @drawnPositions candidates.len k =
      fun n => drawn (List.range candidates.len) (indexList n) := by
    funext n
    exact drawnPositions_eq n
  refine ⟨?_, fun n => draw_positions zero n rfl, fun w hw => ?_⟩
  · rw [heq]
    exact bijOn_drawn_indexList List.nodup_range List.length_range k
  · rw [heq]
    exact uniform_drawn List.nodup_range List.length_range hw

example : (draw "" 2 (fun _ => 1) ⟨["a", "b", "c", "d"], 3, by decide⟩).map (fun r => (r.1, r.2.array)) =
    .ok (["b", "c"], ["a", "c", "c", "d"]) := rfl

end RoblSampleCodes.Lottery
