import RoblSampleCodes.CheckedInt
import RoblSampleCodes.TransitionSystem

namespace RoblSampleCodes.VectorSum

open CheckedInt TransitionSystem

def bounds (vectorSize numThreads quotient tid : ℤ) : Option (ℤ × ℤ) :=
  (checked (tid * quotient)).bind fun start =>
    (checked (tid + 1)).bind fun next =>
      (checked (next * quotient)).bind fun stop =>
        (checked (numThreads - 1)).map fun last => (start, if tid = last then vectorSize else stop)

def decomposition (vectorSize numThreads : ℤ) : Option (List (ℤ × ℤ)) :=
  if numThreads = 0 then none
  else (checked (vectorSize.tdiv numThreads)).bind fun quotient =>
    (List.range numThreads.toNat).mapM fun tid : ℕ => bounds vectorSize numThreads quotient tid

structure State where
  a : ℤ → ℤ
  b : ℤ → ℤ
  c : ℤ → ℤ
  i : ℕ → ℤ

/-- An iteration of the loop of a thread, which has to stay within the arrays. -/
def iterate (vectorSize : ℤ) (s : State) (tid : ℕ) : Option State :=
  if 0 ≤ s.i tid ∧ s.i tid < vectorSize then
    (checked (s.a (s.i tid) + s.b (s.i tid))).bind fun sum =>
      (checked (s.i tid + 1)).map fun next =>
        { s with c := Function.update s.c (s.i tid) sum, i := Function.update s.i tid next }
  else none

/-- The parallel region. The first loop of the program has filled `a` and `b`. -/
def region (vectorSize : ℤ) (ranges : List (ℤ × ℤ)) : System State ℕ where
  init s := (∀ i, 0 ≤ i → i < vectorSize → s.a i = 1 ∧ s.b i = 2) ∧
    ∀ tid r, ranges[tid]? = some r → s.i tid = r.1
  step s tid := ranges[tid]?.bind fun r => if s.i tid < r.2 then iterate vectorSize s tid else none

def Done (ranges : List (ℤ × ℤ)) (s : State) : Prop := ∀ tid r, ranges[tid]? = some r → r.2 ≤ s.i tid

structure Partition (vectorSize : ℤ) (ranges : List (ℤ × ℤ)) : Prop where
  within : ∀ r ∈ ranges, Set.Ico r.1 r.2 ⊆ Set.Ico 0 vectorSize
  disjoint : ranges.Pairwise fun r r' => Disjoint (Set.Ico r.1 r.2) (Set.Ico r'.1 r'.2)
  covers : ∀ i ∈ Set.Ico 0 vectorSize, ∃ r ∈ ranges, i ∈ Set.Ico r.1 r.2

variable {vectorSize numThreads : ℤ}

section Decomposition

def cut (vectorSize numThreads : ℤ) (tid : ℕ) : ℤ :=
  if numThreads ≤ tid then vectorSize else tid * (vectorSize / numThreads)

theorem mul_quotient_le (hsize : 0 ≤ vectorSize) (hthreads : 1 ≤ numThreads) {k : ℤ}
    (hk : k ≤ numThreads) : k * (vectorSize / numThreads) ≤ vectorSize :=
  calc k * (vectorSize / numThreads) ≤ numThreads * (vectorSize / numThreads) :=
        mul_le_mul_of_nonneg_right hk (Int.ediv_nonneg hsize (by omega))
    _ ≤ vectorSize := Int.mul_ediv_self_le (by omega)

theorem monotone_cut (hsize : 0 ≤ vectorSize) (hthreads : 1 ≤ numThreads) :
    Monotone (cut vectorSize numThreads) := by
  apply monotone_nat_of_le_succ
  intro tid
  rw [cut, cut]
  have hquotient : 0 ≤ vectorSize / numThreads := Int.ediv_nonneg hsize (by omega)
  by_cases hlast : numThreads ≤ tid
  · rw [if_pos hlast, if_pos (by push_cast; omega)]
  · rw [if_neg hlast]
    by_cases hnext : numThreads ≤ (tid + 1 : ℕ)
    · rw [if_pos hnext]
      exact mul_quotient_le hsize hthreads (by omega)
    · rw [if_neg hnext]
      exact mul_le_mul_of_nonneg_right (by push_cast; omega) hquotient

/-- The intervals between the cuts of a monotone sequence cover what is between the outer ones. -/
theorem exists_mem_Ico {f : ℕ → ℤ} {i : ℤ} (n : ℕ) (h : i ∈ Set.Ico (f 0) (f n)) :
    ∃ k < n, i ∈ Set.Ico (f k) (f (k + 1)) := by
  induction n with
  | zero => exact absurd (h.1.trans_lt h.2) (lt_irrefl _)
  | succ n ih =>
    by_cases hi : i < f n
    · obtain ⟨k, hk, hmem⟩ := ih ⟨h.1, hi⟩
      exact ⟨k, by omega, hmem⟩
    · exact ⟨n, Nat.lt_succ_self n, not_lt.mp hi, h.2⟩

theorem bounds_eq (hsize : 0 ≤ vectorSize ∧ vectorSize ≤ intMax)
    (hthreads : 1 ≤ numThreads ∧ numThreads ≤ intMax) {tid : ℕ} (htid : tid < numThreads) :
    bounds vectorSize numThreads (vectorSize / numThreads) tid =
      some (cut vectorSize numThreads tid, cut vectorSize numThreads (tid + 1)) := by
  have hquotient : 0 ≤ vectorSize / numThreads := Int.ediv_nonneg hsize.1 (by omega)
  have hstart := mul_quotient_le hsize.1 hthreads.1 htid.le
  have hnext : (tid : ℤ) + 1 ≤ numThreads := by omega
  have hstop := mul_quotient_le hsize.1 hthreads.1 hnext
  have hlast : numThreads - 1 ≤ intMax := by omega
  rw [bounds, checked_eq (mul_nonneg (by omega) hquotient) (hstart.trans hsize.2), Option.bind_some,
    checked_eq (by omega) (hnext.trans hthreads.2), Option.bind_some,
    checked_eq (mul_nonneg (by omega) hquotient) (hstop.trans hsize.2), Option.bind_some,
    checked_eq (by omega) hlast, Option.map_some]
  congr 2
  · rw [cut, if_neg (by omega)]
  · rw [cut]
    by_cases heq : (tid : ℤ) = numThreads - 1
    · rw [if_pos heq, if_pos (by push_cast; omega)]
    · rw [if_neg heq, if_neg (by push_cast; omega), Nat.cast_succ]

theorem mapM_eq_some {α β : Type} {f : α → Option β} {g : α → β} {l : List α}
    (h : ∀ a ∈ l, f a = some (g a)) : l.mapM f = some (l.map g) := by
  induction l with
  | nil => rfl
  | cons a l ih =>
    rw [List.forall_mem_cons] at h
    rw [List.mapM_cons, h.1, ih h.2]
    rfl

theorem decomposition_eq (hsize : 0 ≤ vectorSize ∧ vectorSize ≤ intMax)
    (hthreads : 1 ≤ numThreads ∧ numThreads ≤ intMax) : decomposition vectorSize numThreads =
      some ((List.range numThreads.toNat).map fun tid =>
        (cut vectorSize numThreads tid, cut vectorSize numThreads (tid + 1))) := by
  have hquotient : 0 ≤ vectorSize / numThreads := Int.ediv_nonneg hsize.1 (by omega)
  have hle : vectorSize / numThreads ≤ vectorSize := Int.ediv_le_self _ hsize.1
  rw [decomposition, if_neg (by omega), Int.tdiv_eq_ediv_of_nonneg hsize.1,
    checked_eq hquotient (hle.trans hsize.2), Option.bind_some]
  apply mapM_eq_some
  intro tid htid
  rw [List.mem_range] at htid
  exact bounds_eq hsize hthreads (by omega)

theorem partition_cut (hsize : 0 ≤ vectorSize) (hthreads : 1 ≤ numThreads) :
    Partition vectorSize ((List.range numThreads.toNat).map fun tid =>
      (cut vectorSize numThreads tid, cut vectorSize numThreads (tid + 1))) := by
  have hmono := monotone_cut hsize hthreads
  have hfirst : cut vectorSize numThreads 0 = 0 := by
    rw [cut, if_neg (by push_cast; omega), Nat.cast_zero, zero_mul]
  have hlast : cut vectorSize numThreads numThreads.toNat = vectorSize := if_pos (Int.self_le_toNat _)
  refine ⟨?_, ?_, ?_⟩
  · rw [List.forall_mem_map]
    intro tid htid
    rw [List.mem_range] at htid
    have hstart := hmono (Nat.zero_le tid)
    have hstop := hmono (Nat.succ_le_of_lt htid)
    rw [hfirst] at hstart
    rw [hlast] at hstop
    exact Set.Ico_subset_Ico hstart hstop
  · rw [List.pairwise_map]
    apply List.Pairwise.imp _ List.nodup_range
    intro tid tid' hne
    exact hmono.pairwise_disjoint_on_Ico_succ hne
  · intro i hi
    rw [← hlast, ← hfirst] at hi
    obtain ⟨tid, htid, hmem⟩ := exists_mem_Ico numThreads.toNat hi
    exact ⟨_, List.mem_map_of_mem (List.mem_range.mpr htid), hmem⟩

end Decomposition

section Region

variable {ranges : List (ℤ × ℤ)} {s t : State} {tid : ℕ}

structure Inv (vectorSize : ℤ) (ranges : List (ℤ × ℤ)) (s : State) : Prop where
  filled : ∀ i, 0 ≤ i → i < vectorSize → s.a i = 1 ∧ s.b i = 2
  started : ∀ tid r, ranges[tid]? = some r → r.1 ≤ s.i tid
  summed : ∀ tid r i, ranges[tid]? = some r → r.1 ≤ i → i < s.i tid → s.c i = s.a i + s.b i

theorem Inv.of_init (h : (region vectorSize ranges).init s) : Inv vectorSize ranges s := by
  obtain ⟨hfilled, hstart⟩ := h
  refine ⟨hfilled, fun tid r hr => (hstart tid r hr).ge, fun tid r i hr hi hlt => ?_⟩
  rw [hstart tid r hr] at hlt
  exact absurd (hi.trans_lt hlt) (lt_irrefl _)

def State.advance (s : State) (tid : ℕ) : State :=
  { s with
    c := Function.update s.c (s.i tid) (s.a (s.i tid) + s.b (s.i tid))
    i := Function.update s.i tid (s.i tid + 1) }

theorem advance_i_self (s : State) (tid : ℕ) : (s.advance tid).i tid = s.i tid + 1 :=
  Function.update_self ..

theorem advance_i_of_ne {u : ℕ} (hu : u ≠ tid) : (s.advance tid).i u = s.i u := Function.update_of_ne hu ..

theorem step_cases (h : (region vectorSize ranges).step s tid = some t) :
    ∃ r, ranges[tid]? = some r ∧ s.i tid < r.2 ∧ t = s.advance tid := by
  obtain ⟨r, hr, h⟩ := Option.bind_eq_some_iff.mp h
  split at h
  · rename_i hlt
    rw [iterate] at h
    split at h
    · obtain ⟨sum, hsum, h⟩ := Option.bind_eq_some_iff.mp h
      obtain ⟨next, hnext, rfl⟩ := Option.map_eq_some_iff.mp h
      obtain rfl := (checked_eq_some.mp hsum).1
      obtain rfl := (checked_eq_some.mp hnext).1
      exact ⟨r, hr, hlt, rfl⟩
    · cases h
  · cases h

theorem advance_c {i : ℤ} (h : i = s.i tid ∨ s.c i = s.a i + s.b i) :
    (s.advance tid).c i = s.a i + s.b i := by
  by_cases heq : i = s.i tid
  · subst heq
    exact Function.update_self ..
  · exact (Function.update_of_ne heq ..).trans (h.resolve_left heq)

theorem Inv.step (h : Inv vectorSize ranges s) (hs : (region vectorSize ranges).step s tid = some t) :
    Inv vectorSize ranges t := by
  obtain ⟨r, hr, -, rfl⟩ := step_cases hs
  refine ⟨h.filled, fun u q hq => ?_, fun u q i hq hi hlt => advance_c ?_⟩
  · have hle := h.started u q hq
    by_cases hu : u = tid
    · rw [hu] at hle ⊢
      rw [advance_i_self]
      omega
    · rwa [advance_i_of_ne hu]
  · by_cases hu : u = tid
    · subst hu
      rw [advance_i_self] at hlt
      rcases Int.lt_or_eq_of_le (Int.lt_add_one_iff.mp hlt) with hlt | heq
      · exact .inr (h.summed u q i hq hi hlt)
      · exact .inl heq
    · rw [advance_i_of_ne hu] at hlt
      exact .inr (h.summed u q i hq hi hlt)

theorem inv_of_reachable (h : Reachable (region vectorSize ranges) s) : Inv vectorSize ranges s := by
  induction h with
  | init h => exact .of_init h
  | step _ hs ih => exact ih.step hs

theorem Inv.enabled_iff (h : Inv vectorSize ranges s) (hsize : vectorSize ≤ intMax)
    (hranges : Partition vectorSize ranges) :
    Enabled (region vectorSize ranges) s tid ↔ ∃ r, ranges[tid]? = some r ∧ s.i tid < r.2 := by
  constructor
  · intro henabled
    obtain ⟨t, ht⟩ := Option.isSome_iff_exists.mp henabled
    obtain ⟨r, hr, hlt, -⟩ := step_cases ht
    exact ⟨r, hr, hlt⟩
  · rintro ⟨r, hr, hlt⟩
    obtain ⟨h0, hi⟩ := hranges.within r (List.mem_of_getElem? hr) ⟨h.started tid r hr, hlt⟩
    obtain ⟨ha, hb⟩ := h.filled _ h0 hi
    have hsum : checked (s.a (s.i tid) + s.b (s.i tid)) = some 3 := by
      rw [ha, hb]
      decide
    have hstep : (region vectorSize ranges).step s tid = iterate vectorSize s tid := by
      rw [region]
      dsimp only
      rw [hr, Option.bind_some, if_pos hlt]
    rw [Enabled, hstep, iterate, if_pos ⟨h0, hi⟩, hsum, Option.bind_some, checked_eq (by omega) (by omega)]
    rfl

theorem Inv.sum_of_done (h : Inv vectorSize ranges s) (hranges : Partition vectorSize ranges)
    (hdone : Done ranges s) {i : ℤ} (hi : i ∈ Set.Ico 0 vectorSize) : s.c i = s.a i + s.b i := by
  obtain ⟨r, hmem, hir⟩ := hranges.covers i hi
  obtain ⟨tid, htid⟩ := List.getElem?_of_mem hmem
  exact h.summed tid r i htid hir.1 (hir.2.trans_le (hdone tid r htid))

def work (ranges : List (ℤ × ℤ)) (s : State) : ℕ :=
  ∑ tid ∈ Finset.range ranges.length, ((ranges.getD tid (0, 0)).2 - s.i tid).toNat

theorem work_lt (hs : (region vectorSize ranges).step s tid = some t) : work ranges t < work ranges s := by
  obtain ⟨r, hr, hlt, rfl⟩ := step_cases hs
  obtain ⟨htid, hget⟩ := List.getElem?_eq_some_iff.mp hr
  apply Finset.sum_lt_sum
  · intro u _
    by_cases hu : u = tid
    · rw [hu, advance_i_self]
      omega
    · rw [advance_i_of_ne hu]
  · refine ⟨tid, Finset.mem_range.mpr htid, ?_⟩
    rw [advance_i_self, List.getD_eq_getElem _ _ htid, hget]
    omega

theorem length_le_work {tids : List ℕ} (he : exec (region vectorSize ranges) s tids = some t) :
    tids.length ≤ work ranges s := by
  induction tids generalizing s with
  | nil => exact Nat.zero_le _
  | cons tid tids ih =>
    obtain ⟨u, hu, he⟩ := Option.bind_eq_some_iff.mp he
    have hlt := work_lt hu
    have hle := ih he
    rw [List.length_cons]
    omega

end Region

/-- The ranges are computed without an overflow and are a partition. All runs of the threads end, none
gets stuck before all threads are done, and then all sums are in their places. -/
theorem vectorSum_correct (hsize : 0 ≤ vectorSize ∧ vectorSize ≤ intMax)
    (hthreads : 1 ≤ numThreads ∧ numThreads ≤ intMax) :
    ∃ ranges, decomposition vectorSize numThreads = some ranges ∧ ranges.length = numThreads ∧
      Partition vectorSize ranges ∧ ∀ s, Reachable (region vectorSize ranges) s →
        (∀ tids t, exec (region vectorSize ranges) s tids = some t → tids.length ≤ work ranges s) ∧
        ((∀ tid, ¬ Enabled (region vectorSize ranges) s tid) ↔ Done ranges s) ∧
        (Done ranges s → ∀ i ∈ Set.Ico 0 vectorSize, s.c i = s.a i + s.b i) := by
  refine ⟨_, decomposition_eq hsize hthreads, ?_, partition_cut hsize.1 hthreads.1, fun s hs => ?_⟩
  · rw [List.length_map, List.length_range]
    omega
  · have hinv := inv_of_reachable hs
    have hranges := partition_cut hsize.1 hthreads.1
    refine ⟨fun tids t he => length_le_work he, ?_, fun hdone i hi => hinv.sum_of_done hranges hdone hi⟩
    simp only [hinv.enabled_iff hsize.2 hranges, not_exists, not_and, not_lt, Done]

theorem vectorSum_correct_moreThreads : ∃ ranges, decomposition 2 3 = some ranges ∧
    ranges.length = (3 : ℤ) ∧ Partition 2 ranges ∧ ∀ s, Reachable (region 2 ranges) s →
      (∀ tids t, exec (region 2 ranges) s tids = some t → tids.length ≤ work ranges s) ∧
      ((∀ tid, ¬ Enabled (region 2 ranges) s tid) ↔ Done ranges s) ∧
      (Done ranges s → ∀ i ∈ Set.Ico 0 2, s.c i = s.a i + s.b i) :=
  vectorSum_correct (by decide) (by decide)

example : decomposition 100000 7 = some [(0, 14285), (14285, 28570), (28570, 42855), (42855, 57140),
    (57140, 71425), (71425, 85710), (85710, 100000)] := by decide

end RoblSampleCodes.VectorSum
