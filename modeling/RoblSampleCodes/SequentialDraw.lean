import Mathlib

namespace RoblSampleCodes.SequentialDraw

open MeasureTheory ProbabilityTheory

variable {α β : Type}

/-- Each index takes one of the entries that are left. -/
def pick : List ℕ → List α → Option (List α × List α)
  | [], xs => some ([], xs)
  | n :: ns, xs => xs[n]?.bind fun x => (pick ns (xs.eraseIdx n)).map fun r => (x :: r.1, r.2)

def Valid (L : ℕ) (ns : List ℕ) : Prop := ∀ (i : ℕ) (h : i < ns.length), ns[i] < L - i

def drawn (xs : List α) (ns : List ℕ) : List α := ((pick ns xs).map Prod.fst).getD []

variable {xs w w' r r' : List α} {n L : ℕ} {ns ns' : List ℕ} {x : α}

theorem valid_cons : Valid L (n :: ns) ↔ n < L ∧ Valid (L - 1) ns := by
  constructor
  · intro h
    refine ⟨h 0 (Nat.zero_lt_succ _), fun i hi => ?_⟩
    have hsucc := h (i + 1) (Nat.succ_lt_succ hi)
    rw [List.getElem_cons_succ] at hsucc
    omega
  · rintro ⟨hfirst, hrest⟩ i hi
    cases i with
    | zero => exact hfirst
    | succ i =>
      have hi' := hrest i (Nat.lt_of_succ_lt_succ hi)
      rw [List.getElem_cons_succ]
      omega

theorem pick_cons_eq_some : pick (n :: ns) xs = some (w, r) ↔
    ∃ x w', xs[n]? = some x ∧ pick ns (xs.eraseIdx n) = some (w', r) ∧ w = x :: w' := by
  simp only [pick, Option.bind_eq_some_iff, Option.map_eq_some_iff, Prod.mk.injEq, Prod.exists]
  constructor
  · rintro ⟨x, hx, w', r', hpick, rfl, rfl⟩
    exact ⟨x, w', hx, hpick, rfl⟩
  · rintro ⟨x, w', hx, hpick, rfl⟩
    exact ⟨x, hx, w', r, hpick, rfl, rfl⟩

theorem length_of_pick (h : pick ns xs = some (w, r)) : w.length = ns.length := by
  induction ns generalizing xs w with
  | nil =>
    obtain ⟨rfl, -⟩ := Prod.mk.inj (Option.some.inj h)
    rfl
  | cons n ns ih =>
    obtain ⟨x, w', -, hpick, rfl⟩ := pick_cons_eq_some.mp h
    rw [List.length_cons, List.length_cons, ih hpick]

theorem exists_pick_of_valid (h : Valid xs.length ns) : ∃ w r, pick ns xs = some (w, r) := by
  induction ns generalizing xs with
  | nil => exact ⟨[], xs, rfl⟩
  | cons n ns ih =>
    obtain ⟨hn, hrest⟩ := valid_cons.mp h
    rw [← List.length_eraseIdx_of_lt hn] at hrest
    obtain ⟨w, r, hpick⟩ := ih hrest
    exact ⟨xs[n] :: w, r, pick_cons_eq_some.mpr ⟨xs[n], w, List.getElem?_eq_getElem hn, hpick, rfl⟩⟩

theorem valid_of_pick (h : pick ns xs = some (w, r)) : Valid xs.length ns := by
  induction ns generalizing xs w with
  | nil => exact fun i hi => absurd hi (Nat.not_lt_zero _)
  | cons n ns ih =>
    obtain ⟨x, w', hx, hpick, rfl⟩ := pick_cons_eq_some.mp h
    obtain ⟨hn, -⟩ := List.getElem?_eq_some_iff.mp hx
    have hrest := ih hpick
    rw [List.length_eraseIdx_of_lt hn] at hrest
    exact valid_cons.mpr ⟨hn, hrest⟩

theorem drawn_eq (h : pick ns xs = some (w, r)) : drawn xs ns = w := by
  rw [drawn, h]
  rfl

theorem pick_injective (hxs : xs.Nodup) (h : pick ns xs = some (w, r)) (h' : pick ns' xs = some (w, r')) :
    ns = ns' := by
  induction ns generalizing xs w ns' with
  | nil =>
    have hlength := (length_of_pick h).symm.trans (length_of_pick h')
    exact (List.length_eq_zero_iff.mp hlength.symm).symm
  | cons n ns ih =>
    obtain ⟨x, v, hx, hpick, rfl⟩ := pick_cons_eq_some.mp h
    cases ns' with
    | nil => exact absurd (length_of_pick h') (by simp)
    | cons n' ns' =>
      obtain ⟨x', v', hx', hpick', heq⟩ := pick_cons_eq_some.mp h'
      obtain ⟨rfl, rfl⟩ := List.cons_eq_cons.mp heq
      obtain ⟨hn, hget⟩ := List.getElem?_eq_some_iff.mp hx
      obtain ⟨hn', hget'⟩ := List.getElem?_eq_some_iff.mp hx'
      obtain rfl : n = n' := hxs.getElem_inj_iff.mp (hget.trans hget'.symm)
      rw [ih (hxs.sublist (List.eraseIdx_sublist ..)) hpick hpick']

theorem pick_map (f : α → β) (ns : List ℕ) (xs : List α) :
    pick ns (xs.map f) = (pick ns xs).map (Prod.map (List.map f) (List.map f)) := by
  induction ns generalizing xs with
  | nil => rfl
  | cons n ns ih =>
    rw [pick, pick, List.getElem?_map, List.eraseIdx_map, ih]
    cases xs[n]? with
    | none => rfl
    | some x => cases pick ns (xs.eraseIdx n) <;> rfl

section Distinct

variable [DecidableEq α]

theorem eraseIdx_eq_filter (hxs : xs.Nodup) (h : xs[n]? = some x) : xs.eraseIdx n = xs.filter (· ≠ x) := by
  obtain ⟨hn, rfl⟩ := List.getElem?_eq_some_iff.mp h
  rw [← hxs.erase_getElem n hn, hxs.erase_eq_filter]
  exact List.filter_congr fun y _ => by rw [Bool.eq_iff_iff, bne_iff_ne, decide_eq_true_iff]

theorem left_of_pick (hxs : xs.Nodup) (h : pick ns xs = some (w, r)) : r = xs.filter (· ∉ w) := by
  induction ns generalizing xs w with
  | nil =>
    obtain ⟨rfl, rfl⟩ := Prod.mk.inj (Option.some.inj h)
    simp
  | cons n ns ih =>
    obtain ⟨x, w', hx, hpick, rfl⟩ := pick_cons_eq_some.mp h
    rw [ih (hxs.sublist (List.eraseIdx_sublist ..)) hpick, eraseIdx_eq_filter hxs hx, List.filter_filter]
    apply List.filter_congr
    intro y _
    simp only [List.mem_cons, not_or, Bool.decide_and, Bool.and_comm]

theorem nodup_of_pick (hxs : xs.Nodup) (h : pick ns xs = some (w, r)) : w.Nodup ∧ w ⊆ xs := by
  induction ns generalizing xs w with
  | nil =>
    obtain ⟨rfl, -⟩ := Prod.mk.inj (Option.some.inj h)
    exact ⟨List.nodup_nil, List.nil_subset _⟩
  | cons n ns ih =>
    obtain ⟨x, w', hx, hpick, rfl⟩ := pick_cons_eq_some.mp h
    obtain ⟨hnodup, hsubset⟩ := ih (hxs.sublist (List.eraseIdx_sublist ..)) hpick
    rw [eraseIdx_eq_filter hxs hx] at hsubset
    have hnew : x ∉ w' := fun hmem => by simpa using hsubset hmem
    refine ⟨List.nodup_cons.mpr ⟨hnew, hnodup⟩, List.cons_subset.mpr ⟨List.mem_of_getElem? hx, ?_⟩⟩
    exact fun y hy => List.mem_of_mem_filter (hsubset hy)

theorem exists_pick (hxs : xs.Nodup) (hw : w.Nodup) (hsubset : w ⊆ xs) :
    ∃ ns r, pick ns xs = some (w, r) := by
  induction w generalizing xs with
  | nil => exact ⟨[], xs, rfl⟩
  | cons x w ih =>
    obtain ⟨hx, hw⟩ := List.nodup_cons.mp hw
    obtain ⟨hmem, hrest⟩ := List.cons_subset.mp hsubset
    obtain ⟨n, hn⟩ := List.getElem?_of_mem hmem
    have hleft : w ⊆ xs.eraseIdx n := by
      rw [eraseIdx_eq_filter hxs hn]
      intro y hy
      refine List.mem_filter.mpr ⟨hrest hy, decide_eq_true fun heq => hx (heq ▸ hy)⟩
    obtain ⟨ns, r, hpick⟩ := ih (hxs.sublist (List.eraseIdx_sublist ..)) hw hleft
    exact ⟨n :: ns, r, pick_cons_eq_some.mpr ⟨x, w, hn, hpick, rfl⟩⟩

def selections (xs : List α) (k : ℕ) : Set (List α) := {w | w.length = k ∧ w.Nodup ∧ w ⊆ xs}

theorem bijOn_drawn (hxs : xs.Nodup) (k : ℕ) :
    Set.BijOn (drawn xs) {ns | ns.length = k ∧ Valid xs.length ns} (selections xs k) := by
  refine ⟨?_, ?_, ?_⟩
  · rintro ns ⟨rfl, hvalid⟩
    obtain ⟨w, r, hpick⟩ := exists_pick_of_valid hvalid
    rw [drawn_eq hpick]
    exact ⟨length_of_pick hpick, nodup_of_pick hxs hpick⟩
  · rintro ns ⟨-, hvalid⟩ ns' ⟨-, hvalid'⟩ heq
    obtain ⟨w, r, hpick⟩ := exists_pick_of_valid hvalid
    obtain ⟨w', r', hpick'⟩ := exists_pick_of_valid hvalid'
    rw [drawn_eq hpick, drawn_eq hpick'] at heq
    exact pick_injective hxs hpick (heq ▸ hpick')
  · rintro w ⟨rfl, hw, hsubset⟩
    obtain ⟨ns, r, hpick⟩ := exists_pick hxs hw hsubset
    exact ⟨ns, ⟨(length_of_pick hpick).symm, valid_of_pick hpick⟩, drawn_eq hpick⟩

end Distinct

abbrev Indices (L k : ℕ) : Type := ∀ i : Fin k, Fin (L - i)

def indexList {L k : ℕ} (n : Indices L k) : List ℕ := List.ofFn fun i => (n i : ℕ)

theorem getElem_indexList {L k i : ℕ} (n : Indices L k) (h : i < (indexList n).length) :
    (indexList n)[i] = n ⟨i, by rwa [indexList, List.length_ofFn] at h⟩ := List.getElem_ofFn h

theorem bijOn_indexList (L k : ℕ) :
    Set.BijOn (@indexList L k) Set.univ {ns | ns.length = k ∧ Valid L ns} := by
  refine ⟨?_, ?_, ?_⟩
  · intro n _
    refine ⟨List.length_ofFn, fun i hi => ?_⟩
    rw [getElem_indexList]
    exact (n _).isLt
  · intro n _ n' _ heq
    funext i
    exact Fin.ext (congrFun (List.ofFn_injective heq) i)
  · rintro ns ⟨rfl, hvalid⟩
    exact ⟨fun i => ⟨ns[i], hvalid i i.isLt⟩, trivial, List.ofFn_getElem ..⟩

noncomputable def uniform (L k : ℕ) : Measure (Indices L k) :=
  Measure.pi fun i : Fin k => uniformOn (Set.univ : Set (Fin (L - i)))

theorem uniform_singleton {L k : ℕ} (n : Indices L k) :
    uniform L k {n} = (L.descFactorial k : ENNReal)⁻¹ := by
  have hone (i : Fin k) : uniformOn (Set.univ : Set (Fin (L - i))) {n i} = ((L - i : ℕ) : ENNReal)⁻¹ := by
    rw [uniformOn_univ, Measure.count_singleton, Fintype.card_fin, one_div]
  rw [uniform, Measure.pi_singleton, Nat.descFactorial_eq_prod_range, ← Fin.prod_univ_eq_prod_range,
    Nat.cast_prod, ENNReal.prod_inv_distrib]
  · exact Finset.prod_congr rfl fun i _ => hone i
  · intro i _ j _ _
    exact .inr (ENNReal.natCast_ne_top _)

section Distinct

variable [DecidableEq α] {k : ℕ}

theorem bijOn_drawn_indexList (hxs : xs.Nodup) (hL : xs.length = L) (k : ℕ) :
    Set.BijOn (fun n : Indices L k => drawn xs (indexList n)) Set.univ (selections xs k) := by
  subst hL
  exact (bijOn_drawn hxs k).comp (bijOn_indexList xs.length k)

theorem uniform_drawn (hxs : xs.Nodup) (hL : xs.length = L) (hw : w ∈ selections xs k) :
    uniform L k {n | drawn xs (indexList n) = w} = (L.descFactorial k : ENNReal)⁻¹ := by
  obtain ⟨-, hinj, hsurj⟩ := bijOn_drawn_indexList hxs hL k
  obtain ⟨n, -, hn⟩ := hsurj hw
  have hsingle : {n | drawn xs (indexList n) = w} = {n} := by
    ext n'
    exact ⟨fun hn' => hinj trivial trivial (hn'.trans hn.symm), fun heq => heq ▸ hn⟩
  rw [hsingle, uniform_singleton]

end Distinct

end RoblSampleCodes.SequentialDraw
