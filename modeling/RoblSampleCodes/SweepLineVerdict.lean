import RoblSampleCodes.SweepLine

namespace RoblSampleCodes.SweepLineVerdict

open PlaneSegment SweepLine

theorem doIntersect_iff_crosses (s1 s2 : Segment ℚ) :
    doIntersect s1 s2 = true ↔ s1.cross s2 ≠ 0 ∧ Crosses s1 s2 := by
  rw [doIntersect_iff, separates_and_separates_iff]

theorem doIntersect_reverse (s1 s2 : Segment ℚ) : doIntersect s1.reverse s2 = doIntersect s1 s2 := by
  rw [Bool.eq_iff_iff, doIntersect_iff_crosses, doIntersect_iff_crosses, cross_reverse, neg_ne_zero,
    crosses_reverse]

theorem doIntersect_of_sharedEnd {s1 s2 : Segment ℚ} {p : Point ℚ} (h1 : p = s1.start ∨ p = s1.stop)
    (h2 : p = s2.start ∨ p = s2.stop) : doIntersect s1 s2 = false := by
  rw [Bool.eq_false_iff]
  intro hintersect
  have hseparates := ((doIntersect_iff s1 s2).mp hintersect).1
  apply hseparates.ne_zero h1
  rcases h2 with rfl | rfl
  · exact orientation_start _ _
  · exact orientation_stop _ _

/-- The four sign tests find the segments that are not parallel and share a point interior
to both. -/
theorem doIntersect_geometric (s1 s2 : Segment ℚ) :
    (doIntersect s1 s2 = true ↔ s1.cross s2 ≠ 0 ∧
      ∃ t u : ℚ, (0 < t ∧ t < 1) ∧ (0 < u ∧ u < 1) ∧ s1.point t = s2.point u) ∧
    doIntersect s2 s1 = doIntersect s1 s2 ∧
    doIntersect s1.reverse s2 = doIntersect s1 s2 ∧ doIntersect s1 s2.reverse = doIntersect s1 s2 ∧
    ∀ p, (p = s1.start ∨ p = s1.stop) → (p = s2.start ∨ p = s2.stop) → doIntersect s1 s2 = false := by
  refine ⟨doIntersect_iff_crosses s1 s2, doIntersect_comm s2 s1, doIntersect_reverse s1 s2, ?_,
    fun p h1 h2 => doIntersect_of_sharedEnd h1 h2⟩
  rw [doIntersect_comm, doIntersect_reverse, doIntersect_comm]

theorem zipWith_concat {α β : Type} (f : α → α → β) (v x : α) (l : List α) :
    List.zipWith f (v :: l) (l ++ [x]) =
      List.zipWith f (v :: l) l ++ [f ((v :: l).getLast (List.cons_ne_nil v l)) x] := by
  induction l generalizing v with
  | nil => rfl
  | cons w l ih => rw [List.cons_append, List.zipWith_cons_cons, ih w, List.zipWith_cons_cons,
      List.cons_append, List.getLast_cons_cons]

/-- An edge goes from each vertex to the next one, and from the last to the first. -/
theorem segments_eq (vertices : List (Point ℚ)) (h : vertices ≠ []) :
    segments vertices h = List.zipWith Segment.mk vertices (vertices.rotate 1) := by
  cases vertices with
  | nil => exact absurd rfl h
  | cons v vertices =>
    rw [List.rotate_cons_succ, List.rotate_zero, zipWith_concat]
    rfl

theorem segments_rotate (vertices : List (Point ℚ)) (h : vertices ≠ []) (n : Nat)
    (h' : vertices.rotate n ≠ []) : segments (vertices.rotate n) h' = (segments vertices h).rotate n := by
  rw [segments_eq, segments_eq, List.zipWith_rotate_distrib _ _ _ _ (List.length_rotate _ _).symm,
    List.rotate_rotate, List.rotate_rotate, Nat.add_comm]

theorem segment_mem {edges : List (Segment ℚ)} {s : SegmentPtr} (h : s ∈ pointers edges) :
    s.segment ∈ edges := List.mem_of_getElem? (mem_pointers.mp h)

theorem exists_pointer {edges : List (Segment ℚ)} {s : Segment ℚ} (h : s ∈ edges) :
    ∃ p ∈ pointers edges, p.segment = s := by
  obtain ⟨i, hi⟩ := List.mem_iff_getElem?.mp h
  exact ⟨⟨i, s⟩, mem_pointers.mpr hi, rfl⟩

theorem exists_pointers_iff (edges : List (Segment ℚ)) (P : Segment ℚ → Segment ℚ → Prop) :
    (∃ s ∈ pointers edges, ∃ r ∈ pointers edges, P s.segment r.segment) ↔
      ∃ s ∈ edges, ∃ r ∈ edges, P s r := by
  constructor
  · rintro ⟨s, hs, r, hr, hP⟩
    exact ⟨s.segment, segment_mem hs, r.segment, segment_mem hr, hP⟩
  · rintro ⟨s, hs, r, hr, hP⟩
    obtain ⟨p, hp, rfl⟩ := exists_pointer hs
    obtain ⟨q, hq, rfl⟩ := exists_pointer hr
    exact ⟨p, hp, q, hq, hP⟩

def Finds (edges : List (Segment ℚ)) : Prop :=
  ∃ s ∈ edges, ∃ r ∈ edges, doIntersect s r = true ∧ ¬ Missed s r ∧ ¬ Missed r s

instance (edges : List (Segment ℚ)) : Decidable (Finds edges) :=
  inferInstanceAs (Decidable (∃ s ∈ edges, ∃ r ∈ edges, _))

theorem finds_rotate (edges : List (Segment ℚ)) (n : Nat) : Finds (edges.rotate n) ↔ Finds edges := by
  simp only [Finds, List.mem_rotate]

theorem processEvents_iff_finds {before : SegmentPtr → SegmentPtr → Prop} [DecidableRel before]
    {vertices : List (Point ℚ)} {h : vertices ≠ []} {verdict : Bool} :
    ProcessEvents before vertices h verdict ↔ verdict = decide (Finds (segments vertices h)) := by
  have hsweep : ∀ sorted, IsSorted (events (segments vertices h)) sorted →
      sweep before [] sorted = decide (Finds (segments vertices h)) := by
    intro sorted hsorted
    rw [Bool.eq_iff_iff, sweep_true_iff hsorted, decide_eq_true_eq]
    exact exists_pointers_iff _ fun s r => doIntersect s r = true ∧ ¬ Missed s r ∧ ¬ Missed r s
  constructor
  · rintro ⟨sorted, hsorted, rfl⟩
    exact hsweep sorted hsorted
  · rintro rfl
    exact ⟨_, isSorted_insertionSort _, hsweep _ (isSorted_insertionSort _)⟩

/-- One verdict is what every order of equal events, every order of the set and every
rotation of the vertices lead to. -/
theorem processEvents_orderIndependent {vertices : List (Point ℚ)} (h : vertices ≠ []) :
    ∃ verdict, ∀ (before : SegmentPtr → SegmentPtr → Prop) [DecidableRel before] (n : Nat)
      (h' : vertices.rotate n ≠ []) (v : Bool),
        ProcessEvents before (vertices.rotate n) h' v ↔ v = verdict := by
  refine ⟨decide (Finds (segments vertices h)), fun before _ n h' v => ?_⟩
  rw [processEvents_iff_finds]
  simp only [segments_rotate vertices h, finds_rotate]

/-- The polygon of `main`, from each of its vertices. -/
theorem processEvents_orderIndependent_main :
    ∃ verdict, ∀ (before : SegmentPtr → SegmentPtr → Prop) [DecidableRel before] (n : Nat)
      (h' : mainVertices.rotate n ≠ []) (v : Bool),
        ProcessEvents before (mainVertices.rotate n) h' v ↔ v = verdict :=
  processEvents_orderIndependent mainVertices_ne_nil

end RoblSampleCodes.SweepLineVerdict
