import RoblSampleCodes.PlaneSegment

namespace RoblSampleCodes.SweepLine

open PlaneSegment

/-- A pointer to a segment, by its place in the vector. -/
structure SegmentPtr where
  place : Nat
  segment : Segment ℚ
  deriving DecidableEq

inductive EventType
  | left
  | right
  | intersection
  deriving DecidableEq

structure Event where
  type : EventType
  point : Point ℚ
  segment : SegmentPtr
  deriving DecidableEq

def EventType.value : EventType → Nat
  | .left => 0
  | .right => 1
  | .intersection => 2

def Event.Less (a b : Event) : Prop :=
  a.point.y < b.point.y ∨ a.point.y = b.point.y ∧ a.type.value < b.type.value

instance (a b : Event) : Decidable (a.Less b) := inferInstanceAs (Decidable (_ ∨ _ ∧ _))

def doIntersect (s1 s2 : Segment ℚ) : Bool :=
  let d1 := orientation s2.start s2.stop s1.start
  let d2 := orientation s2.start s2.stop s1.stop
  let d3 := orientation s1.start s1.stop s2.start
  let d4 := orientation s1.start s1.stop s2.stop
  (0 < d1 && d2 < 0 || d1 < 0 && 0 < d2) && (0 < d3 && d4 < 0 || d3 < 0 && 0 < d4)

def segments (vertices : List (Point ℚ)) (h : vertices ≠ []) : List (Segment ℚ) :=
  List.zipWith Segment.mk vertices vertices.tail ++ [⟨vertices.getLast h, vertices.head h⟩]

def pointers (segments : List (Segment ℚ)) : List SegmentPtr :=
  segments.zipIdx.map fun s => ⟨s.2, s.1⟩

def leftEvent (s : SegmentPtr) : Event := ⟨.left, s.segment.start, s⟩

def rightEvent (s : SegmentPtr) : Event := ⟨.right, s.segment.stop, s⟩

def events (segments : List (Segment ℚ)) : List Event :=
  (pointers segments).flatMap fun s => [leftEvent s, rightEvent s]

/-- What `std::sort` may leave: the events in an order that `operator<` allows. -/
structure IsSorted (events sorted : List Event) : Prop where
  perm : sorted.Perm events
  pairwise : sorted.Pairwise fun a b => ¬ b.Less a

section ActiveSegments

variable (before : SegmentPtr → SegmentPtr → Prop) [DecidableRel before]

/-- The set keeps the order of the pointers. -/
def insert (s : SegmentPtr) (activeSegments : List SegmentPtr) : List SegmentPtr :=
  if s ∈ activeSegments then activeSegments else activeSegments.orderedInsert before s

def update (activeSegments : List SegmentPtr) (event : Event) : List SegmentPtr :=
  match event.type with
  | .left => insert before event.segment activeSegments
  | .right => activeSegments.filter (· ≠ event.segment)
  | .intersection => activeSegments

def sweep : List SegmentPtr → List Event → Bool
  | _, [] => false
  | activeSegments, event :: rest =>
    match event.type with
    | .left =>
      if activeSegments.any fun s => doIntersect event.segment.segment s.segment then true
      else sweep (update before activeSegments event) rest
    | .right => sweep (update before activeSegments event) rest
    | .intersection => true

/-- A verdict that `processEvents` may come to. -/
def ProcessEvents (vertices : List (Point ℚ)) (h : vertices ≠ []) (verdict : Bool) : Prop :=
  ∃ sorted, IsSorted (events (segments vertices h)) sorted ∧ sweep before [] sorted = verdict

end ActiveSegments

def TwoOf (edges : List (Segment ℚ)) (s r : Segment ℚ) : Prop :=
  ∃ i j : Nat, i ≠ j ∧ edges[i]? = some s ∧ edges[j]? = some r

def SelfIntersecting (edges : List (Segment ℚ)) : Prop := ∃ s r, TwoOf edges s r ∧ Crosses s r

def NoTwoCollinear (edges : List (Segment ℚ)) : Prop := edges.Pairwise fun s r => ¬ Collinear s r

instance (edges : List (Segment ℚ)) : Decidable (NoTwoCollinear edges) :=
  inferInstanceAs (Decidable (edges.Pairwise _))

/-- An edge that does not go down, and one that goes down from above the end of the first.
The first is no longer active when the second one starts. -/
def Missed (s r : Segment ℚ) : Prop :=
  s.start.y ≤ s.stop.y ∧ r.stop.y < r.start.y ∧ s.stop.y < r.start.y

instance (s r : Segment ℚ) : Decidable (Missed s r) := inferInstanceAs (Decidable (_ ∧ _ ∧ _))

theorem doIntersect_iff (s1 s2 : Segment ℚ) :
    doIntersect s1 s2 = true ↔ Separates s2 s1 ∧ Separates s1 s2 := by
  simp only [doIntersect, Separates, Bool.and_eq_true, Bool.or_eq_true, decide_eq_true_eq]

theorem doIntersect_comm (s1 s2 : Segment ℚ) : doIntersect s1 s2 = doIntersect s2 s1 := by
  rw [Bool.eq_iff_iff, doIntersect_iff, doIntersect_iff, and_comm]

theorem crosses_of_doIntersect {s1 s2 : Segment ℚ} (h : doIntersect s1 s2 = true) : Crosses s1 s2 :=
  (separates_and_separates_iff.mp ((doIntersect_iff s1 s2).mp h)).2

theorem doIntersect_self (s : Segment ℚ) : doIntersect s s = false := by
  rw [Bool.eq_false_iff]
  intro h
  refine (separates_and_separates_iff.mp ((doIntersect_iff s s).mp h)).1 ?_
  rw [Segment.cross, sub_self]

section Sweep

variable {before : SegmentPtr → SegmentPtr → Prop} [DecidableRel before]

theorem mem_insert {s r : SegmentPtr} {activeSegments : List SegmentPtr} :
    r ∈ insert before s activeSegments ↔ r = s ∨ r ∈ activeSegments := by
  rw [insert]
  split
  · rename_i hmem
    exact ⟨.inr, fun h => h.elim (fun heq => heq ▸ hmem) id⟩
  · exact List.mem_orderedInsert before

def Since (a b : Event) (done : List Event) : Prop :=
  ∃ earlier later, done = earlier ++ a :: later ∧ b ∉ later

theorem since_concat {a b e : Event} {done : List Event} :
    Since a b (done ++ [e]) ↔ e = a ∨ e ≠ b ∧ Since a b done := by
  constructor
  · rintro ⟨earlier, later, heq, hnot⟩
    rcases List.eq_nil_or_concat later with rfl | ⟨later, x, rfl⟩
    · exact .inl (List.cons.inj (List.append_inj' heq rfl).2).1
    · rw [List.concat_eq_append, List.mem_append, List.mem_singleton, not_or] at hnot
      rw [List.concat_eq_append, ← List.cons_append, ← List.append_assoc] at heq
      obtain ⟨hdone, hx⟩ := List.append_inj' heq rfl
      rw [List.singleton_inj] at hx
      exact .inr ⟨fun h => hnot.2 (h ▸ hx), earlier, later, hdone, hnot.1⟩
  · rintro (rfl | ⟨hne, earlier, later, rfl, hnot⟩)
    · exact ⟨done, [], rfl, List.not_mem_nil⟩
    · refine ⟨earlier, later ++ [e], by rw [List.append_assoc, List.cons_append], ?_⟩
      rw [List.mem_append, List.mem_singleton, not_or]
      exact ⟨hnot, hne.symm⟩

def OfSegment (e : Event) : Prop := ∃ s, e = leftEvent s ∨ e = rightEvent s

theorem leftEvent_inj {s r : SegmentPtr} : leftEvent s = leftEvent r ↔ s = r :=
  ⟨fun h => congrArg Event.segment h, fun h => h ▸ rfl⟩

theorem rightEvent_inj {s r : SegmentPtr} : rightEvent s = rightEvent r ↔ s = r :=
  ⟨fun h => congrArg Event.segment h, fun h => h ▸ rfl⟩

theorem leftEvent_ne_rightEvent (s r : SegmentPtr) : leftEvent s ≠ rightEvent r := by
  intro h
  cases congrArg Event.type h

theorem mem_foldl_update {s : SegmentPtr} {done : List Event} (h : ∀ e ∈ done, OfSegment e) :
    s ∈ done.foldl (update before) [] ↔ Since (leftEvent s) (rightEvent s) done := by
  induction done using List.reverseRecOn with
  | nil =>
    refine ⟨fun hmem => absurd hmem List.not_mem_nil, ?_⟩
    rintro ⟨earlier, later, heq, -⟩
    cases earlier <;> cases heq
  | append_singleton done e ih =>
    have ih := ih fun e he => h e (List.mem_append_left _ he)
    rw [List.foldl_append, List.foldl_cons, List.foldl_nil, since_concat, ← ih]
    obtain ⟨r, rfl | rfl⟩ := h e (List.mem_append_right _ (List.mem_singleton_self e))
    · have hne : leftEvent r ≠ rightEvent s := leftEvent_ne_rightEvent r s
      rw [leftEvent_inj, and_iff_right hne, eq_comm]
      exact mem_insert
    · have hne : rightEvent r ≠ leftEvent s := (leftEvent_ne_rightEvent s r).symm
      rw [or_iff_right hne, Ne, rightEvent_inj, and_comm, eq_comm (a := r)]
      rw [update, rightEvent, List.mem_filter]
      exact and_congr_right fun _ => decide_eq_true_iff

def Finds (activeSegments : List SegmentPtr) (e : Event) : Prop :=
  e.type = .left ∧ ∃ s ∈ activeSegments, doIntersect e.segment.segment s.segment = true

theorem sweep_cons {activeSegments : List SegmentPtr} {e : Event} {rest : List Event} (h : OfSegment e) :
    sweep before activeSegments (e :: rest) = true ↔
      Finds activeSegments e ∨ sweep before (update before activeSegments e) rest = true := by
  obtain ⟨s, rfl | rfl⟩ := h
  · have hfinds : Finds activeSegments (leftEvent s) ↔
        (activeSegments.any fun r => doIntersect s.segment r.segment) = true := by
      rw [List.any_eq_true]
      exact and_iff_right rfl
    have hsweep : sweep before activeSegments (leftEvent s :: rest) =
        if (activeSegments.any fun r => doIntersect s.segment r.segment) = true then true
        else sweep before (update before activeSegments (leftEvent s)) rest := rfl
    rw [hfinds, hsweep]
    by_cases hany : (activeSegments.any fun r => doIntersect s.segment r.segment) = true
    · rw [if_pos hany]
      exact ⟨fun _ => .inl hany, fun _ => rfl⟩
    · rw [if_neg hany]
      exact (or_iff_right hany).symm
  · refine (or_iff_right ?_).symm
    rintro ⟨htype, -⟩
    cases htype

/-- The loop finds a segment that intersects one that is active when it starts. -/
theorem sweep_iff {activeSegments : List SegmentPtr} {events : List Event}
    (h : ∀ e ∈ events, OfSegment e) : sweep before activeSegments events = true ↔
      ∃ earlier e later, events = earlier ++ e :: later ∧
        Finds (earlier.foldl (update before) activeSegments) e := by
  induction events generalizing activeSegments with
  | nil =>
    constructor
    · intro hsweep
      cases hsweep
    · rintro ⟨earlier, e, later, heq, -⟩
      cases earlier <;> cases heq
  | cons event rest ih =>
    rw [sweep_cons (h event List.mem_cons_self), ih fun e he => h e (List.mem_cons_of_mem event he)]
    constructor
    · rintro (hfinds | ⟨earlier, e, later, rfl, hfinds⟩)
      · exact ⟨[], event, rest, rfl, hfinds⟩
      · exact ⟨event :: earlier, e, later, rfl, hfinds⟩
    · rintro ⟨earlier, e, later, heq, hfinds⟩
      cases earlier with
      | nil =>
        obtain ⟨rfl, rfl⟩ := List.cons.inj heq
        exact .inl hfinds
      | cons first earlier =>
        obtain ⟨rfl, rfl⟩ := List.cons.inj heq
        exact .inr ⟨earlier, e, later, rfl, hfinds⟩

end Sweep

section Sorted

variable {segments : List (Segment ℚ)} {sorted : List Event}

theorem ofSegment_of_mem (h : IsSorted (events segments) sorted) {e : Event} (he : e ∈ sorted) :
    ∃ s ∈ pointers segments, e = leftEvent s ∨ e = rightEvent s := by
  obtain ⟨s, hs, he⟩ := List.mem_flatMap.mp (h.perm.mem_iff.mp he)
  rw [List.mem_cons, List.mem_singleton] at he
  exact ⟨s, hs, he⟩

theorem leftEvent_mem (h : IsSorted (events segments) sorted) {s : SegmentPtr}
    (hs : s ∈ pointers segments) : leftEvent s ∈ sorted :=
  h.perm.mem_iff.mpr (List.mem_flatMap.mpr ⟨s, hs, List.mem_cons_self⟩)

theorem rightEvent_mem (h : IsSorted (events segments) sorted) {s : SegmentPtr}
    (hs : s ∈ pointers segments) : rightEvent s ∈ sorted :=
  h.perm.mem_iff.mpr (List.mem_flatMap.mpr ⟨s, hs, List.mem_cons_of_mem _ (List.mem_singleton_self _)⟩)

theorem not_less_of_append {a b : Event} {earlier later : List Event}
    (h : (earlier ++ later).Pairwise fun a b => ¬ b.Less a) (ha : a ∈ earlier) (hb : b ∈ later) :
    ¬ b.Less a :=
  (List.pairwise_append.mp h).2.2 a ha b hb

theorem left_less_right {s r : SegmentPtr} :
    (leftEvent s).Less (rightEvent r) ↔ s.segment.start.y ≤ r.segment.stop.y := by
  simp only [Event.Less, leftEvent, rightEvent, EventType.value, Nat.lt_add_one, and_true]
  exact le_iff_lt_or_eq.symm

theorem right_less_left {s r : SegmentPtr} :
    (rightEvent s).Less (leftEvent r) ↔ s.segment.stop.y < r.segment.start.y := by
  simp [Event.Less, leftEvent, rightEvent, EventType.value]

theorem left_less_left {s r : SegmentPtr} :
    (leftEvent s).Less (leftEvent r) ↔ s.segment.start.y < r.segment.start.y := by
  simp [Event.Less, leftEvent]

def ActiveAt (sorted : List Event) (s r : SegmentPtr) : Prop :=
  ∃ earlier later, sorted = earlier ++ leftEvent r :: later ∧ Since (leftEvent s) (rightEvent s) earlier

theorem sweep_sorted_iff {before : SegmentPtr → SegmentPtr → Prop} [DecidableRel before]
    (h : IsSorted (events segments) sorted) : sweep before [] sorted = true ↔
      ∃ s ∈ pointers segments, ∃ r ∈ pointers segments,
        doIntersect r.segment s.segment = true ∧ ActiveAt sorted s r := by
  have hof : ∀ e ∈ sorted, OfSegment e := fun e he =>
    (ofSegment_of_mem h he).imp fun s hs => hs.2
  rw [sweep_iff hof]
  constructor
  · rintro ⟨earlier, e, later, rfl, htype, s, hs, hintersect⟩
    have hearlier : ∀ e ∈ earlier, OfSegment e := fun e he => hof e (List.mem_append_left _ he)
    rw [mem_foldl_update hearlier] at hs
    obtain ⟨r, hr, rfl | rfl⟩ := ofSegment_of_mem h (List.mem_append_right earlier List.mem_cons_self)
    · refine ⟨s, ?_, r, hr, hintersect, earlier, later, rfl, hs⟩
      obtain ⟨first, rest, rfl, -⟩ := hs
      have hmem : leftEvent s ∈ (first ++ leftEvent s :: rest) ++ leftEvent r :: later :=
        List.mem_append_left _ (List.mem_append_right _ List.mem_cons_self)
      obtain ⟨s', hs', heq | heq⟩ := ofSegment_of_mem h hmem
      · exact leftEvent_inj.mp heq ▸ hs'
      · exact absurd heq (leftEvent_ne_rightEvent s s')
    · cases htype
  · rintro ⟨s, -, r, -, hintersect, earlier, later, rfl, hs⟩
    have hearlier : ∀ e ∈ earlier, OfSegment e := fun e he => hof e (List.mem_append_left _ he)
    exact ⟨earlier, leftEvent r, later, rfl, rfl, s, (mem_foldl_update hearlier).mpr hs, hintersect⟩

theorem not_missed_of_activeAt (h : IsSorted (events segments) sorted) {s r : SegmentPtr}
    (hs : s ∈ pointers segments) (hactive : ActiveAt sorted s r) :
    ¬ Missed s.segment r.segment ∧ ¬ Missed r.segment s.segment := by
  obtain ⟨earlier, later, rfl, first, mid, rfl, hnot⟩ := hactive
  have horder := h.pairwise
  constructor
  · rintro ⟨hup, -, hbelow⟩
    -- the right event of `s` stands after its left one and before that of `r`
    have hright := rightEvent_mem h hs
    rw [List.mem_append, List.mem_append] at hright
    rcases hright with (hfirst | hmid) | hlater
    · exact not_less_of_append (List.pairwise_append.mp horder).1 hfirst List.mem_cons_self
        (left_less_right.mpr hup)
    · rcases List.mem_cons.mp hmid with heq | hmid
      · exact leftEvent_ne_rightEvent s s heq.symm
      · exact hnot hmid
    · rcases List.mem_cons.mp hlater with heq | hlater
      · exact leftEvent_ne_rightEvent r s heq.symm
      · refine List.rel_of_pairwise_cons (List.pairwise_append.mp horder).2.1 hlater ?_
        exact right_less_left.mpr hbelow
  · rintro ⟨hup, -, hbelow⟩
    refine not_less_of_append horder (List.mem_append_right first List.mem_cons_self)
      List.mem_cons_self ?_
    exact left_less_left.mpr (hup.trans_lt hbelow)

theorem exists_order {α : Type} {l : List α} {a b : α} (hne : a ≠ b) (ha : a ∈ l) (hb : b ∈ l) :
    (∃ earlier mid later, l = (earlier ++ a :: mid) ++ b :: later) ∨
      ∃ earlier mid later, l = (earlier ++ b :: mid) ++ a :: later := by
  obtain ⟨xs, ys, rfl⟩ := List.append_of_mem ha
  rcases List.mem_append.mp hb with hb | hb
  · obtain ⟨us, vs, rfl⟩ := List.append_of_mem hb
    exact .inr ⟨us, vs, ys, rfl⟩
  · obtain ⟨us, vs, rfl⟩ := List.append_of_mem ((List.mem_cons.mp hb).resolve_left hne.symm)
    refine .inl ⟨xs, us, vs, ?_⟩
    rw [List.append_assoc, List.cons_append]

theorem activeAt_of_crosses {s r : SegmentPtr} {earlier mid later : List Event}
    (horder : ((earlier ++ leftEvent s :: mid) ++ leftEvent r :: later).Pairwise fun a b => ¬ b.Less a)
    (hcrosses : Crosses s.segment r.segment) (hnot : ¬ Missed s.segment r.segment) :
    ActiveAt ((earlier ++ leftEvent s :: mid) ++ leftEvent r :: later) s r := by
  refine ⟨earlier ++ leftEvent s :: mid, later, rfl, earlier, mid, rfl, fun hmid => hnot ?_⟩
  have hup : s.segment.start.y ≤ s.segment.stop.y := by
    rw [← not_lt, ← right_less_left]
    exact List.rel_of_pairwise_cons (List.pairwise_append.mp (List.pairwise_append.mp horder).1).2.1 hmid
  have hbelow : s.segment.stop.y < r.segment.start.y := by
    rw [← not_le, ← left_less_right]
    exact not_less_of_append horder (List.mem_append_right _ (List.mem_cons_of_mem _ hmid))
      List.mem_cons_self
  refine ⟨hup, ?_, hbelow⟩
  rw [← not_le]
  intro hup'
  obtain ⟨t, u, ht, hu, hpoint⟩ := hcrosses
  have hs := (point_y_mem hup ht).2
  have hr := (point_y_mem hup' hu).1
  rw [hpoint] at hs
  exact absurd (hr.trans hs) hbelow.not_ge

theorem sweep_true_iff {before : SegmentPtr → SegmentPtr → Prop} [DecidableRel before]
    (h : IsSorted (events segments) sorted) : sweep before [] sorted = true ↔
      ∃ s ∈ pointers segments, ∃ r ∈ pointers segments, doIntersect s.segment r.segment = true ∧
        ¬ Missed s.segment r.segment ∧ ¬ Missed r.segment s.segment := by
  rw [sweep_sorted_iff h]
  constructor
  · rintro ⟨s, hs, r, hr, hintersect, hactive⟩
    rw [doIntersect_comm] at hintersect
    exact ⟨s, hs, r, hr, hintersect, not_missed_of_activeAt h hs hactive⟩
  · rintro ⟨s, hs, r, hr, hintersect, hsr, hrs⟩
    have hne : leftEvent s ≠ leftEvent r := by
      intro heq
      rw [leftEvent_inj.mp heq, doIntersect_self] at hintersect
      cases hintersect
    have hcrosses := crosses_of_doIntersect hintersect
    have horder := h.pairwise
    rcases exists_order hne (leftEvent_mem h hs) (leftEvent_mem h hr) with
      ⟨earlier, mid, later, rfl⟩ | ⟨earlier, mid, later, rfl⟩
    · rw [doIntersect_comm] at hintersect
      exact ⟨s, hs, r, hr, hintersect, activeAt_of_crosses horder hcrosses hsr⟩
    · exact ⟨r, hr, s, hs, hintersect, activeAt_of_crosses horder hcrosses.symm hrs⟩

end Sorted

theorem mem_pointers {edges : List (Segment ℚ)} {s : SegmentPtr} :
    s ∈ pointers edges ↔ edges[s.place]? = some s.segment := by
  rw [pointers, List.mem_map]
  constructor
  · rintro ⟨p, hp, rfl⟩
    exact List.mem_zipIdx_iff_getElem?.mp hp
  · intro h
    exact ⟨(s.segment, s.place), List.mem_zipIdx_iff_getElem?.mpr h, rfl⟩

theorem not_collinear_of_twoOf {edges : List (Segment ℚ)} (h : NoTwoCollinear edges) {s r : Segment ℚ}
    (hsr : TwoOf edges s r) : ¬ Collinear s r := by
  obtain ⟨i, j, hij, hi, hj⟩ := hsr
  obtain ⟨hi', rfl⟩ := List.getElem?_eq_some_iff.mp hi
  obtain ⟨hj', rfl⟩ := List.getElem?_eq_some_iff.mp hj
  rcases lt_or_gt_of_ne hij with hlt | hlt
  · exact List.pairwise_iff_getElem.mp h i j hi' hj' hlt
  · exact fun hcollinear => List.pairwise_iff_getElem.mp h j i hj' hi' hlt hcollinear.symm

/-- The pairs that intersect are the two edges that cross. -/
theorem exists_doIntersect_iff {edges : List (Segment ℚ)} (h : NoTwoCollinear edges)
    (P : Segment ℚ → Segment ℚ → Prop) :
    (∃ s ∈ pointers edges, ∃ r ∈ pointers edges,
      doIntersect s.segment r.segment = true ∧ P s.segment r.segment) ↔
      ∃ s r, TwoOf edges s r ∧ Crosses s r ∧ P s r := by
  constructor
  · rintro ⟨s, hs, r, hr, hintersect, hP⟩
    refine ⟨s.segment, r.segment, ⟨s.place, r.place, ?_, mem_pointers.mp hs, mem_pointers.mp hr⟩,
      crosses_of_doIntersect hintersect, hP⟩
    intro hplace
    have hsegment : some s.segment = some r.segment := by
      rw [← mem_pointers.mp hs, ← mem_pointers.mp hr, hplace]
    rw [Option.some.inj hsegment, doIntersect_self] at hintersect
    cases hintersect
  · rintro ⟨s, r, htwo, hcrosses, hP⟩
    have hintersect : doIntersect s r = true := by
      rw [doIntersect_iff]
      exact (crosses_iff (not_collinear_of_twoOf h htwo)).mp hcrosses
    obtain ⟨i, j, -, hi, hj⟩ := htwo
    exact ⟨⟨i, s⟩, mem_pointers.mpr hi, ⟨j, r⟩, mem_pointers.mpr hj, hintersect, hP⟩

/-- The verdict is right just if no edges cross, or some that cross are not missed. -/
theorem processEvents_iff {before : SegmentPtr → SegmentPtr → Prop} [DecidableRel before]
    {vertices : List (Point ℚ)} (h : vertices ≠ []) (hcollinear : NoTwoCollinear (segments vertices h))
    {verdict : Bool} (hverdict : ProcessEvents before vertices h verdict) :
    (verdict = true ↔ SelfIntersecting (segments vertices h)) ↔
      (SelfIntersecting (segments vertices h) → ∃ s r, TwoOf (segments vertices h) s r ∧
        Crosses s r ∧ ¬ Missed s r ∧ ¬ Missed r s) := by
  obtain ⟨sorted, hsorted, rfl⟩ := hverdict
  rw [sweep_true_iff hsorted, exists_doIntersect_iff hcollinear fun s r => ¬ Missed s r ∧ ¬ Missed r s]
  refine ⟨fun hiff => hiff.mpr, fun hfound => ⟨?_, hfound⟩⟩
  rintro ⟨s, r, htwo, hcrosses, -⟩
  exact ⟨s, r, htwo, hcrosses⟩

def Event.key (e : Event) : ℚ ×ₗ Nat := toLex (e.point.y, e.type.value)

theorem not_less_iff {a b : Event} : ¬ b.Less a ↔ a.key ≤ b.key := by
  have hlt : b.key < a.key ↔ b.Less a := Prod.Lex.lt_iff
  rw [← not_lt, hlt]

theorem isSorted_insertionSort (events : List Event) :
    IsSorted events (events.insertionSort fun a b => ¬ b.Less a) := by
  have htotal : Std.Total fun a b : Event => ¬ b.Less a := by
    refine ⟨fun a b => ?_⟩
    rw [not_less_iff, not_less_iff]
    exact le_total a.key b.key
  have htrans : IsTrans Event fun a b => ¬ b.Less a := by
    refine ⟨fun a b c => ?_⟩
    rw [not_less_iff, not_less_iff, not_less_iff]
    exact le_trans
  exact ⟨List.perm_insertionSort _ events, List.pairwise_insertionSort _ events⟩

theorem processEvents_of_sweep {before : SegmentPtr → SegmentPtr → Prop} [DecidableRel before]
    {vertices : List (Point ℚ)} (h : vertices ≠ []) {verdict : Bool}
    (hsweep : sweep before []
      ((events (segments vertices h)).insertionSort fun a b => ¬ b.Less a) = verdict) :
    ProcessEvents before vertices h verdict :=
  ⟨_, isSorted_insertionSort _, hsweep⟩

def mainVertices : List (Point ℚ) := [⟨0, 0⟩, ⟨1, 1⟩, ⟨2, 0⟩, ⟨1, -1⟩]

theorem mainVertices_ne_nil : mainVertices ≠ [] := List.cons_ne_nil _ _

theorem processEvents_main :
    ProcessEvents (fun s r => s.place ≤ r.place) mainVertices mainVertices_ne_nil false :=
  processEvents_of_sweep _ (by decide +kernel)

theorem processEvents_iff_main :
    (false = true ↔ SelfIntersecting (segments mainVertices mainVertices_ne_nil)) ↔
      (SelfIntersecting (segments mainVertices mainVertices_ne_nil) →
        ∃ s r, TwoOf (segments mainVertices mainVertices_ne_nil) s r ∧
          Crosses s r ∧ ¬ Missed s r ∧ ¬ Missed r s) :=
  processEvents_iff _ (by decide +kernel) processEvents_main

/-- The first edge goes up and ends below the start of the third one, which goes down and
crosses it. -/
theorem processEvents_missed : ProcessEvents (fun s r => s.place ≤ r.place)
    [⟨0, 0⟩, ⟨2, 2⟩, ⟨0, 3⟩, ⟨2, -1⟩] (by simp) false ∧
      NoTwoCollinear (segments [⟨0, 0⟩, ⟨2, 2⟩, ⟨0, 3⟩, ⟨2, -1⟩] (by simp)) ∧
      SelfIntersecting (segments [⟨0, 0⟩, ⟨2, 2⟩, ⟨0, 3⟩, ⟨2, -1⟩] (by simp)) := by
  refine ⟨processEvents_of_sweep _ (by decide +kernel), by decide +kernel, ?_⟩
  refine ⟨⟨⟨0, 0⟩, ⟨2, 2⟩⟩, ⟨⟨0, 3⟩, ⟨2, -1⟩⟩, ⟨0, 2, by decide, rfl, rfl⟩,
    1 / 2, 1 / 2, by norm_num, by norm_num, ?_⟩
  rw [Segment.point, Segment.point]
  norm_num

end RoblSampleCodes.SweepLine
