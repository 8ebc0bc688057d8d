import RoblSampleCodes.CheckedInt
import RoblSampleCodes.TransitionSystem

namespace RoblSampleCodes.MouseRoi

open CheckedInt TransitionSystem

structure Point where
  x : ℤ
  y : ℤ
  deriving DecidableEq

structure Rect where
  x : ℤ
  y : ℤ
  width : ℤ
  height : ℤ
  deriving DecidableEq

inductive Event
  | lbuttonDown
  | mouseMove
  | lbuttonUp
  | other
  deriving DecidableEq

structure Globals where
  isMousePressed : Bool
  startX : ℤ
  startY : ℤ
  endX : ℤ
  endY : ℤ
  step : ℕ
  roi : Rect

def mouseCallback (g : Globals) (event : Event) (x y : ℤ) : Globals :=
  match event with
  | .lbuttonDown => { g with step := 1, isMousePressed := true, startX := x, startY := y }
  | .mouseMove => if g.isMousePressed then { g with endX := x, endY := y, step := 2 } else g
  | .lbuttonUp => { g with isMousePressed := false, endX := x, endY := y, step := 3 }
  | .other => g

def swapped (g : Globals) : Globals :=
  if g.startX > g.endX then
    { g with startX := g.endX, startY := g.endY, endX := g.startX, endY := g.startY }
  else g

/-- The region between the corners, which is undefined when a difference overflows. -/
def buildRoi (g : Globals) : Option Rect :=
  (checked (g.endX - g.startX)).bind fun width =>
    (checked (g.endY - g.startY)).map fun height => ⟨g.startX, g.startY, width, height⟩

structure Build where
  press : Point
  release : Point
  roi : Option Rect
  deriving DecidableEq

structure State where
  globals : Globals
  running : Bool
  press : Option Point
  release : Option Point
  built : Option Build

inductive Action
  | mouse (event : Event) (p : Point)
  | frame (tracked : Rect)

def initial : State := ⟨⟨false, 0, 0, 0, 0, 0, ⟨0, 0, 0, 0⟩⟩, true, none, none, none⟩

def mouse (s : State) (event : Event) (p : Point) : State :=
  { s with
    globals := mouseCallback s.globals event p.x p.y
    press := if event = .lbuttonDown then some p else s.press
    release := if event = .lbuttonUp then some p else s.release }

/-- A turn of the loop. OpenCV does not accept every region, and ends the program otherwise. At step 4
the tracker moves the region. -/
def frame (accepts : Rect → Bool) (s : State) (tracked : Rect) : State :=
  if s.globals.step = 3 then
    let g := swapped s.globals
    { s with
      globals := (buildRoi g).elim g fun roi => { g with roi := roi, step := g.step + 1 }
      running := (buildRoi g).any accepts
      built := s.press.bind fun p => s.release.map fun r => ⟨p, r, buildRoi g⟩ }
  else if s.globals.step = 4 then { s with globals := { s.globals with roi := tracked } }
  else s

def system (accepts : Rect → Bool) : System State Action where
  init s := s = initial
  step s a :=
    if s.running then
      match a with
      | .mouse event p =>
        if -intMax - 1 ≤ p.x ∧ p.x ≤ intMax ∧ -intMax - 1 ≤ p.y ∧ p.y ≤ intMax then some (mouse s event p)
        else none
      | .frame tracked => some (frame accepts s tracked)
    else none

def dragged (p r : Point) : Rect := ⟨min p.x r.x, min p.y r.y, |p.x - r.x|, |p.y - r.y|⟩

def BuildsDragged (s : State) : Prop := ∀ b, s.built = some b → b.roi = some (dragged b.press b.release)

@[mk_iff]
structure Diagonal (p r : Point) : Prop where
  direction : p.x ≤ r.x ∧ p.y ≤ r.y ∨ r.x < p.x ∧ r.y ≤ p.y
  width : |p.x - r.x| ≤ intMax
  height : |p.y - r.y| ≤ intMax

/-- Whenever a region is built after a press and a release, the corner is where the press was, and the
drag is diagonal. -/
def DragsDiagonally (s : State) : Action → Prop
  | .mouse _ _ => True
  | .frame _ => s.globals.step = 3 → ∀ p r, s.press = some p → s.release = some r →
      s.globals.startX = p.x ∧ s.globals.startY = p.y ∧ Diagonal p r

variable {accepts : Rect → Bool} {g : Globals} {s t : State}

theorem buildRoi_eq_some {x y width height : ℤ} : buildRoi g = some ⟨x, y, width, height⟩ ↔
    (g.startX = x ∧ g.startY = y ∧ g.endX - g.startX = width ∧ g.endY - g.startY = height) ∧
      (-intMax - 1 ≤ width ∧ width ≤ intMax) ∧ -intMax - 1 ≤ height ∧ height ≤ intMax := by
  simp only [buildRoi, Option.bind_eq_some_iff, Option.map_eq_some_iff, checked_eq_some, Rect.mk.injEq]
  constructor
  · rintro ⟨_, ⟨hwidth, hw⟩, _, ⟨hheight, hh⟩, hx, hy, rfl, rfl⟩
    exact ⟨⟨hx, hy, hwidth, hheight⟩, hw, hh⟩
  · rintro ⟨⟨hx, hy, hwidth, hheight⟩, hw, hh⟩
    exact ⟨width, ⟨hwidth, hw⟩, height, ⟨hheight, hh⟩, hx, hy, rfl, rfl⟩

/-- The region is the dragged one just for a diagonal drag from the press. -/
theorem buildRoi_swapped_iff (p : Point) : buildRoi (swapped g) = some (dragged p ⟨g.endX, g.endY⟩) ↔
    g.startX = p.x ∧ g.startY = p.y ∧ Diagonal p ⟨g.endX, g.endY⟩ := by
  have hmax : 0 ≤ intMax := by decide
  rw [dragged, buildRoi_eq_some, diagonal_iff, swapped]
  simp only [abs_eq_max_neg]
  split
  · dsimp only
    omega
  · omega

theorem step_swapped : (swapped g).step = g.step := by
  rw [swapped]
  split <;> rfl

structure Inv (s : State) : Prop where
  released : s.running = true → s.globals.step = 3 → s.release = some ⟨s.globals.endX, s.globals.endY⟩
  dragged : BuildsDragged s

theorem Inv.mouse (h : Inv s) (event : Event) (p : Point) : Inv (mouse s event p) := by
  refine ⟨fun hrunning hstep => ?_, h.dragged⟩
  cases event with
  | lbuttonDown => cases hstep
  | mouseMove =>
    simp only [MouseRoi.mouse, mouseCallback, reduceCtorEq, if_false] at hstep ⊢
    split at hstep
    · cases hstep
    · rename_i hpressed
      rw [if_neg hpressed]
      exact h.released hrunning hstep
  | lbuttonUp => rfl
  | other => exact h.released hrunning hstep

theorem built_frame (hstep : s.globals.step = 3) (tracked : Rect) : (frame accepts s tracked).built =
    s.press.bind fun p => s.release.map fun r => ⟨p, r, buildRoi (swapped s.globals)⟩ := by
  rw [frame, if_pos hstep]

theorem buildsDragged_frame (h : Inv s) (hrunning : s.running = true) (hstep : s.globals.step = 3)
    (tracked : Rect) :
    BuildsDragged (frame accepts s tracked) ↔ DragsDiagonally s (.frame tracked) := by
  have hrelease := h.released hrunning hstep
  rw [BuildsDragged, built_frame hstep, hrelease]
  cases hpress : s.press with
  | none =>
    refine iff_of_true (fun b hb => ?_) fun _ p r hp => ?_
    · cases hb
    · rw [hpress] at hp
      cases hp
  | some p =>
    constructor
    · intro hb _ p' r hp hr
      rw [hpress] at hp
      rw [hrelease] at hr
      obtain rfl := Option.some.inj hp
      obtain rfl := Option.some.inj hr
      exact (buildRoi_swapped_iff p).mp (hb _ rfl)
    · intro hc b hb
      obtain rfl := Option.some.inj hb
      exact (buildRoi_swapped_iff p).mpr (hc hstep p _ hpress hrelease)

theorem Inv.frame (h : Inv s) (hrunning : s.running = true) (tracked : Rect)
    (hc : DragsDiagonally s (.frame tracked)) : Inv (frame accepts s tracked) := by
  by_cases hstep : s.globals.step = 3
  · refine ⟨fun hnext hthree => ?_, (buildsDragged_frame h hrunning hstep tracked).mpr hc⟩
    rw [MouseRoi.frame, if_pos hstep] at hnext hthree
    cases hbuild : buildRoi (swapped s.globals) with
    | none =>
      simp [hbuild] at hnext
    | some roi =>
      simp [hbuild, step_swapped, hstep] at hthree
  · rw [MouseRoi.frame, if_neg hstep]
    split
    · exact ⟨fun hnext hthree => absurd hthree hstep, h.dragged⟩
    · exact h

theorem step_cases {a : Action} (h : (system accepts).step s a = some t) : s.running = true ∧
    ((∃ event p, a = .mouse event p ∧ t = mouse s event p) ∨
      ∃ tracked, a = .frame tracked ∧ t = frame accepts s tracked) := by
  obtain ⟨hrunning, h⟩ := Option.ite_none_right_eq_some.mp h
  refine ⟨hrunning, ?_⟩
  cases a with
  | mouse event p =>
    obtain ⟨-, ⟨⟩⟩ := Option.ite_none_right_eq_some.mp h
    exact .inl ⟨event, p, rfl, rfl⟩
  | frame tracked =>
    obtain rfl := Option.some.inj h
    exact .inr ⟨tracked, rfl, rfl⟩

/-- The regions are the dragged ones as long as the drags are diagonal, and no longer. -/
theorem buildsDragged_exactCondition (accepts : Rect → Bool) :
    ExactCondition (system accepts) DragsDiagonally BuildsDragged := by
  refine exactCondition_of_invariant Inv ?_ ?_ (fun s h => h.dragged) ?_
  · rintro s rfl
    exact ⟨fun _ hstep => absurd hstep (by decide), fun b hb => by cases hb⟩
  · intro s a t h hc hs
    obtain ⟨hrunning, ⟨event, p, rfl, rfl⟩ | ⟨tracked, rfl, rfl⟩⟩ := step_cases hs
    · exact h.mouse event p
    · exact h.frame hrunning tracked hc
  · intro s a t h hs hc
    obtain ⟨hrunning, ⟨event, p, rfl, rfl⟩ | ⟨tracked, rfl, rfl⟩⟩ := step_cases hs
    · exact absurd trivial hc
    · have hstep : s.globals.step = 3 := by
        by_contra hne
        exact hc fun hstep => absurd hstep hne
      exact ⟨[], _, rfl, fun hdragged => hc ((buildsDragged_frame h hrunning hstep tracked).mp hdragged)⟩

/-- A drag up on the right has a negative height. -/
theorem exec_not_buildsDragged : ¬ ∃ accepts, ∀ s, exec (system accepts) initial
    [.mouse .lbuttonDown ⟨0, 10⟩, .mouse .lbuttonUp ⟨10, 0⟩, .frame ⟨0, 0, 0, 0⟩] = some s →
      BuildsDragged s := by
  rintro ⟨accepts, h⟩
  have hroi : some (Rect.mk 0 10 10 (-10)) = some (dragged ⟨0, 10⟩ ⟨10, 0⟩) := h _ rfl _ rfl
  exact absurd hroi (by decide)

end RoblSampleCodes.MouseRoi
