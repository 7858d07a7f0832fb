import Mathlib.Tactic

/-!
# Polylines through the origin

A list of segments, each with a rise and a positive run, read as a function of the
distance from the origin. After the last segment the line goes on horizontally. Two
such lines are compared at every distance; between two neighbouring corners their
difference is affine, so its sign is settled at the corners.
-/

namespace Polyline

open List

/-- A rise and a run. -/
abbrev Segment := ℝ × ℝ

/-- The height of the line at a distance. -/
noncomputable def height : List Segment → ℝ → ℝ
  | [], _ => 0
  | (rise, run) :: rest, distance =>
    if distance ≤ run then rise * distance / run else rise + height rest (distance - run)

def rises (segments : List Segment) : ℝ := (segments.map Prod.fst).sum

def runs (segments : List Segment) : ℝ := (segments.map Prod.snd).sum

/-- Every run is positive. -/
def Forward (segments : List Segment) : Prop := ∀ segment ∈ segments, 0 < segment.2

@[simp] theorem rises_nil : rises [] = 0 := by simp [rises]

@[simp] theorem runs_nil : runs [] = 0 := by simp [runs]

@[simp] theorem rises_cons (segment : Segment) (rest : List Segment) :
    rises (segment :: rest) = segment.1 + rises rest := by simp [rises]

@[simp] theorem runs_cons (segment : Segment) (rest : List Segment) :
    runs (segment :: rest) = segment.2 + runs rest := by simp [runs]

variable {segments first : List Segment} {distance : ℝ}

theorem runs_nonneg (forward : Forward segments) : 0 ≤ runs segments := by
  induction segments with
  | nil => simp
  | cons segment rest ih =>
    have here := forward segment mem_cons_self
    have later := ih fun other member =>
      forward other (mem_cons_of_mem _ member)
    rw [runs_cons]
    linarith

theorem height_zero (forward : Forward segments) : height segments 0 = 0 := by
  cases segments with
  | nil => rfl
  | cons segment rest =>
    have positive := forward segment mem_cons_self
    rw [height, if_pos positive.le]
    simp

/-- Past some segments, the rest goes on from their end. -/
theorem height_append {second : List Segment} (forward : Forward (first ++ second))
    (past : runs first ≤ distance) :
    height (first ++ second) distance = rises first + height second (distance - runs first) := by
  induction first generalizing distance with
  | nil => simp
  | cons segment rest ih =>
    have positive := forward segment mem_cons_self
    have later : Forward (rest ++ second) := fun other member =>
      forward other (mem_cons_of_mem _ member)
    have nonneg := runs_nonneg fun other member => later other (mem_append_left _ member)
    rw [runs_cons] at past
    rw [cons_append, height, rises_cons, runs_cons]
    split
    next short =>
      -- Only at the end of the segment itself, with nothing of the others before it.
      have atEnd : distance = segment.2 := by linarith
      have none : runs rest = 0 := by linarith
      have origin : height (rest ++ second) 0 = rises rest + height second (0 - runs rest) :=
        ih later (by rw [none])
      rw [height_zero later, none, sub_zero] at origin
      subst atEnd
      rw [none, add_zero, sub_self, mul_div_assoc, div_self positive.ne', mul_one]
      linarith
    next =>
      rw [ih later (by linarith)]
      ring_nf

/-- On one segment the line is straight. -/
theorem height_segment {rest : List Segment} {segment : Segment}
    (forward : Forward (first ++ segment :: rest)) (past : runs first ≤ distance)
    (within : distance ≤ runs first + segment.2) :
    height (first ++ segment :: rest) distance =
      rises first + segment.1 * (distance - runs first) / segment.2 := by
  rw [height_append forward past, height, if_pos (by linarith)]

/-- After the last segment the line is horizontal. -/
theorem height_end (forward : Forward segments) (past : runs segments ≤ distance) :
    height segments distance = rises segments := by
  have whole : height (segments ++ []) distance =
      rises segments + height [] (distance - runs segments) :=
    height_append (by simpa using forward) past
  simpa [height] using whole

/-- The first function is above the second at some distance up to a bound. -/
def AboveBy (bound : ℝ) (first second : ℝ → ℝ) : Prop :=
  ∃ distance, 0 ≤ distance ∧ distance ≤ bound ∧ second distance < first distance

/-- Where both functions are straight, one gets above the other at the end or not at all. -/
theorem aboveBy_straight {first second : ℝ → ℝ} {near far : ℝ} (start : 0 ≤ near)
    (order : near ≤ far)
    (straight : ∃ slope offset, ∀ distance, near ≤ distance → distance ≤ far →
      first distance - second distance = slope * distance + offset) :
    AboveBy far first second ↔ AboveBy near first second ∨ second far < first far := by
  obtain ⟨slope, offset, affine⟩ := straight
  constructor
  · rintro ⟨distance, nonneg, within, above⟩
    by_cases early : distance ≤ near
    · exact .inl ⟨distance, nonneg, early, above⟩
    · have here := affine distance (by linarith) within
      have atNear := affine near le_rfl order
      have atFar := affine far order le_rfl
      by_cases rising : 0 ≤ slope
      · exact .inr (by nlinarith)
      · exact .inl ⟨near, start, le_rfl, by nlinarith⟩
  · rintro (⟨distance, nonneg, within, above⟩ | above)
    · exact ⟨distance, nonneg, within.trans order, above⟩
    · exact ⟨far, start.trans order, le_rfl, above⟩

end Polyline
