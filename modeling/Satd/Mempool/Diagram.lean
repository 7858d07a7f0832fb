import Satd.Lib.Polyline

/-!
# Feerate diagrams

The chunks of a part of the pool, laid end to end, give a curve of the fees against the
size. `compareChunks` walks two such curves together, always to the corner that comes
next, and tests that corner against the segment of the other curve above or below it.

`compareChunks_exact` says that this finite walk decides how the curves compare at every
size, as long as no difference of fees leaves the 64-bit range.
-/

namespace Satd.Mempool

open List

/-! ## Feerates -/

/-- A fee and a size. -/
structure FeeFrac where
  fee : Int
  size : Int
  deriving DecidableEq

namespace FeeFrac

def zero : FeeFrac := ⟨0, 0⟩

/-- A 64-bit sum. It wraps, as in a release build. -/
def wrap (value : Int) : Int := Int.bmod value (2 ^ 64)

def add (first second : FeeFrac) : FeeFrac :=
  ⟨wrap (first.fee + second.fee), wrap (first.size + second.size)⟩

def sub (first second : FeeFrac) : FeeFrac :=
  ⟨wrap (first.fee - second.fee), wrap (first.size - second.size)⟩

end FeeFrac

/-- The order of two feerates, from the products in both directions. -/
def feerateCompare (first second : FeeFrac) : Ordering :=
  compare (first.fee * second.size) (second.fee * first.size)

/-! ## Diagrams -/

/-- How two diagrams compare. -/
inductive DiagramOrdering where
  | better | worse | equal | incomparable
  deriving DecidableEq, Repr

/-- One curve during the walk: the chunks to come, the corner reached, and whether the curve
was above the other one somewhere. -/
structure DiagramSide where
  rest : List FeeFrac
  accum : FeeFrac
  better : Bool
  deriving DecidableEq

variable (chunks : List FeeFrac)

def DiagramSide.start : DiagramSide := ⟨chunks, FeeFrac.zero, false⟩

/-- Go over one chunk. -/
def DiagramSide.advance (side : DiagramSide) (chunk : FeeFrac) : DiagramSide :=
  { side with rest := side.rest.tail, accum := side.accum.add chunk }

variable (chunk : FeeFrac)

/-- Test the next corner of one side against the other, and go past it. A corner of the other
side at the same size is passed with it. -/
def compareCorner (side other : DiagramSide) : DiagramSide × DiagramSide :=
  let pointP := chunk.add side.accum
  let pointA := other.accum
  let slopeAP := pointP.sub pointA
  let tested := match other.rest with
    | [] => (feerateCompare slopeAP ⟨0, 1⟩, other)
    | next :: _ =>
      let pointB := next.add other.accum
      (feerateCompare slopeAP (pointB.sub pointA),
        if pointB.size = pointP.size then other.advance next else other)
  ({ side.advance chunk with better := side.better || tested.1 == .gt },
    { tested.2 with better := other.better || tested.1 == .lt })

/-- One pass of the walk. -/
def comparePass (first second : DiagramSide) : Option (DiagramSide × DiagramSide) :=
  match first.rest, second.rest with
  | [], [] => none
  | chunk :: _, [] => some (compareCorner chunk first second)
  | [], chunk :: _ => some (compareCorner chunk second first).swap
  | chunk :: _, next :: _ =>
    if (next.add second.accum).size < (chunk.add first.accum).size then
      some (compareCorner next second first).swap
    else some (compareCorner chunk first second)

/-- Passes until both sides are done, and no answer if that takes more than the fuel. -/
def compareLoop : Nat → DiagramSide → DiagramSide → Option DiagramOrdering
  | 0, _, _ => none
  | fuel + 1, first, second =>
    match comparePass first second with
    | none =>
      if first.better && !second.better then some .better
      else if !first.better && second.better then some .worse
      else some .equal
    | some (first, second) =>
      if first.better && second.better then some .incomparable
      else compareLoop fuel first second

variable (chunks0 : List FeeFrac) (chunks1 : List FeeFrac)

/-- Compare two diagrams given by their chunks. -/
def compareChunks : Option DiagramOrdering :=
  compareLoop (chunks0.length + chunks1.length + 1) (.start chunks0) (.start chunks1)

/-! ## The curves -/

/-- A chunk as a segment of the curve. -/
def FeeFrac.segment : Polyline.Segment := (chunk.fee, chunk.size)

/-- The cumulative fee at a size. -/
noncomputable def feeCurve : ℝ → ℝ := Polyline.height (chunks.map FeeFrac.segment)

/-- The sums of the fees and of the sizes. -/
def totalOf : FeeFrac := ⟨(chunks.map FeeFrac.fee).sum, (chunks.map FeeFrac.size).sum⟩

/-- The corner after some number of chunks. -/
def corner (count : Nat) : FeeFrac := totalOf (chunks.take count)

/-- The number is one of a signed 64-bit type. -/
def InI64 (value : Int) : Prop := -2 ^ 63 ≤ value ∧ value < 2 ^ 63

/-- The chunks are pairs of 64-bit numbers with positive sizes, and their cumulative sums
fit. -/
structure DiagramChunks (chunks : List FeeFrac) : Prop where
  positive : ∀ chunk ∈ chunks, 0 < chunk.size
  chunk : ∀ chunk ∈ chunks, InI64 chunk.fee ∧ InI64 chunk.size
  fee : ∀ count, InI64 (corner chunks count).fee
  size : ∀ count, InI64 (corner chunks count).size

/-- The differences between the cumulative fees of two lists fit. -/
def DifferencesFit : Prop :=
  ∀ count0 count1,
    InI64 ((corner chunks0 count0).fee - (corner chunks1 count1).fee) ∧
    InI64 ((corner chunks1 count1).fee - (corner chunks0 count0).fee)

/-- The first curve is above the second at some size. -/
def SomewhereAbove : Prop := ∃ size : ℝ, 0 ≤ size ∧ feeCurve chunks1 size < feeCurve chunks0 size

theorem wrap_of_inI64 {value : Int} (fits : InI64 value) : FeeFrac.wrap value = value := by
  obtain ⟨low, high⟩ := fits
  rw [FeeFrac.wrap, Int.bmod_eq_iff (by norm_num)]
  omega

theorem totalOf_concat :
    totalOf (chunks ++ [chunk]) =
      ⟨(totalOf chunks).fee + chunk.fee, (totalOf chunks).size + chunk.size⟩ := by
  simp [totalOf]

variable {chunks rest others : List FeeFrac} {count otherCount : Nat} {chunk : FeeFrac}
  {side other : DiagramSide} {reach : Int}

theorem corner_succ (next : chunks.drop count = chunk :: rest) : corner chunks (count + 1) =
      ⟨(corner chunks count).fee + chunk.fee, (corner chunks count).size + chunk.size⟩ := by
  have found : chunks[count]? = some chunk := by
    rw [← head?_drop, next]
    rfl
  rw [corner, take_add_one, found, Option.toList_some, totalOf_concat]
  rfl

section Curve

variable (proper : DiagramChunks chunks)

include proper

theorem forward_segments : Polyline.Forward (chunks.map FeeFrac.segment) := by
  rintro segment member
  obtain ⟨chunk, isChunk, rfl⟩ := mem_map.mp member
  have positive := proper.positive chunk isChunk
  simpa [FeeFrac.segment] using positive

omit proper in
theorem rises_segments (part : List FeeFrac) :
    Polyline.rises (part.map FeeFrac.segment) = (totalOf part).fee := by
  simp [Polyline.rises, totalOf, FeeFrac.segment, Function.comp_def, Int.cast_list_sum]

omit proper in
theorem runs_segments (part : List FeeFrac) :
    Polyline.runs (part.map FeeFrac.segment) = (totalOf part).size := by
  simp [Polyline.runs, totalOf, FeeFrac.segment, Function.comp_def, Int.cast_list_sum]

omit proper in
theorem segments_split (next : chunks.drop count = chunk :: rest) : chunks.map FeeFrac.segment =
      (chunks.take count).map FeeFrac.segment ++ chunk.segment :: rest.map FeeFrac.segment := by
  rw [← map_cons, ← next, ← map_append, take_append_drop]

/-- Between two corners the curve is straight. -/
theorem feeCurve_between (next : chunks.drop count = chunk :: rest) {size : ℝ}
    (past : ((corner chunks count).size : ℝ) ≤ size)
    (within : size ≤ (corner chunks (count + 1)).size) :
    feeCurve chunks size = (corner chunks count).fee +
      chunk.fee * (size - (corner chunks count).size) / chunk.size := by
  have split := segments_split next
  have forward := forward_segments proper
  rw [split] at forward
  rw [corner_succ next] at within
  push_cast at within
  rw [feeCurve, split, Polyline.height_segment forward (by rwa [runs_segments])
    (by rwa [runs_segments]), rises_segments, runs_segments]
  rfl

/-- After the last corner the curve is horizontal. -/
theorem feeCurve_after (done : chunks.drop count = []) {size : ℝ}
    (past : ((corner chunks count).size : ℝ) ≤ size) :
    feeCurve chunks size = (corner chunks count).fee := by
  have all : chunks.take count = chunks := by
    rw [← take_append_drop count chunks, done]
    simp
  rw [corner, all] at past ⊢
  rw [feeCurve, Polyline.height_end (forward_segments proper) (by rwa [runs_segments]),
    rises_segments]

theorem corner_size_nonneg (count : Nat) : 0 ≤ (corner chunks count).size := by
  apply sum_nonneg
  intro size member
  obtain ⟨chunk, isChunk, rfl⟩ := mem_map.mp member
  exact (proper.positive chunk (mem_of_mem_take isChunk)).le

section

variable (next : chunks.drop count = chunk :: rest)
include next

theorem chunk_of_next : 0 < chunk.size ∧ InI64 chunk.fee ∧ InI64 chunk.size := by
  have member : chunk ∈ chunks := mem_of_mem_drop (next ▸ mem_cons_self)
  exact ⟨proper.positive chunk member, proper.chunk chunk member⟩

/-- The curve at a corner is the cumulative fee there. -/
theorem feeCurve_corner :
    feeCurve chunks (corner chunks (count + 1)).size = (corner chunks (count + 1)).fee := by
  have positive := (chunk_of_next proper next).1
  have realPositive : (0 : ℝ) < chunk.size := by exact_mod_cast positive
  rw [feeCurve_between proper next _ le_rfl, corner_succ next]
  · push_cast
    rw [add_sub_cancel_left, mul_div_assoc, div_self realPositive.ne', mul_one]
  · rw [corner_succ next]
    push_cast
    linarith

/-- Adding the next chunk to the corner reached gives the next corner. -/
theorem add_corner : (corner chunks count).add chunk = corner chunks (count + 1) := by
  have fee := proper.fee (count + 1)
  have size := proper.size (count + 1)
  rw [corner_succ next] at fee size
  rw [corner_succ next, FeeFrac.add, wrap_of_inI64 fee, wrap_of_inI64 size]

end

omit proper in
theorem add_comm_frac (first second : FeeFrac) : first.add second = second.add first := by
  simp [FeeFrac.add, add_comm]

end Curve

/-! ## One corner -/

/-- A side has gone over a number of chunks. -/
structure Passed (chunks : List FeeFrac) (count : Nat) (side : DiagramSide) : Prop where
  rest : side.rest = chunks.drop count
  accum : side.accum = corner chunks count

/-- The next corner of a list lies beyond a size. -/
def Ahead (chunks : List FeeFrac) (count : Nat) (size : Int) : Prop :=
  ∀ chunk rest, chunks.drop count = chunk :: rest → size < (corner chunks (count + 1)).size

section

variable (proper : DiagramChunks chunks) (passed : Passed chunks count side)
  (next : chunks.drop count = chunk :: rest)
include proper passed next

theorem Passed.add : chunk.add side.accum = corner chunks (count + 1) := by
  rw [passed.accum, add_comm_frac, add_corner proper next]

theorem Passed.advance (better : Bool) :
    Passed chunks (count + 1) { side.advance chunk with better } where
  rest := by
    rw [DiagramSide.advance, passed.rest, tail_drop]
  accum := by
    rw [DiagramSide.advance, passed.accum, add_corner proper next]

end

theorem ahead_succ (proper : DiagramChunks chunks) {count : Nat} :
    Ahead chunks count (corner chunks count).size := by
  intro chunk rest next
  have positive := (chunk_of_next proper next).1
  rw [corner_succ next]
  dsimp only
  omega

theorem compare_congr {α β : Type*} [LinearOrder α] [LinearOrder β] {first second : α}
    {left right : β} (less : first < second ↔ left < right)
    (greater : second < first ↔ right < left) : compare first second = compare left right := by
  rcases lt_trichotomy first second with below | rfl | above
  · rw [compare_lt_iff_lt.mpr below, compare_lt_iff_lt.mpr (less.mp below)]
  · have same : left = right :=
      le_antisymm (not_lt.mp fun lower => lt_irrefl _ (greater.mpr lower))
        (not_lt.mp fun lower => lt_irrefl _ (less.mpr lower))
    rw [compare_eq_iff_eq.mpr rfl, compare_eq_iff_eq.mpr same]
  · rw [compare_gt_iff_gt.mpr above, compare_gt_iff_gt.mpr (greater.mp above)]

section Corner

variable (proper : DiagramChunks chunks) (properOthers : DiagramChunks others)
  (fit : DifferencesFit chunks others) (passed : Passed chunks count side)
  (passedOther : Passed others otherCount other) (next : chunks.drop count = chunk :: rest)
  (beyond : (corner others otherCount).size < (corner chunks (count + 1)).size)

/-- The answer of the test at the next corner. -/
def cornerTest (chunk : FeeFrac) (side other : DiagramSide) : Ordering :=
  match other.rest with
  | [] => feerateCompare ((chunk.add side.accum).sub other.accum) ⟨0, 1⟩
  | following :: _ => feerateCompare ((chunk.add side.accum).sub other.accum)
    ((following.add other.accum).sub other.accum)

/-- The other side after the corner. -/
def passCorner (size : Int) (other : DiagramSide) : DiagramSide :=
  match other.rest with
  | [] => other
  | following :: _ =>
    if (following.add other.accum).size = size then other.advance following else other

theorem compareCorner_eq (chunk : FeeFrac) (side other : DiagramSide) :
    compareCorner chunk side other =
      ({ side.advance chunk with better := side.better || cornerTest chunk side other == .gt },
        { passCorner (chunk.add side.accum).size other with
          better := other.better || cornerTest chunk side other == .lt }) := by
  rw [compareCorner, cornerTest, passCorner]
  cases other.rest <;> rfl

include proper properOthers fit passed passedOther next beyond

theorem slope_corner : (chunk.add side.accum).sub other.accum =
    ⟨(corner chunks (count + 1)).fee - (corner others otherCount).fee,
      (corner chunks (count + 1)).size - (corner others otherCount).size⟩ := by
  have low := corner_size_nonneg properOthers otherCount
  have high := (proper.size (count + 1)).2
  rw [passed.add proper next, passedOther.accum, FeeFrac.sub,
    wrap_of_inI64 (fit (count + 1) otherCount).1, wrap_of_inI64 ⟨by omega, by omega⟩]

/-- The test compares the two curves at the corner. -/
theorem cornerTest_eq (within : ∀ following more, others.drop otherCount = following :: more →
      (corner chunks (count + 1)).size ≤ (corner others (otherCount + 1)).size) :
    cornerTest chunk side other = compare (feeCurve chunks (corner chunks (count + 1)).size)
      (feeCurve others (corner chunks (count + 1)).size) := by
  have slope := slope_corner proper properOthers fit passed passedOther next beyond
  have past : ((corner others otherCount).size : ℝ) ≤ (corner chunks (count + 1)).size := by
    exact_mod_cast beyond.le
  rw [feeCurve_corner proper next, cornerTest]
  cases remaining : others.drop otherCount with
  | nil =>
    rw [passedOther.rest, remaining, feeCurve_after properOthers remaining past]
    rw [slope, feerateCompare]
    apply compare_congr
    · rw [← Int.cast_lt (R := ℝ)]
      push_cast
      constructor <;> intro <;> linarith
    · rw [← Int.cast_lt (R := ℝ)]
      push_cast
      constructor <;> intro <;> linarith
  | cons following more =>
    have inside := within following more remaining
    obtain ⟨positive, feeFits, sizeFits⟩ := chunk_of_next properOthers remaining
    rw [passedOther.rest, remaining, feeCurve_between properOthers remaining past
      (by exact_mod_cast inside)]
    dsimp only
    have slopeAB : (following.add other.accum).sub other.accum = following := by
      rw [passedOther.add properOthers remaining, passedOther.accum, corner_succ remaining,
        FeeFrac.sub]
      simp [wrap_of_inI64 feeFits, wrap_of_inI64 sizeFits]
    have realPositive : (0 : ℝ) < following.size := by exact_mod_cast positive
    rw [slope, slopeAB, feerateCompare]
    apply compare_congr
    · rw [← Int.cast_lt (R := ℝ), ← sub_lt_iff_lt_add', lt_div_iff₀ realPositive]
      push_cast
      rfl
    · rw [← Int.cast_lt (R := ℝ), ← lt_sub_iff_add_lt', div_lt_iff₀ realPositive]
      push_cast
      rfl

end Corner

/-! ## The walk -/

/-- The walk has compared the curves up to a size that no next corner lies before. -/
structure Walked (chunks others : List FeeFrac) (side other : DiagramSide)
    (count otherCount : Nat) (reach : Int) : Prop where
  passed : Passed chunks count side
  passedOther : Passed others otherCount other
  start : 0 ≤ reach
  behind : (corner chunks count).size ≤ reach
  behindOther : (corner others otherCount).size ≤ reach
  ahead : Ahead chunks count reach
  aheadOther : Ahead others otherCount reach
  better : side.better = true ↔ Polyline.AboveBy reach (feeCurve chunks) (feeCurve others)
  worse : other.better = true ↔ Polyline.AboveBy reach (feeCurve others) (feeCurve chunks)

theorem Walked.swap (walked : Walked chunks others side other count otherCount reach) :
    Walked others chunks other side otherCount count reach :=
  ⟨walked.passedOther, walked.passed, walked.start, walked.behindOther, walked.behind,
    walked.aheadOther, walked.ahead, walked.worse, walked.better⟩

theorem DifferencesFit.swap (fit : DifferencesFit chunks others) : DifferencesFit others chunks :=
  fun otherCount count => (fit count otherCount).symm

theorem walked_start (proper : DiagramChunks chunks) (properOthers : DiagramChunks others) :
    Walked chunks others (.start chunks) (.start others) 0 0 0 := by
  have none : ∀ first second : List FeeFrac, DiagramChunks first → DiagramChunks second →
      ¬ Polyline.AboveBy ((0 : Int) : ℝ) (feeCurve first) (feeCurve second) := by
    rintro first second properFirst properSecond ⟨size, low, high, above⟩
    have origin : size = 0 := le_antisymm (by simpa using high) low
    rw [origin, feeCurve, feeCurve, Polyline.height_zero (forward_segments properFirst),
      Polyline.height_zero (forward_segments properSecond)] at above
    exact lt_irrefl _ above
  have origin : ∀ list : List FeeFrac, corner list 0 = FeeFrac.zero := fun list => rfl
  exact ⟨⟨rfl, rfl⟩, ⟨rfl, rfl⟩, le_rfl, by simp [origin, FeeFrac.zero],
    by simp [origin, FeeFrac.zero], ahead_succ proper, ahead_succ properOthers,
    by simpa [DiagramSide.start] using none chunks others proper properOthers,
    by simpa [DiagramSide.start] using none others chunks properOthers proper⟩

section Step

variable (proper : DiagramChunks chunks) (properOthers : DiagramChunks others)

include proper properOthers

/-- Up to the next corner both curves are straight. -/
theorem straight_difference {near far : ℝ} (behind : ((corner chunks count).size : ℝ) ≤ near)
    (behindOther : ((corner others otherCount).size : ℝ) ≤ near)
    (within : ∀ chunk rest, chunks.drop count = chunk :: rest →
      far ≤ (corner chunks (count + 1)).size)
    (withinOther : ∀ chunk rest, others.drop otherCount = chunk :: rest →
      far ≤ (corner others (otherCount + 1)).size) :
    ∃ slope offset, ∀ size, near ≤ size → size ≤ far →
      feeCurve chunks size - feeCurve others size = slope * size + offset := by
  have straight : ∀ (list : List FeeFrac) (number : Nat), DiagramChunks list →
      ((corner list number).size : ℝ) ≤ near →
      (∀ chunk rest, list.drop number = chunk :: rest → far ≤ (corner list (number + 1)).size) →
      ∃ slope offset, ∀ size, near ≤ size → size ≤ far →
        feeCurve list size = slope * size + offset := by
    intro list number properList reached inside
    cases remaining : list.drop number with
    | nil =>
      refine ⟨0, (corner list number).fee, fun size low high => ?_⟩
      rw [feeCurve_after properList remaining (reached.trans low)]
      ring
    | cons chunk rest =>
      refine ⟨chunk.fee / chunk.size, (corner list number).fee -
        chunk.fee / chunk.size * (corner list number).size, fun size low high => ?_⟩
      rw [feeCurve_between properList remaining (reached.trans low)
        (high.trans (inside chunk rest remaining))]
      ring
  obtain ⟨slope, offset, line⟩ := straight chunks count proper behind within
  obtain ⟨otherSlope, otherOffset, otherLine⟩ :=
    straight others otherCount properOthers behindOther withinOther
  refine ⟨slope - otherSlope, offset - otherOffset, fun size low high => ?_⟩
  rw [line size low high, otherLine size low high]
  ring

omit proper in
/-- The other side goes along when its next corner is at the same size. -/
theorem passCorner_passed {size : Int} (passed : Passed others otherCount other)
    (behind : (corner others otherCount).size ≤ size)
    (first : ∀ following more, others.drop otherCount = following :: more →
      size ≤ (corner others (otherCount + 1)).size) :
    ∃ passedCount, Passed others passedCount (passCorner size other) ∧ otherCount ≤ passedCount ∧
      (corner others passedCount).size ≤ size ∧ Ahead others passedCount size := by
  rw [passCorner, passed.rest]
  cases remaining : others.drop otherCount with
  | nil =>
    refine ⟨otherCount, passed, le_rfl, behind, fun chunk rest next => ?_⟩
    rw [remaining] at next
    cases next
  | cons following more =>
    dsimp only
    rw [passed.add properOthers remaining]
    by_cases same : (corner others (otherCount + 1)).size = size
    · rw [if_pos same]
      refine ⟨otherCount + 1, ?_, Nat.le_succ _, same.le, same ▸ ahead_succ properOthers⟩
      exact passed.advance properOthers remaining other.better
    · rw [if_neg same]
      refine ⟨otherCount, passed, le_rfl, behind, fun chunk rest next => ?_⟩
      exact lt_of_le_of_ne (first following more remaining) (.symm same)

variable (fit : DifferencesFit chunks others)
  (walked : Walked chunks others side other count otherCount reach)
include fit walked

/-- Going past the next corner extends the comparison up to it. -/
theorem Walked.corner (next : chunks.drop count = chunk :: rest)
    (first : ∀ following more, others.drop otherCount = following :: more →
      (corner chunks (count + 1)).size ≤ (corner others (otherCount + 1)).size) :
    ∃ passedCount, Walked chunks others (compareCorner chunk side other).1
      (compareCorner chunk side other).2 (count + 1) passedCount
      (Mempool.corner chunks (count + 1)).size ∧ otherCount ≤ passedCount := by
  obtain ⟨passed, passedOther, start, behind, behindOther, ahead, aheadOther, better, worse⟩ :=
    walked
  have further := ahead chunk rest next
  have tested := cornerTest_eq proper properOthers fit passed passedOther next
    (behindOther.trans_lt further) first
  have realFurther : (reach : ℝ) ≤ (Mempool.corner chunks (count + 1)).size := by
    exact_mod_cast further.le
  have straight := straight_difference proper properOthers
    (show ((Mempool.corner chunks count).size : ℝ) ≤ reach by exact_mod_cast behind)
    (show ((Mempool.corner others otherCount).size : ℝ) ≤ reach by exact_mod_cast behindOther)
    (fun _ _ _ => le_refl ((Mempool.corner chunks (count + 1)).size : ℝ))
    (fun following more remaining => by exact_mod_cast first following more remaining)
  have realStart : (0 : ℝ) ≤ reach := by exact_mod_cast start
  obtain ⟨passedCount, passing, low, far, aheadPassed⟩ :=
    passCorner_passed properOthers passedOther (behindOther.trans further.le) first
  refine ⟨passedCount, ?_, low⟩
  rw [compareCorner_eq, passed.add proper next]
  constructor
  · exact passed.advance proper next _
  · exact ⟨passing.rest, passing.accum⟩
  · exact start.trans further.le
  · exact le_rfl
  · exact far
  · exact ahead_succ proper
  · exact aheadPassed
  · rw [Polyline.aboveBy_straight realStart realFurther straight, ← better, tested]
    simp [compare_gt_iff_gt]
  · have opposite : ∃ slope offset, ∀ size, (reach : ℝ) ≤ size →
        size ≤ (Mempool.corner chunks (count + 1)).size →
        feeCurve others size - feeCurve chunks size = slope * size + offset := by
      obtain ⟨slope, offset, line⟩ := straight
      refine ⟨-slope, -offset, fun size low high => ?_⟩
      have here := line size low high
      linarith
    rw [Polyline.aboveBy_straight realStart realFurther opposite, ← worse, tested]
    simp [compare_lt_iff_lt]

omit proper properOthers fit walked in
/-- Where both curves are horizontal, nothing changes any more. -/
theorem somewhereAbove_iff {first second : List FeeFrac} (properFirst : DiagramChunks first)
    (properSecond : DiagramChunks second) {secondCount : Nat} (start : 0 ≤ reach)
    (done : first.drop count = []) (doneSecond : second.drop secondCount = [])
    (behind : (corner first count).size ≤ reach)
    (behindSecond : (corner second secondCount).size ≤ reach) :
    SomewhereAbove first second ↔ Polyline.AboveBy reach (feeCurve first) (feeCurve second) := by
  have realBehind : ((corner first count).size : ℝ) ≤ reach := by exact_mod_cast behind
  have realSecond : ((corner second secondCount).size : ℝ) ≤ reach := by
    exact_mod_cast behindSecond
  constructor
  · rintro ⟨size, low, above⟩
    by_cases early : size ≤ reach
    · exact ⟨size, low, early, above⟩
    · have late : (reach : ℝ) ≤ size := le_of_not_ge early
      refine ⟨reach, by exact_mod_cast start, le_rfl, ?_⟩
      rw [feeCurve_after properFirst done (realBehind.trans late),
        feeCurve_after properSecond doneSecond (realSecond.trans late)] at above
      rw [feeCurve_after properFirst done realBehind,
        feeCurve_after properSecond doneSecond realSecond]
      exact above
  · rintro ⟨size, low, _, above⟩
    exact ⟨size, low, above⟩

/-- The next corner of one side brings the walk forward. -/
theorem Walked.advance {chunk : FeeFrac} {rest : List FeeFrac}
    (next : chunks.drop count = chunk :: rest)
    (first : ∀ following more, others.drop otherCount = following :: more →
      (Mempool.corner chunks (count + 1)).size ≤ (Mempool.corner others (otherCount + 1)).size) :
    ∃ number otherNumber further, Walked chunks others (compareCorner chunk side other).1
        (compareCorner chunk side other).2 number otherNumber further ∧
      (chunks.drop number).length + (others.drop otherNumber).length <
        (chunks.drop count).length + (others.drop otherCount).length := by
  obtain ⟨otherNumber, kept, low⟩ := walked.corner proper properOthers fit next first
  have less := congrArg length next
  refine ⟨_, _, _, kept, ?_⟩
  simp only [length_drop, length_cons] at less ⊢
  omega

/-- A pass of the walk, from either side. -/
theorem Walked.pass {passed : DiagramSide × DiagramSide}
    (ran : comparePass side other = some passed) :
    ∃ number otherNumber further,
      Walked chunks others passed.1 passed.2 number otherNumber further ∧
      (chunks.drop number).length + (others.drop otherNumber).length <
        (chunks.drop count).length + (others.drop otherCount).length := by
  rw [comparePass, walked.passed.rest, walked.passedOther.rest] at ran
  cases remaining : chunks.drop count with
  | nil =>
    cases remainingOther : others.drop otherCount with
    | nil => simp [remaining, remainingOther] at ran
    | cons chunk rest =>
      simp only [remaining, remainingOther, Option.some.injEq] at ran
      rw [← remaining, ← remainingOther, ← ran]
      obtain ⟨_, _, _, kept, less⟩ := walked.swap.advance properOthers proper fit.swap
        remainingOther fun _ _ next => by simp [remaining] at next
      exact ⟨_, _, _, kept.swap, by omega⟩
  | cons chunk rest =>
    cases remainingOther : others.drop otherCount with
    | nil =>
      simp only [remaining, remainingOther, Option.some.injEq] at ran
      rw [← remaining, ← remainingOther, ← ran]
      exact walked.advance proper properOthers fit remaining
        fun _ _ next => by simp [remainingOther] at next
    | cons next more =>
      simp only [remaining, remainingOther, walked.passed.add proper remaining,
        walked.passedOther.add properOthers remainingOther] at ran
      rw [← remaining, ← remainingOther]
      split at ran
      next less =>
        obtain ⟨_, _, _, kept, fewer⟩ := walked.swap.advance properOthers proper fit.swap
          remainingOther fun _ _ _ => less.le
        rw [← Option.some.inj ran]
        exact ⟨_, _, _, kept.swap, by omega⟩
      next notLess =>
        rw [← Option.some.inj ran]
        exact walked.advance proper properOthers fit remaining fun _ _ _ => not_lt.mp notLess

/-- An answer is right about where each curve is above the other. -/
def Decides (chunks others : List FeeFrac) : DiagramOrdering → Prop
  | .better => SomewhereAbove chunks others ∧ ¬ SomewhereAbove others chunks
  | .worse => ¬ SomewhereAbove chunks others ∧ SomewhereAbove others chunks
  | .equal => ¬ SomewhereAbove chunks others ∧ ¬ SomewhereAbove others chunks
  | .incomparable => SomewhereAbove chunks others ∧ SomewhereAbove others chunks

/-- The walk ends, since every pass leaves a corner behind, and what it answers is right. -/
theorem compareLoop_decides {fuel : Nat} (undecided : ¬ (side.better = true ∧ other.better = true))
    (enough : (chunks.drop count).length + (others.drop otherCount).length < fuel) :
    ∃ answer, compareLoop fuel side other = some answer ∧ Decides chunks others answer := by
  induction fuel generalizing side other count otherCount reach with
  | zero => omega
  | succ fuel ih =>
    rw [compareLoop]
    cases passed : comparePass side other with
    | none =>
      have done : chunks.drop count = [] ∧ others.drop otherCount = [] := by
        rw [comparePass, walked.passed.rest, walked.passedOther.rest] at passed
        cases remaining : chunks.drop count <;> cases remainingOther : others.drop otherCount <;>
          simp [remaining, remainingOther] at passed ⊢
        split at passed <;> cases passed
      have above := somewhereAbove_iff proper properOthers walked.start done.1 done.2
        walked.behind walked.behindOther
      have below := somewhereAbove_iff properOthers proper walked.start done.2 done.1
        walked.behindOther walked.behind
      rw [← walked.better] at above
      rw [← walked.worse] at below
      cases better : side.better <;> cases worse : other.better <;> simp_all [Decides]
    | some after =>
      obtain ⟨number, otherNumber, further, kept, less⟩ :=
        walked.pass proper properOthers fit passed
      dsimp only at kept ⊢
      split
      next both =>
        obtain ⟨better, worse⟩ := Bool.and_eq_true_iff.mp both
        obtain ⟨size, low, _, above⟩ := kept.better.mp better
        obtain ⟨otherSize, otherLow, _, otherAbove⟩ := kept.worse.mp worse
        exact ⟨_, rfl, ⟨size, low, above⟩, ⟨otherSize, otherLow, otherAbove⟩⟩
      next notBoth =>
        exact ih kept (fun both => notBoth (Bool.and_eq_true_iff.mpr both)) (by omega)

end Step

/-- The walk decides how the two curves compare over all sizes. -/
theorem compareChunks_exact {chunks0 chunks1 : List FeeFrac} (proper0 : DiagramChunks chunks0)
    (proper1 : DiagramChunks chunks1) (fit : DifferencesFit chunks0 chunks1) :
    (compareChunks chunks0 chunks1 = some .better ↔
      (∀ size : ℝ, 0 ≤ size → feeCurve chunks1 size ≤ feeCurve chunks0 size) ∧
      ∃ size : ℝ, 0 ≤ size ∧ feeCurve chunks1 size < feeCurve chunks0 size) ∧
    (compareChunks chunks0 chunks1 = some .worse ↔
      (∀ size : ℝ, 0 ≤ size → feeCurve chunks0 size ≤ feeCurve chunks1 size) ∧
      ∃ size : ℝ, 0 ≤ size ∧ feeCurve chunks0 size < feeCurve chunks1 size) ∧
    (compareChunks chunks0 chunks1 = some .equal ↔
      ∀ size : ℝ, 0 ≤ size → feeCurve chunks0 size = feeCurve chunks1 size) ∧
    (compareChunks chunks0 chunks1 = some .incomparable ↔
      (∃ size : ℝ, 0 ≤ size ∧ feeCurve chunks1 size < feeCurve chunks0 size) ∧
      ∃ size : ℝ, 0 ≤ size ∧ feeCurve chunks0 size < feeCurve chunks1 size) := by
  obtain ⟨answer, returned, decided⟩ : ∃ answer, compareChunks chunks0 chunks1 = some answer ∧
      Decides chunks0 chunks1 answer :=
    compareLoop_decides proper0 proper1 fit (walked_start proper0 proper1)
      (by simp [DiagramSide.start]) (by simp)
  have nowhere : ∀ first second : List FeeFrac, ¬ SomewhereAbove first second ↔
      ∀ size : ℝ, 0 ≤ size → feeCurve first size ≤ feeCurve second size := by
    intro first second
    simp [SomewhereAbove]
  have equal : (∀ size : ℝ, 0 ≤ size → feeCurve chunks0 size = feeCurve chunks1 size) ↔
      ¬ SomewhereAbove chunks0 chunks1 ∧ ¬ SomewhereAbove chunks1 chunks0 := by
    rw [nowhere, nowhere]
    exact ⟨fun same => ⟨fun size low => (same size low).le, fun size low => (same size low).ge⟩,
      fun both size low => le_antisymm (both.1 size low) (both.2 size low)⟩
  rw [equal, ← nowhere, ← nowhere, ← SomewhereAbove, ← SomewhereAbove]
  rw [returned]
  cases answer <;> simp only [Decides] at decided <;> simp [decided]

/-- Fees that are not negative never differ by too much. -/
theorem differencesFit_of_nonneg {chunks0 chunks1 : List FeeFrac} (proper0 : DiagramChunks chunks0)
    (proper1 : DiagramChunks chunks1) (nonneg0 : ∀ chunk ∈ chunks0, 0 ≤ chunk.fee)
    (nonneg1 : ∀ chunk ∈ chunks1, 0 ≤ chunk.fee) : DifferencesFit chunks0 chunks1 := by
  have paid : ∀ (chunks : List FeeFrac) (count : Nat), (∀ chunk ∈ chunks, 0 ≤ chunk.fee) →
      0 ≤ (corner chunks count).fee := by
    intro chunks count nonneg
    apply sum_nonneg
    intro fee member
    obtain ⟨chunk, isChunk, rfl⟩ := mem_map.mp member
    exact nonneg chunk (mem_of_mem_take isChunk)
  intro count0 count1
  have low0 := paid chunks0 count0 nonneg0
  have low1 := paid chunks1 count1 nonneg1
  have high0 := (proper0.fee count0).2
  have high1 := (proper1.fee count1).2
  exact ⟨⟨by omega, by omega⟩, ⟨by omega, by omega⟩⟩

theorem diagramChunks_of_length
    (each : ∀ chunk ∈ chunks, 0 < chunk.size ∧ InI64 chunk.fee ∧ InI64 chunk.size)
    (sums : ∀ count ≤ chunks.length,
      InI64 (corner chunks count).fee ∧ InI64 (corner chunks count).size) :
    DiagramChunks chunks := by
  have all : ∀ count, InI64 (corner chunks count).fee ∧ InI64 (corner chunks count).size := by
    intro count
    by_cases short : count ≤ chunks.length
    · exact sums count short
    · have same : corner chunks count = corner chunks chunks.length := by
        rw [corner, corner, take_of_length_le (by omega), take_of_length_le le_rfl]
      rw [same]
      exact sums _ le_rfl
  exact ⟨fun chunk member => (each chunk member).1, fun chunk member => (each chunk member).2,
    fun count => (all count).1, fun count => (all count).2⟩

instance (value : Int) : Decidable (InI64 value) := inferInstanceAs (Decidable (_ ∧ _))

/-- A diagram that pays more at once and the same in the end. -/
theorem compareChunks_exact_early :
    compareChunks [⟨5, 1⟩, ⟨1, 2⟩] [⟨6, 3⟩] = some .better ↔
      (∀ size : ℝ, 0 ≤ size → feeCurve [⟨6, 3⟩] size ≤ feeCurve [⟨5, 1⟩, ⟨1, 2⟩] size) ∧
      ∃ size : ℝ, 0 ≤ size ∧ feeCurve [⟨6, 3⟩] size < feeCurve [⟨5, 1⟩, ⟨1, 2⟩] size := by
  have early : DiagramChunks [⟨5, 1⟩, ⟨1, 2⟩] := diagramChunks_of_length (by decide) (by decide)
  have even : DiagramChunks [⟨6, 3⟩] := diagramChunks_of_length (by decide) (by decide)
  exact (compareChunks_exact early even
    (differencesFit_of_nonneg early even (by decide) (by decide))).1

/-- With fees of opposite signs near the ends of the range, a difference wraps around, and a
curve that is nowhere above the other is taken to be so. -/
theorem compareChunks_wraps :
    DiagramChunks [⟨6 * 10 ^ 18, 1⟩, ⟨0, 2⟩] ∧ DiagramChunks [⟨-6 * 10 ^ 18, 2⟩] ∧
      compareChunks [⟨6 * 10 ^ 18, 1⟩, ⟨0, 2⟩] [⟨-6 * 10 ^ 18, 2⟩] = some .incomparable ∧
      ∀ size : ℝ, 0 ≤ size →
        feeCurve [⟨-6 * 10 ^ 18, 2⟩] size ≤ feeCurve [⟨6 * 10 ^ 18, 1⟩, ⟨0, 2⟩] size := by
  refine ⟨diagramChunks_of_length (by decide) (by decide),
    diagramChunks_of_length (by decide) (by decide), by decide +kernel, fun size low => ?_⟩
  have above : 0 ≤ feeCurve [⟨6 * 10 ^ 18, 1⟩, ⟨0, 2⟩] size := by
    simp only [feeCurve, map_cons, map_nil, FeeFrac.segment, Polyline.height]
    split_ifs
    all_goals norm_num
    all_goals positivity
  have below : feeCurve [⟨-6 * 10 ^ 18, 2⟩] size ≤ 0 := by
    simp only [feeCurve, map_cons, map_nil, FeeFrac.segment, Polyline.height]
    split_ifs
    all_goals norm_num
    all_goals linarith
  exact below.trans above

end Satd.Mempool
