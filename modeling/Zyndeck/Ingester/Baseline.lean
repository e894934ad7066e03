import Mathlib.Algebra.Order.Ring.Rat
import Zyndeck.Db.Content
import Zyndeck.Ingester.Lines

namespace Zyndeck

/-! Grouping segments into lines, with the geometry in exact arithmetic. -/

/-- The number that a finite `f32` stands for. -/
def F32.exact (number : F32) : ℚ :=
  let bits := number.bits.toNat
  let exponent := bits / 2 ^ 23 % 2 ^ 8
  let mantissa := bits % 2 ^ 23
  let units : Nat := (if exponent = 0 then 2 * mantissa else mantissa + 2 ^ 23) * 2 ^ exponent
  let signed : Int := if bits / 2 ^ 31 = 0 then units else -units
  signed / 2 ^ 150

namespace Document

open Data

namespace RawSegment

def baseline (segment : RawSegment) : ℚ := segment.bottom.exact

def exactHeight (segment : RawSegment) : ℚ := segment.top.exact - segment.bottom.exact

def isFinite (segment : RawSegment) : Bool :=
  segment.left.isFinite && segment.right.isFinite && segment.top.isFinite &&
    segment.bottom.isFinite

end RawSegment

/-- `LINE_BASELINE_TOLERANCE` of the height of the taller segment. -/
def tolerance (prev curr : RawSegment) : ℚ := max prev.exactHeight curr.exactHeight * (6 / 10)

def sameLineExactly (prev curr : RawSegment) : Bool :=
  !decide (|curr.baseline - prev.baseline| > tolerance prev curr)

/-- `group_into_lines`. -/
def groupExactly (page : List RawSegment) : List (List RawSegment) :=
  groupBy sameLineExactly page

theorem sameLineExactly_eq_true {prev curr : RawSegment} :
    sameLineExactly prev curr = true ↔ |curr.baseline - prev.baseline| ≤ tolerance prev curr := by
  simp [sameLineExactly]

/-- Segments of a line that are adjacent are within tolerance of each other, as adjacent
segments of different lines are not; those between two segments of a line bound how far the
two are apart. -/
theorem baselines_drift (page : List RawSegment) :
    (∀ group ∈ groupExactly page, ∀ first last between,
      first :: (between ++ [last]) <:+: group →
        |last.baseline - first.baseline| ≤ allowance tolerance (first :: (between ++ [last]))) ∧
      (groupExactly page).flatten = page ∧ (∀ group ∈ groupExactly page, group ≠ []) ∧
      (groupExactly page).IsChain fun group next =>
        ∃ prev ∈ group.getLast?, ∃ curr ∈ next.head?,
          tolerance prev curr < |curr.baseline - prev.baseline| := by
  have cut := cutBetween_groupBy sameLineExactly page
  refine ⟨fun group member first last between inside => ?_, cut.flatten, cut.nonempty, ?_⟩
  · apply abs_sub_le_allowance
    obtain ⟨front, back, rfl⟩ := inside
    have level := (cut.level _ member).left_of_append.right_of_append
    exact level.imp fun _ _ same => sameLineExactly_eq_true.mp same
  · apply cut.parted.imp
    intro group next parted
    have ⟨prev, isLast, curr, isFirst, apart⟩ := parted
    refine ⟨prev, isLast, curr, isFirst, lt_of_not_ge fun near => ?_⟩
    rw [sameLineExactly_eq_true.mpr near] at apart
    contradiction

/-- Three segments of nine points' height, each five points above the one before it. -/
def staircase : List RawSegment :=
  [segment "fox " 110 700 "Body", segment "the " 70 705 "Body", segment "quick " 90 710 "Body"]

/-- The segments are one line, whose ends are not within tolerance of each other. -/
theorem staircase_is_one_line :
    groupExactly staircase = [staircase] ∧ groupIntoLines staircase = [staircase] ∧
      assembleText staircase = "the quick fox".toList ∧
      ¬ ∀ page : List RawSegment, (∀ segment ∈ page, segment.isFinite = true) →
        ∀ group ∈ groupExactly page, ∀ first ∈ group, ∀ second ∈ group,
          |second.baseline - first.baseline| ≤ tolerance first second := by
  have line : groupExactly staircase = [staircase] := by decide +kernel
  refine ⟨line, by decide +kernel, by decide +kernel, fun level => ?_⟩
  have near := level staircase (by decide +kernel) staircase (line ▸ List.mem_singleton_self _)
    (segment "fox " 110 700 "Body") (by decide) (segment "quick " 90 710 "Body") (by decide)
  revert near
  decide +kernel

end Document

end Zyndeck
