import Mathlib.Algebra.Order.Group.Abs
import Mathlib.Algebra.Order.Monoid.Unbundled.WithTop
import WebKit.Library.SeparatedIntervals

/-!
# Time ranges

The list of time ranges of a media element: `add` with its scan, `invert`, `unionWith`,
`intersectWith`, `contain` and `nearest`.  A list of ranges is the value of `m_ranges`.

Times are exact: `add` compares them only, so that they are of any linear order.  `invert` needs the
two infinities and the float that `true` is converted to, and `nearest` distances.
-/

namespace WebKit
namespace TimeRanges

/-- `TimeRanges::Range`. -/
@[ext] structure Range (α : Type*) where
  m_start : α
  m_end : α
  deriving DecidableEq, Repr

variable {α : Type*} [LinearOrder α]

namespace Range

def isPointInRange (r : Range α) (point : α) : Bool := r.m_start ≤ point && point < r.m_end

variable (r range : Range α)

def isOverlappingRange : Bool :=
  r.isPointInRange range.m_start || r.isPointInRange range.m_end || range.isPointInRange r.m_start

def isContiguousWithRange : Bool :=
  range.m_start == r.m_end || range.m_end == r.m_start

def unionWithOverlappingOrContiguousRange : Range α :=
  ⟨min r.m_start range.m_start, max r.m_end range.m_end⟩

def isBeforeRange : Bool := r.m_end ≤ range.m_start

end Range

/-- The scan of `add`, from the index on: the ranges that are left, the index at which the added
range is to be inserted, and the added range as it is by then. -/
def addScan (m_ranges : List (Range α)) (overlappingArcIndex : ℕ) (addedRange : Range α) :
    List (Range α) × ℕ × Range α :=
  if h : overlappingArcIndex < m_ranges.length then
    let range := m_ranges[overlappingArcIndex]
    if addedRange.isOverlappingRange range || addedRange.isContiguousWithRange range then
      -- the index goes down, past zero when it is zero, and up again in the head of the loop
      addScan (m_ranges.eraseIdx overlappingArcIndex) overlappingArcIndex
        (addedRange.unionWithOverlappingOrContiguousRange range)
    else if overlappingArcIndex = 0 then
      if addedRange.isBeforeRange range then (m_ranges, overlappingArcIndex, addedRange)
      else addScan m_ranges (overlappingArcIndex + 1) addedRange
    else if m_ranges[overlappingArcIndex - 1].isBeforeRange addedRange &&
        addedRange.isBeforeRange range then
      (m_ranges, overlappingArcIndex, addedRange)
    else addScan m_ranges (overlappingArcIndex + 1) addedRange
  else (m_ranges, overlappingArcIndex, addedRange)
termination_by m_ranges.length - overlappingArcIndex
decreasing_by
  all_goals first
    | (rw [List.length_eraseIdx_of_lt h]; omega)
    | omega

variable (m_ranges : List (Range α))

/-- `TimeRanges::add`. -/
def add (addedRange : Range α) : List (Range α) :=
  let (m_ranges, overlappingArcIndex, addedRange) := addScan m_ranges 0 addedRange
  m_ranges.insertIdx overlappingArcIndex addedRange

/-- Calls of `add` one after the other. -/
def addAll (adds : List (Range α)) : List (Range α) :=
  adds.foldl add m_ranges

/-- `TimeRanges::copy`. -/
def copy : List (Range α) := addAll [] m_ranges

/-- `TimeRanges::unionWith`. -/
def unionWith (m_ranges other : List (Range α)) : List (Range α) := addAll (copy m_ranges) other

/-- `TimeRanges::contain`. -/
def contain (time : α) : Bool :=
  m_ranges.any fun r => r.m_start ≤ time && time ≤ r.m_end

section Inversion

variable [BoundedOrder α] [One α]

/-- The gaps between the ranges. -/
def gaps : List (Range α) → List (Range α)
  | r :: r' :: m_ranges => ⟨r.m_end, r'.m_start⟩ :: gaps (r' :: m_ranges)
  | _ => []

/-- `TimeRanges::invert`.  The conditions on the first and on the last range are declarations, so
that `start` and `end` are not the ends of these ranges but what `true` is as a float. -/
def invert (m_ranges : List (Range α)) : List (Range α) :=
  match m_ranges.head?, m_ranges.getLast? with
  | some first, some last =>
    let inverted := if first.m_start ≠ ⊥ then add [] ⟨⊥, 1⟩ else []
    let inverted := addAll inverted (gaps m_ranges)
    if last.m_end ≠ ⊤ then add inverted ⟨1, ⊤⟩ else inverted
  | _, _ => add [] ⟨⊥, ⊤⟩

/-- `TimeRanges::intersectWith`. -/
def intersectWith (m_ranges other : List (Range α)) : List (Range α) :=
  invert (unionWith (copy m_ranges) (copy other))

end Inversion

section Nearest

variable {β : Type*} [AddCommGroup β] [LinearOrder β]

/-- `fabsf(a - time)`, infinite when `a` is. -/
def distance (a : WithBot (WithTop β)) (time : β) : WithTop β :=
  match a with
  | WithBot.some (WithTop.some a) => ((|a - time| : β) : WithTop β)
  | _ => ⊤

/-- The loop of `nearest` over the ranges that are left, with `closest` as it is by then. -/
def nearestLoop (time : β) : List (Range (WithBot (WithTop β))) → WithTop β → WithBot (WithTop β)
  | [], closest => closest
  | range :: m_ranges, closest =>
    if range.m_start ≤ ((time : WithTop β) : WithBot (WithTop β)) ∧
        ((time : WithTop β) : WithBot (WithTop β)) ≤ range.m_end then
      ((time : WithTop β) : WithBot (WithTop β))
    else if distance range.m_start time < closest then
      nearestLoop time m_ranges (distance range.m_start time)
    else if distance range.m_end time < closest then
      nearestLoop time m_ranges (distance range.m_end time)
    else nearestLoop time m_ranges closest

/-- `TimeRanges::nearest`. -/
def nearest (m_ranges : List (Range (WithBot (WithTop β)))) (time : β) : WithBot (WithTop β) :=
  nearestLoop time m_ranges 0

end Nearest

end TimeRanges
end WebKit
