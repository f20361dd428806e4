import Mathlib
import WebKit.Platform.PODRedBlackTree

/-!
# PODIntervalTree

A red-black tree of intervals, in the order of their low endpoints, where each node knows the
greatest high endpoint of its subtree (`maxHigh`).

* `updateNode`: the hook of the red-black tree that recomputes `maxHigh`.
* `allOverlaps`: the stored intervals that overlap a query.
-/

namespace WebKit
namespace Platform

open Node (null node)

structure PODInterval (T U : Type*) where
  low : T
  high : T
  data : U
  maxHigh : T
  deriving DecidableEq

variable {T U : Type*} [LinearOrder T] [DecidableEq U]

namespace PODInterval

/-- The constructor. -/
def create (low high : T) (data : U) : PODInterval T U := ⟨low, high, data, high⟩

def overlaps (interval : PODInterval T U) (low high : T) : Bool :=
  if interval.high < low then false
  else if high < interval.low then false
  else true

/-- `operator<`. -/
def less (interval other : PODInterval T U) : Bool := decide (interval.low < other.low)

/-- `operator==`. -/
def equal (interval other : PODInterval T U) : Bool :=
  interval.low == other.low && interval.high == other.high && interval.data == other.data

end PODInterval

namespace PODIntervalTree

/-- The maximum, after a look at a child. -/
def maxWith (curMax : T) : Node (PODInterval T U) → T
  | null => curMax
  | node _ data _ _ => if curMax < data.maxHigh then data.maxHigh else curMax

/-- The new data of a node, and whether it changed. -/
def updateNode (data : PODInterval T U) (left right : Node (PODInterval T U)) :
    PODInterval T U × Bool :=
  let curMax := maxWith (maxWith data.high left) right
  if curMax = data.maxHigh then (data, false) else ({ data with maxHigh := curMax }, true)

/-- The interval as an element of the red-black tree. -/
def element (T U : Type*) [LinearOrder T] [DecidableEq U] : Element (PODInterval T U) where
  less := PODInterval.less
  equal := PODInterval.equal
  updateNode := updateNode

/-- The left subtree has to be traversed. -/
def reaches (left : Node (PODInterval T U)) (lowValue : T) : Bool :=
  match left with
  | null => false
  | node _ data _ _ => !decide (data.maxHigh < lowValue)

/-- The result vector, with the overlaps below a node appended. -/
def searchForOverlapsFrom (lowValue highValue : T) :
    Node (PODInterval T U) → List (PODInterval T U) → List (PODInterval T U)
  | null, result => result
  | node _ data left right, result =>
    let result :=
      if reaches left lowValue then searchForOverlapsFrom lowValue highValue left result
      else result
    let result := if data.overlaps lowValue highValue then result ++ [data] else result
    if highValue < data.low then result
    else searchForOverlapsFrom lowValue highValue right result

variable (root : Node (PODInterval T U)) (interval : PODInterval T U)

def allOverlaps : List (PODInterval T U) :=
  searchForOverlapsFrom interval.low interval.high root []

def add : Option (Node (PODInterval T U)) :=
  PODRedBlackTree.add (element T U) root interval

def remove : Option (Node (PODInterval T U) × Bool) :=
  PODRedBlackTree.remove (element T U) root interval

inductive Operation (T U : Type*)
  | add (interval : PODInterval T U)
  | remove (interval : PODInterval T U)

def step : Operation T U → Option (Node (PODInterval T U))
  | .add interval => add root interval
  | .remove interval => (remove root interval).map Prod.fst

/-- The tree after the operations. -/
def run (root : Node (PODInterval T U)) : List (Operation T U) → Option (Node (PODInterval T U))
  | [] => some root
  | operation :: operations =>
    match step root operation with
    | none => none
    | some root => run root operations

end PODIntervalTree

end Platform
end WebKit
