import Mathlib
import WebKit.Platform.PODRedBlackTree

/-!
# RedBlackTree

A red-black tree that links the nodes of its owner: a node has the pointers to its children and to
its parent, and the tree has the root.  The fields of all nodes are part of the state, those of the
nodes outside of the tree too.

An operation is `none` when it follows a null pointer, or when a loop runs longer than `fuel`.

The code treats the two sides alike ("same as the then clause with right and left exchanged"), so
the rotations and the fixups are written once, for a `Side`.

* `insert`: `treeInsert` and the loop that restores the colors.
* `remove`: unlinks a node or its successor, calls `removeFixup`, and only then puts the successor
  in the place of the node.
* `findLeastGreaterThanOrEqual`.
-/

namespace WebKit
namespace WTF

open Platform (Color Side)

/-- The pointer to the root, and the fields of the nodes. -/
structure RedBlackTree (N : Type*) where
  root : Option N
  child : Side → N → Option N
  parent : N → Option N
  color : N → Color

namespace RedBlackTree

variable {N κ : Type*} [DecidableEq N]

/-! ## The fields of a node -/

def setRoot (x : Option N) (T : RedBlackTree N) : RedBlackTree N := { T with root := x }

def setChild (side : Side) (n : N) (x : Option N) (T : RedBlackTree N) : RedBlackTree N :=
  { T with child := fun s m => if s = side ∧ m = n then x else T.child s m }

def setParent (n : N) (x : Option N) (T : RedBlackTree N) : RedBlackTree N :=
  { T with parent := fun m => if m = n then x else T.parent m }

def setColor (n : N) (color : Color) (T : RedBlackTree N) : RedBlackTree N :=
  { T with color := fun m => if m = n then color else T.color m }

/-- `reset()`: a red node without children or a parent. -/
def reset (n : N) (T : RedBlackTree N) : RedBlackTree N :=
  (((T.setChild .left n none).setChild .right n none).setParent n none).setColor n .Red

/-- `if (x) x->setParent(p)`. -/
def adopt (x : Option N) (p : Option N) (T : RedBlackTree N) : RedBlackTree N :=
  match x with
  | none => T
  | some n => T.setParent n p

/-- `if (x) x->setColor(Black)`. -/
def paintBlack (x : Option N) (T : RedBlackTree N) : RedBlackTree N :=
  match x with
  | none => T
  | some n => T.setColor n .Black

/-- `!x || x->color() == Black`. -/
def isBlack (T : RedBlackTree N) (x : Option N) : Bool := x.all fun n => T.color n = .Black

/-- The parent of `x`, or the root, points to `y` instead. -/
def relink (x : N) (y : Option N) (T : RedBlackTree N) : RedBlackTree N :=
  match T.parent x with
  | none => T.setRoot y
  | some p =>
    if T.child .left p = some x then T.setChild .left p y else T.setChild .right p y

/-! ## Walks -/

/-- `treeMinimum`, and with the other side `treeMaximum`. -/
def treeMinimum (side : Side) (T : RedBlackTree N) : ℕ → N → Option N
  | 0, _ => none
  | fuel + 1, x =>
    match T.child side x with
    | none => some x
    | some l => treeMinimum side T fuel l

/-- The loop of `successor()`, which goes up while `x` is the right child of `y`; it may end with
null. -/
def climb (side : Side) (T : RedBlackTree N) : ℕ → N → Option N → Option (Option N)
  | 0, _, _ => none
  | _ + 1, _, none => some none
  | fuel + 1, x, some y =>
    if T.child side.other y = some x then climb side T fuel y (T.parent y) else some (some y)

/-- `successor()`, and with the other side `predecessor()`. -/
def successor (fuel : ℕ) (side : Side) (T : RedBlackTree N) (x : N) : Option (Option N) :=
  match T.child side.other x with
  | some r => (treeMinimum side T fuel r).map some
  | none => climb side T fuel x (T.parent x)

/-- Left-rotates the subtree rooted at `x` for the left side, and right-rotates it for the right
one. -/
def rotate (side : Side) (x : N) (T : RedBlackTree N) : Option (RedBlackTree N) :=
  match T.child side.other x with
  | none => none
  | some y =>
    -- the near subtree of `y` becomes the far one of `x`
    let T := T.setChild side.other x (T.child side y)
    let T := T.adopt (T.child side y) (some x)
    -- link the parent of `x` to `y`
    let T := T.setParent y (T.parent x)
    let T := T.relink x (some y)
    -- put `x` below `y`
    some ((T.setChild side y (some x)).setParent x (some y))

def leftRotate (x : N) (T : RedBlackTree N) : Option (RedBlackTree N) := T.rotate .left x

def rightRotate (y : N) (T : RedBlackTree N) : Option (RedBlackTree N) := T.rotate .right y

/-! ## Insertion -/

section Keys

variable [LinearOrder κ] (key : N → κ)

/-- The loop of `treeInsert`: the parent of a new node with this key. -/
def place (k : κ) (T : RedBlackTree N) : ℕ → Option N → Option N → Option (Option N)
  | 0, _, _ => none
  | _ + 1, none, y => some y
  | fuel + 1, some x, _ =>
    place k T fuel (T.child (if k < key x then .left else .right) x) (some x)

def treeInsert (fuel : ℕ) (z : N) (T : RedBlackTree N) : Option (RedBlackTree N) :=
  match T.place key (key z) fuel T.root none with
  | none => none
  | some y =>
    let T := T.setParent z y
    match y with
    | none => some (T.setRoot (some z))
    | some y => some (T.setChild (if key z < key y then .left else .right) y (some z))

end Keys

/-- A round of the loop of `insert`, where the parent `p` of `x` is the child of `g` on this side:
what `x` becomes, and the tree. -/
def insertRound (side : Side) (x p g : N) (T : RedBlackTree N) : Option (N × RedBlackTree N) :=
  let y := T.child side.other g
  if T.isBlack y then
    -- Case 2
    let rotated :=
      if T.child side.other p = some x then (T.rotate side p).map fun T => (p, T) else some (x, T)
    match rotated with
    | none => none
    | some (x, T) =>
      -- Case 3
      match T.parent x with
      | none => none
      | some p =>
        match T.parent p with
        | none => none
        | some g =>
          (((T.setColor p .Black).setColor g .Red).rotate side.other g).map fun T => (x, T)
  else
    match y with
    | none => none
    | some y =>
      -- Case 1
      some (g, ((T.setColor p .Black).setColor y .Black).setColor g .Red)

/-- The loop of `insert`. -/
def insertFixup : ℕ → N → RedBlackTree N → Option (RedBlackTree N)
  | 0, _, _ => none
  | fuel + 1, x, T =>
    if T.root = some x then some T
    else
      match T.parent x with
      | none => none
      | some p =>
        if T.color p = .Red then
          match T.parent p with
          | none => none
          | some g =>
            match T.insertRound (if T.child .left g = some p then .left else .right) x p g with
            | none => none
            | some (x, T) => insertFixup fuel x T
        else some T

def insert [LinearOrder κ] (key : N → κ) (fuel : ℕ) (x : N) (T : RedBlackTree N) :
    Option (RedBlackTree N) :=
  match (T.reset x).treeInsert key fuel x with
  | none => none
  | some T =>
    match insertFixup fuel x (T.setColor x .Red) with
    | none => none
    | some T =>
      match T.root with
      | none => none
      | some root => some (T.setColor root .Black)

/-! ## Removal -/

variable (side : Side) (w xParent : N) (T : RedBlackTree N)

/-- Case 1 of `removeFixup`: a red sibling of `x` comes up; the sibling after it. -/
def raiseSibling : Option (N × RedBlackTree N) :=
  if T.color w = .Red then
    match ((T.setColor w .Black).setColor xParent .Red).rotate side xParent with
    | none => none
    | some T =>
      match T.child side.other xParent with
      | none => none
      | some w => some (w, T)
  else some (w, T)

/-- Case 3: the near child of the sibling comes up, unless the far one is red. -/
def raiseNephew : Option (N × RedBlackTree N) :=
  if T.isBlack (T.child side.other w) then
    match T.child side w with
    | none => none
    | some n =>
      match ((T.setColor n .Black).setColor w .Red).rotate side.other w with
      | none => none
      | some T =>
        match T.child side.other xParent with
        | none => none
        | some w => some (w, T)
  else some (w, T)

/-- Case 4: the sibling comes up in the place of its parent, and the loop goes on from the root. -/
def raiseParent : Option (Option N × Option N × RedBlackTree N) :=
  let T := (T.setColor w (T.color xParent)).setColor xParent .Black
  let T := T.paintBlack (T.child side.other w)
  match T.rotate side xParent with
  | none => none
  | some T =>
    match T.root with
    | none => none
    | some x => some (some x, T.parent x, T)

/-- Cases 2 to 4, where the sibling is black. -/
def removeCases : Option (Option N × Option N × RedBlackTree N) :=
  if T.isBlack (T.child side w) && T.isBlack (T.child side.other w) then
    -- Case 2
    let T := T.setColor w .Red
    some (some xParent, T.parent xParent, T)
  else
    match T.raiseNephew side w xParent with
    | none => none
    | some (w, T) => T.raiseParent side w xParent

/-- A round of the loop of `removeFixup`, where `x` is the child of its parent on this side: what
`x` and `xParent` become, and the tree.  The sibling must not be null. -/
def removeRound (side : Side) (xParent : N) (T : RedBlackTree N) :
    Option (Option N × Option N × RedBlackTree N) :=
  match T.child side.other xParent with
  | none => none
  | some w =>
    match T.raiseSibling side w xParent with
    | none => none
    | some (w, T) => T.removeCases side w xParent

def removeFixup : ℕ → Option N → Option N → RedBlackTree N → Option (RedBlackTree N)
  | 0, _, _, _ => none
  | fuel + 1, x, xParent, T =>
    if x ≠ T.root ∧ T.isBlack x = true then
      match xParent with
      | none => none
      | some p =>
        match T.removeRound (if x = T.child .left p then .left else .right) p with
        | none => none
        | some (x, xParent, T) => removeFixup fuel x xParent T
    else some (T.paintBlack x)

/-- The child that might replace a node with at most one. -/
def onlyChild (T : RedBlackTree N) (y : N) : Option N :=
  match T.child .left y with
  | some l => some l
  | none => T.child .right y

/-- The successor `y`, which is not in the tree any more, takes the place of `z`. -/
def replace (z y : N) (T : RedBlackTree N) : RedBlackTree N :=
  let T := (T.setParent y (T.parent z)).setColor y (T.color z)
  let T := (T.setChild .left y (T.child .left z)).setChild .right y (T.child .right z)
  let T := (T.adopt (T.child .left z) (some y)).adopt (T.child .right z) (some y)
  T.relink z (some y)

/-- The node that is unlinked when `z` is removed. -/
def unlinked (fuel : ℕ) (z : N) (T : RedBlackTree N) : Option N :=
  if T.child .left z = none ∨ T.child .right z = none then some z
  else (T.successor fuel .left z).join

def remove (fuel : ℕ) (z : N) (T : RedBlackTree N) : Option (RedBlackTree N) :=
  match T.unlinked fuel z with
  | none => none
  | some y =>
    let x := T.onlyChild y
    let xParent := T.parent y
    let unlinkedColor := T.color y
    let T := (T.adopt x xParent).relink y x
    let fixed := if unlinkedColor = .Black then removeFixup fuel x xParent T else some T
    if y = z then fixed else fixed.map (replace z y)

/-! ## Searching -/

/-- The loop of `findLeastGreaterThanOrEqual`, from a node on. -/
def findLeast [LinearOrder κ] (key : N → κ) (k : κ) (T : RedBlackTree N) :
    ℕ → Option N → Option N → Option (Option N)
  | 0, _, _ => none
  | _ + 1, none, best => some best
  | fuel + 1, some current, best =>
    if key current = k then some (some current)
    else if key current < k then findLeast key k T fuel (T.child .right current) best
    else findLeast key k T fuel (T.child .left current) (some current)

/-- A node, or null. -/
def findLeastGreaterThanOrEqual [LinearOrder κ] (key : N → κ) (fuel : ℕ) (k : κ)
    (T : RedBlackTree N) : Option (Option N) := findLeast key k T fuel T.root none

end RedBlackTree

end WTF
end WebKit
