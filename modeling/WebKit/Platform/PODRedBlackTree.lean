import Mathlib.Data.List.Basic

/-!
# PODRedBlackTree

An augmented red-black tree.  A null pointer is `Node.null`, and a node that is reached from the root
is the subtree there with its `Path`: the ancestors, nearest first, each with the side it was left on
and its other child.  An operation is `none` when it would follow a null pointer.

The code treats the two sides alike ("same as the then clause with right and left exchanged"), so
the rotations and the fixups are written once, for a `Side`.

* `insertNode`: `treeInsert`, the loop that restores the colors, and `propagateUpdates`.
* `deleteNode`: unlinks a node or its successor, updates the ancestors, and `deleteFixup`.
-/

namespace WebKit
namespace Platform

inductive Color
  | Red
  | Black
  deriving DecidableEq

inductive Side
  | left
  | right
  deriving DecidableEq

def Side.other : Side → Side
  | left => right
  | right => left

/-- A node with its subtree. -/
inductive Node (α : Type*)
  | null
  | node (color : Color) (data : α) (left right : Node α)
  deriving DecidableEq

/-- An ancestor: the node whose child on the given side is the one below. -/
structure Frame (α : Type*) where
  side : Side
  color : Color
  data : α
  /-- The child on the other side. -/
  sibling : Node α
  deriving DecidableEq

/-- The ancestors of a node, `parent()` first. -/
abbrev Path (α : Type*) := List (Frame α)

/-- What the tree calls on its data, and the hook that updates the augmentation of a node from its
children; the hook returns whether it changed. -/
structure Element (α : Type*) where
  less : α → α → Bool
  equal : α → α → Bool
  updateNode : α → Node α → Node α → α × Bool

namespace Node

variable {α : Type*}

/-- A node whose children are given from one side. -/
def make (side : Side) (color : Color) (data : α) (near far : Node α) : Node α :=
  match side with
  | .left => node color data near far
  | .right => node color data far near

def child (side : Side) : Node α → Node α
  | null => null
  | node _ _ l r =>
    match side with
    | .left => l
    | .right => r

/-- The pointer is not null, and the node is red. -/
def isRed : Node α → Bool
  | null => false
  | node color _ _ _ => color == .Red

def setColor (color : Color) : Node α → Node α
  | null => null
  | node _ data l r => node color data l r

end Node

namespace Frame

variable {α : Type*}

/-- The ancestor, with a subtree below it. -/
def fill (frame : Frame α) (t : Node α) : Node α :=
  Node.make frame.side frame.color frame.data t frame.sibling

/-- The way from a node down to its child. -/
def descend (side : Side) : Node α → Option (Frame α)
  | .null => none
  | .node color data l r => some ⟨side, color, data, (Node.node color data l r).child side.other⟩

end Frame

namespace PODRedBlackTree

open Node (null node)

variable {α : Type*}

/-- The whole tree. -/
def plug (t : Node α) : Path α → Node α
  | [] => t
  | frame :: path => plug (frame.fill t) path

section Element

variable (E : Element α)

/-! ## Searching -/

/-- `treeSearchFullComparisons`: a node with equal data, and its ancestors. -/
def treeSearchFullComparisons (data : α) : Node α → Path α → Option (Node α × Path α)
  | null, _ => none
  | node color d l r, path =>
    if E.less data d then treeSearchFullComparisons data l (⟨.left, color, d, r⟩ :: path)
    else if E.less d data then treeSearchFullComparisons data r (⟨.right, color, d, l⟩ :: path)
    else if E.equal data d then some (node color d l r, path)
    else
      match treeSearchFullComparisons data l (⟨.left, color, d, r⟩ :: path) with
      | some result => some result
      | none => treeSearchFullComparisons data r (⟨.right, color, d, l⟩ :: path)

/-- The ancestors of the place of a new node. -/
def treeInsert (data : α) : Node α → Path α → Path α
  | null, path => path
  | node color d l r, path =>
    if E.less data d then treeInsert data l (⟨.left, color, d, r⟩ :: path)
    else treeInsert data r (⟨.right, color, d, l⟩ :: path)

/-- The minimum of a subtree, and its ancestors. -/
def treeMinimum : Node α → Path α → Node α × Path α
  | null, path => (null, path)
  | node color d null r, path => (node color d null r, path)
  | node color d (node c' d' l' r') r, path =>
    treeMinimum (node c' d' l' r') (⟨.left, color, d, r⟩ :: path)

/-! ## The augmentation -/

/-- `updateNode`, and whether the node changed. -/
def updateNode : Node α → Node α × Bool
  | null => (null, false)
  | node color d l r => (node color (E.updateNode d l r).1 l r, (E.updateNode d l r).2)

/-- `updateNode` of an ancestor that has the subtree below it. -/
def updateFrame (frame : Frame α) (t : Node α) : Frame α × Bool :=
  let r :=
    match frame.side with
    | .left => E.updateNode frame.data t frame.sibling
    | .right => E.updateNode frame.data frame.sibling t
  ({ frame with data := r.1 }, r.2)

/-- The ancestors, updated from the first one on until one does not change. -/
def propagateUpdates (t : Node α) : Path α → Path α
  | [] => []
  | frame :: path =>
    let r := updateFrame E frame t
    if r.2 then r.1 :: propagateUpdates (r.1.fill t) path else r.1 :: path

/-! ## Rotations -/

/-- A rotation to the given side: the other child comes up, and takes the node as its child. -/
def rotate (side : Side) : Node α → Option (Node α)
  | null => none
  | node cx dx l r =>
    let x := node cx dx l r
    match x.child side.other with
    | null => none
    | node cy dy l' r' =>
      let y := node cy dy l' r'
      let lower := (updateNode E (Node.make side cx dx (x.child side) (y.child side))).1
      some (updateNode E (Node.make side cy dy lower (y.child side.other))).1

def leftRotate (x : Node α) : Option (Node α) := rotate E .left x

def rightRotate (y : Node α) : Option (Node α) := rotate E .right y

/-! ## Insertion -/

/-- The loop of `insertNode`, for a red node `x`: the subtree from whose parent on the updates are
propagated, with its ancestors.  After Case 3 the parent of `x` is black, and the loop ends. -/
def insertFixup : Node α → Path α → Option (Node α × Path α)
  | x, [] => some (x, [])
  | x, [parent] => if parent.color = .Red then none else some (x, [parent])
  | x, parent :: grandparent :: path =>
    if parent.color = .Red then
      if grandparent.sibling.isRed then
        -- Case 1: the uncle is red
        let p := (updateNode E ({ parent with color := .Black }.fill x)).1
        let g := { grandparent with
          color := .Red
          sibling := grandparent.sibling.setColor .Black }
        insertFixup (updateNode E (g.fill p)).1 path
      else
        -- Case 2: an inner child comes up first
        let upper? :=
          if parent.side = grandparent.side then some (parent.fill x)
          else rotate E grandparent.side (parent.fill x)
        match upper? with
        | none => none
        | some upper =>
          -- Case 3
          let g := { grandparent with color := .Red }
          match rotate E grandparent.side.other (g.fill (upper.setColor .Black)) with
          | none => none
          | some newSubTreeRoot => some (newSubTreeRoot, path)
    else some (x, parent :: grandparent :: path)

variable (root : Node α) (data : α)

/-- `insertNode`, with the allocation of the node before it; a new node is red. -/
def insertNode : Option (Node α) :=
  let x := (updateNode E (node .Red data null null)).1
  match insertFixup E x (treeInsert E data root []) with
  | none => none
  | some (t, path) => some ((plug t (propagateUpdates E t path)).setColor .Black)

/-! ## Deletion -/

/-- Cases 2 to 4 of `deleteFixup`; the flag tells whether the loop goes on from the parent. -/
def fixSibling (x : Node α) (xParent : Frame α) : Option (Node α × Bool) :=
  match xParent.sibling with
  | null => none
  | node cw dw l r =>
    let w := node cw dw l r
    let near := w.child xParent.side
    let far := w.child xParent.side.other
    if !near.isRed && !far.isRed then
      -- Case 2
      some ({ xParent with sibling := w.setColor .Red }.fill x, true)
    else
      -- Case 3: the far child is black
      let w? :=
        if far.isRed then some w
        else
          rotate E xParent.side.other
            (Node.make xParent.side .Red dw (near.setColor .Black) far)
      match w? with
      | none => none
      | some null => none
      | some (node _ d l r) =>
        -- Case 4
        let w := node xParent.color d l r
        let w := Node.make xParent.side xParent.color d (w.child xParent.side)
          ((w.child xParent.side.other).setColor .Black)
        match rotate E xParent.side ({ xParent with color := .Black, sibling := w }.fill x) with
        | none => none
        | some t => some (t, false)

/-- The loop of `deleteFixup`, and the assignment after it, which colors the root after Case 4. -/
def deleteFixup : Node α → Path α → Option (Node α)
  | x, [] => some (x.setColor .Black)
  | x, xParent :: path =>
    if x.isRed then some (plug (x.setColor .Black) (xParent :: path))
    else if xParent.sibling.isRed then
      -- Case 1: the sibling is red and comes up
      let raised := { xParent with
        color := .Red
        sibling := xParent.sibling.setColor .Black }
      match rotate E xParent.side (raised.fill x) with
      | none => none
      | some top =>
        match Frame.descend xParent.side top,
          Frame.descend xParent.side (top.child xParent.side) with
        | some upper, some lower =>
          match fixSibling E x lower with
          | none => none
          -- `x` is the parent now, which is red, and the loop ends
          | some (t, true) => some (plug (t.setColor .Black) (upper :: path))
          | some (t, false) => some ((plug t (upper :: path)).setColor .Black)
        | _, _ => none
    else
      match fixSibling E x xParent with
      | none => none
      | some (t, true) => deleteFixup t path
      | some (t, false) => some ((plug t path).setColor .Black)

/-- The end of `deleteNode`, for the unlinked node's color and the child that replaces it. -/
def unlink (color : Color) (x : Node α) (path : Path α) : Option (Node α) :=
  if color = .Black then deleteFixup E x path else some (plug x path)

/-- The child that replaces a node with one child at most. -/
def onlyChild : Node α → Node α
  | null => null
  | node _ _ null r => r
  | node _ _ l _ => l

/-- `deleteNode` of the node at a place.  A node with two children takes the data of its successor,
which is unlinked instead. -/
def deleteNode (z : Node α) (path : Path α) : Option (Node α) :=
  match z with
  | null => none
  | node cz dz l r =>
    match l, r with
    | node _ _ _ _, node _ _ _ _ =>
      match treeMinimum r [] with
      | (null, _) => none
      | (node cy dy yl yr, inner) =>
        let x := onlyChild (node cy dy yl yr)
        -- the ancestors between the successor and the node are not updated yet
        let z' := (updateFrame E ⟨.right, cz, dy, l⟩ (plug x inner)).1
        let outer := propagateUpdates E (z'.fill (plug x inner)) path
        let ancestors := inner ++ z' :: outer
        unlink E cy x (if inner.isEmpty then ancestors else propagateUpdates E x ancestors)
    | _, _ =>
      let x := onlyChild (node cz dz l r)
      unlink E cz x (propagateUpdates E x path)

/-! ## Public operations -/

def add : Option (Node α) := insertNode E root data

/-- The tree, and whether the datum was found. -/
def remove : Option (Node α × Bool) :=
  match treeSearchFullComparisons E data root [] with
  | none => some (root, false)
  | some (z, path) =>
    match deleteNode E z path with
    | none => none
    | some root => some (root, true)

def contains : Bool :=
  (treeSearchFullComparisons E data root []).isSome

end Element

end PODRedBlackTree

end Platform
end WebKit
