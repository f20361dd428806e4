import WebKit.CSS.SimpleSelectors
import WebKit.WTF.BloomFilter

/-!
# The filter of the ancestors

While the style of a tree is resolved, the checker keeps the parents of the current element on a
stack, and their tags, ids and classes in a filter.  A rule asks the filter for the identifiers that
its selector needs on ancestors, before the selector is checked.

* `ParentStack`: the stack and the filter.
* `collectIdentifierHashes`: what a rule asks for.
* `Step`: the operations, and changes of the tree that leave the elements on the stack as they are.
-/

namespace WebKit.CSS

open WTF

variable {Element Pseudo : Type*}

/-! ## Hashes -/

def tagNameSalt : UInt32 := 13

def idAttributeSalt : UInt32 := 17

def classAttributeSalt : UInt32 := 19

variable (hash : UString → UInt32)

def collectElementIdentifierHashes (data : ElementData) : List UInt32 :=
  hash data.localName * tagNameSalt ::
    (data.idForStyleResolution.toList.map fun id => hash id * idAttributeSalt) ++
      data.classNames.map fun className => hash className * classAttributeSalt

/-- What is written, with the entries of one selector. -/
def collectDescendantSelectorIdentifierHashes (selector : CSSSelector Pseudo) (maximum : ℕ)
    (written : List UInt32) : List UInt32 :=
  let written := match selector.m_match with
    | .matchId value => if value.isEmpty then written else written ++ [hash value * idAttributeSalt]
    | .matchClass value =>
      if value.isEmpty then written else written ++ [hash value * classAttributeSalt]
    | _ => written
  if written.length = maximum then written
  else if selector.tag.localName ≠ starAtom then
    written ++ [hash selector.tag.localName * tagNameSalt]
  else written

/-- The switch on the relation.  Only identifiers that match ancestors are collected. -/
def collectNext (maximum : ℕ) (relation : Relation) (skipOverSubselectors : Bool)
    (selector : CSSSelector Pseudo) (written : List UInt32) : Bool × List UInt32 :=
  match relation with
  | .subSelector => (skipOverSubselectors,
      if skipOverSubselectors then written
      else collectDescendantSelectorIdentifierHashes hash selector maximum written)
  | .directAdjacent | .indirectAdjacent | .shadowDescendant => (true, written)
  | .descendant | .child =>
    (false, collectDescendantSelectorIdentifierHashes hash selector maximum written)

/-- The loop of `collectIdentifierHashes`. -/
def collectLoop (maximum : ℕ) : Relation → Bool → List (CSSSelector Pseudo) → List UInt32 →
    List UInt32
  | _, _, [], written => written ++ [0]
  | relation, skipOverSubselectors, selector :: history, written =>
    let collected := collectNext hash maximum relation skipOverSubselectors selector written
    if collected.2.length = maximum then collected.2
    else collectLoop maximum selector.relation collected.1 history collected.2

/-- The entries that are written.  The topmost selector is skipped. -/
def collectIdentifierHashes (maximumIdentifierCount : ℕ) (selector : CSSSelector Pseudo)
    (history : List (CSSSelector Pseudo)) : List UInt32 :=
  collectLoop hash maximumIdentifierCount selector.relation true history []

/-! ## The stack -/

structure ParentStackFrame (Element : Type*) where
  element : Element
  identifierHashes : List UInt32

abbrev bloomFilterKeyBits : ℕ := 12

abbrev AncestorIdentifierFilter := BloomFilter bloomFilterKeyBits

/-- The members of the checker.  The frame that was pushed last is the first one. -/
structure ParentStack (Element : Type*) where
  m_parentStack : List (ParentStackFrame Element)
  m_ancestorIdentifierFilter : Option AncestorIdentifierFilter

/-- The entries are read up to a zero. -/
def fastRejectSelector (maximumIdentifierCount : ℕ) (filter : AncestorIdentifierFilter)
    (identifierHashes : List UInt32) : Bool :=
  ((identifierHashes.take maximumIdentifierCount).takeWhile (· != 0)).any fun hash =>
    !filter.mayContain hash

namespace ParentStack

def initial : ParentStack Element := ⟨[], none⟩

variable (t : Forest Element) (stack : ParentStack Element)

def pushParentStackFrame (parent : Element) : ParentStack Element :=
  let identifierHashes := collectElementIdentifierHashes hash (t.data parent)
  { m_parentStack := ⟨parent, identifierHashes⟩ :: stack.m_parentStack
    m_ancestorIdentifierFilter := stack.m_ancestorIdentifierFilter.map fun filter =>
      identifierHashes.foldl BloomFilter.add filter }

/-- The filter goes with the last frame. -/
def popParentStackFrame : ParentStack Element :=
  match stack.m_parentStack with
  | [] => stack
  | [_] => ⟨[], none⟩
  | parentFrame :: frame :: frames =>
    { m_parentStack := frame :: frames
      m_ancestorIdentifierFilter := stack.m_ancestorIdentifierFilter.map fun filter =>
        parentFrame.identifierHashes.foldl BloomFilter.remove filter }

end ParentStack

/-- An element and its parents and hosts, the closest first. -/
def Forest.parentsOrHosts (t : Forest Element) (e : Element) : List Element :=
  match h : t.parentOrHostElement e with
  | none => [e]
  | some p => e :: t.parentsOrHosts p
termination_by t.depth e
decreasing_by exact t.depth_lt h

namespace ParentStack

variable (t : Forest Element) (stack : ParentStack Element)

/-- What was stored before is lost.  The frames are pushed from the root down. -/
def setupParentStack (parent : Element) : ParentStack Element :=
  (t.parentsOrHosts parent).foldr (fun ancestor stack => stack.pushParentStackFrame hash t ancestor)
    ⟨[], some .clear⟩

/-- The stack is not maintained for an element whose parent is not on top. -/
def pushParent [DecidableEq Element] (parent : Element) : ParentStack Element :=
  if stack.m_parentStack.head?.map ParentStackFrame.element ≠ t.parentOrHostElement parent then stack
  else stack.pushParentStackFrame hash t parent

def popParent : ParentStack Element := stack.popParentStackFrame

end ParentStack

/-! ## Walks -/

/-- The tag, the id and the classes of an element, and where it is, are as they were. -/
structure SameIdentifiers (t t' : Forest Element) (e : Element) : Prop where
  localName : (t'.data e).localName = (t.data e).localName
  idForStyleResolution : (t'.data e).idForStyleResolution = (t.data e).idForStyleResolution
  classNames : (t'.data e).classNames = (t.data e).classNames
  parentOrHostElement : t'.parentOrHostElement e = t.parentOrHostElement e

/-- A step of a walk: an operation, or a change of the tree away from the stack. -/
inductive Step [DecidableEq Element] :
    Forest Element × ParentStack Element → Forest Element × ParentStack Element → Prop
  | setupParentStack (t : Forest Element) (stack : ParentStack Element) (parent : Element) :
      Step (t, stack) (t, ParentStack.setupParentStack hash t parent)
  | pushParent (t : Forest Element) (stack : ParentStack Element) (parent : Element)
      (hstack : stack.m_parentStack ≠ []) : Step (t, stack) (t, stack.pushParent hash t parent)
  | popParent (t : Forest Element) (stack : ParentStack Element)
      (hstack : stack.m_parentStack ≠ []) : Step (t, stack) (t, stack.popParent)
  | change (t t' : Forest Element) (stack : ParentStack Element)
      (hsame : ∀ frame ∈ stack.m_parentStack, SameIdentifiers t t' frame.element) :
      Step (t, stack) (t', stack)

/-- A walk starts with an empty stack. -/
def Walk [DecidableEq Element] (t : Forest Element) (stack : ParentStack Element) : Prop :=
  ∃ t₀ : Forest Element, Relation.ReflTransGen (Step hash) (t₀, .initial) (t, stack)

end WebKit.CSS
