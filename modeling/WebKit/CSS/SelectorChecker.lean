import WebKit.WTF.ASCIICType
import WebKit.WTF.UTF8

/-!
# The selector checker

`SelectorChecker::checkSelector` of `css/SelectorChecker.cpp`: the recursion over the compounds of a
selector with its combinators, and the check of one simple selector.  What the checks note down in
the styles of elements is left out, and the pseudo classes and pseudo elements are a parameter.

* `Forest`: the elements with their parents and siblings.
* `checkSelector`: the recursion, for any check of the simple selectors.
* `SelectorChecker.checkOneSelector`: the check of one of them.
-/

namespace WebKit.CSS

open WTF

/-! ## Selectors -/

/-- `nullAtom` is `none`. -/
abbrev AtomicString := Option UString

def starAtom : UString := [ch '*']

structure QualifiedName where
  namePrefix : AtomicString
  localName : UString
  namespaceURI : AtomicString
  deriving DecidableEq

def anyQName : QualifiedName := ⟨none, starAtom, some starAtom⟩

/-- `m_relation`: how a simple selector and the next one of its history are joined. -/
inductive Relation where
  | descendant
  | child
  | directAdjacent
  | indirectAdjacent
  | subSelector
  | shadowDescendant
  deriving DecidableEq

/-- `m_match` with the value, the attribute or the pseudo class that belongs to it. -/
inductive Match (Pseudo : Type*) where
  | matchNone
  | matchId (value : UString)
  | matchClass (value : UString)
  | matchExact (name : QualifiedName) (value : UString)
  | matchSet (name : QualifiedName)
  | matchList (name : QualifiedName) (value : UString)
  | matchHyphen (name : QualifiedName) (value : UString)
  | matchPseudoClass (pseudo : Pseudo)
  | matchPseudoElement (pseudo : Pseudo)
  | matchContain (name : QualifiedName) (value : UString)
  | matchBegin (name : QualifiedName) (value : UString)
  | matchEnd (name : QualifiedName) (value : UString)
  | matchPagePseudoClass (pseudo : Pseudo)

/-- A simple selector.  A selector is one with the list of its history, the rightmost one first. -/
structure CSSSelector (Pseudo : Type*) where
  tag : QualifiedName
  m_match : Match Pseudo
  relation : Relation

/-! ## Elements -/

/-- The value is null where a script set the value of the attribute's node to null. -/
structure Attribute where
  name : QualifiedName
  value : AtomicString

/-- `idForStyleResolution` is null where `hasID` is false, and where `hasClass` is false there are no
class names. -/
structure ElementData where
  localName : UString
  namespaceURI : AtomicString
  idForStyleResolution : AtomicString
  classNames : List UString
  attributes : List Attribute

/-- The elements with what the checker asks of the tree around them.  The root of a tree that `use`
clones has no parent and no siblings. -/
structure Forest (Element : Type*) where
  data : Element → ElementData
  parentElement : Element → Option Element
  parentOrHostElement : Element → Option Element
  previousElementSibling : Element → Option Element
  /-- `shadowAncestorNode`, where it is another element. -/
  shadowHost : Element → Option Element
  treeScope : Element → ℕ
  isLink : Element → Bool
  isSVGShadowRoot : Element → Bool
  depth : Element → ℕ
  index : Element → ℕ
  depth_lt : ∀ {e p}, parentOrHostElement e = some p → depth p < depth e
  index_lt : ∀ {e s}, previousElementSibling e = some s → index s < index e
  parentOrHostElement_of_parentElement : ∀ {e p}, parentElement e = some p →
    parentOrHostElement e = some p
  parentElement_of_sibling : ∀ {e s}, previousElementSibling e = some s →
    parentElement s = parentElement e
  parentOrHostElement_of_sibling : ∀ {e s}, previousElementSibling e = some s →
    parentOrHostElement s = parentOrHostElement e
  shadowHost_above : ∀ {e h}, shadowHost e = some h →
    Relation.TransGen (fun a b => parentOrHostElement a = some b) e h
  svgShadowRoot_alone : ∀ {e}, isSVGShadowRoot e = true → parentElement e = none ∧
    previousElementSibling e = none ∧ ∀ x, previousElementSibling x ≠ some e

section

variable {Element : Type*} (t : Forest Element)

namespace Forest

/-- The elements of the loop over `parentElement`. -/
def ancestors (e : Element) : List Element :=
  match h : t.parentElement e with
  | none => []
  | some p => p :: ancestors p
termination_by t.depth e
decreasing_by exact t.depth_lt (t.parentOrHostElement_of_parentElement h)

/-- The elements of the loop over `previousElementSibling`. -/
def previousSiblings (e : Element) : List Element :=
  match h : t.previousElementSibling e with
  | none => []
  | some s => s :: previousSiblings s
termination_by t.index e
decreasing_by exact t.index_lt h

end Forest

/-! ## The recursion -/

inductive PseudoId where
  | noPseudo
  | firstLine
  | firstLetter
  | before
  | after
  | selection
  | firstLineInherited
  | scrollbar
  | scrollbarThumb
  | scrollbarButton
  | scrollbarTrack
  | scrollbarTrackPiece
  | scrollbarCorner
  | resizer
  | inputListButton
  | fullScreen
  | fullScreenDocument
  | fullScreenAncestor
  | animatingFullScreenTransition
  deriving DecidableEq

inductive SelectorMatch where
  | selectorMatches
  | selectorFailsLocally
  | selectorFailsAllSiblings
  | selectorFailsCompletely
  deriving DecidableEq

inductive VisitedMatchType where
  | visitedMatchDisabled
  | visitedMatchEnabled
  deriving DecidableEq

/-- `SelectorCheckingContext` without the selector. -/
structure CheckingContext (Element : Type*) where
  element : Element
  scope : Option Element
  visitedMatchType : VisitedMatchType
  hasElementStyle : Bool
  isSubSelector : Bool

/-- The initial context of an element. -/
def CheckingContext.initial (element : Element) (visitedMatchType : VisitedMatchType) :
    CheckingContext Element :=
  ⟨element, none, visitedMatchType, false, false⟩

/-- The members of the checker that the recursion reads. -/
structure CheckerState where
  documentIsHTML : Bool
  isCollectingRulesOnly : Bool
  pseudoStyle : PseudoId
  scrollbarForStyleResolve : Bool

/-- What a check leaves of `dynamicPseudo` stands beside its result. -/
abbrev Checked := SelectorMatch × PseudoId

variable [DecidableEq Element] {Pseudo : Type*}

namespace Forest

/-- The loop over the ancestors. -/
def checkAncestors (check : Element → PseudoId → Checked) (scope : Option Element) :
    List Element → PseudoId → Checked
  | [], dynamicPseudo => (.selectorFailsCompletely, dynamicPseudo)
  | a :: ancestors, dynamicPseudo =>
    match check a dynamicPseudo with
    | (.selectorMatches, dynamicPseudo) => (.selectorMatches, dynamicPseudo)
    | (.selectorFailsCompletely, dynamicPseudo) => (.selectorFailsCompletely, dynamicPseudo)
    | (_, dynamicPseudo) =>
      if scope = some a then (.selectorFailsCompletely, dynamicPseudo)
      else checkAncestors check scope ancestors dynamicPseudo

/-- The loop over the siblings. -/
def checkSiblings (check : Element → PseudoId → Checked) : List Element → PseudoId → Checked
  | [], dynamicPseudo => (.selectorFailsAllSiblings, dynamicPseudo)
  | s :: siblings, dynamicPseudo =>
    match check s dynamicPseudo with
    | (.selectorFailsLocally, dynamicPseudo) => checkSiblings check siblings dynamicPseudo
    | checked => checked

/-- The context for the next selector before its element is known. -/
def nextContext (relation : Relation) (context : CheckingContext Element) :
    CheckingContext Element :=
  if relation = .subSelector then { context with isSubSelector := true }
  else { context with
    visitedMatchType :=
      if !context.isSubSelector && (t.isLink context.element ||
          (relation != .descendant && relation != .child)) then .visitedMatchDisabled
      else context.visitedMatchType
    hasElementStyle := false
    isSubSelector := false }

/-- A selector is invalid if something other than some pseudo classes follows a pseudo element. -/
def followsPseudoElement (checker : CheckerState) (context : CheckingContext Element)
    (next : CSSSelector Pseudo) (dynamicPseudo : PseudoId) : Bool :=
  (context.hasElementStyle || checker.isCollectingRulesOnly) && dynamicPseudo != .noPseudo &&
    dynamicPseudo != .selection &&
    !((checker.scrollbarForStyleResolve || dynamicPseudo == .scrollbarCorner ||
        dynamicPseudo == .resizer) &&
      match next.m_match with
      | .matchPseudoClass _ => true
      | _ => false)

/-- Where the next selector is checked.  The switch of the source. -/
def checkNext (checker : CheckerState) (relation : Relation) (context : CheckingContext Element)
    (next : CSSSelector Pseudo) (check : CheckingContext Element → PseudoId → Checked)
    (dynamicPseudo : PseudoId) : Checked :=
  let nextContext := t.nextContext relation context
  match relation with
  | .descendant => checkAncestors (fun a => check { nextContext with element := a }) context.scope
      (t.ancestors context.element) dynamicPseudo
  | .child =>
    match t.parentElement context.element with
    | none => (.selectorFailsCompletely, dynamicPseudo)
    | some p => check { nextContext with element := p } dynamicPseudo
  | .directAdjacent =>
    match t.previousElementSibling context.element with
    | none => (.selectorFailsAllSiblings, dynamicPseudo)
    | some s => check { nextContext with element := s } dynamicPseudo
  | .indirectAdjacent => checkSiblings (fun s => check { nextContext with element := s })
      (t.previousSiblings context.element) dynamicPseudo
  | .subSelector =>
    if followsPseudoElement checker context next dynamicPseudo then
      (.selectorFailsCompletely, dynamicPseudo)
    else check nextContext dynamicPseudo
  | .shadowDescendant =>
    if context.scope.any fun scope => t.treeScope scope == t.treeScope context.element then
      (.selectorFailsCompletely, dynamicPseudo)
    else match t.shadowHost context.element with
      | none => (.selectorFailsCompletely, dynamicPseudo)
      | some h => check { nextContext with element := h } dynamicPseudo

/-- `checkSelector` of a selector with its history, for a check of the simple selectors. -/
def checkSelector (checker : CheckerState)
    (checkOne : CSSSelector Pseudo → CheckingContext Element → PseudoId → Bool × PseudoId) :
    CSSSelector Pseudo → List (CSSSelector Pseudo) → CheckingContext Element → PseudoId → Checked
  | selector, history, context, dynamicPseudo =>
    if t.isSVGShadowRoot context.element then (.selectorFailsCompletely, dynamicPseudo)
    else match checkOne selector context dynamicPseudo with
      | (false, dynamicPseudo) => (.selectorFailsLocally, dynamicPseudo)
      | (true, dynamicPseudo) =>
        match history with
        | [] => (.selectorMatches, dynamicPseudo)
        | next :: history =>
          -- the next selector would exceed the scope, or this one is irrelevant for the pseudo style
          if selector.relation ≠ .subSelector ∧ (context.scope = some context.element ∨
              checker.pseudoStyle ≠ .noPseudo ∧ checker.pseudoStyle ≠ dynamicPseudo) then
            (.selectorFailsCompletely, dynamicPseudo)
          else t.checkNext checker selector.relation context next
            (fun context => checkSelector checker checkOne next history context) dynamicPseudo

end Forest

end

end WebKit.CSS
