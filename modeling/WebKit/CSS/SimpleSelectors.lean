import WebKit.CSS.SelectorChecker

/-!
# Simple selectors

`SelectorChecker::checkOneSelector` and the checks of one simple selector in the fast path, and the
loop of the fast path over the ancestors.

* `SelectorChecker.checkOneSelector`: the check of the recursion.
* `isFastCheckableSelector`: the selectors that the fast path takes.
* `fastCheckSelector`: its loop, for so many of its iterations.
-/

namespace WebKit.CSS

open WTF

variable {Element Pseudo : Type*}

/-! ## Names -/

def tagMatches (data : ElementData) (selector : CSSSelector Pseudo) : Bool :=
  if selector.tag = anyQName then true
  else if selector.tag.localName ≠ starAtom ∧ selector.tag.localName ≠ data.localName then false
  else selector.tag.namespaceURI = some starAtom || selector.tag.namespaceURI = data.namespaceURI

def attributeNameMatches (attr : Attribute) (selectorAttributeName : QualifiedName) : Bool :=
  if selectorAttributeName.localName ≠ attr.name.localName then false
  else selectorAttributeName.namePrefix = some starAtom ||
    selectorAttributeName.namespaceURI = attr.name.namespaceURI

/-- The set of `createHtmlCaseInsensitiveAttributesSet`. -/
def htmlCaseInsensitiveAttributes : List UString :=
  ["accept-charset", "accept", "align", "alink", "axis", "bgcolor", "charset", "checked", "clear",
    "codetype", "color", "compact", "declare", "defer", "dir", "disabled", "enctype", "face",
    "frame", "hreflang", "http-equiv", "lang", "language", "link", "media", "method", "multiple",
    "nohref", "noresize", "noshade", "nowrap", "readonly", "rel", "rev", "rules", "scope",
    "scrolling", "selected", "shape", "target", "text", "type", "valign", "valuetype",
    "vlink"].map fun name => name.toList.map ch

def htmlAttributeHasCaseInsensitiveValue (attr : QualifiedName) : Bool :=
  attr.namePrefix.isNone && attr.namespaceURI.isNone &&
    decide (attr.localName ∈ htmlCaseInsensitiveAttributes)

/-! ## Values of attributes -/

section Values

variable (foldCase : UChar → UChar)

/-- A text as a comparison takes it. -/
def folded (caseSensitive : Bool) (text : UString) : UString :=
  if caseSensitive then text else text.map foldCase

/-- The loop of `CSSSelector::List`: the places where the value is found, with the character before
each of them. -/
def listMatches (selectorValue : UString) : Option UChar → UString → Bool
  | before, [] => selectorValue.isEmpty && (before.isNone || before == some (ch ' '))
  | before, c :: rest =>
    (selectorValue.isPrefixOf (c :: rest) && (before.isNone || before == some (ch ' ')) &&
      (((c :: rest).drop selectorValue.length).isEmpty ||
        ((c :: rest).drop selectorValue.length).head? == some (ch ' '))) ||
      listMatches selectorValue (some c) rest

/-- `CSSSelector::Hyphen`: the value, or it and a hyphen after it. -/
def hyphenMatches (selectorValue value : UString) : Bool :=
  selectorValue.isPrefixOf value && ((value.drop selectorValue.length).isEmpty ||
      (value.drop selectorValue.length).head? == some (ch '-'))

def attributeValueMatches (m_match : Match Pseudo) (caseSensitive : Bool) (value : AtomicString) :
    Bool :=
  match value with
  | none => false
  | some value =>
    let value := folded foldCase caseSensitive value
    match m_match with
    | .matchExact _ selectorValue => folded foldCase caseSensitive selectorValue == value
    | .matchList _ selectorValue =>
      !selectorValue.contains (ch ' ') && !selectorValue.isEmpty &&
        listMatches (folded foldCase caseSensitive selectorValue) none value
    | .matchContain _ selectorValue =>
      value.tails.any (folded foldCase caseSensitive selectorValue).isPrefixOf && !selectorValue.isEmpty
    | .matchBegin _ selectorValue =>
      (folded foldCase caseSensitive selectorValue).isPrefixOf value && !selectorValue.isEmpty
    | .matchEnd _ selectorValue =>
      (folded foldCase caseSensitive selectorValue).isSuffixOf value && !selectorValue.isEmpty
    | .matchHyphen _ selectorValue => hyphenMatches (folded foldCase caseSensitive selectorValue) value
    | _ => true

def anyAttributeMatches (attributes : List Attribute) (m_match : Match Pseudo)
    (selectorAttr : QualifiedName) (caseSensitive : Bool) : Bool :=
  attributes.any fun attributeItem => attributeNameMatches attributeItem selectorAttr &&
    attributeValueMatches foldCase m_match caseSensitive attributeItem.value

end Values

/-! ## One selector -/

/-- The checker, with what it asks of the pseudo classes and the pseudo elements.  Characters are
folded where a comparison ignores their case. -/
structure SelectorChecker (Element Pseudo : Type*) extends CheckerState where
  foldCase : UChar → UChar
  checkPseudo : CSSSelector Pseudo → CheckingContext Element → PseudoId → Bool × PseudoId

/-- The part for attribute selectors. -/
def SelectorChecker.checkAttribute (checker : SelectorChecker Element Pseudo) (data : ElementData)
    (m_match : Match Pseudo) (attr : QualifiedName) : Bool :=
  !data.attributes.isEmpty && anyAttributeMatches checker.foldCase data.attributes m_match attr
    (!checker.documentIsHTML || !htmlAttributeHasCaseInsensitiveValue attr)

def SelectorChecker.checkOneSelector (checker : SelectorChecker Element Pseudo) (t : Forest Element)
    (selector : CSSSelector Pseudo) (context : CheckingContext Element) (dynamicPseudo : PseudoId) :
    Bool × PseudoId :=
  let data := t.data context.element
  if !tagMatches data selector then (false, dynamicPseudo)
  else match selector.m_match with
    | .matchNone => (true, dynamicPseudo)
    | .matchClass value => (data.classNames.contains value, dynamicPseudo)
    | .matchId value => (data.idForStyleResolution == some value, dynamicPseudo)
    | .matchExact attr _ | .matchSet attr | .matchList attr _ | .matchHyphen attr _
    | .matchContain attr _ | .matchBegin attr _ | .matchEnd attr _ =>
      (checker.checkAttribute data selector.m_match attr, dynamicPseudo)
    | .matchPseudoClass _ | .matchPseudoElement _ | .matchPagePseudoClass _ =>
      checker.checkPseudo selector context dynamicPseudo

/-! ## The fast path -/

/-- With the value of a selector, or with none. -/
def checkExactAttribute (data : ElementData) (selectorAttributeName : QualifiedName)
    (value : AtomicString) : Bool :=
  data.attributes.any fun attr => attributeNameMatches attr selectorAttributeName &&
    (value.isNone || attr.value == value)

def isFastCheckableRelation (relation : Relation) : Bool :=
  relation == .descendant || relation == .child || relation == .subSelector

def isFastCheckableMatch (selector : CSSSelector Pseudo) : Bool :=
  match selector.m_match with
  | .matchSet _ => true
  | .matchExact attr _ => !htmlAttributeHasCaseInsensitiveValue attr
  | .matchNone | .matchId _ | .matchClass _ => true
  | _ => false

variable (isCommon : Pseudo → Bool) (selector : CSSSelector Pseudo)

def isCommonPseudoClassSelector : Bool :=
  match selector.m_match with
  | .matchPseudoClass pseudo => isCommon pseudo
  | _ => false

def isFastCheckableRightmostSelector : Bool :=
  isFastCheckableRelation selector.relation &&
    (isFastCheckableMatch selector || isCommonPseudoClassSelector isCommon selector)

def isFastCheckableSelector (history : List (CSSSelector Pseudo)) : Bool :=
  isFastCheckableRightmostSelector isCommon selector &&
    history.all fun s => isFastCheckableRelation s.relation && isFastCheckableMatch s

/-- The selectors that the switches of the fast path know. -/
def hasFastCheck (selector : CSSSelector Pseudo) : Bool :=
  match selector.m_match with
  | .matchNone | .matchClass _ | .matchId _ | .matchExact _ _ | .matchSet _ => true
  | _ => false

/-- `checkTagValue`, `checkClassValue`, `checkIDValue` and `checkExactAttributeValue`, by the kind
of selector. -/
def fastCheckValue (data : ElementData) (selector : CSSSelector Pseudo) : Bool :=
  match selector.m_match with
  | .matchNone => true
  | .matchClass value => data.classNames.contains value
  | .matchId value => data.idForStyleResolution == some value
  | .matchExact attr value => checkExactAttribute data attr (some value)
  | .matchSet attr => checkExactAttribute data attr none
  | _ => false

/-- `commonPseudoClassSelectorMatches` is a parameter. -/
def fastCheckRightmostSelector (commonPseudoClassMatches : Pseudo → Bool) (data : ElementData)
    (selector : CSSSelector Pseudo) : Bool :=
  tagMatches data selector &&
    match selector.m_match with
    | .matchPseudoClass pseudo => commonPseudoClassMatches pseudo
    | _ => fastCheckValue data selector

/-- The variables of the loop.  The selector is the list of it and its history. -/
structure FastState (Element Pseudo : Type*) where
  selector : List (CSSSelector Pseudo)
  element : Option Element
  topChildOrSubselector : List (CSSSelector Pseudo)
  topChildOrSubselectorMatchElement : Option Element

section

variable (t : Forest Element)

namespace Forest

/-- An element and its ancestors, if there is one. -/
def upFrom : Option Element → List Element
  | none => []
  | some e => e :: t.ancestors e

variable (s : CSSSelector Pseudo) (history : List (CSSSelector Pseudo))

/-- What the loop does when the selector was found at an element. -/
def fastAdvance (e : Element) (state : FastState Element Pseudo) : FastState Element Pseudo where
  selector := history
  element := if s.relation = .subSelector then some e else t.parentElement e
  topChildOrSubselector :=
    if s.relation = .descendant then []
    else if state.topChildOrSubselector = [] then s :: history
    else state.topChildOrSubselector
  topChildOrSubselectorMatchElement :=
    if s.relation ≠ .descendant ∧ state.topChildOrSubselector = [] then some e
    else state.topChildOrSubselectorMatchElement

/-- Back to the first selector of the run, from the parent of the element that it matched on. -/
def fastRewind (state : FastState Element Pseudo) : Option (FastState Element Pseudo) :=
  state.topChildOrSubselectorMatchElement.map fun m =>
    { state with
      selector := state.topChildOrSubselector
      element := t.parentElement m
      topChildOrSubselector := [] }

/-- `fastCheckSingleSelector`: the loop over an element and its ancestors; `none` where it returns
false. -/
def fastCheckSingleSelector (check : Element → Bool) (s : CSSSelector Pseudo)
    (history : List (CSSSelector Pseudo)) (state : FastState Element Pseudo) :
    List Element → Option (FastState Element Pseudo)
  | [] => none
  | e :: ancestors =>
    if check e then some (t.fastAdvance s history e state)
    else if state.topChildOrSubselector ≠ [] then t.fastRewind state
    else fastCheckSingleSelector check s history state ancestors

/-- An iteration.  Where the switch does not know the selector, nothing is done. -/
def fastStep (state : FastState Element Pseudo) : Option (FastState Element Pseudo) :=
  if hasFastCheck s then
    t.fastCheckSingleSelector (fun e => fastCheckValue (t.data e) s && tagMatches (t.data e) s) s
      history state (t.upFrom state.element)
  else some state

/-- `none` where the iterations do not suffice. -/
def fastLoop : ℕ → FastState Element Pseudo → Option Bool
  | 0, _ => none
  | fuel + 1, state =>
    match state.selector with
    | [] => some true
    | s :: history =>
      match t.fastStep s history state with
      | none => some false
      | some state => fastLoop fuel state

def fastCheckSelector (fuel : ℕ) (selector : CSSSelector Pseudo)
    (history : List (CSSSelector Pseudo)) (e : Element) : Option Bool :=
  t.fastLoop fuel {
    selector := history
    element := if selector.relation = .subSelector then some e else t.parentElement e
    topChildOrSubselector :=
      if selector.relation = .child ∨ selector.relation = .subSelector then selector :: history
      else []
    topChildOrSubselectorMatchElement := none }

/-- `fastCheckRightmostSelector` and then `fastCheckSelector`. -/
def fastCheck (commonPseudoClassMatches : Pseudo → Bool) (fuel : ℕ)
    (selector : CSSSelector Pseudo) (history : List (CSSSelector Pseudo)) (e : Element) :
    Option Bool :=
  if fastCheckRightmostSelector commonPseudoClassMatches (t.data e) selector then
    t.fastCheckSelector fuel selector history e
  else some false

end Forest

end

end WebKit.CSS
