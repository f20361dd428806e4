import Mathlib.Data.List.Nodup

/-!
# The list of active formatting elements

The tree builder keeps the formatting elements that are open, and those to open again, in a list with
markers in it.  `append` makes room for an element first: it looks for the elements after the last
marker that are like it.

* `FormattingElements`: what the list reads of the elements.
* `HTMLFormattingElementList`: the functions of the source, on the list of the entries.
* `Operation`: the operations, in any order, with what their assertions ask for.
-/

namespace WebKit.HTML

/-- The elements with their tag names and attributes, which do not change.  An element is known by
its address, and has an attribute of a name once. -/
structure FormattingElements (Element QName Name Value : Type) where
  tagQName : Element → QName
  attributes : Element → List (Name × Value)
  nodup : ∀ element, ((attributes element).map Prod.fst).Nodup

namespace HTMLFormattingElementList

/-- An entry of the list.  A marker is an entry without an element. -/
inductive Entry (Element : Type)
  | marker
  | element (element : Element)
  deriving DecidableEq

/-- `kNoahsArkCapacity` -/
def noahsArkCapacity : ℕ := 3

/-- A place in the list, with a pointer to an entry as the index of the entry. -/
structure Bookmark where
  hasBeenMoved : Bool
  mark : ℕ
  deriving DecidableEq

section List

variable {Element : Type} [DecidableEq Element]

/-- The last entry with the element. -/
def reverseFind : List (Entry Element) → Element → Option ℕ
  | [], _ => none
  | entry :: entries, element =>
    match reverseFind entries element with
    | some index => some (index + 1)
    | none => if entry = .element element then some 0 else none

variable (entries : List (Entry Element))

def contains (element : Element) : Bool :=
  (reverseFind entries element).isSome

def remove (element : Element) : List (Entry Element) :=
  match reverseFind entries element with
  | none => entries
  | some index => entries.eraseIdx index

def swapTo (oldElement newElement : Element) (bookmark : Bookmark) : List (Entry Element) :=
  if bookmark.hasBeenMoved then
    remove (entries.insertIdx (bookmark.mark + 1) (.element newElement)) oldElement
  else entries.set bookmark.mark (.element newElement)

def appendMarker : List (Entry Element) := entries ++ [.marker]

/-- The loop of `clearToLastMarker`, with the last entry first. -/
def clearLoop : List (Entry Element) → List (Entry Element)
  | [] => []
  | .marker :: entries => entries
  | .element _ :: entries => clearLoop entries

def clearToLastMarker : List (Entry Element) :=
  (clearLoop entries.reverse).reverse

end List

/-! ## Making room for an element -/

section NoahsArk

variable {Element QName Name Value : Type} [DecidableEq Element] [DecidableEq QName]
  [DecidableEq Name] [DecidableEq Value] (dom : FormattingElements Element QName Name Value)

def attributeCountWithoutUpdate (element : Element) : ℕ := (dom.attributes element).length

/-- The value of an attribute, or no value: `nullAtom`. -/
def fastGetAttribute (element : Element) (name : Name) : Option Value :=
  ((dom.attributes element).find? fun attr => attr.1 = name).map Prod.snd

/-- The loop of `tryToEnsureNoahsArkConditionQuickly`, with the last entry first. -/
def quickCandidates (newElement : Element) : List (Entry Element) → List Element
  | [] => []
  | .marker :: _ => []
  | .element candidate :: entries =>
    if dom.tagQName newElement ≠ dom.tagQName candidate then quickCandidates newElement entries
    else if attributeCountWithoutUpdate dom candidate ≠
        attributeCountWithoutUpdate dom newElement then
      quickCandidates newElement entries
    else candidate :: quickCandidates newElement entries

variable (entries : List (Entry Element))

/-- The `remainingCandidates`: there are none when there is room. -/
def tryToEnsureNoahsArkConditionQuickly (newElement : Element) : List Element :=
  if entries.length < noahsArkCapacity then []
  else
    let candidates := quickCandidates dom newElement entries.reverse
    if candidates.length < noahsArkCapacity then [] else candidates

/-- The loop of `ensureNoahsArkCondition` over the attributes of the new element.  It returns when
there is room. -/
def filterCandidates : List (Name × Value) → List Element → Option (List Element)
  | [], candidates => some candidates
  | attr :: attributes, candidates =>
    let remainingCandidates := candidates.filter fun candidate =>
      fastGetAttribute dom candidate attr.1 = some attr.2
    if remainingCandidates.length < noahsArkCapacity then none
    else filterCandidates attributes remainingCandidates

def ensureNoahsArkCondition (newElement : Element) : List (Entry Element) :=
  let candidates := tryToEnsureNoahsArkConditionQuickly dom entries newElement
  if candidates = [] then entries
  else
    match filterCandidates dom (dom.attributes newElement) candidates with
    | none => entries
    | some candidates => (candidates.drop (noahsArkCapacity - 1)).foldl remove entries

def append (element : Element) : List (Entry Element) :=
  ensureNoahsArkCondition dom entries element ++ [.element element]

/-! ## Operations -/

inductive Operation (Element : Type)
  | append (element : Element)
  | appendMarker
  | remove (element : Element)
  | swapTo (oldElement newElement : Element) (bookmark : Bookmark)
  | clearToLastMarker

def step : Operation Element → List (Entry Element)
  | .append element => append dom entries element
  | .appendMarker => appendMarker entries
  | .remove element => remove entries element
  | .swapTo oldElement newElement bookmark => swapTo entries oldElement newElement bookmark
  | .clearToLastMarker => clearToLastMarker entries

/-- The elements have the same tag name and the same attributes. -/
def Alike (element element' : Element) : Prop :=
  dom.tagQName element = dom.tagQName element' ∧
    ∀ attr, attr ∈ dom.attributes element ↔ attr ∈ dom.attributes element'

instance (element element' : Element) : Decidable (Alike dom element element') :=
  decidable_of_iff (dom.tagQName element = dom.tagQName element' ∧
    (∀ attr ∈ dom.attributes element, attr ∈ dom.attributes element') ∧
    ∀ attr ∈ dom.attributes element', attr ∈ dom.attributes element)
    ⟨fun ⟨htag, h, h'⟩ => ⟨htag, fun attr => ⟨h attr, h' attr⟩⟩,
      fun ⟨htag, h⟩ => ⟨htag, fun attr => (h attr).mp, fun attr => (h attr).mpr⟩⟩

variable (entries : List (Entry Element))

/-- What the assertions of `swapTo` ask for, with an element like the old one. -/
def Operation.Asserted : Operation Element → Prop
  | .swapTo oldElement newElement bookmark => contains entries oldElement = true ∧
      contains entries newElement = false ∧ Alike dom oldElement newElement ∧
      if bookmark.hasBeenMoved then bookmark.mark < entries.length
      else entries[bookmark.mark]? = some (.element oldElement)
  | _ => True

/-- No marker stands between the entry and an entry with the element. -/
def InStretch (mark : ℕ) (element : Element) : Prop :=
  ∃ (before : List (Entry Element)) (stretch : List Element) (after : List (Entry Element)),
    entries = before ++ stretch.map .element ++ after ∧
    before.length ≤ mark ∧ mark < before.length + stretch.length ∧ element ∈ stretch

/-- What the tree builder keeps to: it appends the elements that it creates, and moves a bookmark to
entries of elements that it opened after the old one. -/
def Operation.Allowed (op : Operation Element) : Prop :=
  op.Asserted dom entries ∧
    match op with
    | .append element => contains entries element = false
    | .swapTo oldElement _ bookmark =>
      bookmark.hasBeenMoved = true → InStretch entries bookmark.mark oldElement
    | _ => True

/-- The lists that sequences of operations make. -/
inductive Reachable : List (Entry Element) → Prop
  | empty : Reachable []
  | step {entries : List (Entry Element)} (op : Operation Element) : Reachable entries →
      op.Allowed dom entries → Reachable (step dom entries op)

def run (entries : List (Entry Element)) : List (Operation Element) → List (Entry Element)
  | [] => entries
  | op :: ops => run (step dom entries op) ops

/-- Every operation of a run finds what its assertions ask for. -/
def AssertedRun (entries : List (Entry Element)) : List (Operation Element) → Prop
  | [] => True
  | op :: ops => op.Asserted dom entries ∧ AssertedRun (step dom entries op) ops

end NoahsArk

end HTMLFormattingElementList

end WebKit.HTML
