import Mathlib.Data.List.Range
import WebKit.JavaScriptCore.PropertyDescriptor

/-!
# Structure

A `Structure` says where an object keeps its properties: its property table gives every name an
offset in the object's storage.  Adding a property makes a transition to another `Structure`, which
takes over the table.  What remains behind is the name, the offset and the attributes that each
transition added, and from these `materializePropertyMap` builds the table again when somebody asks
for it.  A `Structure` whose table says more than its transitions, a dictionary for instance, is
pinned: it keeps its table and forgets where it came from.

Structures point to each other, so they live in a list of cells and a pointer is an index.  The
functions that only write one `Structure` take and return that cell; those that allocate take and
return the list.
-/

namespace WebKit
namespace JavaScriptCore

open Attributes

/-! ## PropertyTable -/

structure PropertyMapEntry (Name Cell : Type*) where
  key : Name
  offset : ℕ
  attributes : Attributes
  specificValue : Option Cell
  deriving DecidableEq

/-- The values of the table in iteration order.  The index that leads from a hash to a value, and
the places of removed values that iteration skips, are not part of it.  The last element of
`m_deletedOffsets` is the head of the list. -/
structure PropertyTable (Name Cell : Type*) where
  entries : List (PropertyMapEntry Name Cell) := []
  deletedOffsets : List ℕ := []
  deriving DecidableEq

namespace PropertyTable

variable {Name Cell : Type*} [DecidableEq Name] (t : PropertyTable Name Cell)

def find (key : Name) : Option (PropertyMapEntry Name Cell) :=
  t.entries.find? fun e => e.key = key

/-- An entry whose key is in the table already is not added. -/
def add (entry : PropertyMapEntry Name Cell) : PropertyTable Name Cell :=
  match t.find entry.key with
  | some _ => t
  | none => { t with entries := t.entries ++ [entry] }

def remove (key : Name) : PropertyTable Name Cell :=
  { t with entries := t.entries.eraseP fun e => e.key = key }

/-- Write through the pointer that `find` returns. -/
def modify (key : Name) (f : PropertyMapEntry Name Cell → PropertyMapEntry Name Cell) :
    PropertyTable Name Cell :=
  { t with entries := t.entries.map fun e => if e.key = key then f e else e }

/-- A loop from `begin` to `end` that writes every entry. -/
def modifyAll (f : PropertyMapEntry Name Cell → PropertyMapEntry Name Cell) :
    PropertyTable Name Cell :=
  { t with entries := t.entries.map f }

def size : ℕ := t.entries.length

def propertyStorageSize : ℕ := t.size + t.deletedOffsets.length

def clearDeletedOffsets : PropertyTable Name Cell := { t with deletedOffsets := [] }

/-- The next offset: `getDeletedOffset` when there is one to get, the size otherwise. -/
def takeOffset : ℕ × PropertyTable Name Cell :=
  match t.deletedOffsets with
  | offset :: rest => (offset, { t with deletedOffsets := rest })
  | [] => (t.size, t)

def addDeletedOffset (offset : ℕ) : PropertyTable Name Cell :=
  { t with deletedOffsets := offset :: t.deletedOffsets }

end PropertyTable

/-! ## The cells -/

/-- A `Structure*`. -/
abbrev StructureID := ℕ

inductive DictionaryKind where
  | noneDictionaryKind
  | cachedDictionaryKind
  | uncachedDictionaryKind
  deriving DecidableEq

open DictionaryKind

/-- The transitions out of a `Structure`: one slot for the first, and a map from name and attributes
once there are two.  Both hold the transitions weakly. -/
inductive StructureTransitionTable (Name : Type*) where
  | singleSlot (transition : Option StructureID)
  | map (m : List ((Name × Attributes) × StructureID))
  deriving DecidableEq

/-- The fields that the property tables depend on.  `m_offset` is `none` when it is `noOffset`. -/
structure Structure (Name Cell : Type*) where
  propertyStorageCapacity : ℕ
  previous : Option StructureID := none
  nameInPrevious : Option Name := none
  specificValueInPrevious : Option Cell := none
  transitionTable : StructureTransitionTable Name := .singleSlot none
  propertyTable : Option (PropertyTable Name Cell) := none
  offset : Option ℕ := none
  dictionaryKind : DictionaryKind := noneDictionaryKind
  isPinnedPropertyTable : Bool := false
  hasNonEnumerableProperties : Bool := false
  attributesInPrevious : BitVec 7 := 0#7
  specificFunctionThrashCount : ℕ := 0
  preventExtensions : Bool := false
  deriving DecidableEq

/-- The structures of the heap. -/
abbrev Structures (Name Cell : Type*) := List (Structure Name Cell)

def maxTransitionLength : ℕ := 64

def maxSpecificFunctionThrashCount : ℕ := 3

/-- `JSObject::baseExternalStorageCapacity`. -/
def baseExternalStorageCapacity : ℕ := 16

/-- `m_offset` as an unsigned number. -/
def toUnsignedOffset : Option ℕ → ℕ
  | some offset => offset
  | none => 0xFFFFFFFF

namespace Structure

variable {Name Cell : Type*} [DecidableEq Name]

section Cells

variable (s : Structure Name Cell)

/-- The constructor from a previous `Structure`. -/
def createFrom : Structure Name Cell where
  propertyStorageCapacity := s.propertyStorageCapacity
  dictionaryKind := s.dictionaryKind
  hasNonEnumerableProperties := s.hasNonEnumerableProperties
  specificFunctionThrashCount := s.specificFunctionThrashCount
  preventExtensions := s.preventExtensions

def isDictionary : Bool := s.dictionaryKind ≠ noneDictionaryKind

def isUncacheableDictionary : Bool := s.dictionaryKind = uncachedDictionaryKind

def propertyStorageSize : ℕ :=
  match s.propertyTable with
  | some t => t.propertyStorageSize
  | none => match s.offset with
    | some offset => offset + 1
    | none => 0

def transitionCount : ℕ :=
  match s.offset with
  | some offset => offset + 1
  | none => 0

/-- A capacity below the first external one is that of inline storage. -/
def growPropertyStorageCapacity : Structure Name Cell :=
  if s.propertyStorageCapacity < baseExternalStorageCapacity then
    { s with propertyStorageCapacity := baseExternalStorageCapacity }
  else { s with propertyStorageCapacity := s.propertyStorageCapacity * 2 }

def growIfExceeded : Structure Name Cell :=
  if s.propertyStorageSize > s.propertyStorageCapacity then s.growPropertyStorageCapacity else s

def pin : Structure Name Cell :=
  { s with isPinnedPropertyTable := true, previous := none, nameInPrevious := none }

def copyPropertyTableForPinning : PropertyTable Name Cell := s.propertyTable.getD {}

def noteAttributes (attributes : Attributes) : Structure Name Cell :=
  if attributes.has dontEnum then { s with hasNonEnumerableProperties := true } else s

def putSpecificValue (name : Name) (attributes : Attributes) (specificValue : Option Cell) :
    Structure Name Cell × ℕ :=
  let t := s.propertyTable.getD {}
  let newOffset := t.takeOffset.1
  let t := t.takeOffset.2.add
    { key := name, offset := newOffset, attributes, specificValue }
  ({ s.noteAttributes attributes with propertyTable := some t }, newOffset)

/-- `none` is `notFound`. -/
def remove (name : Name) : Structure Name Cell × Option ℕ :=
  match s.propertyTable with
  | none => (s, none)
  | some t => match t.find name with
    | none => (s, none)
    | some position =>
      ({ s with propertyTable := some ((t.remove name).addDeletedOffset position.offset) },
        some position.offset)

/-- Write the entries of the table, if there is one. -/
def modifyTable (f : PropertyTable Name Cell → PropertyTable Name Cell) : Structure Name Cell :=
  { s with propertyTable := s.propertyTable.map f }

def flattenDictionaryStructure : Structure Name Cell :=
  let s := if s.isUncacheableDictionary then
      s.modifyTable fun t => PropertyTable.clearDeletedOffsets
        { t with entries := t.entries.mapIdx fun i e => { e with offset := i } }
    else s
  { s with dictionaryKind := noneDictionaryKind }

end Cells

/-! ## Rebuilding the property map -/

section Materialize

variable (h : Structures Name Cell)

/-- The structures above `previous`, nearest first, up to a pinned one, and the table of that one.
A walk makes no more steps than there are structures. -/
def previousStructures : ℕ → Option StructureID →
    List (Structure Name Cell) × Option (PropertyTable Name Cell)
  | 0, _ => ([], none)
  | fuel + 1, previous => match previous.bind (h[·]?) with
    | none => ([], none)
    | some s =>
      if s.isPinnedPropertyTable then ([], s.propertyTable)
      else
        let rest := previousStructures fuel s.previous
        (s :: rest.1, rest.2)

/-- The entry that a transition added, as the transition remembers it. -/
def addPreviousEntry (t : PropertyTable Name Cell) (s : Structure Name Cell) :
    PropertyTable Name Cell :=
  match s.nameInPrevious with
  | none => t
  | some name => t.add
      { key := name
        offset := toUnsignedOffset s.offset
        attributes := s.attributesInPrevious.setWidth 32
        specificValue := s.specificValueInPrevious }

variable (s : Structure Name Cell)

/-- The loop counts down from `structures.size() - 2`, so the last structure is not added. -/
def materializePropertyMap : Structure Name Cell :=
  let above := previousStructures h h.length s.previous
  let structures := s :: above.1
  let table := structures.dropLast.reverse.foldl addPreviousEntry (above.2.getD {})
  { s with propertyTable := some table }

def materializePropertyMapIfNecessary : Structure Name Cell :=
  if s.propertyTable.isNone && s.previous.isSome then materializePropertyMap h s else s

def materializePropertyMapIfNecessaryForPinning : Structure Name Cell :=
  if s.propertyTable.isNone then materializePropertyMap h s else s

/-- What `get` returns; it leaves the property map behind. -/
def get (name : Name) : Option (PropertyMapEntry Name Cell) :=
  (materializePropertyMapIfNecessary h s).propertyTable.bind (·.find name)

end Materialize

end Structure

/-! ## Transitions -/

namespace Structures

open Structure

variable {Name Cell : Type*} [DecidableEq Name] [DecidableEq Cell] (h : Structures Name Cell)

section TransitionTable

variable (table : StructureTransitionTable Name)

/-- `StructureTransitionTable::get`. -/
def getTransition (name : Name) (attributes : Attributes) : Option StructureID :=
  match table with
  | .singleSlot transition => transition.filter fun id => match h[id]? with
    | some t => t.nameInPrevious = some name ∧ t.attributesInPrevious.setWidth 32 = attributes
    | none => false
  | .map m => (m.find? fun entry => entry.1 = (name, attributes)).map (·.2)

def containsTransition (name : Name) (attributes : Attributes) : Bool :=
  (getTransition h table name attributes).isSome

def setTransition (m : List ((Name × Attributes) × StructureID)) (id : StructureID)
    (t : Structure Name Cell) : List ((Name × Attributes) × StructureID) :=
  match t.nameInPrevious with
  | none => m
  | some name =>
    let key := (name, t.attributesInPrevious.setWidth 32)
    (key, id) :: m.filter fun entry => entry.1 ≠ key

/-- `StructureTransitionTable::add` of the cell `t` at `id`. -/
def addTransition (id : StructureID) (t : Structure Name Cell) : StructureTransitionTable Name :=
  match table with
  | .singleSlot none => .singleSlot (some id)
  | .singleSlot (some existing) =>
    let m := match h[existing]? with
      | some e => setTransition [] existing e
      | none => []
    .map (setTransition m id t)
  | .map m => .map (setTransition m id t)

/-- What the collector does to a transition that nothing else refers to. -/
def finalizeTransition (id : StructureID) : StructureTransitionTable Name :=
  match table with
  | .singleSlot transition => .singleSlot (transition.filter (· ≠ id))
  | .map m => .map (m.filter fun entry => entry.2 ≠ id)

end TransitionTable

section Pinning

/-- A new structure with a copy of the map of `s`, pinned. -/
def pinnedCopy (s : Structure Name Cell) : Structure Name Cell :=
  let s' := materializePropertyMapIfNecessary h s
  pin { s.createFrom with propertyTable := some s'.copyPropertyTableForPinning }

variable (structureID : StructureID)

/-- What the transitions that pin their table have in common; `f` is what each does besides. -/
def pinnedTransition (f : Structure Name Cell → Structure Name Cell) :
    Structures Name Cell × StructureID :=
  match h[structureID]? with
  | none => (h, structureID)
  | some s =>
    (h.set structureID (materializePropertyMapIfNecessary h s) ++ [f (pinnedCopy h s)], h.length)

def changePrototypeTransition : Structures Name Cell × StructureID :=
  pinnedTransition h structureID fun transition => transition

def despecifyFunctionTransition (replaceFunction : Name) : Structures Name Cell × StructureID :=
  pinnedTransition h structureID fun transition =>
    let transition := { transition with
      specificFunctionThrashCount := transition.specificFunctionThrashCount + 1 }
    if transition.specificFunctionThrashCount = maxSpecificFunctionThrashCount then
      transition.modifyTable fun t => t.modifyAll fun e => { e with specificValue := none }
    else
      transition.modifyTable fun t =>
        t.modify replaceFunction fun e => { e with specificValue := none }

def toDictionaryTransition (kind : DictionaryKind) : Structures Name Cell × StructureID :=
  pinnedTransition h structureID fun transition => { transition with dictionaryKind := kind }

def toCacheableDictionaryTransition : Structures Name Cell × StructureID :=
  toDictionaryTransition h structureID cachedDictionaryKind

def toUncacheableDictionaryTransition : Structures Name Cell × StructureID :=
  toDictionaryTransition h structureID uncachedDictionaryKind

def preventExtensionsTransition : Structures Name Cell × StructureID :=
  pinnedTransition h structureID fun transition => { transition with preventExtensions := true }

def sealTransition : Structures Name Cell × StructureID :=
  let transition := preventExtensionsTransition h structureID
  (transition.1.modify transition.2 fun s => s.modifyTable fun t => t.modifyAll fun e =>
    { e with attributes := e.attributes ||| dontDelete }, transition.2)

def freezeTransition : Structures Name Cell × StructureID :=
  let transition := preventExtensionsTransition h structureID
  (transition.1.modify transition.2 fun s => s.modifyTable fun t => t.modifyAll fun e =>
    { e with attributes := e.attributes ||| if e.attributes.has accessor then dontDelete
      else dontDelete ||| readOnly }, transition.2)

def attributeChangeTransition (name : Name) (attributes : Attributes) :
    Structures Name Cell × StructureID :=
  let transition := match h[structureID]? with
    | some s =>
      if s.isUncacheableDictionary then (h, structureID)
      else pinnedTransition h structureID fun transition => transition
    | none => (h, structureID)
  (transition.1.modify transition.2 fun s => s.modifyTable fun t =>
    t.modify name fun e => { e with attributes := attributes }, transition.2)

end Pinning

section Properties

variable (structureID : StructureID) (name : Name) (attributes : Attributes)
  (specificValue : Option Cell)

def addPropertyTransitionToExistingStructure : Option (StructureID × ℕ) :=
  match h[structureID]? with
  | none => none
  | some s => match getTransition h s.transitionTable name attributes with
    | none => none
    | some existing => match h[existing]? with
      | none => none
      | some t =>
        if t.specificValueInPrevious.isSome && t.specificValueInPrevious ≠ specificValue then none
        else some (existing, toUnsignedOffset t.offset)

/-- The table a new transition starts from: a copy of a pinned one, the stolen table of one that is
not, the rebuilt map of the transition itself, or a new one. -/
def transitionPropertyTable (s transition : Structure Name Cell) :
    Option (PropertyTable Name Cell) :=
  match s.propertyTable with
  | some t => some t
  | none =>
    if s.previous.isSome then (materializePropertyMap h transition).propertyTable else some {}

def addPropertyTransition : Structures Name Cell × StructureID × ℕ :=
  match h[structureID]? with
  | none => (h, structureID, 0)
  | some s =>
    let specificValue :=
      if specificValue.isSome && containsTransition h s.transitionTable name attributes then none
      else specificValue
    let specificValue :=
      if s.specificFunctionThrashCount = maxSpecificFunctionThrashCount then none
      else specificValue
    if s.transitionCount > maxTransitionLength then
      let transition := toCacheableDictionaryTransition h structureID
      match transition.1[transition.2]? with
      | none => (transition.1, transition.2, 0)
      | some t =>
        let put := t.putSpecificValue name attributes specificValue
        (transition.1.set transition.2 put.1.growIfExceeded, transition.2, put.2)
    else
      let transition := { s.createFrom with
        previous := some structureID
        nameInPrevious := some name
        attributesInPrevious := attributes.setWidth 7
        specificValueInPrevious := specificValue }
      let table := transitionPropertyTable h s transition
      let put :=
        { transition with propertyTable := table }.putSpecificValue name attributes specificValue
      let transition := { put.1.growIfExceeded with offset := some put.2 }
      let s := { s with
        propertyTable := if s.isPinnedPropertyTable then s.propertyTable else none
        transitionTable := addTransition h s.transitionTable h.length transition }
      (h.set structureID s ++ [transition], h.length, put.2)

def removePropertyTransition : Structures Name Cell × StructureID × Option ℕ :=
  let transition := toUncacheableDictionaryTransition h structureID
  match transition.1[transition.2]? with
  | none => (transition.1, transition.2, none)
  | some t => (transition.1.set transition.2 (t.remove name).1, transition.2, (t.remove name).2)

def addPropertyWithoutTransition : Structures Name Cell × ℕ :=
  match h[structureID]? with
  | none => (h, 0)
  | some s =>
    let specificValue :=
      if s.specificFunctionThrashCount = maxSpecificFunctionThrashCount then none
      else specificValue
    let put := (materializePropertyMapIfNecessaryForPinning h s).pin.putSpecificValue
      name attributes specificValue
    (h.set structureID put.1.growIfExceeded, put.2)

def removePropertyWithoutTransition : Structures Name Cell × Option ℕ :=
  match h[structureID]? with
  | none => (h, none)
  | some s =>
    let removed := (materializePropertyMapIfNecessaryForPinning h s).pin.remove name
    (h.set structureID removed.1, removed.2)

end Properties

end Structures
end JavaScriptCore
end WebKit
