import Mathlib.Data.List.AList
import WebKit.JavaScriptCore.PropertyDescriptor
import WebKit.Library.Slots

/-!
# JSArray

The indexed properties of an array are in a storage vector or in a sparse map.  The vector has a
slot for every index below `vectorLength`, filled or empty; the map has an entry, with attributes,
for single indices behind the vector.  Which of the two an index goes to is decided by density, by
whether the heap gives the memory, and by the sparse mode, in which the vector is gone for good.

A call into script ends a function's own work at each place but one: `map->put` calls a setter as
its last act, so the setter and its argument are part of the result (`SetterCall`); `pop` calls a
getter in the middle, so it is cut there into `pop` and `popEnd`.
-/

namespace WebKit
namespace JavaScriptCore

open Attributes

/-! ## Constants -/

def minSparseArrayIndex : ℕ := 10000

/-- `(0xFFFFFFFF - (sizeof(ArrayStorage) - 8)) / 8`, with the 24 bytes of the storage on 64 bits. -/
def maxStorageVectorLength : ℕ := (0xFFFFFFFF - (24 - 8)) / 8

/-- The largest array index.  `0xFFFFFFFF` is an unsigned number and not an array index. -/
def maxArrayIndex : ℕ := 0xFFFFFFFE

abbrev ArrayIndex := { i : ℕ // i ≤ maxArrayIndex }

def baseVectorLen : ℕ := 4

def minDensityMultiplier : ℕ := 8

def strictModeReadonlyPropertyWriteError : String := "Attempted to assign to readonly property."

def isDenseEnoughForVector (length numValues : ℕ) : Bool :=
  decide (length ≤ minSparseArrayIndex) || decide (length / minDensityMultiplier ≤ numValues)

/-! ## The data -/

structure SparseArrayEntry (V : Type*) where
  value : Option (StoredValue V) := none
  attributes : Attributes := 0#32
  deriving DecidableEq

/-- The hash map keeps its entries in an order of its own, on which nothing here depends. -/
structure SparseArrayValueMap (V : Type*) where
  map : AList (fun _ : ℕ => SparseArrayEntry V) := ∅
  sparseMode : Bool := false
  lengthIsReadOnly : Bool := false

/-- An array with its `ArrayStorage`.  `m_vectorLength` is the length of `vector`, and `property` is
the one property with an unsigned name, `4294967295`, that is in the property map of `JSObject`. -/
structure JSArray (V : Type*) where
  length : ℕ
  numValuesInVector : ℕ
  vector : List (Option V)
  indexBias : ℕ
  sparseValueMap : Option (SparseArrayValueMap V)
  isExtensible : Bool
  property : Option V

/-- What an operation finds in the world around the array: whether the heap grants its request for
storage, and `lastArraySize`, which all arrays of the process write. -/
structure Heap where
  allocates : Bool
  lastArraySize : ℕ

/-- A call of a setter, with which the operation ends. -/
structure SetterCall (V : Type*) where
  setter : V
  value : Option V

/-- The array after an operation, what the operation returns, the exception it throws and the setter
it calls last. -/
structure Completion (V R : Type*) where
  array : JSArray V
  result : R
  exception : Option JSError := none
  call : Option (SetterCall V) := none

/-- The `PropertySlot` that a lookup fills. -/
inductive PropertySlot (V : Type*) where
  | value (v : Option V)
  | getter (g : V)

/-! ## The sparse map -/

section Entries

variable {V : Type*}

namespace SparseArrayEntry

def getNonSparseMode (e : SparseArrayEntry V) : Option V :=
  match e.value with
  | some (.value v) => some v
  | _ => none

def get [Inhabited V] (e : SparseArrayEntry V) : PropertySlot V :=
  match e.value with
  | none => .value none
  | some (.value v) => .value (some v)
  | some (.getterSetter none _) => .value (some jsUndefined)
  | some (.getterSetter (some g) _) => .getter g

/-- The descriptor of an entry; `get(PropertyDescriptor&)` asserts that the entry has a value. -/
def descriptor [Inhabited V] (e : SparseArrayEntry V) : PropertyDescriptor V :=
  PropertyDescriptor.setDescriptor (e.value.getD (.value jsUndefined)) e.attributes

end SparseArrayEntry

namespace SparseArrayValueMap

variable (m : SparseArrayValueMap V)

/-- The number of entries. -/
def size : ℕ := m.map.keys.length

def isEmpty : Bool := m.size == 0

def find (i : ℕ) : Option (SparseArrayEntry V) := m.map.lookup i

/-- The map with a fresh entry at `i` if it had none, and whether it had none. -/
def add (i : ℕ) : SparseArrayValueMap V × Bool :=
  if (m.find i).isSome then (m, false) else ({ m with map := m.map.insert i {} }, true)

/-- An entry written through the pointer that `add` or `find` gave. -/
def set (i : ℕ) (entry : SparseArrayEntry V) : SparseArrayValueMap V :=
  { m with map := m.map.insert i entry }

def remove (i : ℕ) : SparseArrayValueMap V := { m with map := m.map.erase i }

def put (i : ℕ) (value : Option V) : SparseArrayValueMap V × Option (SetterCall V) :=
  let m := (m.add i).1
  let entry := (m.find i).getD {}
  if !entry.attributes.has accessor then
    if entry.attributes.has readOnly then (m, none)
    else (m.set i { entry with value := value.map .value }, none)
  else
    match entry.value with
    | some (.getterSetter _ (some setter)) => (m, some ⟨setter, value⟩)
    | _ => (m, none)

end SparseArrayValueMap

end Entries

namespace JSArray

variable {V : Type*} (a : JSArray V)

def vectorLength : ℕ := a.vector.length

/-- The slot `m_vector[i]`, empty where there is none. -/
def slot (i : ℕ) : Option V := Slots.get a.vector i

def inSparseMode : Bool := a.sparseValueMap.any (·.sparseMode)

def isLengthWritable : Bool := a.sparseValueMap.all (!·.lengthIsReadOnly)

/-! ## Creation -/

/-- `create`, with `finishCreation`. -/
def create (initialLength : ℕ) : JSArray V where
  length := initialLength
  numValuesInVector := 0
  vector := List.replicate baseVectorLen none
  indexBias := 0
  sparseValueMap := none
  isExtensible := true
  property := none

/-- `tryCreateUninitialized`, followed by `initializeIndex` for each value in turn and
`completeInitialization`. -/
def createInitialized (values : List V) : JSArray V where
  length := values.length
  numValuesInVector := values.length
  vector := values.map some ++ List.replicate (baseVectorLen - values.length) none
  indexBias := 0
  sparseValueMap := none
  isExtensible := true
  property := none

/-! ## The sparse mode -/

/-- The values of the vector, added to the map in the order of their indices. -/
def addSlots (used : ℕ) (m : SparseArrayValueMap V) : SparseArrayValueMap V :=
  (List.range used).foldl
    (fun m i => if (a.slot i).isSome then
        m.set i { value := (a.slot i).map .value }
      else m) m

/-- The counter of the values in the vector is copied with the storage, although the vector is
gone. -/
def enterDictionaryMode : JSArray V :=
  let m := a.sparseValueMap.getD {}
  if m.sparseMode then a
  else
    { a with
      vector := []
      indexBias := 0
      sparseValueMap := some
        (a.addSlots (min a.length a.vectorLength) { m with sparseMode := true }) }

/-- `JSObject::preventExtensions`, on an array. -/
def preventExtensions : JSArray V :=
  { a.enterDictionaryMode with isExtensible := false }

/-! ## Growing the vector -/

def getNewVectorLength (lastArraySize desiredLength : ℕ) : ℕ :=
  let maxInitLength := min a.length 100000
  let increasedLength :=
    if desiredLength < maxInitLength then maxInitLength
    else if a.vectorLength = 0 then max desiredLength lastArraySize
    else desiredLength + desiredLength / 2 + desiredLength % 2
  min increasedLength maxStorageVectorLength

def increaseVectorLength (heap : Heap) (newLength : ℕ) : Option (JSArray V) :=
  if maxStorageVectorLength < newLength then none
  else
    let newVectorLength := a.getNewVectorLength heap.lastArraySize newLength
    let vector := a.vector ++ List.replicate (newVectorLength - a.vectorLength) none
    if !heap.allocates then none
    else if a.indexBias = 0 then some { a with vector := vector }
    else
      some { a with
        vector := vector
        indexBias := min (a.indexBias / 2) (maxStorageVectorLength - newVectorLength) }

/-! ## Reading, writing and deleting an index -/

/-- The name `i` of a hole is looked up in the property map of `JSObject`, which has no array
index. -/
def getOwnPropertySlotByIndex [Inhabited V] (i : ℕ) : Option (PropertySlot V) :=
  if a.length ≤ i then
    if maxArrayIndex < i then a.property.map fun v => .value (some v) else none
  else if i < a.vectorLength then (a.slot i).map fun v => .value (some v)
  else (a.sparseValueMap.bind (·.find i)).map (·.get)

/-- The copy of the map into the vector. -/
def copyEntries (m : SparseArrayValueMap V) (vector : List (Option V)) : List (Option V) :=
  Slots.writes vector (m.map.entries.map fun e => (e.1, e.2.getNonSparseMode))

def putByIndexBeyondVectorLength (heap : Heap) (i : ℕ) (value : Option V) : Completion V Unit :=
  match a.sparseValueMap with
  | none =>
    let a := { a with length := if a.length ≤ i then i + 1 else a.length }
    let grown :=
      if isDenseEnoughForVector i a.numValuesInVector then a.increaseVectorLength heap (i + 1)
      else none
    match grown with
    | some a =>
      { array :=
          { a with
            vector := a.vector.set i value
            numValuesInVector := a.numValuesInVector + 1 }
        result := () }
    | none =>
      let (map, call) := SparseArrayValueMap.put {} i value
      { array := { a with sparseValueMap := some map }, result := (), call := call }
  | some map =>
    if a.length ≤ i ∧ (map.lengthIsReadOnly || !a.isExtensible) then { array := a, result := () }
    else
      let a := { a with length := if a.length ≤ i then i + 1 else a.length }
      let numValuesInArray := a.numValuesInVector + map.size
      let grown :=
        if map.sparseMode || !isDenseEnoughForVector a.length numValuesInArray then none
        else a.increaseVectorLength heap a.length
      match grown with
      | none =>
        let (map, call) := map.put i value
        { array := { a with sparseValueMap := some map }, result := (), call := call }
      | some a =>
        let vector := copyEntries map a.vector
        { array :=
            { a with
              vector := vector.set i value
              numValuesInVector :=
                if (Slots.get vector i).isNone then numValuesInArray + 1 else numValuesInArray
              sparseValueMap := none }
          result := () }

/-- `JSObject::put` for the name `4294967295`. -/
def putProperty (value : Option V) : JSArray V :=
  if a.property.isSome || a.isExtensible then { a with property := value } else a

def putByIndex (heap : Heap) (i : ℕ) (value : Option V) : Completion V Unit :=
  if i < a.vectorLength then
    { array :=
        { a with
          length := if a.length ≤ i then i + 1 else a.length
          numValuesInVector :=
            if a.length ≤ i then a.numValuesInVector + 1
            else if (a.slot i).isNone then a.numValuesInVector + 1
            else a.numValuesInVector
          vector := a.vector.set i value }
      result := () }
  else if maxArrayIndex < i then { array := a.putProperty value, result := () }
  else a.putByIndexBeyondVectorLength heap i value

/-- For the name `4294967295`, `JSObject::deleteProperty` is called. -/
def deletePropertyByIndex (i : ℕ) : Completion V Bool :=
  if maxArrayIndex < i then { array := { a with property := none }, result := true }
  else if i < a.vectorLength then
    if (a.slot i).isSome then
      { array :=
          { a with
            vector := a.vector.set i none
            numValuesInVector := a.numValuesInVector - 1 }
        result := true }
    else { array := a, result := true }
  else
    match a.sparseValueMap with
    | none => { array := a, result := true }
    | some map =>
      match map.find i with
      | none => { array := a, result := true }
      | some entry =>
        if entry.attributes.has dontDelete then { array := a, result := false }
        else { array := { a with sparseValueMap := some (map.remove i) }, result := true }

/-! ## The length -/

def reject (throwException : Bool) (message : String) : Completion V Bool where
  array := a
  result := false
  exception := if throwException then some (.typeError message) else none

/-- The keys of the map that a shorter length gives up. -/
def keysFrom (m : SparseArrayValueMap V) (newLength length : ℕ) : List ℕ :=
  m.map.keys.filter fun i => i < length && newLength ≤ i

/-- The removal in sparse mode, from the largest key down.  It stops at the first key whose entry
cannot be deleted, and returns it. -/
def removeKeys (m : SparseArrayValueMap V) : List ℕ → SparseArrayValueMap V × Option ℕ
  | [] => (m, none)
  | index :: keys =>
    if (m.find index).any (·.attributes.has dontDelete) then (m, some index)
    else removeKeys (m.remove index) keys

/-- The slots from `newLength` up to the old length are cleared. -/
def truncateVector (newLength : ℕ) : JSArray V :=
  let usedVectorLength := min a.length a.vectorLength
  { a with
    vector := Slots.clear a.vector newLength usedVectorLength
    numValuesInVector :=
      a.numValuesInVector - Slots.filled ((a.vector.take usedVectorLength).drop newLength) }

def setLength (newLength : ℕ) (throwException : Bool) : Completion V Bool :=
  match a.sparseValueMap with
  | none =>
    let a := if newLength < a.length then a.truncateVector newLength else a
    { array := { a with length := newLength }, result := true }
  | some map =>
    if map.lengthIsReadOnly then a.reject throwException strictModeReadonlyPropertyWriteError
    else if newLength < a.length then
      let keys := keysFrom map newLength a.length
      if map.sparseMode then
        match removeKeys map (keys.insertionSort (· ≤ ·)).reverse with
        | (map, some index) =>
          { a with length := index + 1, sparseValueMap := some map }.reject throwException
            "Unable to delete property."
        | (map, none) =>
          let a := { a with sparseValueMap := some map }.truncateVector newLength
          { array := { a with length := newLength }, result := true }
      else
        let map := keys.foldl (·.remove ·) map
        let a := { a with sparseValueMap := if map.isEmpty then none else some map }
        let a := a.truncateVector newLength
        { array := { a with length := newLength }, result := true }
    else { array := { a with length := newLength }, result := true }

/-! ## pop and push -/

/-- What `pop` comes to: it returns, or it has to call the getter of the last entry. -/
inductive PopResult (V : Type*) where
  | returns (completion : Completion V (Option V))
  | callsGetter (getter : V) (length : ℕ) (attributes : Attributes)

/-- The end of a `pop` whose last index, `length`, has an entry in the map. -/
def popEnd [Inhabited V] (length : ℕ) (attributes : Attributes) (result : Option V)
    (hadException : Option JSError) : Completion V (Option V) :=
  match hadException with
  | some e => { array := a, result := some jsUndefined, exception := some e }
  | none =>
    if attributes.has dontDelete then
      { array := a, result := result, exception := some (.typeError "Unable to delete property.") }
    else
      let map := a.sparseValueMap.map (·.remove length)
      { array :=
          { a with
            length := length
            sparseValueMap := map.filter fun m => !(m.isEmpty && !m.sparseMode) }
        result := result }

def pop [Inhabited V] : PopResult V :=
  if a.length = 0 then
    .returns
      { array := a
        result := some jsUndefined
        exception :=
          if a.isLengthWritable then none
          else some (.typeError strictModeReadonlyPropertyWriteError) }
  else
    let length := a.length - 1
    if length < a.vectorLength then
      if (a.slot length).isSome then
        .returns
          { array :=
              { a with
                length := length
                numValuesInVector := a.numValuesInVector - 1
                vector := a.vector.set length none }
            result := a.slot length }
      else .returns { array := { a with length := length }, result := some jsUndefined }
    else
      match a.sparseValueMap.bind (·.find length) with
      | none => .returns { array := { a with length := length }, result := some jsUndefined }
      | some entry =>
        match entry.get with
        | .getter g => .callsGetter g length entry.attributes
        | .value v => .returns (a.popEnd length entry.attributes v none)

def push (heap : Heap) (value : Option V) : Completion V Unit :=
  if a.length < a.vectorLength then
    { array :=
        { a with
          length := a.length + 1
          numValuesInVector := a.numValuesInVector + 1
          vector := a.vector.set a.length value }
      result := () }
  else if a.length = 0xFFFFFFFF then
    { a.putByIndex heap a.length value with
      exception := some (.rangeError "Invalid array length") }
  else a.putByIndexBeyondVectorLength heap a.length value

end JSArray

end JavaScriptCore
end WebKit
