import WebKit.JavaScriptCore.JSArray

/-!
# defineOwnProperty on an array

A definition with attributes sends the array into sparse mode, where every index has its own entry
and the length can be made read-only.  To define `length` the array has to convert a value to a
number, which may run any script in between; the definition is cut there into `defineLength` and
`defineLengthEnd`.
-/

namespace WebKit
namespace JavaScriptCore
namespace JSArray

open Attributes

variable {V : Type*} [Inhabited V] [DecidableEq V] (a : JSArray V)

def putDescriptor (entryInMap : SparseArrayEntry V) (descriptor oldDescriptor : PropertyDescriptor V) :
    SparseArrayEntry V :=
  if descriptor.isDataDescriptor then
    { value :=
        match descriptor.value with
        | some v => some (.value v)
        | none =>
          if oldDescriptor.isAccessorDescriptor then some (.value jsUndefined) else entryInMap.value
      attributes := descriptor.attributesOverridingCurrent oldDescriptor &&& ~~~accessor }
  else if descriptor.isAccessorDescriptor then
    let getter :=
      if descriptor.getter.isSome then descriptor.getterObject
      else if oldDescriptor.isAccessorDescriptor then oldDescriptor.getterObject else none
    let setter :=
      if descriptor.setter.isSome then descriptor.setterObject
      else if oldDescriptor.isAccessorDescriptor then oldDescriptor.setterObject else none
    { value := some (.getterSetter getter setter)
      attributes := descriptor.attributesOverridingCurrent oldDescriptor &&& ~~~readOnly }
  else { entryInMap with attributes := descriptor.attributesOverridingCurrent oldDescriptor }

/-- Steps 7 to 11 of 8.12.9: why the current property may not be changed so, if it may not. -/
def definitionError (descriptor current : PropertyDescriptor V) : Option String :=
  if !current.configurable && (descriptor.configurablePresent && descriptor.configurable) then
    some "Attempting to change configurable attribute of unconfigurable property."
  else if !current.configurable
      && (descriptor.enumerablePresent && current.enumerable != descriptor.enumerable) then
    some "Attempting to change enumerable attribute of unconfigurable property."
  else if descriptor.isGenericDescriptor then none
  else if current.isDataDescriptor != descriptor.isDataDescriptor then
    if !current.configurable then
      some "Attempting to change access mechanism for an unconfigurable property."
    else none
  else if current.isDataDescriptor && descriptor.isDataDescriptor then
    if !current.configurable && !current.writable then
      if descriptor.writable then
        some "Attempting to change writable attribute of unconfigurable property."
      else if descriptor.value.isSome && decide (descriptor.value ≠ current.value) then
        some "Attempting to change value of a readonly property."
      else none
    else none
  else if !current.configurable then
    if descriptor.setter.isSome && decide (descriptor.setter ≠ current.setter) then
      some "Attempting to change the setter of an unconfigurable property."
    else if descriptor.getter.isSome && decide (descriptor.getter ≠ current.getter) then
      some "Attempting to change the getter of an unconfigurable property."
    else none
  else none

/-- The entry that a new property has before its descriptor is put. -/
def newEntry : SparseArrayEntry V where
  value := some (.value jsUndefined)
  attributes := dontDelete ||| dontEnum ||| readOnly

variable (heap : Heap) (index : ℕ) (descriptor : PropertyDescriptor V) (throwException : Bool)

def defineOwnNumericProperty : Completion V Bool :=
  if !a.inSparseMode && descriptor.attributes == 0#32 then
    let c := a.putByIndex heap index descriptor.value
    { array := c.array, result := true, call := c.call }
  else
    let a := if a.inSparseMode then a else a.enterDictionaryMode
    let map := a.sparseValueMap.getD {}
    match map.find index with
    | none =>
      -- The entry that `add` made is removed again if the property may not be added.
      if !a.isExtensible then
        a.reject throwException "Attempting to define property on object that is not extensible."
      else
        let entry := putDescriptor newEntry descriptor newEntry.descriptor
        { array :=
            { a with
              sparseValueMap := some (map.set index entry)
              length := if a.length ≤ index then index + 1 else a.length }
          result := true }
    | some entryInMap =>
      let current := entryInMap.descriptor
      if descriptor.isEmpty || descriptor.equalTo current then { array := a, result := true }
      else
        match definitionError descriptor current with
        | some message => a.reject throwException message
        | none =>
          let entry := putDescriptor entryInMap descriptor current
          { array := { a with sparseValueMap := some (map.set index entry) }, result := true }

def setLengthWritable (writable : Bool) : JSArray V :=
  if !a.isLengthWritable || writable then a
  else
    let a := a.enterDictionaryMode
    { a with
      sparseValueMap := a.sparseValueMap.map fun m => { m with lengthIsReadOnly := true } }

/-- The attribute of the length after its definition. -/
def finishLength : JSArray V :=
  if descriptor.writablePresent then a.setLengthWritable descriptor.writable else a

/-- `defineOwnProperty` for the name `length`, up to the conversion of the value to a number, if it
comes to one. -/
def defineLength : Option (Completion V Bool) :=
  if descriptor.configurablePresent && descriptor.configurable then
    some (a.reject throwException
      "Attempting to change configurable attribute of unconfigurable property.")
  else if descriptor.enumerablePresent && descriptor.enumerable then
    some (a.reject throwException
      "Attempting to change enumerable attribute of unconfigurable property.")
  else if descriptor.isAccessorDescriptor then
    some (a.reject throwException
      "Attempting to change access mechanism for an unconfigurable property.")
  else if !a.isLengthWritable && descriptor.writablePresent && descriptor.writable then
    some (a.reject throwException
      "Attempting to change writable attribute of unconfigurable property.")
  else
    match descriptor.value with
    | none => some { array := a.finishLength descriptor, result := true }
    | some _ => none

/-- The rest of the definition, with the number that `toUInt32` gave and whether `toNumber` gave the
same. -/
def defineLengthEnd (newLen : ℕ)
    (isSame : Bool) : Completion V Bool :=
  if !isSame then
    { array := a, result := false, exception := some (.rangeError "Invalid array length") }
  else if newLen = a.length then { array := a.finishLength descriptor, result := true }
  else if !a.isLengthWritable then
    a.reject throwException "Attempting to change value of a readonly property."
  else
    let c := a.setLength newLen throwException
    { c with array := c.array.finishLength descriptor }

/-- `defineOwnProperty` for an array index. -/
def defineIndex : Completion V Bool :=
  if a.length ≤ index ∧ !a.isLengthWritable then
    a.reject throwException
      "Attempting to define numeric property on array with non-writable length property."
  else a.defineOwnNumericProperty heap index descriptor throwException

end JSArray
end JavaScriptCore
end WebKit
