import Mathlib.Data.BitVec

/-!
# Property attributes and property descriptors

An attribute word holds what a property does not allow.  A `PropertyDescriptor` is the argument of
`defineOwnProperty`: every field may be absent, and for the three attributes a second word says
which of them were given.  A value of JavaScript is an element of `V`, `undefined` is its `default`,
and the empty `JSValue` of the source, which stands for a hole and for an absent field, is `none`.
-/

namespace WebKit
namespace JavaScriptCore

/-- The attribute word of a property. -/
abbrev Attributes := BitVec 32

namespace Attributes

def readOnly : Attributes := 1#32 <<< 1
def dontEnum : Attributes := 1#32 <<< 2
def dontDelete : Attributes := 1#32 <<< 3
def accessor : Attributes := 1#32 <<< 5

/-- `a & b` read as a truth value. -/
def has (a b : Attributes) : Bool := a &&& b != 0#32

@[simp] theorem has_zero (b : Attributes) : has 0#32 b = false := by simp [has]

end Attributes

open Attributes

/-- An exception that the array code throws. -/
inductive JSError where
  | typeError (message : String)
  | rangeError (message : String)
  | outOfMemory
  deriving DecidableEq, Repr

/-- What a cell of the sparse map can hold: a value, or a `GetterSetter`. -/
inductive StoredValue (V : Type*) where
  | value (v : V)
  | getterSetter (getter setter : Option V)
  deriving DecidableEq

section Values

variable {V : Type*} [Inhabited V]

def jsUndefined : V := default

structure PropertyDescriptor (V : Type*) where
  value : Option V := none
  getter : Option V := none
  setter : Option V := none
  /-- `defaultAttributes`, which has the lowest bit set although no attribute uses it. -/
  attributes : Attributes := (dontDelete <<< 1) - 1#32
  writablePresent : Bool := false
  enumerablePresent : Bool := false
  configurablePresent : Bool := false

namespace PropertyDescriptor

variable (d : PropertyDescriptor V)

def writable : Bool := !d.attributes.has readOnly
def enumerable : Bool := !d.attributes.has dontEnum
def configurable : Bool := !d.attributes.has dontDelete

def isDataDescriptor : Bool := d.value.isSome || d.writablePresent
def isAccessorDescriptor : Bool := d.getter.isSome || d.setter.isSome
def isGenericDescriptor : Bool := !d.isAccessorDescriptor && !d.isDataDescriptor

def isEmpty : Bool :=
  !(d.value.isSome || d.getter.isSome || d.setter.isSome
    || (d.writablePresent || d.enumerablePresent || d.configurablePresent))

def setDescriptor (value : StoredValue V) (attributes : Attributes) : PropertyDescriptor V :=
  match value with
  | .getterSetter getter setter =>
    { getter := some (getter.getD jsUndefined)
      setter := some (setter.getD jsUndefined)
      attributes := attributes &&& ~~~readOnly
      enumerablePresent := true
      configurablePresent := true }
  | .value v =>
    { value := some v
      attributes := attributes
      writablePresent := true
      enumerablePresent := true
      configurablePresent := true }

def attributesEqual (other : PropertyDescriptor V) : Bool :=
  let mismatch := other.attributes ^^^ d.attributes
  if (other.writablePresent && d.writablePresent) && mismatch.has readOnly then false
  else if (other.configurablePresent && d.configurablePresent) && mismatch.has dontDelete then false
  else if (other.enumerablePresent && d.enumerablePresent) && mismatch.has dontEnum then false
  else true

def attributesOverridingCurrent (current : PropertyDescriptor V) : Attributes :=
  let currentAttributes :=
    if d.isDataDescriptor && current.isAccessorDescriptor then current.attributes ||| readOnly
    else current.attributes
  let overrideMask :=
    (if d.writablePresent then readOnly else 0#32)
      ||| (if d.enumerablePresent then dontEnum else 0#32)
      ||| (if d.configurablePresent then dontDelete else 0#32)
      ||| (if d.isAccessorDescriptor then accessor else 0#32)
  (d.attributes &&& overrideMask) ||| (currentAttributes &&& ~~~overrideMask)

variable [DecidableEq V]

/-- A getter field holds an object or `undefined`; only the first is a function to call. -/
def getterObject : Option V := d.getter.filter (· ≠ jsUndefined)

def setterObject : Option V := d.setter.filter (· ≠ jsUndefined)

/-- Values are compared with `sameValue`, which is equality in `V`. -/
def equalTo (other : PropertyDescriptor V) : Bool :=
  if other.value.isSome != d.value.isSome || other.getter.isSome != d.getter.isSome
      || other.setter.isSome != d.setter.isSome then false
  else
    decide (d.value = other.value) && decide (d.getter = other.getter)
      && decide (d.setter = other.setter) && d.attributesEqual other

end PropertyDescriptor

end Values

end JavaScriptCore
end WebKit
