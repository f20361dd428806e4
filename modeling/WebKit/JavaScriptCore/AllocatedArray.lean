import WebKit.JavaScriptCore.JSArray
import WebKit.Library.WordMemory

/-!
# The storage of an array in memory

An `ArrayStorage` lies in an allocation at `m_indexBias` words from its beginning: two words of
header, and after them the slots of the vector.  The words before the header are what `shiftCount`
has given up and `unshiftCount` takes back; the words behind the vector are lost until the storage
moves.

All arithmetic on lengths is that of 32-bit unsigned numbers.  An operation is `none` when an
expression wraps, or when a word is read or written outside of its allocation or as what it is not.
Whether the heap gives memory, and what is in it, is an argument.
-/

namespace WebKit
namespace JavaScriptCore

variable {V : Type}

/-! ## Unsigned numbers -/

def unsignedAdd (a b : ℕ) : Option ℕ := if a + b < 2 ^ 32 then some (a + b) else none

def unsignedSub (a b : ℕ) : Option ℕ := if b ≤ a then some (a - b) else none

/-- The size in words; the header is a word for the two lengths and one for `m_allocBase`. -/
def storageSize (vectorLength : ℕ) : Option ℕ :=
  if (24 - 8) + vectorLength * 8 ≤ 0xFFFFFFFF then some (2 + vectorLength) else none

/-! ## Memory -/

inductive Word (V : Type)
  | lengths (length numValuesInVector : ℕ)
  | allocBase (base : ℕ)
  | slot (value : Option V)
  deriving DecidableEq

structure Allocation (V : Type) where
  base : ℕ
  words : List (Word V)
  deriving DecidableEq

/-- What the heap answers with: an address, and what its memory holds. -/
structure Grant (V : Type) where
  base : ℕ
  fresh : ℕ → Word V

def tryAllocateStorage (grant : Option (Grant V)) (size : ℕ) : Option (Allocation V) :=
  grant.map fun g => ⟨g.base, (List.range size).map g.fresh⟩

def tryReallocateStorage (grant : Option (Grant V)) (allocation : Allocation V)
    (oldSize newSize : ℕ) : Option (Option (Allocation V)) :=
  if newSize ≤ oldSize then some (some allocation)
  else
    match tryAllocateStorage grant newSize with
    | none => some none
    | some result =>
      (moveWords result.words 0 allocation.words 0 oldSize).map fun words =>
        some { result with words }

/-! ## The array -/

/-- `m_storage` is a number of words from the beginning of the allocation. -/
structure AllocatedArray (V : Type) where
  allocation : Allocation V
  storage : ℕ
  vectorLength : ℕ
  indexBias : ℕ
  deriving DecidableEq

namespace AllocatedArray

def lengths (s : AllocatedArray V) : Option (ℕ × ℕ) :=
  match s.allocation.words[s.storage]? with
  | some (.lengths length numValuesInVector) => some (length, numValuesInVector)
  | _ => none

def allocBase (s : AllocatedArray V) : Option ℕ :=
  match s.allocation.words[s.storage + 1]? with
  | some (.allocBase base) => some base
  | _ => none

/-- What is in the slot `m_vector[i]`. -/
def slot (s : AllocatedArray V) (i : ℕ) : Option (Option V) :=
  match s.allocation.words[s.storage + 2 + i]? with
  | some (.slot value) => some value
  | _ => none

def withWords (s : AllocatedArray V) (words : List (Word V)) : AllocatedArray V :=
  { s with allocation := { s.allocation with words } }

/-- The memory at `m_allocBase`. -/
def memory (s : AllocatedArray V) : Option (Allocation V) := do
  let base ← s.allocBase
  if base = s.allocation.base then some s.allocation else none

def setAllocBase (base : ℕ) (s : AllocatedArray V) : Option (AllocatedArray V) := do
  let words ← fillWords (.allocBase base) 1 (s.storage + 1) s.allocation.words
  some (s.withWords words)

def setLengths (length numValuesInVector : ℕ) (s : AllocatedArray V) :
    Option (AllocatedArray V) := do
  let words ← fillWords (.lengths length numValuesInVector) 1 s.storage s.allocation.words
  some (s.withWords words)

/-- The slots from one index up to another are cleared. -/
def clearSlots (start stop : ℕ) (s : AllocatedArray V) : Option (AllocatedArray V) := do
  let words ← fillWords (.slot none) (stop - start) (s.storage + 2 + start) s.allocation.words
  some (s.withWords words)

/-! ## Creation -/

/-- New storage with its header. -/
def newStorage (grant : Grant V) (initialVectorLength length numValuesInVector : ℕ) :
    Option (AllocatedArray V) := do
  let size ← storageSize initialVectorLength
  let s ← setAllocBase grant.base
    { allocation := ⟨grant.base, (List.range size).map grant.fresh⟩
      storage := 0
      vectorLength := initialVectorLength
      indexBias := 0 }
  s.setLengths length numValuesInVector

/-- `finishCreation`, in memory that the heap has given. -/
def create (grant : Grant V) (initialLength : ℕ) : Option (AllocatedArray V) := do
  let s ← newStorage grant baseVectorLen initialLength 0
  s.clearSlots 0 baseVectorLen

/-- `tryFinishCreationUninitialized`, followed by `initializeIndex` for each value in turn and
`completeInitialization`. -/
def createInitialized (grant : Grant V) (values : List V) : Option (AllocatedArray V) := do
  let initialVectorLength := max values.length baseVectorLen
  let s ← newStorage grant initialVectorLength values.length values.length
  let s ← s.clearSlots values.length initialVectorLength
  let words ← moveWords s.allocation.words (s.storage + 2)
    (values.map fun v => .slot (some v)) 0 values.length
  some (s.withWords words)

/-! ## Growing the vector -/

def getNewVectorLength (lastArraySize desiredLength length vectorLength : ℕ) : Option ℕ := do
  let maxInitLength := min length 100000
  let increasedLength ←
    if desiredLength < maxInitLength then some maxInitLength
    else if vectorLength = 0 then some (max desiredLength lastArraySize)
    else do
      let increasedLength ← unsignedAdd desiredLength (desiredLength >>> 1)
      unsignedAdd increasedLength (desiredLength &&& 1)
  some (min increasedLength maxStorageVectorLength)

variable (grant : Option (Grant V))

/-- The fast case of `increaseVectorLength`: there is no pre-capacity. -/
def reallocate (newVectorLength : ℕ) (s : AllocatedArray V) : Option (AllocatedArray V × Bool) := do
  let memory ← s.memory
  let oldSize ← storageSize s.vectorLength
  let newSize ← storageSize newVectorLength
  match ← tryReallocateStorage grant memory oldSize newSize with
  | none => some (s, false)
  | some allocation => do
    let s' ← setAllocBase allocation.base { s with allocation := allocation, storage := 0 }
    let s' ← s'.clearSlots s.vectorLength newVectorLength
    some ({ s' with vectorLength := newVectorLength }, true)

/-- The other case: some of the pre-capacity is kept in a new allocation. -/
def decayBias (newVectorLength : ℕ) (s : AllocatedArray V) : Option (AllocatedArray V × Bool) := do
  let most ← unsignedSub maxStorageVectorLength newVectorLength
  let newIndexBias := min (s.indexBias >>> 1) most
  let newStorageCapacity ← unsignedAdd newVectorLength newIndexBias
  let size ← storageSize newStorageCapacity
  match tryAllocateStorage grant size with
  | none => some (s, false)
  | some allocation => do
    let oldSize ← storageSize s.vectorLength
    let words ← moveWords allocation.words newIndexBias s.allocation.words s.storage oldSize
    let s' : AllocatedArray V :=
      { allocation := { allocation with words }
        storage := newIndexBias
        vectorLength := newVectorLength
        indexBias := newIndexBias }
    let s' ← s'.clearSlots s.vectorLength newVectorLength
    let s' ← s'.setAllocBase allocation.base
    some (s', true)

def increaseVectorLength (lastArraySize newLength : ℕ)
    (s : AllocatedArray V) : Option (AllocatedArray V × Bool) :=
  if maxStorageVectorLength < newLength then some (s, false)
  else do
    let (length, _) ← s.lengths
    let newVectorLength ← getNewVectorLength lastArraySize newLength length s.vectorLength
    if s.indexBias = 0 then s.reallocate grant newVectorLength
    else s.decayBias grant newVectorLength

/-! ## Unshifting -/

/-- Step 2 of `unshiftCountSlowCase`: the allocation to use, and its capacity. -/
def chooseAllocation (requiredVectorLength : ℕ) (s : AllocatedArray V) :
    Option (Option (Allocation V × ℕ)) := do
  let currentCapacity ← unsignedAdd s.vectorLength s.indexBias
  let doubled ← unsignedAdd (max baseVectorLen requiredVectorLength)
    (max baseVectorLen requiredVectorLength)
  let desiredCapacity := min maxStorageVectorLength doubled
  if desiredCapacity < currentCapacity ∧
      isDenseEnoughForVector currentCapacity requiredVectorLength then do
    let memory ← s.memory
    some (some (memory, currentCapacity))
  else do
    let size ← storageSize desiredCapacity
    some ((tryAllocateStorage grant size).map fun allocation => (allocation, desiredCapacity))

/-- Step 3: how much of the vector is post-capacity. -/
def postCapacity (length requiredVectorLength newStorageCapacity : ℕ) (s : AllocatedArray V) :
    Option ℕ :=
  if length < s.vectorLength then do
    let free ← unsignedSub s.vectorLength length
    let room ← unsignedSub newStorageCapacity requiredVectorLength
    some (min (free >>> 1) room)
  else some 0

/-- Step 4: the used slots are moved, and then the header, in one allocation or from the old one to
the new one.  Only in a new allocation the slots behind are cleared. -/
def moveStorage (allocation : Allocation V)
    (count usedVectorLength requiredVectorLength vectorLength indexBias : ℕ)
    (s : AllocatedArray V) : Option (AllocatedArray V) := do
  let words ← moveWords allocation.words (indexBias + 2 + count) s.allocation.words (s.storage + 2)
    usedVectorLength
  let old := if allocation.base = s.allocation.base then words else s.allocation.words
  let words ← moveWords words indexBias old s.storage 2
  let s' : AllocatedArray V :=
    { allocation := { allocation with words }, storage := indexBias, vectorLength, indexBias }
  let base ← s'.allocBase
  if base = allocation.base then some s'
  else do
    let s' ← s'.setAllocBase allocation.base
    s'.clearSlots requiredVectorLength vectorLength

def unshiftCountSlowCase (count : ℕ) (s : AllocatedArray V) : Option (AllocatedArray V × Bool) := do
  let (length, _) ← s.lengths
  let usedVectorLength := min s.vectorLength length
  let most ← unsignedSub maxStorageVectorLength usedVectorLength
  if most < count then some (s, false)
  else do
    let requiredVectorLength ← unsignedAdd usedVectorLength count
    match ← s.chooseAllocation grant requiredVectorLength with
    | none => some (s, false)
    | some (allocation, newStorageCapacity) => do
      let postCapacity ← s.postCapacity length requiredVectorLength newStorageCapacity
      let vectorLength ← unsignedAdd requiredVectorLength postCapacity
      let indexBias ← unsignedSub newStorageCapacity vectorLength
      let s' ← s.moveStorage allocation count usedVectorLength requiredVectorLength vectorLength
        indexBias
      some (s', true)

/-- `unshiftCount` after its loop over the holes; false where it throws an out of memory error. -/
def unshiftCountEnd (count : ℕ) (s : AllocatedArray V) : Option (AllocatedArray V × Bool) := do
  let (s', success) ←
    if count ≤ s.indexBias then do
      let storage ← unsignedSub s.storage count
      let words ← moveWords s.allocation.words storage s.allocation.words s.storage 2
      let vectorLength ← unsignedAdd s.vectorLength count
      some ({ (s.withWords words) with
        storage, vectorLength, indexBias := s.indexBias - count }, true)
    else s.unshiftCountSlowCase grant count
  if success then do
    let s' ← s'.clearSlots 0 count
    some (s', true)
  else some (s', false)

/-- Where the array has holes, a loop fills them from the prototype; `filled` is what the getters and
setters that it calls make of the array. -/
def unshiftCount (count : ℕ) (s filled : AllocatedArray V) : Option (AllocatedArray V × Bool) := do
  let (length, numValuesInVector) ← s.lengths
  (if length = numValuesInVector then s else filled).unshiftCountEnd grant count

/-! ## Shifting -/

/-- The values in so many slots from one on are taken from the number of values. -/
def uncount (s : AllocatedArray V) : ℕ → ℕ → ℕ → Option ℕ
  | 0, _, numValuesInVector => some numValuesInVector
  | count + 1, i, numValuesInVector =>
    if i < s.vectorLength then
      match s.slot i with
      | none => none
      | some none => s.uncount count (i + 1) numValuesInVector
      | some (some _) => (unsignedSub numValuesInVector 1).bind (s.uncount count (i + 1))
    else s.uncount count (i + 1) numValuesInVector

/-- With holes, only the values in the first slots are taken from the number. -/
def uncountValues (hasHoles : Bool) (count numValuesInVector : ℕ) (s : AllocatedArray V) :
    Option ℕ :=
  if hasHoles then s.uncount count 0 numValuesInVector else unsignedSub numValuesInVector count

/-- `shiftCount` after the loop over the holes, if there was one. -/
def shiftCountEnd (hasHoles : Bool) (count : ℕ) (s : AllocatedArray V) :
    Option (AllocatedArray V) := do
  let (length, numValuesInVector) ← s.lengths
  let numValuesInVector ← s.uncountValues hasHoles count numValuesInVector
  let length ← unsignedSub length count
  let s ← s.setLengths length numValuesInVector
  let count := min s.vectorLength count
  if s.vectorLength - count = 0 then some { s with vectorLength := 0 }
  else do
    let words ← moveWords s.allocation.words (s.storage + count) s.allocation.words s.storage 2
    let indexBias ← unsignedAdd s.indexBias count
    some { (s.withWords words) with
      storage := s.storage + count, vectorLength := s.vectorLength - count, indexBias }

def shiftCount (count : ℕ) (s filled : AllocatedArray V) : Option (AllocatedArray V) := do
  let (length, numValuesInVector) ← s.lengths
  if length = 0 then some s
  else if length = numValuesInVector then s.shiftCountEnd false count
  else filled.shiftCountEnd true count

/-! ## What else happens to the storage -/

/-- Other code writes the lengths and the slots of the vector. -/
def write (length numValuesInVector : ℕ) (slots : List (Option V)) (s : AllocatedArray V) :
    Option (AllocatedArray V) := do
  let s ← s.setLengths length numValuesInVector
  let words ← moveWords s.allocation.words (s.storage + 2) (slots.map .slot) 0 slots.length
  some (s.withWords words)

/-- The sparse mode begins with a vector that is empty. -/
def enterDictionaryMode (grant : Grant V) (s : AllocatedArray V) : Option (AllocatedArray V) := do
  let size ← storageSize 0
  let words ← moveWords ((List.range size).map grant.fresh) 0 s.allocation.words s.storage size
  setAllocBase grant.base
    { allocation := ⟨grant.base, words⟩, storage := 0, vectorLength := 0, indexBias := 0 }

/-- The collector copies the allocation, as far as the vector reaches. -/
def visitChildren (grant : Grant V) (s : AllocatedArray V) : Option (AllocatedArray V) := do
  let capacity ← unsignedAdd s.vectorLength s.indexBias
  let size ← storageSize capacity
  let words ← moveWords ((List.range size).map grant.fresh) 0 s.allocation.words 0 size
  setAllocBase grant.base { s with allocation := ⟨grant.base, words⟩, storage := s.indexBias }

end AllocatedArray

end JavaScriptCore
end WebKit
