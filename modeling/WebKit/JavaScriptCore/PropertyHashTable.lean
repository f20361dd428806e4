import WebKit.JavaScriptCore.Structure

/-!
# PropertyHashTable

How a `PropertyTable` is stored: an index from hashes to the numbers of values, and after it the
values in the order in which they were added, with one more that stays zero as a guard.  The numbers
begin with 1, as 0 is an empty cell of the index; the number of the guard is in the cells of removed
values.

A pointer to a value is its position in the table.  An operation is `none` when it reads or writes
outside of the index or of the table, or when the loop of `find` makes more probes than there are
cells.
-/

namespace WebKit
namespace JavaScriptCore

/-- A value in memory: zeroes, one whose key is `PROPERTY_MAP_DELETED_ENTRY_KEY`, or an entry. -/
inductive ValueType (Name Cell : Type*)
  | null
  | deleted
  | entry (e : PropertyMapEntry Name Cell)
  deriving DecidableEq

structure PropertyHashTable (Name Cell : Type*) where
  indexSize : ℕ
  index : List ℕ
  table : List (ValueType Name Cell)
  keyCount : ℕ
  deletedCount : ℕ
  deletedOffsets : List ℕ
  deriving DecidableEq

/-- A pointer to a value, or null, and a cell of the index. -/
abbrev FindIterator := Option ℕ × ℕ

def nextPowerOf2 (v : ℕ) : ℕ :=
  let v := (v + (2 ^ 32 - 1)) % 2 ^ 32
  let v := v ||| v >>> 1
  let v := v ||| v >>> 2
  let v := v ||| v >>> 4
  let v := v ||| v >>> 8
  let v := v ||| v >>> 16
  (v + 1) % 2 ^ 32

def doubleHash (key : ℕ) : ℕ :=
  let key := ((2 ^ 32 - 1 - key) + key >>> 23) % 2 ^ 32
  let key := (key ^^^ key <<< 12) % 2 ^ 32
  let key := key ^^^ key >>> 7
  let key := (key ^^^ key <<< 2) % 2 ^ 32
  key ^^^ key >>> 20

namespace PropertyHashTable

variable {Name Cell : Type*}

def minimumTableSize : ℕ := 16

def emptyEntryIndex : ℕ := 0

/-- Rounds up to a power of two. -/
def sizeForCapacity (capacity : ℕ) : ℕ :=
  if capacity < 8 then minimumTableSize
  else nextPowerOf2 ((capacity + 1) % 2 ^ 32) * 2 % 2 ^ 32

section Counts

variable (t : PropertyHashTable Name Cell)

def indexMask : ℕ := (t.indexSize + (2 ^ 32 - 1)) % 2 ^ 32

def tableCapacity : ℕ := t.indexSize >>> 1

def deletedEntryIndex : ℕ := t.tableCapacity + 1

def usedCount : ℕ := t.keyCount + t.deletedCount

def canInsert : Bool := t.usedCount < t.tableCapacity

end Counts

/-- The constructor, with zeroed memory. -/
def ofCapacity (initialCapacity : ℕ) (deletedOffsets : List ℕ) : PropertyHashTable Name Cell where
  indexSize := sizeForCapacity initialCapacity
  index := List.replicate (sizeForCapacity initialCapacity) emptyEntryIndex
  table := List.replicate (sizeForCapacity initialCapacity >>> 1 + 1) .null
  keyCount := 0
  deletedCount := 0
  deletedOffsets

/-! ## Iteration -/

/-- `skipDeletedEntries`, from the values at a position on. -/
def skipDeletedEntries : List (ValueType Name Cell) → ℕ → Option ℕ
  | [], _ => none
  | .deleted :: values, i => skipDeletedEntries values (i + 1)
  | _ :: _, i => some i

section Iteration

variable (t : PropertyHashTable Name Cell)

/-- An iterator at a position, or at the next value that is not deleted. -/
def iterator (i : ℕ) : Option ℕ := skipDeletedEntries (t.table.drop i) i

/-- The entries from an iterator to `end()`, in so many steps at most. -/
def entriesFrom : ℕ → ℕ → Option (List (PropertyMapEntry Name Cell))
  | 0, _ => none
  | fuel + 1, i =>
    if i = t.usedCount then some []
    else
      match t.table[i]? with
      | some (.entry e) =>
        match t.iterator (i + 1) with
        | none => none
        | some j => (entriesFrom fuel j).map (e :: ·)
      | _ => none

/-- The entries from `begin()` to `end()`. -/
def entries : Option (List (PropertyMapEntry Name Cell)) :=
  match t.iterator 0 with
  | none => none
  | some i => t.entriesFrom (t.usedCount + 1) i

end Iteration

variable [DecidableEq Name]

/-- The key of the value in memory is this one. -/
def ValueType.hasKey (key : Name) : ValueType Name Cell → Bool
  | .entry e => e.key = key
  | _ => false

section Hashes

variable (existingHash : Name → UInt32)

/-- The loop of `find`, with the number of probes. -/
def findLoop (key : Name) (t : PropertyHashTable Name Cell) : ℕ → ℕ → ℕ → Option FindIterator
  | 0, _, _ => none
  | probes + 1, hash, step =>
    match t.index[hash &&& t.indexMask]? with
    | none => none
    | some entryIndex =>
      if entryIndex = emptyEntryIndex then some (none, hash &&& t.indexMask)
      else
        match t.table[entryIndex - 1]? with
        | none => none
        | some value =>
          if ValueType.hasKey key value then some (some (entryIndex - 1), hash &&& t.indexMask)
          else
            let step := if step = 0 then doubleHash (existingHash key).toNat ||| 1 else step
            findLoop key t probes ((hash + step) % 2 ^ 32) step

def find (key : Name) (t : PropertyHashTable Name Cell) : Option FindIterator :=
  findLoop existingHash key t (t.indexSize + 1) (existingHash key).toNat 0

/-- The next value, with its cell of the index. -/
def insertAt (cell : ℕ) (entry : PropertyMapEntry Name Cell) (t : PropertyHashTable Name Cell) :
    Option (PropertyHashTable Name Cell) :=
  if cell < t.index.length ∧ t.usedCount < t.table.length then
    some { t with
      index := t.index.set cell (t.usedCount + 1)
      table := t.table.set t.usedCount (.entry entry)
      keyCount := t.keyCount + 1 }
  else none

def reinsert (t : PropertyHashTable Name Cell) (entry : PropertyMapEntry Name Cell) :
    Option (PropertyHashTable Name Cell) :=
  match t.find existingHash entry.key with
  | none => none
  | some (_, cell) => t.insertAt cell entry

variable (newCapacity : ℕ) (t : PropertyHashTable Name Cell)

/-- A new table of a capacity with the entries of the old one. -/
def rehash : Option (PropertyHashTable Name Cell) :=
  match t.entries with
  | none => none
  | some entries => entries.foldlM (reinsert existingHash) (ofCapacity newCapacity t.deletedOffsets)

/-- The table, and whether the entry was added. -/
def add (entry : PropertyMapEntry Name Cell) (t : PropertyHashTable Name Cell) :
    Option (PropertyHashTable Name Cell × Bool) :=
  match t.find existingHash entry.key with
  | none => none
  | some (some _, _) => some (t, false)
  | some (none, cell) =>
    if t.canInsert then (t.insertAt cell entry).map fun t => (t, true)
    else
      match t.rehash existingHash ((t.keyCount + 1) % 2 ^ 32) with
      | none => none
      | some t => (t.reinsert existingHash entry).map fun t => (t, true)

/-- `remove` at an iterator. -/
def removeAt (iter : FindIterator) (t : PropertyHashTable Name Cell) :
    Option (PropertyHashTable Name Cell) :=
  match iter with
  | (none, _) => some t
  | (some i, cell) =>
    if cell < t.index.length ∧ i < t.table.length then
      let t := { t with
        index := t.index.set cell t.deletedEntryIndex
        table := t.table.set i .deleted
        keyCount := t.keyCount - 1
        deletedCount := t.deletedCount + 1 }
      if t.deletedCount * 4 % 2 ^ 32 ≥ t.indexSize then t.rehash existingHash t.keyCount else some t
    else none

def remove (key : Name) (t : PropertyHashTable Name Cell) : Option (PropertyHashTable Name Cell) :=
  match t.find existingHash key with
  | none => none
  | some iter => t.removeAt existingHash iter

/-- Memory of the same size is copied as it is; otherwise the constructor inserts the entries, as
`rehash` does. -/
def copy : Option (PropertyHashTable Name Cell) :=
  if sizeForCapacity newCapacity = t.indexSize then some t else t.rehash existingHash newCapacity

end Hashes

end PropertyHashTable

end JavaScriptCore
end WebKit
