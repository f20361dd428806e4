import Mathlib.Data.BitVec
import WebKit.Library.KeyIndex
import WebKit.Library.Tiling

/-!
# The allocator of executable memory

`MetaAllocator` hands out intervals of reserved address space.  A free interval is a node that three
structures point to: a tree ordered by size, from which `allocate` takes the least that is large
enough, and two hash maps that find the neighbours of what is released.

Regions lie in the lower half of the address space and do not start at the null pointer, so arithmetic
on them does not overflow and every address is a proper key.  A size that a caller asks for may be
anything, so what is computed from it is written modulo `2 ^ 64`.  Which of several nodes of one size
the tree finds depends on its shape and is given with the step.
-/

namespace WebKit
namespace WTF

open Tiling

/-- Numbers of type `size_t` and addresses are below this one. -/
def sizeLimit : ℕ := 2 ^ 64

/-- Regions end at or below this address. -/
def addressLimit : ℕ := 2 ^ 63

/-- A pointer to a `FreeSpaceNode`. -/
abbrev NodeID := ℕ

/-- What a `FreeSpaceNode` says: `m_start` and `m_sizeInBytes`. -/
abbrev FreeSpaceNode := Extent

/-- What a `MetaAllocatorHandle` says: `m_start` and `m_sizeInBytes`. -/
abbrev MetaAllocatorHandle := Extent

/-- The nodes in the tree, each with the key that it had when it was inserted. -/
structure Tree where
  nodes : Finset NodeID := ∅
  key : NodeID → ℕ := fun _ => 0

namespace Tree

def insert (t : Tree) (n : NodeID) (key : ℕ) : Tree where
  nodes := Insert.insert n t.nodes
  key := Function.update t.key n key

def remove (t : Tree) (n : NodeID) : Tree := { t with nodes := t.nodes.erase n }

/-- What `findLeastGreaterThanOrEqual` may return. -/
def FindsLeastGreaterThanOrEqual (t : Tree) (key : ℕ) : Option NodeID → Prop
  | none => ∀ n ∈ t.nodes, t.key n < key
  | some n => n ∈ t.nodes ∧ key ≤ t.key n ∧ ∀ m ∈ t.nodes, key ≤ t.key m → t.key n ≤ t.key m

end Tree

/-- The sizes that the constructor asserts to be powers of two below `2 ^ 32`. -/
structure Sizes where
  logAllocationGranule : ℕ
  logPageSize : ℕ
  logAllocationGranule_lt : logAllocationGranule < 32
  logPageSize_lt : logPageSize < 32

namespace Sizes

def allocationGranule (s : Sizes) : ℕ := 1 <<< s.logAllocationGranule

def pageSize (s : Sizes) : ℕ := 1 <<< s.logPageSize

/-- `none` is a call of `CRASH`. -/
def roundUp (s : Sizes) (sizeInBytes : ℕ) : Option ℕ :=
  if sizeLimit - 1 - s.allocationGranule ≤ sizeInBytes then none
  else some (BitVec.ofNat 64 (sizeInBytes + s.allocationGranule - 1)
    &&& ~~~(BitVec.ofNat 64 (s.allocationGranule - 1))).toNat

end Sizes

structure MetaAllocator where
  node : NodeID → FreeSpaceNode := fun _ => ⟨0, 0⟩
  /-- Nodes from this one on were not allocated yet. -/
  nextNode : NodeID := 0
  freeSpaceSizeMap : Tree := {}
  freeSpaceStartAddressMap : ℕ → Option NodeID := fun _ => none
  freeSpaceEndAddressMap : ℕ → Option NodeID := fun _ => none
  pageOccupancyMap : ℕ → Option ℕ := fun _ => none
  bytesAllocated : ℕ := 0
  bytesReserved : ℕ := 0
  bytesCommitted : ℕ := 0

namespace MetaAllocator

/-! ## The structures that point to the nodes -/

section Maps

variable (a : MetaAllocator)

def setNode (n : NodeID) (node : FreeSpaceNode) : MetaAllocator :=
  { a with node := Function.update a.node n node }

def insertSize (n : NodeID) : MetaAllocator :=
  { a with freeSpaceSizeMap := a.freeSpaceSizeMap.insert n (a.node n).size }

def removeSize (n : NodeID) : MetaAllocator :=
  { a with freeSpaceSizeMap := a.freeSpaceSizeMap.remove n }

def addStart (address : ℕ) (n : NodeID) : MetaAllocator :=
  { a with freeSpaceStartAddressMap := KeyIndex.add a.freeSpaceStartAddressMap address n }

def removeStart (address : ℕ) : MetaAllocator :=
  { a with freeSpaceStartAddressMap := KeyIndex.remove a.freeSpaceStartAddressMap address }

def addEnd (address : ℕ) (n : NodeID) : MetaAllocator :=
  { a with freeSpaceEndAddressMap := KeyIndex.add a.freeSpaceEndAddressMap address n }

def removeEnd (address : ℕ) : MetaAllocator :=
  { a with freeSpaceEndAddressMap := KeyIndex.remove a.freeSpaceEndAddressMap address }

/-- The free intervals. -/
def freeSpace : Multiset Extent := a.freeSpaceSizeMap.nodes.val.map a.node

def debugFreeSpaceSize : ℕ := totalSize a.freeSpace

end Maps

/-! ## Pages -/

section Pages

variable (s : Sizes) (a : MetaAllocator)

variable (address sizeInBytes : ℕ)

/-- The pages from the one of the first byte to the one of the last. -/
def pages : List ℕ :=
  let firstPage := address >>> s.logPageSize
  let lastPage := ((address + sizeInBytes - 1) % sizeLimit) >>> s.logPageSize
  List.range' firstPage (lastPage + 1 - firstPage)

def incrementPage (a : MetaAllocator) (page : ℕ) : MetaAllocator :=
  match a.pageOccupancyMap page with
  | none =>
    { a with
      pageOccupancyMap := Function.update a.pageOccupancyMap page (some 1)
      bytesCommitted := a.bytesCommitted + s.pageSize }
  | some count =>
    { a with pageOccupancyMap := Function.update a.pageOccupancyMap page (some (count + 1)) }

def incrementPageOccupancy : MetaAllocator :=
  (pages s address sizeInBytes).foldl (incrementPage s) a

/-- The source asserts that the page is in the map. -/
def decrementPage (a : MetaAllocator) (page : ℕ) : MetaAllocator :=
  match a.pageOccupancyMap page with
  | none => a
  | some count =>
    if count - 1 = 0 then
      { a with
        pageOccupancyMap := Function.update a.pageOccupancyMap page none
        bytesCommitted := a.bytesCommitted - s.pageSize }
    else
      { a with pageOccupancyMap := Function.update a.pageOccupancyMap page (some (count - 1)) }

def decrementPageOccupancy : MetaAllocator :=
  (pages s address sizeInBytes).foldl (decrementPage s) a

end Pages

/-! ## Free space -/

section FreeSpace

variable (s : Sizes) (a : MetaAllocator)

variable (start sizeInBytes : ℕ)

def addFreeSpace : MetaAllocator :=
  let stop := start + sizeInBytes
  match a.freeSpaceEndAddressMap start, a.freeSpaceStartAddressMap stop with
  | some leftNode, some rightNode =>
    let left := a.node leftNode
    let right := a.node rightNode
    let rightEnd := stop + right.size
    a |>.removeSize leftNode |>.removeEnd left.stop
      |>.removeSize rightNode |>.removeStart stop |>.removeEnd rightEnd
      |>.setNode leftNode { left with size := left.size + (sizeInBytes + right.size) }
      |>.insertSize leftNode |>.addEnd rightEnd leftNode
  | some leftNode, none =>
    let left := a.node leftNode
    a |>.removeSize leftNode |>.removeEnd left.stop
      |>.setNode leftNode { left with size := left.size + sizeInBytes }
      |>.insertSize leftNode |>.addEnd stop leftNode
  | none, some rightNode =>
    let right := a.node rightNode
    a |>.removeSize rightNode |>.removeStart stop
      |>.setNode rightNode { start, size := right.size + sizeInBytes }
      |>.insertSize rightNode |>.addStart start rightNode
  | none, none =>
    let n := a.nextNode
    { a with nextNode := n + 1 } |>.setNode n { start, size := sizeInBytes }
      |>.insertSize n |>.addStart start n |>.addEnd stop n

def addFreeSpaceFromReleasedHandle : MetaAllocator :=
  { a with bytesAllocated := a.bytesAllocated - sizeInBytes }.addFreeSpace start sizeInBytes

def addFreshFreeSpace : MetaAllocator :=
  { a with bytesReserved := a.bytesReserved + sizeInBytes }.addFreeSpace start sizeInBytes

/-- `found` is what the tree finds; the result is null when it finds nothing. -/
def findAndRemoveFreeSpace (found : Option NodeID) (sizeInBytes : ℕ) : ℕ × MetaAllocator :=
  match found with
  | none => (0, a)
  | some n =>
    let node := a.node n
    if node.size = sizeInBytes then
      (node.start, a |>.removeSize n |>.removeStart node.start |>.removeEnd node.stop)
    else
      let firstPage := node.start >>> s.logPageSize
      let lastPage := (node.start + node.size - 1) >>> s.logPageSize
      let lastPageForLeftAllocation := (node.start + sizeInBytes - 1) >>> s.logPageSize
      let firstPageForRightAllocation := (node.start + node.size - sizeInBytes) >>> s.logPageSize
      if lastPageForLeftAllocation - firstPage + 1 ≤ lastPage - firstPageForRightAllocation + 1 then
        let start := node.start + sizeInBytes
        (node.start, a |>.removeSize n |>.removeStart node.start
          |>.setNode n { start, size := node.size - sizeInBytes }
          |>.insertSize n |>.addStart start n)
      else
        let result := node.start + node.size - sizeInBytes
        (result, a |>.removeSize n |>.removeEnd node.stop
          |>.setNode n { node with size := node.size - sizeInBytes }
          |>.insertSize n |>.addEnd result n)

end FreeSpace

/-! ## Handles -/

section Handles

variable (s : Sizes) (a : MetaAllocator)

/-- The number of pages that `allocateNewSpace` is asked for. -/
def requestedNumberOfPages (sizeInBytes : ℕ) : ℕ :=
  ((sizeInBytes + s.pageSize - 1) % sizeLimit) >>> s.logPageSize

/-- The end of `allocate`. -/
def createHandle (start sizeInBytes : ℕ) : MetaAllocatorHandle × MetaAllocator :=
  let a := a.incrementPageOccupancy s start sizeInBytes
  ({ start, size := sizeInBytes },
    { a with bytesAllocated := (a.bytesAllocated + sizeInBytes) % sizeLimit })

/-- `found` is what the tree finds, and `newSpace` the start and the number of pages that
`allocateNewSpace` returns if it returns any.  The result is `none` after a crash; without a handle,
it is the null pointer. -/
def allocate (sizeInBytes : ℕ) (found : Option NodeID) (newSpace : Option (ℕ × ℕ)) :
    Option (Option MetaAllocatorHandle × MetaAllocator) :=
  if sizeInBytes = 0 then some (none, a)
  else match s.roundUp sizeInBytes with
    | none => none
    | some sizeInBytes =>
      let (start, a) := a.findAndRemoveFreeSpace s found sizeInBytes
      if start ≠ 0 then
        let (handle, a) := a.createHandle s start sizeInBytes
        some (some handle, a)
      else match newSpace with
        | none => some (none, a)
        | some (start, numberOfPages) =>
          let roundedUpSize := numberOfPages <<< s.logPageSize
          let a := { a with bytesReserved := a.bytesReserved + roundedUpSize }
          let a := if roundedUpSize > sizeInBytes then
              a.addFreeSpace (start + sizeInBytes) (roundedUpSize - sizeInBytes)
            else a
          let (handle, a) := a.createHandle s start sizeInBytes
          some (some handle, a)

/-- `MetaAllocatorHandle::shrink`; the result is `none` after a crash. -/
def shrink (handle : MetaAllocatorHandle) (newSizeInBytes : ℕ) :
    Option (MetaAllocatorHandle × MetaAllocator) :=
  match s.roundUp newSizeInBytes with
  | none => none
  | some newSizeInBytes =>
    if newSizeInBytes = handle.size then some (handle, a)
    else
      let freeStart := handle.start + newSizeInBytes
      let freeSize := handle.size - newSizeInBytes
      let freeEnd := freeStart + freeSize
      let firstCompletelyFreePage := (BitVec.ofNat 64 (freeStart + s.pageSize - 1)
        &&& ~~~(BitVec.ofNat 64 (s.pageSize - 1))).toNat
      let a := if firstCompletelyFreePage < freeEnd then
          a.decrementPageOccupancy s firstCompletelyFreePage
            (freeSize - (firstCompletelyFreePage - freeStart))
        else a
      some ({ handle with size := newSizeInBytes },
        a.addFreeSpaceFromReleasedHandle freeStart freeSize)

/-- `MetaAllocator::release`, which the destructor of a handle calls. -/
def release (handle : MetaAllocatorHandle) : MetaAllocator :=
  if handle.size = 0 then a
  else (a.decrementPageOccupancy s handle.start handle.size).addFreeSpaceFromReleasedHandle
    handle.start handle.size

end Handles

end MetaAllocator

end WTF
end WebKit
