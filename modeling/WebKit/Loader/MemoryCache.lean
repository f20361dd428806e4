import Mathlib.Data.BitVec
import WebKit.Library.LinkedList

/-!
# The memory cache

`MemoryCache` and what `CachedResource` does to it.  Purgeable memory is not available, so no resource
is made purgeable or purged.

What other code decides is an argument: the part of its decoded data that a resource keeps, whether its
last access is too recent, the product with the floating-point percentage, and a number of iterations
after which a loop over a list is given up.

* `CachedResource`, `MemoryCache`: the resources, and the cache with its lists.
* `evict`, `add`, `resourceAccessed`: what puts resources into lists and takes them out.
* `setDecodedSize`, `setEncodedSize`, `addClientToSet`: what changes a resource.
* `prune`: the loops over the lists.
-/

namespace WebKit
namespace Loader

open LinkedList

abbrev Unsigned := BitVec 32

/-- The links to other resources are in the cache. -/
structure CachedResource (κ υ γ : Type*) where
  url : υ
  inCache : Bool
  accessCount : Unsigned
  encodedSize : Unsigned
  decodedSize : Unsigned
  overheadSize : Unsigned
  /-- A client is there as often as it was added. -/
  clients : List γ
  inLiveDecodedResourcesList : Bool
  loading : Bool
  hasLoader : Bool
  preloadCount : Unsigned
  handleCount : Unsigned
  resourceToRevalidate : Option κ
  proxyResource : Option κ
  cacheControlContainsNoStore : Bool
  protocolIsHTTPS : Bool
  deleted : Bool

namespace CachedResource

variable {κ υ γ : Type*} (resource : CachedResource κ υ γ)

def size : Unsigned := resource.encodedSize + resource.decodedSize + resource.overheadSize

def hasClients : Bool := !resource.clients.isEmpty

def isLoaded : Bool := !resource.loading

def isPreloaded : Bool := resource.preloadCount != 0

def isCacheValidator : Bool := resource.resourceToRevalidate.isSome

def canDelete : Bool :=
  !resource.hasClients && !resource.hasLoader && resource.preloadCount == 0 &&
    resource.handleCount == 0 && resource.resourceToRevalidate.isNone &&
    resource.proxyResource.isNone

end CachedResource

def fastLog2 (i : Unsigned) : ℕ :=
  let log2 := if i &&& (i - 1) ≠ 0 then 1 else 0
  let (log2, i) := if i >>> 16 ≠ 0 then (log2 + 16, i >>> 16) else (log2, i)
  let (log2, i) := if i >>> 8 ≠ 0 then (log2 + 8, i >>> 8) else (log2, i)
  let (log2, i) := if i >>> 4 ≠ 0 then (log2 + 4, i >>> 4) else (log2, i)
  let (log2, i) := if i >>> 2 ≠ 0 then (log2 + 2, i >>> 2) else (log2, i)
  if i >>> 1 ≠ 0 then log2 + 1 else log2

/-- The `queueIndex` of `lruListFor`. -/
def queueIndex {κ υ γ : Type*} (resource : CachedResource κ υ γ) : ℕ :=
  let accessCount := if resource.accessCount < 1 then 1 else resource.accessCount
  fastLog2 (resource.size / accessCount)

/-- The map from URLs is the list of its values, which have the URLs, in the order of its
iterators. -/
structure MemoryCache (κ υ γ : Type*) where
  resource : κ → CachedResource κ υ γ
  resources : List κ
  allLinks : Links κ
  allResources : List (ListEnds κ)
  liveLinks : Links κ
  liveDecodedResources : ListEnds κ
  liveSize : Unsigned
  deadSize : Unsigned
  disabled : Bool
  pruneEnabled : Bool
  inPruneDeadResources : Bool
  capacity : Unsigned
  minDeadCapacity : Unsigned
  maxDeadCapacity : Unsigned

/-- What other code decides while the cache is pruned. -/
structure PruneChoices (κ : Type*) where
  /-- `capacity * cTargetPrunePercentage` -/
  targetSize : Unsigned → Unsigned
  keptDecodedSize : κ → Unsigned
  /-- What a resource keeps when its last client is removed. -/
  keptWithoutClients : κ → Unsigned
  isRecent : κ → Bool
  iterations : ℕ

namespace MemoryCache

variable {κ υ γ : Type*} [DecidableEq κ] [DecidableEq υ] [DecidableEq γ]
  (s : MemoryCache κ υ γ) (x : κ)

def modify (f : CachedResource κ υ γ → CachedResource κ υ γ) : MemoryCache κ υ γ :=
  { s with resource := Function.update s.resource x (f (s.resource x)) }

def adjustSize (live : Bool) (delta : Unsigned) : MemoryCache κ υ γ :=
  if live then { s with liveSize := s.liveSize + delta }
  else { s with deadSize := s.deadSize + delta }

/-! ## The lists -/

/-- A list that is not there is empty. -/
def lruList (i : ℕ) : ListEnds κ := s.allResources.getD i ⟨none, none⟩

/-- The vector, grown so that the index is in it, with new ends of the list there. -/
def setLRUList (i : ℕ) (ends : ListEnds κ) : List (ListEnds κ) :=
  let emptyList : ListEnds κ := ⟨none, none⟩
  (s.allResources ++ List.replicate (i + 1 - s.allResources.length) emptyList).set i ends

def removeFromLRUList : MemoryCache κ υ γ :=
  if (s.resource x).accessCount = 0 then s
  else
    let i := queueIndex (s.resource x)
    let removed := remove s.allLinks (s.lruList i) x
    { s with
      allLinks := removed.1
      allResources := s.setLRUList i removed.2 }

def insertInLRUList : MemoryCache κ υ γ :=
  let i := queueIndex (s.resource x)
  let inserted := pushFront s.allLinks (s.lruList i) x
  { s with
    allLinks := inserted.1
    allResources := s.setLRUList i inserted.2 }

def removeFromLiveDecodedResourcesList : MemoryCache κ υ γ :=
  if !(s.resource x).inLiveDecodedResourcesList then s
  else
    let removed := remove s.liveLinks s.liveDecodedResources x
    { s.modify x fun r => { r with inLiveDecodedResourcesList := false } with
      liveLinks := removed.1
      liveDecodedResources := removed.2 }

def insertInLiveDecodedResourcesList : MemoryCache κ υ γ :=
  let inserted := pushFront s.liveLinks s.liveDecodedResources x
  { s.modify x fun r => { r with inLiveDecodedResourcesList := true } with
    liveLinks := inserted.1
    liveDecodedResources := inserted.2 }

/-! ## The operations of the cache -/

/-- `m_resources.remove` -/
def removeURL (url : υ) : MemoryCache κ υ γ :=
  { s with resources := s.resources.filter fun y => (s.resource y).url ≠ url }

/-- `m_resources.set`, and the flag of the resource. -/
def setResource : MemoryCache κ υ γ :=
  let s' := s.removeURL (s.resource x).url
  { s' with resources := x :: s'.resources }.modify x fun r => { r with inCache := true }

/-- The resource is deleted if it can be. -/
def deleteIfPossible : MemoryCache κ υ γ :=
  if (s.resource x).canDelete then s.modify x fun r => { r with deleted := true } else s

def evict : MemoryCache κ υ γ :=
  let s' :=
    if (s.resource x).inCache then
      let s := s.removeURL (s.resource x).url
      let s := s.modify x fun r => { r with inCache := false }
      let s := s.removeFromLRUList x
      let s := s.removeFromLiveDecodedResourcesList x
      s.adjustSize (s.resource x).hasClients (-(s.resource x).size)
    else s
  s'.deleteIfPossible x

def resourceAccessed : MemoryCache κ υ γ :=
  let s := s.removeFromLRUList x
  let s := if (s.resource x).accessCount = 0 then
      s.adjustSize (s.resource x).hasClients (s.resource x).size
    else s
  let s := s.modify x fun r => { r with accessCount := r.accessCount + 1 }
  s.insertInLRUList x

def add : MemoryCache κ υ γ :=
  if s.disabled then s else (s.setResource x).resourceAccessed x

/-- The loop of `setDisabled`, over the values that the map has at the start. -/
def setDisabled (disabled : Bool) : MemoryCache κ υ γ :=
  let s := { s with disabled }
  if !disabled then s else s.resources.foldl evict s

/-! ## The operations of a resource -/

def setDecodedSize (size : Unsigned) : MemoryCache κ υ γ :=
  let r := s.resource x
  if size = r.decodedSize then s
  else
    let delta := size - r.decodedSize
    let s := if r.inCache then s.removeFromLRUList x else s
    let s := s.modify x fun r => { r with decodedSize := size }
    if r.inCache then
      let s := s.insertInLRUList x
      let s :=
        if size ≠ 0 ∧ !r.inLiveDecodedResourcesList ∧ r.hasClients then
          s.insertInLiveDecodedResourcesList x
        else if size = 0 ∧ r.inLiveDecodedResourcesList then s.removeFromLiveDecodedResourcesList x
        else s
      s.adjustSize r.hasClients delta
    else s

def setEncodedSize (size : Unsigned) : MemoryCache κ υ γ :=
  let r := s.resource x
  if size = r.encodedSize then s
  else
    let delta := size - r.encodedSize
    let s := if r.inCache then s.removeFromLRUList x else s
    let s := s.modify x fun r => { r with encodedSize := size }
    if r.inCache then (s.insertInLRUList x).adjustSize r.hasClients delta else s

def addClientToSet (client : γ) : MemoryCache κ υ γ :=
  let r := s.resource x
  let s := if !r.hasClients && r.inCache then
      { s with liveSize := s.liveSize + r.size, deadSize := s.deadSize - r.size }
    else s
  s.modify x fun r => { r with clients := client :: r.clients }

/-- A resource drops decoded data, if it has more than it keeps. -/
def destroyDecodedData (keptDecodedSize : Unsigned) : MemoryCache κ υ γ :=
  if keptDecodedSize < (s.resource x).decodedSize then s.setDecodedSize x keptDecodedSize else s

/-! ## Pruning -/

section Prune

variable (choices : PruneChoices κ)

def deadCapacity : Unsigned :=
  let capacity := s.capacity - if s.liveSize < s.capacity then s.liveSize else s.capacity
  let capacity := if capacity < s.minDeadCapacity then s.minDeadCapacity else capacity
  if s.maxDeadCapacity < capacity then s.maxDeadCapacity else capacity

def liveCapacity : Unsigned := s.capacity - s.deadCapacity

/-- The loop of `pruneLiveResourcesToSize`, from a resource to the head. -/
def pruneLiveFrom (targetSize : Unsigned) :
    ℕ → MemoryCache κ υ γ → Option κ → Option (MemoryCache κ υ γ)
  | _, s, none => some s
  | 0, _, some _ => none
  | iterations + 1, s, some current =>
    let prev := s.liveLinks.prev current
    if (s.resource current).isLoaded && (s.resource current).decodedSize != 0 then
      if choices.isRecent current then some s
      else
        let s := s.destroyDecodedData current (choices.keptDecodedSize current)
        if targetSize != 0 && decide (s.liveSize ≤ targetSize) then some s
        else pruneLiveFrom targetSize iterations s prev
    else pruneLiveFrom targetSize iterations s prev

def pruneLiveResources : Option (MemoryCache κ υ γ) :=
  if !s.pruneEnabled then some s
  else
    let capacity := s.liveCapacity
    if capacity != 0 && decide (s.liveSize ≤ capacity) then some s
    else
      s.pruneLiveFrom choices (choices.targetSize capacity) choices.iterations
        s.liveDecodedResources.tail

/-- The first loop over a list, which flushes the decoded data, and whether it returns. -/
def flushFrom (targetSize : Unsigned) :
    ℕ → MemoryCache κ υ γ → Option κ → Option (MemoryCache κ υ γ × Bool)
  | _, s, none => some (s, false)
  | 0, _, some _ => none
  | iterations + 1, s, some current =>
    let prev := s.allLinks.prev current
    let r := s.resource current
    if !r.hasClients && !r.isPreloaded && r.isLoaded then
      let s := s.destroyDecodedData current (choices.keptDecodedSize current)
      if targetSize != 0 && decide (s.deadSize ≤ targetSize) then
        some ({ s with inPruneDeadResources := false }, true)
      else flushFrom targetSize iterations s prev
    else flushFrom targetSize iterations s prev

/-- The second loop over a list, which evicts, and whether it returns. -/
def evictFrom (targetSize : Unsigned) :
    ℕ → MemoryCache κ υ γ → Option κ → Option (MemoryCache κ υ γ × Bool)
  | _, s, none => some (s, false)
  | 0, _, some _ => none
  | iterations + 1, s, some current =>
    let prev := s.allLinks.prev current
    let r := s.resource current
    if !r.hasClients && !r.isPreloaded && !r.isCacheValidator then
      let s := s.evict current
      if !s.inPruneDeadResources then some (s, true)
      else if targetSize != 0 && decide (s.deadSize ≤ targetSize) then
        some ({ s with inPruneDeadResources := false }, true)
      else evictFrom targetSize iterations s prev
    else evictFrom targetSize iterations s prev

/-- The loop over the lists, from the last of `count`. -/
def pruneLists (targetSize : Unsigned) : ℕ → Bool → MemoryCache κ υ γ → Option (MemoryCache κ υ γ)
  | 0, _, s => some { s with inPruneDeadResources := false }
  | i + 1, canShrinkLRULists, s => do
    let (s, returns) ← s.flushFrom choices targetSize choices.iterations (s.lruList i).tail
    if returns then return s
    let (s, returns) ← s.evictFrom targetSize choices.iterations (s.lruList i).tail
    if returns then return s
    if (s.lruList i).head.isSome then pruneLists targetSize i false s
    else if canShrinkLRULists then
      pruneLists targetSize i canShrinkLRULists { s with allResources := s.allResources.take i }
    else pruneLists targetSize i canShrinkLRULists s

/-- The resources that were purged are left out. -/
def pruneDeadResourcesToSize (targetSize : Unsigned) : Option (MemoryCache κ υ γ) :=
  if !s.inPruneDeadResources && (targetSize != 0 && decide (s.deadSize ≤ targetSize)) then some s
  else
    pruneLists choices targetSize s.allResources.length true { s with inPruneDeadResources := true }

def pruneDeadResources : Option (MemoryCache κ υ γ) :=
  if !s.pruneEnabled then some s
  else
    let capacity := s.deadCapacity
    if capacity != 0 && decide (s.deadSize ≤ capacity) then some s
    else s.pruneDeadResourcesToSize choices (choices.targetSize capacity)

def prune : Option (MemoryCache κ υ γ) :=
  if decide (s.liveSize + s.deadSize ≤ s.capacity) && s.maxDeadCapacity != 0 &&
      decide (s.deadSize ≤ s.maxDeadCapacity) then some s
  else do
    let s ← s.pruneDeadResources choices
    s.pruneLiveResources choices

def setCapacities (minDeadBytes maxDeadBytes totalBytes : Unsigned) : Option (MemoryCache κ υ γ) :=
  { s with
    minDeadCapacity := minDeadBytes
    maxDeadCapacity := maxDeadBytes
    capacity := totalBytes }.prune choices

def removeClient (client : γ) : Option (MemoryCache κ υ γ) :=
  let s := s.modify x fun r => { r with clients := r.clients.erase client }
  let r := s.resource x
  if r.canDelete && !r.inCache then some (s.modify x fun r => { r with deleted := true })
  else if !r.hasClients && r.inCache then
    let s : MemoryCache κ υ γ :=
      { s with
        liveSize := s.liveSize - r.size
        deadSize := s.deadSize + r.size }
    let s := s.removeFromLiveDecodedResourcesList x
    -- `allClientsRemoved`
    let s := s.destroyDecodedData x (choices.keptWithoutClients x)
    if r.cacheControlContainsNoStore then
      some (if r.protocolIsHTTPS then s.evict x else s)
    else s.prune choices
  else some s

end Prune

/-! ## Revalidation -/

/-- `clearResourceToRevalidate`, where the clients have been switched. -/
def clearResourceToRevalidate : MemoryCache κ υ γ :=
  match (s.resource x).resourceToRevalidate with
  | none => s
  | some resource =>
    let s :=
      if (s.resource resource).proxyResource = some x then
        let s := s.modify resource fun r => { r with proxyResource := none }
        if (s.resource resource).inCache then s else s.deleteIfPossible resource
      else s
    let s := s.modify x fun r => { r with resourceToRevalidate := none }
    if (s.resource x).inCache then s else s.deleteIfPossible x

/-- The clients are added to the resource that was revalidated.  The overhead is that of the updated
response, and the handles have moved. -/
def revalidationSucceeded (overheadSize handleCount : Unsigned) : MemoryCache κ υ γ :=
  match (s.resource x).resourceToRevalidate with
  | none => s
  | some resource =>
    let s := s.evict x
    let s := s.setResource resource
    let s := s.modify resource fun r => { r with overheadSize }
    let s := s.insertInLRUList resource
    let r := s.resource resource
    let s := if r.decodedSize != 0 && r.hasClients then s.insertInLiveDecodedResourcesList resource
      else s
    let s := if r.size ≠ 0 then s.adjustSize r.hasClients r.size else s
    let clientsToMove := (s.resource x).clients
    let s := s.modify resource fun r => { r with handleCount }
    let s := s.modify x fun r => { r with clients := [], handleCount := 0 }
    let s := clientsToMove.foldl (fun s client => s.addClientToSet resource client) s
    s.clearResourceToRevalidate x

end MemoryCache

end Loader
end WebKit
