import WebKit.Library.Alignment
import WebKit.WTF.FreeSpace

/-!
# Runs of the allocator

The handles that are alive and the free intervals tile what was reserved, after any calls in any
order.  Two calls break this.  A size within a page of `2 ^ 64` passes the check in `roundUp`, and the
number of pages computed from it wraps around, so the new space is smaller than the handle.  An empty
region that is added becomes an empty node, whose key is in the way of a real one later.
-/

namespace WebKit

open Multiset
namespace WTF

open Tiling

/-! ## The system -/

/-- The allocator with the handles that are alive and the regions that were reserved for it. -/
structure System where
  allocator : MetaAllocator := {}
  handles : Multiset MetaAllocatorHandle := 0
  reserved : Multiset Extent := 0

inductive Event where
  /-- `found` is what the tree finds, and `newSpace` the start and number of pages of a new region. -/
  | allocate (sizeInBytes : ℕ) (found : Option NodeID) (newSpace : Option (ℕ × ℕ))
  | shrink (handle : MetaAllocatorHandle) (newSizeInBytes : ℕ)
  /-- The last reference to the handle goes. -/
  | release (handle : MetaAllocatorHandle)
  | addFreshFreeSpace (start sizeInBytes : ℕ)

section Step

variable (s : Sizes)

/-- The region that `allocateNewSpace` returns, if `allocate` calls it. -/
def newRegion (a : MetaAllocator) (sizeInBytes : ℕ) (found : Option NodeID)
    (newSpace : Option (ℕ × ℕ)) : Option Extent :=
  if (a.findAndRemoveFreeSpace s found sizeInBytes).1 ≠ 0 then none
  else newSpace.map fun space => ⟨space.1, space.2 <<< s.logPageSize⟩

/-- A region of memory that meets no region reserved so far, and not page 0, which is the empty key of
the map of pages. -/
def Fresh (σ : System) (I : Extent) : Prop :=
  s.pageSize ≤ I.start ∧ I.stop ≤ addressLimit ∧ ∀ x, I.Contains x → coverage σ.reserved x = 0

/-- What the callers, the tree and `allocateNewSpace` promise. -/
def Enabled (σ : System) : Event → Prop
  | .allocate sizeInBytes found newSpace => sizeInBytes ≠ 0 → ∀ size,
    s.roundUp sizeInBytes = some size → σ.allocator.freeSpaceSizeMap.FindsLeastGreaterThanOrEqual size found
      ∧ ∀ start numberOfPages, newSpace = some (start, numberOfPages) →
        MetaAllocator.requestedNumberOfPages s size ≤ numberOfPages ∧ s.pageSize ∣ start
          ∧ Fresh s σ ⟨start, numberOfPages <<< s.logPageSize⟩
  | .shrink handle newSizeInBytes => handle ∈ σ.handles ∧ newSizeInBytes ≤ handle.size
  | .release handle => handle ∈ σ.handles
  | .addFreshFreeSpace start sizeInBytes => Fresh s σ ⟨start, sizeInBytes⟩

/-- The result is `none` after a crash. -/
def step (σ : System) : Event → Option System
  | .allocate sizeInBytes found newSpace =>
    match σ.allocator.allocate s sizeInBytes found newSpace with
    | none => none
    | some (none, a) => some { σ with allocator := a }
    | some (some handle, a) => some
        { allocator := a
          handles := handle ::ₘ σ.handles
          reserved := match s.roundUp sizeInBytes with
            | none => σ.reserved
            | some size => match newRegion s σ.allocator size found newSpace with
              | none => σ.reserved
              | some region => region ::ₘ σ.reserved }
  | .shrink handle newSizeInBytes =>
    match σ.allocator.shrink s handle newSizeInBytes with
    | none => none
    | some (handle', a) => some
        { σ with allocator := a, handles := handle' ::ₘ σ.handles.erase handle }
  | .release handle => some
      { σ with allocator := σ.allocator.release s handle, handles := σ.handles.erase handle }
  | .addFreshFreeSpace start sizeInBytes => some
      { σ with
        allocator := σ.allocator.addFreshFreeSpace start sizeInBytes
        reserved := ⟨start, sizeInBytes⟩ ::ₘ σ.reserved }

/-- The states of the runs whose steps all have the property `P`. -/
inductive Reachable (P : System → Event → Prop) : System → Prop
  | start : Reachable P {}
  | step {σ σ' : System} {e : Event} (h : Reachable P σ) (enabled : Enabled s σ e) (hP : P σ e)
      (hstep : step s σ e = some σ') : Reachable P σ'

/-- The number of bytes asked for does not wrap around when it is rounded up to pages, and no region
that is added is empty. -/
def Moderate (_ : System) : Event → Prop
  | .allocate sizeInBytes _ _ => ∀ size, s.roundUp sizeInBytes = some size →
    size + s.pageSize ≤ sizeLimit
  | .shrink _ _ => True
  | .release _ => True
  | .addFreshFreeSpace _ sizeInBytes => 0 < sizeInBytes

end Step

/-- What is handed out and what is free make up what was reserved, and the free space is indexed as
it should be. -/
structure Sound (σ : System) : Prop where
  /-- No address is in two of the intervals. -/
  disjoint : ∀ x, coverage (σ.handles + σ.allocator.freeSpace) x ≤ 1
  /-- The addresses in the intervals are those of the reserved regions. -/
  covers : ∀ x, coverage (σ.handles + σ.allocator.freeSpace) x = coverage σ.reserved x
  total : σ.allocator.bytesAllocated + σ.allocator.debugFreeSpaceSize = σ.allocator.bytesReserved
  apart : ∀ I ∈ σ.allocator.freeSpace, ∀ J ∈ σ.allocator.freeSpace, I.stop ≠ J.start
  sizes : ∀ n ∈ σ.allocator.freeSpaceSizeMap.nodes,
    σ.allocator.freeSpaceSizeMap.key n = (σ.allocator.node n).size
  starts : ∀ x n, σ.allocator.freeSpaceStartAddressMap x = some n
    ↔ n ∈ σ.allocator.freeSpaceSizeMap.nodes ∧ (σ.allocator.node n).start = x
  ends : ∀ x n, σ.allocator.freeSpaceEndAddressMap x = some n
    ↔ n ∈ σ.allocator.freeSpaceSizeMap.nodes ∧ (σ.allocator.node n).stop = x

/-! ## What a call leaves alone -/

section Frame

/-- The allocators have the same free space. -/
structure SameSpace (a b : MetaAllocator) : Prop where
  node : b.node = a.node
  nextNode : b.nextNode = a.nextNode
  sizeMap : b.freeSpaceSizeMap = a.freeSpaceSizeMap
  startMap : b.freeSpaceStartAddressMap = a.freeSpaceStartAddressMap
  endMap : b.freeSpaceEndAddressMap = a.freeSpaceEndAddressMap

variable {a b c : MetaAllocator}

theorem SameSpace.trans (h : SameSpace a b) (h' : SameSpace b c) : SameSpace a c :=
  ⟨h'.node.trans h.node, h'.nextNode.trans h.nextNode, h'.sizeMap.trans h.sizeMap,
    h'.startMap.trans h.startMap, h'.endMap.trans h.endMap⟩

theorem SameSpace.freeSpace (h : SameSpace a b) : b.freeSpace = a.freeSpace := by
  unfold MetaAllocator.freeSpace
  rw [h.node, h.sizeMap]

theorem SameSpace.kept (h : SameSpace a b) (hkept : Kept a) : Kept b := by
  obtain ⟨⟨hsizes, hstarts, hends, hallocated⟩, ⟨hpos, hapart⟩⟩ := hkept
  rw [← h.sizeMap, ← h.node] at hsizes hpos hapart
  rw [← h.sizeMap, ← h.node, ← h.startMap] at hstarts
  rw [← h.sizeMap, ← h.node, ← h.endMap] at hends
  rw [← h.sizeMap, ← h.nextNode] at hallocated
  exact ⟨⟨hsizes, hstarts, hends, hallocated⟩, ⟨hpos, hapart⟩⟩

namespace MetaAllocator

variable (s : Sizes) (a : MetaAllocator)

/-- The pages are counted apart from everything else. -/
theorem sameSpace_incrementPage (page : ℕ) : SameSpace a (incrementPage s a page)
    ∧ (incrementPage s a page).bytesAllocated = a.bytesAllocated
    ∧ (incrementPage s a page).bytesReserved = a.bytesReserved := by
  unfold incrementPage
  split <;> exact ⟨⟨rfl, rfl, rfl, rfl, rfl⟩, rfl, rfl⟩

theorem sameSpace_decrementPage (page : ℕ) : SameSpace a (decrementPage s a page)
    ∧ (decrementPage s a page).bytesAllocated = a.bytesAllocated
    ∧ (decrementPage s a page).bytesReserved = a.bytesReserved := by
  unfold decrementPage
  split
  · exact ⟨⟨rfl, rfl, rfl, rfl, rfl⟩, rfl, rfl⟩
  · split <;> exact ⟨⟨rfl, rfl, rfl, rfl, rfl⟩, rfl, rfl⟩

/-- A loop over pages that each leave the free space alone. -/
theorem sameSpace_foldl {f : MetaAllocator → ℕ → MetaAllocator}
    (hf : ∀ a page, SameSpace a (f a page) ∧ (f a page).bytesAllocated = a.bytesAllocated
      ∧ (f a page).bytesReserved = a.bytesReserved) (l : List ℕ) (a : MetaAllocator) :
    SameSpace a (l.foldl f a) ∧ (l.foldl f a).bytesAllocated = a.bytesAllocated
      ∧ (l.foldl f a).bytesReserved = a.bytesReserved := by
  induction l generalizing a with
  | nil => exact ⟨⟨rfl, rfl, rfl, rfl, rfl⟩, rfl, rfl⟩
  | cons page l ih =>
    obtain ⟨hspace, hallocated, hreserved⟩ := hf a page
    obtain ⟨hspace', hallocated', hreserved'⟩ := ih (f a page)
    exact ⟨hspace.trans hspace', hallocated'.trans hallocated, hreserved'.trans hreserved⟩

theorem bytes_addFreeSpace (start sizeInBytes : ℕ) :
    (a.addFreeSpace start sizeInBytes).bytesAllocated = a.bytesAllocated
      ∧ (a.addFreeSpace start sizeInBytes).bytesReserved = a.bytesReserved := by
  unfold addFreeSpace
  dsimp only
  split <;> exact ⟨rfl, rfl⟩

theorem bytes_findAndRemoveFreeSpace (found : Option NodeID) (sizeInBytes : ℕ) :
    (a.findAndRemoveFreeSpace s found sizeInBytes).2.bytesAllocated = a.bytesAllocated
      ∧ (a.findAndRemoveFreeSpace s found sizeInBytes).2.bytesReserved = a.bytesReserved := by
  unfold findAndRemoveFreeSpace
  split
  · exact ⟨rfl, rfl⟩
  · dsimp only
    split
    · exact ⟨rfl, rfl⟩
    · split <;> exact ⟨rfl, rfl⟩

end MetaAllocator

end Frame

/-! ## Rounding -/

section Rounding

variable {s : Sizes}

theorem allocationGranule_eq (s : Sizes) : s.allocationGranule = 2 ^ s.logAllocationGranule :=
  Nat.one_shiftLeft _

theorem pageSize_eq (s : Sizes) : s.pageSize = 2 ^ s.logPageSize := Nat.one_shiftLeft _

variable {n size : ℕ}

variable (h : s.roundUp n = some size)

include h

/-- A size is rounded up to the least multiple of the granule. -/
theorem roundUp_eq :
    size = (n + s.allocationGranule - 1) / s.allocationGranule * s.allocationGranule := by
  unfold Sizes.roundUp at h
  split at h
  · cases h
  · rename_i hle
    have hlt : n + s.allocationGranule - 1 < 2 ^ 64 := by
      unfold sizeLimit at hle
      omega
    rw [← Option.some.inj h]
    rw [allocationGranule_eq] at hlt ⊢
    exact Alignment.toNat_and_not_mask hlt

omit h in
theorem allocationGranule_pos (s : Sizes) : 0 < s.allocationGranule := by
  rw [allocationGranule_eq]
  exact Nat.two_pow_pos _

theorem le_roundUp : n ≤ size :=
  roundUp_eq h ▸ Alignment.le_div_mul (allocationGranule_pos s) n

theorem dvd_roundUp : s.allocationGranule ∣ size :=
  roundUp_eq h ▸ Nat.dvd_mul_left _ _

theorem roundUp_le (hle : n ≤ m) (hdvd : s.allocationGranule ∣ m) : size ≤ m :=
  roundUp_eq h ▸ Alignment.div_mul_le (allocationGranule_pos s) hle hdvd

omit h

theorem pageSize_pos (s : Sizes) : 0 < s.pageSize := by
  rw [pageSize_eq]
  exact Nat.two_pow_pos _

/-- The pages asked for hold the bytes, unless their number wraps around. -/
theorem le_requestedNumberOfPages (h : size + s.pageSize ≤ sizeLimit)
    (hle : MetaAllocator.requestedNumberOfPages s size ≤ numberOfPages) :
    size ≤ numberOfPages <<< s.logPageSize := by
  have hpos := pageSize_pos s
  have hround := Alignment.le_div_mul hpos size
  unfold MetaAllocator.requestedNumberOfPages at hle
  rw [Nat.mod_eq_of_lt (by omega), Nat.shiftRight_eq_div_pow, ← pageSize_eq] at hle
  rw [Nat.shiftLeft_eq, ← pageSize_eq]
  exact hround.trans (Nat.mul_le_mul_right _ hle)

end Rounding

/-! ## The invariant -/

/-- What holds between two calls. -/
structure Accounted (s : Sizes) (σ : System) : Prop where
  kept : Kept σ.allocator
  tiles : Tiles (σ.handles + σ.allocator.freeSpace) σ.reserved
  bytesAllocated : σ.allocator.bytesAllocated = totalSize σ.handles
  bytesReserved : σ.allocator.bytesReserved
    = totalSize σ.handles + totalSize σ.allocator.freeSpace
  granules : ∀ h ∈ σ.handles, s.allocationGranule ∣ h.size
  regions : ∀ I ∈ σ.reserved, 0 < I.start ∧ I.stop ≤ addressLimit

namespace Accounted

variable {s : Sizes} {σ : System}

theorem start (s : Sizes) : Accounted s {} where
  kept :=
    { indexed := ⟨nofun, fun _ _ => ⟨nofun, nofun⟩, fun _ _ => ⟨nofun, nofun⟩, nofun⟩
      separate := ⟨nofun, nofun⟩ }
  tiles := .zero
  bytesAllocated := rfl
  bytesReserved := rfl
  granules := nofun
  regions := nofun

section

variable (h : Accounted s σ)
include h

theorem sound : Sound σ where
  disjoint := h.tiles.disjoint
  covers := h.tiles.covers
  total := by
    rw [h.bytesAllocated, h.bytesReserved]
    rfl
  apart := by
    intro I hI J hJ
    obtain ⟨m, hm, rfl⟩ := MetaAllocator.exists_of_mem_freeSpace hI
    obtain ⟨n, hn, rfl⟩ := MetaAllocator.exists_of_mem_freeSpace hJ
    exact h.kept.separate.apart m hm n hn
  sizes := h.kept.indexed.sizes
  starts := h.kept.indexed.starts
  ends := h.kept.indexed.ends

theorem freeSpace_disjoint (x : ℕ) : coverage σ.allocator.freeSpace x ≤ 1 := by
  have hle := h.tiles.disjoint x
  rw [coverage_add] at hle
  omega

/-- No free interval starts at the null pointer. -/
theorem start_pos
    (hn : n ∈ σ.allocator.freeSpaceSizeMap.nodes) : 0 < (σ.allocator.node n).start := by
  obtain ⟨J, hJ, hx⟩ := h.tiles.exists_contains
    (mem_add.mpr (.inr (MetaAllocator.mem_freeSpace hn)))
    (Extent.contains_start _ (h.kept.separate.pos n hn))
  exact (h.regions J hJ).1.trans_le hx.1

theorem regions_cons {I : Extent} (hI : Fresh s σ I) :
    ∀ J ∈ I ::ₘ σ.reserved, 0 < J.start ∧ J.stop ≤ addressLimit := by
  intro J hJ
  rcases mem_cons.mp hJ with rfl | hJ
  · exact ⟨(pageSize_pos s).trans_le hI.1, hI.2.1⟩
  · exact h.regions J hJ

end

variable {size sizeInBytes : ℕ} {σ' : System} {handle : MetaAllocatorHandle}

variable {a : MetaAllocator} {handles : Multiset Extent} {newSpace : Option (ℕ × ℕ)}

/-- A handle is created for an interval that is tiled with the others. -/
theorem createHandle {reserved : Multiset Extent}
    {start : ℕ} (hkept : Kept a)
    (htiles : Tiles ((⟨start, size⟩ ::ₘ handles) + a.freeSpace) reserved)
    (hallocated : a.bytesAllocated = totalSize handles)
    (hreserved : a.bytesReserved = size + totalSize handles + totalSize a.freeSpace)
    (hgranules : ∀ h ∈ handles, s.allocationGranule ∣ h.size) (hsize : s.allocationGranule ∣ size)
    (hregions : ∀ I ∈ reserved, 0 < I.start ∧ I.stop ≤ addressLimit) :
    Accounted s
      { allocator := (a.createHandle s start size).2, handles := ⟨start, size⟩ ::ₘ handles,
        reserved } := by
  obtain ⟨hspace, hbytes, hbytes'⟩ := MetaAllocator.sameSpace_foldl
    (MetaAllocator.sameSpace_incrementPage s) (MetaAllocator.pages s start size) a
  have hspace : SameSpace a (a.createHandle s start size).2 := { hspace with }
  have hfree := hspace.freeSpace
  have htotal := htiles.totalSize_le fun I hI => (hregions I hI).2
  rw [totalSize_add, totalSize_cons] at htotal
  refine ⟨hspace.kept hkept, ?_, ?_, ?_, ?_, hregions⟩
  · rw [hfree]
    exact htiles
  · show ((a.incrementPageOccupancy s start size).bytesAllocated + size) % sizeLimit = _
    unfold MetaAllocator.incrementPageOccupancy
    rw [hbytes, hallocated, totalSize_cons, Nat.add_comm]
    refine Nat.mod_eq_of_lt ?_
    unfold addressLimit at htotal
    unfold sizeLimit
    simp only at htotal ⊢
    omega
  · show (a.incrementPageOccupancy s start size).bytesReserved = _
    unfold MetaAllocator.incrementPageOccupancy
    rw [hbytes', hreserved, totalSize_cons, hfree]
  · intro h hh
    rcases mem_cons.mp hh with rfl | hh
    · exact hsize
    · exact hgranules h hh

variable (h : Accounted s σ)

include h

/-- `allocate` takes free space. -/
theorem allocate_found (hround : s.roundUp sizeInBytes = some size) (hpos : sizeInBytes ≠ 0)
    (hfound : σ.allocator.freeSpaceSizeMap.FindsLeastGreaterThanOrEqual size (some n))
    (hstep : step s σ (.allocate sizeInBytes (some n) newSpace) = some σ') : Accounted s σ' := by
  have hsize := (Nat.pos_of_ne_zero hpos).trans_le (le_roundUp hround)
  obtain ⟨hkept, hrecuts, hle⟩ := MetaAllocator.findAndRemoveFreeSpace_some (s := s) h.kept
    h.freeSpace_disjoint hsize hfound
  obtain ⟨hallocated, hreserved⟩ :=
    MetaAllocator.bytes_findAndRemoveFreeSpace s σ.allocator (some n) size
  have hstart : (σ.allocator.findAndRemoveFreeSpace s (some n) size).1 ≠ 0 :=
    ((h.start_pos hfound.1).trans_le hle).ne'
  have hnone : newRegion s σ.allocator size (some n) newSpace = none := if_pos hstart
  unfold step MetaAllocator.allocate at hstep
  simp only [if_neg hpos, hround, if_pos hstart, hnone, Option.some.injEq] at hstep
  subst hstep
  have htotal := hrecuts.totalSize_eq
  rw [totalSize_cons] at htotal
  refine createHandle hkept (h.tiles.congr fun x => ?_) (hallocated.trans h.bytesAllocated) ?_
    h.granules (dvd_roundUp hround) h.regions
  · have hcoverage := hrecuts.coverage_eq x
    rw [coverage_cons] at hcoverage
    rw [coverage_add, coverage_add, coverage_cons, ← hcoverage]
    omega
  · rw [hreserved, h.bytesReserved, ← htotal]
    simp only
    omega

/-- `allocate` takes a new region, of which the rest becomes free. -/
theorem allocate_new {start : ℕ}
    (hround : s.roundUp sizeInBytes = some size) (hpos : sizeInBytes ≠ 0)
    (hle : size ≤ numberOfPages <<< s.logPageSize)
    (hfresh : Fresh s σ ⟨start, numberOfPages <<< s.logPageSize⟩)
    (hstep : step s σ (.allocate sizeInBytes none (some (start, numberOfPages))) = some σ') :
    Accounted s σ' := by
  have hregion : newRegion s σ.allocator size none (some (start, numberOfPages))
      = some ⟨start, numberOfPages <<< s.logPageSize⟩ := rfl
  have hcut : Recuts (⟨start, size⟩ ::ₘ ⟨start + size, numberOfPages <<< s.logPageSize - size⟩
      ::ₘ (σ.handles + σ.allocator.freeSpace))
      (⟨start, numberOfPages <<< s.logPageSize⟩ ::ₘ (σ.handles + σ.allocator.freeSpace)) :=
    Recuts.cut (I := ⟨start, numberOfPages <<< s.logPageSize⟩) hle _
  have htiles := h.tiles.cons hfresh.2.2
  unfold step MetaAllocator.allocate at hstep
  simp only [if_neg hpos, hround, MetaAllocator.findAndRemoveFreeSpace, ne_eq, not_true_eq_false,
    if_false, hregion, Option.some.injEq] at hstep
  subst hstep
  split
  · -- the rest is added to the free space
    rename_i hlt
    have hspace : SameSpace σ.allocator { σ.allocator with
        bytesReserved := σ.allocator.bytesReserved + numberOfPages <<< s.logPageSize } :=
      ⟨rfl, rfl, rfl, rfl, rfl⟩
    have hdisjoint : ∀ x, coverage (⟨start + size, numberOfPages <<< s.logPageSize - size⟩
        ::ₘ σ.allocator.freeSpace) x ≤ 1 := by
      intro x
      have hle := (hcut.coverage_eq x).trans_le (htiles.disjoint x)
      rw [coverage_cons, coverage_cons, coverage_add] at hle
      rw [coverage_cons]
      omega
    obtain ⟨hkept', hrecuts⟩ := MetaAllocator.kept_addFreeSpace (hspace.kept h.kept)
      (Nat.sub_pos_of_lt hlt) hdisjoint
    obtain ⟨hallocated, hreserved⟩ := MetaAllocator.bytes_addFreeSpace { σ.allocator with
      bytesReserved := σ.allocator.bytesReserved + numberOfPages <<< s.logPageSize } (start + size)
      (numberOfPages <<< s.logPageSize - size)
    refine createHandle hkept' (htiles.congr fun x => ?_) (hallocated.trans h.bytesAllocated) ?_
      h.granules (dvd_roundUp hround) (h.regions_cons hfresh)
    · have hfree := hrecuts.coverage_eq x
      have hparts := hcut.coverage_eq x
      rw [coverage_cons] at hfree
      rw [coverage_cons, coverage_cons, coverage_add] at hparts
      have hspaceFree := congrArg (coverage · x) hspace.freeSpace
      rw [coverage_add, coverage_cons, hfree, hspaceFree]
      omega
    · have htotal := hrecuts.totalSize_eq
      rw [totalSize_cons] at htotal
      rw [hreserved, htotal, hspace.freeSpace]
      simp only
      rw [h.bytesReserved]
      omega
  · -- nothing is left over
    rename_i hge
    have heq : numberOfPages <<< s.logPageSize = size := le_antisymm (not_lt.mp hge) hle
    rw [heq] at htiles hfresh ⊢
    have hspace : SameSpace σ.allocator { σ.allocator with
        bytesReserved := σ.allocator.bytesReserved + size } := ⟨rfl, rfl, rfl, rfl, rfl⟩
    refine createHandle (hspace.kept h.kept) ?_ h.bytesAllocated ?_ h.granules
      (dvd_roundUp hround) (h.regions_cons hfresh)
    · rw [cons_add]
      exact htiles
    · show σ.allocator.bytesReserved + size = _ + totalSize σ.allocator.freeSpace
      rw [h.bytesReserved]
      omega

theorem allocate {found : Option NodeID} (he : Enabled s σ (.allocate sizeInBytes found newSpace))
    (hm : Moderate s σ (.allocate sizeInBytes found newSpace))
    (hstep : step s σ (.allocate sizeInBytes found newSpace) = some σ') : Accounted s σ' := by
  by_cases hpos : sizeInBytes = 0
  · unfold step MetaAllocator.allocate at hstep
    simp only [if_pos hpos, Option.some.injEq] at hstep
    exact hstep ▸ h
  · cases hround : s.roundUp sizeInBytes with
    | none =>
      unfold step MetaAllocator.allocate at hstep
      simp only [if_neg hpos, hround, reduceCtorEq] at hstep
    | some size =>
      obtain ⟨hfound, hnew⟩ := he hpos size hround
      cases found with
      | some n => exact h.allocate_found hround hpos hfound hstep
      | none =>
        cases newSpace with
        | some space =>
          obtain ⟨hle, -, hfresh⟩ := hnew space.1 space.2 rfl
          exact h.allocate_new hround hpos (le_requestedNumberOfPages (hm size hround) hle) hfresh
            hstep
        | none =>
          unfold step MetaAllocator.allocate at hstep
          simp only [if_neg hpos, hround, MetaAllocator.findAndRemoveFreeSpace, ne_eq,
            not_true_eq_false, if_false, Option.some.injEq] at hstep
          exact hstep ▸ h

/-- What is given back by a handle becomes free. -/
theorem addFreeSpaceFromReleasedHandle (hspace : SameSpace σ.allocator a)
    (hallocated : a.bytesAllocated = σ.allocator.bytesAllocated)
    (hreserved : a.bytesReserved = σ.allocator.bytesReserved)
    {start : ℕ} (hpos : 0 < size) (hrecuts : Recuts (⟨start, size⟩ ::ₘ handles) σ.handles)
    (hgranules : ∀ h ∈ handles, s.allocationGranule ∣ h.size) :
    Accounted s
      { allocator := a.addFreeSpaceFromReleasedHandle start size, handles,
        reserved := σ.reserved } := by
  have hspace' : SameSpace a { a with bytesAllocated := a.bytesAllocated - size } :=
    ⟨rfl, rfl, rfl, rfl, rfl⟩
  have hkept := (hspace.trans hspace').kept h.kept
  have hcoverage : ∀ x, coverage (⟨start, size⟩ ::ₘ handles) x + coverage a.freeSpace x
      = coverage (σ.handles + σ.allocator.freeSpace) x := by
    intro x
    rw [coverage_add, hspace.freeSpace, hrecuts.coverage_eq]
  have hdisjoint : ∀ x, coverage (⟨start, size⟩ ::ₘ a.freeSpace) x ≤ 1 := by
    intro x
    have hle := (hcoverage x).trans_le (h.tiles.disjoint x)
    rw [coverage_cons] at hle ⊢
    omega
  obtain ⟨hkept', hfree⟩ := MetaAllocator.kept_addFreeSpace hkept hpos hdisjoint
  obtain ⟨hallocated', hreserved'⟩ := MetaAllocator.bytes_addFreeSpace
    { a with bytesAllocated := a.bytesAllocated - size } start size
  have htotal := hrecuts.totalSize_eq
  rw [totalSize_cons] at htotal
  refine ⟨hkept', h.tiles.congr fun x => ?_, ?_, ?_, hgranules, h.regions⟩
  · have hfree := hfree.coverage_eq x
    have hsum := hcoverage x
    rw [coverage_cons] at hfree hsum
    show coverage (handles + MetaAllocator.freeSpace _) x = _
    rw [coverage_add]
    refine (congrArg (_ + ·) hfree).trans ?_
    show _ + (coverage a.freeSpace x + _) = _
    omega
  · refine hallocated'.trans ?_
    rw [hallocated, h.bytesAllocated, ← htotal, Nat.add_sub_cancel_left]
  · refine hreserved'.trans ?_
    refine Eq.trans ?_ (congrArg (_ + ·) hfree.totalSize_eq.symm)
    show _ = _ + totalSize (_ ::ₘ a.freeSpace)
    rw [totalSize_cons, hspace.freeSpace, hreserved, h.bytesReserved, ← htotal]
    simp only
    omega

omit h in
/-- A handle among those that are alive. -/
theorem recuts_erase (hh : handle ∈ σ.handles) :
    Recuts (handle ::ₘ σ.handles.erase handle) σ.handles := by
  rw [cons_erase hh]
  exact .refl _

theorem release (he : Enabled s σ (.release handle))
    (hstep : step s σ (.release handle) = some σ') : Accounted s σ' := by
  obtain rfl := Option.some.inj hstep
  have hgranules : ∀ h ∈ σ.handles.erase handle, s.allocationGranule ∣ h.size :=
    fun _ hh => h.granules _ (mem_of_mem_erase hh)
  have hrecuts := recuts_erase he
  unfold MetaAllocator.release
  split
  · -- an empty handle
    rename_i hempty
    have htotal := hrecuts.totalSize_eq
    rw [totalSize_cons, hempty, Nat.zero_add] at htotal
    refine ⟨h.kept, h.tiles.congr fun x => ?_, h.bytesAllocated.trans htotal.symm, ?_, hgranules,
      h.regions⟩
    · rw [coverage_add, coverage_add, ← hrecuts.coverage_eq, coverage_empty hempty]
    · exact h.bytesReserved.trans (congrArg (· + _) htotal.symm)
  · rename_i hne
    obtain ⟨hspace, hallocated, hreserved⟩ := MetaAllocator.sameSpace_foldl
      (MetaAllocator.sameSpace_decrementPage s)
      (MetaAllocator.pages s handle.start handle.size) σ.allocator
    exact h.addFreeSpaceFromReleasedHandle hspace hallocated hreserved (Nat.pos_of_ne_zero hne)
      hrecuts hgranules

theorem shrink (he : Enabled s σ (.shrink handle newSizeInBytes))
    (hstep : step s σ (.shrink handle newSizeInBytes) = some σ') : Accounted s σ' := by
  obtain ⟨hmem, hle⟩ := he
  unfold step MetaAllocator.shrink at hstep
  cases hround : s.roundUp newSizeInBytes with
  | none => simp only [hround, reduceCtorEq] at hstep
  | some size =>
    have hle := roundUp_le hround hle (h.granules _ hmem)
    simp only [hround] at hstep
    by_cases heq : size = handle.size
    · simp only [if_pos heq, Option.some.injEq, cons_erase hmem] at hstep
      exact hstep ▸ h
    · simp only [if_neg heq, Option.some.injEq] at hstep
      subst hstep
      have hrecuts := (Recuts.cut hle (σ.handles.erase handle)).trans (recuts_erase hmem)
      rw [cons_swap] at hrecuts
      have hgranules : ∀ h ∈ ⟨handle.start, size⟩ ::ₘ σ.handles.erase handle,
          s.allocationGranule ∣ h.size := by
        intro h' hh'
        rcases mem_cons.mp hh' with rfl | hh'
        · exact dvd_roundUp hround
        · exact h.granules _ (mem_of_mem_erase hh')
      have hpos : 0 < handle.size - size := by omega
      split
      · obtain ⟨hspace, hallocated, hreserved⟩ := MetaAllocator.sameSpace_foldl
          (MetaAllocator.sameSpace_decrementPage s) (MetaAllocator.pages s _ _) σ.allocator
        exact h.addFreeSpaceFromReleasedHandle hspace hallocated hreserved hpos hrecuts hgranules
      · exact h.addFreeSpaceFromReleasedHandle ⟨rfl, rfl, rfl, rfl, rfl⟩ rfl rfl hpos hrecuts
          hgranules

theorem addFreshFreeSpace {start : ℕ}
    (he : Enabled s σ (.addFreshFreeSpace start sizeInBytes)) (hpos : 0 < sizeInBytes)
    (hstep : step s σ (.addFreshFreeSpace start sizeInBytes) = some σ') : Accounted s σ' := by
  obtain rfl := Option.some.inj hstep
  have htiles := h.tiles.cons he.2.2
  have hspace : SameSpace σ.allocator { σ.allocator with
      bytesReserved := σ.allocator.bytesReserved + sizeInBytes } := ⟨rfl, rfl, rfl, rfl, rfl⟩
  have hdisjoint : ∀ x, coverage (⟨start, sizeInBytes⟩ ::ₘ σ.allocator.freeSpace) x ≤ 1 := by
    intro x
    have hle := htiles.disjoint x
    rw [coverage_cons, coverage_add] at hle
    rw [coverage_cons]
    omega
  obtain ⟨hkept', hfree⟩ := MetaAllocator.kept_addFreeSpace (hspace.kept h.kept) hpos hdisjoint
  obtain ⟨hallocated, hreserved⟩ := MetaAllocator.bytes_addFreeSpace
    { σ.allocator with bytesReserved := σ.allocator.bytesReserved + sizeInBytes } start sizeInBytes
  refine ⟨hkept', htiles.congr fun x => ?_, hallocated.trans h.bytesAllocated, ?_, h.granules,
    h.regions_cons he⟩
  · have hfree := hfree.coverage_eq x
    rw [coverage_cons] at hfree
    rw [coverage_add, coverage_cons, coverage_add]
    refine (congrArg (_ + ·) hfree).trans ?_
    exact (Nat.add_assoc _ _ _).symm
  · refine hreserved.trans ?_
    refine Eq.trans ?_ (congrArg (_ + ·) hfree.totalSize_eq.symm)
    show _ = _ + totalSize (_ ::ₘ σ.allocator.freeSpace)
    rw [totalSize_cons, h.bytesReserved]
    simp only
    omega

omit h

/-- Every run with moderate sizes keeps the invariant. -/
theorem of_reachable (h : Reachable s (Moderate s) σ) : Accounted s σ := by
  induction h with
  | start => exact start s
  | @step σ σ' e _ enabled hP hstep ih =>
    cases e with
    | allocate sizeInBytes found newSpace => exact ih.allocate enabled hP hstep
    | shrink handle newSizeInBytes => exact ih.shrink enabled hstep
    | release handle => exact ih.release enabled hstep
    | addFreshFreeSpace start sizeInBytes => exact ih.addFreshFreeSpace enabled hP hstep

end Accounted

/-- In every run of allocations of moderate size, shrinkings, releases and additions of nonempty
regions, the handles and the free space make up what was reserved. -/
theorem sound_of_moderate {s : Sizes} {σ : System} (h : Reachable s (Moderate s) σ) : Sound σ :=
  (Accounted.of_reachable h).sound

/-! ## A region, and a size that wraps around -/

/-- Granules of 32 bytes and pages of 4096. -/
def usualSizes : Sizes := ⟨5, 12, by decide, by decide⟩

/-- Two pages are added. -/
def twoPages : Event := .addFreshFreeSpace 4096 8192

def twoPagesAdded : System := (step usualSizes {} twoPages).getD {}

/-- A handle of 64 bytes at the start of the pages, and what is left of it after its shrinking. -/
def pageAllocated : System :=
  (step usualSizes twoPagesAdded (.allocate 64 (some 0) none)).getD {}

def handleShrunk : System := (step usualSizes pageAllocated (.shrink ⟨4096, 64⟩ 32)).getD {}

def handleReleased : System := (step usualSizes handleShrunk (.release ⟨4096, 32⟩)).getD {}

theorem sound_twoPagesAdded : Sound handleReleased := by
  have hadded : step usualSizes {} twoPages = some twoPagesAdded := rfl
  have hallocated : step usualSizes twoPagesAdded (.allocate 64 (some 0) none) =
      some pageAllocated := rfl
  have hshrunk : step usualSizes pageAllocated (.shrink ⟨4096, 64⟩ 32) = some handleShrunk := rfl
  have hreleased : step usualSizes handleShrunk (.release ⟨4096, 32⟩) = some handleReleased := rfl
  have hround : usualSizes.roundUp 64 = some 64 := by decide +kernel
  refine sound_of_moderate (.step (.step (.step (.step .start ?_ ?_ hadded) ?_ ?_ hallocated) ?_ ?_
    hshrunk) ?_ ?_ hreleased)
  · exact ⟨by decide, by decide, fun _ _ => rfl⟩
  · show 0 < 8192
    decide
  · intro _ size hsize
    obtain rfl := Option.some.inj (hround.symm.trans hsize)
    exact ⟨⟨by decide +kernel, by decide +kernel, by decide +kernel⟩, nofun⟩
  · intro size hsize
    obtain rfl := Option.some.inj (hround.symm.trans hsize)
    decide
  · exact ⟨by decide +kernel, by decide⟩
  · trivial
  · show _ ∈ _
    decide +kernel
  · trivial

/-- The size and 4095 more are beyond `2 ^ 64`, so no page is asked for; there comes one. -/
def hugeAllocation : Event := .allocate (2 ^ 64 - 100) none (some (4096, 1))

def overflown : System := (step usualSizes {} hugeAllocation).getD {}

/-- The handle is larger than all that was reserved. -/
theorem not_sound_overflown : Reachable usualSizes (fun _ _ => True) overflown
    ∧ overflown.handles = {⟨4096, 2 ^ 64 - 96⟩} ∧ overflown.reserved = {⟨4096, 4096⟩}
    ∧ ¬ Sound overflown := by
  have hhandles : overflown.handles = {⟨4096, 2 ^ 64 - 96⟩} := by decide +kernel
  have hreserved : overflown.reserved = {⟨4096, 4096⟩} := by decide +kernel
  have hstep : step usualSizes {} hugeAllocation = some overflown := rfl
  refine ⟨.step .start ?_ trivial hstep, hhandles, hreserved, fun h => ?_⟩
  · intro _ size hround
    obtain rfl : 2 ^ 64 - 96 = size := by
      have : usualSizes.roundUp (2 ^ 64 - 100) = some (2 ^ 64 - 96) := by decide +kernel
      exact Option.some.inj (this.symm.trans hround)
    refine ⟨nofun, fun start numberOfPages hspace => ?_⟩
    obtain ⟨rfl, rfl⟩ := Prod.mk.inj (Option.some.inj hspace)
    exact ⟨by decide +kernel, by decide +kernel, by decide, by decide +kernel, fun _ _ => rfl⟩
  · have htotal := h.total
    revert htotal
    decide +kernel

end WTF
end WebKit
