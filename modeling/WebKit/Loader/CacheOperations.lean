import WebKit.Loader.CacheSizes

/-!
# The operations of the memory cache

Every operation keeps the lists, the map, the flags and the sizes in order.

* `Linked`: the cache between two operations.
* `Linked.evict`, `Linked.resourceAccessed`, `Linked.add`, `Linked.setDecodedSize`,
  `Linked.setEncodedSize`, `Linked.addClientToSet`: each of the operations.
-/

namespace WebKit

open Bool
namespace Loader
namespace MemoryCache

open LinkedList

variable {κ υ γ : Type*} [DecidableEq κ] {s : MemoryCache κ υ γ} {x : κ}

/-- A flagged resource is cached and has clients, and a cached one is not deleted. -/
structure Consistent (r : CachedResource κ υ γ) : Prop where
  flagged : r.inLiveDecodedResourcesList = true → r.hasClients = true ∧ r.inCache = true
  alive : r.inCache = true → r.deleted = false

/-- The cache between two operations: the cached resources are listed and everything is counted. -/
structure Linked (s : MemoryCache κ υ γ) : Prop where
  holds : Holds s (fun x => (s.resource x).inCache = true) fun _ => 0
  consistent : ∀ x, Consistent (s.resource x)

omit [DecidableEq κ] in
/-- The flags and the capacities of the cache do not matter. -/
theorem Linked.congr (h : Linked s) (hresource : s'.resource = s.resource)
    (hresources : s'.resources = s.resources) (hlinks : s'.allLinks = s.allLinks)
    (hall : s'.allResources = s.allResources) (hliveLinks : s'.liveLinks = s.liveLinks)
    (hlive : s'.liveDecodedResources = s.liveDecodedResources) (hliveSize : s'.liveSize = s.liveSize)
    (hdeadSize : s'.deadSize = s.deadSize) : Linked s' where
  holds := by
    rw [hresource]
    refine h.holds.congr (fun y => ?_) hlinks hall hresources (fun live => ?_)
      (h.holds.live.imp fun _ hrep => hrep.congr hliveLinks hlive fun y => by rw [hresource])
    · rw [hresource]
      exact SameData.refl _
    · rw [totalSize, totalSize, hliveSize, hdeadSize]
  consistent := by
    rw [hresource]
    exact h.consistent

/-! ## What changes -/

/-- At most one resource changes. -/
def Changes (s s' : MemoryCache κ υ γ) (x : κ)
    (f : CachedResource κ υ γ → CachedResource κ υ γ) : Prop :=
  s'.resource = Function.update s.resource x (f (s.resource x))

section Changes

variable {s' s'' : MemoryCache κ υ γ} {f g : CachedResource κ υ γ → CachedResource κ υ γ}

variable (h : Changes s s' x f)

include h

theorem Changes.self : s'.resource x = f (s.resource x) := by
  rw [h, Function.update_self]

theorem Changes.of_ne {y : κ} (hy : y ≠ x) :
    s'.resource y = s.resource y := by
  rw [h, Function.update_of_ne hy]

theorem Changes.trans (h' : Changes s' s'' x g) :
    Changes s s'' x fun r => g (f r) := by
  rw [Changes, h', h.self, h, Function.update_idem]

omit h in
theorem Changes.of_eq (h : s'.resource = s.resource) : Changes s s' x id := by
  rw [Changes, h, id, Function.update_eq_self]

theorem Changes.congr (heq : f (s.resource x) = g (s.resource x)) :
    Changes s s' x g := by
  rw [Changes, h, heq]

/-- A property of all resources after the change. -/
theorem Changes.forall {p : CachedResource κ υ γ → Prop}
    (hx : p (f (s.resource x))) (hother : ∀ y, p (s.resource y)) (y : κ) : p (s'.resource y) := by
  by_cases hyx : y = x
  · rw [hyx, h.self]
    exact hx
  · rw [h.of_ne hyx]
    exact hother y

end Changes

theorem changes_modify (f : CachedResource κ υ γ → CachedResource κ υ γ) :
    Changes s (s.modify x f) x f := rfl

theorem changes_removeFromLRUList : Changes s (s.removeFromLRUList x) x id :=
  .of_eq (removeFromLRUList_resource s x)

theorem changes_insertInLRUList : Changes s (s.insertInLRUList x) x id := .of_eq rfl

theorem changes_adjustSize (live : Bool) (delta : Unsigned) :
    Changes s (s.adjustSize live delta) x id :=
  .of_eq (by rw [adjustSize_eq])

/-- The flag of a resource is set or not. -/
def flag (live : Bool) (r : CachedResource κ υ γ) : CachedResource κ υ γ :=
  { r with inLiveDecodedResourcesList := live }

theorem changes_insertInLiveDecodedResourcesList :
    Changes s (s.insertInLiveDecodedResourcesList x) x (flag true) := rfl

theorem changes_removeFromLiveDecodedResourcesList :
    Changes s (s.removeFromLiveDecodedResourcesList x) x (flag false) := by
  rw [removeFromLiveDecodedResourcesList]
  split
  · rename_i hflag
    rw [not_eq_true'] at hflag
    refine Changes.congr (.of_eq rfl) ?_
    rw [← hflag]
    rfl
  · rfl

/-- A resource is deleted if it can be. -/
def deletedIfPossible (r : CachedResource κ υ γ) : CachedResource κ υ γ :=
  { r with deleted := r.canDelete || r.deleted }

theorem changes_deleteIfPossible : Changes s (s.deleteIfPossible x) x deletedIfPossible := by
  rw [deleteIfPossible]
  split
  · rename_i hdelete
    refine (changes_modify _).congr ?_
    rw [deletedIfPossible, hdelete]
    rfl
  · rename_i hdelete
    rw [not_eq_true] at hdelete
    refine Changes.congr (.of_eq rfl) ?_
    rw [deletedIfPossible, hdelete]
    rfl

/-! ## Eviction -/

variable {listed : κ → Prop} {missing : Bool → Unsigned}

theorem Holds.deleteIfPossible (h : Holds s listed missing) (x : κ) :
    Holds (s.deleteIfPossible x) listed missing := by
  rw [MemoryCache.deleteIfPossible]
  split
  · exact h.modify_of_share_eq ⟨rfl, rfl, rfl⟩ (fun _ => ⟨rfl, rfl⟩) fun _ => rfl
  · exact h

section Map

variable [DecidableEq υ]

/-- What eviction does to a cached resource. -/
def evicted (r : CachedResource κ υ γ) : CachedResource κ υ γ :=
  flag false { r with inCache := false }

/-- A cached resource is evicted, before it is deleted. -/
theorem Linked.uncache (h : Linked s) (hcached : (s.resource x).inCache = true) :
    ∃ s', s.evict x = s'.deleteIfPossible x ∧ Changes s s' x evicted ∧
      Holds s' (fun y => (s'.resource y).inCache = true) fun _ => 0 := by
  let s₁ := (s.removeURL (s.resource x).url).modify x fun r => { r with inCache := false }
  let s₂ := s₁.removeFromLRUList x
  let s₃ := s₂.removeFromLiveDecodedResourcesList x
  let s' := s₃.adjustSize (s₃.resource x).hasClients (-(s₃.resource x).size)
  have hchanges₁ : Changes s s₁ x fun r => { r with inCache := false } := rfl
  have hchanges₃ : Changes s s₃ x evicted :=
    (hchanges₁.trans changes_removeFromLRUList).trans changes_removeFromLiveDecodedResourcesList
  have hchanges : Changes s s' x evicted := hchanges₃.trans (changes_adjustSize _ _)
  have hholds := (((h.holds.uncache hcached).removeFromLRUList hcached
    ).removeFromLiveDecodedResourcesList x).adjustSize (s₃.resource x).hasClients
      (-(s₃.resource x).size)
  refine ⟨s', ?_, hchanges, (hholds.congr_listed fun y => ?_).congr_missing fun live => ?_⟩
  · rw [evict, if_pos hcached]
  · by_cases hyx : y = x
    · rw [hyx, hchanges.self]
      exact iff_of_false (fun hy => hy.2 rfl) false_ne_true
    · rw [hchanges.of_ne hyx]
      exact and_iff_left hyx
  · rw [hchanges₃.self]
    change 0 - share live (s.resource x) -
      (if (s.resource x).hasClients = live then -(s.resource x).size else 0) = 0
    rw [share]
    split <;> ring

variable {r : CachedResource κ υ γ}

omit [DecidableEq κ] [DecidableEq υ] in
theorem consistent_of_uncached (hcached : r.inCache = false)
    (hflag : r.inLiveDecodedResourcesList = false) : Consistent r where
  flagged := fun h => absurd (hflag.symm.trans h) false_ne_true
  alive := fun h => absurd (hcached.symm.trans h) false_ne_true

omit [DecidableEq κ] [DecidableEq υ] in
theorem Consistent.flag_of_uncached (h : Consistent r) (hcached : r.inCache = false) :
    r.inLiveDecodedResourcesList = false := by
  rw [← not_eq_true]
  exact fun hflag => false_ne_true (hcached.symm.trans (h.flagged hflag).2)

omit [DecidableEq κ] [DecidableEq υ] in
theorem evicted_of_uncached (hcached : r.inCache = false)
    (hflag : r.inLiveDecodedResourcesList = false) : evicted r = r := by
  cases r
  cases hcached
  cases hflag
  rfl

theorem evict_of_uncached (huncached : (s.resource x).inCache = false) :
    s.evict x = s.deleteIfPossible x := by
  rw [evict, huncached, if_neg Bool.false_ne_true]

omit [DecidableEq υ] in
theorem Linked.deleteIfPossible (h : Linked s) (huncached : (s.resource x).inCache = false) :
    Linked (s.deleteIfPossible x) where
  holds := (h.holds.deleteIfPossible x).congr_listed fun y => by
    by_cases hyx : y = x
    · rw [hyx, changes_deleteIfPossible.self]
      rfl
    · rw [changes_deleteIfPossible.of_ne hyx]
  consistent := changes_deleteIfPossible.forall
    (consistent_of_uncached huncached ((h.consistent x).flag_of_uncached huncached)) h.consistent

/-- A resource is evicted, or deleted if it was not cached. -/
theorem Linked.evict (h : Linked s) (x : κ) : Linked (s.evict x) := by
  cases hcached : (s.resource x).inCache with
  | false =>
    rw [evict_of_uncached hcached]
    exact h.deleteIfPossible hcached
  | true =>
    obtain ⟨s', heq, hchanges, hholds⟩ := h.uncache hcached
    rw [heq]
    refine Linked.deleteIfPossible
      ⟨hholds, hchanges.forall (consistent_of_uncached rfl rfl) h.consistent⟩ ?_
    rw [hchanges.self]
    rfl

/-- What eviction does to a resource: if it is not cached, it may only be deleted. -/
theorem Linked.changes_evict (h : Linked s) (x : κ) :
    Changes s (s.evict x) x fun r => deletedIfPossible (evicted r) := by
  cases hcached : (s.resource x).inCache with
  | false =>
    rw [evict_of_uncached hcached]
    refine changes_deleteIfPossible.congr ?_
    rw [evicted_of_uncached hcached ((h.consistent x).flag_of_uncached hcached)]
  | true =>
    obtain ⟨s', heq, hchanges, -⟩ := h.uncache hcached
    rw [heq]
    exact hchanges.trans changes_deleteIfPossible

/-- The loop over the values evicts each of them. -/
theorem Linked.setDisabled (h : Linked s) (disabled : Bool) : Linked (s.setDisabled disabled) := by
  have hevicts : ∀ (resources : List κ) (s' : MemoryCache κ υ γ), Linked s' →
      Linked (resources.foldl MemoryCache.evict s') := by
    intro resources
    induction resources with
    | nil => exact fun _ hlinked => hlinked
    | cons y resources ih => exact fun s' hlinked => ih _ (hlinked.evict y)
  have hset : Linked { s with disabled } := h.congr rfl rfl rfl rfl rfl rfl rfl rfl
  rw [MemoryCache.setDisabled]
  split
  · exact hset
  · exact hevicts _ _ hset

/-! ## Accesses -/

omit [DecidableEq υ] in
/-- The access count of a resource that is in no list is increased, and it is put into its list. -/
theorem Holds.increaseAccessCount
    (h : Holds s listed missing) (hx : ¬listed x) (hcount : (s.resource x).accessCount + 1 ≠ 0) :
    Holds ((s.modify x fun r => { r with accessCount := r.accessCount + 1 }).insertInLRUList x)
      (fun y => listed y ∨ y = x) missing := by
  refine Holds.insertInLRUList ?_ hx ?_
  · exact h.modify_of_share_eq ⟨rfl, rfl, rfl⟩ (fun hlisted => absurd hlisted hx) fun _ => rfl
  · rw [modify_self]
    exact hcount

omit [DecidableEq υ] in
theorem changes_resourceAccessed :
    Changes s (s.resourceAccessed x) x fun r => { r with accessCount := r.accessCount + 1 } := by
  refine Changes.trans (Changes.trans (f := id) ?_ (changes_modify _)) changes_insertInLRUList
  refine Changes.trans (f := id) (g := id) changes_removeFromLRUList ?_
  split
  · exact changes_adjustSize _ _
  · exact .of_eq rfl

omit [DecidableEq υ] in
/-- A cached resource is accessed, and the count does not wrap. -/
theorem Linked.resourceAccessed (h : Linked s) (hcached : (s.resource x).inCache = true)
    (hcount : (s.resource x).accessCount + 1 ≠ 0) : Linked (s.resourceAccessed x) := by
  refine ⟨?_, changes_resourceAccessed.forall ⟨(h.consistent x).flagged, (h.consistent x).alive⟩
    h.consistent⟩
  obtain ⟨lists, hlists⟩ := h.holds.lists
  have hremoved := h.holds.removeFromLRUList hcached
  have haccessed : ((s.removeFromLRUList x).resource x).accessCount ≠ 0 := by
    rw [removeFromLRUList_resource]
    exact hlists.accessed x hcached
  have hstep := hremoved.increaseAccessCount (fun hx => hx.2 rfl) (by
    rw [removeFromLRUList_resource]
    exact hcount)
  have heq : s.resourceAccessed x = (((s.removeFromLRUList x).modify x fun r =>
      { r with accessCount := r.accessCount + 1 }).insertInLRUList x) := by
    rw [MemoryCache.resourceAccessed, if_neg haccessed]
  have hinCache : ∀ y, ((s.resourceAccessed x).resource y).inCache = (s.resource y).inCache := by
    intro y
    by_cases hyx : y = x
    · rw [hyx, changes_resourceAccessed.self]
    · rw [changes_resourceAccessed.of_ne hyx]
  rw [← heq] at hstep
  refine hstep.congr_listed fun y => ?_
  rw [hinCache]
  constructor
  · rintro (hy | rfl)
    · exact hy.1
    · exact hcached
  · exact fun hy => (eq_or_ne y x).elim Or.inr fun hne => Or.inl ⟨hy, hne⟩

/-- A resource is added that has not been accessed. -/
theorem Linked.add (h : Linked s) (hx : (s.resource x).inCache = false)
    (hcount : (s.resource x).accessCount = 0) (halive : (s.resource x).deleted = false)
    (hurl : ∀ y ∈ s.resources, (s.resource y).url ≠ (s.resource x).url) : Linked (s.add x) := by
  rw [MemoryCache.add]
  split
  · exact h
  have hset := h.holds.setResource hx hurl
  have hchanges : Changes s (s.setResource x) x fun r => { r with inCache := true } := rfl
  have hcount' : ((s.setResource x).resource x).accessCount = 0 := by
    rw [hchanges.self]
    exact hcount
  have heq : (s.setResource x).resourceAccessed x = ((((s.setResource x).adjustSize
      ((s.setResource x).resource x).hasClients ((s.setResource x).resource x).size).modify x
        fun r => { r with accessCount := r.accessCount + 1 }).insertInLRUList x) := by
    rw [MemoryCache.resourceAccessed, MemoryCache.removeFromLRUList, if_pos hcount', if_pos hcount']
  have hchanged := hchanges.trans changes_resourceAccessed
  refine ⟨?_, hchanged.forall ⟨fun hflag => ?_, fun _ => halive⟩ h.consistent⟩
  · have hadjusted := hset.adjustSize ((s.setResource x).resource x).hasClients
      ((s.setResource x).resource x).size
    have hstep := hadjusted.increaseAccessCount (x := x) (by
      rw [hx]
      exact false_ne_true) (by
      rw [(changes_adjustSize _ _).self, id, hcount']
      decide)
    rw [← heq] at hstep
    refine (hstep.congr_listed fun y => ?_).congr_missing fun live => ?_
    · by_cases hyx : y = x
      · rw [hyx, hchanged.self]
        exact iff_of_true (Or.inr rfl) rfl
      · rw [hchanged.of_ne hyx]
        exact or_iff_left hyx
    · rw [hchanges.self]
      change 0 + share live (s.resource x) - share live (s.resource x) = 0
      ring
  · have hflagged := (h.consistent x).flag_of_uncached hx
    exact absurd (hflagged.symm.trans hflag) false_ne_true

end Map

/-! ## Sizes -/

/-- A cached resource changes its size outside of the lists. -/
theorem Linked.resize {f : CachedResource κ υ γ → CachedResource κ υ γ} (h : Linked s)
    (hcached : (s.resource x).inCache = true) (hkeeps : Keeps (s.resource x) (f (s.resource x)))
    (hcount : (f (s.resource x)).accessCount = (s.resource x).accessCount) :
    Holds (((s.removeFromLRUList x).modify x f).insertInLRUList x)
      (fun y => (s.resource y).inCache = true)
      fun live => share live (f (s.resource x)) - share live (s.resource x) := by
  obtain ⟨lists, hlists⟩ := h.holds.lists
  have hremoved := h.holds.removeFromLRUList hcached
  have hresource := congrFun (removeFromLRUList_resource s x) x
  rw [← hresource] at hcached hkeeps
  have hmodified := hremoved.modify_of_cached hkeeps (fun hx => absurd rfl hx.2) hcached
  refine ((hmodified.insertInLRUList (fun hx => hx.2 rfl) ?_).congr_listed fun y => ?_
    ).congr_missing fun live => ?_
  · rw [modify_self, hresource, hcount]
    rw [hresource] at hcached
    exact hlists.accessed x hcached
  · rw [hresource] at hcached
    constructor
    · rintro (hy | rfl)
      · exact hy.1
      · exact hcached
    · exact fun hy => (eq_or_ne y x).elim Or.inr fun hne => Or.inl ⟨hy, hne⟩
  · rw [hresource]
    ring

theorem changes_resize (f : CachedResource κ υ γ → CachedResource κ υ γ) :
    Changes s (((s.removeFromLRUList x).modify x f).insertInLRUList x) x f :=
  (changes_removeFromLRUList.trans (changes_modify f)).trans changes_insertInLRUList

/-- Another size is counted when the difference is. -/
theorem share_sub_share {r r' : CachedResource κ υ γ} {delta : Unsigned}
    (hclients : r'.hasClients = r.hasClients) (hsize : r'.size = r.size + delta) (live : Bool) :
    share live r' - share live r - (if r.hasClients = live then delta else 0) = 0 := by
  rw [share, share, hclients, hsize]
  split <;> ring

theorem Linked.setEncodedSize (h : Linked s) (x : κ) (size : Unsigned) :
    Linked (s.setEncodedSize x size) := by
  rw [MemoryCache.setEncodedSize]
  split
  · exact h
  let f : CachedResource κ υ γ → CachedResource κ υ γ := fun r => { r with encodedSize := size }
  have hconsistent : Consistent (f (s.resource x)) :=
    ⟨(h.consistent x).flagged, (h.consistent x).alive⟩
  cases hcached : (s.resource x).inCache with
  | false =>
    rw [if_neg Bool.false_ne_true, if_neg Bool.false_ne_true]
    have hholds := h.holds.modify_of_uncached (f := f) ⟨rfl, rfl, rfl⟩
      (fun hx => absurd (hcached.symm.trans hx) false_ne_true) hcached
    refine ⟨hholds.congr_listed fun y => ?_, (changes_modify f).forall hconsistent h.consistent⟩
    rw [modify_inCache rfl]
  | true =>
    rw [if_pos rfl, if_pos rfl]
    have hresized := (h.resize (f := f) hcached ⟨rfl, rfl, rfl⟩ rfl).adjustSize
      (s.resource x).hasClients (size - (s.resource x).encodedSize)
    have hchanges := (changes_resize (s := s) (x := x) f).trans
      (changes_adjustSize (s.resource x).hasClients (size - (s.resource x).encodedSize))
    refine ⟨(hresized.congr_listed fun y => ?_).congr_missing ?_,
      hchanges.forall hconsistent h.consistent⟩
    · by_cases hyx : y = x
      · rw [hyx, hchanges.self]
        rfl
      · rw [hchanges.of_ne hyx]
    · refine share_sub_share rfl ?_
      change size + _ + _ = (s.resource x).encodedSize + _ + _ + _
      ring

/-- What another decoded size does to a resource. -/
def withDecodedSize (size : Unsigned) (live : Bool) (r : CachedResource κ υ γ) :
    CachedResource κ υ γ :=
  flag live { r with decodedSize := size }

/-- The flag of a resource follows the decoded size. -/
def updateLive (s : MemoryCache κ υ γ) (x : κ) (size : Unsigned) (r : CachedResource κ υ γ) :
    MemoryCache κ υ γ :=
  if size ≠ 0 ∧ !r.inLiveDecodedResourcesList ∧ r.hasClients then
    s.insertInLiveDecodedResourcesList x
  else if size = 0 ∧ r.inLiveDecodedResourcesList then s.removeFromLiveDecodedResourcesList x
  else s

theorem changes_updateLive (size : Unsigned) (r : CachedResource κ υ γ)
    (hflag : (s.resource x).inLiveDecodedResourcesList = r.inLiveDecodedResourcesList) :
    ∃ live, Changes s (s.updateLive x size r) x (flag live) ∧
      (live = true → r.inLiveDecodedResourcesList = true ∨ r.hasClients = true) := by
  rw [updateLive]
  split
  · rename_i hinsert
    exact ⟨true, changes_insertInLiveDecodedResourcesList, fun _ => Or.inr hinsert.2.2⟩
  · split
    · exact ⟨false, changes_removeFromLiveDecodedResourcesList, fun h => absurd h.symm (by decide)⟩
    · refine ⟨r.inLiveDecodedResourcesList, Changes.congr (.of_eq rfl) ?_, Or.inl⟩
      rw [← hflag]
      rfl

theorem Holds.updateLive (h : Holds s listed missing) (size : Unsigned) (r : CachedResource κ υ γ)
    (hflag : (s.resource x).inLiveDecodedResourcesList = r.inLiveDecodedResourcesList) :
    Holds (s.updateLive x size r) listed missing := by
  rw [MemoryCache.updateLive]
  split
  · rename_i hinsert
    refine h.insertInLiveDecodedResourcesList (hflag.trans ?_)
    exact not_eq_true' _ ▸ hinsert.2.1
  · split
    · exact h.removeFromLiveDecodedResourcesList x
    · exact h

theorem setDecodedSize_of_cached {size : Unsigned} (hcached : (s.resource x).inCache = true)
    (hne : size ≠ (s.resource x).decodedSize) :
    s.setDecodedSize x size =
      (((((s.removeFromLRUList x).modify x fun r => { r with decodedSize := size }).insertInLRUList x
        ).updateLive x size (s.resource x)).adjustSize (s.resource x).hasClients
          (size - (s.resource x).decodedSize)) := by
  rw [setDecodedSize, if_neg hne, hcached]
  rfl

theorem resize_flag (size : Unsigned) :
    ((((s.removeFromLRUList x).modify x fun r => { r with decodedSize := size }).insertInLRUList x
      ).resource x).inLiveDecodedResourcesList = (s.resource x).inLiveDecodedResourcesList := by
  rw [(changes_resize _).self]

/-- Only the decoded size and the flag change. -/
theorem changes_setDecodedSize (s : MemoryCache κ υ γ) (x : κ) (size : Unsigned) :
    ∃ live, Changes s (s.setDecodedSize x size) x (withDecodedSize size live) ∧
      (live = true → (s.resource x).inLiveDecodedResourcesList = true ∨
        (s.resource x).inCache = true ∧ (s.resource x).hasClients = true) := by
  by_cases hsize : size = (s.resource x).decodedSize
  · refine ⟨(s.resource x).inLiveDecodedResourcesList, ?_, Or.inl⟩
    rw [setDecodedSize, if_pos hsize, hsize]
    exact Changes.congr (.of_eq rfl) rfl
  cases hcached : (s.resource x).inCache with
  | false =>
    refine ⟨(s.resource x).inLiveDecodedResourcesList, ?_, Or.inl⟩
    rw [setDecodedSize, if_neg hsize, hcached, if_neg Bool.false_ne_true]
    exact (changes_modify _).congr rfl
  | true =>
    have hresized := changes_resize (s := s) (x := x) fun r => { r with decodedSize := size }
    obtain ⟨live, hlive, himp⟩ := changes_updateLive size (s.resource x) (resize_flag size)
    refine ⟨live, ?_, fun h => (himp h).imp_right fun hclients => ⟨rfl, hclients⟩⟩
    rw [setDecodedSize_of_cached hcached hsize]
    exact (hresized.trans hlive).trans (changes_adjustSize _ _)

variable (h : Linked s)

include h

theorem Linked.setDecodedSize (x : κ) (size : Unsigned) :
    Linked (s.setDecodedSize x size) := by
  obtain ⟨live, hchanges, himp⟩ := changes_setDecodedSize s x size
  have hconsistent : Consistent (withDecodedSize size live (s.resource x)) :=
    ⟨fun hflag => (himp hflag).elim (h.consistent x).flagged And.symm, (h.consistent x).alive⟩
  refine ⟨?_, hchanges.forall hconsistent h.consistent⟩
  have hinCache : ∀ y, ((s.setDecodedSize x size).resource y).inCache = (s.resource y).inCache := by
    intro y
    by_cases hyx : y = x
    · rw [hyx, hchanges.self]
      rfl
    · rw [hchanges.of_ne hyx]
  suffices hholds : Holds (s.setDecodedSize x size) (fun y => (s.resource y).inCache = true)
      fun _ => 0 from hholds.congr_listed fun y => by rw [hinCache]
  by_cases hsize : size = (s.resource x).decodedSize
  · rw [MemoryCache.setDecodedSize, if_pos hsize]
    exact h.holds
  cases hcached : (s.resource x).inCache with
  | false =>
    rw [MemoryCache.setDecodedSize, if_neg hsize, hcached, if_neg Bool.false_ne_true]
    exact h.holds.modify_of_uncached ⟨rfl, rfl, rfl⟩
      (fun hx => absurd (hcached.symm.trans hx) false_ne_true) hcached
  | true =>
    let f : CachedResource κ υ γ → CachedResource κ υ γ := fun r => { r with decodedSize := size }
    have hholds := ((h.resize (f := f) hcached ⟨rfl, rfl, rfl⟩ rfl).updateLive size (s.resource x)
      (resize_flag size)).adjustSize (s.resource x).hasClients
        (size - (s.resource x).decodedSize)
    rw [← setDecodedSize_of_cached hcached hsize] at hholds
    refine hholds.congr_missing (share_sub_share rfl ?_)
    change _ + size + _ = _ + (s.resource x).decodedSize + _ + _
    ring

omit h in
theorem changes_destroyDecodedData (s : MemoryCache κ υ γ) (x : κ) (size : Unsigned) :
    ∃ live size', Changes s (s.destroyDecodedData x size) x (withDecodedSize size' live) ∧
      size' ≤ (s.resource x).decodedSize := by
  rw [destroyDecodedData]
  split
  · rename_i hlt
    obtain ⟨live, hchanges, -⟩ := changes_setDecodedSize s x size
    exact ⟨live, size, hchanges, BitVec.le_of_lt hlt⟩
  · exact ⟨(s.resource x).inLiveDecodedResourcesList, (s.resource x).decodedSize,
      Changes.congr (.of_eq rfl) rfl, BitVec.le_refl _⟩

theorem Linked.destroyDecodedData (x : κ) (size : Unsigned) :
    Linked (s.destroyDecodedData x size) := by
  rw [MemoryCache.destroyDecodedData]
  split
  · exact h.setDecodedSize x size
  · exact h

/-! ## Clients -/

section Modify

variable {f : CachedResource κ υ γ → CachedResource κ υ γ}

omit h in
theorem modify_listed (h : Holds (s.modify x f) (fun y => (s.resource y).inCache = true) fun _ => 0)
    (hcached : (f (s.resource x)).inCache = (s.resource x).inCache) :
    Holds (s.modify x f) (fun y => ((s.modify x f).resource y).inCache = true) fun _ => 0 :=
  h.congr_listed fun y => by rw [modify_inCache hcached]

/-- A resource that is not cached changes. -/
theorem Linked.modify_of_uncached (huncached : (s.resource x).inCache = false)
    (hkeeps : Keeps (s.resource x) (f (s.resource x))) : Linked (s.modify x f) := by
  refine ⟨modify_listed (h.holds.modify_of_uncached hkeeps
    (fun hx => absurd (huncached.symm.trans hx) false_ne_true) huncached) hkeeps.inCache,
    (changes_modify f).forall ?_ h.consistent⟩
  refine consistent_of_uncached (hkeeps.inCache.trans huncached) ?_
  exact hkeeps.inLiveDecodedResourcesList.trans ((h.consistent x).flag_of_uncached huncached)

/-- A resource changes what does not matter to the lists and the sizes. -/
theorem Linked.modify_of_sameData (hdata : SameData (s.resource x) (f (s.resource x)))
    (hflag : (f (s.resource x)).inLiveDecodedResourcesList =
      (s.resource x).inLiveDecodedResourcesList)
    (hdeleted : (f (s.resource x)).deleted = (s.resource x).deleted) : Linked (s.modify x f) := by
  refine ⟨modify_listed (h.holds.modify_of_share_eq ⟨hdata.url, hdata.inCache, hflag⟩
    (fun _ => ⟨hdata.queueIndex_eq, hdata.accessCount⟩) hdata.share_eq) hdata.inCache,
    (changes_modify f).forall ⟨fun hx => ?_, fun hx => ?_⟩ h.consistent⟩
  · rw [hdata.hasClients, hdata.inCache]
    exact (h.consistent x).flagged (hflag.symm.trans hx)
  · rw [hdeleted]
    exact (h.consistent x).alive (hdata.inCache.symm.trans hx)

end Modify

omit h in
omit [DecidableEq κ] in
/-- The sizes are moved to the other counter. -/
theorem Holds.move (h : Holds s listed missing) (live dead : Unsigned) :
    Holds { s with liveSize := s.liveSize + live, deadSize := s.deadSize + dead } listed fun b =>
      missing b - if b then live else dead where
  lists := h.lists.imp fun _ hlists => hlists.congr rfl rfl fun y hy => ⟨rfl, hlists.accessed y hy⟩
  live := h.live.imp fun _ hlive => hlive.congr rfl rfl fun _ => rfl
  nodup := h.nodup
  cached := h.cached
  url_injOn := h.url_injOn
  sizes := fun b => by
    have hsizes := h.sizes b
    cases b with
    | false =>
      change s.deadSize + dead + (missing false - dead) = s.shares false
      rw [← hsizes]
      change _ = s.deadSize + missing false
      ring
    | true =>
      change s.liveSize + live + (missing true - live) = s.shares true
      rw [← hsizes]
      change _ = s.liveSize + missing true
      ring

theorem Linked.addClientToSet (x : κ) (client : γ) :
    Linked (s.addClientToSet x client) := by
  let f : CachedResource κ υ γ → CachedResource κ υ γ := fun r =>
    { r with clients := client :: r.clients }
  have hconsistent : Consistent (f (s.resource x)) :=
    ⟨fun hflag => ⟨rfl, ((h.consistent x).flagged hflag).2⟩, (h.consistent x).alive⟩
  rw [MemoryCache.addClientToSet]
  cases hcached : (s.resource x).inCache with
  | false =>
    rw [Bool.and_false]
    exact h.modify_of_uncached hcached ⟨rfl, rfl, rfl⟩
  | true =>
    cases hclients : (s.resource x).hasClients with
    | false =>
      rw [sub_eq_add_neg]
      have hmoved := (h.holds.move (s.resource x).size (-(s.resource x).size)).modify_of_cached
        (f := f) ⟨rfl, rfl, rfl⟩ (fun _ => ⟨rfl, rfl⟩) hcached
      refine ⟨modify_listed (hmoved.congr_missing fun live => ?_) rfl,
        (changes_modify f).forall hconsistent h.consistent⟩
      rw [share, hclients]
      cases live with
      | false =>
        change 0 - -(s.resource x).size - (s.resource x).size + 0 = 0
        ring
      | true =>
        change 0 - (s.resource x).size - 0 + (s.resource x).size = 0
        ring
    | true =>
      exact h.modify_of_sameData ⟨rfl, rfl, rfl, rfl, hclients.symm⟩ rfl rfl

section RemoveClient

variable [DecidableEq γ]

/-- What the removal of a client does to a resource. -/
def withoutClient (client : γ) (r : CachedResource κ υ γ) : CachedResource κ υ γ :=
  { r with clients := r.clients.erase client }

/-- The last client of a cached resource is removed. -/
theorem Linked.removeLastClient {client : γ} (hcached : (s.resource x).inCache = true)
    (hclient : client ∈ (s.resource x).clients)
    (hlast : (withoutClient client (s.resource x)).hasClients = false) :
    Linked (MemoryCache.removeFromLiveDecodedResourcesList
      { s.modify x (withoutClient client) with
        liveSize := s.liveSize - (s.resource x).size
        deadSize := s.deadSize + (s.resource x).size } x) := by
  have hclients : (s.resource x).hasClients = true := by
    rw [CachedResource.hasClients, not_eq_true', List.isEmpty_eq_false_iff]
    exact List.ne_nil_of_mem hclient
  have hmoved := ((h.holds.modify_of_cached (f := withoutClient client) ⟨rfl, rfl, rfl⟩
    (fun _ => ⟨rfl, rfl⟩) hcached).move (-(s.resource x).size) (s.resource x).size
    ).removeFromLiveDecodedResourcesList x
  have hchanges := (changes_modify (s := s) (x := x) (withoutClient client)).trans
    (changes_removeFromLiveDecodedResourcesList (s := { s.modify x (withoutClient client) with
      liveSize := s.liveSize + -(s.resource x).size
      deadSize := s.deadSize + (s.resource x).size }) (x := x))
  rw [sub_eq_add_neg]
  refine ⟨(hmoved.congr_listed fun y => ?_).congr_missing fun live => ?_,
    hchanges.forall ⟨fun hflag => ?_, (h.consistent x).alive⟩ h.consistent⟩
  · by_cases hyx : y = x
    · rw [hyx, hchanges.self]
      rfl
    · rw [hchanges.of_ne hyx]
  · rw [share, share, hclients, hlast]
    cases live with
    | false =>
      change 0 - 0 + (s.resource x).size - (s.resource x).size = 0
      ring
    | true =>
      change 0 - (s.resource x).size + 0 - -(s.resource x).size = 0
      ring
  · exact absurd hflag false_ne_true

end RemoveClient

/-! ## Revalidation -/

theorem Linked.clearResourceToRevalidate (x : κ) :
    Linked (s.clearResourceToRevalidate x) := by
  have hdelete : ∀ (s' : MemoryCache κ υ γ) (y : κ), Linked s' →
      Linked (if (s'.resource y).inCache then s' else s'.deleteIfPossible y) := by
    intro s' y hlinked
    split
    · exact hlinked
    · rename_i huncached
      exact hlinked.deleteIfPossible (not_eq_true _ ▸ huncached)
  rw [MemoryCache.clearResourceToRevalidate]
  split
  · exact h
  · refine hdelete _ x (Linked.modify_of_sameData ?_ ⟨rfl, rfl, rfl, rfl, rfl⟩ rfl rfl)
    split
    · exact hdelete _ _ (h.modify_of_sameData ⟨rfl, rfl, rfl, rfl, rfl⟩ rfl rfl)
    · exact h

section Map

variable [DecidableEq υ]

/-- The resource that was revalidated is in the cache and in its list. -/
def relist (s : MemoryCache κ υ γ) (resource : κ) (overheadSize : Unsigned) : MemoryCache κ υ γ :=
  ((s.setResource resource).modify resource fun r => { r with overheadSize }).insertInLRUList resource

/-- It is flagged if it has decoded data. -/
def insertIfDecoded (s : MemoryCache κ υ γ) (resource : κ) : MemoryCache κ υ γ :=
  if (s.resource resource).decodedSize != 0 && (s.resource resource).hasClients then
    s.insertInLiveDecodedResourcesList resource
  else s

/-- Its size is counted. -/
def countSize (s : MemoryCache κ υ γ) (r : CachedResource κ υ γ) : MemoryCache κ υ γ :=
  if r.size ≠ 0 then s.adjustSize r.hasClients r.size else s

/-- What revalidation does to the resource before it gets the clients. -/
def relisted (overheadSize : Unsigned) (r : CachedResource κ υ γ) : CachedResource κ υ γ :=
  { r with inCache := true, overheadSize }

omit h in
theorem changes_relist (s : MemoryCache κ υ γ) (resource : κ) (overheadSize : Unsigned) :
    Changes s (s.relist resource overheadSize) resource (relisted overheadSize) := by
  have hset : Changes s (s.setResource resource) resource fun r => { r with inCache := true } := rfl
  exact (hset.trans (changes_modify _)).trans changes_insertInLRUList

variable {resource : κ}

/-- The resource is listed, and its size is still to be counted. -/
theorem Linked.relist (overheadSize : Unsigned) (hcached : (s.resource resource).inCache = false)
    (hcount : (s.resource resource).accessCount ≠ 0)
    (hurl : ∀ y ∈ s.resources, (s.resource y).url ≠ (s.resource resource).url) :
    Holds (s.relist resource overheadSize)
      (fun y => ((s.relist resource overheadSize).resource y).inCache = true) fun live =>
        share live (relisted overheadSize (s.resource resource)) := by
  have hout : ¬(s.resource resource).inCache = true := by
    rw [hcached]
    exact false_ne_true
  have hself : (s.setResource resource).resource resource =
      { s.resource resource with inCache := true } := Function.update_self _ _ _
  have hmodified := (h.holds.setResource hcached hurl).modify_of_cached
    (f := fun r => { r with overheadSize }) ⟨rfl, rfl, rfl⟩ (fun hx => absurd hx hout)
    (by rw [hself])
  have hinserted := hmodified.insertInLRUList (x := resource) hout (by
    rw [modify_self, hself]
    exact hcount)
  refine (hinserted.congr_listed fun y => ?_).congr_missing fun live => ?_
  · have hchanges := changes_relist s resource overheadSize
    by_cases hyx : y = resource
    · rw [hyx, hchanges.self]
      exact iff_of_true (Or.inr rfl) rfl
    · rw [hchanges.of_ne hyx]
      exact or_iff_left hyx
  · rw [hself]
    change 0 + share live (s.resource resource) - share live (s.resource resource) +
      share live (relisted overheadSize (s.resource resource)) = _
    ring

omit h in
omit [DecidableEq υ] in
theorem changes_insertIfDecoded : ∃ live, Changes s (s.insertIfDecoded x) x (flag live) ∧
      (live = true → (s.resource x).hasClients = true ∨
        (s.resource x).inLiveDecodedResourcesList = true) := by
  rw [insertIfDecoded]
  split
  · rename_i hinsert
    rw [and_eq_true] at hinsert
    exact ⟨true, changes_insertInLiveDecodedResourcesList, fun _ => Or.inl hinsert.2⟩
  · exact ⟨(s.resource x).inLiveDecodedResourcesList, Changes.congr (.of_eq rfl) rfl, Or.inr⟩

omit h in
omit [DecidableEq υ] in
theorem changes_countSize (r : CachedResource κ υ γ) : Changes s (s.countSize r) x id := by
  rw [countSize]
  split
  · exact changes_adjustSize _ _
  · exact .of_eq rfl

omit h in
omit [DecidableEq κ] [DecidableEq υ] in
theorem Holds.countSize {r : CachedResource κ υ γ}
    (h : Holds s listed fun live => share live r) : Holds (s.countSize r) listed fun _ => 0 := by
  rw [MemoryCache.countSize]
  split
  · refine (h.adjustSize r.hasClients r.size).congr_missing fun live => ?_
    rw [share, sub_self]
  · rename_i hsize
    refine h.congr_missing fun live => ?_
    rw [share, not_not.mp hsize, ite_self]

/-- The resource is back in the cache, before it gets the clients. -/
theorem Linked.restore (overheadSize : Unsigned) (hcached : (s.resource resource).inCache = false)
    (hcount : (s.resource resource).accessCount ≠ 0)
    (halive : (s.resource resource).deleted = false)
    (hurl : ∀ y ∈ s.resources, (s.resource y).url ≠ (s.resource resource).url) :
    Linked (((s.relist resource overheadSize).insertIfDecoded resource).countSize
      ((s.relist resource overheadSize).resource resource)) := by
  have hflag := (h.consistent resource).flag_of_uncached hcached
  have hrelist := changes_relist s resource overheadSize
  obtain ⟨live, hdecoded, himp⟩ :=
    changes_insertIfDecoded (s := s.relist resource overheadSize) (x := resource)
  rw [hrelist.self] at himp
  have hchanges := (hrelist.trans hdecoded).trans
    (changes_countSize ((s.relist resource overheadSize).resource resource))
  have hholds := h.relist overheadSize hcached hcount hurl
  have hlisted : Holds ((s.relist resource overheadSize).insertIfDecoded resource)
      (fun y => ((s.relist resource overheadSize).resource y).inCache = true) fun live =>
        share live ((s.relist resource overheadSize).resource resource) := by
    rw [hrelist.self, insertIfDecoded]
    split
    · refine hholds.insertInLiveDecodedResourcesList ?_
      rw [hrelist.self]
      exact hflag
    · exact hholds
  refine ⟨hlisted.countSize.congr_listed fun y => ?_,
    hchanges.forall ⟨fun hlive => ⟨?_, rfl⟩, fun _ => halive⟩ h.consistent⟩
  · by_cases hyx : y = resource
    · rw [hyx, hchanges.self, hrelist.self]
      rfl
    · rw [hchanges.of_ne hyx, hrelist.of_ne hyx]
  · exact (himp hlive).elim id fun hother => absurd (hflag.symm.trans hother) false_ne_true

/-- The clients are added to the resource that was revalidated. -/
theorem Linked.addClients (x : κ) (clients : List γ) :
    Linked (clients.foldl (fun s client => s.addClientToSet x client) s) := by
  induction clients generalizing s with
  | nil => exact h
  | cons client clients ih => exact ih (h.addClientToSet x client)

omit h in
theorem revalidationSucceeded_eq (overheadSize handleCount : Unsigned)
    (hrevalidate : (s.resource x).resourceToRevalidate = some resource) :
    ∃ s', s' = (((s.evict x).relist resource overheadSize).insertIfDecoded resource).countSize
        (((s.evict x).relist resource overheadSize).resource resource) ∧
      s.revalidationSucceeded x overheadSize handleCount =
        ((s'.resource x).clients.foldl (fun s client => s.addClientToSet resource client)
          ((s'.modify resource fun r => { r with handleCount }).modify x
            fun r => { r with clients := [], handleCount := 0 })).clearResourceToRevalidate x := by
  refine ⟨_, rfl, ?_⟩
  unfold revalidationSucceeded
  simp only [hrevalidate]
  rfl

/-- A resource takes the place of the one that revalidated it. -/
theorem Linked.revalidationSucceeded (overheadSize handleCount : Unsigned)
    (hrevalidate : (s.resource x).resourceToRevalidate = some resource)
    (hcachedx : (s.resource x).inCache = true) (hcached : (s.resource resource).inCache = false)
    (hcount : (s.resource resource).accessCount ≠ 0)
    (halive : (s.resource resource).deleted = false)
    (hurl : ∀ y ∈ s.resources, y ≠ x → (s.resource y).url ≠ (s.resource resource).url) :
    Linked (s.revalidationSucceeded x overheadSize handleCount) := by
  obtain ⟨s', hs', heq⟩ := revalidationSucceeded_eq overheadSize handleCount hrevalidate
  have hne : resource ≠ x := by
    rintro rfl
    exact false_ne_true (hcached.symm.trans hcachedx)
  have hevict := h.changes_evict x
  have hcachedevict : ∀ y ∈ (s.evict x).resources, y ≠ x ∧ y ∈ s.resources := by
    intro y hy
    rw [(h.evict x).holds.cached] at hy
    have hyx : y ≠ x := by
      rintro rfl
      rw [hevict.self] at hy
      exact false_ne_true hy
    rw [hevict.of_ne hyx, ← h.holds.cached] at hy
    exact ⟨hyx, hy⟩
  have hrestored : Linked s' := by
    rw [hs']
    refine (h.evict x).restore overheadSize ?_ ?_ ?_ fun y hy => ?_
    · rw [hevict.of_ne hne, hcached]
    · rwa [hevict.of_ne hne]
    · rw [hevict.of_ne hne, halive]
    · obtain ⟨hyx, hin⟩ := hcachedevict y hy
      rw [hevict.of_ne hyx, hevict.of_ne hne]
      exact hurl y hin hyx
  have huncached : (s'.resource x).inCache = false := by
    obtain ⟨live, hdecoded, -⟩ := changes_insertIfDecoded
      (s := (s.evict x).relist resource overheadSize) (x := resource)
    have hchanges := ((changes_relist (s.evict x) resource overheadSize).trans
      hdecoded).trans (changes_countSize (((s.evict x).relist resource overheadSize).resource
        resource))
    rw [hs', hchanges.of_ne hne.symm, hevict.self]
    rfl
  rw [heq]
  have hhandles : Linked (s'.modify resource fun r => { r with handleCount }) :=
    hrestored.modify_of_sameData ⟨rfl, rfl, rfl, rfl, rfl⟩ rfl rfl
  refine ((hhandles.modify_of_uncached ?_ ⟨rfl, rfl, rfl⟩).addClients resource _
    ).clearResourceToRevalidate x
  rw [modify_of_ne _ hne.symm]
  exact huncached

end Map

end MemoryCache
end Loader
end WebKit
