import Mathlib.Algebra.Order.BigOperators.Group.List
import WebKit.Loader.CacheOperations
import WebKit.Loader.FastLog2

/-!
# Pruning of the memory cache

The loops over the lists keep the cache in order, and resources that are in use stay.

* `Pruned`, `Prunes`: what pruning may do to a resource and to the cache.
* `Bounded`: the total size is small, so that no size wraps around.
* `Linked.prune`, `Linked.removeClient`: the cache is in order after it is pruned.
-/

namespace WebKit

open List Option
namespace Loader

variable {κ υ γ : Type*}

namespace CachedResource

/-- The size without wrapping around. -/
def totalBytes (r : CachedResource κ υ γ) : ℕ :=
  r.encodedSize.toNat + r.decodedSize.toNat + r.overheadSize.toNat

/-- The resource has clients, is preloaded or is a cache validator. -/
def InUse (r : CachedResource κ υ γ) : Prop :=
  r.hasClients = true ∨ r.isPreloaded = true ∨ r.isCacheValidator = true

theorem size_toNat {r : CachedResource κ υ γ} (h : r.totalBytes < 2 ^ 32) :
    r.size.toNat = r.totalBytes := by
  rw [totalBytes] at h ⊢
  rw [size, BitVec.toNat_add, BitVec.toNat_add, Nat.mod_eq_of_lt, Nat.mod_eq_of_lt]
  · omega
  · rw [Nat.mod_eq_of_lt] <;> omega

/-- What pruning may do to a resource. -/
structure Pruned (r r' : CachedResource κ υ γ) : Prop where
  url : r'.url = r.url
  accessCount : r'.accessCount = r.accessCount
  encodedSize : r'.encodedSize = r.encodedSize
  overheadSize : r'.overheadSize = r.overheadSize
  decodedSize : r'.decodedSize ≤ r.decodedSize
  clients : r'.clients = r.clients
  preloadCount : r'.preloadCount = r.preloadCount
  resourceToRevalidate : r'.resourceToRevalidate = r.resourceToRevalidate
  inCache : r'.inCache = true → r.inCache = true
  inUse : r.InUse → r'.inCache = r.inCache

namespace Pruned

theorem refl (r : CachedResource κ υ γ) : Pruned r r :=
  ⟨rfl, rfl, rfl, rfl, BitVec.le_refl _, rfl, rfl, rfl, id, fun _ => rfl⟩

variable {r r' : CachedResource κ υ γ}

variable (h : Pruned r r')

include h

theorem inUse_iff : r'.InUse ↔ r.InUse := by
  rw [InUse, InUse, hasClients, hasClients, isPreloaded, isPreloaded, isCacheValidator,
    isCacheValidator, h.clients, h.preloadCount, h.resourceToRevalidate]

theorem trans (h' : Pruned r' r'') :
    Pruned r r'' where
  url := h'.url.trans h.url
  accessCount := h'.accessCount.trans h.accessCount
  encodedSize := h'.encodedSize.trans h.encodedSize
  overheadSize := h'.overheadSize.trans h.overheadSize
  decodedSize := BitVec.le_trans h'.decodedSize h.decodedSize
  clients := h'.clients.trans h.clients
  preloadCount := h'.preloadCount.trans h.preloadCount
  resourceToRevalidate := h'.resourceToRevalidate.trans h.resourceToRevalidate
  inCache := fun hcached => h.inCache (h'.inCache hcached)
  inUse := fun hinUse => (h'.inUse (h.inUse_iff.mpr hinUse)).trans (h.inUse hinUse)

theorem totalBytes_le : r'.totalBytes ≤ r.totalBytes := by
  have hdecoded := BitVec.le_def.mp h.decodedSize
  rw [totalBytes, totalBytes, h.encodedSize, h.overheadSize]
  omega

/-- A resource does not move to a list of larger ones. -/
theorem queueIndex_le (hsize : r.totalBytes < 2 ^ 32) :
    queueIndex r' ≤ queueIndex r := by
  have hle := h.totalBytes_le
  rw [queueIndex, queueIndex, h.accessCount]
  refine fastLog2_mono ?_
  rw [BitVec.le_def, BitVec.toNat_udiv, BitVec.toNat_udiv, size_toNat hsize,
    size_toNat (hle.trans_lt hsize)]
  exact Nat.div_le_div_right hle

end Pruned

end CachedResource

namespace MemoryCache

open LinkedList CachedResource

/-- The total size of the cached resources is below half of what the counters hold. -/
def Bounded (s : MemoryCache κ υ γ) : Prop :=
  (s.resources.map fun x => (s.resource x).totalBytes).sum < 2 ^ 31

instance (s : MemoryCache κ υ γ) : Decidable (Bounded s) := inferInstanceAs (Decidable (_ < _))

/-- What pruning may do to the cache. -/
structure Prunes (s s' : MemoryCache κ υ γ) : Prop where
  resource : ∀ x, Pruned (s.resource x) (s'.resource x)
  sublist : s'.resources.Sublist s.resources

theorem Prunes.refl (s : MemoryCache κ υ γ) : Prunes s s := ⟨fun _ => .refl _, .refl _⟩

theorem Prunes.trans {s s' s'' : MemoryCache κ υ γ} (h : Prunes s s') (h' : Prunes s' s'') :
    Prunes s s'' :=
  ⟨fun x => (h.resource x).trans (h'.resource x), h'.sublist.trans h.sublist⟩

theorem Bounded.of_prunes (hbounded : Bounded s) (h : Prunes s s') :
    Bounded s' := by
  refine Nat.lt_of_le_of_lt ?_ hbounded
  calc (s'.resources.map fun x => (s'.resource x).totalBytes).sum
      ≤ (s'.resources.map fun x => (s.resource x).totalBytes).sum :=
        sum_le_sum fun x _ => (h.resource x).totalBytes_le
    _ ≤ (s.resources.map fun x => (s.resource x).totalBytes).sum :=
        (h.sublist.map _).sum_le_sum fun _ _ => Nat.zero_le _

theorem Bounded.lt (h : Bounded s) (hx : x ∈ s.resources) :
    (s.resource x).totalBytes < 2 ^ 32 := by
  have hle := single_le_sum (fun _ _ => Nat.zero_le _) _
    (mem_map_of_mem (f := fun x => (s.resource x).totalBytes) hx)
  rw [Bounded] at h
  omega

variable [DecidableEq κ] {s : MemoryCache κ υ γ} {x : κ}

theorem updateLive_resources (s : MemoryCache κ υ γ) (x : κ) (size : Unsigned)
    (r : CachedResource κ υ γ) : (s.updateLive x size r).resources = s.resources := by
  rw [updateLive]
  split
  · rfl
  · split
    · rw [removeFromLiveDecodedResourcesList]
      split <;> rfl
    · rfl

theorem setDecodedSize_resources (s : MemoryCache κ υ γ) (x : κ) (size : Unsigned) :
    (s.setDecodedSize x size).resources = s.resources := by
  by_cases hsize : size = (s.resource x).decodedSize
  · rw [setDecodedSize, if_pos hsize]
  cases hcached : (s.resource x).inCache with
  | false =>
    rw [setDecodedSize, if_neg hsize, hcached]
    rfl
  | true =>
    obtain ⟨links, all, heq⟩ := removeFromLRUList_eq s x
    rw [setDecodedSize_of_cached hcached hsize, adjustSize_eq]
    rw [updateLive_resources, heq]
    rfl

theorem prunes_destroyDecodedData (s : MemoryCache κ υ γ) (x : κ) (size : Unsigned) :
    Prunes s (s.destroyDecodedData x size) := by
  obtain ⟨live, size', hchanges, hle⟩ := changes_destroyDecodedData s x size
  constructor
  · intro y
    by_cases hyx : y = x
    · rw [hyx, hchanges.self]
      exact ⟨rfl, rfl, rfl, rfl, hle, rfl, rfl, rfl, id, fun _ => rfl⟩
    · rw [hchanges.of_ne hyx]
      exact .refl _
  · rw [destroyDecodedData]
    split
    · rw [setDecodedSize_resources]
    · exact .refl _

section Map

variable [DecidableEq υ]

theorem evict_sublist (s : MemoryCache κ υ γ) (x : κ) :
    (s.evict x).resources.Sublist s.resources := by
  have hdelete : ∀ s' : MemoryCache κ υ γ, (s'.deleteIfPossible x).resources = s'.resources := by
    intro s'
    rw [MemoryCache.deleteIfPossible]
    split <;> rfl
  rw [evict, hdelete]
  split
  · obtain ⟨links, all, heq⟩ := removeFromLRUList_eq
      ((s.removeURL (s.resource x).url).modify x fun r => { r with inCache := false }) x
    rw [adjustSize_eq, heq, removeFromLiveDecodedResourcesList]
    dsimp only
    split <;> exact filter_sublist
  · exact .refl _

variable (h : Linked s)

include h

/-- A resource that is not in use is evicted. -/
theorem Linked.prunes_evict (hx : ¬(s.resource x).InUse) : Prunes s (s.evict x) := by
  have hchanges := h.changes_evict x
  refine ⟨fun y => ?_, evict_sublist s x⟩
  by_cases hyx : y = x
  · rw [hyx, hchanges.self]
    exact ⟨rfl, rfl, rfl, rfl, BitVec.le_refl _, rfl, rfl, rfl,
      fun hcached => absurd hcached Bool.false_ne_true, fun hinUse => absurd hinUse hx⟩
  · rw [hchanges.of_ne hyx]
    exact .refl _

/-! ## The loops -/

omit h in
theorem inUse_of_checks {r : CachedResource κ υ γ}
    (h : (!r.hasClients && !r.isPreloaded && !r.isCacheValidator) = true) : ¬r.InUse := by
  rw [Bool.and_eq_true, Bool.and_eq_true, Bool.not_eq_true', Bool.not_eq_true',
    Bool.not_eq_true'] at h
  rw [InUse, h.1.1, h.1.2, h.2]
  decide

section Loops

variable {choices : PruneChoices κ} {targetSize : Unsigned}
variable {current : Option κ} {iterations i : ℕ} {s' : MemoryCache κ υ γ}

omit [DecidableEq υ] in
theorem Linked.pruneLiveFrom
    (hrun : pruneLiveFrom choices targetSize iterations s current = some s') :
    Linked s' ∧ Prunes s s' := by
  fun_induction MemoryCache.pruneLiveFrom choices targetSize iterations s current with
  | case1 | case3 =>
    obtain rfl := some_inj.mp hrun
    exact ⟨h, .refl _⟩
  | case2 => cases hrun
  | case4 =>
    obtain rfl := some_inj.mp hrun
    exact ⟨h.destroyDecodedData _ _, prunes_destroyDecodedData _ _ _⟩
  | case5 _ _ _ _ _ _ _ _ ih =>
    obtain ⟨hlinked, hprunes⟩ := ih (h.destroyDecodedData _ _) hrun
    exact ⟨hlinked, (prunes_destroyDecodedData _ _ _).trans hprunes⟩
  | case6 _ _ _ _ _ ih => exact ih h hrun

omit h in
omit [DecidableEq κ] [DecidableEq υ] in
theorem Prunes.leave (h : Prunes s s') (inPrune : Bool) :
    Prunes s { s' with inPruneDeadResources := inPrune } :=
  ⟨h.resource, h.sublist⟩

omit [DecidableEq κ] [DecidableEq υ] in
theorem Linked.leave (inPrune : Bool) :
    Linked { s with inPruneDeadResources := inPrune } :=
  h.congr rfl rfl rfl rfl rfl rfl rfl rfl

omit [DecidableEq υ] in
theorem Linked.flushFrom {returns : Bool}
    (hrun : flushFrom choices targetSize iterations s current = some (s', returns)) :
    Linked s' ∧ Prunes s s' := by
  fun_induction MemoryCache.flushFrom choices targetSize iterations s current with
  | case1 =>
    cases hrun
    exact ⟨h, .refl _⟩
  | case2 => cases hrun
  | case3 =>
    cases hrun
    exact ⟨(h.destroyDecodedData _ _).leave false, (prunes_destroyDecodedData _ _ _).leave false⟩
  | case4 _ _ _ _ _ _ _ _ ih =>
    obtain ⟨hlinked, hprunes⟩ := ih (h.destroyDecodedData _ _) hrun
    exact ⟨hlinked, (prunes_destroyDecodedData _ _ _).trans hprunes⟩
  | case5 _ _ _ _ _ _ ih => exact ih h hrun

theorem Linked.evictFrom {returns : Bool}
    (hrun : evictFrom targetSize iterations s current = some (s', returns)) :
    Linked s' ∧ Prunes s s' := by
  fun_induction MemoryCache.evictFrom targetSize iterations s current with
  | case1 =>
    obtain ⟨rfl, -⟩ := Prod.mk.inj (some_inj.mp hrun)
    exact ⟨h, .refl _⟩
  | case2 => cases hrun
  | case3 _ _ _ _ hchecks =>
    obtain ⟨rfl, -⟩ := Prod.mk.inj (some_inj.mp hrun)
    exact ⟨h.evict _, h.prunes_evict (inUse_of_checks hchecks)⟩
  | case4 _ _ _ _ hchecks =>
    cases hrun
    exact ⟨(h.evict _).leave false, (h.prunes_evict (inUse_of_checks hchecks)).leave false⟩
  | case5 _ _ _ _ _ hchecks _ _ _ ih =>
    obtain ⟨hlinked, hprunes⟩ := ih (h.evict _) hrun
    exact ⟨hlinked, (h.prunes_evict (inUse_of_checks hchecks)).trans hprunes⟩
  | case6 _ _ _ _ _ _ ih => exact ih h hrun

/-- No cached resource is in a list from an index on. -/
def Below (s : MemoryCache κ υ γ) (i : ℕ) : Prop :=
  ∀ x, (s.resource x).inCache = true → queueIndex (s.resource x) < i

omit h in
omit [DecidableEq κ] [DecidableEq υ] in
theorem Below.of_prunes (h : Below s i) (hlinked : Linked s) (hbounded : Bounded s)
    (hprunes : Prunes s s') : Below s' i := by
  intro x hx
  have hcached := (hprunes.resource x).inCache hx
  have hle := (hprunes.resource x).queueIndex_le
    (hbounded.lt ((hlinked.holds.cached x).mpr hcached))
  exact hle.trans_lt (h x hcached)

omit h in
omit [DecidableEq κ] [DecidableEq υ] in
/-- An empty list holds no resource. -/
theorem Below.of_empty (h : Below s (i + 1)) (hlinked : Linked s)
    (hempty : (s.lruList i).head = none) : Below s i := by
  intro x hx
  obtain ⟨lists, hlists⟩ := hlinked.holds.lists
  refine lt_of_le_of_ne (Nat.le_of_lt_succ (h x hx)) fun hindex => ?_
  have hin := (hlists.mem_iff i x).mpr ⟨hx, hindex⟩
  have hnil := (hlists.represents i).head
  rw [hempty, eq_comm, List.head?_eq_none_iff] at hnil
  rw [hnil] at hin
  exact not_mem_nil hin

omit [DecidableEq υ] in
/-- Empty lists at the end of the vector are dropped. -/
theorem Linked.shrink (hbelow : Below s i) :
    Linked { s with allResources := s.allResources.take i } := by
  refine ⟨h.holds.congr_lists ?_, h.consistent⟩
  obtain ⟨lists, hlists⟩ := h.holds.lists
  refine ⟨lists, fun j => ?_, hlists.mem_iff, hlists.unlinked, hlists.accessed⟩
  have hrep := hlists.represents j
  rw [lruList, getD_eq_getElem?_getD] at hrep ⊢
  by_cases hj : j < i
  · rw [List.getElem?_take_of_lt hj]
    exact hrep
  · rw [List.getElem?_eq_none ((length_take_le i _).trans (not_lt.mp hj))]
    have hnil : lists j = [] := by
      rw [eq_nil_iff_forall_not_mem]
      intro x hx
      have hin := (hlists.mem_iff j x).mp hx
      exact hj (hin.2 ▸ hbelow x hin.1)
    rw [hnil]
    exact represents_nil _

omit [DecidableEq κ] [DecidableEq υ] in
theorem Linked.below : Below s s.allResources.length := by
  intro x hx
  obtain ⟨lists, hlists⟩ := h.holds.lists
  by_contra hle
  have hin := (hlists.mem_iff (queueIndex (s.resource x)) x).mpr ⟨hx, rfl⟩
  have hhead := (hlists.represents (queueIndex (s.resource x))).head
  rw [lruList, getD_eq_getElem?_getD, List.getElem?_eq_none (not_lt.mp hle)] at hhead
  rw [List.head?_eq_none_iff.mp hhead.symm] at hin
  exact not_mem_nil hin

theorem Linked.pruneLists {count : ℕ} (hbounded : Bounded s)
    (hbelow : canShrink = true → Below s count)
    (hrun : pruneLists choices targetSize count canShrink s = some s') :
    Linked s' ∧ Prunes s s' := by
  induction count generalizing s canShrink with
  | zero =>
    obtain rfl := some_inj.mp hrun
    exact ⟨h.leave false, (Prunes.refl s).leave false⟩
  | succ i ih =>
    rw [MemoryCache.pruneLists, bind_eq_bind, bind_eq_some_iff] at hrun
    obtain ⟨⟨s₁, returns₁⟩, hflush, hrun⟩ := hrun
    obtain ⟨hlinked₁, hprunes₁⟩ := h.flushFrom hflush
    dsimp only at hrun
    cases returns₁ with
    | true =>
      obtain rfl := some_inj.mp hrun
      exact ⟨hlinked₁, hprunes₁⟩
    | false =>
      rw [if_neg Bool.false_ne_true, bind_eq_some_iff] at hrun
      obtain ⟨⟨s₂, returns₂⟩, hevict, hrun⟩ := hrun
      obtain ⟨hlinked₂, hprunes₂⟩ := hlinked₁.evictFrom hevict
      have hprunes := hprunes₁.trans hprunes₂
      have hbounded₂ := hbounded.of_prunes hprunes
      cases returns₂ with
      | true =>
        obtain rfl := some_inj.mp hrun
        exact ⟨hlinked₂, hprunes⟩
      | false =>
        rw [if_neg Bool.false_ne_true] at hrun
        split at hrun
        · have hrest := ih hlinked₂ hbounded₂ (fun hfalse => absurd hfalse.symm (by decide)) hrun
          exact ⟨hrest.1, hprunes.trans hrest.2⟩
        · rename_i hempty
          rw [Bool.not_eq_true, isSome_eq_false_iff, isNone_iff_eq_none] at hempty
          split at hrun
          · rename_i hshrink
            have hbelow₂ := ((hbelow hshrink).of_prunes h hbounded hprunes).of_empty hlinked₂ hempty
            have hrest := ih (hlinked₂.shrink hbelow₂) hbounded₂ (fun _ => hbelow₂) hrun
            exact ⟨hrest.1, hprunes.trans ⟨hrest.2.resource, hrest.2.sublist⟩⟩
          · rename_i hshrink
            have hrest := ih hlinked₂ hbounded₂ (fun htrue => absurd htrue hshrink) hrun
            exact ⟨hrest.1, hprunes.trans hrest.2⟩

omit [DecidableEq υ] in
theorem Linked.unchanged (hrun : some s = some s') : Linked s' ∧ Prunes s s' := by
  cases hrun
  exact ⟨h, .refl s⟩

theorem Linked.pruneDeadResources (hbounded : Bounded s)
    (hrun : s.pruneDeadResources choices = some s') : Linked s' ∧ Prunes s s' := by
  rw [MemoryCache.pruneDeadResources] at hrun
  split at hrun
  · exact h.unchanged hrun
  dsimp only at hrun
  split at hrun
  · exact h.unchanged hrun
  rw [MemoryCache.pruneDeadResourcesToSize] at hrun
  split at hrun
  · exact h.unchanged hrun
  obtain ⟨hlinked, hprunes⟩ := (h.leave true).pruneLists hbounded (fun _ => h.below) hrun
  exact ⟨hlinked, ⟨hprunes.resource, hprunes.sublist⟩⟩

omit [DecidableEq υ] in
theorem Linked.pruneLiveResources (hrun : s.pruneLiveResources choices = some s') :
    Linked s' ∧ Prunes s s' := by
  rw [MemoryCache.pruneLiveResources] at hrun
  split at hrun
  · exact h.unchanged hrun
  dsimp only at hrun
  split at hrun
  · exact h.unchanged hrun
  exact h.pruneLiveFrom hrun

/-- Pruning keeps the cache in order, and what is in use stays. -/
theorem Linked.prune (hbounded : Bounded s) (hrun : s.prune choices = some s') :
    Linked s' ∧ Prunes s s' := by
  rw [MemoryCache.prune] at hrun
  split at hrun
  · exact h.unchanged hrun
  rw [bind_eq_bind, bind_eq_some_iff] at hrun
  obtain ⟨s₁, hdead, hlive⟩ := hrun
  obtain ⟨hlinked₁, hprunes₁⟩ := h.pruneDeadResources hbounded hdead
  obtain ⟨hlinked, hprunes⟩ := hlinked₁.pruneLiveResources hlive
  exact ⟨hlinked, hprunes₁.trans hprunes⟩

theorem Linked.setCapacities (hbounded : Bounded s) {totalBytes : Unsigned}
    (hrun : s.setCapacities choices minDeadBytes maxDeadBytes totalBytes = some s') :
    Linked s' ∧ Prunes s s' := by
  have hset : Linked { s with
      minDeadCapacity := minDeadBytes
      maxDeadCapacity := maxDeadBytes
      capacity := totalBytes } := h.congr rfl rfl rfl rfl rfl rfl rfl rfl
  obtain ⟨hlinked, hprunes⟩ := hset.prune hbounded hrun
  exact ⟨hlinked, ⟨hprunes.resource, hprunes.sublist⟩⟩

omit h

/-! ## The removal of a client -/

variable [DecidableEq γ] {client : γ}

omit [DecidableEq υ] in
theorem Bounded.withoutClient (h : Bounded s) : Bounded (s.modify x (withoutClient client)) := by
  have hbytes : ∀ y, ((s.modify x (MemoryCache.withoutClient client)).resource y).totalBytes =
      (s.resource y).totalBytes := by
    intro y
    by_cases hyx : y = x
    · rw [hyx, modify_self]
      rfl
    · rw [modify_of_ne _ hyx]
  rw [Bounded] at h ⊢
  rwa [map_congr_left fun y _ => hbytes y]

/-- The state after the last client of a cached resource is removed, before the cache is pruned. -/
def withoutLastClient (s : MemoryCache κ υ γ) (x : κ) (client : γ) (keptDecodedSize : Unsigned) :
    MemoryCache κ υ γ :=
  (MemoryCache.removeFromLiveDecodedResourcesList
    { s.modify x (withoutClient client) with
      liveSize := s.liveSize - (s.resource x).size
      deadSize := s.deadSize + (s.resource x).size } x).destroyDecodedData x keptDecodedSize

omit [DecidableEq υ] in
theorem prunes_withoutLastClient (s : MemoryCache κ υ γ) (x : κ) (client : γ)
    (keptDecodedSize : Unsigned) :
    Prunes (s.modify x (withoutClient client)) (s.withoutLastClient x client keptDecodedSize) := by
  refine Prunes.trans ⟨fun y => ?_, ?_⟩ (prunes_destroyDecodedData _ x keptDecodedSize)
  · have hchanges := changes_removeFromLiveDecodedResourcesList
      (s := { s.modify x (withoutClient client) with
        liveSize := s.liveSize - (s.resource x).size
        deadSize := s.deadSize + (s.resource x).size }) (x := x)
    by_cases hyx : y = x
    · rw [hyx, hchanges.self]
      exact ⟨rfl, rfl, rfl, rfl, BitVec.le_refl _, rfl, rfl, rfl, id, fun _ => rfl⟩
    · rw [hchanges.of_ne hyx]
      exact .refl _
  · rw [removeFromLiveDecodedResourcesList]
    split <;> exact .refl _

theorem removeClient_eq (s : MemoryCache κ υ γ) (x : κ) (client : γ) :
    s.removeClient x choices client =
      let r := withoutClient client (s.resource x)
      if r.canDelete && !r.inCache then
        some ((s.modify x (withoutClient client)).modify x fun r => { r with deleted := true })
      else if !r.hasClients && r.inCache then
        let s' := s.withoutLastClient x client (choices.keptWithoutClients x)
        if r.cacheControlContainsNoStore then some (if r.protocolIsHTTPS then s'.evict x else s')
        else s'.prune choices
      else some (s.modify x (withoutClient client)) := by
  have hself : (s.modify x fun r => { r with clients := r.clients.erase client }).resource x =
      withoutClient client (s.resource x) := modify_self _
  rw [MemoryCache.removeClient]
  simp only [hself]
  rfl

/-- After a client is removed the cache is in order.  The other resources that are in use stay, and so
does the resource itself if it is in use and is to be stored. -/
theorem Linked.removeClient (h : Linked s) (hbounded : Bounded s)
    (hclient : client ∈ (s.resource x).clients) (hrun : s.removeClient x choices client = some s') :
    Linked s' ∧ ∀ y, ((s.modify x (withoutClient client)).resource y).InUse →
      y ≠ x ∨ (s.resource x).cacheControlContainsNoStore = false →
        (s'.resource y).inCache = (s.resource y).inCache := by
  have hsame : ∀ y, ((s.modify x (withoutClient client)).resource y).inCache =
      (s.resource y).inCache := modify_inCache rfl
  rw [removeClient_eq] at hrun
  dsimp only at hrun
  split at hrun
  · rename_i hdelete
    obtain rfl := some_inj.mp hrun
    rw [Bool.and_eq_true, Bool.not_eq_true'] at hdelete
    refine ⟨(h.modify_of_uncached hdelete.2 ⟨rfl, rfl, rfl⟩).modify_of_uncached ?_ ⟨rfl, rfl, rfl⟩,
      fun y _ _ => ?_⟩
    · rw [modify_self]
      exact hdelete.2
    · rw [modify_inCache rfl, hsame]
  split at hrun
  · rename_i hlast
    rw [Bool.and_eq_true, Bool.not_eq_true'] at hlast
    have hlinked : Linked (s.withoutLastClient x client (choices.keptWithoutClients x)) :=
      (h.removeLastClient hlast.2 hclient hlast.1).destroyDecodedData x _
    have hprunes := prunes_withoutLastClient s x client (choices.keptWithoutClients x)
    split at hrun
    · rename_i hnoStore
      obtain rfl := some_inj.mp hrun
      refine ⟨?_, fun y hinUse hy => ?_⟩
      · split
        · exact hlinked.evict x
        · exact hlinked
      · have hyx : y ≠ x := hy.resolve_right fun hfalse => by
          exact Bool.false_ne_true (hfalse.symm.trans hnoStore)
        rw [← hsame, ← (hprunes.resource y).inUse hinUse]
        split
        · rw [(hlinked.changes_evict x).of_ne hyx]
        · rfl
    · obtain ⟨hpruned, hprunes'⟩ := hlinked.prune (hbounded.withoutClient.of_prunes hprunes) hrun
      refine ⟨hpruned, fun y hinUse _ => ?_⟩
      rw [((hprunes.trans hprunes').resource y).inUse hinUse, hsame]
  · rename_i hnotLast
    obtain rfl := some_inj.mp hrun
    refine ⟨?_, fun y _ _ => hsame y⟩
    cases hcached : (s.resource x).inCache with
    | false => exact h.modify_of_uncached hcached ⟨rfl, rfl, rfl⟩
    | true =>
      have hkept : (withoutClient client (s.resource x)).hasClients = true := by
        cases hclients : (withoutClient client (s.resource x)).hasClients with
        | false =>
          refine absurd ?_ hnotLast
          rw [hclients]
          exact hcached
        | true => rfl
      have hhad : (s.resource x).hasClients = true := by
        rw [CachedResource.hasClients, Bool.not_eq_true', isEmpty_eq_false_iff]
        exact ne_nil_of_mem hclient
      exact h.modify_of_sameData ⟨rfl, rfl, rfl, rfl, hkept.trans hhad.symm⟩ rfl rfl

end Loops

end Map

end MemoryCache
end Loader
end WebKit
