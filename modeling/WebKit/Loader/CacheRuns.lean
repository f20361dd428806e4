import WebKit.Loader.CachePruning

/-!
# Runs of the memory cache

Every sequence of calls keeps the cache in order, as long as no access count wraps around.

* `Action`, `Allowed`, `apply`: the calls, and what their callers promise.
* `Reachable`: the states that calls lead to.
* `Sound`, `KeepsInUse`: what is promised of a state.
* `sound_of_reachable`: the promise holds in every state that is reached.
-/

namespace WebKit

open List
namespace Loader

open LinkedList CachedResource

variable {κ υ γ : Type*}

/-- The calls, with what other code decides in them. -/
inductive Action (κ γ : Type*)
  | add (x : κ)
  | evict (x : κ)
  | resourceAccessed (x : κ)
  | setDisabled (disabled : Bool)
  | setCapacities (choices : PruneChoices κ) (minDeadBytes maxDeadBytes totalBytes : Unsigned)
  | prune (choices : PruneChoices κ)
  | revalidationSucceeded (x : κ) (overheadSize handleCount : Unsigned)
  | addClient (x : κ) (client : γ)
  | removeClient (x : κ) (choices : PruneChoices κ) (client : γ)
  | setEncodedSize (x : κ) (size : Unsigned)
  | setDecodedSize (x : κ) (size : Unsigned)
  /-- The load, the preloads, the handles and the revalidation of a resource go on. -/
  | progress (x : κ) (loading hasLoader noStore : Bool) (preloadCount handleCount : Unsigned)
      (resourceToRevalidate proxyResource : Option κ)

namespace MemoryCache

/-- What a call is made with.  A resource that is added is new, and one that was revalidated has been in
the cache. -/
def Allowed (s : MemoryCache κ υ γ) : Action κ γ → Prop
  | .add x =>
    (s.resource x).inCache = false ∧ (s.resource x).accessCount = 0 ∧
      (s.resource x).deleted = false ∧
      ∀ y ∈ s.resources, (s.resource y).url ≠ (s.resource x).url
  | .resourceAccessed x => (s.resource x).inCache = true
  | .revalidationSucceeded x _ _ =>
    (s.resource x).inCache = true ∧
      ∃ resource, (s.resource x).resourceToRevalidate = some resource ∧
        (s.resource resource).inCache = false ∧ (s.resource resource).accessCount ≠ 0 ∧
        (s.resource resource).deleted = false ∧
        ∀ y ∈ s.resources, y ≠ x → (s.resource y).url ≠ (s.resource resource).url
  | .removeClient x _ client => client ∈ (s.resource x).clients
  | _ => True

/-- The access count of a resource wraps around. -/
def Wraps (s : MemoryCache κ υ γ) : Action κ γ → Prop
  | .resourceAccessed x => (s.resource x).accessCount + 1 = 0
  | _ => False

section Apply

variable [DecidableEq κ] [DecidableEq υ] [DecidableEq γ]

def apply (s : MemoryCache κ υ γ) : Action κ γ → Option (MemoryCache κ υ γ)
  | .add x => some (s.add x)
  | .evict x => some (s.evict x)
  | .resourceAccessed x => some (s.resourceAccessed x)
  | .setDisabled disabled => some (s.setDisabled disabled)
  | .setCapacities choices minDeadBytes maxDeadBytes totalBytes =>
    s.setCapacities choices minDeadBytes maxDeadBytes totalBytes
  | .prune choices => s.prune choices
  | .revalidationSucceeded x overheadSize handleCount =>
    some (s.revalidationSucceeded x overheadSize handleCount)
  | .addClient x client => some (s.addClientToSet x client)
  | .removeClient x choices client => s.removeClient x choices client
  | .setEncodedSize x size => some (s.setEncodedSize x size)
  | .setDecodedSize x size => some (s.setDecodedSize x size)
  | .progress x loading hasLoader noStore preloadCount handleCount resourceToRevalidate
      proxyResource =>
    some (s.modify x fun r =>
      { r with
        loading, hasLoader, preloadCount, handleCount, resourceToRevalidate, proxyResource
        cacheControlContainsNoStore := noStore })

/-- No resource is cached, and all lists are empty. -/
structure Initial (s : MemoryCache κ υ γ) : Prop where
  resource : ∀ x, (s.resource x).inCache = false ∧ (s.resource x).inLiveDecodedResourcesList = false
  resources : s.resources = []
  allLinks : s.allLinks = ⟨fun _ => none, fun _ => none⟩
  allResources : s.allResources = []
  liveLinks : s.liveLinks = ⟨fun _ => none, fun _ => none⟩
  liveDecodedResources : s.liveDecodedResources = ⟨none, none⟩
  liveSize : s.liveSize = 0
  deadSize : s.deadSize = 0

/-- The states that calls of a kind lead to, with a small total size all the time. -/
inductive Reachable (calls : MemoryCache κ υ γ → Action κ γ → Prop) : MemoryCache κ υ γ → Prop
  | initial {s} : Initial s → Reachable calls s
  | step {s s' action} : Reachable calls s → Bounded s → calls s action →
      s.apply action = some s' → Reachable calls s'

end Apply

/-- The sizes, the lists and the flags are what they should be. -/
structure Sound (s : MemoryCache κ υ γ) : Prop where
  cached : s.resources.Nodup ∧ ∀ x, x ∈ s.resources ↔ (s.resource x).inCache = true
  liveSize : s.liveSize.toNat =
    ((s.resources.filter fun x => (s.resource x).hasClients).map fun x =>
      (s.resource x).size.toNat).sum
  deadSize : s.deadSize.toNat =
    ((s.resources.filter fun x => !(s.resource x).hasClients).map fun x =>
      (s.resource x).size.toNat).sum
  /-- Every list is well formed, and has the cached resources with its index. -/
  lists : ∃ lists : ℕ → List κ, (∀ i, Represents s.allLinks (s.lruList i) (lists i)) ∧
    ∀ i x, x ∈ lists i ↔ x ∈ s.resources ∧ queueIndex (s.resource x) = i
  live : ∃ live : List κ, Represents s.liveLinks s.liveDecodedResources live ∧
    ∀ x, x ∈ live ↔ (s.resource x).inLiveDecodedResourcesList = true
  flagged : ∀ x, (s.resource x).inLiveDecodedResourcesList = true →
    (s.resource x).hasClients = true ∧ x ∈ s.resources

section Runs

variable [DecidableEq κ] [DecidableEq υ] [DecidableEq γ] {s : MemoryCache κ υ γ}

/-- Pruning does not evict what has clients, is preloaded or is a cache validator, wherever it is
called. -/
structure KeepsInUse (s : MemoryCache κ υ γ) : Prop where
  prune : ∀ choices s', s.prune choices = some s' →
    ∀ x, (s.resource x).InUse → x ∈ s.resources → x ∈ s'.resources
  setCapacities : ∀ choices minDeadBytes maxDeadBytes totalBytes s',
    s.setCapacities choices minDeadBytes maxDeadBytes totalBytes = some s' →
      ∀ x, (s.resource x).InUse → x ∈ s.resources → x ∈ s'.resources
  /-- The resource itself goes if it is not to be stored. -/
  removeClient : ∀ x choices client s', client ∈ (s.resource x).clients →
    s.removeClient x choices client = some s' →
      ∀ y, ((s.modify x (withoutClient client)).resource y).InUse →
        y ≠ x ∨ (s.resource x).cacheControlContainsNoStore = false →
          y ∈ s.resources → y ∈ s'.resources

omit [DecidableEq κ] [DecidableEq υ] [DecidableEq γ] in
theorem Initial.linked (h : Initial s) : Linked s := by
  have hcached : ∀ x, ¬(s.resource x).inCache = true := fun x => by
    rw [(h.resource x).1]
    exact Bool.false_ne_true
  refine ⟨⟨⟨fun _ => [], fun i => ?_, fun i x => ?_, fun x _ => ?_, fun x hx => ?_⟩,
    ⟨[], ?_, fun x => ?_, fun x _ => ?_⟩, ?_, fun x => ?_, fun x hx => ?_, fun live => ?_⟩,
    fun x => consistent_of_uncached (h.resource x).1 (h.resource x).2⟩
  · rw [lruList, h.allResources]
    exact represents_nil _
  · exact iff_of_false not_mem_nil fun hx => hcached x hx.1
  · rw [h.allLinks]
    exact ⟨rfl, rfl⟩
  · exact absurd hx (hcached x)
  · rw [h.liveDecodedResources]
    exact represents_nil _
  · rw [(h.resource x).2]
    exact iff_of_false not_mem_nil Bool.false_ne_true
  · rw [h.liveLinks]
    exact ⟨rfl, rfl⟩
  · rw [h.resources]
    exact nodup_nil
  · rw [h.resources]
    exact iff_of_false not_mem_nil (hcached x)
  · rw [h.resources] at hx
    exact absurd hx not_mem_nil
  · rw [totalSize, shares, h.liveSize, h.deadSize, h.resources, ite_self]
    rfl

/-- Every call keeps the cache in order. -/
theorem Linked.apply (h : Linked s)
    (hbounded : Bounded s) (hallowed : Allowed s action) (hwraps : ¬Wraps s action)
    (hrun : s.apply action = some s') : Linked s' := by
  cases action with
  | add x =>
    obtain ⟨hcached, hcount, halive, hurl⟩ := hallowed
    exact Option.some_inj.mp hrun ▸ h.add hcached hcount halive hurl
  | evict x => exact Option.some_inj.mp hrun ▸ h.evict x
  | resourceAccessed x => exact Option.some_inj.mp hrun ▸ h.resourceAccessed hallowed hwraps
  | setDisabled disabled => exact Option.some_inj.mp hrun ▸ h.setDisabled disabled
  | setCapacities choices minDeadBytes maxDeadBytes totalBytes =>
    exact (h.setCapacities hbounded hrun).1
  | prune choices => exact (h.prune hbounded hrun).1
  | revalidationSucceeded x overheadSize handleCount =>
    obtain ⟨hcachedx, resource, hrevalidate, hcached, hcount, halive, hurl⟩ := hallowed
    exact Option.some_inj.mp hrun ▸ h.revalidationSucceeded overheadSize handleCount hrevalidate
      hcachedx hcached hcount halive hurl
  | addClient x client => exact Option.some_inj.mp hrun ▸ h.addClientToSet x client
  | removeClient x choices client => exact (h.removeClient hbounded hallowed hrun).1
  | setEncodedSize x size => exact Option.some_inj.mp hrun ▸ h.setEncodedSize x size
  | setDecodedSize x size => exact Option.some_inj.mp hrun ▸ h.setDecodedSize x size
  | progress x loading hasLoader noStore preloadCount handleCount resourceToRevalidate
      proxyResource =>
    exact Option.some_inj.mp hrun ▸ h.modify_of_sameData ⟨rfl, rfl, rfl, rfl, rfl⟩ rfl rfl

theorem linked_of_reachable
    (h : Reachable (fun s action => Allowed s action ∧ ¬Wraps s action) s) : Linked s := by
  induction h with
  | initial h => exact h.linked
  | step _ hbounded hcalls hrun ih => exact ih.apply hbounded hcalls.1 hcalls.2 hrun

omit [DecidableEq κ] [DecidableEq υ] [DecidableEq γ] in
/-- A sum that does not wrap around. -/
theorem sum_toNat {resources : List κ} {f : κ → Unsigned}
    (h : (resources.map fun x => (f x).toNat).sum < 2 ^ 32) :
    (resources.map f).sum.toNat = (resources.map fun x => (f x).toNat).sum := by
  induction resources with
  | nil => rfl
  | cons x resources ih =>
    rw [map_cons, sum_cons] at h ⊢
    rw [map_cons, sum_cons, BitVec.toNat_add, ih (by omega), Nat.mod_eq_of_lt h]

omit [DecidableEq κ] [DecidableEq υ] [DecidableEq γ] in
/-- A sum of shares is a sum over the resources with or without clients. -/
theorem shares_eq (s : MemoryCache κ υ γ) (live : Bool) :
    s.shares live = ((s.resources.filter fun x => (s.resource x).hasClients == live).map fun x =>
      (s.resource x).size).sum := by
  rw [shares]
  induction s.resources with
  | nil => rfl
  | cons x resources ih =>
    rw [map_cons, sum_cons, ih, filter_cons, share]
    by_cases hlive : (s.resource x).hasClients = live
    · rw [if_pos hlive, if_pos (beq_iff_eq.mpr hlive), map_cons, sum_cons]
    · rw [if_neg hlive, if_neg fun heq => hlive (beq_iff_eq.mp heq), zero_add]

omit [DecidableEq κ] [DecidableEq υ] [DecidableEq γ] in
theorem Linked.totalSize_toNat (h : Linked s) (hbounded : Bounded s) (live : Bool) :
    (s.totalSize live).toNat =
      ((s.resources.filter fun x => (s.resource x).hasClients == live).map fun x =>
        (s.resource x).size.toNat).sum := by
  have hsizes := h.holds.sizes live
  rw [add_zero] at hsizes
  rw [hsizes, shares_eq]
  refine sum_toNat (Nat.lt_of_le_of_lt ?_ (hbounded.trans (by decide)))
  refine (sum_le_sum fun x hx => ?_).trans
    ((filter_sublist.map fun x => (s.resource x).totalBytes).sum_le_sum fun _ _ =>
      Nat.zero_le _)
  exact (size_toNat (hbounded.lt (mem_of_mem_filter hx))).le

omit [DecidableEq κ] [DecidableEq υ] [DecidableEq γ] in
theorem Linked.sound (h : Linked s) (hbounded : Bounded s) : Sound s where
  cached := ⟨h.holds.nodup, h.holds.cached⟩
  liveSize := by
    have hlive := h.totalSize_toNat hbounded true
    simp only [beq_true] at hlive
    exact hlive
  deadSize := by
    have hdead := h.totalSize_toNat hbounded false
    simp only [beq_false] at hdead
    exact hdead
  lists := by
    obtain ⟨lists, hlists⟩ := h.holds.lists
    refine ⟨lists, hlists.represents, fun i x => ?_⟩
    rw [hlists.mem_iff, h.holds.cached]
  live := h.holds.live.imp fun _ hlive => ⟨hlive.represents, hlive.mem_iff⟩
  flagged := fun x hx => by
    rw [h.holds.cached]
    exact (h.consistent x).flagged hx

theorem Linked.keepsInUse (h : Linked s) (hbounded : Bounded s) : KeepsInUse s where
  prune := fun choices s' hrun x hinUse hx => by
    obtain ⟨hlinked, hprunes⟩ := h.prune hbounded hrun
    rw [hlinked.holds.cached, (hprunes.resource x).inUse hinUse, ← h.holds.cached]
    exact hx
  setCapacities := fun choices minDeadBytes maxDeadBytes totalBytes s' hrun x hinUse hx => by
    obtain ⟨hlinked, hprunes⟩ := h.setCapacities hbounded hrun
    rw [hlinked.holds.cached, (hprunes.resource x).inUse hinUse, ← h.holds.cached]
    exact hx
  removeClient := fun x choices client s' hclient hrun y hinUse hy hmem => by
    obtain ⟨hlinked, hkept⟩ := h.removeClient hbounded hclient hrun
    rw [hlinked.holds.cached, hkept y hinUse hy, ← h.holds.cached]
    exact hmem

/-- In every state that is reached without an access count that wraps around, the sizes and the lists
are right, and pruning keeps what is in use. -/
theorem sound_of_reachable
    (h : Reachable (fun s action => Allowed s action ∧ ¬Wraps s action) s) (hbounded : Bounded s) :
    Sound s ∧ KeepsInUse s :=
  ⟨(linked_of_reachable h).sound hbounded, (linked_of_reachable h).keepsInUse hbounded⟩

end Runs

/-! ## An access count that wraps around -/

section Wrapping

/-- A resource of one byte, which is not in the cache. -/
def oneByte : CachedResource Unit Unit Unit where
  url := ()
  inCache := false
  accessCount := 0
  encodedSize := 1
  decodedSize := 0
  overheadSize := 0
  clients := []
  inLiveDecodedResourcesList := false
  loading := false
  hasLoader := false
  preloadCount := 0
  handleCount := 1
  resourceToRevalidate := none
  proxyResource := none
  cacheControlContainsNoStore := false
  protocolIsHTTPS := false
  deleted := false

def emptyCache : MemoryCache Unit Unit Unit where
  resource := fun _ => oneByte
  resources := []
  allLinks := ⟨fun _ => none, fun _ => none⟩
  allResources := []
  liveLinks := ⟨fun _ => none, fun _ => none⟩
  liveDecodedResources := ⟨none, none⟩
  liveSize := 0
  deadSize := 0
  disabled := false
  pruneEnabled := true
  inPruneDeadResources := false
  capacity := 8388608
  minDeadCapacity := 0
  maxDeadCapacity := 8388608

theorem initial_emptyCache : Initial emptyCache :=
  ⟨fun _ => ⟨rfl, rfl⟩, rfl, rfl, rfl, rfl, rfl, rfl, rfl⟩

theorem allowed_add : Allowed emptyCache (.add ()) :=
  ⟨rfl, rfl, rfl, fun _ hy => absurd hy not_mem_nil⟩

/-- A resource is added, given to a client and accessed once more; the client leaves, and the resource
is evicted. -/
theorem sound_of_reachable_add :
    let used := ((emptyCache.add ()).addClientToSet () ()).resourceAccessed ()
    let left := (used.removeClient () ⟨id, fun _ => 0, fun _ => 0, fun _ => false, 0⟩ ()).getD used
    Sound (left.evict ()) ∧ KeepsInUse (left.evict ()) :=
  let calls := fun (s : MemoryCache Unit Unit Unit) action => Allowed s action ∧ ¬Wraps s action
  have hadded : Reachable calls (emptyCache.add ()) :=
    .step (.initial initial_emptyCache) (by decide) ⟨allowed_add, fun hwraps => hwraps⟩ rfl
  have hclient := hadded.step (by decide) (show calls _ (.addClient () ()) from
    ⟨trivial, fun hwraps => hwraps⟩) rfl
  have hused := hclient.step (by decide) (show calls _ (.resourceAccessed ()) from
    ⟨rfl, show (1 : Unsigned) + 1 ≠ 0 by decide⟩) rfl
  have hleft := hused.step (by decide) (show calls _ (.removeClient ()
    ⟨id, fun _ => 0, fun _ => 0, fun _ => false, 0⟩ ()) from
      ⟨show () ∈ [()] by decide, fun hwraps => hwraps⟩) rfl
  have hevicted := hleft.step (by decide) (show calls _ (.evict ()) from
    ⟨trivial, fun hwraps => hwraps⟩) rfl
  sound_of_reachable hevicted (by decide)

theorem resourceAccessed_resources [DecidableEq κ] (s : MemoryCache κ υ γ) (x : κ) :
    (s.resourceAccessed x).resources = s.resources := by
  obtain ⟨links, all, heq⟩ := removeFromLRUList_eq s x
  rw [resourceAccessed, heq]
  change MemoryCache.resources (if _ then _ else _) = _
  split
  · rw [adjustSize_eq]
  · rfl

/-- The size is counted when the access count is 0. -/
theorem resourceAccessed_totalSize [DecidableEq κ] (s : MemoryCache κ υ γ) (x : κ) (live : Bool) :
    (s.resourceAccessed x).totalSize live =
      s.totalSize live + if (s.resource x).accessCount = 0 then share live (s.resource x) else 0 := by
  obtain ⟨links, all, heq⟩ := removeFromLRUList_eq s x
  rw [resourceAccessed, heq]
  change totalSize (if (s.resource x).accessCount = 0 then _ else _) live = _
  split
  · rw [totalSize_adjustSize]
    rfl
  · exact (add_zero _).symm

theorem Reachable.resourceAccessed {s : MemoryCache Unit Unit Unit} (h : Reachable Allowed s)
    (hbounded : Bounded s) (hcached : (s.resource ()).inCache = true) :
    Reachable Allowed (s.resourceAccessed ()) :=
  .step h hbounded (show Allowed s (.resourceAccessed ()) from hcached) rfl

/-- The resource is accessed again and again. -/
theorem reachable_accesses (k : ℕ) (hk : k < 2 ^ 32) :
    ∃ s : MemoryCache Unit Unit Unit, Reachable Allowed s ∧ Bounded s ∧ s.resources = [()] ∧
      s.resource () = { oneByte with inCache := true, accessCount := BitVec.ofNat 32 (k + 1) } ∧
      s.totalSize false = 1 := by
  induction k with
  | zero =>
    exact ⟨emptyCache.add (), .step (.initial initial_emptyCache) (by decide) allowed_add rfl,
      by decide, rfl, rfl, rfl⟩
  | succ k ih =>
    obtain ⟨s, hreachable, hbounded, hresources, hresource, htotal⟩ := ih (by omega)
    have hself := changes_resourceAccessed.self (s := s) (x := ())
    have hcount : (s.resource ()).accessCount ≠ 0 := by
      rw [hresource]
      intro hzero
      have htoNat := congrArg BitVec.toNat hzero
      change (k + 1) % 2 ^ 32 = 0 at htoNat
      omega
    have hresource' : (s.resourceAccessed ()).resource () =
        { oneByte with inCache := true, accessCount := BitVec.ofNat 32 (k + 1 + 1) } := by
      rw [hself, hresource, BitVec.ofNat_add (k + 1)]
      rfl
    have hresources' := (resourceAccessed_resources s ()).trans hresources
    refine ⟨s.resourceAccessed (), hreachable.resourceAccessed hbounded ?_, ?_, hresources',
      hresource', ?_⟩
    · rw [hresource]
    · rw [Bounded, hresources', map_singleton, hresource']
      exact (by decide : List.sum [1] < 2 ^ 31)
    · rw [resourceAccessed_totalSize, if_neg hcount, htotal]
      rfl

/-- After 2^32 accesses the size of the resource is counted twice. -/
theorem not_sound_of_wraps :
    ¬∀ s : MemoryCache Unit Unit Unit, Reachable Allowed s → Bounded s → Sound s ∧ KeepsInUse s := by
  intro hall
  obtain ⟨s, hreachable, hbounded, hresources, hresource, htotal⟩ :=
    reachable_accesses (2 ^ 32 - 1) (by decide)
  have hresources' := (resourceAccessed_resources s ()).trans hresources
  have hresource' := changes_resourceAccessed.self (s := s) (x := ())
  rw [hresource] at hresource'
  have hsound := (hall (s.resourceAccessed ())
    (hreachable.resourceAccessed hbounded (by rw [hresource])) (by
    rw [Bounded, hresources', map_singleton, hresource']
    decide)).1
  have hdead := hsound.deadSize
  have htwo : (s.resourceAccessed ()).totalSize false = 2 := by
    rw [resourceAccessed_totalSize, htotal, hresource]
    rfl
  change ((s.resourceAccessed ()).totalSize false).toNat = _ at hdead
  rw [htwo, hresources', filter_singleton, hresource'] at hdead
  change 2 = List.sum [((s.resourceAccessed ()).resource ()).size.toNat] at hdead
  rw [hresource'] at hdead
  exact absurd hdead (by decide)

end Wrapping

end MemoryCache

end Loader
end WebKit
