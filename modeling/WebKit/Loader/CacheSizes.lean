import Mathlib.Algebra.BigOperators.Group.List.Basic
import Mathlib.Tactic.Ring
import WebKit.Loader.CacheLists

/-!
# The sizes of the memory cache

The live size and the dead size against the sums over the cached resources, while an operation is
going on: a resource may be out of the lists, and an amount may not be counted yet.

* `share`: what a resource adds to the live size or to the dead size.
* `Holds`: the lists, the map and the sizes, up to what is listed and what is still to be counted.
* `Holds.modify_of_cached`, `Holds.setResource`, `Holds.uncache`, `Holds.adjustSize`: what the parts of
  the operations do to them.
-/

namespace WebKit

open List
namespace Loader

open LinkedList

variable {κ υ γ : Type*}

/-- What a resource adds to the live size, or to the dead size. -/
def share (live : Bool) (resource : CachedResource κ υ γ) : Unsigned :=
  if resource.hasClients = live then resource.size else 0

namespace MemoryCache

/-- The live size, or the dead size. -/
def totalSize (s : MemoryCache κ υ γ) (live : Bool) : Unsigned :=
  if live then s.liveSize else s.deadSize

/-- What the cached resources add. -/
def shares (s : MemoryCache κ υ γ) (live : Bool) : Unsigned :=
  (s.resources.map fun x => share live (s.resource x)).sum

/-- The lists, the map and the sizes.  The listed resources are given, and an amount for each of the
sizes that is not counted yet. -/
structure Holds (s : MemoryCache κ υ γ) (listed : κ → Prop) (missing : Bool → Unsigned) : Prop where
  lists : ∃ lists, Lists s listed lists
  live : ∃ live, Live s live
  nodup : s.resources.Nodup
  cached : ∀ x, x ∈ s.resources ↔ (s.resource x).inCache = true
  url_injOn : ∀ x ∈ s.resources, ∀ y ∈ s.resources, (s.resource x).url = (s.resource y).url → x = y
  sizes : ∀ live, s.totalSize live + missing live = s.shares live

variable [DecidableEq κ] {s : MemoryCache κ υ γ} {x : κ} {listed : κ → Prop}
  {missing : Bool → Unsigned}

/-! ## Resources that are changed -/

variable (f : CachedResource κ υ γ → CachedResource κ υ γ)

theorem modify_of_ne (h : y ≠ x) : (s.modify x f).resource y = s.resource y :=
  Function.update_of_ne h _ _

theorem modify_self : (s.modify x f).resource x = f (s.resource x) :=
  Function.update_self _ _ _

theorem shares_modify_of_notMem
    (h : x ∉ s.resources) (live : Bool) : (s.modify x f).shares live = s.shares live := by
  refine congrArg List.sum (map_congr_left fun y hy => ?_)
  rw [modify_of_ne]
  rintro rfl
  exact h hy

theorem shares_modify (hx : x ∈ s.resources) (hnodup : s.resources.Nodup) (live : Bool) :
    (s.modify x f).shares live =
      s.shares live - share live (s.resource x) + share live (f (s.resource x)) := by
  have hold := sum_map_erase (fun y => share live (s.resource y)) hx
  have hnew := sum_map_erase (fun y => share live ((s.modify x f).resource y)) hx
  have hrest : (s.resources.erase x).map (fun y => share live ((s.modify x f).resource y)) =
      (s.resources.erase x).map fun y => share live (s.resource y) := by
    refine map_congr_left fun y hy => ?_
    rw [modify_of_ne _ (hnodup.mem_erase_iff.mp hy).1]
  rw [hrest] at hnew
  rw [modify_self] at hnew
  change (s.resources.map _).sum = (s.resources.map _).sum - _ + _
  rw [← hold, ← hnew]
  ring

/-- The url and the flags of a resource stay. -/
structure Keeps (r r' : CachedResource κ υ γ) : Prop where
  url : r'.url = r.url
  inCache : r'.inCache = r.inCache
  inLiveDecodedResourcesList : r'.inLiveDecodedResourcesList = r.inLiveDecodedResourcesList

/-- A resource stays in its list, or is in none. -/
def KeepsList (listed : Prop) (r r' : CachedResource κ υ γ) : Prop :=
  listed → queueIndex r' = queueIndex r ∧ r'.accessCount = r.accessCount

section Modify

variable {f : CachedResource κ υ γ → CachedResource κ υ γ}

theorem Lists.modify (h : Lists s listed lists)
    (hlist : KeepsList (listed x) (s.resource x) (f (s.resource x))) :
    Lists (s.modify x f) listed lists := by
  refine h.congr rfl rfl fun y hy => ?_
  by_cases hyx : y = x
  · subst hyx
    rw [modify_self, (hlist hy).1, (hlist hy).2]
    exact ⟨rfl, h.accessed y hy⟩
  · rw [modify_of_ne _ hyx]
    exact ⟨rfl, h.accessed y hy⟩

theorem Live.modify (h : Live s live) (hflag : (f (s.resource x)).inLiveDecodedResourcesList =
      (s.resource x).inLiveDecodedResourcesList) : Live (s.modify x f) live := by
  refine h.congr rfl rfl fun y => ?_
  by_cases hyx : y = x
  · rw [hyx, modify_self, hflag]
  · rw [modify_of_ne _ hyx]

theorem modify_url (hurl : (f (s.resource x)).url = (s.resource x).url) (y : κ) :
    ((s.modify x f).resource y).url = (s.resource y).url := by
  by_cases hyx : y = x
  · rw [hyx, modify_self, hurl]
  · rw [modify_of_ne _ hyx]

theorem modify_inCache (hcached : (f (s.resource x)).inCache = (s.resource x).inCache) (y : κ) :
    ((s.modify x f).resource y).inCache = (s.resource y).inCache := by
  by_cases hyx : y = x
  · rw [hyx, modify_self, hcached]
  · rw [modify_of_ne _ hyx]

variable (h : Holds s listed missing) (hkeeps : Keeps (s.resource x) (f (s.resource x)))
  (hlist : KeepsList (listed x) (s.resource x) (f (s.resource x)))

include h hkeeps hlist

/-- A resource changes. -/
theorem Holds.modify
    (hshares : ∀ live, s.totalSize live + missing' live = (s.modify x f).shares live) :
    Holds (s.modify x f) listed missing' where
  lists := h.lists.imp fun _ hlists => hlists.modify hlist
  live := h.live.imp fun _ hlive => hlive.modify hkeeps.inLiveDecodedResourcesList
  nodup := h.nodup
  cached := fun y => by
    rw [modify_inCache hkeeps.inCache]
    exact h.cached y
  url_injOn := fun y hy z hz hurl => by
    rw [modify_url hkeeps.url, modify_url hkeeps.url] at hurl
    exact h.url_injOn y hy z hz hurl
  sizes := hshares

/-- A cached resource changes, and what it adds now is to be counted. -/
theorem Holds.modify_of_cached (hcached : (s.resource x).inCache = true) :
    Holds (s.modify x f) listed fun live =>
      missing live - share live (s.resource x) + share live (f (s.resource x)) := by
  refine h.modify hkeeps hlist fun live => ?_
  rw [shares_modify f ((h.cached x).mpr hcached) h.nodup, ← h.sizes live]
  ring

/-- A cached resource changes and adds as much as before. -/
theorem Holds.modify_of_share_eq
    (hshare : ∀ live, share live (f (s.resource x)) = share live (s.resource x)) :
    Holds (s.modify x f) listed missing := by
  refine h.modify hkeeps hlist fun live => ?_
  rw [h.sizes live]
  refine congrArg List.sum (map_congr_left fun y _ => ?_)
  by_cases hyx : y = x
  · rw [hyx, modify_self, hshare]
  · rw [modify_of_ne _ hyx]

/-- A resource that is not cached changes. -/
theorem Holds.modify_of_uncached (huncached : (s.resource x).inCache = false) :
    Holds (s.modify x f) listed missing := by
  refine h.modify hkeeps hlist fun live => ?_
  rw [h.sizes live, shares_modify_of_notMem]
  rw [h.cached, huncached]
  exact Bool.false_ne_true

end Modify

/-! ## The lists -/

theorem removeFromLRUList_eq (s : MemoryCache κ υ γ) (x : κ) :
    ∃ links all, s.removeFromLRUList x = { s with allLinks := links, allResources := all } := by
  rw [MemoryCache.removeFromLRUList]
  split
  · exact ⟨s.allLinks, s.allResources, rfl⟩
  · exact ⟨_, _, rfl⟩

theorem removeFromLRUList_resource (s : MemoryCache κ υ γ) (x : κ) :
    (s.removeFromLRUList x).resource = s.resource := by
  obtain ⟨links, all, heq⟩ := removeFromLRUList_eq s x
  rw [heq]

variable (h : Holds s listed missing)

include h

/-- Only the lists change. -/
theorem Holds.congr_lists {all : List (ListEnds κ)}
    (hlists : ∃ lists, Lists { s with allLinks := links, allResources := all } listed' lists) :
    Holds { s with allLinks := links, allResources := all } listed' missing where
  lists := hlists
  live := h.live.imp fun _ hlive => hlive.congr rfl rfl fun _ => rfl
  nodup := h.nodup
  cached := h.cached
  url_injOn := h.url_injOn
  sizes := h.sizes

/-- A resource is taken out of its list. -/
theorem Holds.removeFromLRUList (hx : listed x) :
    Holds (s.removeFromLRUList x) (fun y => listed y ∧ y ≠ x) missing := by
  obtain ⟨lists, hlists⟩ := h.lists
  obtain ⟨before, after, -, hremoved⟩ := hlists.removeFromLRUList hx
  obtain ⟨links, all, heq⟩ := removeFromLRUList_eq s x
  rw [heq] at hremoved ⊢
  exact h.congr_lists ⟨_, hremoved⟩

/-- A resource that has been accessed is put into its list. -/
theorem Holds.insertInLRUList (hx : ¬listed x) (haccessed : (s.resource x).accessCount ≠ 0) :
    Holds (s.insertInLRUList x) (fun y => listed y ∨ y = x) missing := by
  obtain ⟨lists, hlists⟩ := h.lists
  exact h.congr_lists ⟨_, hlists.insertInLRUList hx haccessed⟩

omit [DecidableEq κ] in
theorem Holds.congr_listed (hiff : ∀ x, listed x ↔ listed' x) : Holds s listed' missing where
  lists := h.lists.imp fun _ hlists => hlists.congr_listed hiff
  live := h.live
  nodup := h.nodup
  cached := h.cached
  url_injOn := h.url_injOn
  sizes := h.sizes

omit [DecidableEq κ] in
theorem Holds.congr_missing
    (heq : ∀ live, missing live = missing' live) : Holds s listed missing' := by
  rwa [← funext heq]

/-! ## The list of live decoded resources -/

/-- The data that tell the list and the share of a resource are the same. -/
structure SameData (r r' : CachedResource κ υ γ) : Prop where
  url : r'.url = r.url
  inCache : r'.inCache = r.inCache
  accessCount : r'.accessCount = r.accessCount
  size : r'.size = r.size
  hasClients : r'.hasClients = r.hasClients

omit h [DecidableEq κ] in
theorem SameData.share_eq (h : SameData r r') (live : Bool) :
    share live r' = share live r := by
  rw [share, share, h.hasClients, h.size]

omit h [DecidableEq κ] in
theorem SameData.queueIndex_eq (h : SameData r r') :
    queueIndex r' = queueIndex r := by
  rw [queueIndex, queueIndex, h.accessCount, h.size]

omit [DecidableEq κ] in
/-- Only what is not listed or counted differs. -/
theorem Holds.congr {s' : MemoryCache κ υ γ} (hdata : ∀ y, SameData (s.resource y) (s'.resource y))
    (hlinks : s'.allLinks = s.allLinks) (hall : s'.allResources = s.allResources)
    (hresources : s'.resources = s.resources) (htotal : ∀ live, s'.totalSize live = s.totalSize live)
    (hlive : ∃ live, Live s' live) : Holds s' listed missing where
  lists := by
    obtain ⟨lists, hlists⟩ := h.lists
    refine ⟨lists, hlists.congr hlinks hall fun y hy => ?_⟩
    rw [(hdata y).queueIndex_eq, (hdata y).accessCount]
    exact ⟨rfl, hlists.accessed y hy⟩
  live := hlive
  nodup := by
    rw [hresources]
    exact h.nodup
  cached := fun y => by
    rw [hresources, (hdata y).inCache]
    exact h.cached y
  url_injOn := fun y hy z hz hurl => by
    rw [hresources] at hy hz
    rw [(hdata y).url, (hdata z).url] at hurl
    exact h.url_injOn y hy z hz hurl
  sizes := fun live => by
    rw [htotal, h.sizes live, shares, shares, hresources]
    exact congrArg List.sum (map_congr_left fun y _ => ((hdata y).share_eq live).symm)

omit h [DecidableEq κ] in
theorem SameData.refl (r : CachedResource κ υ γ) : SameData r r := ⟨rfl, rfl, rfl, rfl, rfl⟩

omit h in
theorem sameData_flag (s : MemoryCache κ υ γ) (x : κ) (flag : Bool) (y : κ) :
    SameData (s.resource y)
      ((s.modify x fun r => { r with inLiveDecodedResourcesList := flag }).resource y) := by
  by_cases hyx : y = x
  · rw [hyx, modify_self]
    exact ⟨rfl, rfl, rfl, rfl, rfl⟩
  · rw [modify_of_ne _ hyx]
    exact SameData.refl _

/-- A resource is no longer flagged. -/
theorem Holds.removeFromLiveDecodedResourcesList (x : κ) :
    Holds (s.removeFromLiveDecodedResourcesList x) listed missing := by
  obtain ⟨live, hlive⟩ := h.live
  have hremoved := hlive.removeFromLiveDecodedResourcesList x
  rw [MemoryCache.removeFromLiveDecodedResourcesList] at hremoved ⊢
  split
  · exact h
  · rename_i hflag
    rw [if_neg hflag] at hremoved
    exact h.congr (sameData_flag s x false) rfl rfl rfl (fun _ => rfl) hremoved

/-- A resource is flagged. -/
theorem Holds.insertInLiveDecodedResourcesList
    (hx : (s.resource x).inLiveDecodedResourcesList = false) :
    Holds (s.insertInLiveDecodedResourcesList x) listed missing := by
  obtain ⟨live, hlive⟩ := h.live
  exact h.congr (sameData_flag s x true) rfl rfl rfl (fun _ => rfl)
    ⟨_, hlive.insertInLiveDecodedResourcesList hx⟩

/-! ## The map and the counters -/

omit h [DecidableEq κ] in
theorem adjustSize_eq (s : MemoryCache κ υ γ) (live : Bool) (delta : Unsigned) :
    s.adjustSize live delta =
      { s with
        liveSize := if live then s.liveSize + delta else s.liveSize
        deadSize := if live then s.deadSize else s.deadSize + delta } := by
  cases live <;> rfl

omit h [DecidableEq κ] in
theorem totalSize_adjustSize (s : MemoryCache κ υ γ) (live b : Bool) (delta : Unsigned) :
    (s.adjustSize live delta).totalSize b = s.totalSize b + if live = b then delta else 0 := by
  cases live <;> cases b
  · rfl
  · exact (add_zero s.liveSize).symm
  · exact (add_zero s.deadSize).symm
  · rfl

omit [DecidableEq κ] in
/-- One of the counters changes. -/
theorem Holds.adjustSize (live : Bool) (delta : Unsigned) :
    Holds (s.adjustSize live delta) listed fun b => missing b - if live = b then delta else 0 := by
  have hsizes : ∀ b, (s.adjustSize live delta).totalSize b +
      (missing b - if live = b then delta else 0) = s.shares b := by
    intro b
    rw [totalSize_adjustSize, ← h.sizes b]
    ring
  rw [adjustSize_eq] at hsizes ⊢
  exact ⟨h.lists.imp fun _ hlists => hlists.congr rfl rfl fun y hy => ⟨rfl, hlists.accessed y hy⟩,
    h.live.imp fun _ hlive => hlive.congr rfl rfl fun _ => rfl, h.nodup, h.cached, h.url_injOn,
    hsizes⟩

section Map

variable [DecidableEq υ]

theorem mem_removeURL (hx : x ∈ s.resources) (y : κ) :
    y ∈ (s.removeURL (s.resource x).url).resources ↔ y ∈ s.resources ∧ y ≠ x := by
  rw [removeURL, mem_filter, decide_eq_true_iff]
  refine and_congr_right fun hy => not_congr ⟨h.url_injOn y hy x hx, ?_⟩
  rintro rfl
  rfl

/-- A cached resource leaves the map, and is no longer cached. -/
theorem Holds.uncache (hcached : (s.resource x).inCache = true) :
    Holds ((s.removeURL (s.resource x).url).modify x fun r => { r with inCache := false }) listed
      fun live => missing live - share live (s.resource x) := by
  have hx : x ∈ s.resources := (h.cached x).mpr hcached
  have hmem := mem_removeURL h hx
  have hnodup : (s.removeURL (s.resource x).url).resources.Nodup := h.nodup.filter _
  have herase : (s.removeURL (s.resource x).url).resources.Perm (s.resources.erase x) := by
    rw [perm_ext_iff_of_nodup hnodup (h.nodup.erase x)]
    intro y
    rw [hmem, h.nodup.mem_erase_iff, and_comm]
  have hout : x ∉ (s.removeURL (s.resource x).url).resources := fun hin => ((hmem x).mp hin).2 rfl
  constructor
  · obtain ⟨lists, hlists⟩ := h.lists
    have hremoved : Lists (s.removeURL (s.resource x).url) listed lists :=
      hlists.congr rfl rfl fun y hy => ⟨rfl, hlists.accessed y hy⟩
    exact ⟨lists, hremoved.modify fun _ => ⟨rfl, rfl⟩⟩
  · obtain ⟨live, hlive⟩ := h.live
    have hremoved : Live (s.removeURL (s.resource x).url) live := hlive.congr rfl rfl fun _ => rfl
    exact ⟨live, hremoved.modify rfl⟩
  · exact hnodup
  · intro y
    refine (hmem y).trans ?_
    by_cases hyx : y = x
    · subst hyx
      rw [modify_self]
      exact iff_of_false (fun hy => hy.2 rfl) Bool.false_ne_true
    · rw [modify_of_ne _ hyx, h.cached]
      exact and_iff_left hyx
  · intro y hy z hz hurl
    rw [modify_url rfl, modify_url rfl] at hurl
    exact h.url_injOn y ((hmem y).mp hy).1 z ((hmem z).mp hz).1 hurl
  · intro live
    have hsum := sum_map_erase (fun y => share live (s.resource y)) hx
    have hrest := (herase.map fun y => share live (s.resource y)).sum_eq
    rw [shares_modify_of_notMem _ hout]
    change s.totalSize live + _ =
      ((s.removeURL (s.resource x).url).resources.map fun y => share live (s.resource y)).sum
    rw [hrest]
    have hsizes := h.sizes live
    rw [shares, ← hsum] at hsizes
    calc s.totalSize live + (missing live - share live (s.resource x))
        = s.totalSize live + missing live - share live (s.resource x) := by ring
      _ = _ := by rw [hsizes]; ring

/-- A resource enters the map, where its URL was not. -/
theorem Holds.setResource (hx : (s.resource x).inCache = false)
    (hurl : ∀ y ∈ s.resources, (s.resource y).url ≠ (s.resource x).url) :
    Holds (s.setResource x) listed fun live => missing live + share live (s.resource x) := by
  have hall : s.resources.filter (fun y => (s.resource y).url ≠ (s.resource x).url) =
      s.resources := filter_eq_self.mpr fun y hy => decide_eq_true (hurl y hy)
  have hout : x ∉ s.resources := by
    rw [h.cached, hx]
    exact Bool.false_ne_true
  have heq : s.setResource x =
      { s with resources := x :: s.resources }.modify x fun r => { r with inCache := true } := by
    rw [MemoryCache.setResource, removeURL]
    rw [hall]
  rw [heq]
  constructor
  · obtain ⟨lists, hlists⟩ := h.lists
    have hadded : Lists { s with resources := x :: s.resources } listed lists :=
      hlists.congr rfl rfl fun y hy => ⟨rfl, hlists.accessed y hy⟩
    exact ⟨lists, hadded.modify fun _ => ⟨rfl, rfl⟩⟩
  · obtain ⟨live, hlive⟩ := h.live
    have hadded : Live { s with resources := x :: s.resources } live :=
      hlive.congr rfl rfl fun _ => rfl
    exact ⟨live, hadded.modify rfl⟩
  · exact nodup_cons.mpr ⟨hout, h.nodup⟩
  · intro y
    refine mem_cons.trans ?_
    by_cases hyx : y = x
    · subst hyx
      rw [modify_self]
      exact iff_of_true (Or.inl rfl) rfl
    · rw [modify_of_ne _ hyx, or_iff_right hyx]
      exact h.cached y
  · intro y hy z hz hsame
    rw [modify_url rfl, modify_url rfl] at hsame
    rcases mem_cons.mp hy with rfl | hyin <;> rcases mem_cons.mp hz with rfl | hzin
    · rfl
    · exact absurd hsame.symm (hurl z hzin)
    · exact absurd hsame (hurl y hyin)
    · exact h.url_injOn y hyin z hzin hsame
  · intro live
    have hadded : MemoryCache.shares { s with resources := x :: s.resources } live =
        share live (s.resource x) + s.shares live := by
      rfl
    rw [shares_modify _ mem_cons_self (nodup_cons.mpr ⟨hout, h.nodup⟩), hadded, ← h.sizes live]
    change s.totalSize live + (missing live + share live (s.resource x)) =
      share live (s.resource x) + (s.totalSize live + missing live) - share live (s.resource x) +
        share live (s.resource x)
    ring

end Map

end MemoryCache
end Loader
end WebKit
