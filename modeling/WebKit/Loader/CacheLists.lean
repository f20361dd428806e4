import WebKit.Loader.MemoryCache

/-!
# The lists of the memory cache

The lists by size and the list of live decoded resources, as the lists that their links represent.

* `Lists`: the resources that are listed, each in the list with its index.
* `Lists.removeFromLRUList`, `Lists.insertInLRUList`: a resource leaves its list, or enters it.
* `Live`: the resources that are flagged.
* `Live.removeFromLiveDecodedResourcesList`, `Live.insertInLiveDecodedResourcesList`: a resource is
  flagged or not.
-/

namespace WebKit

open List Function
namespace Loader
namespace MemoryCache

open LinkedList

variable {κ υ γ : Type*} [DecidableEq κ] {s s' : MemoryCache κ υ γ} {x : κ}

/-- The resources that are listed are in the list with their index, and have been accessed. -/
structure Lists (s : MemoryCache κ υ γ) (listed : κ → Prop) (lists : ℕ → List κ) : Prop where
  represents : ∀ i, Represents s.allLinks (s.lruList i) (lists i)
  mem_iff : ∀ i x, x ∈ lists i ↔ listed x ∧ queueIndex (s.resource x) = i
  unlinked : ∀ x, ¬listed x → s.allLinks.next x = none ∧ s.allLinks.prev x = none
  accessed : ∀ x, listed x → (s.resource x).accessCount ≠ 0

/-- The flagged resources are in the list of live decoded resources. -/
structure Live (s : MemoryCache κ υ γ) (live : List κ) : Prop where
  represents : Represents s.liveLinks s.liveDecodedResources live
  mem_iff : ∀ x, x ∈ live ↔ (s.resource x).inLiveDecodedResourcesList = true
  unlinked : ∀ x, (s.resource x).inLiveDecodedResourcesList = false →
    s.liveLinks.next x = none ∧ s.liveLinks.prev x = none

/-! ## The lists by size -/

section Lists

variable {listed : κ → Prop} {lists : ℕ → List κ}

omit [DecidableEq κ] in
theorem lruList_setLRUList (s : MemoryCache κ υ γ) (i j : ℕ) (ends : ListEnds κ) (links : Links κ) :
    ({ s with allLinks := links, allResources := s.setLRUList i ends } : MemoryCache κ υ γ).lruList
      j = if j = i then ends else s.lruList j := by
  rw [lruList, setLRUList, getD_eq_getElem?_getD]
  by_cases hj : j = i
  · rw [if_pos hj, hj, List.getElem?_set_self]
    · rfl
    · rw [length_append, length_replicate]
      omega
  · rw [if_neg hj, List.getElem?_set_ne (Ne.symm hj), lruList, getD_eq_getElem?_getD]
    by_cases hlt : j < s.allResources.length
    · rw [List.getElem?_append_left hlt]
    · rw [List.getElem?_append_right (not_lt.mp hlt), List.getElem?_replicate,
        List.getElem?_eq_none (not_lt.mp hlt)]
      split <;> rfl

variable (h : Lists s listed lists)

include h

omit [DecidableEq κ] in
theorem Lists.congr (hlinks : s'.allLinks = s.allLinks) (hall : s'.allResources = s.allResources)
    (hresource : ∀ x, listed x → queueIndex (s'.resource x) = queueIndex (s.resource x) ∧
      (s'.resource x).accessCount ≠ 0) : Lists s' listed lists where
  represents := by
    intro i
    have hlist : s'.lruList i = s.lruList i := by rw [lruList, lruList, hall]
    rw [hlinks, hlist]
    exact h.represents i
  mem_iff := by
    intro i x
    rw [h.mem_iff]
    exact and_congr_right fun hx => by rw [(hresource x hx).1]
  unlinked := by
    rw [hlinks]
    exact h.unlinked
  accessed := fun x hx => (hresource x hx).2

omit [DecidableEq κ] in
theorem Lists.congr_listed (hiff : ∀ x, listed x ↔ listed' x) : Lists s listed' lists where
  represents := h.represents
  mem_iff := fun i x => (h.mem_iff i x).trans (and_congr_left fun _ => hiff x)
  unlinked := fun x hx => h.unlinked x fun hlisted => hx ((hiff x).mp hlisted)
  accessed := fun x hx => h.accessed x ((hiff x).mpr hx)

/-- A resource is taken out of its list. -/
theorem Lists.removeFromLRUList (hx : listed x) :
    ∃ before after, lists (queueIndex (s.resource x)) = before ++ x :: after ∧
      Lists (s.removeFromLRUList x) (fun y => listed y ∧ y ≠ x)
        (update lists (queueIndex (s.resource x)) (before ++ after)) := by
  have hmem : x ∈ lists (queueIndex (s.resource x)) := (h.mem_iff _ x).mpr ⟨hx, rfl⟩
  obtain ⟨before, after, hsplit⟩ := append_of_mem hmem
  have hrep := h.represents (queueIndex (s.resource x))
  rw [hsplit] at hrep
  have hsame : ∀ y, y ∉ before ++ x :: after →
      (remove s.allLinks (s.lruList (queueIndex (s.resource x))) x).1.next y = s.allLinks.next y ∧
        (remove s.allLinks (s.lruList (queueIndex (s.resource x))) x).1.prev y =
          s.allLinks.prev y := fun y hy => remove_of_notMem hrep hy
  refine ⟨before, after, hsplit, ?_⟩
  rw [MemoryCache.removeFromLRUList, if_neg (h.accessed x hx)]
  constructor
  · intro i
    rw [lruList_setLRUList]
    by_cases hi : i = queueIndex (s.resource x)
    · rw [if_pos hi, hi, update_self]
      exact hrep.remove
    · rw [if_neg hi, update_of_ne hi]
      refine (h.represents i).congr fun y hy => hsame y ?_
      rw [← hsplit, h.mem_iff]
      exact fun hother => hi (((h.mem_iff i y).mp hy).2.symm.trans hother.2)
  · intro i y
    by_cases hi : i = queueIndex (s.resource x)
    · subst hi
      have hiff := h.mem_iff (queueIndex (s.resource x)) y
      rw [hsplit, mem_append, mem_cons] at hiff
      rw [update_self]
      constructor
      · intro hy
        have hin := hiff.mp ((mem_append.mp hy).imp_right Or.inr)
        exact ⟨⟨hin.1, ne_removed hrep hy⟩, hin.2⟩
      · rintro ⟨⟨hlisted, hne⟩, hindex⟩
        exact mem_append.mpr
          ((hiff.mpr ⟨hlisted, hindex⟩).imp_right fun hcons => hcons.resolve_left hne)
    · rw [update_of_ne hi, h.mem_iff]
      refine and_congr_left fun hindex => (and_iff_left ?_).symm
      rintro rfl
      exact hi hindex.symm
  · intro y hy
    by_cases hyx : y = x
    · subst hyx
      exact remove_self hrep
    · have hlisted : ¬listed y := fun hlisted => hy ⟨hlisted, hyx⟩
      have hout : y ∉ before ++ x :: after := by
        rw [← hsplit, h.mem_iff]
        exact fun hin => hlisted hin.1
      have hlinks := hsame y hout
      have hunlinked := h.unlinked y hlisted
      exact ⟨hlinks.1.trans hunlinked.1, hlinks.2.trans hunlinked.2⟩
  · exact fun y hy => h.accessed y hy.1

/-- A resource is put into its list. -/
theorem Lists.insertInLRUList (hx : ¬listed x) (haccessed : (s.resource x).accessCount ≠ 0) :
    Lists (s.insertInLRUList x) (fun y => listed y ∨ y = x)
      (update lists (queueIndex (s.resource x))
        (x :: lists (queueIndex (s.resource x)))) := by
  have hrep := h.represents (queueIndex (s.resource x))
  have hout : x ∉ lists (queueIndex (s.resource x)) := fun hin => hx ((h.mem_iff _ x).mp hin).1
  rw [MemoryCache.insertInLRUList]
  constructor
  · intro i
    rw [lruList_setLRUList]
    by_cases hi : i = queueIndex (s.resource x)
    · rw [if_pos hi, hi, update_self]
      exact hrep.pushFront hout (h.unlinked x hx).2
    · rw [if_neg hi, update_of_ne hi]
      refine (h.represents i).congr fun y hy => pushFront_of_ne hrep ?_
      have hin := (h.mem_iff i y).mp hy
      rw [mem_cons, not_or]
      refine ⟨?_, fun hother => hi ?_⟩
      · rintro rfl
        exact hx hin.1
      · exact hin.2.symm.trans ((h.mem_iff _ y).mp hother).2
  · intro i y
    by_cases hi : i = queueIndex (s.resource x)
    · subst hi
      rw [update_self, mem_cons, h.mem_iff, or_comm]
      constructor
      · rintro (hin | rfl)
        · exact ⟨Or.inl hin.1, hin.2⟩
        · exact ⟨Or.inr rfl, rfl⟩
      · rintro ⟨hlisted | rfl, hindex⟩
        · exact Or.inl ⟨hlisted, hindex⟩
        · exact Or.inr rfl
    · rw [update_of_ne hi, h.mem_iff]
      refine and_congr_left fun hindex => (or_iff_left ?_).symm
      rintro rfl
      exact hi hindex.symm
  · intro y hy
    rw [not_or] at hy
    have hunlinked := h.unlinked y hy.1
    have hlinks := pushFront_of_ne hrep (y := y) (by
      rw [mem_cons, not_or, h.mem_iff]
      exact ⟨hy.2, fun hin => hy.1 hin.1⟩)
    exact ⟨hlinks.1.trans hunlinked.1, hlinks.2.trans hunlinked.2⟩
  · rintro y (hlisted | rfl)
    · exact h.accessed y hlisted
    · exact haccessed

end Lists

/-! ## The list of live decoded resources -/

section Live

variable {live : List κ}

omit [DecidableEq κ] in
theorem Live.congr (h : Live s live) (hlinks : s'.liveLinks = s.liveLinks)
    (hends : s'.liveDecodedResources = s.liveDecodedResources)
    (hflag : ∀ x, (s'.resource x).inLiveDecodedResourcesList =
      (s.resource x).inLiveDecodedResourcesList) : Live s' live where
  represents := by
    rw [hlinks, hends]
    exact h.represents
  mem_iff := fun x => by rw [h.mem_iff, hflag]
  unlinked := fun x hx => by
    rw [hlinks]
    exact h.unlinked x (by rw [← hflag, hx])

/-- A resource is no longer flagged. -/
theorem Live.removeFromLiveDecodedResourcesList (h : Live s live) (x : κ) :
    ∃ live', Live (s.removeFromLiveDecodedResourcesList x) live' := by
  rw [MemoryCache.removeFromLiveDecodedResourcesList]
  split
  · exact ⟨live, h⟩
  · rename_i hflag
    rw [Bool.not_eq_true', Bool.not_eq_false] at hflag
    obtain ⟨before, after, rfl⟩ := append_of_mem ((h.mem_iff x).mpr hflag)
    have hrep := h.represents
    refine ⟨before ++ after, ⟨hrep.remove, fun y => ?_, fun y hy => ?_⟩⟩
    · have hiff := h.mem_iff y
      rw [mem_append, mem_cons] at hiff
      dsimp only [modify]
      by_cases hyx : y = x
      · subst hyx
        rw [update_self]
        exact iff_of_false (fun hin => ne_removed hrep hin rfl) Bool.false_ne_true
      · rw [update_of_ne hyx, ← hiff, mem_append]
        exact or_congr_right (or_iff_right hyx).symm
    · dsimp only [modify] at hy
      by_cases hyx : y = x
      · subst hyx
        exact remove_self hrep
      · rw [update_of_ne hyx] at hy
        have hout : y ∉ before ++ x :: after := by
          rw [h.mem_iff, hy]
          exact Bool.false_ne_true
        have hlinks := remove_of_notMem hrep hout
        have hunlinked := h.unlinked y hy
        exact ⟨hlinks.1.trans hunlinked.1, hlinks.2.trans hunlinked.2⟩

/-- A resource is flagged. -/
theorem Live.insertInLiveDecodedResourcesList (h : Live s live)
    (hx : (s.resource x).inLiveDecodedResourcesList = false) :
    Live (s.insertInLiveDecodedResourcesList x) (x :: live) := by
  have hout : x ∉ live := by
    rw [h.mem_iff, hx]
    exact Bool.false_ne_true
  rw [MemoryCache.insertInLiveDecodedResourcesList]
  refine ⟨h.represents.pushFront hout (h.unlinked x hx).2, fun y => ?_, fun y hy => ?_⟩
  · dsimp only [modify]
    rw [mem_cons]
    by_cases hyx : y = x
    · subst hyx
      rw [update_self]
      exact iff_of_true (Or.inl rfl) rfl
    · rw [update_of_ne hyx, or_iff_right hyx, h.mem_iff]
  · dsimp only [modify] at hy
    by_cases hyx : y = x
    · subst hyx
      rw [update_self] at hy
      exact absurd hy.symm Bool.false_ne_true
    · rw [update_of_ne hyx] at hy
      have hunlinked := h.unlinked y hy
      have hlinks := pushFront_of_ne h.represents (y := y) (by
        rw [mem_cons, not_or, h.mem_iff, hy]
        exact ⟨hyx, Bool.false_ne_true⟩)
      exact ⟨hlinks.1.trans hunlinked.1, hlinks.2.trans hunlinked.2⟩

end Live

end MemoryCache
end Loader
end WebKit
