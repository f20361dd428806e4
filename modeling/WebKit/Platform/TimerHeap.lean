import WebKit.Platform.Timer

/-!
# The heap of timers

What the operations on the heap do to a heap of some timers (`TimerHeap.Holds`), with keys that
change while a timer is in it.

* `Holds.decreaseKey`, `Holds.insert`: a timer rises.
* `Holds.popped`, `Holds.poppedFirst`: a timer is brought to the end.
* `Popped.removeLast`, `Popped.decreaseKey`: it is removed there, or rises again.
-/

namespace WebKit

open List
namespace BinaryHeap

section Keys

variable {κ β : Type*} [LinearOrder β] {key₀ key : κ → β} {len hole : ℕ} {heap : List κ} {value : κ}

theorem ne_of_getElem? (hnodup : heap.Nodup) (hvalue : heap[hole]? = some value) {i : ℕ} {a : κ}
    (hi : i ≠ hole) (ha : heap[i]? = some a) : a ≠ value := by
  rintro rfl
  refine hi ((List.getElem?_inj ?_ hnodup).mp (ha.trans hvalue.symm))
  exact (List.getElem?_eq_some_iff.mp ha).1

theorem IsHeap.congr (h : IsHeap key₀ len heap)
    (hagree : ∀ i < len, ∀ a, heap[i]? = some a → key a = key₀ a) : IsHeap key len heap := by
  intro i hi hne a ha b hb
  rw [hagree _ ((parent_lt hne).trans hi) a ha, hagree i hi b hb]
  exact h i hi hne a ha b hb

/-- A value whose key falls may rise. -/
theorem IsHeap.rises (h : IsHeap key₀ len heap) (hnodup : heap.Nodup)
    (hvalue : heap[hole]? = some value) (hagree : ∀ a ≠ value, key a = key₀ a)
    (hle : key value ≤ key₀ value) : RisesFrom key len heap hole value where
  off := by
    intro i hi hne hihole hphole a ha b hb
    rw [hagree a (ne_of_getElem? hnodup hvalue hphole ha),
      hagree b (ne_of_getElem? hnodup hvalue hihole hb)]
    exact h i hi hne a ha b hb
  across := by
    intro i hi hne hparent hzero a ha b hb
    have hdown : hole < i := hparent ▸ parent_lt hne
    rw [hagree a (ne_of_getElem? hnodup hvalue (Nat.ne_of_lt (parent_lt hzero)) ha),
      hagree b (ne_of_getElem? hnodup hvalue hdown.ne' hb)]
    exact (h hole (hdown.trans hi) hzero a ha value hvalue).trans
      (h i hi hne value (hparent ▸ hvalue) b hb)
  above := by
    intro i hi hne hparent b hb
    have hdown : hole < i := hparent ▸ parent_lt hne
    rw [hagree b (ne_of_getElem? hnodup hvalue hdown.ne' hb)]
    exact hle.trans (h i hi hne value (hparent ▸ hvalue) b hb)

/-- A value behind a heap may rise. -/
theorem IsHeap.rises_last (h : IsHeap key len heap) : RisesFrom key (len + 1) heap len value where
  off := by
    intro i hi hne hlen hplen
    exact h i (by omega) hne
  across := by
    intro i hi hne hparent
    have hup := parent_lt hne
    omega
  above := by
    intro i hi hne hparent
    have hup := parent_lt hne
    omega

/-- The first value may sink, whatever its key. -/
theorem IsHeap.sinks_first {n : ℕ} (h : IsHeap key₀ n heap) (hlen : len ≤ n) (hnodup : heap.Nodup)
    (hvalue : heap[0]? = some value) (hagree : ∀ a ≠ value, key a = key₀ a) :
    SinksFrom key len heap 0 where
  off := by
    intro i hi hne hihole hphole a ha b hb
    rw [hagree a (ne_of_getElem? hnodup hvalue hphole ha),
      hagree b (ne_of_getElem? hnodup hvalue hihole hb)]
    exact h i (hi.trans_le hlen) hne a ha b hb
  across := fun _ _ _ _ hzero => absurd rfl hzero

end Keys

end BinaryHeap

namespace Platform

open BinaryHeap

variable {κ β : Type*} [DecidableEq κ] [LinearOrder β]

/-- A heap of the timers that have a property. -/
structure TimerHeap.Holds (heap : TimerHeap κ) (key : κ → β) (members : κ → Prop) : Prop where
  nodup : heap.timers.Nodup
  placed : Placed (iterator κ) heap
  absent : ∀ timer ∉ heap.timers, heap.heapIndex timer = -1
  mem_iff : ∀ timer, timer ∈ heap.timers ↔ members timer
  isHeap : IsHeap key heap.timers.length heap.timers

/-- A heap with a timer behind it. -/
structure TimerHeap.Popped (heap : TimerHeap κ) (key : κ → β) (members : κ → Prop) (timer : κ) :
    Prop where
  nodup : heap.timers.Nodup
  placed : Placed (iterator κ) heap
  absent : ∀ other ∉ heap.timers, heap.heapIndex other = -1
  mem_iff : ∀ other, other ∈ heap.timers ↔ members other
  isHeap : IsHeap key (heap.timers.length - 1) heap.timers
  last : heap.timers[heap.timers.length - 1]? = some timer

namespace TimerHeap

variable {heap : TimerHeap κ} {key₀ key : κ → β} {members : κ → Prop} {timer : κ}
  {less : κ → κ → Bool}

/-- The timer is where its index says. -/
theorem getElem?_heapIndex (hplaced : Placed (iterator κ) heap) (hmem : timer ∈ heap.timers) :
    heap.timers[(heap.heapIndex timer).toNat]? = some timer := by
  obtain ⟨i, hi⟩ := mem_iff_getElem?.mp hmem
  have hindex : heap.heapIndex timer = i := hplaced i timer hi
  rw [hindex, Int.toNat_natCast, hi]

theorem Holds.congr (h : heap.Holds key₀ members)
    (hagree : ∀ other, members other → key other = key₀ other) : heap.Holds key members where
  nodup := h.nodup
  placed := h.placed
  absent := h.absent
  mem_iff := h.mem_iff
  isHeap := h.isHeap.congr fun _ _ _ ha => hagree _ ((h.mem_iff _).mp (mem_of_getElem? ha))

theorem Holds.congr_members {members' : κ → Prop} (h : heap.Holds key members)
    (hiff : ∀ other, members other ↔ members' other) : heap.Holds key members' where
  nodup := h.nodup
  placed := h.placed
  absent := h.absent
  mem_iff := fun other => (h.mem_iff other).trans (hiff other)
  isHeap := h.isHeap

/-- What is rearranged into a heap holds the same timers. -/
theorem Holds.of_rearranged {heap' : TimerHeap κ} (hrearranged : Rearranged (iterator κ) heap heap')
    (hnodup : heap.timers.Nodup) (habsent : ∀ timer ∉ heap.timers, heap.heapIndex timer = -1)
    (hmem : ∀ timer, timer ∈ heap.timers ↔ members timer)
    (hheap : IsHeap key heap.timers.length heap'.timers) : heap'.Holds key members where
  nodup := hrearranged.perm.nodup_iff.mpr hnodup
  placed := hrearranged.placed
  absent := by
    intro other hother
    have hnot : other ∉ heap.timers := fun h => hother (hrearranged.perm.mem_iff.mpr h)
    exact (hrearranged.others other hnot).trans (habsent other hnot)
  mem_iff := fun other => (hrearranged.perm.mem_iff (a := other)).trans (hmem other)
  isHeap := by
    have hlength : heap'.timers.length = heap.timers.length := hrearranged.perm.length_eq
    rwa [hlength]

/-- The key of a timer falls. -/
theorem Holds.decreaseKey (h : heap.Holds key₀ members) (hmember : members timer)
    (hagree : ∀ other ≠ timer, key other = key₀ other) (hle : key timer ≤ key₀ timer)
    (hcompares : Compares key less heap.timers) :
    (heap.pushHeap less ((heap.heapIndex timer).toNat + 1)).Holds key members := by
  have hvalue := getElem?_heapIndex h.placed ((h.mem_iff timer).mpr hmember)
  have hspec := @pushHeap_spec _ _ _ _ (iterator κ) less key heap
    ((heap.heapIndex timer).toNat + 1) timer h.nodup h.placed hcompares hvalue
    (h.isHeap.rises h.nodup hvalue hagree hle)
  exact Holds.of_rearranged hspec.1 h.nodup h.absent h.mem_iff hspec.2

theorem getElem?_append_timer (heap : TimerHeap κ) (timer : κ) :
    (heap.append timer).timers[heap.timers.length]? = some timer := by
  rw [append, List.getElem?_append_right le_rfl, Nat.sub_self]
  rfl

variable (h : heap.Holds key members)

include h

theorem Holds.placed_append (hmember : ¬members timer) :
    Placed (iterator κ) (heap.append timer) := by
  have hnot : timer ∉ heap.timers := fun hmem => hmember ((h.mem_iff timer).mp hmem)
  intro i a ha
  change (heap.timers ++ [timer])[i]? = some a at ha
  change Function.update heap.heapIndex timer heap.timers.length a = i
  by_cases hi : i < heap.timers.length
  · rw [List.getElem?_append_left hi] at ha
    have hne : a ≠ timer := fun heq => hnot (heq ▸ mem_of_getElem? ha)
    rw [Function.update_of_ne hne]
    exact h.placed i a ha
  · have hlength := (List.getElem?_eq_some_iff.mp ha).1
    rw [length_append, length_singleton] at hlength
    obtain rfl : i = heap.timers.length := by omega
    obtain rfl : timer = a := Option.some_inj.mp ((getElem?_append_timer heap timer).symm.trans ha)
    rw [Function.update_self]

/-- A timer is inserted. -/
theorem Holds.insert (hmember : ¬members timer)
    (hcompares : Compares key less (heap.append timer).timers) :
    ((heap.append timer).pushHeap less (((heap.append timer).heapIndex timer).toNat + 1)).Holds key
      (fun other => members other ∨ other = timer) := by
  have hnot : timer ∉ heap.timers := fun hmem => hmember ((h.mem_iff timer).mp hmem)
  have hnodup : (heap.append timer).timers.Nodup :=
    nodup_append.mpr ⟨h.nodup, nodup_singleton timer, by
      intro a ha b hb
      rw [mem_singleton.mp hb]
      exact fun heq => hnot (heq ▸ ha)⟩
  have hlength : (heap.append timer).timers.length = heap.timers.length + 1 := length_append
  have hindex : ((heap.append timer).heapIndex timer).toNat = heap.timers.length := by
    rw [heapIndex_append, Function.update_self, Int.toNat_natCast]
  have hvalue := getElem?_append_timer heap timer
  have hheap : IsHeap key heap.timers.length (heap.append timer).timers := by
    intro i hi hne a ha b hb
    rw [append, List.getElem?_append_left ((parent_lt hne).trans hi)] at ha
    rw [append, List.getElem?_append_left hi] at hb
    exact h.isHeap i hi hne a ha b hb
  rw [hindex]
  have hspec := @pushHeap_spec _ _ _ _ (iterator κ) less key (heap.append timer)
    (heap.timers.length + 1) timer hnodup (h.placed_append hmember) hcompares hvalue
    (by
      change RisesFrom key (heap.append timer).timers.length _ _ _
      rw [hlength]
      exact hheap.rises_last)
  refine Holds.of_rearranged hspec.1 hnodup ?_ ?_ hspec.2
  · intro other hother
    have hne : other ≠ timer := by
      rintro rfl
      exact hother (mem_append_right _ (mem_singleton.mpr rfl))
    rw [heapIndex_append, Function.update_of_ne hne]
    exact h.absent other fun hmem => hother (mem_append_left _ hmem)
  · intro other
    rw [append, mem_append, mem_singleton, h.mem_iff]

omit h in
/-- The first timer is brought to the end, whatever its key. -/
theorem Holds.poppedFirst (h : heap.Holds key₀ members) (hfirst : heap.timers[0]? = some timer)
    (hagree : ∀ other ≠ timer, key other = key₀ other)
    (hcompares : Compares key less heap.timers) :
    (heap.popHeap less heap.timers.length).Popped key members timer := by
  obtain ⟨len, hlen⟩ : ∃ len, heap.timers.length = len + 1 := by
    have hlt := (List.getElem?_eq_some_iff.mp hfirst).1
    exact ⟨heap.timers.length - 1, by omega⟩
  have hspec := @popHeap_spec _ _ _ _ (iterator κ) less key heap len timer h.nodup h.placed hcompares
    hlen hfirst (h.isHeap.sinks_first (by omega) h.nodup hfirst hagree)
  obtain ⟨hrearranged, hheap, hlast⟩ := hspec
  have hlength : (heap.popHeap less (len + 1)).timers.length = len + 1 :=
    hrearranged.perm.length_eq.trans hlen
  rw [hlen]
  exact {
    nodup := hrearranged.perm.nodup_iff.mpr h.nodup
    placed := hrearranged.placed
    absent := by
      intro other hother
      have hnot : other ∉ heap.timers := fun hmem => hother (hrearranged.perm.mem_iff.mpr hmem)
      exact (hrearranged.others other hnot).trans (h.absent other hnot)
    mem_iff := fun other => (hrearranged.perm.mem_iff (a := other)).trans (h.mem_iff other)
    isHeap := by
      rw [hlength]
      exact hheap
    last := by
      rw [hlength]
      exact hlast }

/-- A timer whose key comes before all others is the first. -/
theorem Holds.first (hmember : members timer)
    (hleast : ∀ other, members other → other ≠ timer → key timer < key other) :
    heap.timers[0]? = some timer := by
  obtain ⟨i, hi⟩ := mem_iff_getElem?.mp ((h.mem_iff timer).mpr hmember)
  have hlt := (List.getElem?_eq_some_iff.mp hi).1
  obtain ⟨f, hf⟩ : ∃ f, heap.timers[0]? = some f :=
    ⟨_, List.getElem?_eq_getElem (Nat.zero_lt_of_lt hlt)⟩
  have hle := h.isHeap.le le_rfl hlt hf hi
  by_cases hne : f = timer
  · rw [hf, hne]
  · exact absurd (hleast f ((h.mem_iff f).mp (mem_of_getElem? hf)) hne) (not_lt.mpr hle)

omit h

/-- A timer is brought to the end, when its key is forced to the minimum. -/
theorem Holds.popped (h : heap.Holds key₀ members) (hmember : members timer)
    (hagree : ∀ other ≠ timer, key other = key₀ other) (hle : key timer ≤ key₀ timer)
    (hleast : ∀ other, members other → other ≠ timer → key timer < key other)
    (hcompares : Compares key less heap.timers) :
    let risen := heap.pushHeap less ((heap.heapIndex timer).toNat + 1)
    (risen.popHeap less risen.timers.length).Popped key members timer := by
  intro risen
  have hrisen : risen.Holds key members := h.decreaseKey hmember hagree hle hcompares
  refine hrisen.poppedFirst (hrisen.first hmember hleast) (fun _ _ => rfl) ?_
  intro a ha b hb
  exact hcompares a ((h.mem_iff a).mpr ((hrisen.mem_iff a).mp ha)) b
    ((h.mem_iff b).mpr ((hrisen.mem_iff b).mp hb))

theorem Popped.congr (h : heap.Popped key₀ members timer)
    (hagree : ∀ other ≠ timer, key other = key₀ other) : heap.Popped key members timer where
  nodup := h.nodup
  placed := h.placed
  absent := h.absent
  mem_iff := h.mem_iff
  last := h.last
  isHeap := h.isHeap.congr fun _ hi _ ha =>
    hagree _ (ne_of_getElem? h.nodup h.last hi.ne ha)

/-- The timer at the end is removed. -/
theorem Popped.removeLast (h : heap.Popped key members timer) :
    (heap.removeLast timer).Holds key (fun other => members other ∧ other ≠ timer) := by
  have hsplit : heap.timers.dropLast ++ [timer] = heap.timers := by
    refine dropLast_append_getLast? timer ?_
    rw [List.getLast?_eq_getElem?]
    exact h.last
  have hnodup := h.nodup
  rw [← hsplit, nodup_append] at hnodup
  have hnot : timer ∉ heap.timers.dropLast := fun hmem =>
    hnodup.2.2 timer hmem timer (mem_singleton.mpr rfl) rfl
  have hget {i : ℕ} {a : κ} (ha : heap.timers.dropLast[i]? = some a) :
      heap.timers[i]? = some a := by
    rw [← hsplit, List.getElem?_append_left (List.getElem?_eq_some_iff.mp ha).1, ha]
  constructor
  · exact hnodup.1
  · intro i a ha
    have hne : a ≠ timer := fun heq => hnot (heq ▸ mem_of_getElem? ha)
    change (heap.removeLast timer).heapIndex a = i
    rw [heapIndex_removeLast, Function.update_of_ne hne]
    exact h.placed i a (hget ha)
  · intro other hother
    rw [heapIndex_removeLast]
    by_cases hne : other = timer
    · rw [hne, Function.update_self]
    · rw [Function.update_of_ne hne]
      refine h.absent other fun hmem => ?_
      rw [← hsplit, mem_append, mem_singleton] at hmem
      exact hmem.elim hother hne
  · intro other
    have hmem : other ∈ heap.timers ↔ other ∈ heap.timers.dropLast ∨ other = timer := by
      conv_lhs => rw [← hsplit]
      rw [mem_append, mem_singleton]
    rw [← h.mem_iff other, hmem]
    constructor
    · exact fun hmem => ⟨.inl hmem, fun heq => hnot (heq ▸ hmem)⟩
    · rintro ⟨hmem | heq, hne⟩
      · exact hmem
      · exact absurd heq hne
  · have hlength : (heap.removeLast timer).timers.length = heap.timers.length - 1 := length_dropLast
    rw [hlength]
    intro i hi hne a ha b hb
    exact h.isHeap i hi hne a (hget ha) b (hget hb)

/-- The timer at the end rises again. -/
theorem Popped.decreaseKey (h : heap.Popped key members timer)
    (hcompares : Compares key less heap.timers) :
    (heap.pushHeap less ((heap.heapIndex timer).toNat + 1)).Holds key members := by
  have hlt := (List.getElem?_eq_some_iff.mp h.last).1
  have hindex : heap.heapIndex timer = (heap.timers.length - 1 : ℕ) := h.placed _ _ h.last
  obtain ⟨len, hlen⟩ : ∃ len, heap.timers.length = len + 1 := ⟨heap.timers.length - 1, by omega⟩
  have hheap := h.isHeap
  have hlast := h.last
  rw [hlen] at hheap hlast
  rw [hindex, hlen]
  have hspec := @pushHeap_spec _ _ _ _ (iterator κ) less key heap (len + 1) timer h.nodup h.placed
    hcompares hlast (by
      change RisesFrom key heap.timers.length _ _ _
      rw [hlen]
      exact hheap.rises_last)
  exact Holds.of_rearranged hspec.1 h.nodup h.absent h.mem_iff hspec.2

end TimerHeap

end Platform
end WebKit
