import Mathlib

/-!
# Counting Bloom filters

`WTF::BloomFilter`: two slots for each hash, and counters of 8 bits that stay where they are when
they are full.

* `Counts`: a filter counts the hashes of a list, but for its full counters.
* `Counts.mayContain`: there are no false negatives.
-/

namespace WebKit.WTF

open List

/-- The table of `2 ^ keyBits` counters. -/
abbrev BloomFilter (keyBits : ℕ) := Fin (2 ^ keyBits) → UInt8

namespace BloomFilter

variable {keyBits : ℕ}

/-- `hash & keyMask` of the source. -/
def firstSlot (keyBits : ℕ) (hash : UInt32) : Fin (2 ^ keyBits) :=
  ⟨hash.toNat % 2 ^ keyBits, Nat.mod_lt _ (Nat.two_pow_pos keyBits)⟩

/-- `(hash >> 16) & keyMask` of the source. -/
def secondSlot (keyBits : ℕ) (hash : UInt32) : Fin (2 ^ keyBits) :=
  ⟨(hash >>> 16).toNat % 2 ^ keyBits, Nat.mod_lt _ (Nat.two_pow_pos keyBits)⟩

def maximumCount : UInt8 := 255

def clear : BloomFilter keyBits := fun _ => 0

variable (filter : BloomFilter keyBits)

def mayContain (hash : UInt32) : Bool :=
  filter (firstSlot keyBits hash) != 0 && filter (secondSlot keyBits hash) != 0

def increment (slot : Fin (2 ^ keyBits)) : BloomFilter keyBits :=
  if filter slot < maximumCount then Function.update filter slot (filter slot + 1) else filter

def decrement (slot : Fin (2 ^ keyBits)) : BloomFilter keyBits :=
  if filter slot < maximumCount then Function.update filter slot (filter slot - 1) else filter

def add (hash : UInt32) : BloomFilter keyBits :=
  (filter.increment (firstSlot keyBits hash)).increment (secondSlot keyBits hash)

def remove (hash : UInt32) : BloomFilter keyBits :=
  (filter.decrement (firstSlot keyBits hash)).decrement (secondSlot keyBits hash)

/-! ## What the counters count -/

/-- Each counter is full, or it is the number of times that its slot occurs. -/
def CountsSlots (slots : List (Fin (2 ^ keyBits))) : Prop :=
  ∀ i, filter i = maximumCount ∨ (filter i).toNat = slots.count i

/-- The slots of the hashes, two for each. -/
def slotsOf (keyBits : ℕ) (hashes : List UInt32) : List (Fin (2 ^ keyBits)) :=
  hashes.flatMap fun hash => [secondSlot keyBits hash, firstSlot keyBits hash]

/-- A filter counts the hashes of a list, but for its full counters. -/
def Counts (hashes : List UInt32) : Prop :=
  filter.CountsSlots (slotsOf keyBits hashes)

variable {filter : BloomFilter keyBits} {slot : Fin (2 ^ keyBits)}
  {slots : List (Fin (2 ^ keyBits))} {hash : UInt32} {hashes hashes' : List UInt32}

theorem lt_maximumCount_iff {count : UInt8} : count < maximumCount ↔ count.toNat < 255 :=
  UInt8.lt_iff_toNat_lt

theorem eq_maximumCount_iff {count : UInt8} : count = maximumCount ↔ count.toNat = 255 :=
  ⟨fun h => h ▸ rfl, fun h => UInt8.toNat_inj.mp h⟩

theorem CountsSlots.increment (h : filter.CountsSlots slots) (slot : Fin (2 ^ keyBits)) :
    (filter.increment slot).CountsSlots (slot :: slots) := by
  intro i
  rw [BloomFilter.increment]
  by_cases hi : slot = i
  · subst hi
    rw [count_cons_self]
    split
    · next hlt =>
      rw [lt_maximumCount_iff] at hlt
      rw [Function.update_self, UInt8.toNat_add]
      have hold := h slot
      rw [eq_maximumCount_iff] at hold
      have hone : (1 : UInt8).toNat = 1 := rfl
      omega
    · next hnot =>
      rw [lt_maximumCount_iff] at hnot
      rw [eq_maximumCount_iff]
      have := UInt8.toNat_lt (filter slot)
      omega
  · rw [count_cons_of_ne hi]
    split
    · rw [Function.update_of_ne (Ne.symm hi)]
      exact h i
    · exact h i

theorem CountsSlots.decrement (h : filter.CountsSlots (slot :: slots)) :
    (filter.decrement slot).CountsSlots slots := by
  intro i
  have hold := h i
  rw [BloomFilter.decrement]
  by_cases hi : slot = i
  · subst hi
    rw [count_cons_self, eq_maximumCount_iff] at hold
    split
    · next hlt =>
      rw [lt_maximumCount_iff] at hlt
      have hcount : (filter slot).toNat = slots.count slot + 1 := by omega
      have hle : (1 : UInt8) ≤ filter slot := by
        rw [UInt8.le_iff_toNat_le, hcount]
        exact Nat.le_add_left 1 _
      rw [Function.update_self, UInt8.toNat_sub_of_le _ _ hle, hcount]
      exact .inr rfl
    · next hnot =>
      rw [lt_maximumCount_iff] at hnot
      rw [eq_maximumCount_iff]
      have := UInt8.toNat_lt (filter slot)
      omega
  · rw [count_cons_of_ne hi] at hold
    split
    · rwa [Function.update_of_ne (Ne.symm hi)]
    · exact hold

theorem CountsSlots.perm (h : filter.CountsSlots slots)
    (hperm : slots.Perm slots') : filter.CountsSlots slots' := fun i => by
  rw [← hperm.count_eq]
  exact h i

theorem CountsSlots.ne_zero (h : filter.CountsSlots slots) (hslot : slot ∈ slots) :
    filter slot ≠ 0 := by
  intro hzero
  have hpos := count_pos_iff.mpr hslot
  rcases h slot with hfull | hcount
  · rw [hzero] at hfull
    cases hfull
  · rw [hzero] at hcount
    exact absurd hcount (Nat.ne_of_lt hpos)

theorem counts_clear : (clear : BloomFilter keyBits).Counts [] := fun _ => .inr rfl

variable (h : filter.Counts hashes)

include h

theorem Counts.perm (hperm : hashes.Perm hashes') :
    filter.Counts hashes' :=
  CountsSlots.perm h (hperm.flatMap_right _)

theorem Counts.add (hash : UInt32) :
    (filter.add hash).Counts (hash :: hashes) :=
  (CountsSlots.increment h _).increment _

omit h in
theorem Counts.remove (h : filter.Counts (hash :: hashes)) :
    (filter.remove hash).Counts hashes := by
  have hslots : filter.CountsSlots
      (firstSlot keyBits hash :: secondSlot keyBits hash :: slotsOf keyBits hashes) :=
    CountsSlots.perm h (.swap _ _ _)
  exact hslots.decrement.decrement

theorem Counts.addAll (added : List UInt32) :
    (added.foldl BloomFilter.add filter).Counts (added ++ hashes) := by
  induction added generalizing filter hashes with
  | nil => exact h
  | cons hash added ih => exact (ih (h.add hash)).perm perm_middle

omit h in
theorem Counts.removeAll (h : filter.Counts (removed ++ hashes)) :
    (removed.foldl BloomFilter.remove filter).Counts hashes := by
  induction removed generalizing filter with
  | nil => exact h
  | cons hash removed ih => exact ih h.remove

/-- A hash that is counted is found, also after counters were full. -/
theorem Counts.mayContain (hhash : hash ∈ hashes) :
    filter.mayContain hash = true := by
  rw [BloomFilter.mayContain, Bool.and_eq_true, bne_iff_ne, bne_iff_ne]
  constructor <;> exact CountsSlots.ne_zero h (mem_flatMap.mpr ⟨hash, hhash, by simp⟩)

end BloomFilter

end WebKit.WTF
