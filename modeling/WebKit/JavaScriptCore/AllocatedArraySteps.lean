import WebKit.JavaScriptCore.AllocatedArray

/-!
# What the operations do to the storage

`Valid` is what an array keeps: the storage begins `m_indexBias` words into its allocation with a
header that knows the allocation, vector and pre-capacity fit into it, and together they are not
longer than a vector may be.  No expression wraps and no access goes astray on a valid array, with
the exceptions that the operations themselves show: `shiftCount` takes its count from lengths that
may be less.
-/

namespace WebKit

open List Option Nat
namespace JavaScriptCore

variable {V : Type}

/-! ## Unsigned numbers -/

theorem unsignedAdd_eq (h : a + b < 2 ^ 32) : unsignedAdd a b = some (a + b) := if_pos h

theorem unsignedSub_eq (h : b ≤ a) : unsignedSub a b = some (a - b) := if_pos h

theorem maxStorageVectorLength_eq : maxStorageVectorLength = 536870909 := rfl

theorem storageSize_eq {n : ℕ} (h : n ≤ maxStorageVectorLength) : storageSize n = some (2 + n) := by
  rw [maxStorageVectorLength_eq] at h
  exact if_pos (by omega)

namespace AllocatedArray

variable {s s' : AllocatedArray V} {i : ℕ}

/-! ## Words -/

variable {length num count : ℕ}

theorem lengths_eq_some : s.lengths = some (length, num) ↔
    s.allocation.words[s.storage]? = some (.lengths length num) := by
  unfold lengths
  split
  · rename_i h
    rw [h, Option.some.injEq, Option.some.injEq, Prod.mk.injEq, Word.lengths.injEq]
  · rename_i h
    exact ⟨nofun, fun h' => (h _ _ h').elim⟩

theorem allocBase_eq_some : s.allocBase = some base ↔
    s.allocation.words[s.storage + 1]? = some (.allocBase base) := by
  unfold allocBase
  split
  · rename_i h
    rw [h, Option.some.injEq, Option.some.injEq, Word.allocBase.injEq]
  · rename_i h
    exact ⟨nofun, fun h' => (h _ h').elim⟩

theorem slot_eq_some {v : Option V} : s.slot i = some v ↔
    s.allocation.words[s.storage + 2 + i]? = some (.slot v) := by
  unfold slot
  split
  · rename_i h
    rw [h, Option.some.injEq, Option.some.injEq, Word.slot.injEq]
  · rename_i h
    exact ⟨nofun, fun h' => (h _ h').elim⟩

/-- The slot is read from one word. -/
theorem slot_congr {j : ℕ}
    (h : s'.allocation.words[s'.storage + 2 + i]? = s.allocation.words[s.storage + 2 + j]?) :
    s'.slot i = s.slot j := by
  unfold slot
  rw [h]

theorem lengths_congr (h : s'.allocation.words[s'.storage]? = s.allocation.words[s.storage]?) :
    s'.lengths = s.lengths := by
  unfold lengths
  rw [h]

theorem allocBase_congr
    (h : s'.allocation.words[s'.storage + 1]? = s.allocation.words[s.storage + 1]?) :
    s'.allocBase = s.allocBase := by
  unfold allocBase
  rw [h]

/-- The storage is where it was. -/
structure SameShape (s s' : AllocatedArray V) : Prop where
  base : s'.allocation.base = s.allocation.base
  size : s'.allocation.words.length = s.allocation.words.length
  storage : s'.storage = s.storage
  vectorLength : s'.vectorLength = s.vectorLength
  indexBias : s'.indexBias = s.indexBias

theorem sameShape_withWords {words : List (Word V)}
    (h : words.length = s.allocation.words.length) : SameShape s (s.withWords words) :=
  ⟨rfl, h, rfl, rfl, rfl⟩

theorem setAllocBase_spec (base : ℕ) (h : s.storage + 2 ≤ s.allocation.words.length) :
    ∃ s', s.setAllocBase base = some s' ∧ SameShape s s' ∧ s'.allocBase = some base ∧
      s'.lengths = s.lengths ∧ ∀ i, s'.slot i = s.slot i := by
  obtain ⟨words, hfill, hlength, hfilled, hother⟩ :=
    fillWords_spec (.allocBase base) 1 (s.storage + 1) h
  refine ⟨s.withWords words, ?_, sameShape_withWords hlength, ?_, lengths_congr ?_,
    fun i => slot_congr ?_⟩
  · simp only [setAllocBase, hfill, bind_eq_bind, bind_some]
  · exact allocBase_eq_some.mpr (hfilled 0 one_pos)
  · exact hother _ (.inl (lt_succ_self _))
  · exact hother _ (.inr (le_add_right _ _))

theorem setLengths_spec (length num : ℕ) (h : s.storage + 2 ≤ s.allocation.words.length) :
    ∃ s', s.setLengths length num = some s' ∧ SameShape s s' ∧ s'.allocBase = s.allocBase ∧
      s'.lengths = some (length, num) ∧ ∀ i, s'.slot i = s.slot i := by
  obtain ⟨words, hfill, hlength, hfilled, hother⟩ :=
    fillWords_spec (.lengths length num) 1 s.storage
      (show s.storage + 1 ≤ s.allocation.words.length by omega)
  refine ⟨s.withWords words, ?_, sameShape_withWords hlength, allocBase_congr ?_, ?_,
    fun i => slot_congr ?_⟩
  · simp only [setLengths, hfill, bind_eq_bind, bind_some]
  · exact hother _ (.inr le_rfl)
  · exact lengths_eq_some.mpr (hfilled 0 one_pos)
  · refine hother _ (.inr ?_)
    change s.storage + 1 ≤ s.storage + 2 + i
    omega

theorem clearSlots_spec (start stop : ℕ) (hle : start ≤ stop)
    (h : s.storage + 2 + stop ≤ s.allocation.words.length) :
    ∃ s', s.clearSlots start stop = some s' ∧ SameShape s s' ∧ s'.allocBase = s.allocBase ∧
      s'.lengths = s.lengths ∧ (∀ i, start ≤ i → i < stop → s'.slot i = some none) ∧
        ∀ i, i < start ∨ stop ≤ i → s'.slot i = s.slot i := by
  obtain ⟨words, hfill, hlength, hfilled, hother⟩ :=
    fillWords_spec (.slot none) (stop - start) (s.storage + 2 + start)
      (show s.storage + 2 + start + (stop - start) ≤ s.allocation.words.length by omega)
  refine ⟨s.withWords words, ?_, sameShape_withWords hlength, allocBase_congr (hother _ (.inl ?_)),
    lengths_congr (hother _ (.inl ?_)), fun i hi hi' => ?_, fun i hi => slot_congr (hother _ ?_)⟩
  · simp only [clearSlots, hfill, bind_eq_bind, bind_some]
  · change s.storage + 1 < s.storage + 2 + start
    omega
  · change s.storage < s.storage + 2 + start
    omega
  · refine slot_eq_some.mpr ?_
    rw [← hfilled (i - start) (by omega)]
    change words[s.storage + 2 + i]? = _
    congr 1
    omega
  · change s.storage + 2 + i < s.storage + 2 + start ∨
      s.storage + 2 + start + (stop - start) ≤ s.storage + 2 + i
    omega

/-! ## Valid arrays -/

/-- The storage lies in its allocation. -/
structure Sized (s : AllocatedArray V) : Prop where
  storage_eq : s.storage = s.indexBias
  lengths : ∃ length num, s.lengths = some (length, num)
  allocBase : s.allocBase = some s.allocation.base
  fits : s.vectorLength + s.indexBias ≤ maxStorageVectorLength
  room : 2 + s.vectorLength + s.indexBias ≤ s.allocation.words.length

structure Valid (s : AllocatedArray V) : Prop extends Sized s where
  slots : ∀ i < s.vectorLength, ∃ v, s.slot i = some v

theorem Sized.storage_room (h : s.Sized) :
    s.storage + 2 + s.vectorLength ≤ s.allocation.words.length := by
  rw [h.storage_eq]
  have hroom := h.room
  omega

theorem Sized.memory_eq (h : s.Sized) : s.memory = some s.allocation := by
  simp only [memory, h.allocBase, bind_eq_bind, bind_some, if_true]

theorem Sized.of_sameShape (h : s.Sized) (hshape : SameShape s s')
    (hbase : s'.allocBase = s.allocBase) (hlengths : ∃ length num, s'.lengths = some (length, num)) :
    s'.Sized where
  storage_eq := by rw [hshape.storage, hshape.indexBias, h.storage_eq]
  lengths := hlengths
  allocBase := by rw [hbase, h.allocBase, hshape.base]
  fits := by
    rw [hshape.vectorLength, hshape.indexBias]
    exact h.fits
  room := by
    rw [hshape.vectorLength, hshape.indexBias, hshape.size]
    exact h.room

/-! ## Growing the vector -/

/-- The elements are kept, and there are empty slots behind them. -/
structure Grown (s s' : AllocatedArray V) : Prop where
  lengths : s'.lengths = s.lengths
  le : s.vectorLength ≤ s'.vectorLength
  kept : ∀ i < s.vectorLength, s'.slot i = s.slot i
  empty : ∀ i, s.vectorLength ≤ i → i < s'.vectorLength → s'.slot i = some none

theorem getNewVectorLength_spec (lastArraySize length : ℕ) (vectorLength : ℕ)
    (h : desiredLength ≤ maxStorageVectorLength) :
    ∃ newVectorLength,
      getNewVectorLength lastArraySize desiredLength length vectorLength = some newVectorLength ∧
        desiredLength ≤ newVectorLength ∧ newVectorLength ≤ maxStorageVectorLength := by
  unfold getNewVectorLength
  rw [maxStorageVectorLength_eq] at h ⊢
  by_cases hinit : desiredLength < min length 100000
  · rw [if_pos hinit]
    exact ⟨_, rfl, le_min hinit.le h, min_le_right _ _⟩
  by_cases hzero : vectorLength = 0
  · rw [if_neg hinit, if_pos hzero]
    exact ⟨_, rfl, le_min (le_max_left _ _) h, min_le_right _ _⟩
  · rw [if_neg hinit, if_neg hzero]
    have hbit : desiredLength &&& 1 ≤ 1 := and_le_right
    rw [unsignedAdd_eq (by omega), bind_eq_bind, bind_some, unsignedAdd_eq (by omega)]
    exact ⟨_, rfl, le_min (by omega) h, min_le_right _ _⟩

theorem tryReallocateStorage_spec (grant : Option (Grant V)) (a : Allocation V)
    (oldSize newSize : ℕ) (hold : oldSize ≤ a.words.length) (hlt : oldSize < newSize) :
    grant = none ∧ tryReallocateStorage grant a oldSize newSize = some none ∨
      grant.isSome ∧ ∃ allocation,
        tryReallocateStorage grant a oldSize newSize = some (some allocation) ∧
          allocation.words.length = newSize ∧
            ∀ i < oldSize, allocation.words[i]? = a.words[i]? := by
  unfold tryReallocateStorage
  rw [if_neg (Nat.not_le_of_lt hlt)]
  cases grant with
  | none => exact .inl ⟨rfl, rfl⟩
  | some g =>
    have hfresh : ((List.range newSize).map g.fresh).length = newSize := by
      rw [length_map, length_range]
    obtain ⟨words, hmove, hlength, hmoved, -⟩ := moveWords_spec
      ((List.range newSize).map g.fresh) 0 a.words 0 oldSize (by omega) (by omega)
    refine .inr ⟨rfl, ⟨g.base, words⟩, ?_, hlength.trans hfresh, fun i hi => ?_⟩
    · simp only [tryAllocateStorage, map_some, hmove]
    · simpa only [Nat.zero_add] using hmoved i hi

theorem Valid.reallocate (h : s.Valid) (hbias : s.indexBias = 0)
    (hlt : s.vectorLength < newVectorLength) (hmax : newVectorLength ≤ maxStorageVectorLength)
    (grant : Option (Grant V)) :
    grant = none ∧ s.reallocate grant newVectorLength = some (s, false) ∨
      grant.isSome ∧ ∃ s', s.reallocate grant newVectorLength = some (s', true) ∧ s'.Valid ∧
        Grown s s' ∧ s'.vectorLength = newVectorLength ∧ s'.indexBias = s.indexBias := by
  have hroom := h.room
  have hzero : s.storage = 0 := h.storage_eq.trans hbias
  unfold AllocatedArray.reallocate
  simp only [h.memory_eq, storageSize_eq (hlt.le.trans hmax), storageSize_eq hmax,
    bind_eq_bind, bind_some]
  obtain ⟨hgrant, hnone⟩ | ⟨hgrant, allocation, hsome, hlength, hkept⟩ := tryReallocateStorage_spec grant
    s.allocation (2 + s.vectorLength) (2 + newVectorLength) (by omega) (by omega)
  · rw [hnone]
    exact .inl ⟨hgrant, rfl⟩
  · simp only [hsome]
    obtain ⟨s₁, hs₁, hshape₁, hbase₁, hlengths₁, hslot₁⟩ :=
      setAllocBase_spec (s := { s with allocation := allocation, storage := 0 }) allocation.base
        (show 0 + 2 ≤ allocation.words.length by omega)
    have hstorage₁ : s₁.storage = 0 := hshape₁.storage
    have hsize₁ : s₁.allocation.words.length = 2 + newVectorLength := hshape₁.size.trans hlength
    obtain ⟨s₂, hs₂, hshape₂, hbase₂, hlengths₂, hcleared, hslot₂⟩ :=
      clearSlots_spec (s := s₁) s.vectorLength newVectorLength hlt.le (by rw [hstorage₁, hsize₁])
    have hlengths : s₂.lengths = s.lengths := by
      rw [hlengths₂, hlengths₁]
      exact lengths_congr (by rw [hzero]; exact hkept 0 (by omega))
    have hslot : ∀ i < s.vectorLength, s₂.slot i = s.slot i := by
      intro i hi
      rw [hslot₂ i (.inl hi), hslot₁]
      exact slot_congr (by rw [hzero]; exact hkept (0 + 2 + i) (by omega))
    have hindex : s₂.indexBias = s.indexBias := by rw [hshape₂.indexBias, hshape₁.indexBias]
    refine .inr ⟨hgrant, { s₂ with vectorLength := newVectorLength }, ?_, ?_, ?_, rfl, hindex⟩
    · simp only [hs₁, hs₂, bind_some]
    · refine ⟨⟨?_, hlengths ▸ h.lengths, ?_, ?_, ?_⟩, fun i hi => ?_⟩
      · rw [hshape₂.storage, hstorage₁, hindex, hbias]
      · change s₂.allocBase = some s₂.allocation.base
        rw [hbase₂, hbase₁, hshape₂.base, hshape₁.base]
      · rwa [hindex, hbias]
      · rw [hindex, hshape₂.size, hsize₁, hbias, add_zero]
      · obtain hi' | hi' := lt_or_ge i s.vectorLength
        · obtain ⟨v, hv⟩ := h.slots i hi'
          exact ⟨v, (hslot i hi').trans hv⟩
        · exact ⟨none, hcleared i hi' hi⟩
    · exact ⟨hlengths, hlt.le, hslot, hcleared⟩

theorem Valid.decayBias (h : s.Valid)
    (hlt : s.vectorLength < newVectorLength) (hmax : newVectorLength ≤ maxStorageVectorLength)
    (grant : Option (Grant V)) :
    grant = none ∧ s.decayBias grant newVectorLength = some (s, false) ∨
      grant.isSome ∧ ∃ s', s.decayBias grant newVectorLength = some (s', true) ∧ s'.Valid ∧
        Grown s s' ∧ s'.vectorLength = newVectorLength ∧
          s'.indexBias = min (s.indexBias / 2) (maxStorageVectorLength - newVectorLength) := by
  have hroom := h.storage_room
  unfold AllocatedArray.decayBias
  obtain ⟨bias, hbias⟩ : ∃ bias, bias =
      min (s.indexBias >>> 1) (maxStorageVectorLength - newVectorLength) := ⟨_, rfl⟩
  have hfits : newVectorLength + bias ≤ maxStorageVectorLength := by omega
  have hsmall : newVectorLength + bias < 2 ^ 32 := by
    rw [maxStorageVectorLength_eq] at hfits
    omega
  simp only [unsignedSub_eq hmax, ← hbias, unsignedAdd_eq hsmall, storageSize_eq hfits,
    storageSize_eq (hlt.le.trans hmax), bind_eq_bind, bind_some]
  cases grant with
  | none => exact .inl ⟨rfl, rfl⟩
  | some g =>
    have hfresh : ((List.range (2 + (newVectorLength + bias))).map g.fresh).length =
        2 + (newVectorLength + bias) := by rw [length_map, length_range]
    obtain ⟨words, hmove, hlength, hmoved, -⟩ := moveWords_spec
      ((List.range (2 + (newVectorLength + bias))).map g.fresh) bias s.allocation.words s.storage
      (2 + s.vectorLength) (by omega) (by omega)
    simp only [tryAllocateStorage, map_some, hmove, bind_some]
    obtain ⟨s₁, hs₁, hshape₁, hbase₁, hlengths₁, hcleared, hslot₁⟩ :=
      clearSlots_spec (s := ⟨⟨g.base, words⟩, bias, newVectorLength, bias⟩) s.vectorLength
        newVectorLength hlt.le (show bias + 2 + newVectorLength ≤ words.length by omega)
    have hsize₁ : s₁.allocation.words.length = 2 + (newVectorLength + bias) :=
      hshape₁.size.trans (hlength.trans hfresh)
    have hstorage₁ : s₁.storage = bias := hshape₁.storage
    obtain ⟨s₂, hs₂, hshape₂, hbase₂, hlengths₂, hslot₂⟩ :=
      setAllocBase_spec (s := s₁) g.base (by omega)
    have hlengths : s₂.lengths = s.lengths := by
      rw [hlengths₂, hlengths₁]
      exact lengths_congr (hmoved 0 (by omega))
    have hslot : ∀ i < s.vectorLength, s₂.slot i = s.slot i := by
      intro i hi
      rw [hslot₂, hslot₁ i (.inl hi)]
      refine slot_congr ?_
      have hword := hmoved (2 + i) (by omega)
      rwa [← add_assoc, ← add_assoc] at hword
    have hempty : ∀ i, s.vectorLength ≤ i → i < newVectorLength → s₂.slot i = some none :=
      fun i hi hi' => (hslot₂ i).trans (hcleared i hi hi')
    have hvector : s₂.vectorLength = newVectorLength := by
      rw [hshape₂.vectorLength, hshape₁.vectorLength]
    have hindex : s₂.indexBias = bias := by rw [hshape₂.indexBias, hshape₁.indexBias]
    refine .inr ⟨rfl, s₂, ?_, ?_, ⟨hlengths, hvector ▸ hlt.le, hslot, hvector ▸ hempty⟩, hvector,
      hindex.trans hbias⟩
    · simp only [hs₁, hs₂, bind_some]
    · refine ⟨⟨?_, hlengths ▸ h.lengths, ?_, ?_, ?_⟩, fun i hi => ?_⟩
      · rw [hshape₂.storage, hstorage₁, hindex]
      · rw [hbase₂, hshape₂.base, hshape₁.base]
      · rw [hvector, hindex]
        exact hfits
      · rw [hvector, hindex, hshape₂.size]
        omega
      · rw [hvector] at hi
        obtain hi' | hi' := lt_or_ge i s.vectorLength
        · obtain ⟨v, hv⟩ := h.slots i hi'
          exact ⟨v, (hslot i hi').trans hv⟩
        · exact ⟨none, hempty i hi' hi⟩

/-- With a length behind the vector, either nothing happens or the vector has grown to it. -/
theorem Valid.increaseVectorLength (h : s.Valid) (hlt : s.vectorLength < newLength)
    (grant : Option (Grant V)) (lastArraySize : ℕ) :
    s.increaseVectorLength grant lastArraySize newLength = some (s, false) ∨
      ∃ s', s.increaseVectorLength grant lastArraySize newLength = some (s', true) ∧ s'.Valid ∧
        Grown s s' ∧ newLength ≤ s'.vectorLength := by
  unfold AllocatedArray.increaseVectorLength
  by_cases hlarge : maxStorageVectorLength < newLength
  · rw [if_pos hlarge]
    exact .inl rfl
  · rw [if_neg hlarge]
    obtain ⟨length, num, hlengths⟩ := h.lengths
    obtain ⟨newVectorLength, hnew, hle, hmax⟩ := getNewVectorLength_spec lastArraySize length
      s.vectorLength (not_lt.mp hlarge)
    simp only [hlengths, hnew, bind_eq_bind, bind_some]
    by_cases hbias : s.indexBias = 0
    · rw [if_pos hbias]
      obtain ⟨-, hfalse⟩ | ⟨-, s', hs', hvalid, hgrown, hvector, -⟩ :=
        h.reallocate hbias (hlt.trans_le hle) hmax grant
      · exact .inl hfalse
      · exact .inr ⟨s', hs', hvalid, hgrown, hvector ▸ hle⟩
    · rw [if_neg hbias]
      obtain ⟨-, hfalse⟩ | ⟨-, s', hs', hvalid, hgrown, hvector, -⟩ :=
        h.decayBias (hlt.trans_le hle) hmax grant
      · exact .inl hfalse
      · exact .inr ⟨s', hs', hvalid, hgrown, hvector ▸ hle⟩

/-! ## Unshifting -/

/-- The used slots have moved up by the count.  Behind them is what was behind the length, or
nothing. -/
structure Unshifted (length count : ℕ) (s s' : AllocatedArray V) : Prop where
  lengths : s'.lengths = s.lengths
  le : min s.vectorLength length + count ≤ s'.vectorLength
  moved : ∀ i < min s.vectorLength length, s'.slot (i + count) = s.slot i
  behind : ∀ i, min s.vectorLength length + count ≤ i → i < s'.vectorLength →
    s'.slot i = some none ∨ ∃ j, length ≤ j ∧ j < s.vectorLength ∧ s'.slot i = s.slot j

/-- Either the allocation is kept with its capacity, or there is a new one. -/
theorem Sized.chooseAllocation (h : s.Sized) (grant : Option (Grant V)) (required : ℕ)
    (hrequired : required ≤ maxStorageVectorLength) :
    s.chooseAllocation grant required = some none ∨
      ∃ allocation capacity, s.chooseAllocation grant required = some (some (allocation, capacity)) ∧
        required ≤ capacity ∧ capacity ≤ maxStorageVectorLength ∧
          2 + capacity ≤ allocation.words.length ∧
            (allocation = s.allocation ∧ capacity = s.vectorLength + s.indexBias ∨
              ∃ g ∈ grant, allocation.base = g.base) := by
  have hfits := h.fits
  have hroom := h.room
  have hmax := maxStorageVectorLength_eq
  have hbase : baseVectorLen = 4 := rfl
  unfold AllocatedArray.chooseAllocation
  simp only [unsignedAdd_eq (show s.vectorLength + s.indexBias < 2 ^ 32 by omega),
    unsignedAdd_eq (show max baseVectorLen required + max baseVectorLen required < 2 ^ 32 by omega),
    bind_eq_bind, bind_some]
  split_ifs with hkeep
  · rw [h.memory_eq]
    exact .inr ⟨_, _, rfl, by omega, hfits, by omega, .inl ⟨rfl, rfl⟩⟩
  · rw [storageSize_eq (by omega)]
    cases grant with
    | none => exact .inl rfl
    | some g =>
      refine .inr ⟨_, _, rfl, by omega, by omega, ?_, .inr ⟨g, rfl, rfl⟩⟩
      rw [length_map, length_range]

theorem postCapacity_spec (s : AllocatedArray V) (length : ℕ) (h : required ≤ capacity) :
    ∃ post, s.postCapacity length required capacity = some post ∧ required + post ≤ capacity ∧
      (post = 0 ∨ length + post ≤ s.vectorLength) := by
  unfold postCapacity
  split_ifs with hlength
  · rw [unsignedSub_eq hlength.le, unsignedSub_eq h]
    have hhalf : (s.vectorLength - length) >>> 1 ≤ s.vectorLength - length := shiftRight_le _ _
    refine ⟨_, rfl, ?_, .inr ?_⟩
    · omega
    · omega
  · exact ⟨0, rfl, h, .inl rfl⟩

section Move

variable {length count post bias : ℕ}

/-- The move inside of one allocation: the used slots go to the right, over no word of the header. -/
theorem Sized.moveStorage_same (h : s.Sized) (hcount : s.indexBias < count)
    (hcapacity : bias + (min s.vectorLength length + count + post) = s.vectorLength + s.indexBias)
    (hpost : post = 0 ∨ length + post ≤ s.vectorLength) :
    ∃ s', s.moveStorage s.allocation count (min s.vectorLength length)
        (min s.vectorLength length + count) (min s.vectorLength length + count + post) bias =
          some s' ∧ s'.Sized ∧ Unshifted length count s s' := by
  have hfits := h.fits
  have hroom := h.room
  have hstorage := h.storage_eq
  obtain ⟨used, hused⟩ : ∃ used, used = min s.vectorLength length := ⟨_, rfl⟩
  unfold AllocatedArray.moveStorage
  rw [← hused] at hcapacity ⊢
  obtain ⟨words₁, hmove₁, hlength₁, hmoved₁, hother₁⟩ := moveWords_spec
    s.allocation.words (bias + 2 + count) s.allocation.words (s.storage + 2) used (by omega)
    (by omega)
  obtain ⟨words₂, hmove₂, hlength₂, hmoved₂, hother₂⟩ := moveWords_spec
    words₁ bias words₁ s.storage 2 (by omega) (by omega)
  have hheader : ∀ i < 2, words₂[bias + i]? = s.allocation.words[s.storage + i]? := by
    intro i hi
    rw [hmoved₂ i hi, hother₁ _ (.inl (by omega))]
  simp only [hmove₁, hmove₂, if_true, bind_eq_bind, bind_some]
  obtain ⟨s₁, hs₁⟩ : ∃ s₁ : AllocatedArray V,
      s₁ = ⟨⟨s.allocation.base, words₂⟩, bias, used + count + post, bias⟩ := ⟨_, rfl⟩
  have hlengths₁ : s₁.lengths = s.lengths := by
    rw [hs₁]
    exact lengths_congr (hheader 0 Nat.two_pos)
  have hbase₁ : s₁.allocBase = some s.allocation.base := by
    rw [← h.allocBase, hs₁]
    exact allocBase_congr (hheader 1 Nat.one_lt_two)
  rw [← hs₁]
  simp only [hbase₁, bind_some]
  refine ⟨s₁, rfl, ⟨?_, hlengths₁ ▸ h.lengths, ?_, ?_, ?_⟩, hlengths₁, ?_, ?_, ?_⟩
  · rw [hs₁]
  · rw [hbase₁, hs₁]
  · rw [hs₁]
    change used + count + post + bias ≤ _
    omega
  · rw [hs₁]
    change 2 + (used + count + post) + bias ≤ words₂.length
    omega
  · rw [hs₁, ← hused]
    exact le_add_right _ _
  · rw [← hused, hs₁]
    intro i hi
    refine slot_congr ?_
    change words₂[bias + 2 + (i + count)]? = _
    rw [hother₂ _ (.inr (by omega)), ← hmoved₁ i hi]
    congr 1
    omega
  · rw [hs₁]
    intro i hi hi'
    change i < used + count + post at hi'
    refine .inr ⟨bias + i - s.indexBias, by omega, by omega, slot_congr ?_⟩
    change words₂[bias + 2 + i]? = _
    rw [hother₂ _ (.inr (by omega)), hother₁ _ (.inr (by omega))]
    congr 1
    omega

/-- The move to a new allocation. -/
theorem Sized.moveStorage_new (h : s.Sized) {allocation : Allocation V}
    (hbase : allocation.base ≠ s.allocation.base)
    (hsize : 2 + (bias + (min s.vectorLength length + count + post)) ≤ allocation.words.length)
    (hmax : bias + (min s.vectorLength length + count + post) ≤ maxStorageVectorLength) :
    ∃ s', s.moveStorage allocation count (min s.vectorLength length)
        (min s.vectorLength length + count) (min s.vectorLength length + count + post) bias =
          some s' ∧ s'.Sized ∧ Unshifted length count s s' := by
  have hroom := h.storage_room
  obtain ⟨used, hused⟩ : ∃ used, used = min s.vectorLength length := ⟨_, rfl⟩
  unfold AllocatedArray.moveStorage
  rw [← hused] at hsize hmax ⊢
  obtain ⟨words₁, hmove₁, hlength₁, hmoved₁, hother₁⟩ := moveWords_spec
    allocation.words (bias + 2 + count) s.allocation.words (s.storage + 2) used (by omega) (by omega)
  obtain ⟨words₂, hmove₂, hlength₂, hmoved₂, hother₂⟩ := moveWords_spec
    words₁ bias s.allocation.words s.storage 2 (by omega) (by omega)
  simp only [hmove₁, hmove₂, if_neg hbase, bind_eq_bind, bind_some]
  obtain ⟨s₁, hs₁⟩ : ∃ s₁ : AllocatedArray V,
      s₁ = ⟨⟨allocation.base, words₂⟩, bias, used + count + post, bias⟩ := ⟨_, rfl⟩
  have hsize₁ : s₁.storage + 2 + (used + count + post) ≤ s₁.allocation.words.length := by
    rw [hs₁]
    change bias + 2 + (used + count + post) ≤ words₂.length
    omega
  have hlengths₁ : s₁.lengths = s.lengths := by
    rw [hs₁]
    exact lengths_congr (hmoved₂ 0 Nat.two_pos)
  have hbase₁ : s₁.allocBase = some s.allocation.base := by
    rw [← h.allocBase, hs₁]
    exact allocBase_congr (hmoved₂ 1 Nat.one_lt_two)
  have hmovedSlots : ∀ i < used, s₁.slot (i + count) = s.slot i := by
    rw [hs₁]
    intro i hi
    refine slot_congr ?_
    change words₂[bias + 2 + (i + count)]? = _
    rw [hother₂ _ (.inr (by omega)), ← hmoved₁ i hi]
    congr 1
    omega
  have hshape : s₁.allocation.base = allocation.base ∧ s₁.storage = bias ∧
      s₁.vectorLength = used + count + post ∧ s₁.indexBias = bias := by
    rw [hs₁]
    exact ⟨rfl, rfl, rfl, rfl⟩
  rw [← hs₁]
  simp only [hbase₁, bind_some, if_neg hbase.symm]
  obtain ⟨s₂, hs₂, hshape₂, hbase₂, hlengths₂, hslot₂⟩ :=
    setAllocBase_spec (s := s₁) allocation.base (by omega)
  obtain ⟨s₃, hs₃, hshape₃, hbase₃, hlengths₃, hcleared, hslot₃⟩ :=
    clearSlots_spec (s := s₂) (used + count) (used + count + post) (le_add_right _ _)
      (by rw [hshape₂.storage, hshape₂.size]; exact hsize₁)
  have hvector : s₃.vectorLength = used + count + post := by
    rw [hshape₃.vectorLength, hshape₂.vectorLength, hshape.2.2.1]
  have hbias : s₃.indexBias = bias := by
    rw [hshape₃.indexBias, hshape₂.indexBias, hshape.2.2.2]
  have hlengths₃' : s₃.lengths = s.lengths := by rw [hlengths₃, hlengths₂, hlengths₁]
  refine ⟨s₃, ?_, ⟨?_, hlengths₃' ▸ h.lengths, ?_, ?_, ?_⟩, hlengths₃', ?_, ?_, ?_⟩
  · simp only [hs₂, hs₃, bind_some]
  · rw [hshape₃.storage, hshape₂.storage, hshape.2.1, hbias]
  · rw [hbase₃, hbase₂, hshape₃.base, hshape₂.base, hshape.1]
  · omega
  · rw [hshape₃.size, hshape₂.size]
    omega
  · rw [hvector, ← hused]
    exact le_add_right _ _
  · rw [← hused]
    intro i hi
    rw [hslot₃ _ (.inl (by omega)), hslot₂, hmovedSlots i hi]
  · rw [← hused, hvector]
    exact fun i hi hi' => .inl (hcleared i hi hi')

end Move

/-- The slow case either leaves the array alone, or moves the used slots up. -/
theorem Sized.unshiftCountSlowCase (h : s.Sized) (hlengths : s.lengths = some (length, num))
    (hcount : s.indexBias < count) (hgrant : ∀ g ∈ grant, g.base ≠ s.allocation.base) :
    s.unshiftCountSlowCase grant count = some (s, false) ∨
      ∃ s', s.unshiftCountSlowCase grant count = some (s', true) ∧ s'.Sized ∧
        Unshifted length count s s' := by
  have hfits := h.fits
  have hmax := maxStorageVectorLength_eq
  have husedLe : min s.vectorLength length ≤ maxStorageVectorLength :=
    (min_le_left _ _).trans (by omega)
  unfold AllocatedArray.unshiftCountSlowCase
  simp only [hlengths, unsignedSub_eq husedLe, bind_eq_bind, bind_some]
  by_cases hlarge : maxStorageVectorLength - min s.vectorLength length < count
  · rw [if_pos hlarge]
    exact .inl rfl
  · rw [if_neg hlarge, unsignedAdd_eq (by omega)]
    simp only [bind_some]
    obtain hnone | ⟨allocation, capacity, hchoose, hrequired, hcapacity, hsize, hcase⟩ :=
      h.chooseAllocation grant (min s.vectorLength length + count) (by omega)
    · rw [hnone]
      exact .inl rfl
    · obtain ⟨post, hpost, hpostLe, hbehind⟩ := postCapacity_spec s length hrequired
      have hbias : capacity - (min s.vectorLength length + count + post) +
          (min s.vectorLength length + count + post) = capacity := Nat.sub_add_cancel hpostLe
      simp only [hchoose, hpost, bind_some, unsignedSub_eq hpostLe,
        unsignedAdd_eq (show min s.vectorLength length + count + post < 2 ^ 32 by omega)]
      obtain ⟨s', hs', hsized, hunshifted⟩ : ∃ s', s.moveStorage allocation count
          (min s.vectorLength length) (min s.vectorLength length + count)
          (min s.vectorLength length + count + post)
            (capacity - (min s.vectorLength length + count + post)) = some s' ∧ s'.Sized ∧
              Unshifted length count s s' := by
        obtain ⟨rfl, hkept⟩ | ⟨g, hg, hbase⟩ := hcase
        · exact h.moveStorage_same hcount (hbias.trans hkept) hbehind
        · exact h.moveStorage_new (hbase ▸ hgrant g hg) (by omega) (by omega)
      refine .inr ⟨s', ?_, hsized, hunshifted⟩
      rw [hs', bind_some]

/-- `unshiftCount` after the loop: the new slots are empty, and the used ones are behind them. -/
structure MadeRoom (length count : ℕ) (s s' : AllocatedArray V) : Prop where
  lengths : s'.lengths = s.lengths
  room : ∀ i < count, s'.slot i = some none
  moved : ∀ i < min s.vectorLength length, s'.slot (i + count) = s.slot i

/-- The new slots are cleared behind a header that has moved. -/
theorem Sized.clearRoom (h : s'.Sized) (hle : count ≤ s'.vectorLength)
    (hslots : ∀ i, count ≤ i → i < s'.vectorLength → ∃ v, s'.slot i = some v) :
    ∃ s'', s'.clearSlots 0 count = some s'' ∧ s''.Valid ∧ s''.lengths = s'.lengths ∧
      (∀ i < count, s''.slot i = some none) ∧ ∀ i, count ≤ i → s''.slot i = s'.slot i := by
  have hroom := h.storage_room
  obtain ⟨s'', hs'', hshape, hbase, hlengths, hcleared, hslot⟩ :=
    clearSlots_spec (s := s') 0 count (zero_le _) (by omega)
  refine ⟨s'', hs'', ⟨h.of_sameShape hshape hbase (hlengths ▸ h.lengths), fun i hi => ?_⟩, hlengths,
    fun i hi => hcleared i (zero_le _) hi, fun i hi => hslot i (.inr hi)⟩
  rw [hshape.vectorLength] at hi
  obtain hlt | hge := lt_or_ge i count
  · exact ⟨none, hcleared i (zero_le _) hlt⟩
  · rw [hslot i (.inr hge)]
    exact hslots i hge hi

theorem Valid.unshiftCountEnd (h : s.Valid) (hlengths : s.lengths = some (length, num))
    (hgrant : ∀ g ∈ grant, g.base ≠ s.allocation.base) (count : ℕ) :
    s.unshiftCountEnd grant count = some (s, false) ∨
      ∃ s', s.unshiftCountEnd grant count = some (s', true) ∧ s'.Valid ∧
        MadeRoom length count s s' := by
  have hfits := h.fits
  have hroom := h.room
  have hstorage := h.storage_eq
  have hmax := maxStorageVectorLength_eq
  unfold AllocatedArray.unshiftCountEnd
  by_cases hfast : count ≤ s.indexBias
  · obtain ⟨words, hmove, hlength, hmoved, hother⟩ := moveWords_spec s.allocation.words
      (s.storage - count) s.allocation.words s.storage 2 (by omega) (by omega)
    rw [if_pos hfast, unsignedSub_eq (hstorage ▸ hfast),
      unsignedAdd_eq (show s.vectorLength + count < 2 ^ 32 by omega)]
    simp only [hmove, bind_eq_bind, bind_some]
    obtain ⟨s₁, hs₁⟩ : ∃ s₁ : AllocatedArray V, s₁ = ⟨⟨s.allocation.base, words⟩, s.storage - count,
      s.vectorLength + count, s.indexBias - count⟩ := ⟨_, rfl⟩
    have hlengths₁ : s₁.lengths = s.lengths := by
      rw [hs₁]
      exact lengths_congr (hmoved 0 Nat.two_pos)
    have hslot₁ : ∀ i, s₁.slot (i + count) = s.slot i := by
      rw [hs₁]
      intro i
      refine slot_congr ?_
      change words[s.storage - count + 2 + (i + count)]? = _
      rw [hother _ (.inr (by omega))]
      congr 1
      omega
    have hsized₁ : s₁.Sized := by
      refine ⟨?_, hlengths₁ ▸ h.lengths, ?_, ?_, ?_⟩
      · rw [hs₁, hstorage]
      · rw [hs₁]
        exact (allocBase_congr (hmoved 1 Nat.one_lt_two)).trans h.allocBase
      · rw [hs₁]
        change s.vectorLength + count + (s.indexBias - count) ≤ _
        omega
      · rw [hs₁]
        change 2 + (s.vectorLength + count) + (s.indexBias - count) ≤ words.length
        omega
    have hvector₁ : s₁.vectorLength = s.vectorLength + count := by rw [hs₁]
    change _ ∨ ∃ s', (AllocatedArray.clearSlots 0 count ⟨⟨s.allocation.base, words⟩,
      s.storage - count, s.vectorLength + count, s.indexBias - count⟩).bind
        (fun s' => some (s', true)) = some (s', true) ∧ _
    rw [← hs₁]
    obtain ⟨s₂, hs₂, hvalid, hlengths₂, hcleared, hslot₂⟩ := hsized₁.clearRoom
      (hvector₁ ▸ le_add_left _ _) (fun i hi hi' => by
        obtain ⟨v, hv⟩ := h.slots (i - count) (by omega)
        rw [← hslot₁, Nat.sub_add_cancel hi] at hv
        exact ⟨v, hv⟩)
    refine .inr ⟨s₂, ?_, hvalid, hlengths₂.trans hlengths₁, hcleared, fun i _ => ?_⟩
    · rw [hs₂, bind_some]
    · rw [hslot₂ _ (le_add_left _ _), hslot₁]
  · rw [if_neg hfast]
    obtain hfalse | ⟨s₁, hs₁, hsized, hunshifted⟩ :=
      h.unshiftCountSlowCase hlengths (not_le.mp hfast) hgrant
    · rw [hfalse]
      exact .inl rfl
    · have hle := hunshifted.le
      obtain ⟨s₂, hs₂, hvalid, hlengths₂, hcleared, hslot₂⟩ := hsized.clearRoom
        (show count ≤ s₁.vectorLength by omega) (fun i hi hi' => by
          obtain hlt | hge := lt_or_ge i (min s.vectorLength length + count)
          · obtain ⟨v, hv⟩ := h.slots (i - count) (by omega)
            rw [← hunshifted.moved _ (by omega), Nat.sub_add_cancel hi] at hv
            exact ⟨v, hv⟩
          · obtain hnone | ⟨j, -, hj, hslot⟩ := hunshifted.behind i hge hi'
            · exact ⟨none, hnone⟩
            · exact hslot ▸ h.slots j hj)
      refine .inr ⟨s₂, ?_, hvalid, hlengths₂.trans hunshifted.lengths, hcleared, fun i hi => ?_⟩
      · simp only [hs₁, hs₂, bind_eq_bind, bind_some, if_true]
      · rw [hslot₂ _ (le_add_left _ _), hunshifted.moved i hi]

/-! ## Shifting -/

/-- The number of values in so many slots from one on. -/
def countValues (s : AllocatedArray V) (count start : ℕ) : ℕ :=
  (List.range' start count).countP fun i => decide (i < s.vectorLength) && (s.slot i).join.isSome

theorem countValues_succ (count start : ℕ) : s.countValues (count + 1) start =
    s.countValues count (start + 1) +
      if decide (start < s.vectorLength) && (s.slot start).join.isSome then 1 else 0 := by
  unfold countValues
  rw [range'_succ, countP_cons]

theorem Valid.uncount (h : s.Valid) : ∀ (count i num : ℕ), s.countValues count i ≤ num →
    s.uncount count i num = some (num - s.countValues count i)
  | 0, i, num, _ => rfl
  | n + 1, i, num, hle => by
    unfold AllocatedArray.uncount
    rw [countValues_succ] at hle ⊢
    by_cases hi : i < s.vectorLength
    · obtain ⟨v, hv⟩ := h.slots i hi
      rw [if_pos hi]
      rw [hv, decide_eq_true hi] at hle ⊢
      cases v with
      | none => exact h.uncount n (i + 1) num hle
      | some v =>
        change s.countValues n (i + 1) + 1 ≤ num at hle
        change (unsignedSub num 1).bind _ = some (num - (s.countValues n (i + 1) + 1))
        rw [unsignedSub_eq (by omega), bind_some,
          h.uncount n (i + 1) _ (Nat.le_sub_of_add_le hle), Nat.sub_sub, Nat.add_comm 1]
    · rw [if_neg hi]
      rw [decide_eq_false hi] at hle ⊢
      exact h.uncount n (i + 1) num hle

/-- The slots have moved down, over the first ones. -/
structure Shifted (length count : ℕ) (s s' : AllocatedArray V) : Prop where
  lengths : ∃ num, s'.lengths = some (length - count, num)
  vectorLength : s'.vectorLength = s.vectorLength - count
  moved : ∀ i < s'.vectorLength, s'.slot i = s.slot (i + count)

/-- A count that the lengths hold out: no more than there are elements and values. -/
def Covers (hasHoles : Bool) (count length num : ℕ) (s : AllocatedArray V) : Prop :=
  count ≤ length ∧ (if hasHoles then s.countValues count 0 else count) ≤ num

theorem Valid.shiftCountEnd (h : s.Valid) (hlengths : s.lengths = some (length, num))
    (hcovers : s.Covers hasHoles count length num) :
    ∃ s', s.shiftCountEnd hasHoles count = some s' ∧ s'.Valid ∧ Shifted length count s s' := by
  have hmax := maxStorageVectorLength_eq
  obtain ⟨hcount, hnum⟩ := hcovers
  unfold AllocatedArray.shiftCountEnd
  obtain ⟨num', hnum'⟩ : ∃ num', s.uncountValues hasHoles count num = some num' := by
    cases hasHoles with
    | true => exact ⟨_, h.uncount count 0 num hnum⟩
    | false => exact ⟨_, unsignedSub_eq hnum⟩
  obtain ⟨s₁, hs₁, hshape, hbase, hlengths₁, hslot⟩ :=
    setLengths_spec (s := s) (length - count) num' (by have := h.storage_room; omega)
  simp only [hlengths, hnum', unsignedSub_eq hcount, hs₁, bind_eq_bind, bind_some]
  have hsub : s₁.vectorLength - min s₁.vectorLength count = s.vectorLength - count := by
    rw [hshape.vectorLength]
    omega
  have hsized₁ : s₁.Sized := h.of_sameShape hshape hbase ⟨_, _, hlengths₁⟩
  have hfits₁ := hsized₁.fits
  have hroom₁ := hsized₁.room
  have hstorage₁ := hsized₁.storage_eq
  by_cases hall : s.vectorLength - count = 0
  · rw [if_pos (hsub.trans hall)]
    refine ⟨_, rfl, ⟨⟨hstorage₁, ⟨_, _, hlengths₁⟩, hsized₁.allocBase, ?_, ?_⟩, ?_⟩,
      ⟨num', hlengths₁⟩, hall.symm, ?_⟩
    · change 0 + s₁.indexBias ≤ _
      omega
    · change 2 + 0 + s₁.indexBias ≤ s₁.allocation.words.length
      omega
    all_goals exact fun i hi => absurd hi (not_lt_zero i)
  · rw [if_neg (hsub ▸ hall), hsub, min_eq_right (by have := hshape.vectorLength; omega)]
    obtain ⟨words, hmove, hlength, hmoved, hother⟩ := moveWords_spec s₁.allocation.words
      (s₁.storage + count) s₁.allocation.words s₁.storage 2 (by omega) (by omega)
    rw [hmove, unsignedAdd_eq (by omega)]
    have hslots : ∀ i, AllocatedArray.slot ⟨⟨s₁.allocation.base, words⟩, s₁.storage + count,
        s.vectorLength - count, s₁.indexBias + count⟩ i = s.slot (i + count) := by
      intro i
      rw [← hslot]
      refine slot_congr ?_
      change words[s₁.storage + count + 2 + i]? = _
      rw [hother _ (.inr (by omega))]
      congr 1
      omega
    refine ⟨_, rfl, ⟨⟨?_, ?_, ?_, ?_, ?_⟩, fun i hi => ?_⟩, ⟨num', ?_⟩, rfl, fun i _ => hslots i⟩
    · rw [hstorage₁]
    · exact ⟨_, _, (lengths_congr (hmoved 0 Nat.two_pos)).trans hlengths₁⟩
    · exact (allocBase_congr (hmoved 1 Nat.one_lt_two)).trans hsized₁.allocBase
    · change s.vectorLength - count + (s₁.indexBias + count) ≤ _
      omega
    · change 2 + (s.vectorLength - count) + (s₁.indexBias + count) ≤ words.length
      omega
    · change i < s.vectorLength - count at hi
      obtain ⟨v, hv⟩ := h.slots (i + count) (by omega)
      exact ⟨v, (hslots i).trans hv⟩
    · exact (lengths_congr (hmoved 0 Nat.two_pos)).trans hlengths₁

/-! ## What else happens to the storage -/

theorem Valid.write (h : s.Valid) (length num : ℕ) {slots : List (Option V)}
    (hslots : slots.length ≤ s.vectorLength) :
    ∃ s', s.write length num slots = some s' ∧ s'.Valid ∧ s'.lengths = some (length, num) := by
  have hroom := h.storage_room
  unfold AllocatedArray.write
  obtain ⟨s₁, hs₁, hshape, hbase, hlengths₁, hslot⟩ :=
    setLengths_spec (s := s) length num (by omega)
  have hsized₁ : s₁.Sized := h.of_sameShape hshape hbase ⟨_, _, hlengths₁⟩
  obtain ⟨words, hmove, hlength, hmoved, hother⟩ := moveWords_spec s₁.allocation.words
    (s₁.storage + 2) (slots.map Word.slot) 0 slots.length
    (by rw [hshape.storage, hshape.size]; omega) (by rw [length_map]; omega)
  simp only [hs₁, hmove, bind_eq_bind, bind_some]
  have hlengths₂ : (s₁.withWords words).lengths = some (length, num) :=
    (lengths_congr (hother s₁.storage (.inl (by omega)))).trans hlengths₁
  refine ⟨_, rfl, ⟨hsized₁.of_sameShape (sameShape_withWords hlength) (allocBase_congr ?_)
    ⟨_, _, hlengths₂⟩, fun i hi => ?_⟩, hlengths₂⟩
  · exact hother _ (.inl (lt_succ_self _))
  · obtain hlt | hge := lt_or_ge i slots.length
    · refine ⟨slots[i], slot_eq_some.mpr ?_⟩
      change words[s₁.storage + 2 + i]? = _
      rw [hmoved i hlt, zero_add, List.getElem?_map, List.getElem?_eq_getElem hlt]
      rfl
    · change i < s₁.vectorLength at hi
      rw [hshape.vectorLength] at hi
      obtain ⟨v, hv⟩ := h.slots i hi
      refine ⟨v, ?_⟩
      rw [← hv, ← hslot]
      exact slot_congr (hother _ (.inr (Nat.add_le_add_left hge _)))

variable (grant : Grant V)

theorem Valid.enterDictionaryMode (h : s.Valid) :
    ∃ s', s.enterDictionaryMode grant = some s' ∧ s'.Valid ∧ s'.lengths = s.lengths := by
  have hroom := h.storage_room
  have hfresh : ((List.range 2).map grant.fresh).length = 2 := rfl
  obtain ⟨words, hmove, hlength, hmoved, -⟩ := moveWords_spec ((List.range 2).map grant.fresh) 0
    s.allocation.words s.storage 2 (by omega) (by omega)
  obtain ⟨s₁, hs₁, hshape, hbase, hlengths, hslot⟩ :=
    setAllocBase_spec (s := ⟨⟨grant.base, words⟩, 0, 0, 0⟩) grant.base
      (show 0 + 2 ≤ words.length by omega)
  have hlengths' : s₁.lengths = s.lengths := hlengths.trans (lengths_congr (hmoved 0 Nat.two_pos))
  refine ⟨s₁, ?_, ⟨⟨?_, hlengths' ▸ h.lengths, ?_, ?_, ?_⟩, fun i hi => ?_⟩, hlengths'⟩
  · unfold AllocatedArray.enterDictionaryMode
    simp only [storageSize_eq (zero_le _), bind_eq_bind, bind_some, hmove, hs₁]
  · rw [hshape.storage, hshape.indexBias]
  · rw [hbase, hshape.base]
  · rw [hshape.vectorLength, hshape.indexBias]
    exact zero_le _
  · rw [hshape.vectorLength, hshape.indexBias, hshape.size]
    exact (hlength.trans hfresh).ge
  · rw [hshape.vectorLength] at hi
    exact absurd hi (not_lt_zero i)

theorem Valid.visitChildren (h : s.Valid) :
    ∃ s', s.visitChildren grant = some s' ∧ s'.Valid ∧ s'.lengths = s.lengths ∧
      ∀ i < s.vectorLength, s'.slot i = s.slot i := by
  have hroom := h.room
  have hfits := h.fits
  have hmax := maxStorageVectorLength_eq
  have hfresh : ((List.range (2 + (s.vectorLength + s.indexBias))).map grant.fresh).length =
      2 + (s.vectorLength + s.indexBias) := by rw [length_map, length_range]
  obtain ⟨words, hmove, hlength, hmoved, -⟩ := moveWords_spec
    ((List.range (2 + (s.vectorLength + s.indexBias))).map grant.fresh) 0 s.allocation.words 0
    (2 + (s.vectorLength + s.indexBias)) (by omega) (by omega)
  obtain ⟨s₁, hs₁, hshape, hbase, hlengths, hslot⟩ :=
    setAllocBase_spec (s := ⟨⟨grant.base, words⟩, s.indexBias, s.vectorLength, s.indexBias⟩)
      grant.base (show s.indexBias + 2 ≤ words.length by omega)
  have hword : ∀ i < 2 + (s.vectorLength + s.indexBias), words[i]? = s.allocation.words[i]? := by
    intro i hi
    simpa only [zero_add] using hmoved i hi
  have hlengths' : s₁.lengths = s.lengths := hlengths.trans (lengths_congr (by
    rw [h.storage_eq]
    exact hword s.indexBias (by omega)))
  have hslot' : ∀ i < s.vectorLength, s₁.slot i = s.slot i := by
    intro i hi
    refine (hslot i).trans (slot_congr ?_)
    rw [h.storage_eq]
    exact hword (s.indexBias + 2 + i) (by omega)
  refine ⟨s₁, ?_, ⟨⟨?_, hlengths' ▸ h.lengths, ?_, ?_, ?_⟩, fun i hi => ?_⟩, hlengths', hslot'⟩
  · unfold AllocatedArray.visitChildren
    simp only [unsignedAdd_eq (show s.vectorLength + s.indexBias < 2 ^ 32 by omega),
      storageSize_eq hfits, bind_eq_bind, bind_some, hmove, hs₁]
  · rw [hshape.storage, hshape.indexBias]
  · rw [hbase, hshape.base]
  · rw [hshape.vectorLength, hshape.indexBias]
    exact hfits
  · rw [hshape.vectorLength, hshape.indexBias, hshape.size]
    change 2 + s.vectorLength + s.indexBias ≤ words.length
    omega
  · rw [hshape.vectorLength] at hi
    exact (hslot' i hi).symm ▸ h.slots i hi

/-! ## Creation -/

theorem newStorage_spec {vectorLength : ℕ}
    (hmax : vectorLength ≤ maxStorageVectorLength) (length num : ℕ) :
    ∃ s, newStorage grant vectorLength length num = some s ∧ s.Sized ∧
      s.vectorLength = vectorLength ∧ s.lengths = some (length, num) := by
  have hsize : ((List.range (2 + vectorLength)).map grant.fresh).length = 2 + vectorLength := by
    rw [length_map, length_range]
  obtain ⟨s₁, hs₁, hshape₁, hbase₁, -, -⟩ := setAllocBase_spec
    (s := ⟨⟨grant.base, (List.range (2 + vectorLength)).map grant.fresh⟩, 0, vectorLength, 0⟩)
    grant.base (show 0 + 2 ≤ ((List.range (2 + vectorLength)).map grant.fresh).length by omega)
  have hsize₁ : s₁.allocation.words.length = 2 + vectorLength := hshape₁.size.trans hsize
  have hstorage₁ : s₁.storage = 0 := hshape₁.storage
  obtain ⟨s₂, hs₂, hshape₂, hbase₂, hlengths₂, -⟩ := setLengths_spec (s := s₁) length num (by omega)
  have hvector : s₂.vectorLength = vectorLength := by
    rw [hshape₂.vectorLength, hshape₁.vectorLength]
  have hbias : s₂.indexBias = 0 := by
    rw [hshape₂.indexBias, hshape₁.indexBias]
  refine ⟨s₂, ?_, ⟨?_, ⟨_, _, hlengths₂⟩, ?_, ?_, ?_⟩, hvector, hlengths₂⟩
  · unfold newStorage
    simp only [storageSize_eq hmax, bind_eq_bind, bind_some, hs₁, hs₂]
  · rw [hshape₂.storage, hstorage₁, hbias]
  · rw [hbase₂, hbase₁, hshape₂.base, hshape₁.base]
  · rwa [hvector, hbias]
  · rw [hvector, hbias, hshape₂.size, hsize₁, add_zero]

theorem create_spec (initialLength : ℕ) :
    ∃ s, create grant initialLength = some s ∧ s.Valid ∧ s.lengths = some (initialLength, 0) := by
  obtain ⟨s, hs, hsized, hvector, hlengths⟩ :=
    newStorage_spec grant (show baseVectorLen ≤ maxStorageVectorLength by decide) initialLength 0
  obtain ⟨s', hs', hvalid, hlengths', -⟩ := hsized.clearRoom hvector.ge
    (fun i hi hi' => absurd (hvector ▸ hi') (Nat.not_lt_of_le hi))
  refine ⟨s', ?_, hvalid, hlengths'.trans hlengths⟩
  unfold create
  simp only [hs, hs', bind_eq_bind, bind_some]

theorem createInitialized_spec {values : List V} (h : values.length ≤ maxStorageVectorLength) :
    ∃ s, createInitialized grant values = some s ∧ s.Valid ∧
      s.lengths = some (values.length, values.length) := by
  have hmax : max values.length baseVectorLen ≤ maxStorageVectorLength := Nat.max_le.mpr ⟨h, by decide⟩
  obtain ⟨s, hs, hsized, hvector, hlengths⟩ :=
    newStorage_spec grant hmax values.length values.length
  have hroom := hsized.storage_room
  obtain ⟨s₁, hs₁, hshape₁, hbase₁, hlengths₁, hcleared, -⟩ := clearSlots_spec (s := s)
    values.length (max values.length baseVectorLen) (le_max_left _ _) (by omega)
  have hsized₁ : s₁.Sized := hsized.of_sameShape hshape₁ hbase₁ (hlengths₁ ▸ hsized.lengths)
  have hroom₁ := hsized₁.storage_room
  have hvector₁ : s₁.vectorLength = max values.length baseVectorLen :=
    hshape₁.vectorLength.trans hvector
  obtain ⟨words, hmove, hlength, hmoved, hother⟩ := moveWords_spec s₁.allocation.words
    (s₁.storage + 2) (values.map fun v => Word.slot (some v)) 0 values.length (by omega)
    (by rw [length_map]; omega)
  have hlengths₂ : (s₁.withWords words).lengths = s.lengths :=
    (lengths_congr (hother s₁.storage (.inl (by omega)))).trans hlengths₁
  refine ⟨s₁.withWords words, ?_, ⟨hsized₁.of_sameShape (sameShape_withWords hlength)
    (allocBase_congr ?_) (hlengths₂ ▸ hsized.lengths), fun i hi => ?_⟩, hlengths₂.trans hlengths⟩
  · unfold createInitialized
    simp only [hs, hs₁, hmove, bind_eq_bind, bind_some]
  · exact hother _ (.inl (lt_succ_self _))
  · obtain hlt | hge := lt_or_ge i values.length
    · refine ⟨some values[i], slot_eq_some.mpr ?_⟩
      change words[s₁.storage + 2 + i]? = _
      rw [hmoved i hlt, zero_add, List.getElem?_map, List.getElem?_eq_getElem hlt]
      rfl
    · refine ⟨none, ?_⟩
      rw [← hcleared i hge (hvector₁ ▸ hi)]
      exact slot_congr (hother _ (.inr (Nat.add_le_add_left hge _)))

variable {grant}

end AllocatedArray

end JavaScriptCore
end WebKit
