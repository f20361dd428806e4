import WebKit.JavaScriptCore.PropertyHashTable
import WebKit.Library.PowersOfTwo

/-!
# The sizes of a property table

`sizeForCapacity_spec`: as long as the capacity is less than 2^30 the index has a power of two of
cells, and the table has place for one value more than the capacity.
-/

namespace WebKit
namespace JavaScriptCore

theorem nextPowerOf2_eq (hv : v < 2 ^ 32) : nextPowerOf2 (v + 1) = 2 ^ v.size % 2 ^ 32 := by
  have hsize : v.size ≤ 32 := Nat.size_le.mpr hv
  have hless : (v + 1 + (2 ^ 32 - 1)) % 2 ^ 32 = v := by omega
  have hpos : 0 < 2 ^ v.size := Nat.two_pow_pos _
  have hstep₁ : FilledFrom v.size 2 (v ||| v >>> 1) := (filledFrom_size v).double
  have hstep₂ : FilledFrom v.size 4 _ := hstep₁.double
  have hstep₃ : FilledFrom v.size 8 _ := hstep₂.double
  have hstep₄ : FilledFrom v.size 16 _ := hstep₃.double
  have hstep₅ : FilledFrom v.size 32 _ := hstep₄.double
  unfold nextPowerOf2
  rw [hless]
  dsimp only
  rw [hstep₅.eq hsize, Nat.sub_add_cancel hpos]

namespace PropertyHashTable

/-- The index has a power of two of cells, and the table has place for one value more. -/
theorem sizeForCapacity_spec (h : capacity < 2 ^ 30) :
    ∃ j, 4 ≤ j ∧ j ≤ 31 ∧ sizeForCapacity capacity = 2 ^ j ∧ capacity < 2 ^ j >>> 1 := by
  unfold sizeForCapacity
  split
  · exact ⟨4, le_rfl, by decide, rfl, by
      rename_i hsmall
      exact hsmall⟩
  · rename_i hlarge
    have hsize : capacity.size ≤ 30 := Nat.size_le.mpr h
    have hsmall : ¬capacity.size ≤ 3 := fun hle => hlarge (Nat.size_le.mp hle)
    have hpow : 2 ^ capacity.size ≤ 2 ^ 30 := Nat.pow_le_pow_right (by decide) hsize
    have hcapacity := Nat.lt_size_self capacity
    refine ⟨capacity.size + 1, by omega, by omega, ?_, ?_⟩
    · rw [Nat.mod_eq_of_lt (show capacity + 1 < 2 ^ 32 by omega),
        nextPowerOf2_eq (show capacity < 2 ^ 32 by omega)]
      omega
    · rw [Nat.shiftRight_eq_div_pow, Nat.pow_succ, Nat.mul_div_cancel _ Nat.two_pos]
      exact hcapacity

end PropertyHashTable

end JavaScriptCore
end WebKit
