import Mathlib

/-!
# Filling up the bits below the highest one

`v ||| v >>> k`, for 1, 2, 4 and so on, sets all bits below the highest one, so that adding 1 gives
the next power of two.

* `FilledFrom`: so many bits below the top are set.
* `FilledFrom.double`: one step doubles their number.
-/

namespace WebKit

/-- No bit from `top` on is set, and the `k` bits below it are. -/
structure FilledFrom (top k v : ℕ) : Prop where
  above : ∀ i, top ≤ i → v.testBit i = false
  below : ∀ i, i < top → top ≤ i + k → v.testBit i = true

theorem filledFrom_size (v : ℕ) : FilledFrom v.size 1 v where
  above i hi := Nat.testBit_lt_two_pow (Nat.size_le.mp hi)
  below i hi hle := by
    obtain htop : v.size = i + 1 := Nat.le_antisymm hle hi
    have hge : 2 ^ i ≤ v := Nat.le_of_not_lt fun hlt => by
      have hsize := Nat.size_le.mpr hlt
      omega
    exact Nat.testBit_of_two_pow_le_and_two_pow_add_one_gt hge (htop ▸ Nat.lt_size_self v)

theorem FilledFrom.double (h : FilledFrom top k v) :
    FilledFrom top (k + k) (v ||| v >>> k) where
  above i hi := by
    rw [Nat.testBit_or, Nat.testBit_shiftRight, h.above i hi, h.above (k + i) (by omega)]
    rfl
  below i hi hle := by
    rw [Nat.testBit_or, Nat.testBit_shiftRight]
    by_cases hnear : top ≤ i + k
    · rw [h.below i hi hnear, Bool.true_or]
    · rw [h.below (k + i) (by omega) (by omega), Bool.or_true]

theorem FilledFrom.eq (h : FilledFrom top k v) (hk : top ≤ k) : v = 2 ^ top - 1 := by
  refine Nat.eq_of_testBit_eq fun i => ?_
  rw [Nat.testBit_two_pow_sub_one]
  by_cases hi : i < top
  · rw [h.below i hi (by omega), decide_eq_true hi]
  · rw [h.above i (Nat.le_of_not_lt hi), decide_eq_false hi]

end WebKit
