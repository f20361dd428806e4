import Mathlib.Data.BitVec

/-!
# Rounding to a power of two

Clearing the low bits of a word rounds it down to a multiple of a power of two; when the mask was
added before, the word is rounded up.
-/

namespace WebKit
namespace Alignment

/-- Clearing the low `k` bits rounds down. -/
theorem toNat_and_not_mask (hn : n < 2 ^ w) :
    (BitVec.ofNat w n &&& ~~~(BitVec.ofNat w (2 ^ k - 1))).toNat = n / 2 ^ k * 2 ^ k := by
  have hshift : BitVec.ofNat w n &&& ~~~(BitVec.ofNat w (2 ^ k - 1))
      = (BitVec.ofNat w n >>> k) <<< k := by
    refine BitVec.eq_of_getLsbD_eq fun i hi => ?_
    rw [BitVec.getLsbD_and, BitVec.getLsbD_not, BitVec.getLsbD_ofNat _ (2 ^ k - 1),
      Nat.testBit_two_pow_sub_one, BitVec.getLsbD_shiftLeft, BitVec.getLsbD_ushiftRight]
    by_cases hik : i < k
    · simp [hik]
    · have hi' : k + (i - k) = i := by omega
      simp [hi, hik, hi']
  rw [hshift, BitVec.toNat_shiftLeft, BitVec.toNat_ushiftRight, BitVec.toNat_ofNat,
    Nat.mod_eq_of_lt hn, Nat.shiftRight_eq_div_pow, Nat.shiftLeft_eq]
  exact Nat.mod_eq_of_lt ((Nat.div_mul_le_self _ _).trans_lt hn)

/-- What is added before rounding down makes it rounding up. -/
theorem le_div_mul (hpos : 0 < a) (n : ℕ) : n ≤ (n + a - 1) / a * a := by
  have hdiv := Nat.div_add_mod (n + a - 1) a
  have hmod := Nat.mod_lt (n + a - 1) hpos
  rw [Nat.mul_comm] at hdiv
  omega

/-- The rounded number is the least multiple that is not below. -/
theorem div_mul_le (hpos : 0 < a) (hle : n ≤ m) (hdvd : a ∣ m) :
    (n + a - 1) / a * a ≤ m := by
  obtain ⟨q, rfl⟩ := hdvd
  have hdiv : (n + a - 1) / a ≤ q := by
    rw [← Nat.lt_succ_iff, Nat.div_lt_iff_lt_mul hpos, Nat.succ_mul, Nat.mul_comm]
    omega
  rw [Nat.mul_comm a]
  exact Nat.mul_le_mul_right a hdiv

end Alignment
end WebKit
