import Mathlib.Data.Nat.Log
import WebKit.Loader.MemoryCache

/-!
# The logarithm of a size

`fastLog2` rounds up, so a resource that becomes smaller does not move to a list of larger ones.

* `fastLog2_eq`: the logarithm, and 1 more if the number is no power of two.
* `fastLog2_mono`: it is monotone.
-/

namespace WebKit
namespace Loader

theorem log_two_div_pow (n k : ℕ) : Nat.log 2 (n / 2 ^ k) = Nat.log 2 n - k := by
  induction k with
  | zero => rw [Nat.pow_zero, Nat.div_one, Nat.sub_zero]
  | succ k ih => rw [Nat.pow_succ, ← Nat.div_div_eq_div_mul, Nat.log_div_base, ih, Nat.sub_sub]

/-- One step of the search: the upper half is taken if it is not 0. -/
def halve (k : ℕ) (acc : ℕ × Unsigned) : ℕ × Unsigned :=
  if acc.2 >>> k ≠ 0 then (acc.1 + k, acc.2 >>> k) else acc

theorem ushiftRight_ne_zero_iff (i : Unsigned) (k : ℕ) : i >>> k ≠ 0 ↔ 2 ^ k ≤ i.toNat := by
  rw [ne_eq, ← BitVec.toNat_inj, BitVec.toNat_ushiftRight, Nat.shiftRight_eq_div_pow]
  change ¬i.toNat / 2 ^ k = 0 ↔ 2 ^ k ≤ i.toNat
  rw [Nat.div_eq_zero_iff_lt (Nat.two_pow_pos k), Nat.not_lt]

theorem log_halve (k : ℕ) (acc : ℕ × Unsigned) :
    (halve k acc).1 + Nat.log 2 (halve k acc).2.toNat = acc.1 + Nat.log 2 acc.2.toNat := by
  rw [halve]
  split
  · rename_i hne
    have hle := (ushiftRight_ne_zero_iff acc.2 k).mp hne
    have hlog : k ≤ Nat.log 2 acc.2.toNat := Nat.le_log_of_pow_le (by decide) hle
    rw [BitVec.toNat_ushiftRight, Nat.shiftRight_eq_div_pow, log_two_div_pow]
    omega
  · rfl

theorem halve_lt {k : ℕ} {acc : ℕ × Unsigned} (h : acc.2.toNat < 2 ^ (k + k)) :
    (halve k acc).2.toNat < 2 ^ k := by
  rw [halve]
  split
  · rw [BitVec.toNat_ushiftRight, Nat.shiftRight_eq_div_pow]
    rw [Nat.pow_add] at h
    exact Nat.div_lt_of_lt_mul h
  · rename_i hzero
    rw [ushiftRight_ne_zero_iff, Nat.not_le] at hzero
    exact hzero

/-- The number of the last step, which does not shift. -/
theorem log_of_lt_four {i : Unsigned} (h : i.toNat < 2 ^ 2) :
    (if i >>> 1 ≠ 0 then 1 else 0) = Nat.log 2 i.toNat := by
  rw [ite_congr (propext (ushiftRight_ne_zero_iff i 1)) (fun _ => rfl) fun _ => rfl]
  generalize i.toNat = n at h ⊢
  have hcases : n = 0 ∨ n = 1 ∨ n = 2 ∨ n = 3 := by omega
  rcases hcases with rfl | rfl | rfl | rfl <;> decide

/-- 1 if the number is no power of two. -/
def roundsUp (i : Unsigned) : ℕ := if i &&& (i - 1) ≠ 0 then 1 else 0

theorem fastLog2_eq (i : Unsigned) : fastLog2 i = roundsUp i + Nat.log 2 i.toNat := by
  let acc := halve 2 (halve 4 (halve 8 (halve 16 (roundsUp i, i))))
  have hfast : fastLog2 i = if acc.2 >>> 1 ≠ 0 then acc.1 + 1 else acc.1 := rfl
  have hlog : acc.1 + Nat.log 2 acc.2.toNat = roundsUp i + Nat.log 2 i.toNat := by
    rw [log_halve, log_halve, log_halve, log_halve]
  have hlt : acc.2.toNat < 2 ^ 2 := halve_lt (halve_lt (halve_lt (halve_lt i.isLt)))
  rw [hfast, ← hlog, ← log_of_lt_four hlt]
  split <;> rfl

theorem roundsUp_eq_zero_iff (h : i.toNat ≠ 0) :
    roundsUp i = 0 ↔ i.toNat.isPowerOfTwo := by
  have hone : (i - 1).toNat = i.toNat - 1 := by
    have hle : (1 : Unsigned) ≤ i := by
      exact Nat.one_le_iff_ne_zero.mpr h
    exact BitVec.toNat_sub_of_le hle
  have hand : i &&& (i - 1) = 0 ↔ i.toNat &&& (i.toNat - 1) = 0 := by
    rw [← BitVec.toNat_inj, BitVec.toNat_and, hone]
    rfl
  rw [← Nat.and_sub_one_eq_zero_iff_isPowerOfTwo h, ← hand, roundsUp]
  split
  · rename_i hne
    exact iff_of_false (by decide) hne
  · rename_i heq
    exact iff_of_true rfl (not_not.mp heq)

theorem roundsUp_le_one (i : Unsigned) : roundsUp i ≤ 1 := by
  rw [roundsUp]
  split <;> decide

/-- The logarithm is monotone. -/
theorem fastLog2_mono (h : a ≤ b) : fastLog2 a ≤ fastLog2 b := by
  rw [BitVec.le_def] at h
  by_cases hzero : a.toNat = 0
  · obtain rfl : a = 0 := BitVec.toNat_inj.mp hzero
    exact Nat.zero_le _
  have hlog := Nat.log_mono_right (b := 2) h
  have hle := roundsUp_le_one a
  rw [fastLog2_eq, fastLog2_eq]
  rcases hlog.lt_or_eq with hlt | heq
  · omega
  · have hb : b.toNat ≠ 0 := Nat.ne_of_gt (Nat.lt_of_lt_of_le (Nat.pos_of_ne_zero hzero) h)
    have hrounds : roundsUp b = 0 → roundsUp a = 0 := by
      rw [roundsUp_eq_zero_iff hzero, roundsUp_eq_zero_iff hb]
      rintro ⟨k, hk⟩
      -- between the powers of two there is only the lower one
      have hlower := Nat.pow_log_le_self 2 hzero
      rw [heq, hk, Nat.log_pow (by decide)] at hlower
      exact ⟨k, Nat.le_antisymm (h.trans_eq hk) hlower⟩
    omega

end Loader
end WebKit
