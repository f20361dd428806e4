import Mathlib.Data.BitVec
import Mathlib.Data.Nat.Bitwise
import Mathlib.Tactic.Ring
import Mathlib.Tactic.Linarith

/-!
# Little-endian byte strings

The number a byte string spells with its lowest byte first, the `k` lowest bytes of a number,
and the round trips between the two.  Reading a number with shifts and bitwise *or* is reading it
with powers and sums, because the bits already read lie below the shift: `or_shiftLeft`.
-/

namespace WebKit
namespace LittleEndian

/-- Bits placed above everything read so far are added. -/
theorem or_shiftLeft (h : acc < 2 ^ shift) (x : ℕ) :
    acc ||| (x <<< shift) = acc + x * 2 ^ shift := by
  rw [Nat.or_comm, ← Nat.shiftLeft_add_eq_or_of_lt h, Nat.shiftLeft_eq, Nat.add_comm]

/-- The number a byte string spells, lowest byte first. -/
def value : List UInt8 → ℕ
  | [] => 0
  | c :: cs => c.toNat + 256 * value cs

/-- The `k` lowest bytes of a number, lowest byte first. -/
def bytes : ℕ → ℕ → List UInt8
  | 0, _ => []
  | k + 1, n => UInt8.ofNat n :: bytes k (n / 256)

@[simp] theorem value_nil : value [] = 0 := rfl

@[simp] theorem value_cons (c : UInt8) (cs : List UInt8) :
    value (c :: cs) = c.toNat + 256 * value cs := rfl

@[simp] theorem length_bytes (k n : ℕ) : (bytes k n).length = k := by
  induction k generalizing n with
  | zero => rfl
  | succ k ih => rw [bytes, List.length_cons, ih]

/-- The `k` lowest bytes spell the number modulo `256 ^ k`. -/
theorem value_bytes (k n : ℕ) : value (bytes k n) = n % 256 ^ k := by
  induction k generalizing n with
  | zero => rw [bytes, value_nil, Nat.pow_zero, Nat.mod_one]
  | succ k ih =>
    have hbyte : (UInt8.ofNat n).toNat = n % 256 := UInt8.toNat_ofNat'
    rw [bytes, value_cons, ih, hbyte, Nat.pow_succ', Nat.mod_mul (x := n)]

theorem value_bytes_of_lt (h : n < 256 ^ k) : value (bytes k n) = n := by
  rw [value_bytes, Nat.mod_eq_of_lt h]

/-- A word is read as it was written. -/
theorem ofNat_value_bytes (n : BitVec w) (hw : 2 ^ w = 256 ^ k) :
    BitVec.ofNat w (value (bytes k n.toNat)) = n := by
  rw [value_bytes_of_lt (hw ▸ n.isLt), BitVec.ofNat_toNat, BitVec.setWidth_eq]

end LittleEndian
end WebKit
