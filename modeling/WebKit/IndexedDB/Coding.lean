import WebKit.Library.LittleEndian
import WebKit.WTF.StringBuilder

/-!
# Scalars and strings of the LevelDB key format

`IDBLevelDBCoding.cpp` writes keys and values as byte strings.  This file has its scalar layer:
fixed integers (`encodeInt`), variable-length integers (`encodeVarInt`), UTF-16 strings and
doubles, each with its decoder and the round trip.

A pair of pointers `p`, `limit` into a buffer is the list of the bytes between them, so that
reading advances to a suffix of the list and a null pointer is `none`.  An `int64_t` that the code
asserts to be non-negative is a natural number; one that a decoder computes is an integer, the
two's complement value of the bits it read.
-/

namespace WebKit

open List LittleEndian Nat WTF
namespace IndexedDB

/-- A `Vector<char>`, or the bytes between two pointers. -/
abbrev Bytes := List UInt8

/-- The UTF-16 code units of a `WTF::String`. -/
abbrev UString := List UInt16

def kIDBKeyNullTypeByte : UInt8 := 0
def kIDBKeyStringTypeByte : UInt8 := 1
def kIDBKeyDateTypeByte : UInt8 := 2
def kIDBKeyNumberTypeByte : UInt8 := 3
def kIDBKeyArrayTypeByte : UInt8 := 4
def kIDBKeyMinKeyTypeByte : UInt8 := 5

/-- `INT64_MAX`. -/
def INT64_MAX : ℕ := 2 ^ 63 - 1

/-- The `int64_t` whose bits are the low 64 bits of a number. -/
def toInt64 (n : ℕ) : ℤ := Int.bmod n (2 ^ 64)

/-- The conversion of an `int64_t` to `int`: its low 32 bits. -/
def toInt32 (n : ℤ) : ℤ := Int.bmod n (2 ^ 32)

theorem toInt64_of_lt (h : n < 2 ^ 63) : toInt64 n = n := by
  unfold toInt64
  rw [Int.bmod_eq_of_le] <;> omega

/-! ## Bytes and fixed integers -/

def encodeByte (c : UInt8) : Bytes := [c]

/-- The greatest encoded key. -/
def maxIDBKey : Bytes := encodeByte kIDBKeyNullTypeByte

/-- The least encoded key. -/
def minIDBKey : Bytes := encodeByte kIDBKeyMinKeyTypeByte

/-- The loop of `encodeInt`; an `int64_t` has eight bytes. -/
def encodeIntLoop : ℕ → ℕ → Bytes
  | 0, _ => []
  | fuel + 1, n => UInt8.ofNat n :: if n >>> 8 = 0 then [] else encodeIntLoop fuel (n >>> 8)

def encodeInt (n : ℕ) : Bytes := encodeIntLoop 8 n

def decodeIntLoop : Bytes → ℕ → ℕ → ℕ
  | [], _, ret => ret
  | c :: p, shift, ret => decodeIntLoop p (shift + 8) (ret ||| (c.toNat <<< shift))

def decodeInt (p : Bytes) : ℤ := toInt64 (decodeIntLoop p 0 0)

def compareInts (a b : ℤ) : ℤ :=
  let diff := a - b
  if diff < 0 then -1 else if diff > 0 then 1 else 0

theorem decodeIntLoop_eq (p : Bytes) (h : ret < 2 ^ shift) :
    decodeIntLoop p shift ret = ret + LittleEndian.value p * 2 ^ shift := by
  induction p generalizing shift ret with
  | nil => simp [decodeIntLoop]
  | cons c p ih =>
    have hc := c.toNat_lt
    have hpow : 2 ^ (shift + 8) = 2 ^ shift * 256 := by rw [Nat.pow_add]
    have hret : ret + c.toNat * 2 ^ shift < 2 ^ (shift + 8) := by
      rw [hpow]
      calc ret + c.toNat * 2 ^ shift < 2 ^ shift + c.toNat * 2 ^ shift := by omega
        _ = 2 ^ shift * (c.toNat + 1) := by ring
        _ ≤ 2 ^ shift * 256 := mul_le_mul_left _ (by omega)
    rw [decodeIntLoop, or_shiftLeft h, ih hret, value_cons]
    ring

theorem decodeIntLoop_zero (p : Bytes) : decodeIntLoop p 0 0 = LittleEndian.value p := by
  rw [decodeIntLoop_eq p (by simp)]
  simp

theorem value_encodeIntLoop (fuel n : ℕ) (h : n < 256 ^ fuel) :
    LittleEndian.value (encodeIntLoop fuel n) = n := by
  induction fuel generalizing n with
  | zero =>
    rw [encodeIntLoop, value_nil]
    omega
  | succ fuel ih =>
    rw [encodeIntLoop, value_cons, UInt8.toNat_ofNat', shiftRight_eq_div_pow]
    by_cases hn : n / 2 ^ 8 = 0
    · rw [if_pos hn, value_nil]
      omega
    · rw [if_neg hn, ih _ (by rw [pow_succ] at h; omega)]
      omega

theorem length_encodeIntLoop_pos (fuel n : ℕ) : 0 < (encodeIntLoop (fuel + 1) n).length := by
  rw [encodeIntLoop, length_cons]
  omega

theorem length_encodeIntLoop_le (fuel k n : ℕ) (h : n < 256 ^ (k + 1)) :
    (encodeIntLoop fuel n).length ≤ k + 1 := by
  induction fuel generalizing k n with
  | zero => simp [encodeIntLoop]
  | succ fuel ih =>
    rw [encodeIntLoop, shiftRight_eq_div_pow, length_cons]
    by_cases hn : n / 2 ^ 8 = 0
    · rw [if_pos hn, length_nil]
      omega
    · rw [if_neg hn]
      -- a number with a second byte needs at least two of them, so `k` is not zero
      cases k with
      | zero =>
        omega
      | succ k =>
        have := ih k (n / 2 ^ 8) (by rw [pow_succ] at h; omega)
        omega

theorem length_encodeInt_pos (n : ℕ) : 0 < (encodeInt n).length :=
  length_encodeIntLoop_pos 7 n

theorem length_encodeInt_le (h : n < 256 ^ (k + 1)) : (encodeInt n).length ≤ k + 1 :=
  length_encodeIntLoop_le 8 k n h

/-- `decodeInt` reads back what `encodeInt` wrote. -/
theorem decodeInt_encodeInt (h : n < 2 ^ 63) : decodeInt (encodeInt n) = n := by
  rw [decodeInt, decodeIntLoop_zero, encodeInt, value_encodeIntLoop 8 n (by omega), toInt64_of_lt h]

/-! ## Variable-length integers -/

/-- The loop of `encodeVarInt`; an `int64_t` has at most ten groups of seven bits. -/
def encodeVarIntLoop : ℕ → ℕ → Bytes
  | 0, _ => []
  | fuel + 1, n =>
    let c := UInt8.ofNat (n &&& 0x7f)
    if n >>> 7 = 0 then [c] else (c ||| 0x80) :: encodeVarIntLoop fuel (n >>> 7)

def encodeVarInt (n : ℕ) : Bytes := encodeVarIntLoop 10 n

def decodeVarIntLoop : Bytes → ℕ → ℕ → Option (ℤ × Bytes)
  | [], _, _ => none
  | c :: p, shift, foundInt =>
    let foundInt := foundInt ||| ((c &&& 0x7f).toNat <<< shift)
    if c &&& 0x80 = 0 then some (toInt64 foundInt, p)
    else decodeVarIntLoop p (shift + 7) foundInt

/-- The integer and the pointer past it; `none` is the null pointer of a truncated integer. -/
def decodeVarInt (p : Bytes) : Option (ℤ × Bytes) := decodeVarIntLoop p 0 0

theorem varIntGroup_low : ∀ g : Fin 128,
    (UInt8.ofNat g &&& 0x7f).toNat = g ∧ UInt8.ofNat g &&& 0x80 = 0 := by
  decide +kernel

theorem varIntGroup_high : ∀ g : Fin 128,
    ((UInt8.ofNat g ||| 0x80) &&& 0x7f).toNat = g ∧ (UInt8.ofNat g ||| 0x80) &&& 0x80 ≠ 0 := by
  decide +kernel

theorem decodeVarIntLoop_encodeVarIntLoop (fuel n : ℕ) (r : Bytes) (shift acc : ℕ)
    (hn : n < 128 ^ fuel) (h0 : 0 < fuel) (hacc : acc < 2 ^ shift) :
    decodeVarIntLoop (encodeVarIntLoop fuel n ++ r) shift acc =
      some (toInt64 (acc + n * 2 ^ shift), r) := by
  induction fuel generalizing n shift acc with
  | zero => omega
  | succ fuel ih =>
    have hand : n &&& 0x7f = n % 128 := and_two_pow_sub_one_eq_mod n 7
    have hg : n % 128 < 128 := mod_lt _ (by omega)
    have hpow : 2 ^ (shift + 7) = 2 ^ shift * 128 := by rw [Nat.pow_add]
    rw [encodeVarIntLoop, hand, shiftRight_eq_div_pow]
    by_cases hlast : n / 2 ^ 7 = 0
    · obtain ⟨hlow, hbit⟩ := varIntGroup_low ⟨n % 128, hg⟩
      have hn' : n % 128 = n := mod_eq_of_lt (by omega)
      simp only [hlast, if_true, cons_append, nil_append, decodeVarIntLoop]
      rw [if_pos hbit, hlow, or_shiftLeft hacc]
      simp only [hn']
    · obtain ⟨hlow, hbit⟩ := varIntGroup_high ⟨n % 128, hg⟩
      have hfuel : 0 < fuel := by
        rcases fuel with _ | fuel
        · omega
        · omega
      have hacc' : acc + n % 128 * 2 ^ shift < 2 ^ (shift + 7) := by
        rw [hpow]
        calc acc + n % 128 * 2 ^ shift < 2 ^ shift + n % 128 * 2 ^ shift := by omega
          _ = 2 ^ shift * (n % 128 + 1) := by ring
          _ ≤ 2 ^ shift * 128 := mul_le_mul_left _ (by omega)
      simp only [hlast, if_false, cons_append, decodeVarIntLoop]
      rw [if_neg hbit, hlow, or_shiftLeft hacc,
        ih (n / 2 ^ 7) _ _ (by rw [pow_succ] at hn; omega) hfuel hacc']
      -- the groups read so far and the rest of the number add up to the number
      have hsum : acc + n % 128 * 2 ^ shift + n / 2 ^ 7 * 2 ^ (shift + 7) =
          acc + n * 2 ^ shift := by
        have hdiv : n = n % 128 + n / 2 ^ 7 * 128 := by omega
        calc acc + n % 128 * 2 ^ shift + n / 2 ^ 7 * 2 ^ (shift + 7)
            = acc + (n % 128 + n / 2 ^ 7 * 128) * 2 ^ shift := by rw [hpow]; ring
          _ = acc + n * 2 ^ shift := by rw [← hdiv]
      rw [hsum]

/-- `decodeVarInt` reads back what `encodeVarInt` wrote, whatever follows it. -/
theorem decodeVarInt_encodeVarInt (h : n < 2 ^ 63) (r : Bytes) :
    decodeVarInt (encodeVarInt n ++ r) = some ((n : ℤ), r) := by
  have hloop := decodeVarIntLoop_encodeVarIntLoop 10 n r 0 0 (by omega) (by omega) (by simp)
  rw [decodeVarInt, encodeVarInt, hloop]
  simp only [pow_zero, mul_one, zero_add, toInt64_of_lt h]

/-! ## Strings -/

def encodeString (s : UString) : Bytes :=
  s.flatMap fun u => [UInt8.ofNat (u.toNat >>> 8), UInt8.ofNat u.toNat]

/-- Two bytes a code unit; a last odd byte is left unread. -/
def decodeUnits : Bytes → UString
  | hi :: lo :: p => UInt16.ofNat ((hi.toNat <<< 8) ||| lo.toNat) :: decodeUnits p
  | _ => []

/-- The units are appended one by one to a builder with room for so many 8-bit characters.  None
stands for a CRASH of the builder. -/
def decodeString (p : Bytes) : Option UString :=
  let len := p.length / 2
  ((StringBuilder.empty.reserveCapacity (len % 2 ^ 32)).bind (StringBuilder.appendEach len)).map
    fun _ => decodeUnits p

def encodeStringWithLength (s : UString) : Bytes := encodeVarInt s.length ++ encodeString s

/-- A negative length is excluded by the assertions of `decodeString`. -/
def decodeStringWithLength (p : Bytes) : Option (UString × Bytes) :=
  match decodeVarInt p with
  | none => none
  | some (len, p) =>
    if len < 0 ∨ (p.length : ℤ) < 2 * len then none
    else (decodeString (p.take (2 * len.toNat))).map fun s => (s, p.drop (2 * len.toNat))

@[simp] theorem encodeString_cons (u : UInt16) (s : UString) : encodeString (u :: s) =
      UInt8.ofNat (u.toNat >>> 8) :: UInt8.ofNat u.toNat :: encodeString s := rfl

@[simp] theorem length_encodeString (s : UString) : (encodeString s).length = 2 * s.length := by
  induction s with
  | nil => rfl
  | cons u s ih =>
    rw [encodeString_cons, length_cons, length_cons, length_cons]
    omega

theorem decodeUnits_encodeString (s : UString) : decodeUnits (encodeString s) = s := by
  induction s with
  | nil => rfl
  | cons u s ih =>
    have hu : u.toNat < 65536 := u.toNat_lt
    rw [encodeString_cons, decodeUnits]
    congr 1
    apply UInt16.toNat_inj.mp
    rw [UInt16.toNat_ofNat', UInt8.toNat_ofNat', UInt8.toNat_ofNat', ← shiftLeft_add_eq_or_of_lt (mod_lt _ (by omega))]
    omega

/-- A string comes back unless it is longer than `2 ^ 30`. -/
theorem decodeString_encodeString (s : UString) :
    decodeString (encodeString s) = if s.length ≤ 2 ^ 30 then some s else none := by
  have hlength : (encodeString s).length / 2 = s.length := by
    rw [length_encodeString]
    omega
  have hbuilder := StringBuilder.appendEach_reserved_isSome_iff s.length
  rw [decodeString, hlength, decodeUnits_encodeString]
  generalize (StringBuilder.empty.reserveCapacity (s.length % 2 ^ 32)).bind
    (StringBuilder.appendEach s.length) = built at hbuilder
  cases built with
  | none => exact (if_neg fun hshort => Bool.false_ne_true (hbuilder.mpr hshort)).symm
  | some builder => exact (if_pos (hbuilder.mp rfl)).symm

theorem length_decodeUnits (p : Bytes) : (decodeUnits p).length = p.length / 2 := by
  induction p using decodeUnits.induct with
  | case1 hi lo p ih =>
    rw [decodeUnits, length_cons, ih, length_cons, length_cons]
    omega
  | case2 p h =>
    match p, h with
    | [], _ => rfl
    | [c], _ => exact (Nat.div_eq_of_lt (Nat.lt_succ_self 1)).symm
    | hi :: lo :: p, h => exact absurd rfl (h hi lo p)

/-- What is decoded is not longer. -/
theorem length_decodeString (h : decodeString p = some s) : s.length ≤ 2 ^ 30 := by
  obtain ⟨builder, hbuilder, rfl⟩ := Option.map_eq_some_iff.mp h
  rw [length_decodeUnits]
  exact (StringBuilder.appendEach_reserved_isSome_iff _).mp (hbuilder ▸ rfl)

theorem decodeStringWithLength_encodeStringWithLength (h : s.length < 2 ^ 32) (r : Bytes) :
    decodeStringWithLength (encodeStringWithLength s ++ r) =
      if s.length ≤ 2 ^ 30 then some (s, r) else none := by
  have hlen : 2 * s.length = (encodeString s).length := (length_encodeString s).symm
  rw [decodeStringWithLength, encodeStringWithLength, append_assoc,
    decodeVarInt_encodeVarInt (by omega)]
  simp only [length_append, Int.toNat_natCast]
  rw [if_neg (by omega), hlen, take_left, drop_left, decodeString_encodeString]
  split <;> rfl

theorem decodeStringWithLength_of_le (h : s.length ≤ 2 ^ 30) (r : Bytes) :
    decodeStringWithLength (encodeStringWithLength s ++ r) = some (s, r) := by
  rw [decodeStringWithLength_encodeStringWithLength (by omega), if_pos h]

/-! ## Doubles -/

/-- An IEEE 754 double by its bit pattern. -/
structure Double where
  bits : UInt64
  deriving DecidableEq

namespace Double

variable (d : Double)

def negative : Bool := 2 ^ 63 ≤ d.bits.toNat

def exponent : ℕ := d.bits.toNat / 2 ^ 52 % 2 ^ 11

def fraction : ℕ := d.bits.toNat % 2 ^ 52

def isNaN : Bool := d.exponent = 2047 ∧ d.fraction ≠ 0

/-- The absolute value in units of `2 ^ (-1074)`, the least positive double.  Exponent `2047`
continues the scale, so that an infinity lies above every finite double. -/
def magnitude : ℕ :=
  if d.exponent = 0 then d.fraction else (2 ^ 52 + d.fraction) * 2 ^ (d.exponent - 1)

/-- The value in units of `2 ^ (-1074)`; both zeros have value `0`. -/
def value : ℤ := if d.negative then -(d.magnitude : ℤ) else d.magnitude

/-- The `<` of C++: false whenever an operand is not a number. -/
def lt (e : Double) : Bool := !d.isNaN && !e.isNaN && d.value < e.value

end Double

/-- The eight bytes of a double in memory, on a little-endian machine. -/
def encodeDouble (x : Double) : Bytes := bytes 8 x.bits.toNat

def decodeDouble (p : Bytes) : Option (Double × Bytes) :=
  if p.length < 8 then none
  else some (⟨UInt64.ofNat (LittleEndian.value (p.take 8))⟩, p.drop 8)

@[simp] theorem length_encodeDouble (x : Double) : (encodeDouble x).length = 8 :=
  length_bytes 8 _

theorem decodeDouble_encodeDouble (x : Double) (r : Bytes) :
    decodeDouble (encodeDouble x ++ r) = some (x, r) := by
  have hlen : (encodeDouble x).length = 8 := length_encodeDouble x
  have hval : LittleEndian.value (encodeDouble x) = x.bits.toNat :=
    value_bytes_of_lt (by have := x.bits.toNat_lt; omega)
  rw [decodeDouble, if_neg (by rw [length_append]; omega), ← hlen, take_left,
    drop_left, hval, UInt64.ofNat_toNat]

end IndexedDB
end WebKit
