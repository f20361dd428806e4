import Mathlib.Data.UInt

/-!
# StringBuilder

`WTF::StringBuilder` by the lengths of what it holds, with the limits of `StringImpl`.  A buffer grows
by doubling.  The reservation of `reserveCapacity` is an 8-bit buffer, which the first 16-bit
character replaces by one of exactly the length that is needed.

* `append`: so many characters; none stands for the CRASH where the buffer would be too long.
* `appendEach_isSome_iff`: how many characters fit that are appended one by one.
* `append_of_le`: a length that fits however it is reached.
-/

namespace WebKit.WTF

/-- `(std::numeric_limits<unsigned>::max() - sizeof(StringImpl)) / sizeof(CharType)`: a `StringImpl` has
32 bytes. -/
def StringImpl.maxLength (is8Bit : Bool) : ℕ := (2 ^ 32 - 1 - 32) / if is8Bit then 1 else 2

/-- `m_length`, the length of `m_buffer` and `m_is8Bit`. -/
structure StringBuilder where
  length : ℕ
  buffer : Option ℕ
  is8Bit : Bool

namespace StringBuilder

def empty : StringBuilder := ⟨0, none, true⟩

variable (builder : StringBuilder)

/-- `allocateBuffer`, `allocateBufferUpConvert` and `reallocateBuffer`. -/
def allocateBuffer (is8Bit : Bool) (requiredLength : ℕ) : Option StringBuilder :=
  if requiredLength ≤ StringImpl.maxLength is8Bit then
    some { builder with buffer := some requiredLength, is8Bit := is8Bit }
  else none

def reserveCapacity (newCapacity : ℕ) : Option StringBuilder :=
  if builder.buffer.getD builder.length < newCapacity then
    builder.allocateBuffer builder.is8Bit newCapacity
  else some builder

/-- The length of a new buffer. -/
def grown (requiredLength : ℕ) : ℕ :=
  max requiredLength (max 16 (builder.buffer.getD builder.length * 2 % 2 ^ 32))

/-- The characters are 8-bit ones or 16-bit ones. -/
def append (is8Bit : Bool) (length : ℕ) : Option StringBuilder :=
  let requiredLength := length + builder.length
  let appended := { builder with length := requiredLength }
  if length = 0 then some builder
  else if 2 ^ 32 ≤ requiredLength then none
  else if builder.is8Bit && !is8Bit then
    appended.allocateBuffer false
      (if builder.buffer.isSome then requiredLength else builder.grown requiredLength)
  else if requiredLength ≤ builder.buffer.getD 0 then some appended
  else appended.allocateBuffer builder.is8Bit (builder.grown requiredLength)

/-- So many 16-bit characters, each appended for itself. -/
def appendEach : ℕ → StringBuilder → Option StringBuilder
  | 0, builder => some builder
  | count + 1, builder => (builder.append false 1).bind (appendEach count)

/-- A full buffer is doubled. -/
theorem appendEach_isSome_iff {length n : ℕ} (h : length ≤ 2 ^ n) (hlow : 4 ≤ n) (hhigh : n ≤ 30) :
    (appendEach count ⟨length, some (2 ^ n), false⟩).isSome = true ↔ length + count ≤ 2 ^ 30 := by
  induction count generalizing length n with
  | zero => exact iff_of_true rfl (h.trans (Nat.pow_le_pow_right (by decide) hhigh))
  | succ count ih =>
    have hbuffer : 2 ^ n ≤ 2 ^ 30 := Nat.pow_le_pow_right (by decide) hhigh
    have hmin : 2 ^ 4 ≤ 2 ^ n := Nat.pow_le_pow_right (by decide) hlow
    have hfew : ¬2 ^ 32 ≤ 1 + length := by omega
    rw [appendEach, append]
    dsimp only
    rw [if_neg Nat.one_ne_zero, if_neg hfew, Bool.false_and, if_neg Bool.false_ne_true,
      Option.getD_some]
    by_cases hfits : 1 + length ≤ 2 ^ n
    · rw [if_pos hfits, Option.bind_some, ih hfits hlow hhigh]
      omega
    · have hmod : 2 ^ n * 2 % 2 ^ 32 = 2 ^ n * 2 := Nat.mod_eq_of_lt (by omega)
      have hdouble : 16 ≤ 2 ^ n * 2 := by omega
      rw [if_neg hfits, allocateBuffer, grown, Option.getD_some, hmod, max_eq_right hdouble,
        max_eq_right (by omega), ← Nat.pow_succ]
      by_cases hlast : n = 30
      · subst hlast
        rw [if_neg (by decide)]
        exact iff_of_false Bool.false_ne_true (by omega)
      · have hnext : 2 ^ (n + 1) ≤ 2 ^ 30 := Nat.pow_le_pow_right (by decide) (by omega)
        have hroom : 2 ^ 30 ≤ StringImpl.maxLength false := by decide
        rw [if_pos (hnext.trans hroom), Option.bind_some]
        dsimp only
        rw [ih (by rw [Nat.pow_succ]; omega) (by omega) (by omega)]
        omega

/-- The reservation is lost, and so the limit of `StringImpl` is not reached. -/
theorem appendEach_reserved_isSome_iff (count : ℕ) :
    ((empty.reserveCapacity (count % 2 ^ 32)).bind (appendEach count)).isSome = true ↔
      count ≤ 2 ^ 30 := by
  cases count with
  | zero => exact iff_of_true rfl (Nat.zero_le _)
  | succ count =>
    have hsixteen : ∀ length count : ℕ, length ≤ 2 ^ 4 →
        ((appendEach count ⟨length, some (2 ^ 4), false⟩).isSome = true ↔ length + count ≤ 2 ^ 30) :=
      fun _ _ h => appendEach_isSome_iff h le_rfl (by decide)
    have hsmall : (appendEach count ⟨1, some 16, false⟩).isSome = true ↔ count + 1 ≤ 2 ^ 30 := by
      rw [Nat.add_comm]
      exact hsixteen 1 count (by decide)
    have hexact : (appendEach count ⟨1, some 1, false⟩).isSome = true ↔ count + 1 ≤ 2 ^ 30 := by
      cases count with
      | zero => exact iff_of_true rfl (by decide)
      | succ count =>
        rw [show count + 1 + 1 = 2 + count by omega]
        exact hsixteen 2 count (by decide)
    rw [reserveCapacity]
    change ((if 0 < (count + 1) % 2 ^ 32 then _ else _ : Option StringBuilder).bind _).isSome = true ↔ _
    by_cases hzero : 0 < (count + 1) % 2 ^ 32
    · rw [if_pos hzero, allocateBuffer]
      by_cases hfits : (count + 1) % 2 ^ 32 ≤ StringImpl.maxLength empty.is8Bit
      · rw [if_pos hfits]
        exact hexact
      · have hlimit : 2 ^ 30 ≤ StringImpl.maxLength empty.is8Bit := by decide
        rw [if_neg hfits]
        exact iff_of_false Bool.false_ne_true (by omega)
    · rw [if_neg hzero]
      exact hsmall

/-- A buffer that is too short for so few characters can be doubled. -/
theorem append_of_le (is8Bit : Bool) {length : ℕ} (h : builder.length + length ≤ 2 ^ 30 - 8) :
    ∃ appended, builder.append is8Bit length = some appended ∧
      appended.length = builder.length + length := by
  have hwide : StringImpl.maxLength false = 2 ^ 31 - 17 := by decide
  have hnarrow : StringImpl.maxLength true = 2 ^ 32 - 33 := by decide
  have hallocate : ∀ (b : StringBuilder) (is8Bit : Bool) (required : ℕ),
      required ≤ 2 ^ 31 - 17 → ∃ buffer, b.allocateBuffer is8Bit required =
        some { b with buffer := buffer, is8Bit := is8Bit } := by
    intro b is8Bit required hle
    have hmax : required ≤ StringImpl.maxLength is8Bit := by
      cases is8Bit <;> omega
    exact ⟨_, if_pos hmax⟩
  have hgrown : ∀ buffer, builder.buffer.getD builder.length = buffer →
      buffer < length + builder.length → builder.grown (length + builder.length) ≤ 2 ^ 31 - 17 := by
    intro buffer hbuffer hlt
    rw [grown, hbuffer]
    omega
  rw [append]
  split_ifs with hzero hwrap hconvert hsome hfits
  · exact ⟨builder, rfl, by rw [hzero, Nat.add_zero]⟩
  · omega
  · obtain ⟨buffer, heq⟩ := hallocate { builder with length := length + builder.length } false
      (length + builder.length) (by omega)
    exact ⟨_, heq, Nat.add_comm _ _⟩
  · have hnone : builder.buffer = none := Option.not_isSome_iff_eq_none.mp hsome
    obtain ⟨buffer, heq⟩ := hallocate { builder with length := length + builder.length } false
      (builder.grown (length + builder.length))
      (hgrown builder.length (by rw [hnone, Option.getD_none]) (by omega))
    exact ⟨_, heq, Nat.add_comm _ _⟩
  · exact ⟨_, rfl, Nat.add_comm _ _⟩
  · have hlt : builder.buffer.getD builder.length < length + builder.length := by
      cases hbuffer : builder.buffer with
      | none =>
        rw [Option.getD_none]
        omega
      | some buffer =>
        rw [hbuffer, Option.getD_some] at hfits
        exact Nat.not_le.mp hfits
    obtain ⟨buffer, heq⟩ := hallocate { builder with length := length + builder.length }
      builder.is8Bit (builder.grown (length + builder.length)) (hgrown _ rfl hlt)
    exact ⟨_, heq, Nat.add_comm _ _⟩

end StringBuilder

end WebKit.WTF
