import Mathlib.Data.UInt

/-!
# ASCII character types

The tests of `wtf/ASCIICType.h` on UTF-16 code units.  On a string of Latin-1 characters they are
the tests on its bytes.
-/

namespace WebKit.WTF

/-- A UTF-16 code unit. -/
abbrev UChar := UInt16

/-- A character constant of the source. -/
def ch (c : Char) : UChar := UInt16.ofNat c.toNat

variable (c : UChar)

def isASCIIAlpha : Bool := decide (ch 'a' ≤ c ||| 0x20) && decide (c ||| 0x20 ≤ ch 'z')

def isASCIIDigit : Bool := decide (ch '0' ≤ c) && decide (c ≤ ch '9')

def isASCIIAlphanumeric : Bool := isASCIIDigit c || isASCIIAlpha c

def isASCIIHexDigit : Bool :=
  isASCIIDigit c || (decide (ch 'a' ≤ c ||| 0x20) && decide (c ||| 0x20 ≤ ch 'f'))

def toASCIIHexValue : ℕ :=
  if c < ch 'A' then c.toNat - (ch '0').toNat else (c.toNat - (ch 'A').toNat + 10) &&& 0xF

def isASCIIUpper : Bool := decide (ch 'A' ≤ c) && decide (c ≤ ch 'Z')

def toASCIILower : UChar := if isASCIIUpper c then c ||| 0x20 else c

def isASCIISpace : Bool :=
  decide (c ≤ ch ' ') && (c == ch ' ' || decide (c ≤ 0xD) && decide (0x9 ≤ c))

/-- A test of each character of a list runs through the list, not through all characters. -/
theorem forall_mem_of_all [DecidablePred p] {text : List UChar}
    (h : text.all fun c => decide (p c)) : ∀ c ∈ text, p c := by
  simpa using h

/-- What holds of each ASCII character holds of a character below 0x80. -/
theorem of_ascii {c : UChar} {p : UChar → Prop} (h : ∀ n : Fin 0x80, p (UInt16.ofNat n))
    (hc : c.toNat < 0x80) : p c := by
  have hp := h ⟨c.toNat, hc⟩
  rwa [UInt16.ofNat_toNat] at hp

theorem lt_of_isASCIIAlphanumeric {c : UChar} (h : isASCIIAlphanumeric c = true) :
    c.toNat < 0x80 := by
  rw [isASCIIAlphanumeric, isASCIIDigit, isASCIIAlpha, Bool.or_eq_true, Bool.and_eq_true,
    Bool.and_eq_true] at h
  rcases h with ⟨-, h⟩ | ⟨-, h⟩
  · exact Nat.lt_of_le_of_lt (UInt16.le_iff_toNat_le.mp (of_decide_eq_true h)) (by decide)
  · have hle := UInt16.le_iff_toNat_le.mp (of_decide_eq_true h)
    exact Nat.lt_of_le_of_lt (Nat.left_le_or.trans hle) (by decide)

end WebKit.WTF
