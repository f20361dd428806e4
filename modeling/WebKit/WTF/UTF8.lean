import WebKit.WTF.StringBuilder

/-!
# UTF-8 and UTF-16

The two conversions of `WTF::Unicode` that `String::fromUTF8` and `String::utf8` use: the strict one
from UTF-8, which fails on an illegal sequence, and the lenient one to UTF-8, which writes an
unpaired surrogate like any other code unit.
-/

namespace WebKit
namespace WTF

/-- The UTF-16 code units of a `WTF::String`. -/
abbrev UString := List UInt16

namespace Unicode

/-! ## From UTF-8 -/

def inlineUTF8SequenceLengthNonASCII (b0 : UInt8) : ℕ :=
  if b0 &&& 0xC0 ≠ 0xC0 then 0
  else if b0 &&& 0xE0 = 0xC0 then 2
  else if b0 &&& 0xF0 = 0xE0 then 3
  else if b0 &&& 0xF8 = 0xF0 then 4
  else 0

def inlineUTF8SequenceLength (b0 : UInt8) : ℕ :=
  if b0 < 0x80 then 1 else inlineUTF8SequenceLengthNonASCII b0

/-- The test of the bytes after the second. -/
def isTrailing (a : UInt8) : Bool := 0x80 ≤ a && a ≤ 0xBF

/-- The test of the second byte, which depends on the first. -/
def isLegalSecond (source a : UInt8) : Bool :=
  a ≤ 0xBF && (if source = 0xE0 then 0xA0 ≤ a
    else if source = 0xED then a ≤ 0x9F
    else if source = 0xF0 then 0x90 ≤ a
    else if source = 0xF4 then a ≤ 0x8F
    else 0x80 ≤ a)

/-- The test of the first byte. -/
def isLegalFirst (source : UInt8) : Bool :=
  !(0x80 ≤ source && source < 0xC2) && source ≤ 0xF4

/-- `isLegalUTF8` on the bytes of one sequence. -/
def isLegalUTF8 : List UInt8 → Bool
  | [b0] => isLegalFirst b0
  | [b0, b1] => isLegalSecond b0 b1 && isLegalFirst b0
  | [b0, b1, b2] => isTrailing b2 && isLegalSecond b0 b1 && isLegalFirst b0
  | [b0, b1, b2, b3] => isTrailing b3 && isTrailing b2 && isLegalSecond b0 b1 && isLegalFirst b0
  | _ => false

/-- The magic values subtracted by `readUTF8Sequence`, for each length. -/
def offsetsFromUTF8 : ℕ → ℕ
  | 2 => 0x3080
  | 3 => 0xE2080
  | 4 => 0x3C82080
  | _ => 0

def readUTF8Sequence (sequence : List UInt8) : ℕ :=
  sequence.foldl (fun character b => character * 64 + b.toNat) 0 - offsetsFromUTF8 sequence.length

/-- `U16_LEAD` and `U16_TRAIL`, or the one code unit of a character of the basic plane. -/
def appendCharacter (character : ℕ) : Option UString :=
  if character ≤ 0xFFFF then
    if 0xD800 ≤ character ∧ character ≤ 0xDFFF then none else some [character.toUInt16]
  else if character ≤ 0x10FFFF then
    some [(character / 0x400 + 0xD7C0).toUInt16, (character % 0x400 + 0xDC00).toUInt16]
  else none

/-- The code units of one sequence, if it is legal. -/
def convertSequence (sequence : List UInt8) : Option UString :=
  if isLegalUTF8 sequence then appendCharacter (readUTF8Sequence sequence) else none

/-- The strict conversion.  The target is as long as the source, which is always enough. -/
def convertUTF8ToUTF16 : List UInt8 → Option UString
  | [] => some []
  | b0 :: source =>
    match inlineUTF8SequenceLength b0, source with
    | 1, source => do
      let units ← convertSequence [b0]
      let rest ← convertUTF8ToUTF16 source
      pure (units ++ rest)
    | 2, b1 :: source => do
      let units ← convertSequence [b0, b1]
      let rest ← convertUTF8ToUTF16 source
      pure (units ++ rest)
    | 3, b1 :: b2 :: source => do
      let units ← convertSequence [b0, b1, b2]
      let rest ← convertUTF8ToUTF16 source
      pure (units ++ rest)
    | 4, b1 :: b2 :: b3 :: source => do
      let units ← convertSequence [b0, b1, b2, b3]
      let rest ← convertUTF8ToUTF16 source
      pure (units ++ rest)
    -- an illegal first byte, or too few bytes left
    | _, _ => none

/-! ## To UTF-8 -/

/-- A byte with six bits of the character. -/
def trailingByte (ch : ℕ) : UInt8 := ((ch ||| 0x80) &&& 0xBF).toUInt8

/-- The bytes of one character. -/
def writeCharacter (ch : ℕ) : List UInt8 :=
  if ch < 0x80 then [ch.toUInt8]
  else if ch < 0x800 then [(ch >>> 6 ||| 0xC0).toUInt8, trailingByte ch]
  else if ch < 0x10000 then
    [(ch >>> 12 ||| 0xE0).toUInt8, trailingByte (ch >>> 6), trailingByte ch]
  else
    [(ch >>> 18 ||| 0xF0).toUInt8, trailingByte (ch >>> 12), trailingByte (ch >>> 6),
      trailingByte ch]

def isHighSurrogate (ch : UInt16) : Bool := 0xD800 ≤ ch && ch ≤ 0xDBFF

def isLowSurrogate (ch : UInt16) : Bool := 0xDC00 ≤ ch && ch ≤ 0xDFFF

/-- The lenient conversion, with the last high surrogate that `String::utf8` adds. -/
def convertUTF16ToUTF8 : UString → List UInt8
  | [] => []
  | [ch] => writeCharacter ch.toNat
  | ch :: ch2 :: source =>
    if isHighSurrogate ch && isLowSurrogate ch2 then
      writeCharacter ((ch.toNat - 0xD800) * 0x400 + (ch2.toNat - 0xDC00) + 0x10000) ++
        convertUTF16ToUTF8 source
    else writeCharacter ch.toNat ++ convertUTF16ToUTF8 (ch2 :: source)

end Unicode

/-- `numeric_limits<unsigned>::max()`. -/
def unsignedMax : ℕ := 2 ^ 32 - 1

/-- `String::fromUTF8`: the null string for bytes that are not legal, and a CRASH for more bytes than a
string can have code units. -/
def fromUTF8 (bytes : List UInt8) : Option (Option UString) :=
  if bytes.length ≤ StringImpl.maxLength false then some (Unicode.convertUTF8ToUTF16 bytes) else none

/-- `String::utf8`; a string too long to convert becomes a null `CString`, of length 0. -/
def utf8 (string : UString) : List UInt8 :=
  if unsignedMax / 3 < string.length then [] else Unicode.convertUTF16ToUTF8 string

example : fromUTF8 [0xC3, 0xA9, 0xF0, 0x9F, 0x98, 0x80] = some (some [0xE9, 0xD83D, 0xDE00]) := by
  decide

example : utf8 [0xE9, 0xD83D, 0xDE00] = [0xC3, 0xA9, 0xF0, 0x9F, 0x98, 0x80] := by decide

end WTF
end WebKit
