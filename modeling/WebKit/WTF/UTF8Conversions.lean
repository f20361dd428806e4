import WebKit.Library.BoundedConversion
import WebKit.WTF.UTF8

/-!
# The conversions between UTF-8 and UTF-16

The two conversions with their buffers: a source of which a part may be left, and a target with some
room.  In strict mode, with room enough, the conversion to UTF-16 should succeed on the well-formed
texts only.  It also accepts the bytes `ED` and `F4` with a second byte below `80`, because the test
of the second byte has no lower bound there (`HasLowSecondByte`).

* `convertUTF8ToUTF16`, `convertUTF16ToUTF8`: the loops of the source.
* `WellFormedUTF8`: the bytes that encode Unicode scalar values.
* `converts_iff`: exactly when the conversion to UTF-16 does what it should; the conversion to UTF-8
  always does, and both stop between characters when the room ends.
-/

namespace WebKit

open List UInt8 Bool Nat
namespace WTF
namespace Unicode
namespace Conversion

inductive ConversionResult
  | conversionOK
  | sourceExhausted
  | targetExhausted
  | sourceIllegal
  deriving DecidableEq

open ConversionResult

/-! ## The loops -/

/-- A loop whose body is given a source that is not empty and the room in the target, over at most
the number of rounds given. -/
def conversionLoop {α β : Type} (body : List α → ℕ → Next α β ConversionResult) :
    ℕ → List α → ℕ → Converted α β ConversionResult
  | 0, source, _ => ⟨conversionOK, source, []⟩
  | _ + 1, [], _ => ⟨conversionOK, [], []⟩
  | fuel + 1, a :: source, room =>
    match body (a :: source) room with
    | .stop result => ⟨result, a :: source, []⟩
    | .emit rest units => (conversionLoop body fuel rest (room - units.length)).after units

def replacementCharacter : UInt16 := 0xFFFD

def isSurrogate (character : ℕ) : Bool := 0xD800 ≤ character && character ≤ 0xDFFF

/-- `U16_LEAD` and `U16_TRAIL`. -/
def surrogatePair (character : ℕ) : List UInt16 :=
  [(character / 0x400 + 0xD7C0).toUInt16, (character % 0x400 + 0xDC00).toUInt16]

/-- The body of the loop of `convertUTF8ToUTF16`. -/
def convertUTF8ToUTF16Body (strict : Bool) (source : List UInt8) (room : ℕ) :
    Next UInt8 UInt16 ConversionResult :=
  let utf8SequenceLength := inlineUTF8SequenceLength (source.headD 0)
  if source.length < utf8SequenceLength then .stop sourceExhausted
  else if isLegalUTF8 (source.take utf8SequenceLength) = false then .stop sourceIllegal
  else
    let character := readUTF8Sequence (source.take utf8SequenceLength)
    let rest := source.drop utf8SequenceLength
    if room = 0 then .stop targetExhausted
    else if character ≤ 0xFFFF then
      if isSurrogate character then
        if strict then .stop sourceIllegal else .emit rest [replacementCharacter]
      else .emit rest [character.toUInt16]
    else if character ≤ 0x10FFFF then
      if room < 2 then .stop targetExhausted else .emit rest (surrogatePair character)
    else if strict then .stop sourceIllegal
    else .emit rest [replacementCharacter]

def convertUTF8ToUTF16 (strict : Bool) (source : List UInt8) (room : ℕ) :
    Converted UInt8 UInt16 ConversionResult :=
  conversionLoop (convertUTF8ToUTF16Body strict) source.length source room

/-- The end of the body of the loop of `convertUTF16ToUTF8`, where the bytes are written. -/
def writeOrStop (ch : ℕ) (rest : List UInt16) (room : ℕ) : Next UInt16 UInt8 ConversionResult :=
  if room < (writeCharacter ch).length then .stop targetExhausted else .emit rest (writeCharacter ch)

variable (strict : Bool) (source : List UInt16) (room : ℕ)

/-- The body of the loop of `convertUTF16ToUTF8`.  A character is never above `0x10FFFF`. -/
def convertUTF16ToUTF8Body : Next UInt16 UInt8 ConversionResult :=
  match source with
  | [] => .stop conversionOK
  | ch :: rest =>
    if isHighSurrogate ch then
      match rest with
      | [] => .stop sourceExhausted
      | ch2 :: rest' =>
        if isLowSurrogate ch2 then
          writeOrStop ((ch.toNat - 0xD800) * 0x400 + (ch2.toNat - 0xDC00) + 0x10000) rest' room
        else if strict then .stop sourceIllegal
        else writeOrStop ch.toNat rest room
    else if strict && isLowSurrogate ch then .stop sourceIllegal
    else writeOrStop ch.toNat rest room

def convertUTF16ToUTF8 : Converted UInt16 UInt8 ConversionResult :=
  conversionLoop (convertUTF16ToUTF8Body strict) source.length source room

/-! ## The text -/

/-- The UTF-8 form of a text. -/
def utf8Form (text : List Char) : List UInt8 := text.flatMap String.utf8EncodeChar

/-- The UTF-16 form of a character. -/
def utf16FormOf (c : Char) : List UInt16 :=
  if c.toNat ≤ 0xFFFF then [c.toNat.toUInt16]
  else [((c.toNat - 0x10000) / 0x400 + 0xD800).toUInt16,
    ((c.toNat - 0x10000) % 0x400 + 0xDC00).toUInt16]

/-- The UTF-16 form of a text. -/
def utf16Form (text : List Char) : List UInt16 := text.flatMap utf16FormOf

/-- The bytes are the UTF-8 form of some text. -/
def WellFormedUTF8 (bytes : List UInt8) : Prop := ∃ text, bytes = utf8Form text

/-- Every surrogate is one of a pair, the high one first. -/
inductive Paired : List UInt16 → Prop
  | nil : Paired []
  | unit {ch : UInt16} {units : List UInt16} (high : isHighSurrogate ch = false)
      (low : isLowSurrogate ch = false) (rest : Paired units) : Paired (ch :: units)
  | pair {ch ch2 : UInt16} {units : List UInt16} (high : isHighSurrogate ch = true)
      (low : isLowSurrogate ch2 = true) (rest : Paired units) : Paired (ch :: ch2 :: units)

/-! ## Bytes -/

theorem sequenceLength_eq (b0 : UInt8) : inlineUTF8SequenceLength b0 =
      if b0.toNat < 0x80 then 1 else if b0.toNat < 0xC0 then 0 else if b0.toNat < 0xE0 then 2
      else if b0.toNat < 0xF0 then 3 else if b0.toNat < 0xF8 then 4 else 0 := by
  have h : ∀ n < 256, inlineUTF8SequenceLength (UInt8.ofNat n) =
      if n < 0x80 then 1 else if n < 0xC0 then 0 else if n < 0xE0 then 2
      else if n < 0xF0 then 3 else if n < 0xF8 then 4 else 0 := by decide +kernel
  have := h b0.toNat b0.toNat_lt
  rwa [UInt8.ofNat_toNat] at this

theorem isTrailing_iff (a : UInt8) : isTrailing a = true ↔ 0x80 ≤ a.toNat ∧ a.toNat ≤ 0xBF := by
  rw [isTrailing, and_eq_true, decide_eq_true_eq, decide_eq_true_eq]
  rfl

theorem isLegalFirst_iff (b0 : UInt8) :
    isLegalFirst b0 = true ↔ ¬(0x80 ≤ b0.toNat ∧ b0.toNat < 0xC2) ∧ b0.toNat ≤ 0xF4 := by
  rw [isLegalFirst]
  simp only [and_eq_true, not_eq_true', and_eq_false_iff, decide_eq_false_iff_not,
    decide_eq_true_eq]
  change (¬0x80 ≤ b0.toNat ∨ ¬b0.toNat < 0xC2) ∧ b0.toNat ≤ 0xF4 ↔ _
  omega

theorem toNat_eq_iff (b : UInt8) (n : ℕ) (hn : n < 256) : b = UInt8.ofNat n ↔ b.toNat = n := by
  rw [← UInt8.toNat_inj, UInt8.toNat_ofNat', mod_eq_of_lt hn]

/-- The bounds of the second byte.  Those of `ED` and `F4` have no lower one. -/
theorem isLegalSecond_iff (b0 a : UInt8) : isLegalSecond b0 a = true ↔ a.toNat ≤ 0xBF ∧
        if b0.toNat = 0xE0 then 0xA0 ≤ a.toNat
        else if b0.toNat = 0xED then a.toNat ≤ 0x9F
        else if b0.toNat = 0xF0 then 0x90 ≤ a.toNat
        else if b0.toNat = 0xF4 then a.toNat ≤ 0x8F
        else 0x80 ≤ a.toNat := by
  rw [isLegalSecond, and_eq_true, decide_eq_true_eq]
  have h1 : (b0 = 0xE0) = (b0.toNat = 0xE0) := propext (toNat_eq_iff b0 0xE0 (by decide))
  have h2 : (b0 = 0xED) = (b0.toNat = 0xED) := propext (toNat_eq_iff b0 0xED (by decide))
  have h3 : (b0 = 0xF0) = (b0.toNat = 0xF0) := propext (toNat_eq_iff b0 0xF0 (by decide))
  have h4 : (b0 = 0xF4) = (b0.toNat = 0xF4) := propext (toNat_eq_iff b0 0xF4 (by decide))
  simp only [h1, h2, h3, h4]
  split_ifs <;> rw [decide_eq_true_eq] <;> rfl

/-! ## Sequences -/

/-- A sequence whose second byte is too low to continue it, and passes for one that does. -/
def IsLowSecond : List UInt8 → Prop
  | [b0, b1, b2] => b0 = 0xED ∧ b1 < 0x80 ∧ isTrailing b2
  | [b0, b1, b2, b3] => b0 = 0xF4 ∧ b1 < 0x80 ∧ isTrailing b2 ∧ isTrailing b3
  | _ => False

variable {c : Char} {n : ℕ} {piece rest bytes : List UInt8} {units : List UInt16}

theorem utf8EncodeChar_one (h : c.toNat < 0x80) :
    String.utf8EncodeChar c = [UInt8.ofNat c.toNat] := if_pos (le_of_lt_succ h)

theorem utf8EncodeChar_two (h : 0x80 ≤ c.toNat) (h' : c.toNat < 0x800) : String.utf8EncodeChar c =
      [UInt8.ofNat (c.toNat / 64 % 32 + 0xC0), UInt8.ofNat (c.toNat % 64 + 0x80)] :=
  (if_neg (not_le.mpr h)).trans (if_pos (le_of_lt_succ h'))

theorem utf8EncodeChar_three (h : 0x800 ≤ c.toNat) (h' : c.toNat < 0x10000) :
    String.utf8EncodeChar c =
      [UInt8.ofNat (c.toNat / 4096 % 16 + 0xE0), UInt8.ofNat (c.toNat / 64 % 64 + 0x80),
        ofNat (c.toNat % 64 + 0x80)] :=
  (if_neg (not_le.mpr (le_trans (by decide) h))).trans
    ((if_neg (not_le.mpr h)).trans (if_pos (le_of_lt_succ h')))

theorem utf8EncodeChar_four (h : 0x10000 ≤ c.toNat) : String.utf8EncodeChar c =
      [UInt8.ofNat (c.toNat / 262144 % 8 + 0xF0), UInt8.ofNat (c.toNat / 4096 % 64 + 0x80),
        ofNat (c.toNat / 64 % 64 + 0x80), ofNat (c.toNat % 64 + 0x80)] :=
  (if_neg (not_le.mpr (le_trans (by decide) h))).trans
    ((if_neg (not_le.mpr (le_trans (by decide) h))).trans (if_neg (not_le.mpr h)))

variable (c : Char)

theorem toNat_char : c.toNat < 0xD800 ∨ 0xDFFF < c.toNat ∧ c.toNat < 0x110000 := c.valid

/-- The character of a code point that is no surrogate. -/
theorem exists_char (h : n < 0xD800 ∨ 0xDFFF < n ∧ n < 0x110000) :
    ∃ c : Char, c.toNat = n := ⟨Char.ofNatAux n h, rfl⟩

theorem eq_ofNat (h : b.toNat = n) : b = UInt8.ofNat n := by
  rw [← h, UInt8.ofNat_toNat]

theorem not_isSurrogate (h : n < 0xD800 ∨ 0xDFFF < n) : isSurrogate n = false := by
  rw [isSurrogate, and_eq_false_iff, decide_eq_false_iff_not, decide_eq_false_iff_not]
  omega

theorem readUTF8Sequence_two (b0 b1 : UInt8) :
    readUTF8Sequence [b0, b1] = b0.toNat * 64 + b1.toNat - 0x3080 := by
  simp [readUTF8Sequence, offsetsFromUTF8]

theorem readUTF8Sequence_three (b0 b1 b2 : UInt8) : readUTF8Sequence [b0, b1, b2] =
    (b0.toNat * 64 + b1.toNat) * 64 + b2.toNat - 0xE2080 := by
  simp [readUTF8Sequence, offsetsFromUTF8]

theorem readUTF8Sequence_four (b0 b1 b2 b3 : UInt8) : readUTF8Sequence [b0, b1, b2, b3] =
    ((b0.toNat * 64 + b1.toNat) * 64 + b2.toNat) * 64 + b3.toNat - 0x3C82080 := by
  simp [readUTF8Sequence, offsetsFromUTF8]

/-- A sequence that passes the tests encodes a character, or has a low second byte. -/
theorem isLegalUTF8_cases (hlength : piece.length = inlineUTF8SequenceLength (piece.headD 0))
    (hlegal : isLegalUTF8 piece = true) :
    (∃ c : Char, piece = String.utf8EncodeChar c ∧ readUTF8Sequence piece = c.toNat) ∨
      (IsLowSecond piece ∧ isSurrogate (readUTF8Sequence piece) = false ∧
        readUTF8Sequence piece < 0x110000) := by
  match piece, hlength, hlegal with
  | [b0], hlength, _ =>
    have hb0 : b0.toNat < 0x80 := by
      rw [sequenceLength_eq] at hlength
      split_ifs at hlength with h <;> first | exact h | simp at hlength
    obtain ⟨c, hc⟩ := exists_char (n := b0.toNat) (.inl (by omega))
    refine .inl ⟨c, ?_, ?_⟩
    · rw [utf8EncodeChar_one (by omega), hc, UInt8.ofNat_toNat]
    · rw [hc]
      simp [readUTF8Sequence, offsetsFromUTF8]
  | [b0, b1], hlength, hlegal =>
    have hb0 : 0xC0 ≤ b0.toNat ∧ b0.toNat < 0xE0 := by
      rw [headD_cons, sequenceLength_eq] at hlength
      split_ifs at hlength <;> first | omega | simp at hlength
    rw [isLegalUTF8, and_eq_true, isLegalSecond_iff, isLegalFirst_iff,
      if_neg (by omega), if_neg (by omega), if_neg (by omega), if_neg (by omega)] at hlegal
    have hread := readUTF8Sequence_two b0 b1
    obtain ⟨c, hc⟩ := exists_char (.inl (by omega : readUTF8Sequence [b0, b1] < 0xD800))
    refine .inl ⟨c, ?_, hc.symm⟩
    rw [utf8EncodeChar_two (by omega) (by omega), ← eq_ofNat (b := b0) (by omega), ← eq_ofNat (b := b1) (by omega)]
  | [b0, b1, b2], hlength, hlegal =>
    have hb0 : 0xE0 ≤ b0.toNat ∧ b0.toNat < 0xF0 := by
      rw [headD_cons, sequenceLength_eq] at hlength
      split_ifs at hlength <;> first | omega | simp at hlength
    rw [isLegalUTF8, and_eq_true, and_eq_true, isTrailing_iff, isLegalSecond_iff] at hlegal
    obtain ⟨⟨hb2, hb1, hsecond⟩, -⟩ := hlegal
    have hread := readUTF8Sequence_three b0 b1 b2
    by_cases hlow : b0.toNat = 0xED ∧ b1.toNat < 0x80
    · refine .inr ⟨⟨eq_ofNat hlow.1, UInt8.lt_iff_toNat_lt.mpr hlow.2,
        (isTrailing_iff b2).mpr hb2⟩, ?_, ?_⟩
      · exact not_isSurrogate (.inl (by omega))
      · omega
    · have hbounds : 0x80 ≤ b1.toNat ∧ (b0.toNat = 0xE0 → 0xA0 ≤ b1.toNat) ∧
          (b0.toNat = 0xED → b1.toNat ≤ 0x9F) := by
        split_ifs at hsecond <;> omega
      obtain ⟨c, hc⟩ := exists_char (n := readUTF8Sequence [b0, b1, b2]) (by omega)
      refine .inl ⟨c, ?_, hc.symm⟩
      rw [utf8EncodeChar_three (by omega) (by omega), ← eq_ofNat (b := b0) (by omega),
        ← eq_ofNat (b := b1) (by omega), ← eq_ofNat (b := b2) (by omega)]
  | [b0, b1, b2, b3], hlength, hlegal =>
    have hb0 : 0xF0 ≤ b0.toNat ∧ b0.toNat < 0xF8 := by
      rw [headD_cons, sequenceLength_eq] at hlength
      split_ifs at hlength <;> first | omega | simp at hlength
    rw [isLegalUTF8, and_eq_true, and_eq_true, and_eq_true, isTrailing_iff,
      isTrailing_iff, isLegalSecond_iff, isLegalFirst_iff] at hlegal
    obtain ⟨⟨⟨hb3, hb2⟩, hb1, hsecond⟩, -, hfirst⟩ := hlegal
    have hread := readUTF8Sequence_four b0 b1 b2 b3
    by_cases hlow : b0.toNat = 0xF4 ∧ b1.toNat < 0x80
    · refine .inr ⟨⟨eq_ofNat hlow.1, UInt8.lt_iff_toNat_lt.mpr hlow.2,
        (isTrailing_iff b2).mpr hb2, (isTrailing_iff b3).mpr hb3⟩, ?_, ?_⟩
      · exact not_isSurrogate (.inr (by omega))
      · omega
    · have hbounds : 0x80 ≤ b1.toNat ∧ (b0.toNat = 0xF0 → 0x90 ≤ b1.toNat) ∧
          (b0.toNat = 0xF4 → b1.toNat ≤ 0x8F) := by
        split_ifs at hsecond <;> omega
      obtain ⟨c, hc⟩ := exists_char (n := readUTF8Sequence [b0, b1, b2, b3]) (by omega)
      refine .inl ⟨c, ?_, hc.symm⟩
      rw [utf8EncodeChar_four (by omega), ← eq_ofNat (b := b0) (by omega),
        ← eq_ofNat (b := b1) (by omega), ← eq_ofNat (b := b2) (by omega),
        ← eq_ofNat (b := b3) (by omega)]

/-- A sequence that passes the tests, alone in a list. -/
structure IsSequence (piece : List UInt8) : Prop where
  length_eq : piece.length = inlineUTF8SequenceLength (piece.headD 0)
  isLegal : isLegalUTF8 piece = true

theorem toNat_ofNat (h : n < 256) : (UInt8.ofNat n).toNat = n := by
  rw [toNat_ofNat', mod_eq_of_lt h]

/-- The encoding of a character passes the tests and is read as the character. -/
theorem isSequence_encode : IsSequence (String.utf8EncodeChar c) ∧
      readUTF8Sequence (String.utf8EncodeChar c) = c.toNat := by
  have hc := toNat_char c
  by_cases h1 : c.toNat < 0x80
  · have hb0 : (UInt8.ofNat c.toNat).toNat = c.toNat := toNat_ofNat (by omega)
    rw [utf8EncodeChar_one h1]
    refine ⟨⟨?_, ?_⟩, ?_⟩
    · rw [headD_cons, sequenceLength_eq, hb0, if_pos h1]
      rfl
    · rw [isLegalUTF8, isLegalFirst_iff]
      omega
    · simpa [readUTF8Sequence, offsetsFromUTF8] using hb0
  · by_cases h2 : c.toNat < 0x800
    · rw [utf8EncodeChar_two (by omega) h2]
      have hb0 := toNat_ofNat (n := c.toNat / 64 % 32 + 0xC0) (by omega)
      have hb1 := toNat_ofNat (n := c.toNat % 64 + 0x80) (by omega)
      generalize UInt8.ofNat (c.toNat / 64 % 32 + 0xC0) = b0 at *
      generalize UInt8.ofNat (c.toNat % 64 + 0x80) = b1 at *
      refine ⟨⟨?_, ?_⟩, ?_⟩
      · rw [headD_cons, sequenceLength_eq]
        split_ifs <;> first | rfl | omega
      · rw [isLegalUTF8, and_eq_true, isLegalSecond_iff, isLegalFirst_iff]
        split_ifs <;> omega
      · rw [readUTF8Sequence_two]
        omega
    · by_cases h3 : c.toNat < 0x10000
      · rw [utf8EncodeChar_three (by omega) h3]
        have hb0 := toNat_ofNat (n := c.toNat / 4096 % 16 + 0xE0) (by omega)
        have hb1 := toNat_ofNat (n := c.toNat / 64 % 64 + 0x80) (by omega)
        have hb2 := toNat_ofNat (n := c.toNat % 64 + 0x80) (by omega)
        generalize UInt8.ofNat (c.toNat / 4096 % 16 + 0xE0) = b0 at *
        generalize UInt8.ofNat (c.toNat / 64 % 64 + 0x80) = b1 at *
        generalize UInt8.ofNat (c.toNat % 64 + 0x80) = b2 at *
        refine ⟨⟨?_, ?_⟩, ?_⟩
        · rw [headD_cons, sequenceLength_eq]
          split_ifs <;> first | rfl | omega
        · rw [isLegalUTF8, and_eq_true, and_eq_true, isTrailing_iff, isLegalSecond_iff,
            isLegalFirst_iff]
          split_ifs <;> omega
        · rw [readUTF8Sequence_three]
          omega
      · rw [utf8EncodeChar_four (by omega)]
        have hb0 := toNat_ofNat (n := c.toNat / 262144 % 8 + 0xF0) (by omega)
        have hb1 := toNat_ofNat (n := c.toNat / 4096 % 64 + 0x80) (by omega)
        have hb2 := toNat_ofNat (n := c.toNat / 64 % 64 + 0x80) (by omega)
        have hb3 := toNat_ofNat (n := c.toNat % 64 + 0x80) (by omega)
        generalize UInt8.ofNat (c.toNat / 262144 % 8 + 0xF0) = b0 at *
        generalize UInt8.ofNat (c.toNat / 4096 % 64 + 0x80) = b1 at *
        generalize UInt8.ofNat (c.toNat / 64 % 64 + 0x80) = b2 at *
        generalize UInt8.ofNat (c.toNat % 64 + 0x80) = b3 at *
        refine ⟨⟨?_, ?_⟩, ?_⟩
        · rw [headD_cons, sequenceLength_eq]
          split_ifs <;> first | rfl | omega
        · rw [isLegalUTF8, and_eq_true, and_eq_true, and_eq_true, isTrailing_iff,
            isTrailing_iff, isLegalSecond_iff, isLegalFirst_iff]
          split_ifs <;> omega
        · rw [readUTF8Sequence_four]
          omega

/-- A low second byte passes the tests after `ED` and `F4`. -/
theorem isSequence_lowSecond (h : IsLowSecond piece) : IsSequence piece := by
  match piece, h with
  | [b0, b1, b2], ⟨h0, h1, h2⟩ =>
    subst h0
    rw [isTrailing_iff] at h2
    have h1' : b1.toNat < 0x80 := lt_iff_toNat_lt.mp h1
    refine ⟨show 3 = inlineUTF8SequenceLength 0xED by decide, ?_⟩
    rw [isLegalUTF8, and_eq_true, and_eq_true, isTrailing_iff, isLegalSecond_iff]
    refine ⟨⟨h2, by omega, ?_⟩, by decide⟩
    change if 0xED = 0xE0 then _ else if 0xED = 0xED then b1.toNat ≤ 0x9F else _
    rw [if_neg (by decide), if_pos rfl]
    omega
  | [b0, b1, b2, b3], ⟨h0, h1, h2, h3⟩ =>
    subst h0
    rw [isTrailing_iff] at h2 h3
    have h1' : b1.toNat < 0x80 := lt_iff_toNat_lt.mp h1
    refine ⟨show 4 = inlineUTF8SequenceLength 0xF4 by decide, ?_⟩
    rw [isLegalUTF8, and_eq_true, and_eq_true, and_eq_true, isTrailing_iff,
      isTrailing_iff, isLegalSecond_iff]
    refine ⟨⟨⟨h3, h2⟩, by omega, ?_⟩, by decide⟩
    change if 0xF4 = 0xE0 then _ else if 0xF4 = 0xED then _ else if 0xF4 = 0xF0 then _
      else if 0xF4 = 0xF4 then b1.toNat ≤ 0x8F else _
    rw [if_neg (by decide), if_neg (by decide), if_neg (by decide), if_pos rfl]
    omega

theorem IsSequence.ne_nil (h : IsSequence piece) : piece ≠ [] := by
  rintro rfl
  exact absurd h.isLegal (by decide)

/-! ## The loops as conversions -/

/-- A body that takes what the conversion takes, when it fits. -/
def Respects {α β : Type} (body : List α → ℕ → Next α β ConversionResult)
    (next : List α → Next α β ConversionResult) : Prop :=
  ∀ a source room, body (a :: source) room =
    match next (a :: source) with
    | .stop result => .stop result
    | .emit rest units => if room < units.length then .stop targetExhausted else .emit rest units

theorem conversionLoop_eq {α β : Type} {body : List α → ℕ → Next α β ConversionResult}
    {next : List α → Next α β ConversionResult} (h : Respects body next) (fuel : ℕ)
    (source : List α) (room : ℕ) :
    conversionLoop body fuel source room =
      convert next conversionOK targetExhausted fuel source room := by
  induction fuel generalizing source room with
  | zero => rfl
  | succ fuel ih =>
    cases source with
    | nil => rfl
    | cons a source =>
      rw [conversionLoop, convert, h]
      cases next (a :: source) with
      | stop result => rfl
      | emit rest units =>
        dsimp only
        by_cases hroom : room < units.length
        · rw [if_pos hroom, if_pos hroom]
        · rw [if_neg hroom, if_neg hroom]
          dsimp only
          rw [ih]

/-- The code units of a code point. -/
def unitsOf (character : ℕ) : List UInt16 :=
  if character ≤ 0xFFFF then [character.toUInt16] else surrogatePair character

theorem utf16FormOf_eq : utf16FormOf c = unitsOf c.toNat := by
  rw [utf16FormOf, unitsOf]
  by_cases h : c.toNat ≤ 0xFFFF
  · rw [if_pos h, if_pos h]
  · have hlead : (c.toNat - 0x10000) / 0x400 + 0xD800 = c.toNat / 0x400 + 0xD7C0 := by omega
    have htrail : (c.toNat - 0x10000) % 0x400 = c.toNat % 0x400 := by omega
    rw [if_neg h, if_neg h, surrogatePair, hlead, htrail]

theorem length_unitsOf (character : ℕ) :
    (unitsOf character).length = if character ≤ 0xFFFF then 1 else 2 := by
  rw [unitsOf]
  split <;> rfl

/-- The body at a sequence that passes the tests. -/
theorem body_sequence (h : IsSequence piece)
    (hsurrogate : isSurrogate (readUTF8Sequence piece) = false)
    (hmax : readUTF8Sequence piece < 0x110000) (strict : Bool) (room : ℕ) :
    convertUTF8ToUTF16Body strict (piece ++ rest) room =
      if room < (unitsOf (readUTF8Sequence piece)).length then .stop targetExhausted
      else .emit rest (unitsOf (readUTF8Sequence piece)) := by
  have hhead : (piece ++ rest).headD 0 = piece.headD 0 := by
    cases piece with
    | nil => exact absurd rfl h.ne_nil
    | cons b piece => rfl
  rw [convertUTF8ToUTF16Body, hhead, ← h.length_eq, if_neg (by rw [length_append]; omega),
    take_left, drop_left, if_neg (by rw [h.isLegal]; simp), length_unitsOf, unitsOf]
  by_cases hroom : room = 0
  · rw [if_pos hroom, if_pos (by split <;> omega)]
  · rw [if_neg hroom]
    by_cases hbasic : readUTF8Sequence piece ≤ 0xFFFF
    · rw [if_pos hbasic, if_pos hbasic, if_pos hbasic, hsurrogate, if_neg Bool.false_ne_true,
        if_neg (by omega)]
    · rw [if_neg hbasic, if_neg hbasic, if_neg hbasic, if_pos (by omega)]

/-- The start of a source passes the tests or stops the loop, whatever room there is. -/
theorem body_cases (source : List UInt8) :
    (∃ piece rest, source = piece ++ rest ∧ IsSequence piece) ∨
      ∃ result, result ≠ conversionOK ∧ result ≠ targetExhausted ∧
        ∀ strict room, convertUTF8ToUTF16Body strict source room = .stop result := by
  by_cases hlength : source.length < inlineUTF8SequenceLength (source.headD 0)
  · refine .inr ⟨sourceExhausted, by simp, by simp, fun strict room => ?_⟩
    rw [convertUTF8ToUTF16Body, if_pos hlength]
  · by_cases hlegal : isLegalUTF8 (source.take (inlineUTF8SequenceLength (source.headD 0))) = true
    · refine .inl ⟨_, _, (take_append_drop _ _).symm, ?_, hlegal⟩
      cases source with
      | nil => simp [isLegalUTF8] at hlegal
      | cons b source =>
        rw [headD_cons] at hlength hlegal ⊢
        rw [length_take, min_eq_left (by omega)]
        cases hn : inlineUTF8SequenceLength b with
        | zero =>
          rw [hn] at hlegal
          exact absurd hlegal (by simp [isLegalUTF8])
        | succ n => rw [take_succ_cons, headD_cons, hn]
    · refine .inr ⟨sourceIllegal, by simp, by simp, fun strict room => ?_⟩
      rw [convertUTF8ToUTF16Body, if_neg hlength, if_pos (by simpa using hlegal)]

/-- What `convertUTF8ToUTF16` does at the start of a source when there is room. -/
def nextCharacter (source : List UInt8) : Next UInt8 UInt16 ConversionResult :=
  convertUTF8ToUTF16Body true source 2

/-- The sequence at the start of a source. -/
theorem nextCharacter_sequence (h : IsSequence piece) (rest : List UInt8) (strict : Bool)
    (room : ℕ) :
    nextCharacter (piece ++ rest) = .emit rest (unitsOf (readUTF8Sequence piece)) ∧
      convertUTF8ToUTF16Body strict (piece ++ rest) room =
        if room < (unitsOf (readUTF8Sequence piece)).length then .stop targetExhausted
        else .emit rest (unitsOf (readUTF8Sequence piece)) := by
  have hvalue : isSurrogate (readUTF8Sequence piece) = false ∧
      readUTF8Sequence piece < 0x110000 := by
    rcases isLegalUTF8_cases h.length_eq h.isLegal with ⟨c, -, hread⟩ | ⟨-, hvalue⟩
    · have hc := toNat_char c
      exact ⟨not_isSurrogate (by omega), by omega⟩
    · exact hvalue
  refine ⟨?_, body_sequence h hvalue.1 hvalue.2 strict room⟩
  rw [nextCharacter, body_sequence h hvalue.1 hvalue.2, if_neg]
  rw [length_unitsOf]
  split <;> omega

theorem respects_nextCharacter (strict : Bool) :
    Respects (convertUTF8ToUTF16Body strict) nextCharacter := by
  intro b source room
  rcases body_cases (b :: source) with ⟨piece, rest, heq, hpiece⟩ | ⟨result, -, -, hstop⟩
  · obtain ⟨h1, h2⟩ := nextCharacter_sequence hpiece rest strict room
    rw [heq, h1, h2]
  · rw [nextCharacter, hstop, hstop]

/-- The sequence that is taken. -/
theorem sequence_of_emit {source : List UInt8} (h : nextCharacter source = .emit rest units) :
    ∃ piece, IsSequence piece ∧ source = piece ++ rest ∧
      units = unitsOf (readUTF8Sequence piece) := by
  rcases body_cases source with ⟨piece, rest', rfl, hpiece⟩ | ⟨result, -, -, hstop⟩
  · rw [(nextCharacter_sequence hpiece rest' true 0).1] at h
    cases h
    exact ⟨piece, hpiece, rfl, rfl⟩
  · rw [nextCharacter, hstop] at h
    cases h

theorem takes_nextCharacter : Takes nextCharacter := by
  intro source rest units h
  obtain ⟨piece, hpiece, rfl, -⟩ := sequence_of_emit h
  rw [length_append]
  have := length_pos_of_ne_nil hpiece.ne_nil
  omega

theorem convertUTF8ToUTF16_eq (strict : Bool) (source : List UInt8) (room : ℕ) :
    convertUTF8ToUTF16 strict source room =
      convert nextCharacter conversionOK targetExhausted source.length source room :=
  conversionLoop_eq (respects_nextCharacter strict) _ _ _

/-! ## To UTF-8 -/

theorem trailingByte_eq (ch : ℕ) : trailingByte ch = UInt8.ofNat (ch % 64 + 0x80) := by
  have h : ∀ n < 256, (n ||| 0x80) &&& 0xBF = n % 64 + 0x80 := by decide +kernel
  have hmod : (ch ||| 0x80) &&& 0xBF = (ch % 256 ||| 0x80) &&& 0xBF := by
    refine eq_of_testBit_eq fun i => ?_
    rw [testBit_and, testBit_and, testBit_or, testBit_or,
      show (256 : ℕ) = 2 ^ 8 from rfl, testBit_mod_two_pow]
    by_cases hi : i < 8
    · rw [decide_eq_true hi, Bool.true_and]
    · have hmask : Nat.testBit 0xBF i = false :=
        Nat.testBit_lt_two_pow (Nat.lt_of_lt_of_le (by decide)
          (Nat.pow_le_pow_right (by decide) (not_lt.mp hi)))
      rw [hmask, Bool.and_false, Bool.and_false]
  rw [trailingByte, hmod, h _ (mod_lt _ (by decide)), mod_mod_of_dvd _ (by decide)]

/-- The bits of a first byte are apart from its mark. -/
theorem or_mark (mark i a : ℕ) (hmark : mark = 2 ^ i * a) (hn : n < 2 ^ i) :
    n ||| mark = n + mark := by
  rw [hmark, Nat.or_comm, ← Nat.two_pow_add_eq_or_of_lt hn, Nat.add_comm]

/-- The bytes written for a character are its encoding. -/
theorem writeCharacter_eq : writeCharacter c.toNat = String.utf8EncodeChar c := by
  have hc := toNat_char c
  rw [writeCharacter, trailingByte_eq, trailingByte_eq, trailingByte_eq]
  by_cases h1 : c.toNat < 0x80
  · rw [if_pos h1, utf8EncodeChar_one h1]
  · by_cases h2 : c.toNat < 0x800
    · have hmark : c.toNat >>> 6 ||| 0xC0 = c.toNat / 64 % 32 + 0xC0 := by
        rw [or_mark 0xC0 6 3 rfl (by omega)]
        omega
      rw [if_neg h1, if_pos h2, utf8EncodeChar_two (by omega) h2, hmark]
    · by_cases h3 : c.toNat < 0x10000
      · have hmark : c.toNat >>> 12 ||| 0xE0 = c.toNat / 4096 % 16 + 0xE0 := by
          rw [or_mark 0xE0 5 7 rfl (by omega)]
          omega
        rw [if_neg h1, if_neg h2, if_pos h3, utf8EncodeChar_three (by omega) h3, hmark,
          shiftRight_eq_div_pow]
      · have hmark : c.toNat >>> 18 ||| 0xF0 = c.toNat / 262144 % 8 + 0xF0 := by
          rw [or_mark 0xF0 4 15 rfl (by omega)]
          omega
        rw [if_neg h1, if_neg h2, if_neg h3, utf8EncodeChar_four (by omega), hmark,
          shiftRight_eq_div_pow, shiftRight_eq_div_pow]

theorem length_writeCharacter (ch : ℕ) : (writeCharacter ch).length ≤ 4 := by
  rw [writeCharacter]
  split_ifs <;> simp

variable (source : List UInt16)

/-- What `convertUTF16ToUTF8` does at the start of a source when there is room. -/
def nextUnits : Next UInt16 UInt8 ConversionResult :=
  convertUTF16ToUTF8Body true source 4

theorem writeOrStop_four (ch : ℕ) (rest : List UInt16) :
    writeOrStop ch rest 4 = .emit rest (writeCharacter ch) := by
  rw [writeOrStop, if_neg (not_lt.mpr (length_writeCharacter ch))]

theorem respects_nextUnits : Respects (convertUTF16ToUTF8Body true) nextUnits := by
  intro ch source room
  unfold nextUnits convertUTF16ToUTF8Body
  dsimp only
  by_cases hhigh : isHighSurrogate ch = true
  · rw [if_pos hhigh, if_pos hhigh]
    cases source with
    | nil => rfl
    | cons ch2 rest =>
      dsimp only
      by_cases hlow : isLowSurrogate ch2 = true
      · rw [if_pos hlow, if_pos hlow, writeOrStop_four, writeOrStop]
      · rw [if_neg hlow, if_neg hlow, if_pos rfl, if_pos rfl]
  · rw [if_neg hhigh, if_neg hhigh]
    by_cases hlow : (true && isLowSurrogate ch) = true
    · rw [if_pos hlow, if_pos hlow]
    · rw [if_neg hlow, if_neg hlow, writeOrStop_four, writeOrStop]

theorem convertUTF16ToUTF8_eq (room : ℕ) : convertUTF16ToUTF8 true source room =
      convert nextUnits conversionOK targetExhausted source.length source room :=
  conversionLoop_eq respects_nextUnits _ _ _

theorem body_single (ch : UInt16) (rest : List UInt16) (room : ℕ)
    (h : isHighSurrogate ch = false) (h' : isLowSurrogate ch = false) :
    convertUTF16ToUTF8Body true (ch :: rest) room = writeOrStop ch.toNat rest room := by
  unfold convertUTF16ToUTF8Body
  dsimp only
  rw [h, h', if_neg Bool.false_ne_true, if_neg (by decide)]

theorem body_pair (ch ch2 : UInt16) (rest : List UInt16) (room : ℕ)
    (h : isHighSurrogate ch = true) (h' : isLowSurrogate ch2 = true) :
    convertUTF16ToUTF8Body true (ch :: ch2 :: rest) room =
      writeOrStop ((ch.toNat - 0xD800) * 0x400 + (ch2.toNat - 0xDC00) + 0x10000) rest room := by
  rw [convertUTF16ToUTF8Body, if_pos h, if_pos h']

theorem utf16Form_cons (text : List Char) :
    utf16Form (c :: text) = utf16FormOf c ++ utf16Form text := flatMap_cons

theorem utf8Form_cons (text : List Char) :
    utf8Form (c :: text) = String.utf8EncodeChar c ++ utf8Form text := flatMap_cons

theorem isHighSurrogate_iff (ch : UInt16) :
    isHighSurrogate ch = true ↔ 0xD800 ≤ ch.toNat ∧ ch.toNat ≤ 0xDBFF := by
  rw [isHighSurrogate, and_eq_true, decide_eq_true_eq, decide_eq_true_eq]
  rfl

theorem isLowSurrogate_iff (ch : UInt16) :
    isLowSurrogate ch = true ↔ 0xDC00 ≤ ch.toNat ∧ ch.toNat ≤ 0xDFFF := by
  rw [isLowSurrogate, and_eq_true, decide_eq_true_eq, decide_eq_true_eq]
  rfl

theorem toNat_toUInt16 (h : n < 2 ^ 16) : n.toUInt16.toNat = n := by
  rw [UInt16.toNat_ofNat', mod_eq_of_lt h]

/-- The character at the start of a text. -/
theorem nextUnits_character (rest : List UInt16) :
    nextUnits (utf16FormOf c ++ rest) = .emit rest (String.utf8EncodeChar c) := by
  have hc := toNat_char c
  rw [utf16FormOf, nextUnits]
  by_cases hbasic : c.toNat ≤ 0xFFFF
  · have hunit := toNat_toUInt16 (n := c.toNat) (by omega)
    have hhigh : isHighSurrogate c.toNat.toUInt16 = false := by
      rw [← not_eq_true, isHighSurrogate_iff]
      omega
    have hlow : isLowSurrogate c.toNat.toUInt16 = false := by
      rw [← not_eq_true, isLowSurrogate_iff]
      omega
    rw [if_pos hbasic, singleton_append, body_single _ _ _ hhigh hlow, writeOrStop_four, hunit,
      writeCharacter_eq]
  · have hlead := toNat_toUInt16 (n := (c.toNat - 0x10000) / 0x400 + 0xD800) (by omega)
    have htrail := toNat_toUInt16 (n := (c.toNat - 0x10000) % 0x400 + 0xDC00) (by omega)
    rw [if_neg hbasic, cons_append, singleton_append,
      body_pair _ _ _ _ ((isHighSurrogate_iff _).mpr (by omega))
        ((isLowSurrogate_iff _).mpr (by omega)), writeOrStop_four, hlead, htrail]
    have hvalue : ((c.toNat - 0x10000) / 0x400 + 0xD800 - 0xD800) * 0x400 +
        ((c.toNat - 0x10000) % 0x400 + 0xDC00 - 0xDC00) + 0x10000 = c.toNat := by omega
    rw [hvalue, writeCharacter_eq]

/-- The UTF-16 form of a character of the basic plane. -/
theorem exists_char_unit {ch} (h : isHighSurrogate ch = false)
    (h' : isLowSurrogate ch = false) : ∃ c : Char, utf16FormOf c = [ch] := by
  have hch : ¬(0xD800 ≤ ch.toNat ∧ ch.toNat ≤ 0xDBFF) := fun hs => by
    rw [(isHighSurrogate_iff ch).mpr hs] at h
    cases h
  have hch' : ¬(0xDC00 ≤ ch.toNat ∧ ch.toNat ≤ 0xDFFF) := fun hs => by
    rw [(isLowSurrogate_iff ch).mpr hs] at h'
    cases h'
  have hlt := ch.toNat_lt
  obtain ⟨c, hc⟩ := exists_char (n := ch.toNat) (by omega)
  refine ⟨c, ?_⟩
  rw [utf16FormOf, hc, if_pos (by omega)]
  exact congrArg (fun a => [a]) UInt16.ofNat_toNat

/-- A pair is the UTF-16 form of a character. -/
theorem exists_char_pair {ch} (h : isHighSurrogate ch = true)
    (h' : isLowSurrogate ch2 = true) : ∃ c : Char, utf16FormOf c = [ch, ch2] := by
  rw [isHighSurrogate_iff] at h
  rw [isLowSurrogate_iff] at h'
  obtain ⟨c, hc⟩ := exists_char
    (n := (ch.toNat - 0xD800) * 0x400 + (ch2.toNat - 0xDC00) + 0x10000) (by omega)
  have hlead : (c.toNat - 0x10000) / 0x400 + 0xD800 = ch.toNat := by omega
  have htrail : (c.toNat - 0x10000) % 0x400 + 0xDC00 = ch2.toNat := by omega
  refine ⟨c, ?_⟩
  rw [utf16FormOf, if_neg (by omega), hlead, htrail]
  exact congrArg₂ (fun a b => [a, b]) UInt16.ofNat_toNat UInt16.ofNat_toNat

/-- Text without unpaired surrogates is the UTF-16 form of some text. -/
theorem Paired.exists_text (h : Paired units) : ∃ text, units = utf16Form text := by
  induction h with
  | nil => exact ⟨[], rfl⟩
  | unit high low rest ih =>
    obtain ⟨text, rfl⟩ := ih
    obtain ⟨c, hc⟩ := exists_char_unit high low
    exact ⟨c :: text, by rw [utf16Form_cons, hc]; rfl⟩
  | pair high low rest ih =>
    obtain ⟨text, rfl⟩ := ih
    obtain ⟨c, hc⟩ := exists_char_pair high low
    exact ⟨c :: text, by rw [utf16Form_cons, hc]; rfl⟩

/-- The start of a source is a character, or stops the loop. -/
theorem nextUnits_cases : (∃ c rest, source = utf16FormOf c ++ rest) ∨
      ∃ result, result ≠ targetExhausted ∧ nextUnits source = .stop result := by
  match source with
  | [] => exact .inr ⟨conversionOK, by simp, rfl⟩
  | ch :: rest =>
    cases hhigh : isHighSurrogate ch with
    | true =>
      cases rest with
      | nil =>
        exact .inr ⟨sourceExhausted, by simp,
          by rw [nextUnits, convertUTF16ToUTF8Body, if_pos hhigh]⟩
      | cons ch2 rest =>
        cases hlow : isLowSurrogate ch2 with
        | true =>
          obtain ⟨c, hc⟩ := exists_char_pair hhigh hlow
          exact .inl ⟨c, rest, by rw [hc]; rfl⟩
        | false =>
          refine .inr ⟨sourceIllegal, by simp, ?_⟩
          rw [nextUnits, convertUTF16ToUTF8Body, if_pos hhigh, hlow, if_neg Bool.false_ne_true,
            if_pos rfl]
    | false =>
      cases hlow : isLowSurrogate ch with
      | true =>
        refine .inr ⟨sourceIllegal, by simp, ?_⟩
        unfold nextUnits convertUTF16ToUTF8Body
        dsimp only
        rw [hhigh, hlow, if_neg Bool.false_ne_true, if_pos (by decide)]
      | false =>
        obtain ⟨c, hc⟩ := exists_char_unit hhigh hlow
        exact .inl ⟨c, rest, by rw [hc]; rfl⟩

/-- The character that is taken. -/
theorem character_of_emit {source rest : List UInt16} (h : nextUnits source = .emit rest bytes) :
    ∃ c, source = utf16FormOf c ++ rest ∧ bytes = String.utf8EncodeChar c := by
  rcases nextUnits_cases source with ⟨c, rest', rfl⟩ | ⟨result, -, hstop⟩
  · rw [nextUnits_character] at h
    cases h
    exact ⟨c, rfl, rfl⟩
  · rw [hstop] at h
    cases h

theorem utf16FormOf_length_pos : 0 < (utf16FormOf c).length := by
  rw [utf16FormOf]
  split <;> simp

theorem takes_nextUnits : Takes nextUnits := by
  intro source rest bytes h
  obtain ⟨c, rfl, -⟩ := character_of_emit h
  have := utf16FormOf_length_pos c
  rw [length_append]
  omega

/-! ## What the conversions should do -/

/-- Sequences that pass the tests: those of characters, and those with a low second byte. -/
inductive Sequences : List UInt8 → Prop
  | nil : Sequences []
  | char (c : Char) {rest : List UInt8} (more : Sequences rest) :
      Sequences (String.utf8EncodeChar c ++ rest)
  | low {piece rest : List UInt8} (low : IsLowSecond piece) (more : Sequences rest) :
      Sequences (piece ++ rest)

/-- Bytes made of such sequences, of which one has a low second byte. -/
inductive HasLowSecondByte : List UInt8 → Prop
  | here {piece rest : List UInt8} (low : IsLowSecond piece) (more : Sequences rest) :
      HasLowSecondByte (piece ++ rest)
  | later (c : Char) {rest : List UInt8} (more : HasLowSecondByte rest) :
      HasLowSecondByte (String.utf8EncodeChar c ++ rest)

/-- With room enough, the conversion to UTF-16 succeeds on the well-formed bytes and on no others, and
yields the UTF-16 form. -/
def ReadsUTF8 (bytes : List UInt8) : Prop :=
  ∀ room, bytes.length ≤ room →
    ((convertUTF8ToUTF16 true bytes room).result = conversionOK ↔ WellFormedUTF8 bytes) ∧
      ∀ text, bytes = utf8Form text →
        convertUTF8ToUTF16 true bytes room = ⟨conversionOK, [], utf16Form text⟩

/-- With room enough, text without unpaired surrogates is converted to well-formed bytes, which are
converted back to it. -/
def WritesUTF8 (units : List UInt16) : Prop :=
  Paired units → ∀ room, 3 * units.length ≤ room →
    ∃ bytes, convertUTF16ToUTF8 true units room = ⟨conversionOK, [], bytes⟩ ∧
      WellFormedUTF8 bytes ∧ ∀ room', bytes.length ≤ room' →
        convertUTF8ToUTF16 true bytes room' = ⟨conversionOK, [], units⟩

/-- Whole sequences are taken from the bytes, and exactly their code units are written. -/
inductive ReadsSequences : List UInt8 → List UInt16 → List UInt8 → Prop
  | nil (bytes : List UInt8) : ReadsSequences bytes [] bytes
  | cons {piece rest left : List UInt8} {units : List UInt16} (sequence : IsSequence piece)
      (more : ReadsSequences rest units left) :
      ReadsSequences (piece ++ rest) (unitsOf (readUTF8Sequence piece) ++ units) left

/-- Where a conversion stops for lack of room, the next character does not fit; and going on with more
room gives what the larger room would have given. -/
structure Resumes {α β : Type} (run : List α → ℕ → Converted α β ConversionResult)
    (source : List α) (room : ℕ) : Prop where
  length_le : (run source room).target.length ≤ room
  exhausted : (run source room).result = targetExhausted →
    ∀ more, more ≤ room - (run source room).target.length →
      (run (run source room).source more).target = []
  resume : ∀ more, run source ((run source room).target.length + more) =
    (run (run source room).source more).after (run source room).target

/-- With any room, both conversions stop between characters, and can be resumed. -/
def StopsBetweenCharacters (bytes : List UInt8) (units : List UInt16) : Prop :=
  ∀ room, (ReadsSequences bytes (convertUTF8ToUTF16 true bytes room).target
        (convertUTF8ToUTF16 true bytes room).source ∧
      Resumes (convertUTF8ToUTF16 true) bytes room) ∧
    (∃ text, units = utf16Form text ++ (convertUTF16ToUTF8 true units room).source ∧
        (convertUTF16ToUTF8 true units room).target = utf8Form text) ∧
      Resumes (convertUTF16ToUTF8 true) units room

/-! ## Sequences and text -/

theorem IsSequence.append_inj (h : IsSequence piece)
    (h' : IsSequence piece') (heq : piece ++ rest = piece' ++ rest') :
    piece = piece' ∧ rest = rest' := by
  refine List.append_inj heq ?_
  rw [h.length_eq, h'.length_eq]
  cases piece with
  | nil => exact absurd rfl h.ne_nil
  | cons b piece =>
    cases piece' with
    | nil => exact absurd rfl h'.ne_nil
    | cons b' piece' => rw [headD_cons, headD_cons, (cons_eq_cons.mp heq).1]

/-- The bytes after the first one are not low. -/
theorem not_isLowSecond_encode : ¬IsLowSecond (String.utf8EncodeChar c) := by
  have hlow : ∀ n, ¬UInt8.ofNat (n % 64 + 0x80) < 0x80 := fun n h => by
    rw [lt_iff_toNat_lt, toNat_ofNat (by omega)] at h
    change n % 64 + 0x80 < 0x80 at h
    omega
  intro h
  by_cases h1 : c.toNat < 0x80
  · rw [utf8EncodeChar_one h1] at h
    exact h
  · by_cases h2 : c.toNat < 0x800
    · rw [utf8EncodeChar_two (by omega) h2] at h
      exact h
    · by_cases h3 : c.toNat < 0x10000
      · rw [utf8EncodeChar_three (by omega) h3] at h
        exact hlow _ h.2.1
      · rw [utf8EncodeChar_four (by omega)] at h
        exact hlow _ h.2.1

variable {c}

theorem Sequences.cons (h : IsSequence piece) (more : Sequences rest) :
    Sequences (piece ++ rest) := by
  rcases isLegalUTF8_cases h.length_eq h.isLegal with ⟨c, rfl, -⟩ | ⟨hlow, -⟩
  · exact .char c more
  · exact .low hlow more

variable (text : List Char)

theorem sequences_utf8Form : Sequences (utf8Form text) := by
  induction text with
  | nil => exact .nil
  | cons c text ih =>
    exact .char c ih

/-- Sequences that are not all those of characters. -/
theorem Sequences.wellFormed_or (h : Sequences bytes) :
    WellFormedUTF8 bytes ∨ HasLowSecondByte bytes := by
  induction h with
  | nil => exact .inl ⟨[], rfl⟩
  | char c _ ih =>
    rcases ih with ⟨text, rfl⟩ | ih
    · exact .inl ⟨c :: text, rfl⟩
    · exact .inr (.later c ih)
  | low low more _ => exact .inr (.here low more)

theorem HasLowSecondByte.sequences (h : HasLowSecondByte bytes) : Sequences bytes := by
  induction h with
  | here low more => exact .low low more
  | later c _ ih => exact .char c ih

/-- A low second byte makes the bytes ill-formed. -/
theorem HasLowSecondByte.not_wellFormed (h : HasLowSecondByte bytes) : ¬WellFormedUTF8 bytes := by
  induction h with
  | @here piece rest low more =>
    rintro ⟨text, htext⟩
    cases text with
    | nil => exact (isSequence_lowSecond low).ne_nil (append_eq_nil_iff.mp htext).1
    | cons c text =>
      obtain ⟨rfl, -⟩ := (isSequence_lowSecond low).append_inj (isSequence_encode c).1 htext
      exact not_isLowSecond_encode c low
  | @later c rest more ih =>
    rintro ⟨text, htext⟩
    cases text with
    | nil => exact (isSequence_encode c).1.ne_nil (append_eq_nil_iff.mp htext).1
    | cons d text =>
      exact ih ⟨text, ((isSequence_encode c).1.append_inj (isSequence_encode d).1 htext).2⟩

/-! ## Conversions of a whole text -/

variable {α β : Type} {next : List α → Next α β ConversionResult}

/-- All pieces are taken when they fit. -/
theorem convert_all (htakes : Takes next)
    {source : List α} (h : Converts next source target []) {room : ℕ}
    (hroom : target.length ≤ room) :
    convert next conversionOK targetExhausted source.length source room =
      ⟨conversionOK, [], target⟩ := by
  obtain ⟨more, rfl⟩ := Nat.exists_eq_add_of_le hroom
  rw [convert_of_converts htakes h le_rfl, convert_nil, Converted.after, append_nil]

theorem converts_of_sequences (h : Sequences bytes) :
    ∃ units, Converts nextCharacter bytes units [] ∧ units.length ≤ bytes.length := by
  have hstep : ∀ {piece rest : List UInt8}, IsSequence piece →
      (∃ units, Converts nextCharacter rest units [] ∧ units.length ≤ rest.length) →
      ∃ units, Converts nextCharacter (piece ++ rest) units [] ∧
        units.length ≤ (piece ++ rest).length := by
    rintro piece rest hpiece ⟨units, hunits, hle⟩
    refine ⟨_, .cons (nextCharacter_sequence hpiece rest true 0).1 hunits, ?_⟩
    have hshort : (unitsOf (readUTF8Sequence piece)).length ≤ piece.length := by
      rw [length_unitsOf]
      split
      · exact length_pos_of_ne_nil hpiece.ne_nil
      · rename_i hbig
        match piece, hpiece, hbig with
        | [b0], _, hbig => simp [readUTF8Sequence] at hbig; have := b0.toNat_lt; omega
        | _ :: _ :: _, _, _ => simp
        | [], hpiece, _ => exact absurd rfl hpiece.ne_nil
    rw [length_append, length_append]
    omega
  induction h with
  | nil => exact ⟨[], .nil _, le_rfl⟩
  | char c _ ih => exact hstep (isSequence_encode c).1 ih
  | low low _ ih => exact hstep (isSequence_lowSecond low) ih

theorem sequences_of_converts (h : Converts nextCharacter bytes units left)
    (hleft : left = []) : Sequences bytes := by
  induction h with
  | nil bytes => rw [hleft]; exact .nil
  | cons piece _ ih =>
    obtain ⟨sequence, hsequence, rfl, -⟩ := sequence_of_emit piece
    exact (ih hleft).cons hsequence

theorem converts_utf8Form : Converts nextCharacter (utf8Form text) (utf16Form text) [] := by
  induction text with
  | nil => exact .nil _
  | cons c text ih =>
    have hc := isSequence_encode c
    have hpiece := (nextCharacter_sequence hc.1 (utf8Form text) true 0).1
    rw [hc.2, ← utf16FormOf_eq] at hpiece
    exact .cons hpiece ih

theorem converts_utf16Form : Converts nextUnits (utf16Form text) (utf8Form text) [] := by
  induction text with
  | nil => exact .nil _
  | cons c text ih =>
    exact .cons (nextUnits_character c _) ih

theorem length_utf16Form_le : (utf16Form text).length ≤ (utf8Form text).length := by
  induction text with
  | nil => exact le_rfl
  | cons c text ih =>
    have hc : (utf16FormOf c).length ≤ (String.utf8EncodeChar c).length := by
      rw [utf16FormOf]
      split
      · exact length_pos_of_ne_nil (isSequence_encode c).1.ne_nil
      · rw [utf8EncodeChar_four (by omega)]
        simp
    rw [utf8Form_cons, utf16Form_cons, length_append, length_append]
    omega

theorem length_utf8Form_le : (utf8Form text).length ≤ 3 * (utf16Form text).length := by
  induction text with
  | nil => exact le_rfl
  | cons c text ih =>
    have hc : (String.utf8EncodeChar c).length ≤ 3 * (utf16FormOf c).length := by
      by_cases hbasic : c.toNat ≤ 0xFFFF
      · rw [utf16FormOf, if_pos hbasic]
        by_cases h1 : c.toNat < 0x80
        · rw [utf8EncodeChar_one h1]
          simp
        · by_cases h2 : c.toNat < 0x800
          · rw [utf8EncodeChar_two (by omega) h2]
            simp
          · rw [utf8EncodeChar_three (by omega) (by omega)]
            simp
      · rw [utf16FormOf, if_neg hbasic, utf8EncodeChar_four (by omega)]
        simp
    rw [utf8Form_cons, utf16Form_cons, length_append, length_append]
    omega

/-! ## The conversions -/

/-- The conversion to UTF-16 succeeds on the sequences that pass its tests. -/
theorem result_iff {room : ℕ} (hroom : bytes.length ≤ room) :
    (convertUTF8ToUTF16 true bytes room).result = conversionOK ↔ Sequences bytes := by
  rw [convertUTF8ToUTF16_eq]
  constructor
  · intro hok
    obtain ⟨hconverts, -, hends⟩ := @convert_spec _ _ _ nextCharacter conversionOK
      targetExhausted takes_nextCharacter _ _ (le_refl bytes.length) room
    rcases hends with ⟨hnil, -⟩ | ⟨-, hstop⟩ | ⟨-, hexhausted, -⟩
    · exact sequences_of_converts hconverts hnil
    · rcases body_cases (convert nextCharacter conversionOK targetExhausted bytes.length bytes
          room).source with ⟨piece, rest, heq, hpiece⟩ | ⟨result, hne, -, hbody⟩
      · rw [heq, (nextCharacter_sequence hpiece rest true 0).1] at hstop
        cases hstop
      · rw [nextCharacter, hbody, hok] at hstop
        exact absurd (Next.stop.inj hstop) hne
    · rw [hok] at hexhausted
      cases hexhausted
  · intro h
    obtain ⟨units, hunits, hle⟩ := converts_of_sequences h
    rw [convert_all takes_nextCharacter hunits (hle.trans hroom)]

theorem readsUTF8_iff (bytes : List UInt8) : ReadsUTF8 bytes ↔ ¬HasLowSecondByte bytes := by
  constructor
  · intro h hlow
    exact hlow.not_wellFormed (((h bytes.length le_rfl).1).mp
      ((result_iff le_rfl).mpr hlow.sequences))
  · intro h room hroom
    refine ⟨?_, fun text htext => ?_⟩
    · rw [result_iff hroom]
      constructor
      · intro hs
        exact hs.wellFormed_or.resolve_right h
      · rintro ⟨text, rfl⟩
        exact sequences_utf8Form text
    · subst htext
      rw [convertUTF8ToUTF16_eq]
      exact convert_all takes_nextCharacter (converts_utf8Form text)
        (le_trans (length_utf16Form_le text) hroom)

theorem writesUTF8 (units : List UInt16) : WritesUTF8 units := by
  intro hpaired room hroom
  obtain ⟨text, rfl⟩ := hpaired.exists_text
  refine ⟨utf8Form text, ?_, ⟨text, rfl⟩, fun room' hroom' => ?_⟩
  · rw [convertUTF16ToUTF8_eq]
    exact convert_all takes_nextUnits (converts_utf16Form text)
      (le_trans (length_utf8Form_le text) hroom)
  · rw [convertUTF8ToUTF16_eq]
    exact convert_all takes_nextCharacter (converts_utf8Form text)
      (le_trans (length_utf16Form_le text) hroom')

/-- A loop that is a conversion can be resumed. -/
theorem resumes_of_convert
    (htakes : Takes next) (hstop : ∀ source, next source ≠ .stop targetExhausted)
    (hrun : ∀ source room, run source room =
      convert next conversionOK targetExhausted source.length source room)
    (source : List α) (room : ℕ) : Resumes run source room := by
  obtain ⟨-, hle, hends⟩ := @convert_spec _ _ _ next conversionOK targetExhausted htakes _ _
    (le_refl source.length) room
  have hshort : (run source room).source.length ≤ source.length := by
    rw [hrun]
    exact (convert_spec htakes (le_refl source.length) room).1.length_le htakes
  refine ⟨by rw [hrun]; exact hle, fun hexhausted more hmore => ?_, fun more => ?_⟩
  · rw [hrun] at hexhausted hmore ⊢
    rw [hrun source room]
    rcases hends with ⟨-, hok⟩ | ⟨-, hn⟩ | ⟨hne, -, rest, units, hn, hroom⟩
    · rw [hok] at hexhausted
      cases hexhausted
    · rw [hexhausted] at hn
      exact absurd hn (hstop _)
    · generalize convert next conversionOK targetExhausted source.length source room = c at *
      obtain ⟨result, left, target⟩ := c
      cases left with
      | nil => exact absurd rfl hne
      | cons a left =>
        rw [length_cons, convert_emit hn, if_pos (by omega)]
  · rw [hrun, hrun (run source room).source, convert_fuel htakes le_rfl hshort, hrun source room]
    exact convert_resume htakes le_rfl room more

theorem readsSequences_of_converts
    (h : Converts nextCharacter bytes units left) : ReadsSequences bytes units left := by
  induction h with
  | nil bytes => exact .nil bytes
  | cons piece _ ih =>
    obtain ⟨sequence, hsequence, rfl, rfl⟩ := sequence_of_emit piece
    exact .cons hsequence ih

theorem text_of_converts {left : List UInt16} (h : Converts nextUnits units bytes left) :
    ∃ text, units = utf16Form text ++ left ∧ bytes = utf8Form text := by
  induction h with
  | nil units => exact ⟨[], rfl, rfl⟩
  | cons piece _ ih =>
    obtain ⟨c, rfl, rfl⟩ := character_of_emit piece
    obtain ⟨text, rfl, rfl⟩ := ih
    refine ⟨c :: text, ?_, (utf8Form_cons c text).symm⟩
    rw [utf16Form_cons, append_assoc]

theorem nextCharacter_ne_exhausted (source : List UInt8) :
    nextCharacter source ≠ .stop targetExhausted := by
  rcases body_cases source with ⟨piece, rest, rfl, hpiece⟩ | ⟨result, -, hne, hstop⟩
  · rw [(nextCharacter_sequence hpiece rest true 0).1]
    simp
  · rw [nextCharacter, hstop]
    exact fun heq => hne (Next.stop.inj heq)

theorem nextUnits_ne_exhausted : nextUnits source ≠ .stop targetExhausted := by
  rcases nextUnits_cases source with ⟨c, rest, rfl⟩ | ⟨result, hne, hstop⟩
  · rw [nextUnits_character]
    simp
  · rw [hstop]
    exact fun heq => hne (Next.stop.inj heq)

theorem stopsBetweenCharacters (bytes : List UInt8) (units : List UInt16) :
    StopsBetweenCharacters bytes units := by
  intro room
  refine ⟨⟨?_, ?_⟩, ?_, ?_⟩
  · rw [convertUTF8ToUTF16_eq]
    exact readsSequences_of_converts (convert_spec takes_nextCharacter le_rfl room).1
  · exact resumes_of_convert takes_nextCharacter nextCharacter_ne_exhausted
      (convertUTF8ToUTF16_eq true) bytes room
  · rw [convertUTF16ToUTF8_eq]
    exact text_of_converts (convert_spec takes_nextUnits le_rfl room).1
  · exact resumes_of_convert takes_nextUnits nextUnits_ne_exhausted convertUTF16ToUTF8_eq units room

/-- The conversions do what they should exactly on bytes that are not made of sequences with a low
second byte and others that pass. -/
theorem conversions_iff (bytes : List UInt8) (units : List UInt16) :
    (ReadsUTF8 bytes ∧ WritesUTF8 units ∧ StopsBetweenCharacters bytes units) ↔
      ¬HasLowSecondByte bytes := by
  rw [readsUTF8_iff]
  exact ⟨fun h => h.1, fun h => ⟨h, writesUTF8 units, stopsBetweenCharacters bytes units⟩⟩

/-- `ED 41 80` is converted to one character. -/
theorem not_readsUTF8_low : ¬ReadsUTF8 [0xED, 0x41, 0x80] := by
  intro h
  have hpiece : IsLowSecond [0xED, 0x41, 0x80] := ⟨rfl, by decide, by decide⟩
  have hlow : HasLowSecondByte ([0xED, 0x41, 0x80] ++ []) := .here hpiece .nil
  exact hlow.not_wellFormed ((h 3 le_rfl).1.mp (by decide))

end Conversion
end Unicode
end WTF
end WebKit
