import WebKit.HTML.CharacterReferences
import WebKit.Library.Alignment

/-!
# Numeric character references

A numeric reference stands for the character of its number.  The number is computed in a signed word
of 32 bits, which wraps, and is looked at in the end only; so a reference of more than 31 bits may
stand for the character of another number.  `consumeHTMLEntity_number_iff` says when it does not.

* `characterFor`: the text that a number stands for.
* `decodeNumber_eq`: what is made of a word that is not negative.
* `NumberBase`: the three ways to write a number, with the loop on its digits.
-/

namespace WebKit.HTML

open Text
open Text.SegmentedString (Valid)
open List Int32

/-! ## What a number stands for -/

/-- The UTF-16 encoding of a code point. -/
def utf16 (n : ℕ) : List UChar :=
  if n < 0x10000 then [n.toUInt16]
  else [((n - 0x10000) / 0x400 + 0xD800).toUInt16, ((n - 0x10000) % 0x400 + 0xDC00).toUInt16]

def IsSurrogate (n : ℕ) : Prop := 0xD800 ≤ n ∧ n ≤ 0xDFFF

instance (n : ℕ) : Decidable (IsSurrogate n) := inferInstanceAs (Decidable (_ ∧ _))

/-- The text that a numeric reference of this number stands for. -/
def characterFor (n : ℕ) : List UChar :=
  if n = 0 ∨ IsSurrogate n ∨ 0x10FFFF < n then [0xFFFD]
  else if 0x80 ≤ n ∧ n ≤ 0x9F then [windowsLatin1ExtensionArray.getD (n - 0x80) 0]
  else utf16 n

/-! ## Words that are not negative -/

section Words

variable {value : UChar32} {n : ℕ}

variable (hvalue : value.toInt = n)

include hvalue

theorem toBitVec_eq_ofNat : value.toBitVec = BitVec.ofNat 32 n := by
  have h : value = ofInt n := by rw [← hvalue, ofInt_toInt]
  rw [h]
  exact BitVec.ofInt_natCast _ _

omit hvalue in
theorem toInt_of_toBitVec (hvalue : value.toBitVec = BitVec.ofNat 32 n) (hn : n < 2 ^ 31) :
    value.toInt = n := by
  have htoNat : (BitVec.ofNat 32 n).toNat = n := by
    rw [BitVec.toNat_ofNat]
    omega
  rw [← toInt_toBitVec, hvalue, BitVec.toInt_eq_toNat_of_lt (by rw [htoNat]; omega), htoNat]

theorem toUChar_eq : toUChar value = n.toUInt16 := by
  rw [toUChar, hvalue]
  have h : ((n : ℤ) % 2 ^ 16).toNat = n % 2 ^ 16 := by omega
  rw [h]
  exact UInt16.toNat_inj.mp (by simp)

omit hvalue in
theorem isBMP_iff (value : UChar32) :
    isBMP value = true ↔ 0 ≤ value.toInt ∧ value.toInt ≤ 0xFFFF := by
  rw [isBMP, Bool.and_eq_true, decide_eq_true_eq, decide_eq_true_eq, le_iff_toInt_le,
    le_iff_toInt_le]
  rfl

/-- The bits that `adjustEntity` looks at. -/
theorem masked_eq_iff (hn : n < 2 ^ 31) :
    value &&& ~~~0x1F = 0x80 ↔ 0x80 ≤ n ∧ n ≤ 0x9F := by
  have hmask := Alignment.toNat_and_not_mask (k := 5) (show n < 2 ^ 32 by omega)
  have hround : value &&& ~~~0x1F = 0x80 ↔ n / 2 ^ 5 * 2 ^ 5 = 0x80 := by
    rw [← hmask, ← toBitVec_eq_ofNat hvalue]
    constructor
    · exact fun h => congrArg (fun x => x.toBitVec.toNat) h
    · exact fun h => toBitVec.inj (BitVec.eq_of_toNat_eq h)
  rw [hround]
  omega

theorem adjustEntity_eq (hn : n < 2 ^ 31) :
    adjustEntity value = if 0x80 ≤ n ∧ n ≤ 0x9F then windowsLatin1ExtensionArray.getD (n - 0x80) 0
      else n.toUInt16 := by
  rw [adjustEntity]
  by_cases h : 0x80 ≤ n ∧ n ≤ 0x9F
  · rw [if_neg (not_not_intro ((masked_eq_iff hvalue hn).mpr h)), if_pos h]
    have hsub : (value - 0x80).toInt = (n - 0x80 : ℕ) := by
      rw [toInt_sub, show (0x80 : UChar32).toInt = 0x80 from rfl]
      exact (Int.bmod_eq_of_le (by omega) (by omega)).trans (by omega)
    rw [hsub, Int.toNat_natCast]
  · rw [if_pos (mt (masked_eq_iff hvalue hn).mp h), if_neg h, toUChar_eq hvalue]

theorem surrogates_eq (hlow : 0x10000 ≤ n) (hhigh : n ≤ 0x10FFFF) :
    surrogates value = utf16 n := by
  have hlead : ((value >>> 10) + 0xD7C0).toInt = (n / 0x400 + 0xD7C0 : ℕ) := by
    have hshift : (value >>> 10).toInt = (n / 0x400 : ℕ) := by
      show (value.toBitVec.sshiftRight 10).toInt = _
      rw [BitVec.toInt_sshiftRight, toInt_toBitVec, hvalue, Int.shiftRight_eq_div_pow]
      norm_cast
    rw [toInt_add, hshift, show (0xD7C0 : UChar32).toInt = 0xD7C0 from rfl]
    exact Int.bmod_eq_of_le (by omega) (by omega)
  have htrail : ((value &&& 0x3FF) ||| 0xDC00).toInt = (n % 0x400 + 0xDC00 : ℕ) := by
    refine toInt_of_toBitVec ?_ (by omega)
    rw [Int32.toBitVec_or, Int32.toBitVec_and, toBitVec_eq_ofNat hvalue]
    refine BitVec.eq_of_toNat_eq ?_
    show (n % 2 ^ 32 &&& 0x3FF) ||| 0xDC00 = (n % 0x400 + 0xDC00) % 2 ^ 32
    have hmod : n % 2 ^ 32 &&& 0x3FF = n % 0x400 := by
      rw [show (0x3FF : ℕ) = 2 ^ 10 - 1 from rfl, Nat.and_two_pow_sub_one_eq_mod]
      omega
    have hor := Nat.shiftLeft_add_eq_or_of_lt (show n % 0x400 < 2 ^ 10 by omega) 55
    rw [Nat.shiftLeft_eq] at hor
    rw [hmod, Nat.or_comm, show (0xDC00 : ℕ) = 55 * 2 ^ 10 from rfl]
    omega
  rw [surrogates, toUChar_eq hlead, toUChar_eq htrail, utf16, if_neg (by omega)]
  have h₁ : n / 0x400 + 0xD7C0 = (n - 0x10000) / 0x400 + 0xD800 := by omega
  have h₂ : n % 0x400 = (n - 0x10000) % 0x400 := by omega
  rw [h₁, h₂]

omit hvalue

theorem convertToUTF16_ofInt (c : UChar) : convertToUTF16 (ofInt c.toNat) = [c] := by
  have hlt : c.toNat < 2 ^ 16 := c.toNat_lt
  have htoInt : (ofInt c.toNat).toInt = (c.toNat : ℤ) :=
    toInt_ofInt_of_le (by omega) (by omega)
  rw [convertToUTF16, if_pos ((isBMP_iff _).mpr (by rw [htoInt]; omega)), toUChar_eq htoInt]
  exact congrArg (fun c => [c]) (UInt16.ofNat_toNat)

theorem legalEntityFor_replaced_iff (value : UChar32) :
    (value = 0 ∨ value > 0x10FFFF ∨ (value ≥ 0xD800 ∧ value ≤ 0xDFFF)) ↔
      value.toInt = 0 ∨ 0x10FFFF < value.toInt ∨ (0xD800 ≤ value.toInt ∧ value.toInt ≤ 0xDFFF) := by
  rw [← toInt_inj, gt_iff_lt, lt_iff_toInt_lt, ge_iff_le, le_iff_toInt_le, le_iff_toInt_le]
  rfl

/-- The numbers below 2 ^ 31 are decoded as they should be. -/
theorem decodeNumber_eq (hvalue : value.toInt = n) (hn : n < 2 ^ 31) :
    decodeNumber value = characterFor n := by
  rw [decodeNumber, legalEntityFor, characterFor]
  by_cases hreplaced : n = 0 ∨ IsSurrogate n ∨ 0x10FFFF < n
  · rw [if_pos hreplaced, if_pos ((legalEntityFor_replaced_iff value).mpr (by
      rw [hvalue]; unfold IsSurrogate at hreplaced; omega))]
    exact convertToUTF16_ofInt 0xFFFD
  · rw [if_neg hreplaced, if_neg (mt (legalEntityFor_replaced_iff value).mp (by
      rw [hvalue]; unfold IsSurrogate at hreplaced; omega))]
    by_cases hbmp : n ≤ 0xFFFF
    · rw [if_pos ((isBMP_iff value).mpr (by rw [hvalue]; omega)), convertToUTF16_ofInt,
        adjustEntity_eq hvalue hn, utf16, if_pos (show n < 0x10000 by omega)]
      split <;> rfl
    · have hnot : ¬ isBMP value = true := mt (isBMP_iff value).mp (by rw [hvalue]; omega)
      rw [if_neg hnot, convertToUTF16, if_neg hnot, if_neg (by omega),
        surrogates_eq hvalue (by omega) (by omega)]

theorem windowsLatin1ExtensionArray_ne :
    ∀ i < 32, windowsLatin1ExtensionArray.getD i 0 ≠ 0xFFFD := by
  decide

/-- The words that are taken for the replacement character. -/
theorem decodeNumber_eq_replacement_iff (value : UChar32) : decodeNumber value = [0xFFFD] ↔
    value.toInt = 0 ∨ (0xD800 ≤ value.toInt ∧ value.toInt ≤ 0xDFFF) ∨ value.toInt = 0xFFFD ∨
      0x10FFFF < value.toInt := by
  by_cases hneg : value.toInt < 0
  · -- a negative word is neither replaced nor one unit
    have hnot : ¬ isBMP value = true := mt (isBMP_iff value).mp (by omega)
    rw [decodeNumber, legalEntityFor, if_neg (mt (legalEntityFor_replaced_iff value).mp (by omega)),
      if_neg hnot, convertToUTF16, if_neg hnot]
    constructor
    · exact fun h => absurd (congrArg List.length h) (by simp [surrogates])
    · omega
  · obtain ⟨n, hvalue⟩ := Int.eq_ofNat_of_zero_le (not_lt.mp hneg)
    have hn : n < 2 ^ 31 := by
      have := value.toInt_lt
      omega
    rw [decodeNumber_eq hvalue hn, hvalue, characterFor]
    by_cases hreplaced : n = 0 ∨ IsSurrogate n ∨ 0x10FFFF < n
    · rw [if_pos hreplaced]
      refine ⟨fun _ => ?_, fun _ => rfl⟩
      unfold IsSurrogate at hreplaced
      omega
    · rw [if_neg hreplaced]
      have hiff : ((n : ℤ) = 0 ∨ (0xD800 ≤ (n : ℤ) ∧ (n : ℤ) ≤ 0xDFFF) ∨ (n : ℤ) = 0xFFFD ∨
          0x10FFFF < (n : ℤ)) ↔ n = 0xFFFD := by
        unfold IsSurrogate at hreplaced
        omega
      rw [hiff]
      by_cases hwindows : 0x80 ≤ n ∧ n ≤ 0x9F
      · rw [if_pos hwindows]
        constructor
        · exact fun h => absurd (singleton_inj.mp h)
            (windowsLatin1ExtensionArray_ne (n - 0x80) (by omega))
        · omega
      · rw [if_neg hwindows, utf16]
        by_cases hbmp : n < 0x10000
        · rw [if_pos hbmp]
          constructor
          · intro h
            have htoNat := congrArg UInt16.toNat (singleton_inj.mp h)
            change n % 2 ^ 16 = 0xFFFD at htoNat
            omega
          · rintro rfl
            rfl
        · rw [if_neg hbmp]
          constructor
          · exact fun h => absurd (congrArg List.length h) (by simp)
          · omega

end Words

/-! ## Reading the digits -/

/-- How a number is written: with decimal digits, or with hexadecimal ones after a letter. -/
inductive NumberBase
  | decimal
  | hexLowerCaseX
  | hexUpperCaseX
  deriving DecidableEq

namespace NumberBase

/-- What is before the digits. -/
def introduction : NumberBase → List UChar
  | decimal => [ch '#']
  | hexLowerCaseX => [ch '#', ch 'x']
  | hexUpperCaseX => [ch '#', ch 'X']

def radix : NumberBase → ℕ
  | decimal => 10
  | _ => 16

def isDigit : NumberBase → UChar → Bool
  | decimal, cc => isASCIIDigit cc
  | _, cc => isHexDigit cc

def digitValue (cc : UChar) : ℕ :=
  if isASCIIDigit cc then cc.toNat - 48
  else if ch 'a' ≤ cc then cc.toNat - 87
  else cc.toNat - 55

/-- The number with more digits at its end. -/
def extend (base : NumberBase) (n : ℕ) (digits : List UChar) : ℕ :=
  digits.foldl (fun n cc => n * base.radix + digitValue cc) n

/-- The number that the digits are. -/
def value (base : NumberBase) (digits : List UChar) : ℕ := base.extend 0 digits

/-- The state of the loop on the digits. -/
def state : NumberBase → EntityState
  | decimal => .decimal
  | _ => .hex

theorem isASCIIDigit_iff (cc : UChar) : isASCIIDigit cc = true ↔ 48 ≤ cc.toNat ∧ cc.toNat ≤ 57 := by
  rw [isASCIIDigit, Bool.and_eq_true, decide_eq_true_eq, decide_eq_true_eq]
  rfl

variable {cc c : UChar} {digits : List UChar}

/-- The step of the word is the step of the number. -/
theorem addHexDigit_ofInt (hcc : isHexDigit cc = true) (n : ℕ) :
    addHexDigit (ofInt n) cc = ofInt (n * 16 + digitValue cc : ℕ) := by
  have hten : (10 : UChar32) = ofInt 10 := rfl
  have hsixteen : (16 : UChar32) = ofInt 16 := rfl
  unfold addHexDigit digitValue offsetFrom
  by_cases hdigit : isASCIIDigit cc = true
  · have h := (isASCIIDigit_iff cc).mp hdigit
    rw [if_pos hdigit, if_pos hdigit, hsixteen, ← ofInt_mul, ← ofInt_add]
    congr 1
    show (n : ℤ) * 16 + ((cc.toNat : ℤ) - (48 : ℕ)) = _
    omega
  · rw [if_neg hdigit, if_neg hdigit]
    have hletter : (97 ≤ cc.toNat ∧ cc.toNat ≤ 102) ∨ (65 ≤ cc.toNat ∧ cc.toNat ≤ 70) := by
      have hbool : isASCIIDigit cc = false := Bool.not_eq_true _ ▸ hdigit
      rw [isHexDigit, hbool, Bool.false_or, Bool.or_eq_true, Bool.and_eq_true, Bool.and_eq_true,
        decide_eq_true_eq, decide_eq_true_eq, decide_eq_true_eq, decide_eq_true_eq] at hcc
      exact hcc
    have hle : ch 'a' ≤ cc ↔ 97 ≤ cc.toNat := Iff.rfl
    by_cases hlower : ch 'a' ≤ cc
    · have h := hle.mp hlower
      rw [if_pos hlower, if_pos hlower, hsixteen, hten, ← ofInt_mul, ← ofInt_add, ← ofInt_add]
      congr 1
      show (n : ℤ) * 16 + 10 + ((cc.toNat : ℤ) - (97 : ℕ)) = _
      omega
    · rw [if_neg hlower, if_neg hlower, hsixteen, hten, ← ofInt_mul, ← ofInt_add, ← ofInt_add]
      congr 1
      show (n : ℤ) * 16 + 10 + ((cc.toNat : ℤ) - (65 : ℕ)) = _
      omega

variable (additionalAllowedCharacter : UChar)

/-- The loop at a digit. -/
theorem referenceStep_digit (base : NumberBase) (hcc : base.isDigit cc = true) (n : ℕ) :
    referenceStep additionalAllowedCharacter (ofInt n) cc base.state =
      .consume base.state (ofInt (n * base.radix + digitValue cc : ℕ)) := by
  have hdecimal : isASCIIDigit cc = true → decimalStep (ofInt n) cc =
      .consume .decimal (ofInt (n * 10 + digitValue cc : ℕ)) := by
    intro hcc
    have h := (isASCIIDigit_iff cc).mp hcc
    rw [decimalStep, if_pos hcc, digitValue, if_pos hcc, offsetFrom,
      show (10 : UChar32) = ofInt 10 from rfl, ← ofInt_mul, ← ofInt_add]
    congr 2
    show (n : ℤ) * 10 + ((cc.toNat : ℤ) - (48 : ℕ)) = _
    omega
  have hhex : isHexDigit cc = true → hexStep (ofInt n) cc =
      .consume .hex (ofInt (n * 16 + digitValue cc : ℕ)) := by
    intro hcc
    rw [hexStep, if_pos hcc, addHexDigit_ofInt hcc]
  cases base with
  | decimal => exact hdecimal hcc
  | _ => exact hhex hcc

/-- The loop behind the digits. -/
theorem referenceStep_end (base : NumberBase) (hc : base.isDigit c = false) (result : UChar32) :
    referenceStep additionalAllowedCharacter result c base.state =
      .finish result (c == ch ';') := by
  have hne : ∀ {b : Bool}, b = false → ¬ b = true := fun h => by rw [h]; exact Bool.false_ne_true
  cases base with
  | _ => exact if_neg (hne hc)

variable (table : HTMLEntityTable)

variable (base : NumberBase)

/-- The digits that are left, with those already read in the word. -/
theorem readReferenceFrom_digits
    (hdigits : ∀ d ∈ digits, base.isDigit d = true) (hc : base.isDigit c = false)
    (rest : List UChar) (n count : ℕ) :
    readReferenceFrom table additionalAllowedCharacter base.state (ofInt n) count
        (digits ++ c :: rest) =
      (.success (decodeNumber (ofInt (base.extend n digits))),
        count + digits.length + if c = ch ';' then 1 else 0) := by
  induction digits generalizing n count with
  | nil =>
    rw [nil_append, readReferenceFrom, referenceStep_end _ _ hc]
    simp [extend]
  | cons d digits ih =>
    rw [cons_append, readReferenceFrom, referenceStep_digit _ _ (hdigits d mem_cons_self)]
    dsimp only
    rw [ih (fun d' hd' => hdigits d' (mem_cons_of_mem _ hd'))]
    have hlen : count + 1 + digits.length = count + (d :: digits).length := by
      rw [length_cons]
      omega
    rw [hlen]
    rfl

theorem readReferenceFrom_consume {state : EntityState}
    (h : referenceStep additionalAllowedCharacter result cc state = .consume state' result')
    (count : ℕ) (text : List UChar) :
    readReferenceFrom table additionalAllowedCharacter state result count (cc :: text) =
      readReferenceFrom table additionalAllowedCharacter state' result' (count + 1) text := by
  rw [readReferenceFrom, h]

theorem readReferenceFrom_congr {state : EntityState}
    (h : referenceStep additionalAllowedCharacter result cc state =
      referenceStep additionalAllowedCharacter result cc state') (count : ℕ) (text : List UChar) :
    readReferenceFrom table additionalAllowedCharacter state result count (cc :: text) =
      readReferenceFrom table additionalAllowedCharacter state' result count (cc :: text) := by
  rw [readReferenceFrom, readReferenceFrom, h]

/-- The first digit is read as any other. -/
theorem readReference_introduction
    (hadditional : additionalAllowedCharacter ≠ ch '#') (hd : base.isDigit d = true)
    (text : List UChar) :
    readReference table additionalAllowedCharacter (base.introduction ++ d :: text) =
      readReferenceFrom table additionalAllowedCharacter base.state 0 base.introduction.length
        (d :: text) := by
  have hhash : referenceStep additionalAllowedCharacter 0 (ch '#') .initial = .consume .number 0 := by
    rw [referenceStep, if_neg (by decide), if_neg (fun h => hadditional h.2.symm), if_pos rfl]
  cases base with
  | decimal =>
    have hdigit : isASCIIDigit d = true := hd
    have hne : d ≠ ch 'x' ∧ d ≠ ch 'X' := by
      constructor
      all_goals
        rintro rfl
        exact absurd hdigit (by decide)
    have hfirst : referenceStep additionalAllowedCharacter 0 d .number =
        referenceStep additionalAllowedCharacter 0 d .decimal := by
      unfold referenceStep
      rw [if_neg hne.1, if_neg hne.2, if_pos hdigit]
    exact (readReferenceFrom_consume _ table hhash 0 (d :: text)).trans
      (readReferenceFrom_congr _ table hfirst 1 text)
  | hexLowerCaseX =>
    have hfirst : referenceStep additionalAllowedCharacter 0 d .maybeHexLowerCaseX =
        referenceStep additionalAllowedCharacter 0 d .hex := if_pos hd
    exact ((readReferenceFrom_consume _ table hhash 0 (ch 'x' :: d :: text)).trans
      (readReferenceFrom_consume _ table rfl 1 (d :: text))).trans
      (readReferenceFrom_congr _ table hfirst 2 text)
  | hexUpperCaseX =>
    have hfirst : referenceStep additionalAllowedCharacter 0 d .maybeHexUpperCaseX =
        referenceStep additionalAllowedCharacter 0 d .hex := if_pos hd
    exact ((readReferenceFrom_consume _ table hhash 0 (ch 'X' :: d :: text)).trans
      (readReferenceFrom_consume _ table rfl 1 (d :: text))).trans
      (readReferenceFrom_congr _ table hfirst 2 text)

/-- What a numeric reference is read as. -/
theorem readReference_number (hadditional : additionalAllowedCharacter ≠ ch '#') (hne : digits ≠ [])
    (hdigits : ∀ d ∈ digits, base.isDigit d = true) (hc : base.isDigit c = false)
    (rest : List UChar) :
    readReference table additionalAllowedCharacter (base.introduction ++ digits ++ c :: rest) =
      (.success (decodeNumber (ofInt (base.value digits))),
        (base.introduction ++ digits).length + if c = ch ';' then 1 else 0) := by
  obtain ⟨d, digits, rfl⟩ := exists_cons_of_ne_nil hne
  rw [append_assoc, cons_append, readReference_introduction _ table base hadditional
    (hdigits d mem_cons_self), ← cons_append]
  rw [show (0 : UChar32) = ofInt (0 : ℕ) from rfl,
    readReferenceFrom_digits _ table base hdigits hc, length_append]
  rfl

theorem head?_introduction (text : List UChar) :
    (base.introduction ++ text).head? = some (ch '#') := by
  cases base <;> rfl

/-- Two characters pushed back are `#` and what follows it in a numeric reference. -/
theorem keepsReading_number (hne : digits ≠ []) (hdigits : ∀ d ∈ digits, base.isDigit d = true)
    (hpushed : pushed <+: base.introduction ++ digits ++ text) : KeepsReading table pushed := by
  rintro a b rfl
  obtain ⟨d, digits, rfl⟩ := exists_cons_of_ne_nil hne
  obtain ⟨more, hmore⟩ := hpushed
  cases base with
  | decimal =>
    obtain ⟨rfl, hb⟩ := cons_eq_cons.mp hmore
    obtain ⟨rfl, -⟩ := cons_eq_cons.mp hb
    exact .inl ⟨rfl, .inr (.inr (hdigits b mem_cons_self))⟩
  | hexLowerCaseX =>
    obtain ⟨rfl, hb⟩ := cons_eq_cons.mp hmore
    obtain ⟨rfl, -⟩ := cons_eq_cons.mp hb
    exact .inl ⟨rfl, .inl rfl⟩
  | hexUpperCaseX =>
    obtain ⟨rfl, hb⟩ := cons_eq_cons.mp hmore
    obtain ⟨rfl, -⟩ := cons_eq_cons.mp hb
    exact .inl ⟨rfl, .inr (.inl rfl)⟩

end NumberBase

/-- The word of 32 bits that is left of a number gives the right character: the number has 31 bits at
most, or what is left is taken for the replacement character. -/
def SurvivesWrapping (n : ℕ) : Prop :=
  n < 2 ^ 31 ∨ n % 2 ^ 32 = 0 ∨ IsSurrogate (n % 2 ^ 32) ∨ n % 2 ^ 32 = 0xFFFD ∨
    0x10FFFF < n % 2 ^ 32 ∧ n % 2 ^ 32 < 2 ^ 31

theorem decodeNumber_ofInt_iff (n : ℕ) :
    decodeNumber (ofInt n) = characterFor n ↔ SurvivesWrapping n := by
  by_cases hn : n < 2 ^ 31
  · have hvalue : (ofInt n).toInt = n := toInt_ofInt_of_le (by omega) (by omega)
    exact ⟨fun _ => .inl hn, fun _ => decodeNumber_eq hvalue hn⟩
  · rw [characterFor, if_pos (Or.inr (Or.inr (by omega))), decodeNumber_eq_replacement_iff,
      toInt_ofInt]
    have hwrap : (n : ℤ).bmod size =
        if n % 2 ^ 32 < 2 ^ 31 then ((n % 2 ^ 32 : ℕ) : ℤ) else ((n % 2 ^ 32 : ℕ) : ℤ) - 2 ^ 32 := by
      rw [show size = 4294967296 from rfl, Int.bmod_def]
      split <;> split <;> omega
    rw [hwrap]
    unfold SurvivesWrapping IsSurrogate
    split <;> omega

/-- A numeric reference with any digits, before a character that is no digit, is consumed with a
semicolon behind it and decoded; and it is decoded as the character of its number exactly when this
number survives the wrapping of the word it is computed in. -/
theorem consumeHTMLEntity_number_iff (table : HTMLEntityTable) (base : NumberBase)
    {digits : List UChar} (hne : digits ≠ []) (hdigits : ∀ d ∈ digits, base.isDigit d = true)
    {c : UChar} (hc : base.isDigit c = false) (rest : List UChar) {source : SegmentedString}
    {closed : Bool} (hsource : Spells source (base.introduction ++ digits ++ c :: rest) closed)
    {additionalAllowedCharacter : UChar} (hadditional : additionalAllowedCharacter ≠ ch '#') :
    Spells (consumeHTMLEntity table source additionalAllowedCharacter).1
        (if c = ch ';' then rest else c :: rest) closed ∧
      ((consumeHTMLEntity table source additionalAllowedCharacter).2 =
          .success (characterFor (base.value digits)) ↔ SurvivesWrapping (base.value digits)) := by
  have hleaves := consumeHTMLEntity_leaves hsource
    (NumberBase.keepsReading_number table base hne hdigits hsource.pushed_prefix)
    (.inr (.inr (by rw [append_assoc]; exact base.head?_introduction _))) additionalAllowedCharacter
  rw [NumberBase.readReference_number _ table base hadditional hne hdigits hc] at hleaves
  constructor
  · have hspells := hleaves.spells
    have hdrop : (base.introduction ++ digits ++ c :: rest).drop
        ((base.introduction ++ digits).length + if c = ch ';' then 1 else 0) =
        if c = ch ';' then rest else c :: rest := by
      rw [drop_append]
      split <;> simp
    rwa [hdrop] at hspells
  · rw [hleaves.reference, ← decodeNumber_ofInt_iff]
    constructor
    · exact fun h => Reference.success.inj h
    · exact fun h => congrArg Reference.success h

/-- A table without names. -/
def HTMLEntityTable.empty : HTMLEntityTable where
  entries := []
  firstEntryStartingWith _ := none
  lastEntryStartingWith _ := none
  sorted := List.Pairwise.nil
  letters _ _ h := nomatch h
  offsets _ _ _ h := nomatch h

/-- `&#65;` -/
theorem consumeHTMLEntity_number_iff_65 :
    (consumeHTMLEntity .empty (SegmentedString.ofString ("#65;".toList.map ch)) 0).2 =
        .success (characterFor 65) ↔ SurvivesWrapping 65 :=
  (consumeHTMLEntity_number_iff .empty .decimal (show [ch '6', ch '5'] ≠ [] by decide)
    (forall_mem_cons.mpr ⟨by decide, forall_mem_singleton.mpr (by decide)⟩)
    (c := ch ';') (by decide) [] (spells_ofString ("#65;".toList.map ch)) (by decide)).2

/-- `&#4294967361;`, whose number is 2 ^ 32 and 65, is decoded as the letter A. -/
theorem not_consumeHTMLEntity_number_wrapped :
    let digits := "4294967361".toList.map ch
    (consumeHTMLEntity .empty (SegmentedString.ofString (ch '#' :: digits ++ [ch ';'])) 0).2 =
        .success [ch 'A'] ∧
      characterFor (NumberBase.decimal.value digits) = [0xFFFD] := by
  decide

end WebKit.HTML
