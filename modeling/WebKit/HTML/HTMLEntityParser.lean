import WebKit.HTML.HTMLEntitySearch
import WebKit.Text.SegmentedText

/-!
# Character references

`consumeHTMLEntity` reads a character reference, the text after an ampersand, from a segmented
string.  It consumes the reference, or gives back what it looked at: one or two characters are pushed
back, more are put in front as a string.

* `consumeHTMLEntity`: the function of the source with the loops it is made of.
* `readReference`: the same on plain text, which says how many characters are consumed.
-/

namespace WebKit.HTML

open Text
open Text.SegmentedString (Valid)

/-! ## The parser functions -/

def isHexDigit (cc : UChar) : Bool :=
  isASCIIDigit cc || (decide (ch 'a' ≤ cc) && decide (cc ≤ ch 'f')) ||
    (decide (ch 'A' ≤ cc) && decide (cc ≤ ch 'F'))

/-- `isTokenizerWhitespace`: a space, a newline, a tab or a form feed. -/
def isTokenizerWhitespace (cc : UChar) : Bool := cc == ch ' ' || cc == newline || cc == 9 || cc == 12

def windowsLatin1ExtensionArray : List UChar :=
  [0x20AC, 0x0081, 0x201A, 0x0192, 0x201E, 0x2026, 0x2020, 0x2021,
   0x02C6, 0x2030, 0x0160, 0x2039, 0x0152, 0x008D, 0x017D, 0x008F,
   0x0090, 0x2018, 0x2019, 0x201C, 0x201D, 0x2022, 0x2013, 0x2014,
   0x02DC, 0x2122, 0x0161, 0x203A, 0x0153, 0x009D, 0x017E, 0x0178]

variable (value : UChar32)

/-- `static_cast<UChar>`. -/
def toUChar : UChar := UInt16.ofNat (value.toInt % 2 ^ 16).toNat

/-- A digit, or the distance of a letter from the letter given, as a code point. -/
def offsetFrom (cc base : UChar) : UChar32 := Int32.ofInt ((cc.toNat : ℤ) - base.toNat)

def adjustEntity : UChar :=
  if value &&& ~~~0x1F ≠ 0x80 then toUChar value
  else windowsLatin1ExtensionArray.getD (value - 0x80).toInt.toNat 0

/-- `U_IS_BMP`. -/
def isBMP : Bool := decide (0 ≤ value) && decide (value ≤ 0xFFFF)

def legalEntityFor : UChar32 :=
  if value = 0 ∨ value > 0x10FFFF ∨ (value ≥ 0xD800 ∧ value ≤ 0xDFFF) then 0xFFFD
  else if isBMP value then Int32.ofInt (adjustEntity value).toNat
  else value

/-- `U16_LEAD` and `U16_TRAIL`. -/
def surrogates : List UChar :=
  [toUChar ((value >>> 10) + 0xD7C0), toUChar ((value &&& 0x3FF) ||| 0xDC00)]

def convertToUTF16 : List UChar :=
  if isBMP value then [toUChar value] else surrogates value

/-- What a numeric reference stands for. -/
def decodeNumber (result : UChar32) : List UChar := convertToUTF16 (legalEntityFor result)

/-- What a name of the table stands for. -/
def decodeEntry (entry : HTMLEntityTableEntry) : List UChar :=
  convertToUTF16 entry.firstValue ++
    if entry.secondValue ≠ 0 then convertToUTF16 entry.secondValue else []

/-! ## Reading from a segmented string -/

/-- The outcome of reading a reference: the characters decoded in case of success, or that there are
not enough characters. -/
inductive Reference
  | notEnoughCharacters
  | failure
  | success (decodedCharacter : List UChar)
  deriving DecidableEq

def unconsumeCharacters (source : SegmentedString) : List UChar → SegmentedString
  | [c] => source.push c
  | [c, d] => (source.push c).push d
  | consumedCharacters => source.prepend (SegmentedString.ofString consumedCharacters)

variable (result : UChar32) (cc : UChar)

/-- The value of a hexadecimal digit added to a number. -/
def addHexDigit : UChar32 :=
  if isASCIIDigit cc then result * 16 + offsetFrom cc (ch '0')
  else if ch 'a' ≤ cc then result * 16 + 10 + offsetFrom cc (ch 'a')
  else result * 16 + 10 + offsetFrom cc (ch 'A')

/-- `EntityState`, less `Named`, which is left at once. -/
inductive EntityState
  | initial
  | number
  | maybeHexLowerCaseX
  | maybeHexUpperCaseX
  | hex
  | decimal
  deriving DecidableEq

/-- What the loop does at a character: it consumes the character and goes on in a state with a
result, ends with a number (and takes the character when it is a semicolon), gives characters back
and fails, or goes on with a name. -/
inductive ReferenceStep
  | consume (state : EntityState) (result : UChar32)
  | finish (result : UChar32) (takesSemicolon : Bool)
  | giveBack (characters : List UChar)
  | named
  deriving DecidableEq

def hexStep : ReferenceStep :=
  if isHexDigit cc then .consume .hex (addHexDigit result cc)
  else .finish result (cc == ch ';')

def decimalStep : ReferenceStep :=
  if isASCIIDigit cc then .consume .decimal (result * 10 + offsetFrom cc (ch '0'))
  else .finish result (cc == ch ';')

/-- The body of the loop of `consumeCharacterReference`.  A `continue` is the case of the new state
on the same character. -/
def referenceStep (additionalAllowedCharacter : UChar) (result : UChar32) (cc : UChar) :
    EntityState → ReferenceStep
  | .initial =>
    if isTokenizerWhitespace cc ∨ cc = ch '<' ∨ cc = ch '&' then .giveBack []
    else if additionalAllowedCharacter ≠ 0 ∧ cc = additionalAllowedCharacter then .giveBack []
    else if cc = ch '#' then .consume .number result
    else if isASCIILower cc ∨ isASCIIUpper cc then .named
    else .giveBack []
  | .number =>
    if cc = ch 'x' then .consume .maybeHexLowerCaseX result
    else if cc = ch 'X' then .consume .maybeHexUpperCaseX result
    else if isASCIIDigit cc then decimalStep result cc
    else .giveBack [ch '#']
  | .maybeHexLowerCaseX => if isHexDigit cc then hexStep result cc else .giveBack [ch '#', ch 'x']
  | .maybeHexUpperCaseX => if isHexDigit cc then hexStep result cc else .giveBack [ch '#', ch 'X']
  | .hex => hexStep result cc
  | .decimal => decimalStep result cc

section Parser

variable (table : HTMLEntityTable)

/-- The loop of `consumeNamedEntity` over at most the number of characters given, with the characters
consumed. -/
def searchName : ℕ → SegmentedString → HTMLEntitySearch → List UChar →
    SegmentedString × HTMLEntitySearch × List UChar
  | 0, source, search, consumedCharacters => (source, search, consumedCharacters)
  | fuel + 1, source, search, consumedCharacters =>
    match source.current with
    | none => (source, search, consumedCharacters)
    | some cc =>
      let advanced := search.advance table cc
      if advanced.isEntityPrefix then
        searchName fuel source.advance advanced (consumedCharacters ++ [cc])
      else (source, advanced, consumedCharacters)

variable (source : SegmentedString) (additionalAllowedCharacter : UChar)

/-- The end of `consumeNamedEntity`, with the characters consumed for the match. -/
def finishNamedEntity (entry : HTMLEntityTableEntry) (consumedCharacters : List UChar) :
    SegmentedString × Reference :=
  let cc := source.current.getD 0
  if entry.lastCharacter = ch ';' ∨ additionalAllowedCharacter = 0 ∨
      ¬(isAlphaNumeric cc ∨ cc = ch '=') then
    (source, .success (decodeEntry entry))
  else (unconsumeCharacters source consumedCharacters, .failure)

def consumeNamedEntity : SegmentedString × Reference :=
  let searched := searchName table source.length source (HTMLEntitySearch.start table) []
  if searched.1.isEmpty then
    (unconsumeCharacters searched.1 searched.2.2, .notEnoughCharacters)
  else
    match searched.2.1.mostRecentMatch with
    | none => (unconsumeCharacters searched.1 searched.2.2, .failure)
    | some entry =>
      if entry.length ≠ searched.2.1.currentLength then
        -- Too many characters are consumed: all go back, and those of the match are taken again.
        let again := (unconsumeCharacters searched.1 searched.2.2).advanceCount entry.length
        finishNamedEntity again.1 additionalAllowedCharacter entry again.2
      else finishNamedEntity searched.1 additionalAllowedCharacter entry searched.2.2

/-- `source.push` for each of the characters. -/
def pushCharacters (source : SegmentedString) (characters : List UChar) : SegmentedString :=
  characters.foldl SegmentedString.push source

/-- The loop of `consumeCharacterReference` over at most the number of characters given. -/
def consumeReferenceLoop (additionalAllowedCharacter : UChar) :
    ℕ → SegmentedString → EntityState → UChar32 → List UChar → SegmentedString × Reference
  | 0, source, _, _, consumedCharacters =>
    (unconsumeCharacters source consumedCharacters, .notEnoughCharacters)
  | fuel + 1, source, state, result, consumedCharacters =>
    match source.current with
    | none => (unconsumeCharacters source consumedCharacters, .notEnoughCharacters)
    | some cc =>
      match referenceStep additionalAllowedCharacter result cc state with
      | .consume state result =>
        consumeReferenceLoop additionalAllowedCharacter fuel source.advance state result
          (consumedCharacters ++ [cc])
      | .finish result takesSemicolon =>
        (if takesSemicolon then source.advance else source, .success (decodeNumber result))
      | .giveBack characters => (pushCharacters source characters, .failure)
      | .named => consumeNamedEntity table source additionalAllowedCharacter

def consumeHTMLEntity : SegmentedString × Reference :=
  consumeReferenceLoop table additionalAllowedCharacter source.length source .initial 0 []

/-! ## Reading from plain text -/

/-- The search for a name: the search at its end with the number of characters it accepted, unless
the text ends first. -/
def searchText (search : HTMLEntitySearch) : List UChar → Option (HTMLEntitySearch × ℕ)
  | [] => none
  | cc :: text =>
    let advanced := search.advance table cc
    if advanced.isEntityPrefix then (searchText advanced text).map fun r => (r.1, r.2 + 1)
    else some (advanced, 0)

/-- A reference that is read, with the number of characters it takes. -/
abbrev ReadReference := Reference × ℕ

def notEnough : ReadReference := (.notEnoughCharacters, 0)

def noReference : ReadReference := (.failure, 0)

def readName (additionalAllowedCharacter : UChar) (text : List UChar) : ReadReference :=
  match searchText table (HTMLEntitySearch.start table) text with
  | none => notEnough
  | some (search, _) =>
    match search.mostRecentMatch with
    | none => noReference
    | some entry =>
      let cc := (text[entry.length]?).getD 0
      if entry.lastCharacter = ch ';' ∨ additionalAllowedCharacter = 0 ∨
          ¬(isAlphaNumeric cc ∨ cc = ch '=') then
        (.success (decodeEntry entry), entry.length)
      else noReference

/-- Reads the rest of a reference after a number of characters. -/
def readReferenceFrom (additionalAllowedCharacter : UChar) (state : EntityState) (result : UChar32)
    (count : ℕ) : List UChar → ReadReference
  | [] => notEnough
  | cc :: text =>
    match referenceStep additionalAllowedCharacter result cc state with
    | .consume state result =>
      readReferenceFrom additionalAllowedCharacter state result (count + 1) text
    | .finish result takesSemicolon =>
      (.success (decodeNumber result), count + if takesSemicolon then 1 else 0)
    | .giveBack _ => noReference
    | .named => readName table additionalAllowedCharacter (cc :: text)

/-- The reference at the start of a text. -/
def readReference (additionalAllowedCharacter : UChar) (text : List UChar) : ReadReference :=
  readReferenceFrom table additionalAllowedCharacter .initial 0 0 text

end Parser

end WebKit.HTML
