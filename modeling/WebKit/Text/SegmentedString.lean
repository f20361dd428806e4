import Mathlib
import WebKit.WTF.StringBuilder

/-!
# Segmented strings

The input of the parsers: text in pieces, of which the first is being consumed, with up to two
characters pushed back in front of it.  The object keeps a pointer to its current character, the
number of characters consumed before the piece it is in, and the number of newlines consumed.

A pointer into a string is an offset, and no offset is the null pointer.  The counters are only
added to and subtracted from, and so they are kept as integers: what the `int` of the code holds is
`toInt` of them.  A string is one of 16-bit characters, which `StringImpl` keeps below `2 ^ 31`.

* `SegmentedSubstring`: one piece, and whether its newlines are counted.
* `SegmentedString`: the object, with the functions of the header under their names.
* `copyConstruct`: the copy constructor, which sets no counter: what the counters hold afterwards is
  what the memory held, an argument here.
-/

namespace WebKit.Text

/-- A UTF-16 code unit. -/
abbrev UChar := UInt16

/-- The newline character. -/
def newline : UChar := 10

/-- What an `int` that wraps holds. -/
def toInt (n : ℤ) : ℤ := n.bmod (2 ^ 32)

/-- `String::append` crashes when the string would be too long. -/
def stringAppend (str appended : List UChar) : Option (List UChar) :=
  if (str ++ appended).length ≤ WTF.StringImpl.maxLength false then some (str ++ appended) else none

/-! ## Substrings -/

structure SegmentedSubstring where
  length : ℕ
  current : Option ℕ
  string : List UChar
  doNotExcludeLineNumbers : Bool
  deriving DecidableEq

namespace SegmentedSubstring

/-- The substring of the constructor without arguments. -/
def empty : SegmentedSubstring := ⟨0, none, [], true⟩

def ofString (str : List UChar) : SegmentedSubstring :=
  ⟨str.length, if str.isEmpty then none else some 0, str, true⟩

variable (s : SegmentedSubstring)

def clear : SegmentedSubstring := { s with length := 0, current := none }

def setExcludeLineNumbers : SegmentedSubstring :=
  { s with doNotExcludeLineNumbers := false }

def numberOfCharactersConsumed : ℤ := (s.string.length : ℤ) - s.length

/-- The `count` characters at `m_current`. -/
def charactersAtCurrent (count : ℕ) : List UChar :=
  match s.current with
  | none => []
  | some offset => (s.string.drop offset).take count

/-- `appendTo`: the whole string when nothing was consumed, else what is left. -/
def appendTo (str : List UChar) : Option (List UChar) :=
  if s.current = some 0 ∨ (s.current = none ∧ s.string = []) then stringAppend str s.string
  else stringAppend str (s.charactersAtCurrent s.length)

end SegmentedSubstring

/-! ## The object -/

/-- Where `m_currentChar` points. -/
inductive CharPointer
  | null
  | pushedChar1
  | pushedChar2
  | inString (offset : ℕ)
  deriving DecidableEq

/-- The pointer `m_currentString.m_current`. -/
def CharPointer.ofCurrent : Option ℕ → CharPointer
  | none => null
  | some offset => inString offset

structure SegmentedString where
  pushedChar1 : UChar
  pushedChar2 : UChar
  currentString : SegmentedSubstring
  currentChar : CharPointer
  numberOfCharactersConsumedPriorToCurrentString : ℤ
  numberOfCharactersConsumedPriorToCurrentLine : ℤ
  currentLineNumber : ℤ
  substrings : List SegmentedSubstring
  closed : Bool
  deriving DecidableEq

/-- What a look-ahead finds. -/
inductive LookAheadResult
  | didNotMatch
  | didMatch
  | notEnoughCharacters
  deriving DecidableEq

namespace SegmentedString

/-- The object of the constructor without arguments. -/
def empty : SegmentedString := ⟨0, 0, SegmentedSubstring.empty, .null, 0, 0, 0, [], false⟩

def ofString (str : List UChar) : SegmentedString :=
  ⟨0, 0, SegmentedSubstring.ofString str,
    CharPointer.ofCurrent (SegmentedSubstring.ofString str).current, 0, 0, 0, [], false⟩

/-- The copy constructor.  It sets neither of the numbers of characters nor the line. -/
def copyConstruct (other : SegmentedString) (priorToString priorToLine line : ℤ) :
    SegmentedString :=
  { other with
    numberOfCharactersConsumedPriorToCurrentString := priorToString
    numberOfCharactersConsumedPriorToCurrentLine := priorToLine
    currentLineNumber := line }

/-- `operator=`, which gives the object everything the other one has. -/
def assign (_ other : SegmentedString) : SegmentedString := other

variable (s : SegmentedString)

def close : SegmentedString := { s with closed := true }

def isClosed : Bool := s.closed

/-- `escaped`: whether a character is pushed back. -/
def escaped : Bool := s.pushedChar1 != 0

def isComposite : Bool := !s.substrings.isEmpty

/-- `operator*`, when the pointer to the current character is not null. -/
def current : Option UChar :=
  match s.currentChar with
  | .null => none
  | .pushedChar1 => some s.pushedChar1
  | .pushedChar2 => some s.pushedChar2
  | .inString offset => s.currentString.string[offset]?

def isEmpty : Bool := s.currentChar == .null

/-- The pushed back characters. -/
def pushed : List UChar :=
  if s.pushedChar1 = 0 then []
  else if s.pushedChar2 = 0 then [s.pushedChar1]
  else [s.pushedChar1, s.pushedChar2]

/-- The sum of `length()`, before it wraps. -/
def length : ℕ :=
  s.currentString.length + s.pushed.length + (s.substrings.map SegmentedSubstring.length).sum

/-- What `length()` returns. -/
def unsignedLength : ℕ := s.length % 2 ^ 32

def toString : Option (List UChar) :=
  (s.currentString.appendTo s.pushed).bind
    (s.substrings.foldlM fun result it => it.appendTo result)

def numberOfCharactersConsumed : ℤ :=
  s.numberOfCharactersConsumedPriorToCurrentString + s.currentString.numberOfCharactersConsumed -
    s.pushed.length

def excludeLineNumbers : Bool := !s.currentString.doNotExcludeLineNumbers

def setExcludeLineNumbers : SegmentedString :=
  { s with
    currentString := s.currentString.setExcludeLineNumbers
    substrings := s.substrings.map SegmentedSubstring.setExcludeLineNumbers }

/-- `m_currentChar = m_pushedChar1 ? &m_pushedChar1 : m_currentString.m_current`. -/
def updateCurrentChar : SegmentedString :=
  { s with
    currentChar :=
      if s.pushedChar1 ≠ 0 then .pushedChar1 else CharPointer.ofCurrent s.currentString.current }

def push (c : UChar) : SegmentedString :=
  if s.pushedChar1 = 0 then { s with pushedChar1 := c }.updateCurrentChar
  else { s with pushedChar2 := c }

/-! ### Appending and prepending -/

/-- `append(const SegmentedSubstring&)`. -/
def appendSubstring (sub : SegmentedSubstring) : SegmentedString :=
  if sub.length = 0 then s
  else if s.currentString.length = 0 then
    { s with
      numberOfCharactersConsumedPriorToCurrentString :=
        s.numberOfCharactersConsumedPriorToCurrentString +
          s.currentString.numberOfCharactersConsumed
      currentString := sub }
  else { s with substrings := s.substrings ++ [sub] }

/-- `prepend(const SegmentedSubstring&)`. -/
def prependSubstring (sub : SegmentedSubstring) : SegmentedString :=
  if sub.length = 0 then s
  else
    let prior := s.numberOfCharactersConsumedPriorToCurrentString +
      s.currentString.numberOfCharactersConsumed - sub.length
    if s.currentString.length = 0 then
      { s with
        numberOfCharactersConsumedPriorToCurrentString := prior
        currentString := sub }
    else
      { s with
        numberOfCharactersConsumedPriorToCurrentString := prior
        substrings := s.currentString :: s.substrings
        currentString := sub }

def append (other : SegmentedString) : SegmentedString :=
  (other.substrings.foldl appendSubstring (s.appendSubstring other.currentString)).updateCurrentChar

def prepend (other : SegmentedString) : SegmentedString :=
  ((other.substrings.reverse.foldl prependSubstring s).prependSubstring
    other.currentString).updateCurrentChar

/-! ### Advancing -/

def advanceSubstring : SegmentedString :=
  match s.substrings with
  | [] => { s with currentString := s.currentString.clear }
  | first :: rest =>
    { s with
      numberOfCharactersConsumedPriorToCurrentString :=
        s.numberOfCharactersConsumedPriorToCurrentString +
          s.currentString.numberOfCharactersConsumed - first.numberOfCharactersConsumed
      currentString := first
      substrings := rest }

/-- `++m_currentString.m_current` and `--m_currentString.m_length`. -/
def stepCurrentString : SegmentedString :=
  { s with
    currentString :=
      { s.currentString with
        length := s.currentString.length - 1
        current := s.currentString.current.map (· + 1) } }

/-- Takes the first pushed back character. -/
def takePushed : SegmentedString :=
  { s with pushedChar1 := s.pushedChar2, pushedChar2 := 0 }

/-- The end of a substring is the start of the next one. -/
def nextSubstring : SegmentedString :=
  if s.currentString.length = 0 then s.advanceSubstring else s

/-- `advanceSlowCase()`. -/
def advanceSlowCase : SegmentedString :=
  (if s.pushedChar1 ≠ 0 then s.takePushed
    else if s.currentString.current.isSome then s.stepCurrentString.nextSubstring
    else s).updateCurrentChar

/-- The step of the fast path. -/
def advanceFast : SegmentedString :=
  let stepped := s.stepCurrentString
  { stepped with currentChar := CharPointer.ofCurrent stepped.currentString.current }

/-- `advance()`. -/
def advance : SegmentedString :=
  if s.pushedChar1 = 0 ∧ s.currentString.length > 1 then s.advanceFast else s.advanceSlowCase

/-- What the line-counting variants do at a newline that counts. -/
def countNewline : SegmentedString :=
  { s with
    currentLineNumber := s.currentLineNumber + 1
    numberOfCharactersConsumedPriorToCurrentLine := s.numberOfCharactersConsumed + 1 }

/-- The character at `m_currentString.m_current` is the given one. -/
def currentStringStartsWith (c : UChar) : Bool :=
  match s.currentString.current with
  | none => false
  | some offset => s.currentString.string[offset]? == some c

/-- `advanceSlowCase(int& lineNumber)`. -/
def advanceSlowCaseLine (lineNumber : ℤ) : SegmentedString × ℤ :=
  if s.pushedChar1 ≠ 0 then (s.takePushed.updateCurrentChar, lineNumber)
  else if s.currentString.current.isSome then
    if s.currentStringStartsWith newline && s.currentString.doNotExcludeLineNumbers then
      (s.countNewline.stepCurrentString.nextSubstring.updateCurrentChar, lineNumber + 1)
    else (s.stepCurrentString.nextSubstring.updateCurrentChar, lineNumber)
  else (s.updateCurrentChar, lineNumber)

/-- `advance(int& lineNumber)`. -/
def advanceLine (lineNumber : ℤ) : SegmentedString × ℤ :=
  if s.pushedChar1 = 0 ∧ s.currentString.length > 1 then
    if s.currentStringStartsWith newline && s.currentString.doNotExcludeLineNumbers then
      (s.countNewline.advanceFast, lineNumber + 1)
    else (s.advanceFast, lineNumber)
  else s.advanceSlowCaseLine lineNumber

/-- `advancePastNewline(int& lineNumber)`: the current character is a newline. -/
def advancePastNewline (lineNumber : ℤ) : SegmentedString × ℤ :=
  if s.pushedChar1 = 0 ∧ s.currentString.length > 1 then
    if s.currentString.doNotExcludeLineNumbers then (s.countNewline.advanceFast, lineNumber + 1)
    else (s.advanceFast, lineNumber)
  else s.advanceSlowCaseLine lineNumber

/-- `advancePastNonNewline()`: the current character is not a newline. -/
def advancePastNonNewline : SegmentedString :=
  if s.pushedChar1 = 0 ∧ s.currentString.length > 1 then s.advanceFast else s.advanceSlowCase

/-- `advance(unsigned count, UChar* consumedCharacters)`, with the characters written. -/
def advanceCount (s : SegmentedString) : ℕ → SegmentedString × List UChar
  | 0 => (s, [])
  | count + 1 =>
    let r := s.advance.advanceCount count
    (r.1, s.current.getD 0 :: r.2)

/-! ### Looking ahead -/

variable (equals : List UChar → List UChar → Bool) (string : List UChar)

/-- `lookAheadSlowCase`. -/
def lookAheadSlowCase : SegmentedString × LookAheadResult :=
  if string.length > s.unsignedLength then (s, .notEnoughCharacters)
  else
    let advanced := s.advanceCount string.length
    (advanced.1.prepend (ofString advanced.2),
      if equals string advanced.2 then .didMatch else .didNotMatch)

/-- `lookAheadInline`. -/
def lookAheadInline : SegmentedString × LookAheadResult :=
  if s.pushedChar1 = 0 ∧ string.length ≤ s.currentString.length then
    (s, if equals string (s.currentString.charactersAtCurrent string.length) then .didMatch
      else .didNotMatch)
  else s.lookAheadSlowCase equals string

/-- `equalsLiterally`. -/
def equalsLiterally (str1 str2 : List UChar) : Bool := str1 == str2

def lookAhead : SegmentedString × LookAheadResult :=
  s.lookAheadInline equalsLiterally string

/-! ### Positions -/

def currentLine : ℤ := s.currentLineNumber

def currentColumn : ℤ :=
  s.numberOfCharactersConsumed - s.numberOfCharactersConsumedPriorToCurrentLine

def setCurrentPosition (line columnAfterProlog prologLength : ℤ) : SegmentedString :=
  { s with
    currentLineNumber := line
    numberOfCharactersConsumedPriorToCurrentLine :=
      s.numberOfCharactersConsumed + prologLength - columnAfterProlog }

end SegmentedString

end WebKit.Text
