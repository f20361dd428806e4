import Mathlib.Algebra.Order.Field.Rat
import WebKit.JavaScriptCore.LiteralParser

/-!
# The grammar of the literals

What a literal is and what it denotes, apart from the way in which the parser reads it.  In strict
mode this is the JSON grammar of ES5.1 15.12.1; the other modes have more strings and names.  Only
the literals that fit are taken: all of them (`anyLength`), or those that a parser has room for.

* `NumberLiteral`: `-?(0|[1-9][0-9]*)(.[0-9]+)?([eE][+-]?[0-9]+)?` with its value.
* `StringCharacters`: what stands between two quotes, and the string that it denotes.
* `JSONValue` and `JSONText`: the texts, with the syntax tree of each.
* `Json.evaluate`: the value of a tree, given what is read of its numbers and strings.
* `Numbers`: what is taken for granted of the arithmetic of `double`s.
-/

namespace WebKit.JavaScriptCore.LiteralParser

open WTF

/-! ## Numbers -/

def IsDigits (digits : List UChar) : Prop := digits ≠ [] ∧ ∀ c ∈ digits, isASCIIDigit c

/-- `0 | [1-9][0-9]*` -/
def IsInt (digits : List UChar) : Prop :=
  digits = [ch '0'] ∨ IsDigits digits ∧ digits.head? ≠ some (ch '0')

structure NumberLiteral where
  negative : Bool
  int : List UChar
  fraction : Option (List UChar)
  /-- The letter, the sign and the digits. -/
  exponent : Option (UChar × Option UChar × List UChar)
  isInt : IsInt int
  isDigits_fraction : ∀ digits ∈ fraction, IsDigits digits
  isExponent : ∀ e ∈ exponent, (e.1 = ch 'e' ∨ e.1 = ch 'E') ∧
    (∀ sign ∈ e.2.1, sign = ch '-' ∨ sign = ch '+') ∧ IsDigits e.2.2

/-- The value of decimal digits. -/
def digitsValue (digits : List UChar) : ℕ :=
  digits.foldl (fun value digit => value * 10 + (digit.toNat - (ch '0').toNat)) 0

namespace NumberLiteral

variable (l : NumberLiteral)

def signText : List UChar := if l.negative then [ch '-'] else []

def fractionText : Option (List UChar) → List UChar
  | none => []
  | some digits => ch '.' :: digits

def exponentText : Option (UChar × Option UChar × List UChar) → List UChar
  | none => []
  | some (letter, sign, digits) => letter :: (sign.toList ++ digits)

def text : List UChar :=
  l.signText ++ (l.int ++ (fractionText l.fraction ++ exponentText l.exponent))

def exponentValue : Option (UChar × Option UChar × List UChar) → ℤ
  | none => 0
  | some (_, sign, digits) => if sign = some (ch '-') then -digitsValue digits else digitsValue digits

/-- The absolute value. -/
def magnitude : ℚ :=
  digitsValue (l.int ++ l.fraction.getD []) *
    10 ^ (exponentValue l.exponent - (l.fraction.getD []).length)

/-- The literal `-0`. -/
def IsNegativeZero : Prop := l.text = [ch '-', ch '0']

end NumberLiteral

/-- The `double`s: `round` gives the Number value for a decimal with its sign (ES5.1 8.5), which is
what `strtod` is taken to compute, and `int`s are converted exactly. -/
structure Numbers (Number : Type*) extends NumberOperations Number where
  round : Bool → ℚ → Number
  strtod_text : ∀ l : NumberLiteral, strtod l.text = round l.negative l.magnitude
  ofInt_eq : ∀ i : ℤ, ofInt i = round (decide (i < 0)) |(i : ℚ)|
  negativeZero_ne : round true 0 ≠ round false 0
  toInt_eq : ∀ (i : ℤ) (x : Number), 0 ≤ i → i < 2 ^ 31 → equal (ofInt i) x = true → toInt x = i
  toInt_lt : ∀ x : Number, toInt x < 2 ^ 31
  equal_negativeZero : ∀ x : Number, equal x (round true 0) = equal x (round false 0)

/-! ## Strings -/

/-- The value of a hexadecimal digit. -/
def hexDigitValue (c : UChar) : ℕ :=
  if isASCIIDigit c then c.toNat - (ch '0').toNat
  else if ch 'a' ≤ c then c.toNat - (ch 'a').toNat + 10
  else c.toNat - (ch 'A').toNat + 10

/-- What stands after a backslash, and the code unit that it denotes. -/
inductive Escape (mode : ParserMode) : List UChar → UChar → Prop
  | quotationMark : Escape mode [quotationMark] quotationMark
  | reverseSolidus : Escape mode [backslash] backslash
  | solidus : Escape mode [ch '/'] (ch '/')
  | backspace : Escape mode [ch 'b'] 0x8
  | formFeed : Escape mode [ch 'f'] 0xC
  | lineFeed : Escape mode [ch 'n'] 0xA
  | carriageReturn : Escape mode [ch 'r'] 0xD
  | tab : Escape mode [ch 't'] 0x9
  | apostrophe (h : mode ≠ .strictJSON) : Escape mode [apostrophe] apostrophe
  | unicode {c1 c2 c3 c4 : UChar} (h1 : isASCIIHexDigit c1) (h2 : isASCIIHexDigit c2)
      (h3 : isASCIIHexDigit c3) (h4 : isASCIIHexDigit c4) :
      Escape mode [ch 'u', c1, c2, c3, c4] (UInt16.ofNat (((hexDigitValue c1 * 16 +
        hexDigitValue c2) * 16 + hexDigitValue c3) * 16 + hexDigitValue c4))

/-- A code unit that stands for itself. -/
def IsPlain (mode : ParserMode) (quote c : UChar) : Prop :=
  c ≠ quote ∧ c ≠ backslash ∧ (0x20 ≤ c ∧ (mode = .strictJSON ∨ c ≤ 0xFF) ∨
    c = 0x9 ∧ mode ≠ .strictJSON)

/-- The code units between two quotes, and the string that they denote. -/
inductive StringCharacters (mode : ParserMode) (quote : UChar) : List UChar → UString → Prop
  | nil : StringCharacters mode quote [] []
  | plain {c : UChar} {text : List UChar} {value : UString} (h : IsPlain mode quote c)
      (rest : StringCharacters mode quote text value) :
      StringCharacters mode quote (c :: text) (c :: value)
  | escape {c : UChar} {escape text : List UChar} {value : UString} (hmode : mode ≠ .nonStrictJSON)
      (h : Escape mode escape c) (rest : StringCharacters mode quote text value) :
      StringCharacters mode quote (backslash :: (escape ++ text)) (c :: value)

/-- Every literal fits. -/
def anyLength : List UChar → Bool := fun _ => true

def IsQuote (mode : ParserMode) (quote : UChar) : Prop :=
  quote = quotationMark ∨ quote = apostrophe ∧ mode ≠ .strictJSON

/-- A string with its quotes. -/
inductive StringLiteral (fits : List UChar → Bool) (mode : ParserMode) :
    List UChar → UString → Prop
  | quoted {quote : UChar} {text : List UChar} {value : UString} (h : IsQuote mode quote)
      (characters : StringCharacters mode quote text value)
      (hfits : fits (quote :: (text ++ [quote])) = true) :
      StringLiteral fits mode (quote :: (text ++ [quote])) value

/-- An identifier that does not start with a word that the lexer takes for a token. -/
structure IsIdentifier (text : List UChar) : Prop where
  start : ∃ c rest, text = c :: rest ∧ isIdentifierStart c
  parts : ∀ c ∈ text, isIdentifierPart c
  not_true : ¬trueWord <+: text
  not_false : ¬falseWord <+: text
  not_null : ¬nullWord <+: text

/-- The name of a property. -/
inductive PropertyName (fits : List UChar → Bool) (mode : ParserMode) :
    List UChar → UString → Prop
  | string {text : List UChar} {name : UString} (h : StringLiteral fits mode text name) :
      PropertyName fits mode text name
  | identifier {name : List UChar} (hmode : mode ≠ .strictJSON) (h : IsIdentifier name) :
      PropertyName fits mode name name

/-! ## Values -/

inductive Json where
  | null
  | boolean (value : Bool)
  | number (literal : NumberLiteral)
  | string (value : UString)
  | array (elements : List Json)
  | object (members : List (UString × Json))

def White (text : List UChar) : Prop := ∀ c ∈ text, c = ch ' ' ∨ c = 0x9 ∨ c = 0xA ∨ c = 0xD

theorem white_nil : White [] := List.forall_mem_nil _

/-- A value between white space. -/
structure Element where
  before : List UChar
  text : List UChar
  after : List UChar
  value : Json

/-- A name and a value between white space. -/
structure Member where
  before : List UChar
  nameText : List UChar
  name : UString
  afterName : List UChar
  element : Element

def Element.spelled (element : Element) : List UChar :=
  element.before ++ (element.text ++ element.after)

def Element.IsWhite (element : Element) : Prop := White element.before ∧ White element.after

def Member.spelled (member : Member) : List UChar :=
  member.before ++ (member.nameText ++ (member.afterName ++ ch ':' :: member.element.spelled))

def Member.IsWhite (member : Member) : Prop :=
  White member.before ∧ White member.afterName ∧ member.element.IsWhite

def Member.property (member : Member) : UString × Json := (member.name, member.element.value)

/-- Texts with commas between them. -/
def commaSeparated (texts : List (List UChar)) : List UChar := List.intercalate [ch ','] texts

inductive JSONValue (fits : List UChar → Bool) (mode : ParserMode) : List UChar → Json → Prop
  | null : JSONValue fits mode nullWord .null
  | true : JSONValue fits mode trueWord (.boolean true)
  | false : JSONValue fits mode falseWord (.boolean false)
  | number {literal : NumberLiteral} (hfits : fits literal.text = true) :
      JSONValue fits mode literal.text (.number literal)
  | string {text : List UChar} {value : UString} (h : StringLiteral fits mode text value) :
      JSONValue fits mode text (.string value)
  | emptyArray {white : List UChar} (h : White white) :
      JSONValue fits mode (ch '[' :: (white ++ [ch ']'])) (.array [])
  | array {elements : List Element} (hne : elements ≠ []) (hwhite : ∀ e ∈ elements, e.IsWhite)
      (h : ∀ e ∈ elements, JSONValue fits mode e.text e.value) :
      JSONValue fits mode (ch '[' :: (commaSeparated (elements.map Element.spelled) ++ [ch ']']))
        (.array (elements.map Element.value))
  | emptyObject {white : List UChar} (h : White white) :
      JSONValue fits mode (ch '{' :: (white ++ [ch '}'])) (.object [])
  | object {members : List Member} (hne : members ≠ []) (hwhite : ∀ m ∈ members, m.IsWhite)
      (hname : ∀ m ∈ members, PropertyName fits mode m.nameText m.name)
      (h : ∀ m ∈ members, JSONValue fits mode m.element.text m.element.value) :
      JSONValue fits mode (ch '{' :: (commaSeparated (members.map Member.spelled) ++ [ch '}']))
        (.object (members.map Member.property))

/-- A value between white space is a text. -/
def JSONText (fits : List UChar → Bool) (mode : ParserMode) (text : List UChar) (value : Json) :
    Prop :=
  ∃ element : Element, element.IsWhite ∧ JSONValue fits mode element.text element.value ∧
    element.spelled = text ∧ element.value = value

theorem StringLiteral.anyLength (h : StringLiteral fits mode text value) :
    StringLiteral anyLength mode text value := by
  cases h with
  | quoted h characters => exact .quoted h characters rfl

theorem PropertyName.anyLength (h : PropertyName fits mode text name) :
    PropertyName anyLength mode text name := by
  cases h with
  | string h => exact .string h.anyLength
  | identifier hmode h => exact .identifier hmode h

/-- A value whose literals fit is a value. -/
theorem JSONValue.anyLength (h : JSONValue fits mode text value) :
    JSONValue anyLength mode text value := by
  induction h with
  | null => exact .null
  | true => exact .true
  | false => exact .false
  | number => exact .number rfl
  | string h => exact .string h.anyLength
  | emptyArray h => exact .emptyArray h
  | array hne hwhite _ ih => exact .array hne hwhite ih
  | emptyObject h => exact .emptyObject h
  | object hne hwhite hname _ ih =>
    exact .object hne hwhite (fun m hm => (hname m hm).anyLength) ih

/-! ## What a tree denotes -/

/-- The properties of an object with some members: the last one with a name wins. -/
def makeObject {V : Type*} (members : List (UString × V)) : List (UString × V) :=
  members.foldl (fun properties member => putDirect properties member.1 member.2) []

/-- What is read of the numbers and of the strings. -/
structure Reading (Number : Type*) where
  number : NumberLiteral → Number
  string : UString → UString

section

variable {Number : Type*} (reading : Reading Number)

mutual

def Json.evaluate : Json → JSValue Number
  | .null => .null
  | .boolean value => .boolean value
  | .number literal => .number (reading.number literal)
  | .string value => .string (reading.string value)
  | .array elements => .array (evaluateElements elements)
  | .object members => .object (makeObject (evaluateMembers members))

def evaluateElements : List Json → List (JSValue Number)
  | [] => []
  | element :: elements => element.evaluate :: evaluateElements elements

def evaluateMembers : List (UString × Json) → List (UString × JSValue Number)
  | [] => []
  | (name, value) :: members => (reading.string name, value.evaluate) :: evaluateMembers members

end

theorem evaluateElements_eq (elements : List Json) :
    evaluateElements reading elements = elements.map (Json.evaluate reading) := by
  induction elements with
  | nil => rw [evaluateElements, List.map_nil]
  | cons element elements ih => rw [evaluateElements, ih, List.map_cons]

theorem evaluateMembers_eq (members : List (UString × Json)) : evaluateMembers reading members =
      members.map fun member => (reading.string member.1, member.2.evaluate reading) := by
  induction members with
  | nil => rw [evaluateMembers, List.map_nil]
  | cons member members ih => rw [evaluateMembers, ih, List.map_cons]

end

/-- The numbers with room for every literal. -/
def Numbers.unlimited {Number : Type*} (numbers : Numbers Number) : Numbers Number :=
  { numbers with fits := anyLength }

/-- The numbers with the room that the parser has for the literals of a text. -/
def Numbers.sized {Number : Type*} (numbers : Numbers Number) (is8Bit : Bool) : Numbers Number :=
  { numbers with fits := hasRoom is8Bit }

/-- The value of a number literal, and a string as it is. -/
def Numbers.denotation {Number : Type*} (numbers : Numbers Number) : Reading Number :=
  ⟨fun l => numbers.round l.negative l.magnitude, id⟩

end WebKit.JavaScriptCore.LiteralParser
