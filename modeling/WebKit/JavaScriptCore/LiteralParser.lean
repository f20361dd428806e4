import WebKit.WTF.ASCIICType
import WebKit.WTF.StringBuilder
import WebKit.WTF.UTF8

/-!
# The literal parser

`LiteralParser` reads JSON texts, the literals of `eval` and JSONP scripts.  Its lexer hands over one
token at a time, and the parser is a state machine with explicit stacks.

A position in the text is the list of the code units from it to the end.  The texts of 8-bit strings
are those whose code units are Latin-1 characters: the two instantiations of the template do the same
on them, but for the literals that they have room for (`hasRoom`).  The messages for errors are left
out.

* `lex`: the lexer, which stores one token and returns the type of one.
* `step` and `run`: the iterations of `parse`, in which a `goto` is a call.
* `tryLiteralParse`, `tryJSONPParse`: the two entry points.
-/

namespace WebKit.JavaScriptCore.LiteralParser

open WTF

inductive ParserMode where
  | strictJSON
  | nonStrictJSON
  | jsonp
  deriving DecidableEq

inductive TokenType where
  | lBracket
  | rBracket
  | lBrace
  | rBrace
  | string
  | identifier
  | number
  | colon
  | lParen
  | rParen
  | comma
  | true
  | false
  | null
  | end
  | dot
  | assign
  | semi
  | error
  deriving DecidableEq

/-- A token with what its type lets the parser read of it. -/
inductive Token (Number : Type*) where
  | lBracket
  | rBracket
  | lBrace
  | rBrace
  | string (value : UString)
  | identifier (name : UString)
  | number (value : Number)
  | colon
  | lParen
  | rParen
  | comma
  | true
  | false
  | null
  | end
  | dot
  | assign
  | semi
  | error

/-- The values that a parser makes.  The properties of an object are in the order in which they were
added. -/
inductive JSValue (Number : Type*) where
  | undefined
  | null
  | boolean (value : Bool)
  | number (value : Number)
  | string (value : UString)
  | array (elements : List (JSValue Number))
  | object (properties : List (UString × JSValue Number))

/-- What the parser uses of the `double`s: the conversion of the characters of a number, and the
conversions from and to `int` with the comparison.  With them come the literals that the parser has
room for. -/
structure NumberOperations (Number : Type*) where
  fits : List UChar → Bool
  strtod : List UChar → Number
  ofInt : ℤ → Number
  toInt : Number → ℤ
  equal : Number → Number → Bool

section Lexer

variable {Number : Type*}

namespace Token

def type : Token Number → TokenType
  | .lBracket => .lBracket
  | .rBracket => .rBracket
  | .lBrace => .lBrace
  | .rBrace => .rBrace
  | .string _ => .string
  | .identifier _ => .identifier
  | .number _ => .number
  | .colon => .colon
  | .lParen => .lParen
  | .rParen => .rParen
  | .comma => .comma
  | .true => .true
  | .false => .false
  | .null => .null
  | .end => .end
  | .dot => .dot
  | .assign => .assign
  | .semi => .semi
  | .error => .error

end Token

/-! ## Characters -/

def quotationMark : UChar := 0x22

def apostrophe : UChar := 0x27

def backslash : UChar := 0x5C

def isJSONWhiteSpace (c : UChar) : Bool := c == ch ' ' || c == 0x9 || c == 0xA || c == 0xD

/-! ## Room for literals -/

/-- What the builder of a string holds after the characters before the last quote: `run` of them were
read since the last escape, and `skip` are left of one.  The text is 8-bit or not. -/
def appendCharacters (is8Bit : Bool) :
    List UChar → (skip run : ℕ) → StringBuilder → Option StringBuilder
  | [], _, run, builder => if builder.length = 0 then some builder else builder.append is8Bit run
  | _ :: text, skip + 1, run, builder => appendCharacters is8Bit text skip run builder
  | c :: text, 0, run, builder =>
    if c = backslash then
      (builder.append is8Bit run).bind fun builder =>
        if text.head? = some (ch 'u') then
          (builder.append false 1).bind (appendCharacters is8Bit text 5 0)
        else (builder.append true 1).bind (appendCharacters is8Bit text 1 0)
    else appendCharacters is8Bit text 0 (run + 1) builder

/-- The builder of a string does not crash, and the `int` with which a number is copied does not
overflow. -/
def hasRoom (is8Bit : Bool) : List UChar → Bool
  | [] => true
  | c :: rest =>
    if c = quotationMark ∨ c = apostrophe then
      (appendCharacters is8Bit rest.dropLast 0 0 .empty).isSome
    else decide (rest.length + 1 < 2 ^ 31)

variable (numbers : NumberOperations Number)

/-- Where there is no room for a literal, nothing is returned, as after an error. -/
def within (text : List UChar) (read : Token Number × List UChar) : Token Number × List UChar :=
  if numbers.fits (text.take (text.length - read.2.length)) then read else (.error, [])

variable (mode : ParserMode)

/-- The characters of a string that stand for themselves. -/
def isSafeStringCharacter (terminator c : UChar) : Bool :=
  (decide (ch ' ' ≤ c) && (mode == .strictJSON || decide (c ≤ 0xFF)) && c != backslash &&
    c != terminator) || (c == 0x9 && mode != .strictJSON)

def isIdentifierStart (c : UChar) : Bool := isASCIIAlpha c || c == ch '_' || c == ch '$'

def isIdentifierPart (c : UChar) : Bool := isASCIIAlphanumeric c || c == ch '_' || c == ch '$'

/-! ## Strings -/

def convertHex (c1 c2 : UChar) : ℕ := (toASCIIHexValue c1 <<< 4) ||| toASCIIHexValue c2

def convertUnicode (c1 c2 c3 c4 : UChar) : UChar :=
  UInt16.ofNat ((convertHex c1 c2 <<< 8) ||| convertHex c3 c4)

/-- The escapes of one character. -/
def simpleEscape (c : UChar) : Option UChar :=
  if c = quotationMark then some quotationMark
  else if c = backslash then some backslash
  else if c = ch '/' then some (ch '/')
  else if c = ch 'b' then some 0x8
  else if c = ch 'f' then some 0xC
  else if c = ch 'n' then some 0xA
  else if c = ch 'r' then some 0xD
  else if c = ch 't' then some 0x9
  else if c = apostrophe ∧ mode ≠ .strictJSON then some apostrophe
  else none

/-- `uNNNN` after the `u`. -/
def lexUnicodeEscape : List UChar → Option (UChar × List UChar)
  | c1 :: c2 :: c3 :: c4 :: rest =>
    if isASCIIHexDigit c1 && isASCIIHexDigit c2 && isASCIIHexDigit c3 && isASCIIHexDigit c4 then
      some (convertUnicode c1 c2 c3 c4, rest)
    else none
  | _ => none

/-- The `switch` after a backslash: the character it appends and where it goes on. -/
def lexEscape : List UChar → Option (UChar × List UChar)
  | [] => none
  | c :: rest =>
    if c = ch 'u' then lexUnicodeEscape rest
    else (simpleEscape mode c).map fun character => (character, rest)

/-- What an iteration of the loop does at the end of its run. -/
def lexAfterRun (run builder ptr : List UChar) : Option (UString × List UChar) :=
  if mode ≠ .nonStrictJSON ∧ ptr.head? = some backslash then
    (lexEscape mode ptr.tail).map fun (character, ptr) =>
      ((if builder.isEmpty then run else builder) ++ [character], ptr)
  else some (builder, ptr)

/-- The loop of `lexString`: the characters of the builder, the start of the last run and where the
loop ends.  Every iteration but the last moves on, so that the length of the text is enough rounds. -/
def lexStringLoop (mode : ParserMode) (terminator : UChar) :
    ℕ → List UChar → UString → Option (UString × List UChar × List UChar)
  | 0, _, _ => none
  | fuel + 1, runStart, builder =>
    let run := runStart.takeWhile (isSafeStringCharacter mode terminator)
    let ptr := runStart.dropWhile (isSafeStringCharacter mode terminator)
    match lexAfterRun mode run (if builder.isEmpty then builder else builder ++ run) ptr with
    | none => none
    | some (builder, ptr) =>
      if mode ≠ .nonStrictJSON ∧ ptr.length ≠ runStart.length ∧ ptr ≠ [] ∧
          ptr.head? ≠ some terminator then
        lexStringLoop mode terminator fuel ptr builder
      else some (builder, runStart, ptr)

/-- The characters that a token keeps of a string: `stringLength` has 31 bits. -/
def stored (characters : UString) : UString := characters.take (characters.length % 2 ^ 31)

/-- A string after its first quote.  After an error nothing more is read. -/
def lexCharacters (terminator : UChar) (text : List UChar) : Token Number × List UChar :=
  match lexStringLoop mode terminator (text.length + 1) text [] with
  | some (builder, runStart, c :: rest) =>
    if c = terminator then
      (.string (stored (if builder.isEmpty then runStart.take (runStart.length - (rest.length + 1))
        else builder)), rest)
    else (.error, [])
  | _ => (.error, [])

def lexString (terminator : UChar) (text : List UChar) : Token Number × List UChar :=
  within numbers (terminator :: text) (lexCharacters mode terminator text)

/-! ## Numbers -/

/-- `(0 | [1-9][0-9]*)` -/
def lexDigits : List UChar → Option (List UChar)
  | [] => none
  | c :: rest =>
    if c = ch '0' then some rest
    else if isASCIIDigit c then some (rest.dropWhile isASCIIDigit)
    else none

/-- `[0-9]+` -/
def lexDigitRun : List UChar → Option (List UChar)
  | [] => none
  | c :: rest => if isASCIIDigit c then some (rest.dropWhile isASCIIDigit) else none

/-- `[-+]?` -/
def skipSign : List UChar → List UChar
  | [] => []
  | c :: rest => if c = ch '-' ∨ c = ch '+' then rest else c :: rest

/-- `([eE][+-]? [0-9]+)?` -/
def lexExponent : List UChar → Option (List UChar)
  | [] => some []
  | c :: rest =>
    if c = ch 'e' ∨ c = ch 'E' then lexDigitRun (skipSign rest) else some (c :: rest)

/-- The value of digits in `int` arithmetic. -/
def intValue (digits : List UChar) : ℤ :=
  digits.foldl (fun result digit => result * 10 + digit.toNat - (ch '0').toNat) 0

/-- The value of at most nine characters. -/
def intOfToken : List UChar → ℤ
  | [] => 0
  | c :: rest => if c = ch '-' then intValue rest * -1 else intValue (c :: rest)

/-- The token of the characters up to a position. -/
def numberToken (text ptr : List UChar) : Token Number :=
  .number (numbers.strtod (text.take (text.length - ptr.length)))

/-- The end of `lexNumber`, after the fraction. -/
def lexNumberEnd (text ptr : List UChar) : Token Number × List UChar :=
  match lexExponent ptr with
  | none => (.error, [])
  | some ptr => (numberToken numbers text ptr, ptr)

variable (text : List UChar)

/-- What `lexNumber` does after the integer. -/
def lexFraction : List UChar → Token Number × List UChar
  | [] => lexNumberEnd numbers text []
  | c :: rest =>
    if c = ch '.' then
      match lexDigitRun rest with
      | none => (.error, [])
      | some ptr => lexNumberEnd numbers text ptr
    else if c ≠ ch 'e' ∧ c ≠ ch 'E' ∧ text.length - (rest.length + 1) < 10 then
      (.number (numbers.ofInt (intOfToken (text.take (text.length - (rest.length + 1))))), c :: rest)
    else lexNumberEnd numbers text (c :: rest)

/-- `lexNumber` where there is room for the number. -/
def lexInt : Token Number × List UChar :=
  match lexDigits (if text.head? = some (ch '-') then text.tail else text) with
  | none => (.error, [])
  | some ptr => lexFraction numbers text ptr

def lexNumber : Token Number × List UChar := within numbers text (lexInt numbers text)

/-! ## Tokens -/

/-- The tokens of one character that the first `switch` knows. -/
def punctuator (c : UChar) : Option (Token Number) :=
  if c = ch '[' then some .lBracket
  else if c = ch ']' then some .rBracket
  else if c = ch '(' then some .lParen
  else if c = ch ')' then some .rParen
  else if c = ch '{' then some .lBrace
  else if c = ch '}' then some .rBrace
  else if c = ch ',' then some .comma
  else if c = ch ':' then some .colon
  else none

def trueWord : List UChar := ['t', 'r', 'u', 'e'].map ch

def falseWord : List UChar := ['f', 'a', 'l', 's', 'e'].map ch

def nullWord : List UChar := ['n', 'u', 'l', 'l'].map ch

/-- What `lex` leaves: the token it stores, the type it returns and where the lexer stands. -/
structure Lexed (Number : Type*) where
  token : Token Number
  returned : TokenType
  rest : List UChar

/-- A token whose type is returned. -/
def Lexed.ofToken (token : Token Number × List UChar) : Lexed Number :=
  ⟨token.1, token.1.type, token.2⟩

def lexIdentifier : Token Number × List UChar :=
  (.identifier (text.takeWhile isIdentifierPart), text.dropWhile isIdentifierPart)

variable (mode : ParserMode)

/-- The tokens after the first `switch`. -/
def lexOther (c : UChar) (rest : List UChar) : Lexed Number :=
  if c = ch '.' then ⟨.dot, .dot, rest⟩
  else if c = ch '=' then ⟨.assign, .assign, rest⟩
  else if c = ch ';' then ⟨.semi, .assign, rest⟩
  else if isIdentifierStart c then .ofToken (lexIdentifier (c :: rest))
  else if c = apostrophe ∧ mode ≠ .strictJSON then .ofToken (lexString numbers mode apostrophe rest)
  else ⟨.error, .error, []⟩

/-- A token whose first character is at the front. -/
def lexToken (c : UChar) (rest : List UChar) : Lexed Number :=
  match punctuator c with
  | some token => ⟨token, token.type, rest⟩
  | none =>
    if c = quotationMark then .ofToken (lexString numbers mode quotationMark rest)
    else if trueWord.isPrefixOf (c :: rest) then ⟨.true, .true, rest.drop 3⟩
    else if falseWord.isPrefixOf (c :: rest) then ⟨.false, .false, rest.drop 4⟩
    else if nullWord.isPrefixOf (c :: rest) then ⟨.null, .null, rest.drop 3⟩
    else if c = ch '-' ∨ isASCIIDigit c then .ofToken (lexNumber numbers (c :: rest))
    else lexOther numbers mode c rest

def lex (text : List UChar) : Lexed Number :=
  match text.dropWhile isJSONWhiteSpace with
  | [] => ⟨.end, .end, []⟩
  | c :: rest => lexToken numbers mode c rest

structure Lexer (Number : Type*) where
  currentToken : Token Number
  text : List UChar

/-- The type that `next` returns, and the lexer after it. -/
def Lexer.next (lexer : Lexer Number) : TokenType × Lexer Number :=
  ((lex numbers mode lexer.text).returned,
    ⟨(lex numbers mode lexer.text).token, (lex numbers mode lexer.text).rest⟩)

end Lexer

/-! ## The state machine -/

inductive ParserState where
  | startParseObject
  | startParseArray
  | startParseExpression
  | startParseStatement
  | startParseStatementEndStatement
  | doParseObjectStartExpression
  | doParseObjectEndExpression
  | doParseArrayStartExpression
  | doParseArrayEndExpression
  deriving DecidableEq

section Parser

variable {Number : Type*}

/-- `putDirect`: a property that is there keeps its place. -/
def putDirect {V : Type*} : List (UString × V) → UString → V → List (UString × V)
  | [], name, value => [(name, value)]
  | (name', value') :: properties, name, value =>
    if name' = name then (name, value) :: properties
    else (name', value') :: putDirect properties name value

/-- `push` on the array on top of the stack. -/
def pushElement (value : JSValue Number) : List (JSValue Number) → List (JSValue Number)
  | .array elements :: objectStack => .array (elements ++ [value]) :: objectStack
  | objectStack => objectStack

/-- `putDirect` on the object on top of the stack, with the name on top of its stack. -/
def putProperty (value : JSValue Number) :
    List UString → List (JSValue Number) → List (JSValue Number)
  | name :: _, .object properties :: objectStack =>
    .object (putDirect properties name value) :: objectStack
  | _, objectStack => objectStack

/-- The variables of `parse` with the lexer. -/
structure Machine (Number : Type*) where
  state : ParserState
  lexer : Lexer Number
  lastValue : JSValue Number
  stateStack : List ParserState
  objectStack : List (JSValue Number)
  identifierStack : List UString

/-- What an iteration does: the next one, or the end with a value or with none. -/
inductive Step (Number : Type*) where
  | goOn (machine : Machine Number)
  | done (value : Option (JSValue Number)) (lexer : Lexer Number)

namespace Machine

variable (numbers : NumberOperations Number) (mode : ParserMode)

/-- `m_lexer.next()` where its value is not used. -/
def next (machine : Machine Number) : Machine Number :=
  { machine with lexer := (machine.lexer.next numbers mode).2 }

variable (machine : Machine Number)

def fail : Step Number := .done none machine.lexer

/-- The end of an iteration. -/
def popState : Step Number :=
  match machine.stateStack with
  | [] => .done (some machine.lastValue) machine.lexer
  | state :: stateStack => .goOn { machine with state := state, stateStack := stateStack }

/-- The value on top of the object stack is complete. -/
def popObject : Step Number :=
  match machine.objectStack with
  | [] => machine.popState
  | value :: objectStack =>
    { machine with lastValue := value, objectStack := objectStack }.popState

def pushState (state : ParserState) (machine : Machine Number) : Machine Number :=
  { machine with stateStack := state :: machine.stateStack }

/-- The expression that starts at the current token is read in the next iteration. -/
def expectExpression : Step Number :=
  .goOn { machine with state := .startParseExpression }

def doParseArrayStartExpression : Step Number :=
  if (machine.lexer.next numbers mode).1 = .rBracket then
    if machine.lexer.currentToken.type = .comma then (machine.next numbers mode).fail
    else ((machine.next numbers mode).next numbers mode).popObject
  else ((machine.next numbers mode).pushState .doParseArrayEndExpression).expectExpression

def startParseArray : Step Number :=
  { machine with objectStack := .array [] :: machine.objectStack }.doParseArrayStartExpression
    numbers mode

def doParseArrayEndExpression : Step Number :=
  let machine := { machine with objectStack := pushElement machine.lastValue machine.objectStack }
  if machine.lexer.currentToken.type = .comma then
    machine.doParseArrayStartExpression numbers mode
  else if machine.lexer.currentToken.type ≠ .rBracket then machine.fail
  else (machine.next numbers mode).popObject

/-- The characters that a token has as the name of a property. -/
def propertyName? : Token Number → Option UString
  | .string value => some value
  | .identifier name => if mode = .strictJSON then none else some (stored name)
  | _ => none

/-- A property whose name is the current token. -/
def parseProperty (name : UString) : Step Number :=
  if (machine.lexer.next numbers mode).1 ≠ .colon then (machine.next numbers mode).fail
  else
    let machine := (machine.next numbers mode).next numbers mode
    ({ machine with identifierStack := name :: machine.identifierStack }.pushState
      .doParseObjectEndExpression).expectExpression

def startParseObject : Step Number :=
  let machine := { machine with objectStack := .object [] :: machine.objectStack }.next numbers mode
  match propertyName? mode machine.lexer.currentToken with
  | some name => machine.parseProperty numbers mode name
  | none =>
    if machine.lexer.currentToken.type ≠ .rBrace then machine.fail
    else (machine.next numbers mode).popObject

def doParseObjectStartExpression : Step Number :=
  let machine := machine.next numbers mode
  match propertyName? mode machine.lexer.currentToken with
  | some name => machine.parseProperty numbers mode name
  | none => machine.fail

def doParseObjectEndExpression : Step Number :=
  let machine := { machine with
    objectStack := putProperty machine.lastValue machine.identifierStack machine.objectStack
    identifierStack := machine.identifierStack.tail }
  if machine.lexer.currentToken.type = .comma then
    machine.doParseObjectStartExpression numbers mode
  else if machine.lexer.currentToken.type ≠ .rBrace then machine.fail
  else (machine.next numbers mode).popObject

/-- A token that is a value of its own. -/
def scalar (value : JSValue Number) : Step Number :=
  { machine.next numbers mode with lastValue := value }.popState

def startParseExpression : Step Number :=
  match machine.lexer.currentToken with
  | .lBracket => machine.startParseArray numbers mode
  | .lBrace => machine.startParseObject numbers mode
  | .string value => machine.scalar numbers mode (.string value)
  | .number value => machine.scalar numbers mode (.number value)
  | .null => machine.scalar numbers mode .null
  | .true => machine.scalar numbers mode (.boolean true)
  | .false => machine.scalar numbers mode (.boolean false)
  | _ => machine.fail

def startParseStatement : Step Number :=
  match machine.lexer.currentToken with
  | .lBracket | .number _ | .string _ => machine.startParseExpression numbers mode
  | .lParen =>
    ((machine.next numbers mode).pushState .startParseStatementEndStatement).startParseExpression
      numbers mode
  | _ => machine.fail

def startParseStatementEndStatement : Step Number :=
  if machine.lexer.currentToken.type ≠ .rParen then machine.fail
  else if (machine.lexer.next numbers mode).1 = .end then
    .done (some machine.lastValue) (machine.next numbers mode).lexer
  else (machine.next numbers mode).fail

def step : Step Number :=
  match machine.state with
  | .startParseObject => machine.startParseObject numbers mode
  | .startParseArray => machine.startParseArray numbers mode
  | .startParseExpression => machine.startParseExpression numbers mode
  | .startParseStatement => machine.startParseStatement numbers mode
  | .startParseStatementEndStatement => machine.startParseStatementEndStatement numbers mode
  | .doParseObjectStartExpression => machine.doParseObjectStartExpression numbers mode
  | .doParseObjectEndExpression => machine.doParseObjectEndExpression numbers mode
  | .doParseArrayStartExpression => machine.doParseArrayStartExpression numbers mode
  | .doParseArrayEndExpression => machine.doParseArrayEndExpression numbers mode

end Machine

end Parser

end WebKit.JavaScriptCore.LiteralParser
