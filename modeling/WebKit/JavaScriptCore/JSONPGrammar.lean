import WebKit.JavaScriptCore.JSONGrammar
import WebKit.JavaScriptCore.LiteralParserLoop

/-!
# JSONP scripts

A script of statements `var name = value`, `path = value` and `path(value)`, which is what the fast
path for JSONP is there for.  The grammar is the one that the parser reads, in which a semicolon
may stand for the equals sign and a declared name may have properties; `IsJavaScript` takes out what
JavaScript does not read so.

* `Statement.IsStatement`: what the parser takes for a statement.
* `Statement.IsJavaScript`: the statements of JavaScript among these.
* `following`: the text after a statement.
-/

namespace WebKit.JavaScriptCore.LiteralParser

open WTF

/-! ## Paths -/

/-- `.name` or `[index]`, with the white space before each of its tokens. -/
inductive Access where
  | dot (before between : List UChar) (name : UString)
  | lookup (before between : List UChar) (literal : NumberLiteral) (after : List UChar) (index : ℤ)

namespace Access

def spelled : Access → List UChar
  | .dot before between name => before ++ ch '.' :: (between ++ name)
  | .lookup before between literal after _ =>
    before ++ ch '[' :: (between ++ (literal.text ++ (after ++ [ch ']'])))

def entry : Access → JSONPPathEntry
  | .dot _ _ name => .dot name
  | .lookup _ _ _ _ index => .lookup index

/-- An index is a number that an `int` is equal to, and not negative. -/
def IsAccess {Number : Type*} (numbers : Numbers Number) : Access → Prop
  | .dot before between name => White before ∧ White between ∧ IsIdentifier name
  | .lookup before between literal after index => White before ∧ White between ∧ White after ∧
      numbers.fits literal.text = true ∧
      numbers.equal (numbers.ofInt index) (numbers.round literal.negative literal.magnitude) = true ∧
      0 ≤ index ∧ index < 2 ^ 31

theorem IsAccess.unlimited {Number : Type*} {numbers : Numbers Number} {access : Access}
    (h : access.IsAccess numbers) : access.IsAccess numbers.unlimited := by
  cases access with
  | dot => exact h
  | lookup => exact ⟨h.1, h.2.1, h.2.2.1, rfl, h.2.2.2.2⟩

end Access

/-! ## Statements -/

/-- What stands between a path and its value. -/
inductive Sign where
  | assign
  | semi
  | call
  deriving DecidableEq

namespace Sign

def character : Sign → UChar
  | .assign => ch '='
  | .semi => ch ';'
  | .call => ch '('

def token {Number : Type*} : Sign → Token Number
  | .assign => .assign
  | .semi => .semi
  | .call => .lParen

end Sign

/-- A path with what the sign does to its end. -/
def signed (sign : Sign) (entries : List JSONPPathEntry) : List JSONPPathEntry :=
  match sign, entries.getLast? with
  | .call, some (.dot name) => entries.dropLast ++ [.call name]
  | _, _ => entries

/-- What a call asks of the path before it: that it ends with a name. -/
def Callable (needsFullSourceInfo : Bool) (sign : Sign) (entries : List JSONPPathEntry) : Prop :=
  sign = .call → needsFullSourceInfo = false ∧ ∃ name, entries.getLast? = some (.dot name)

/-- The text from the end of a name on, up to a value. -/
def pathText (accesses : List Access) (beforeSign : List UChar) (sign : Sign)
    (rest : List UChar) : List UChar :=
  accesses.flatMap Access.spelled ++ (beforeSign ++ sign.character :: rest)

structure Statement where
  before : List UChar
  /-- The white space after `var`. -/
  declaration : Option (List UChar)
  name : UString
  accesses : List Access
  beforeSign : List UChar
  sign : Sign
  element : Element
  /-- The white space after the closing parenthesis. -/
  afterCall : List UChar

namespace Statement

def keywordText : Option (List UChar) → List UChar
  | none => []
  | some white => varKeyword ++ white

variable (s : Statement)

/-- What stands after the value with its white space. -/
def closing : List UChar :=
  if s.sign = .call then ch ')' :: s.afterCall else []

/-- What stands after the value. -/
def afterValue : List UChar := s.element.after ++ s.closing

def spelled : List UChar :=
  s.before ++ (keywordText s.declaration ++ (s.name ++ pathText s.accesses s.beforeSign s.sign
    (s.element.before ++ (s.element.text ++ s.afterValue))))

def firstEntry : JSONPPathEntry :=
  if s.declaration.isSome then .declare s.name else .dot s.name

def entries : List JSONPPathEntry := s.firstEntry :: s.accesses.map Access.entry

def path : List JSONPPathEntry := signed s.sign s.entries

/-- A statement as the parser reads it.  The name of a function is the last name of its path. -/
structure IsStatement {Number : Type*} (numbers : Numbers Number) (needsFullSourceInfo : Bool)
    (s : Statement) : Prop where
  before : White s.before
  declaration : ∀ white ∈ s.declaration, White white ∧ white ≠ []
  name : IsIdentifier s.name
  not_keyword : isKeyword s.name = false
  accesses : ∀ access ∈ s.accesses, access.IsAccess numbers
  beforeSign : White s.beforeSign
  element : s.element.IsWhite
  value : JSONValue numbers.fits .jsonp s.element.text s.element.value
  callable : Callable needsFullSourceInfo s.sign s.entries
  afterCall : White s.afterCall

/-- A statement of JavaScript: a value is assigned with an equals sign, and a name that is declared
has no properties. -/
def IsJavaScript : Prop :=
  s.sign ≠ .semi ∧ (s.declaration.isSome → s.accesses = [])

theorem IsStatement.unlimited {Number : Type*} {numbers : Numbers Number}
    {needsFullSourceInfo : Bool} {s : Statement} (h : s.IsStatement numbers needsFullSourceInfo) :
    s.IsStatement numbers.unlimited needsFullSourceInfo :=
  { h with
    accesses := fun access hmem => (h.accesses access hmem).unlimited
    value := h.value.anyLength }

end Statement

/-! ## Scripts -/

/-- The text after a statement: the statements that follow, and what stands after the last one. -/
def following : List Statement → List UChar → List UChar
  | [], ends => ends
  | s :: statements, ends => ch ';' :: (s.spelled ++ following statements ends)

/-- Nothing, or a semicolon with white space after it. -/
def IsEnd (ends : List UChar) : Prop := ends = [] ∨ ∃ white, White white ∧ ends = ch ';' :: white

/-- A statement with the ones that follow are a text. -/
structure IsScript {Number : Type*} (numbers : Numbers Number) (needsFullSourceInfo : Bool)
    (text : List UChar) (s : Statement) (statements : List Statement) (ends : List UChar) :
    Prop where
  isStatement : ∀ s' ∈ s :: statements, s'.IsStatement numbers needsFullSourceInfo
  isEnd : IsEnd ends
  text_eq : text = s.spelled ++ following statements ends

theorem IsScript.unlimited {Number : Type*} {numbers : Numbers Number} {needsFullSourceInfo : Bool}
    {text ends : List UChar} {s : Statement} {statements : List Statement}
    (h : IsScript numbers needsFullSourceInfo text s statements ends) :
    IsScript numbers.unlimited needsFullSourceInfo text s statements ends :=
  { h with isStatement := fun s' hmem => (h.isStatement s' hmem).unlimited }

/-- The path of a statement with the value that its text denotes. -/
def Statement.denoted {Number : Type*} (numbers : Numbers Number) (s : Statement) :
    JSONPData Number :=
  ⟨s.path, s.element.value.evaluate numbers.denotation⟩

end WebKit.JavaScriptCore.LiteralParser
