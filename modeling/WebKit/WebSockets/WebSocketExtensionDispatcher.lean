import Mathlib
import WebKit.WTF.UTF8

/-!
# The Sec-WebSocket-Extensions header

The server names the extensions that it takes in a header, and each is offered to the processor of its
token.  The header value is read by a scanner that skips spaces before what it consumes.

* `ExtensionParser`: the scanner, with the bytes from `m_current` to `m_end`.
* `WebSocketExtensionDispatcher`: the processors and what they accepted; `offered` lists the calls of
  `processResponse`.
* `processHeaderValue`: reads a header value.
-/

namespace WebKit
namespace WebSockets

open WTF (UString fromUTF8 utf8)

/-- The text of a string of the source. -/
def literal (text : String) : UString := text.toList.map fun c => UInt16.ofNat c.toNat

/-- `String(characters, length)`. -/
def ofLatin1 (characters : List UInt8) : UString := characters.map fun c => c.toUInt16

/-! ## The parser -/

def quote : UInt8 := 34
def backslash : UInt8 := 92
def semicolon : UInt8 := 59
def comma : UInt8 := 44
def equals : UInt8 := 61

/-- The characters of `separatorCharacters`, in their order. -/
def separatorCharacters : List UInt8 :=
  [40, 41, 60, 62, 64, comma, semicolon, 58, backslash, quote, 47, 91, 93, 63, equals, 123, 125, 32, 9]

variable (character : UInt8)

def isSeparator : Bool := separatorCharacters.contains character

/-- `isASCIIPrintable` for a `char`, which is signed. -/
def isASCIIPrintable : Bool := 0x20 ≤ character && character ≤ 0x7E

/-- What `skipSpaces` skips. -/
def isBlank : Bool := character == 32 || character == 9

/-- What `consumeToken` takes. -/
def isTokenCharacter : Bool :=
  isASCIIPrintable character && !isSeparator character

/-- No token is the null string. -/
structure ExtensionParser where
  current : List UInt8
  currentToken : Option UString

namespace ExtensionParser

variable (parser : ExtensionParser)

def finished : Bool := parser.current.isEmpty

def parsedSuccessfully : Bool := parser.current.isEmpty

def skipSpaces : ExtensionParser :=
  { parser with current := parser.current.dropWhile isBlank }

def consumeToken : Bool × ExtensionParser :=
  let parser := parser.skipSpaces
  let token := parser.current.takeWhile isTokenCharacter
  let current := parser.current.dropWhile isTokenCharacter
  if token = [] then (false, { parser with current := current })
  else (true, ⟨current, some (ofLatin1 token)⟩)

/-- The loop of `consumeQuotedString`, after the quote, with the buffer: the string and what comes
after the closing quote, unless the text ends. -/
def readQuoted : List UInt8 → List UInt8 → Option (List UInt8 × List UInt8)
  | [], _ => none
  | c :: rest, buffer =>
    if c = quote then some (buffer, rest)
    else if c = backslash then
      match rest with
      | [] => none
      | d :: rest => readQuoted rest (buffer ++ [d])
    else readQuoted rest (buffer ++ [c])

/-- `String::fromUTF8` of the buffer, which has no memory when it is empty. -/
def stringOfBuffer (buffer : List UInt8) : Option (Option UString) :=
  if buffer = [] then some none else fromUTF8 buffer

/-- A quoted string so long that `String::fromUTF8` crashes is not consumed, and nothing after it. -/
def consumeQuotedString : Bool × ExtensionParser :=
  let parser := parser.skipSpaces
  match parser.current with
  | [] => (false, parser)
  | c :: rest =>
    if c ≠ quote then (false, parser)
    else
      match readQuoted rest [] with
      | none => (false, { parser with current := [] })
      | some (buffer, rest) =>
        match stringOfBuffer buffer with
        | none => (false, { parser with current := [] })
        | some string => (true, ⟨rest, string⟩)

def consumeQuotedStringOrToken : Bool × ExtensionParser :=
  match parser.consumeQuotedString with
  | (true, parser) => (true, parser)
  | (false, parser) => parser.consumeToken

def consumeCharacter (character : UInt8) : Bool × ExtensionParser :=
  let parser := parser.skipSpaces
  match parser.current with
  | [] => (false, parser)
  | c :: rest => if c = character then (true, { parser with current := rest }) else (false, parser)

end ExtensionParser

/-! ## The dispatcher -/

/-- The entries of a `HashMap<String, String>`, first added first. -/
abbrev Parameters := List (UString × Option UString)

local instance : LawfulBEq UString := inferInstance

/-- `HashMap::add`: a key that is there keeps its value. -/
def Parameters.add (parameters : Parameters) (key : UString) (value : Option UString) :
    Parameters :=
  if key ∈ parameters.map Prod.fst then parameters else parameters ++ [(key, value)]

/-- A processor, with the state of all of them. -/
structure WebSocketExtensionProcessor (State : Type) where
  extensionToken : UString
  processResponse : State → Parameters → Bool × State
  failureReason : State → UString

structure WebSocketExtensionDispatcher (State : Type) where
  processors : List (WebSocketExtensionProcessor State)
  acceptedExtensionsBuilder : UString
  failureReason : UString
  state : State
  offered : List (UString × Parameters)

namespace WebSocketExtensionDispatcher

variable {State : Type} (order : Parameters → Parameters)

/-- The text of a parameter in the accepted extensions. -/
def parameterText (parameter : UString × Option UString) : UString :=
  literal "; " ++ parameter.1 ++
    match parameter.2 with
    | none => []
    | some value => literal "=" ++ value

variable (dispatcher : WebSocketExtensionDispatcher State) (extensionToken : UString)
  (extensionParameters : Parameters)

/-- `order` is the order in which the hash map gives its entries. -/
def appendAcceptedExtension : WebSocketExtensionDispatcher State :=
  let builder := dispatcher.acceptedExtensionsBuilder
  { dispatcher with
    acceptedExtensionsBuilder := (if builder = [] then [] else builder ++ literal ", ") ++
      extensionToken ++ (order extensionParameters).flatMap parameterText }

def fail (reason : UString) : WebSocketExtensionDispatcher State :=
  { dispatcher with failureReason := reason, acceptedExtensionsBuilder := [] }

def headerIsInvalid : UString := literal "Sec-WebSocket-Extensions header is invalid"

/-- The loop over the processors: the first one with the token decides. -/
def offer : Bool × WebSocketExtensionDispatcher State :=
  match dispatcher.processors.find? fun p => p.extensionToken = extensionToken with
  | none =>
    (false, dispatcher.fail (literal "Received unexpected extension: " ++ extensionToken))
  | some processor =>
    let response := processor.processResponse dispatcher.state extensionParameters
    let dispatcher := { dispatcher with
      state := response.2
      offered := dispatcher.offered ++ [(extensionToken, extensionParameters)] }
    if response.1 then
      (true, dispatcher.appendAcceptedExtension order extensionToken extensionParameters)
    else (false, dispatcher.fail (processor.failureReason response.2))

/-- The loop over the parameters of an extension, unless the header is invalid.  Every round consumes
a character. -/
def parameterLoop : ℕ → ExtensionParser → Parameters → Option (Parameters × ExtensionParser)
  | 0, parser, extensionParameters => some (extensionParameters, parser)
  | fuel + 1, parser, extensionParameters =>
    match parser.consumeCharacter semicolon with
    | (false, parser) => some (extensionParameters, parser)
    | (true, parser) =>
      match parser.consumeToken with
      | (false, _) => none
      | (true, parser) =>
        let parameterToken := parser.currentToken.getD []
        match parser.consumeCharacter equals with
        | (true, parser) =>
          match parser.consumeQuotedStringOrToken with
          | (true, parser) =>
            parameterLoop fuel parser
              (extensionParameters.add parameterToken parser.currentToken)
          | (false, _) => none
        | (false, parser) =>
          parameterLoop fuel parser (extensionParameters.add parameterToken none)

/-- An extension with its parameters, and the comma after it unless the value ends. -/
def parseExtension (parser : ExtensionParser) : Option ((UString × Parameters) × ExtensionParser) :=
  match parser.consumeToken with
  | (false, _) => none
  | (true, parser) =>
    let extensionToken := parser.currentToken.getD []
    match parameterLoop (parser.current.length + 1) parser [] with
    | none => none
    | some (extensionParameters, parser) =>
      if parser.finished then some ((extensionToken, extensionParameters), parser)
      else
        match parser.consumeCharacter comma with
        | (false, _) => none
        | (true, parser) => some ((extensionToken, extensionParameters), parser)

/-- The loop over the extensions.  Every round consumes a character. -/
def headerLoop : ℕ → WebSocketExtensionDispatcher State → ExtensionParser →
    Bool × WebSocketExtensionDispatcher State
  | 0, dispatcher, parser => (parser.parsedSuccessfully, dispatcher)
  | fuel + 1, dispatcher, parser =>
    if parser.finished then (parser.parsedSuccessfully, dispatcher)
    else
      match parseExtension parser with
      | none => (false, dispatcher.fail headerIsInvalid)
      | some (extension, parser) =>
        match dispatcher.offer order extension.1 extension.2 with
        | (false, dispatcher) => (false, dispatcher)
        | (true, dispatcher) => headerLoop fuel dispatcher parser

def unexpectedHeader : UString :=
  literal "Received unexpected Sec-WebSocket-Extensions header"

def processHeaderValue (headerValue : UString) : Bool × WebSocketExtensionDispatcher State :=
  if headerValue = [] then (true, dispatcher)
  else if dispatcher.processors = [] then (false, dispatcher.fail unexpectedHeader)
  else
    let headerValueData := utf8 headerValue
    headerLoop order (headerValueData.length + 1) dispatcher ⟨headerValueData, none⟩

end WebSocketExtensionDispatcher

end WebSockets
end WebKit
