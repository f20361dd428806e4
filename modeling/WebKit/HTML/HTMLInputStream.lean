import WebKit.Text.SegmentedText

/-!
# The input stream of the HTML parser

The input is a sequence of segmented strings: the current one, from which characters are consumed
and into which `document.write` inserts, and one for each open `InsertionPointRecord`, the text
after its insertion point.  The network appends to the last one, which `m_last` points to.

* `HTMLInputStream`: the stream with the records open on the stack, the innermost first.
* `Operation`: what the parser, the scripts and the network do to it, in any order.
* `Levels`: the same as plain text, one text for each string.
-/

namespace WebKit.HTML

open Text
open Text.SegmentedString (Valid)

/-! ## The stream -/

/-- What an `InsertionPointRecord` holds while it is open. -/
structure InsertionPointRecord where
  next : SegmentedString
  line : ℤ
  column : ℤ

/-- The strings that `m_last` may point to: the current one, or that of an open record, given by
the number of records that were open before it. -/
inductive StringPointer
  | first
  | next (depth : ℕ)
  deriving DecidableEq

structure HTMLInputStream where
  first : SegmentedString
  last : StringPointer
  records : List InsertionPointRecord

namespace HTMLInputStream

def empty : HTMLInputStream := ⟨SegmentedString.empty, .first, []⟩

variable (stream : HTMLInputStream)

/-- The place of a record in the list of open records, which has the innermost first. -/
def placeOf (depth : ℕ) : ℕ := stream.records.length - 1 - depth

/-- `*m_last`. -/
def lastString : SegmentedString :=
  match stream.last with
  | .first => stream.first
  | .next depth =>
    match stream.records[stream.placeOf depth]? with
    | some record => record.next
    | none => stream.first

/-- Changes `*m_last`. -/
def modifyLast (f : SegmentedString → SegmentedString) : HTMLInputStream :=
  match stream.last with
  | .first => { stream with first := f stream.first }
  | .next depth =>
    { stream with
      records := stream.records.modify (stream.placeOf depth)
        fun record => { record with next := f record.next } }

variable (string : SegmentedString)

def appendToEnd : HTMLInputStream :=
  stream.modifyLast fun s => s.append string

def insertAtCurrentInsertionPoint : HTMLInputStream :=
  { stream with first := stream.first.append string }

def hasInsertionPoint : Bool := stream.last != .first

/-- The marker of the end of the file, one character. -/
def endOfFileMarker : UChar := 0

def markEndOfFile : HTMLInputStream :=
  stream.modifyLast fun s => (s.append (SegmentedString.ofString [endOfFileMarker])).close

def haveSeenEndOfFile : Bool := stream.lastString.isClosed

/-! ### Records -/

/-- `splitInto(m_next)`, with the record that is being constructed put on the stack. -/
def splitInto (line column : ℤ) : HTMLInputStream :=
  { first := SegmentedString.empty
    last := if stream.last = .first then .next stream.records.length else stream.last
    records := ⟨stream.first, line, column⟩ :: stream.records }

/-- The constructor of `InsertionPointRecord`. -/
def openRecord : HTMLInputStream :=
  let line := stream.first.currentLine
  let column := stream.first.currentColumn
  let split := stream.splitInto line column
  { split with first := split.first.setCurrentPosition line column 0 }

/-- `mergeFrom(m_next)` for the record on top of the stack, which goes. -/
def mergeFrom (record : InsertionPointRecord)
    (rest : List InsertionPointRecord) : HTMLInputStream :=
  let appended := stream.first.append record.next
  { first := if record.next.isClosed then appended.close else appended
    last := if stream.last = .next rest.length then .first else stream.last
    records := rest }

/-- The destructor of the innermost `InsertionPointRecord`.  The length of the remainder is handed on
as an `int`, and the counters that it goes into are taken modulo `2 ^ 32` (`toInt`). -/
def closeRecord : HTMLInputStream :=
  match stream.records with
  | [] => stream
  | record :: rest =>
    let unparsedRemainderLength := stream.first.length
    let merged := stream.mergeFrom record rest
    { merged with
      first := merged.first.setCurrentPosition record.line record.column unparsedRemainderLength }

/-! ### Consumption -/

/-- The ways to take a character from `current()`. -/
inductive Consumption
  | advance
  | advanceLine (lineNumber : ℤ)
  | advancePastNewline (lineNumber : ℤ)
  | advancePastNonNewline

def Consumption.apply (s : SegmentedString) : Consumption → SegmentedString
  | .advance => s.advance
  | .advanceLine n => (s.advanceLine n).1
  | .advancePastNewline n => (s.advancePastNewline n).1
  | .advancePastNonNewline => s.advancePastNonNewline

/-! ## Operations -/

inductive Operation
  | openRecord
  | closeRecord
  | insertAtCurrentInsertionPoint (string : SegmentedString)
  | appendToEnd (string : SegmentedString)
  | markEndOfFile
  | consume (way : Consumption)

def step : Operation → HTMLInputStream
  | .openRecord => stream.openRecord
  | .closeRecord => stream.closeRecord
  | .insertAtCurrentInsertionPoint string => stream.insertAtCurrentInsertionPoint string
  | .appendToEnd string => stream.appendToEnd string
  | .markEndOfFile => stream.markEndOfFile
  | .consume way => { stream with first := way.apply stream.first }

/-- The character that an operation consumes. -/
def consumed : Operation → List UChar
  | .consume _ => stream.first.current.toList
  | _ => []

/-- The stream after a sequence of operations, and the characters consumed. -/
def run (stream : HTMLInputStream) : List Operation → HTMLInputStream × List UChar
  | [] => (stream, [])
  | op :: ops =>
    let r := (stream.step op).run ops
    (r.1, stream.consumed op ++ r.2)

/-- A string as it is given to the stream: nothing pushed back, and nothing consumed. -/
structure IsFreshText (string : SegmentedString) : Prop where
  valid : string.Valid
  unescaped : string.escaped = false
  fresh : string.Fresh

/-- No newline of the string counts. -/
def IsExcluded : Prop := ∀ e ∈ string.text, e.2 = false

/-- What the assertions ask for, and what the stream is given: a record that goes was there, text
is fresh, inserted text is excluded from the line numbers, and no string is appended to after it
was closed. -/
def Operation.Allowed : Operation → Prop
  | .openRecord => True
  | .closeRecord => stream.records ≠ []
  | .insertAtCurrentInsertionPoint string =>
    IsFreshText string ∧ IsExcluded string ∧ stream.first.closed = false
  | .appendToEnd string => IsFreshText string ∧ stream.lastString.closed = false
  | .markEndOfFile => stream.lastString.closed = false
  | .consume .advance => True
  | .consume (.advanceLine _) => True
  | .consume (.advancePastNewline _) => stream.first.current = some newline
  | .consume .advancePastNonNewline => ∃ c, stream.first.current = some c ∧ c ≠ newline

/-- Every operation of the sequence is allowed where it is made. -/
def AllowedRun (stream : HTMLInputStream) : List Operation → Prop
  | [] => True
  | op :: ops => op.Allowed stream ∧ AllowedRun (stream.step op) ops

end HTMLInputStream

/-! ## The stream as plain text -/

/-- The text of each string, the current one first. -/
abbrev Levels := List (List UChar)

namespace Levels

/-- Puts a text at the end of the outermost string. -/
def appendLast (text : List UChar) (levels : Levels) : Levels :=
  levels.modify (levels.length - 1) fun level => level ++ text

/-- Puts a text at the end of the current string. -/
def appendFirst (text : List UChar) : Levels → Levels
  | [] => []
  | level :: levels => (level ++ text) :: levels

/-- Puts the text of the first string before that of the second. -/
def merge : Levels → Levels
  | level :: level' :: levels => (level ++ level') :: levels
  | levels => levels

/-- Takes the first character of the current string. -/
def takeFirst : Levels → Levels
  | [] => []
  | level :: levels => level.tail :: levels

open HTMLInputStream (Operation)

/-- What an operation should do: inserted text comes before the text after each insertion point,
and what the network sends comes last. -/
def step (levels : Levels) : Operation → Levels
  | .openRecord => [] :: levels
  | .closeRecord => merge levels
  | .insertAtCurrentInsertionPoint string => appendFirst string.characters levels
  | .appendToEnd string => appendLast string.characters levels
  | .markEndOfFile => appendLast [HTMLInputStream.endOfFileMarker] levels
  | .consume _ => takeFirst levels

/-- The character that an operation should consume. -/
def consumed (levels : Levels) : Operation → List UChar
  | .consume _ => (levels.head?.getD []).head?.toList
  | _ => []

def run (levels : Levels) : List Operation → Levels × List UChar
  | [] => (levels, [])
  | op :: ops =>
    let r := run (levels.step op) ops
    (r.1, levels.consumed op ++ r.2)

end Levels

end WebKit.HTML
