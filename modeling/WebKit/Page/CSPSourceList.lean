import WebKit.WTF.ASCIICType
import WebKit.WTF.UTF8

/-!
# The source lists of content security policies

`CSPSourceList` reads a list of source expressions and says which URLs it allows.

A string without characters and the null string are not told apart.  They are compared only where a
URL has no scheme.

* `CSPSource.matchesURL`: a source and a URL.
* `parseSource`: the reader of one expression.
* `CSPSourceList.parse`, `CSPSourceList.matchesURL`: the list.
-/

namespace WebKit.Page

open WTF
open List

/-! ## Strings -/

section Strings

variable (foldCase : UChar → UChar)

def equalIgnoringCase (a b : UString) : Bool := a.map foldCase == b.map foldCase

/-- The comparison with a literal for the length of a text: a prefix of the literal is equal, too, and
no text goes on behind its terminator. -/
def equalIgnoringCaseLiteral (literal : String) (text : UString) : Bool :=
  (text.map foldCase).isPrefixOf ((literal.toList.map ch ++ [0]).map foldCase)

def endsWithIgnoringCase (text suffix : UString) : Bool :=
  decide (suffix.length ≤ text.length) &&
    equalIgnoringCase foldCase (text.drop (text.length - suffix.length)) suffix

/-! ## Sources -/

/-- What a policy asks of a URL.  The port is 0 where there is none. -/
structure KURL where
  protocol : UString
  host : UString
  port : UInt16

/-- The port is 0 where it is the default port. -/
structure SecurityOrigin where
  protocol : UString
  host : UString
  port : UInt16

/-- The table of `isDefaultPortForProtocol`. -/
def defaultPorts : List (String × ℕ) := [("http", 80), ("https", 443), ("ftp", 21), ("ftps", 990)]

/-- The entry of a protocol, whatever its case. -/
def findDefaultPort (protocol : UString) : Option ℕ :=
  (defaultPorts.find? fun entry =>
    equalIgnoringCase foldCase (entry.1.toList.map ch) protocol).map Prod.snd

/-- A protocol that is not in the table has the entry 0. -/
def isDefaultPortForProtocol (port : UInt16) (protocol : UString) : Bool :=
  !protocol.isEmpty && (findDefaultPort foldCase protocol).getD 0 == port.toNat

/-- `m_port` is an `int`. -/
structure CSPSource where
  scheme : UString
  host : UString
  port : ℕ
  hostHasWildcard : Bool
  portHasWildcard : Bool

namespace CSPSource

variable (source : CSPSource) (url : KURL)

def isSchemeOnly : Bool := source.host.isEmpty

def schemeMatches : Bool := equalIgnoringCase foldCase url.protocol source.scheme

def hostMatches : Bool :=
  equalIgnoringCase foldCase url.host source.host ||
    source.hostHasWildcard && endsWithIgnoringCase foldCase url.host (ch '.' :: source.host)

/-- `isDefaultPortForProtocol` takes an `unsigned short`. -/
def portMatches : Bool :=
  if source.portHasWildcard then true
  else if url.port.toNat = source.port then true
  else if url.port = 0 then isDefaultPortForProtocol foldCase (UInt16.ofNat source.port) source.scheme
  else if source.port = 0 then isDefaultPortForProtocol foldCase url.port source.scheme
  else false

def matchesURL : Bool :=
  if !source.schemeMatches foldCase url then false
  else if source.isSchemeOnly then true
  else source.hostMatches foldCase url && source.portMatches foldCase url

end CSPSource

end Strings

/-! ## Reading an expression -/

def isSourceCharacter (c : UChar) : Bool := !isASCIISpace c

def isHostCharacter (c : UChar) : Bool := isASCIIAlphanumeric c || c == ch '-'

def isSchemeContinuationCharacter (c : UChar) : Bool :=
  isASCIIAlphanumeric c || c == ch '+' || c == ch '-' || c == ch '.'

def parseScheme : UString → Option UString
  | [] => none
  | c :: rest =>
    if isASCIIAlpha c && rest.all isSchemeContinuationCharacter then some (c :: rest) else none

/-- The loop over the labels of a host. -/
def skipLabels : UString → Bool
  | [] => true
  | c :: rest =>
    if !isHostCharacter c then false
    else match h : rest.dropWhile isHostCharacter with
      | [] => true
      | d :: rest' => if d = ch '.' then skipLabels rest' else false
termination_by text => text.length
decreasing_by
  have hle := (dropWhile_suffix isHostCharacter (l := rest)).length_le
  rw [h, length_cons] at hle
  rw [length_cons]
  omega

/-- The host, and whether it has a wildcard. -/
def parseHost : UString → Option (UString × Bool)
  | [] => none
  | c :: rest =>
    if c = ch '*' then
      match rest with
      | [] => some ([], true)
      | d :: host => if d = ch '.' && skipLabels host then some (host, true) else none
    else if skipLabels (c :: rest) then some (c :: rest, false) else none

/-- `charactersToIntStrict` on digits: the loop, with its test for overflow. -/
def charactersToIntStrict (value : ℕ) : UString → Option ℕ
  | [] => some value
  | c :: rest =>
    let digitValue := c.toNat - (ch '0').toNat
    let integralMax := 2 ^ 31 - 1
    if value > integralMax / 10 ∨ value = integralMax / 10 ∧ digitValue > integralMax % 10 then none
    else charactersToIntStrict (10 * value + digitValue) rest

/-- The port, and whether it is a wildcard. -/
def parsePort (text : UString) : Option (ℕ × Bool) :=
  if text = [] then none
  else if text = [ch '*'] then some (0, true)
  else if text.all isASCIIDigit then (charactersToIntStrict 0 text).map fun port => (port, false)
  else none

/-- The outputs of `parseSource`. -/
structure ParsedSource where
  scheme : UString
  host : UString
  port : ℕ
  hostHasWildcard : Bool
  portHasWildcard : Bool

/-- The end of `parseSource`, from the host. -/
def parseHostAndPort (scheme text : UString) : Option ParsedSource :=
  let beforeColon := text.takeWhile (· != ch ':')
  if beforeColon = [] then none
  else match parseHost beforeColon with
    | none => none
    | some (host, hostHasWildcard) =>
      match text.dropWhile (· != ch ':') with
      | [] => some ⟨scheme, host, 0, hostHasWildcard, false⟩
      | _ :: rest =>
        (parsePort rest).map fun port => ⟨scheme, host, port.1, hostHasWildcard, port.2⟩

/-- `parseSource` behind its tests for keywords. -/
def parseExpression (text : UString) : Option ParsedSource :=
  let beforeColon := text.takeWhile (· != ch ':')
  match text.dropWhile (· != ch ':') with
  | [] =>
    (parseHost beforeColon).map fun host => ⟨[], host.1, 0, host.2, false⟩
  | [_] => (parseScheme beforeColon).map fun scheme => ⟨scheme, [], 0, false, false⟩
  | _ :: c :: rest =>
    if c = ch '/' then
      match parseScheme beforeColon, rest with
      | some scheme, d :: rest => if d = ch '/' then parseHostAndPort scheme rest else none
      | _, _ => none
    else parseHostAndPort [] text

/-! ## The list -/

structure CSPSourceList where
  list : List CSPSource
  allowStar : Bool
  allowInline : Bool
  allowEval : Bool

namespace CSPSourceList

variable (foldCase : UChar → UChar) (origin : SecurityOrigin)

def initial : CSPSourceList := ⟨[], false, false, false⟩

variable (sourceList : CSPSourceList)

def addSourceSelf : CSPSourceList :=
  { sourceList with
    list := sourceList.list ++ [⟨origin.protocol, origin.host, origin.port.toNat, false, false⟩] }

def addSourceStar : CSPSourceList := { sourceList with allowStar := true }

def addSourceUnsafeInline : CSPSourceList := { sourceList with allowInline := true }

def addSourceUnsafeEval : CSPSourceList := { sourceList with allowEval := true }

/-- `parseSource`, with the addition of the source that it outputs. -/
def addSource (text : UString) : CSPSourceList :=
  if text = [] then sourceList
  else if text = [ch '*'] then sourceList.addSourceStar
  else if equalIgnoringCaseLiteral foldCase "'self'" text then sourceList.addSourceSelf origin
  else if equalIgnoringCaseLiteral foldCase "'unsafe-inline'" text then
    sourceList.addSourceUnsafeInline
  else if equalIgnoringCaseLiteral foldCase "'unsafe-eval'" text then sourceList.addSourceUnsafeEval
  else match parseExpression text with
    | none => sourceList
    | some source =>
      let scheme := if source.scheme.isEmpty then origin.protocol else source.scheme
      { sourceList with
        list := sourceList.list ++ [⟨scheme, source.host, source.port, source.hostHasWildcard,
          source.portHasWildcard⟩] }

/-- Each iteration takes a character: a space, or one of the source. -/
theorem length_afterSource_lt (h : text ≠ []) :
    ((text.dropWhile isASCIISpace).dropWhile isSourceCharacter).length < text.length := by
  obtain ⟨c, rest, rfl⟩ := exists_cons_of_ne_nil h
  have hspaces := (dropWhile_suffix isASCIISpace (l := rest)).length_le
  rw [length_cons, Nat.lt_succ_iff]
  by_cases hc : isASCIISpace c = true
  · rw [dropWhile_cons_of_pos hc]
    exact (dropWhile_suffix isSourceCharacter).length_le.trans hspaces
  · have hsource : isSourceCharacter c = true := by rw [isSourceCharacter]; simpa using hc
    rw [dropWhile_cons_of_neg hc, dropWhile_cons_of_pos hsource]
    exact (dropWhile_suffix isSourceCharacter).length_le

/-- The loop over the list. -/
def parseLoop (isFirstSourceInList : Bool) (sourceList : CSPSourceList) (text : UString) :
    CSPSourceList :=
  if h : text = [] then sourceList
  else
    let text' := text.dropWhile isASCIISpace
    let source := text'.takeWhile isSourceCharacter
    if isFirstSourceInList && equalIgnoringCaseLiteral foldCase "'none'" source then sourceList
    else parseLoop false (sourceList.addSource foldCase origin source)
      (text'.dropWhile isSourceCharacter)
termination_by text.length
decreasing_by exact length_afterSource_lt h

def parse (value : UString) : CSPSourceList := parseLoop foldCase origin true initial value

def matchesURL (url : KURL) : Bool :=
  sourceList.allowStar || sourceList.list.any fun source => source.matchesURL foldCase url

end CSPSourceList

end WebKit.Page
