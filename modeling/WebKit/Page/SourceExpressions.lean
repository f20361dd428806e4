import Mathlib.Data.List.TakeWhile
import WebKit.Page.CSPSourceList

/-!
# Source expressions

The grammar of source lists in the comments of the parser, and what the parser makes of the lists.

* `SourceExpression`: the expressions, with their texts.
* `IsSourceList`: the texts of a list.
* `SourceExpression.added`: the source that an expression adds to the list.
* `parse_sourceList`: the parser adds what the expressions add.
-/

namespace WebKit.Page

open WTF
open List

/-! ## The grammar -/

/-- `ALPHA *( ALPHA / DIGIT / "+" / "-" / "." )` -/
structure SchemeName where
  first : UChar
  rest : UString
  first_alpha : isASCIIAlpha first = true
  rest_continuation : ∀ c ∈ rest, isSchemeContinuationCharacter c = true

def SchemeName.text (name : SchemeName) : UString := name.first :: name.rest

/-- `1*host-char` -/
structure HostLabel where
  text : UString
  ne_nil : text ≠ []
  host_char : ∀ c ∈ text, isHostCharacter c = true

/-- `1*host-char *( "." 1*host-char )` -/
structure HostName where
  first : HostLabel
  rest : List HostLabel

def HostName.text (name : HostName) : UString :=
  name.first.text ++ name.rest.flatMap fun label => ch '.' :: label.text

inductive HostPattern where
  | any
  | name (wildcard : Bool) (name : HostName)

def HostPattern.text : HostPattern → UString
  | any => [ch '*']
  | name wildcard host => (if wildcard then [ch '*', ch '.'] else []) ++ host.text

/-- `1*DIGIT` -/
structure Digits where
  text : UString
  ne_nil : text ≠ []
  digit : ∀ c ∈ text, isASCIIDigit c = true

/-- The number that goes on with digits. -/
def appendDigits (value : ℕ) (text : UString) : ℕ :=
  text.foldl (fun value c => 10 * value + (c.toNat - (ch '0').toNat)) value

/-- The number that digits write. -/
def Digits.value (digits : Digits) : ℕ := appendDigits 0 digits.text

inductive PortPattern where
  | any
  | number (digits : Digits)

def PortPattern.text : PortPattern → UString
  | any => [ch '*']
  | number digits => digits.text

/-- A keyword in any case. -/
structure Keyword (literal : String) where
  text : UString
  lower : text.map toASCIILower = literal.toList.map ch

inductive SourceExpression where
  | scheme (name : SchemeName)
  | host (scheme : Option SchemeName) (host : HostPattern) (port : Option PortPattern)
  | self (keyword : Keyword "'self'")

/-- The part of a host source before its port. -/
def hostText (scheme : Option SchemeName) (host : HostPattern) : UString :=
  (scheme.elim [] fun scheme => scheme.text ++ [ch ':', ch '/', ch '/']) ++ host.text

def SourceExpression.text : SourceExpression → UString
  | .scheme name => name.text ++ [ch ':']
  | .host schemeName pattern port =>
    hostText schemeName pattern ++ port.elim [] fun port => ch ':' :: port.text
  | .self keyword => keyword.text

/-- White space. -/
def IsWhite (text : UString) : Prop := ∀ c ∈ text, isASCIISpace c = true

instance (text : UString) : Decidable (IsWhite text) :=
  decidable_of_iff (text.all isASCIISpace = true) all_eq_true

/-- A text that ends or goes on with white space. -/
def IsApart (text : UString) : Prop := ∀ c ∈ text.head?, isASCIISpace c = true

instance (text : UString) : Decidable (IsApart text) :=
  decidable_of_iff (text.head?.all isASCIISpace = true) (Option.all_eq_true _ _)

/-- Sources that are apart from one another. -/
inductive IsSources : List SourceExpression → UString → Prop
  | nil {white : UString} (hwhite : IsWhite white) : IsSources [] white
  | cons {white text : UString} {source : SourceExpression} {sources : List SourceExpression}
      (hwhite : IsWhite white) (hrest : IsSources sources text) (hapart : IsApart text) :
      IsSources (source :: sources) (white ++ source.text ++ text)

/-- The texts of a list of sources.  What stands behind a first `'none'` is no source. -/
inductive IsSourceList : List SourceExpression → UString → Prop
  | sources {sources : List SourceExpression} {text : UString} (h : IsSources sources text) :
      IsSourceList sources text
  | none {white text : UString} (hwhite : IsWhite white) (keyword : Keyword "'none'")
      (hapart : IsApart text) : IsSourceList [] (white ++ keyword.text ++ text)

/-! ## Characters -/

/-- A character that separates nothing and starts no keyword. -/
def IsPlain (c : UChar) : Prop :=
  isASCIISpace c = false ∧ c ≠ ch ':' ∧ c ≠ ch '*' ∧ c ≠ ch '/' ∧ toASCIILower c ≠ ch '\''

instance (c : UChar) : Decidable (IsPlain c) := inferInstanceAs (Decidable (_ ∧ _))

variable {c : UChar}

theorem isPlain_of_alphanumeric (h : isASCIIAlphanumeric c = true) : IsPlain c ∧ c ≠ ch '.' := by
  have hall : ∀ n : Fin 0x80, isASCIIAlphanumeric (UInt16.ofNat n) = true →
      IsPlain (UInt16.ofNat n) ∧ UInt16.ofNat n ≠ ch '.' := by decide +kernel
  exact of_ascii (p := fun c => isASCIIAlphanumeric c = true → IsPlain c ∧ c ≠ ch '.') hall
    (lt_of_isASCIIAlphanumeric h) h

theorem isPlain_of_hostCharacter (h : isHostCharacter c = true) : IsPlain c ∧ c ≠ ch '.' := by
  rw [isHostCharacter, Bool.or_eq_true] at h
  rcases h with h | h
  · exact isPlain_of_alphanumeric h
  · rw [beq_iff_eq.mp h]
    decide

theorem isPlain_of_schemeCharacter (h : isSchemeContinuationCharacter c = true) : IsPlain c := by
  rw [isSchemeContinuationCharacter, Bool.or_eq_true, Bool.or_eq_true, Bool.or_eq_true] at h
  rcases h with ((h | h) | h) | h
  · exact (isPlain_of_alphanumeric h).1
  all_goals
    rw [beq_iff_eq.mp h]
    decide

theorem isPlain_of_alpha (h : isASCIIAlpha c = true) : IsPlain c :=
  (isPlain_of_alphanumeric (by rw [isASCIIAlphanumeric, h, Bool.or_true])).1

theorem isPlain_of_digit (h : isASCIIDigit c = true) : IsPlain c :=
  (isPlain_of_alphanumeric (by rw [isASCIIAlphanumeric, h, Bool.true_or])).1

theorem SchemeName.isPlain (name : SchemeName) : ∀ c ∈ name.text, IsPlain c :=
  forall_mem_cons.mpr ⟨isPlain_of_alpha name.first_alpha,
    fun c hc => isPlain_of_schemeCharacter (name.rest_continuation c hc)⟩

theorem HostLabel.isPlain (label : HostLabel) : ∀ c ∈ label.text, IsPlain c :=
  fun c hc => (isPlain_of_hostCharacter (label.host_char c hc)).1

theorem HostName.isPlain (name : HostName) : ∀ c ∈ name.text, IsPlain c := by
  intro c hc
  rcases mem_append.mp hc with hc | hc
  · exact name.first.isPlain c hc
  · obtain ⟨label, -, hc⟩ := mem_flatMap.mp hc
    rcases mem_cons.mp hc with rfl | hc
    · decide
    · exact label.isPlain c hc

/-! ## The parts of an expression -/

theorem parseScheme_text (name : SchemeName) : parseScheme name.text = some name.text := by
  rw [SchemeName.text, parseScheme, if_pos]
  rw [name.first_alpha, Bool.true_and, all_eq_true]
  exact name.rest_continuation

theorem HostLabel.exists_cons (label : HostLabel) : ∃ c rest, label.text = c :: rest ∧
    isHostCharacter c = true ∧ ∀ d ∈ rest, isHostCharacter d = true := by
  obtain ⟨c, rest, hrest⟩ := exists_cons_of_ne_nil label.ne_nil
  exact ⟨c, rest, hrest, forall_mem_cons.mp (hrest ▸ label.host_char)⟩

theorem skipLabels_text {labels : List HostLabel} (label : HostLabel) :
    skipLabels (label.text ++ labels.flatMap fun label => ch '.' :: label.text) = true := by
  induction labels generalizing label with
  | nil =>
    obtain ⟨c, rest, hrest, hchars⟩ := label.exists_cons
    rw [flatMap_nil, append_nil, hrest, skipLabels, if_neg (by simp [hchars.1])]
    rw [dropWhile_eq_nil_iff.mpr hchars.2]
  | cons label' labels ih =>
    obtain ⟨c, rest, hrest, hchars⟩ := label.exists_cons
    rw [hrest, cons_append, skipLabels, if_neg (by simp [hchars.1])]
    rw [dropWhile_append_of_pos hchars.2]
    exact ih label'

/-- What the parser makes of a host. -/
def HostPattern.parsed : HostPattern → UString × Bool
  | any => ([], true)
  | name wildcard host => (host.text, wildcard)

theorem HostName.exists_cons (name : HostName) :
    ∃ c rest, name.text = c :: rest ∧ IsPlain c ∧ isHostCharacter c = true := by
  obtain ⟨c, rest, hrest, hc, -⟩ := name.first.exists_cons
  refine ⟨c, rest ++ name.rest.flatMap fun label => ch '.' :: label.text, ?_,
    (isPlain_of_hostCharacter hc).1, hc⟩
  rw [HostName.text, hrest, cons_append]

theorem parseHost_text (pattern : HostPattern) : parseHost pattern.text = some pattern.parsed := by
  cases pattern with
  | any => rfl
  | name wildcard host =>
    have hlabels : skipLabels host.text = true := skipLabels_text host.first
    cases wildcard with
    | true =>
      rw [HostPattern.text, if_pos rfl, cons_append, cons_append, nil_append, parseHost]
      simp only [hlabels]
      rfl
    | false =>
      obtain ⟨c, rest, hrest, hplain, -⟩ := host.exists_cons
      rw [hrest] at hlabels
      rw [HostPattern.text, if_neg Bool.false_ne_true, nil_append, HostPattern.parsed, hrest]
      simp only [parseHost, hplain.2.2.1, if_false, hlabels, if_true]

theorem HostPattern.of_mem_text (pattern : HostPattern) (hc : c ∈ pattern.text) :
    c = ch '*' ∨ c = ch '.' ∨ IsPlain c := by
  cases pattern with
  | any => exact .inl (mem_singleton.mp hc)
  | name wildcard host =>
    rcases mem_append.mp hc with hc | hc
    · cases wildcard with
      | false => cases hc
      | true => exact (mem_cons.mp hc).imp_right fun hc => .inl (mem_singleton.mp hc)
    · exact .inr (.inr (host.isPlain c hc))

theorem HostPattern.ne_colon (pattern : HostPattern) : ∀ c ∈ pattern.text, c ≠ ch ':' := by
  intro c hc
  rcases pattern.of_mem_text hc with rfl | rfl | hplain
  · decide
  · decide
  · exact hplain.2.1

theorem le_appendDigits (value : ℕ) (text : UString) : value ≤ appendDigits value text := by
  induction text generalizing value with
  | nil => exact le_rfl
  | cons c text ih =>
    have hle := ih (10 * value + (c.toNat - (ch '0').toNat))
    rw [appendDigits, foldl_cons]
    rw [appendDigits] at hle
    omega

theorem digitValue_le (h : isASCIIDigit c = true) : c.toNat - (ch '0').toNat ≤ 9 := by
  rw [isASCIIDigit, Bool.and_eq_true] at h
  have hle := UInt16.le_iff_toNat_le.mp (of_decide_eq_true h.2)
  have hnine : (ch '9').toNat = 57 := rfl
  have hzero : (ch '0').toNat = 48 := rfl
  omega

/-- The loop gives the number, if it fits. -/
theorem charactersToIntStrict_eq (htext : ∀ c ∈ text, isASCIIDigit c = true)
    (hvalue : value < 2 ^ 31) :
    charactersToIntStrict value text =
      if appendDigits value text < 2 ^ 31 then some (appendDigits value text) else none := by
  induction text generalizing value with
  | nil => exact (if_pos hvalue).symm
  | cons c text ih =>
    obtain ⟨hc, htext⟩ := forall_mem_cons.mp htext
    have hdigit := digitValue_le hc
    have hgrows := le_appendDigits (10 * value + (c.toNat - (ch '0').toNat)) text
    rw [charactersToIntStrict, appendDigits, foldl_cons, ← appendDigits]
    split
    · rw [if_neg (by omega)]
    · exact ih htext (by omega)

variable (port : PortPattern)

theorem PortPattern.ne_nil : port.text ≠ [] := by
  cases port with
  | any => exact cons_ne_nil _ _
  | number digits => exact digits.ne_nil

/-- What the parser makes of a port. -/
def PortPattern.parsed : PortPattern → Option (ℕ × Bool)
  | any => some (0, true)
  | number digits => if digits.value < 2 ^ 31 then some (digits.value, false) else none

theorem parsePort_text : parsePort port.text = port.parsed := by
  rw [parsePort, if_neg port.ne_nil]
  cases port with
  | any => rfl
  | number digits =>
    have hstar : digits.text ≠ [ch '*'] := by
      intro heq
      have hdigit := digits.digit (ch '*') (by rw [heq]; exact mem_cons_self)
      revert hdigit
      decide
    rw [PortPattern.text, if_neg hstar, if_pos (all_eq_true.mpr digits.digit),
      charactersToIntStrict_eq digits.digit (by decide), PortPattern.parsed, Digits.value]
    split <;> rfl

/-- The same for a port that may be absent. -/
def parsedPort : Option PortPattern → Option (ℕ × Bool)
  | none => some (0, false)
  | some port => port.parsed

/-- A port with its colon. -/
def portText (port : Option PortPattern) : UString := port.elim [] fun port => ch ':' :: port.text

section

variable {text rest : UString} (htext : ∀ c ∈ text, c ≠ ch ':')
  (hrest : ∀ c ∈ rest.head?, c = ch ':')
include hrest htext

theorem takeWhile_colon : (text ++ rest).takeWhile (· != ch ':') = text := by
  rw [takeWhile_append_of_pos fun c hc => bne_iff_ne.mpr (htext c hc)]
  cases rest with
  | nil => rw [takeWhile_nil, append_nil]
  | cons c rest =>
    have hc : c = ch ':' := hrest c rfl
    rw [takeWhile_cons_of_neg (by rw [hc]; decide), append_nil]

theorem dropWhile_colon : (text ++ rest).dropWhile (· != ch ':') = rest := by
  rw [dropWhile_append_of_pos fun c hc => bne_iff_ne.mpr (htext c hc)]
  cases rest with
  | nil => rfl
  | cons c rest =>
    have hc : c = ch ':' := hrest c rfl
    rw [dropWhile_cons_of_neg (by rw [hc]; decide)]

end

theorem head_portText (port : Option PortPattern) : ∀ c ∈ (portText port).head?, c = ch ':' := by
  cases port with
  | none => nofun
  | some port => exact fun c hc => (Option.some_inj.mp hc).symm

section Hosts

variable {host : UString} {parsedHost : UString × Bool}

theorem parseHostAndPort_of_host (scheme : UString) (hcolon : ∀ c ∈ host, c ≠ ch ':')
    (hhost : parseHost host = some parsedHost) (port : Option PortPattern) :
    parseHostAndPort scheme (host ++ portText port) = (parsedPort port).map fun parsed =>
      ⟨scheme, parsedHost.1, parsed.1, parsedHost.2, parsed.2⟩ := by
  have hne : host ≠ [] := by
    rintro rfl
    cases hhost
  rw [parseHostAndPort, takeWhile_colon hcolon (head_portText port),
    dropWhile_colon hcolon (head_portText port), if_neg hne, hhost]
  cases port with
  | none => rfl
  | some port =>
    dsimp only [portText, Option.elim_some]
    rw [parsePort_text, parsedPort]

/-- The first character of a port is no slash. -/
theorem PortPattern.exists_cons :
    ∃ c rest, port.text = c :: rest ∧ c ≠ ch '/' := by
  cases port with
  | any => exact ⟨ch '*', [], rfl, by decide⟩
  | number digits =>
    obtain ⟨c, rest, hrest⟩ := exists_cons_of_ne_nil digits.ne_nil
    have hc := digits.digit c (by rw [hrest]; exact mem_cons_self)
    exact ⟨c, rest, hrest, (isPlain_of_digit hc).2.2.2.1⟩

def schemeText (schemeName : Option SchemeName) : UString :=
  schemeName.elim [] fun scheme => scheme.text ++ [ch ':', ch '/', ch '/']

theorem parseExpression_of_host (schemeName : Option SchemeName) (hcolon : ∀ c ∈ host, c ≠ ch ':')
    (hhost : parseHost host = some parsedHost) (port : Option PortPattern) :
    parseExpression (schemeText schemeName ++ host ++ portText port) =
      (parsedPort port).map fun parsed => ⟨schemeName.elim [] SchemeName.text, parsedHost.1,
        parsed.1, parsedHost.2, parsed.2⟩ := by
  cases schemeName with
  | none =>
    rw [schemeText, Option.elim_none, nil_append, parseExpression,
      takeWhile_colon hcolon (head_portText port), dropWhile_colon hcolon (head_portText port)]
    cases port with
    | none =>
      rw [hhost]
      rfl
    | some port =>
      obtain ⟨c, rest, hrest, hc⟩ := port.exists_cons
      have htext := parseHostAndPort_of_host [] hcolon hhost (some port)
      dsimp only [portText, Option.elim_some] at htext ⊢
      rw [hrest] at htext ⊢
      dsimp only
      rw [if_neg hc, htext]
      rfl
  | some name =>
    have hname : ∀ c ∈ name.text, c ≠ ch ':' := fun c hc => (name.isPlain c hc).2.1
    have hslashes : ∀ c ∈ ([ch ':', ch '/', ch '/'] ++ (host ++ portText port)).head?,
        c = ch ':' := fun c hc => (Option.some_inj.mp hc).symm
    rw [schemeText, Option.elim_some, append_assoc, append_assoc, parseExpression,
      takeWhile_colon hname hslashes, dropWhile_colon hname hslashes, parseScheme_text]
    dsimp only [cons_append, nil_append]
    rw [parseHostAndPort_of_host _ hcolon hhost]
    rfl

end Hosts

theorem parseExpression_scheme (name : SchemeName) :
    parseExpression (name.text ++ [ch ':']) = some ⟨name.text, [], 0, false, false⟩ := by
  have hname : ∀ c ∈ name.text, c ≠ ch ':' := fun c hc => (name.isPlain c hc).2.1
  have hcolon : ∀ c ∈ [ch ':'].head?, c = ch ':' := fun c hc => (Option.some_inj.mp hc).symm
  rw [parseExpression, takeWhile_colon hname hcolon, dropWhile_colon hname hcolon, parseScheme_text]
  rfl

theorem parseExpression_host (schemeName : Option SchemeName) (pattern : HostPattern)
    (port : Option PortPattern) :
    parseExpression (hostText schemeName pattern ++ portText port) =
      (parsedPort port).map fun parsed => ⟨schemeName.elim [] SchemeName.text, pattern.parsed.1,
        parsed.1, pattern.parsed.2, parsed.2⟩ :=
  parseExpression_of_host schemeName pattern.ne_colon (parseHost_text pattern) port

/-! ## Keywords -/

/-- What is asked of the folding of characters: ASCII letters are folded to lower case. -/
def FoldsASCII (foldCase : UChar → UChar) : Prop :=
  ∀ c : UChar, c.toNat < 0x80 → foldCase c = toASCIILower c

section Keywords

variable {foldCase : UChar → UChar} (hfold : FoldsASCII foldCase)

theorem toNat_le_toASCIILower (c : UChar) : c.toNat ≤ (toASCIILower c).toNat := by
  rw [toASCIILower]
  split
  · exact Nat.left_le_or
  · exact le_rfl

include hfold in
/-- A text that starts with a plain character or an asterisk is no keyword. -/
theorem not_keyword (hlt : c.toNat < 0x80) (hc : toASCIILower c ≠ ch '\'')
    (keyword : String) (tail : List Char) (hkeyword : keyword.toList = '\'' :: tail) :
    equalIgnoringCaseLiteral foldCase keyword (c :: rest) = false := by
  rw [equalIgnoringCaseLiteral, hkeyword, map_cons, map_cons, cons_append,
    map_cons, isPrefixOf_cons_cons, hfold c hlt, hfold (ch '\'') (by decide)]
  have hquote : toASCIILower (ch '\'') = ch '\'' := by decide
  rw [hquote, beq_eq_false_iff_ne.mpr hc, Bool.false_and]

variable (keyword : Keyword literal)

include hfold in
/-- A keyword in any case is equal to its literal. -/
theorem Keyword.fold (hliteral : ∀ c ∈ literal.toList.map ch, c.toNat < 0x80 ∧ toASCIILower c = c) :
    keyword.text.map foldCase = (literal.toList.map ch).map foldCase := by
  have hlower : keyword.text.map foldCase = keyword.text.map toASCIILower := by
    refine map_congr_left fun c hc => hfold c ?_
    have hmem := mem_map_of_mem (f := toASCIILower) hc
    rw [keyword.lower] at hmem
    exact Nat.lt_of_le_of_lt (toNat_le_toASCIILower c) (hliteral _ hmem).1
  have hsame : (literal.toList.map ch).map foldCase = literal.toList.map ch := by
    conv_rhs => rw [← map_id (literal.toList.map ch)]
    exact map_congr_left fun c hc => (hfold c (hliteral c hc).1).trans (hliteral c hc).2
  rw [hlower, keyword.lower, hsame]

/-! ## Lists -/

variable (origin : SecurityOrigin)

/-- The scheme of a host source is that of the origin where it is omitted. -/
def schemeOf (scheme : Option SchemeName) : UString :=
  scheme.elim origin.protocol SchemeName.text

/-- The source that an expression adds. -/
def SourceExpression.added : SourceExpression → Option CSPSource
  | .scheme name => some ⟨name.text, [], 0, false, false⟩
  | .host none .any none => none
  | .host schemeName pattern port => (parsedPort port).map fun parsed =>
      ⟨schemeOf origin schemeName, pattern.parsed.1, parsed.1, pattern.parsed.2, parsed.2⟩
  | .self _ => some ⟨origin.protocol, origin.host, origin.port.toNat, false, false⟩

def SourceExpression.isStar : SourceExpression → Bool
  | .host none .any none => true
  | _ => false

/-- The list with the sources of some expressions. -/
def CSPSourceList.withSources (sourceList : CSPSourceList)
    (sources : List SourceExpression) : CSPSourceList :=
  { sourceList with
    list := sourceList.list ++ sources.flatMap fun source => (source.added origin).toList
    allowStar := sourceList.allowStar || sources.any SourceExpression.isStar }

/-- A character that starts an expression and no keyword. -/
def IsStart (c : UChar) : Prop :=
  c.toNat < 0x80 ∧ isASCIISpace c = false ∧ toASCIILower c ≠ ch '\''

theorem isStart_of_hostCharacter (h : isHostCharacter c = true) : IsStart c := by
  obtain ⟨hspace, -, -, -, hquote⟩ := (isPlain_of_hostCharacter h).1
  refine ⟨?_, hspace, hquote⟩
  rw [isHostCharacter, Bool.or_eq_true] at h
  rcases h with h | h
  · exact lt_of_isASCIIAlphanumeric h
  · rw [beq_iff_eq.mp h]
    decide

theorem SchemeName.isStart (name : SchemeName) : IsStart name.first :=
  isStart_of_hostCharacter (by
    rw [isHostCharacter, isASCIIAlphanumeric, name.first_alpha, Bool.or_true, Bool.true_or])

theorem isStart_star : IsStart (ch '*') := ⟨by decide, by decide, by decide⟩

/-- The first character of a host pattern. -/
theorem HostPattern.exists_cons (pattern : HostPattern) :
    ∃ c rest, pattern.text = c :: rest ∧ IsStart c := by
  cases pattern with
  | any => exact ⟨ch '*', [], rfl, isStart_star⟩
  | name wildcard host =>
    cases wildcard with
    | true => exact ⟨ch '*', ch '.' :: host.text, rfl, isStart_star⟩
    | false =>
      obtain ⟨c, rest, hrest, -, hc⟩ := host.exists_cons
      exact ⟨c, rest, hrest, isStart_of_hostCharacter hc⟩

/-- The first character of a host source. -/
theorem hostText_exists_cons (schemeName : Option SchemeName) (pattern : HostPattern) :
    ∃ c rest, hostText schemeName pattern = c :: rest ∧ IsStart c := by
  cases schemeName with
  | none => exact pattern.exists_cons
  | some name => exact ⟨name.first, _, rfl, name.isStart⟩

/-! ## Adding an expression -/

section Adding

variable {foldCase : UChar → UChar} {origin : SecurityOrigin} {sourceList : CSPSourceList}

/-- What is no keyword is parsed. -/
theorem addSource_of_isStart (hfold : FoldsASCII foldCase)
    (hc : IsStart c) (hstar : c :: rest ≠ [ch '*']) :
    sourceList.addSource foldCase origin (c :: rest) =
      match parseExpression (c :: rest) with
      | none => sourceList
      | some source =>
        { sourceList with
          list := sourceList.list ++ [⟨if source.scheme.isEmpty then origin.protocol
            else source.scheme, source.host, source.port, source.hostHasWildcard,
            source.portHasWildcard⟩] } := by
  rw [CSPSourceList.addSource, if_neg hstar, not_keyword hfold hc.1 hc.2.2 "'self'" _ rfl,
    not_keyword hfold hc.1 hc.2.2 "'unsafe-inline'" _ rfl,
    not_keyword hfold hc.1 hc.2.2 "'unsafe-eval'" _ rfl]
  rfl

theorem addSource_scheme (hfold : FoldsASCII foldCase) (name : SchemeName) :
    sourceList.addSource foldCase origin (name.text ++ [ch ':']) =
      sourceList.withSources origin [.scheme name] := by
  have hparse := parseExpression_scheme name
  rw [SchemeName.text, cons_append] at hparse ⊢
  rw [addSource_of_isStart hfold name.isStart (by simp), hparse]
  simp [CSPSourceList.withSources, SourceExpression.added, SourceExpression.isStar, SchemeName.text]

variable {schemeName : Option SchemeName} {pattern : HostPattern} {port : Option PortPattern}

/-- The expression `*` is the only one with its text. -/
theorem text_ne_star (hsource : (SourceExpression.host schemeName pattern port).isStar = false) :
    hostText schemeName pattern ++ portText port ≠ [ch '*'] := by
  intro heq
  obtain ⟨c, rest, hrest, -⟩ := pattern.exists_cons
  cases schemeName with
  | some name =>
    have hlength := congrArg List.length heq
    simp only [hostText, Option.elim_some, length_append, length_cons, length_nil] at hlength
    omega
  | none =>
    cases port with
    | some port =>
      have hlength := congrArg List.length heq
      rw [hostText, hrest, portText, Option.elim_some] at hlength
      simp only [length_append, length_cons, length_nil] at hlength
      omega
    | none =>
      rw [hostText] at heq
      cases pattern with
      | any => cases hsource
      | name wildcard host =>
        obtain ⟨d, hostRest, hhost, hplain, -⟩ := host.exists_cons
        cases wildcard with
        | true =>
          have hlength := congrArg List.length heq
          rw [HostPattern.text, if_pos rfl] at hlength
          simp only [length_append, length_cons] at hlength
          omega
        | false =>
          rw [HostPattern.text, hhost] at heq
          exact hplain.2.2.1 (List.cons.inj heq).1

/-- The scheme of the parser is empty where it is omitted. -/
theorem schemeOf_eq (origin : SecurityOrigin) (schemeName : Option SchemeName) :
    (if (schemeName.elim [] SchemeName.text).isEmpty then origin.protocol
      else schemeName.elim [] SchemeName.text) = schemeOf origin schemeName := by
  cases schemeName with
  | _ => rfl

theorem added_host (hsource : (SourceExpression.host schemeName pattern port).isStar = false) :
    (SourceExpression.host schemeName pattern port).added origin =
      (parsedPort port).map fun parsed => ⟨schemeOf origin schemeName, pattern.parsed.1, parsed.1,
        pattern.parsed.2, parsed.2⟩ := by
  unfold SourceExpression.added
  split
  · contradiction
  · rename_i heq
    obtain ⟨rfl, rfl, rfl⟩ := SourceExpression.host.inj heq
    cases hsource
  · rename_i heq
    obtain ⟨rfl, rfl, rfl⟩ := SourceExpression.host.inj heq
    rfl
  · contradiction

theorem addSource_host (hfold : FoldsASCII foldCase) (schemeName : Option SchemeName)
    (pattern : HostPattern) (port : Option PortPattern) :
    sourceList.addSource foldCase origin (hostText schemeName pattern ++ portText port) =
      sourceList.withSources origin [.host schemeName pattern port] := by
  cases hstar : (SourceExpression.host schemeName pattern port).isStar with
  | true =>
    unfold SourceExpression.isStar at hstar
    split at hstar
    · rename_i heq
      obtain ⟨rfl, rfl, rfl⟩ := SourceExpression.host.inj heq
      simp [CSPSourceList.withSources, SourceExpression.added, SourceExpression.isStar,
        CSPSourceList.addSource, CSPSourceList.addSourceStar, hostText, portText, HostPattern.text]
    · cases hstar
  | false =>
    have hparse := parseExpression_host schemeName pattern port
    have hne := text_ne_star hstar
    obtain ⟨c, rest, hrest, hc⟩ := hostText_exists_cons schemeName pattern
    rw [hrest, cons_append] at hparse hne ⊢
    rw [addSource_of_isStart hfold hc hne, hparse, CSPSourceList.withSources, any_cons, hstar,
      flatMap_singleton, added_host hstar]
    cases hport : parsedPort port with
    | none => simp
    | some parsed =>
      simp only [Option.map_some, schemeOf_eq, any_nil, Bool.or_false, Option.toList_some]

/-- The literals are in lower case. -/
theorem Keyword.isPrefixOf (hfold : FoldsASCII foldCase)
    (hliteral : ∀ c ∈ literal.toList.map ch, c.toNat < 0x80 ∧ toASCIILower c = c) :
    equalIgnoringCaseLiteral foldCase literal keyword.text = true := by
  rw [equalIgnoringCaseLiteral, keyword.fold hfold hliteral, map_append, isPrefixOf_iff_prefix]
  exact prefix_append _ _

theorem Keyword.text_length :
    keyword.text.length = literal.toList.length := by
  simpa using congrArg List.length keyword.lower

theorem addSource_self (hfold : FoldsASCII foldCase) (keyword : Keyword "'self'") :
    sourceList.addSource foldCase origin keyword.text =
      sourceList.withSources origin [.self keyword] := by
  have hlength : keyword.text.length = 6 := keyword.text_length
  have hne : keyword.text ≠ [] := by
    intro heq
    rw [heq] at hlength
    cases hlength
  have hstar : keyword.text ≠ [ch '*'] := by
    intro heq
    rw [heq] at hlength
    cases hlength
  rw [CSPSourceList.addSource, if_neg hne, if_neg hstar,
    if_pos (keyword.isPrefixOf hfold (forall_mem_of_all (by decide)))]
  simp [CSPSourceList.withSources, SourceExpression.added, SourceExpression.isStar,
    CSPSourceList.addSourceSelf]

/-- What is parsed of an expression is what it adds. -/
theorem addSource_text (hfold : FoldsASCII foldCase) (source : SourceExpression) :
    sourceList.addSource foldCase origin source.text = sourceList.withSources origin [source] := by
  cases source with
  | scheme name => exact addSource_scheme hfold name
  | host schemeName pattern port => exact addSource_host hfold schemeName pattern port
  | self keyword => exact addSource_self hfold keyword

end Adding

/-! ## The loop over a list -/

theorem not_space_of_lower (h : isASCIISpace (toASCIILower c) = false) :
    isASCIISpace c = false := by
  by_cases hupper : isASCIIUpper c = true
  · rw [isASCIIUpper, Bool.and_eq_true] at hupper
    have hle := UInt16.le_iff_toNat_le.mp (of_decide_eq_true hupper.1)
    have hspace : ¬c ≤ ch ' ' := by
      exact not_le.mpr (Nat.lt_of_lt_of_le (by decide) hle)
    rw [isASCIISpace, decide_eq_false hspace, Bool.false_and]
  · rwa [toASCIILower, if_neg hupper] at h

theorem Keyword.not_space (hliteral : ∀ c ∈ literal.toList.map ch, isASCIISpace c = false) :
    ∀ c ∈ keyword.text, isASCIISpace c = false := by
  intro c hc
  have hmem := mem_map_of_mem (f := toASCIILower) hc
  rw [keyword.lower] at hmem
  exact not_space_of_lower (hliteral _ hmem)

variable {keyword}

theorem HostPattern.not_space (pattern : HostPattern) :
    ∀ c ∈ pattern.text, isASCIISpace c = false := by
  intro c hc
  rcases pattern.of_mem_text hc with rfl | rfl | hplain
  · decide
  · decide
  · exact hplain.1

theorem PortPattern.not_space : ∀ c ∈ port.text, isASCIISpace c = false := by
  intro c hc
  cases port with
  | any =>
    rw [mem_singleton.mp hc]
    decide
  | number digits => exact (isPlain_of_digit (digits.digit c hc)).1

variable {port}

/-- An expression has no white space. -/
theorem SourceExpression.not_space (source : SourceExpression) :
    ∀ c ∈ source.text, isASCIISpace c = false := by
  cases source with
  | scheme name =>
    refine forall_mem_append.mpr ⟨fun c hc => (name.isPlain c hc).1, ?_⟩
    exact forall_mem_of_all (by decide)
  | host schemeName pattern port =>
    refine forall_mem_append.mpr ⟨forall_mem_append.mpr ⟨?_, pattern.not_space⟩, ?_⟩
    · cases schemeName with
      | none => nofun
      | some name =>
        refine forall_mem_append.mpr ⟨fun c hc => (name.isPlain c hc).1, ?_⟩
        exact forall_mem_of_all (by decide)
    · cases port with
      | none => nofun
      | some port => exact forall_mem_cons.mpr ⟨by decide, port.not_space⟩
  | self keyword => exact keyword.not_space (forall_mem_of_all (by decide))

theorem SourceExpression.text_ne_nil (source : SourceExpression) : source.text ≠ [] := by
  cases source with
  | scheme name => exact cons_ne_nil _ _
  | host schemeName pattern port =>
    obtain ⟨c, rest, hrest, -⟩ := hostText_exists_cons schemeName pattern
    rw [SourceExpression.text, hrest]
    exact cons_ne_nil _ _
  | self keyword =>
    intro heq
    have hlength := keyword.text_length
    rw [show keyword.text = [] from heq] at hlength
    cases hlength

section Loop

variable {foldCase : UChar → UChar} {origin : SecurityOrigin} {sourceList : CSPSourceList}

/-- One iteration takes a source. -/
theorem parseLoop_source (hwhite : IsWhite white)
    (hne : source ≠ []) (hsource : ∀ c ∈ source, isASCIISpace c = false) (hapart : IsApart text) :
    sourceList.parseLoop foldCase origin isFirst (white ++ source ++ text) =
      if isFirst && equalIgnoringCaseLiteral foldCase "'none'" source then sourceList
      else (sourceList.addSource foldCase origin source).parseLoop foldCase origin false text := by
  have htext : white ++ source ++ text ≠ [] := by simp [hne]
  have hspaces : (white ++ source ++ text).dropWhile isASCIISpace = source ++ text := by
    rw [append_assoc, dropWhile_append_of_pos hwhite]
    obtain ⟨c, rest, rfl⟩ := exists_cons_of_ne_nil hne
    rw [cons_append, dropWhile_cons_of_neg]
    rw [hsource c mem_cons_self]
    exact Bool.false_ne_true
  have hchars : ∀ c ∈ source, isSourceCharacter c = true := by
    intro c hc
    rw [isSourceCharacter, hsource c hc, Bool.not_false]
  have htake : (source ++ text).takeWhile isSourceCharacter = source := by
    rw [takeWhile_append_of_pos hchars]
    cases text with
    | nil => rw [takeWhile_nil, append_nil]
    | cons c rest =>
      have hc : isASCIISpace c = true := hapart c rfl
      rw [takeWhile_cons_of_neg (by simp [isSourceCharacter, hc]), append_nil]
  have hdrop : (source ++ text).dropWhile isSourceCharacter = text := by
    rw [dropWhile_append_of_pos hchars]
    cases text with
    | nil => rfl
    | cons c rest =>
      have hc : isASCIISpace c = true := hapart c rfl
      rw [dropWhile_cons_of_neg (by simp [isSourceCharacter, hc])]
  rw [CSPSourceList.parseLoop, dif_neg htext]
  dsimp only
  rw [hspaces, htake, hdrop]

/-- White space at the end adds nothing. -/
theorem parseLoop_white (hwhite : IsWhite white) :
    sourceList.parseLoop foldCase origin isFirst white = sourceList := by
  rw [CSPSourceList.parseLoop]
  split
  · rfl
  · dsimp only
    rw [dropWhile_eq_nil_iff.mpr hwhite, takeWhile_nil, dropWhile_nil]
    split
    · rfl
    · rw [CSPSourceList.addSource, if_pos rfl, CSPSourceList.parseLoop, dif_pos rfl]

theorem withSources_nil : sourceList.withSources origin [] = sourceList := by
  simp [CSPSourceList.withSources]

theorem withSources_cons (source : SourceExpression) (sources : List SourceExpression) :
    (sourceList.withSources origin [source]).withSources origin sources =
      sourceList.withSources origin (source :: sources) := by
  simp [CSPSourceList.withSources, Bool.or_assoc]

/-- `'none'` is no expression. -/
theorem SourceExpression.not_none (hfold : FoldsASCII foldCase) (source : SourceExpression) :
    equalIgnoringCaseLiteral foldCase "'none'" source.text = false := by
  cases source with
  | scheme name => exact not_keyword hfold name.isStart.1 name.isStart.2.2 _ _ rfl
  | host schemeName pattern port =>
    obtain ⟨c, rest, hrest, hc⟩ := hostText_exists_cons schemeName pattern
    rw [SourceExpression.text, hrest]
    exact not_keyword hfold hc.1 hc.2.2 _ _ rfl
  | self keyword =>
    have hself : keyword.text.map foldCase = "'self'".toList.map ch := by
      rw [keyword.fold hfold (forall_mem_of_all (by decide))]
      exact (map_congr_left fun c hc => hfold c
        (forall_mem_of_all (p := fun c => c.toNat < 0x80) (by decide) c hc)).trans (by decide)
    have hnone : ("'none'".toList.map ch ++ [0]).map foldCase = "'none'".toList.map ch ++ [0] :=
      (map_congr_left fun c hc => hfold c
        (forall_mem_of_all (p := fun c => c.toNat < 0x80) (by decide) c hc)).trans (by decide)
    rw [equalIgnoringCaseLiteral, SourceExpression.text, hself, hnone]
    decide

/-- The loop over a list of sources adds each. -/
theorem parseLoop_sources (hfold : FoldsASCII foldCase) (h : IsSources sources text)
    (isFirst : Bool) (sourceList : CSPSourceList) :
    sourceList.parseLoop foldCase origin isFirst text = sourceList.withSources origin sources := by
  induction h generalizing isFirst sourceList with
  | nil hwhite => rw [parseLoop_white hwhite, withSources_nil]
  | @cons white text source sources hwhite hrest hapart ih =>
    rw [parseLoop_source hwhite source.text_ne_nil source.not_space hapart,
      source.not_none hfold, Bool.and_false, if_neg Bool.false_ne_true, ih,
      addSource_text hfold, withSources_cons]

theorem parse_sourceList (hfold : FoldsASCII foldCase) (h : IsSourceList sources text) :
    CSPSourceList.parse foldCase origin text = CSPSourceList.initial.withSources origin sources := by
  cases h with
  | sources h => exact parseLoop_sources hfold h true _
  | none hwhite keyword hapart =>
    have hne : keyword.text ≠ [] := by
      intro heq
      have hlength := keyword.text_length
      rw [heq] at hlength
      cases hlength
    rw [CSPSourceList.parse, parseLoop_source hwhite hne (keyword.not_space (forall_mem_of_all (by decide))) hapart,
      keyword.isPrefixOf hfold (forall_mem_of_all (by decide)), Bool.and_self, if_pos rfl, withSources_nil]

end Loop

end Keywords

end WebKit.Page
