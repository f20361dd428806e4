import WebKit.JavaScriptCore.JSONPGrammar
import WebKit.JavaScriptCore.JSONText

/-!
# What the fast path for JSONP accepts

`tryJSONPParse` accepts the scripts of the grammar, and what it gives for a script is what its
statements denote.  The lexer returns `TokAssign` for a semicolon, and the loop over the accesses
does not ask whether the name was declared: a script is no program of JavaScript where one of its
statements makes use of that.

* `tryJSONPParse_iff`: the texts that are accepted, with what is read of them.
* `IsScript.unique`: the statements of a text are of one kind.
* `readsAsProgram_iff`: when the text is read as JavaScript reads it.
-/

namespace WebKit.JavaScriptCore.LiteralParser

open WTF
open List Statement Option

variable {Number : Type*} (numbers : Numbers Number) {needsFullSourceInfo : Bool}

/-! ## Tokens of one character -/

variable {c : UChar} {token : Token Number} {white rest text ends : List UChar} {s : Statement}

theorem ne_error_of_singleCharacter (h : singleCharacter token = some c) : token ≠ .error := by
  rintro rfl
  cases h

theorem lexerAt_single (hc : singleCharacter token = some c) (hwhite : White white)
    (rest : List UChar) : lexerAt numbers .jsonp (white ++ c :: rest) = ⟨token, rest⟩ :=
  lexerAt_of_lexes numbers hwhite (.single hc rest) (ne_error_of_singleCharacter hc)

theorem returned_single (hc : singleCharacter token = some c) (hwhite : White white)
    (rest : List UChar) :
    (lex numbers.toNumberOperations .jsonp (white ++ c :: rest)).returned = returnedType token :=
  returned_of_lexes numbers hwhite (.single hc rest) (ne_error_of_singleCharacter hc)

theorem Sign.singleCharacter_token (sign : Sign) :
    singleCharacter (sign.token : Token Number) = some sign.character := by
  cases sign <;> rfl

/-! ## Names -/

theorem not_part_of_white (h : c = ch ' ' ∨ c = 0x9 ∨ c = 0xA ∨ c = 0xD) : ¬isIdentifierPart c := by
  rcases h with rfl | rfl | rfl | rfl <;> decide

theorem white_not_part (h : White white) (hc : ¬isIdentifierPart c) (rest : List UChar) :
    ∀ d ∈ (white ++ c :: rest).head?, ¬isIdentifierPart d := by
  intro d hd
  cases white with
  | nil =>
    cases hd
    exact hc
  | cons d' white =>
    cases hd
    exact not_part_of_white (h d mem_cons_self)

theorem Sign.not_part (sign : Sign) : ¬isIdentifierPart sign.character := by
  cases sign <;> decide

theorem pathText_not_part {accesses : List Access}
    (h : ∀ access ∈ accesses, access.IsAccess numbers)
    {beforeSign : List UChar} (hbefore : White beforeSign) (sign : Sign) (rest : List UChar) :
    ∀ c ∈ (pathText accesses beforeSign sign rest).head?, ¬isIdentifierPart c := by
  rw [pathText]
  cases accesses with
  | nil => exact white_not_part hbefore sign.not_part rest
  | cons access accesses =>
    have haccess := h access mem_cons_self
    rw [flatMap_cons, append_assoc]
    cases access with
    | _ =>
      rw [Access.spelled, append_assoc]
      exact white_not_part haccess.1 (by decide) _

theorem lexerAt_identifier {name : List UChar} (hwhite : White white) (h : IsIdentifier name)
    (hrest : ∀ c ∈ rest.head?, ¬isIdentifierPart c) :
    lexerAt numbers .jsonp (white ++ (name ++ rest)) = ⟨.identifier name, rest⟩ :=
  lexerAt_of_lexes numbers hwhite (.identifier h hrest) nofun

/-! ## The path -/

section Path

variable {lexer lexer' : Lexer Number} {path : List JSONPPathEntry} {tokenType : TokenType}

theorem readPath_assign (h : tokenType = .assign) :
    readPath numbers.toNumberOperations .jsonp needsFullSourceInfo tokenType lexer path =
      some (path, lexer) := by
  rw [readPath, if_pos h]

variable {name : UString} {index : ℤ} {sign : Sign}

theorem readPath_call
    (h : pathStep numbers.toNumberOperations .jsonp needsFullSourceInfo lexer path tokenType =
      .call name) :
    readPath numbers.toNumberOperations .jsonp needsFullSourceInfo tokenType lexer path =
      some (path.dropLast ++ [.call name], lexer) := by
  rw [readPath, if_neg fun hassign => by rw [hassign] at h; cases h]
  split <;> rename_i heq <;> rw [h] at heq <;> cases heq
  rfl

theorem readPath_access {entry : JSONPPathEntry}
    (h : pathStep numbers.toNumberOperations .jsonp needsFullSourceInfo lexer path tokenType =
      .access entry lexer') :
    readPath numbers.toNumberOperations .jsonp needsFullSourceInfo tokenType lexer path =
      readPath numbers.toNumberOperations .jsonp needsFullSourceInfo
        (lex numbers.toNumberOperations .jsonp lexer'.text).returned
        (lexerAt numbers .jsonp lexer'.text) (path ++ [entry]) := by
  rw [readPath, if_neg fun hassign => by rw [hassign] at h; cases h]
  split <;> rename_i heq <;> rw [h] at heq <;> cases heq
  rfl

theorem equal_readNumber (x : Number) (rest : List UChar) (l : NumberLiteral) :
    numbers.equal x (numbers.readNumber rest l) =
      numbers.equal x (numbers.round l.negative l.magnitude) := by
  rw [Numbers.readNumber]
  split
  · rename_i h
    obtain ⟨hnegative, hmagnitude⟩ := NumberLiteral.IsNegativeZero.eq_zero h.1
    rw [hnegative, hmagnitude, numbers.equal_negativeZero]
  · rfl

/-- The index that a number is, whether its sign is read or not. -/
theorem index?_of_equal {l : NumberLiteral}
    (h : numbers.equal (numbers.ofInt index) (numbers.round l.negative l.magnitude) = true)
    (hpos : 0 ≤ index) (hlt : index < 2 ^ 31) (rest : List UChar) :
    index? numbers.toNumberOperations (.number (numbers.readNumber rest l)) = some index := by
  have hequal : numbers.equal (numbers.ofInt index) (numbers.readNumber rest l) = true := by
    rw [equal_readNumber]
    exact h
  have hint := numbers.toInt_eq index _ hpos hlt hequal
  rw [index?, hint, hequal]
  simp [hpos]

theorem equal_of_index?
    (h : index? numbers.toNumberOperations (.number (numbers.readNumber rest l)) = some index) :
    numbers.equal (numbers.ofInt index) (numbers.round l.negative l.magnitude) = true ∧
      0 ≤ index ∧ index < 2 ^ 31 := by
  rw [index?] at h
  split at h
  · rename_i hcond
    obtain rfl := some_inj.mp h
    rw [Bool.and_eq_true, equal_readNumber] at hcond
    exact ⟨hcond.1, of_decide_eq_true hcond.2, numbers.toInt_lt _⟩
  · cases h

theorem pathStep_dot
    (h : lexerAt numbers .jsonp text = ⟨.identifier name, rest⟩) (path : List JSONPPathEntry) :
    pathStep numbers.toNumberOperations .jsonp needsFullSourceInfo ⟨token, text⟩ path .dot =
      .access (.dot name) ⟨.identifier name, rest⟩ := by
  rw [pathStep, next_eq]
  rw [h]
  rfl

theorem pathStep_lookup {token' : Token Number}
    (h : lexerAt numbers .jsonp text = ⟨token', rest⟩)
    (hindex : index? numbers.toNumberOperations token' = some index)
    (hclosed : (lex numbers.toNumberOperations .jsonp rest).returned = .rBracket)
    (path : List JSONPPathEntry) :
    pathStep numbers.toNumberOperations .jsonp needsFullSourceInfo ⟨token, text⟩ path .lBracket =
      .access (.lookup index) (lexerAt numbers .jsonp rest) := by
  rw [pathStep, next_eq]
  dsimp only
  rw [h]
  rw [hindex, next_eq]
  rw [hclosed]
  rfl

/-- The step of the loop at an access. -/
theorem pathStep_access {access : Access} (h : access.IsAccess numbers)
    (hrest : ∀ c ∈ rest.head?, ¬isIdentifierPart c) (path : List JSONPPathEntry) :
    ∃ token, pathStep numbers.toNumberOperations .jsonp needsFullSourceInfo
        (lexerAt numbers .jsonp (access.spelled ++ rest)) path
        (lex numbers.toNumberOperations .jsonp (access.spelled ++ rest)).returned =
      .access access.entry ⟨token, rest⟩ := by
  cases access with
  | dot before between name =>
    obtain ⟨hbefore, hbetween, hname⟩ := h
    have hdot : singleCharacter (.dot : Token Number) = some (ch '.') := rfl
    refine ⟨.identifier name, ?_⟩
    rw [Access.spelled, append_assoc, cons_append, append_assoc,
      lexerAt_single numbers hdot hbefore, returned_single numbers hdot hbefore]
    exact pathStep_dot numbers (lexerAt_identifier numbers hbetween hname hrest) path
  | lookup before between literal after index =>
    obtain ⟨hbefore, hbetween, hafter, hfits, hequal, hpos, hlt⟩ := h
    have hstops := ((follows_cons (by decide) rest).white hafter :
      Follows (after ++ ch ']' :: rest)).stops literal
    have hopen : singleCharacter (.lBracket : Token Number) = some (ch '[') := rfl
    have hclose : singleCharacter (.rBracket : Token Number) = some (ch ']') := rfl
    refine ⟨.rBracket, ?_⟩
    rw [Access.spelled, append_assoc, cons_append, append_assoc, append_assoc,
      append_assoc, lexerAt_single numbers hopen hbefore,
      returned_single numbers hopen hbefore, ← lexerAt_single numbers hclose hafter rest]
    exact pathStep_lookup numbers
      (lexerAt_of_lexes numbers hbetween (.number hstops hfits : Lexes numbers .jsonp _ _ _) nofun)
      (index?_of_equal numbers hequal hpos hlt _) (returned_single numbers hclose hafter rest) path

theorem signed_of_ne_call (h : sign ≠ .call) (entries : List JSONPPathEntry) :
    signed sign entries = entries := by
  cases sign with
  | call => exact absurd rfl h
  | _ => rfl

theorem signed_call {entries : List JSONPPathEntry} (h : entries.getLast? = some (.dot name)) :
    signed .call entries = entries.dropLast ++ [.call name] := by
  simp only [signed, h]

/-- The loop ends at the sign. -/
theorem readPath_sign {beforeSign : List UChar} (hbefore : White beforeSign)
    (hcall : Callable needsFullSourceInfo sign path)
    (rest : List UChar) :
    readPath numbers.toNumberOperations .jsonp needsFullSourceInfo
        (lex numbers.toNumberOperations .jsonp (beforeSign ++ sign.character :: rest)).returned
        (lexerAt numbers .jsonp (beforeSign ++ sign.character :: rest)) path =
      some (signed sign path, ⟨sign.token, rest⟩) := by
  have hsign := @Sign.singleCharacter_token Number sign
  rw [lexerAt_single numbers hsign hbefore, returned_single numbers hsign hbefore]
  cases sign with
  | assign | semi => exact readPath_assign numbers rfl
  | call =>
    obtain ⟨rfl, name, hlast⟩ := hcall rfl
    rw [signed_call hlast]
    refine readPath_call numbers ?_
    change pathStep _ _ _ _ _ .lParen = _
    rw [pathStep, hlast]
    rfl

theorem readPath_complete {accesses : List Access}
    (h : ∀ access ∈ accesses, access.IsAccess numbers) {beforeSign : List UChar}
    (hbefore : White beforeSign)
    (hcall : Callable needsFullSourceInfo sign (path ++ accesses.map Access.entry))
    (rest : List UChar) :
    readPath numbers.toNumberOperations .jsonp needsFullSourceInfo
        (lex numbers.toNumberOperations .jsonp (pathText accesses beforeSign sign rest)).returned
        (lexerAt numbers .jsonp (pathText accesses beforeSign sign rest)) path =
      some (signed sign (path ++ accesses.map Access.entry), ⟨sign.token, rest⟩) := by
  induction accesses generalizing path with
  | nil =>
    rw [map_nil, append_nil] at hcall ⊢
    exact readPath_sign numbers hbefore hcall rest
  | cons access accesses ih =>
    rw [forall_mem_cons] at h
    rw [map_cons, append_cons] at hcall ⊢
    obtain ⟨token, hstep⟩ := pathStep_access numbers h.1
      (pathText_not_part numbers h.2 hbefore sign rest) path
    have htext : pathText (access :: accesses) beforeSign sign rest =
        access.spelled ++ pathText accesses beforeSign sign rest := by simp [pathText]
    rw [htext, readPath_access numbers hstep]
    exact ih h.2 hcall

end Path

/-! ## Statements -/

theorem lexerAt_white (h : White white) (rest : List UChar) :
    lexerAt numbers .jsonp (white ++ rest) = lexerAt numbers .jsonp rest := by
  change Lexer.mk _ _ = Lexer.mk _ _
  rw [Lexer.ofText, Lexer.ofText, lex_white numbers h]

theorem isKeyword_varKeyword : isKeyword varKeyword = true := by decide

theorem isIdentifier_varKeyword : IsIdentifier varKeyword where
  start := ⟨ch 'v', ['a', 'r'].map ch, rfl, by decide⟩
  parts := forall_mem_of_all (by decide)
  not_true := by decide
  not_false := by decide
  not_null := by decide

theorem firstEntry_complete (h : s.IsStatement numbers needsFullSourceInfo)
    (hrest : ∀ c ∈ rest.head?, ¬isIdentifierPart c) :
    firstEntry numbers.toNumberOperations .jsonp (lexerAt numbers .jsonp
        (s.before ++ (keywordText s.declaration ++ (s.name ++ rest)))) =
      some (s.firstEntry, ⟨.identifier s.name, rest⟩) := by
  cases hdeclaration : s.declaration with
  | none =>
    have hne : s.name ≠ varKeyword := fun heq => by
      have hkeyword := h.not_keyword
      rw [heq, isKeyword_varKeyword] at hkeyword
      cases hkeyword
    rw [keywordText, nil_append, lexerAt_identifier numbers h.before h.name hrest,
      firstEntry, identifier?, bind_some, if_neg hne, Statement.firstEntry, hdeclaration]
    rfl
  | some white =>
    obtain ⟨hwhite, hne⟩ := h.declaration white hdeclaration
    have hpart : ∀ c ∈ (white ++ (s.name ++ rest)).head?, ¬isIdentifierPart c := by
      cases white with
      | nil => exact absurd rfl hne
      | cons c white =>
        intro d hd
        cases hd
        exact not_part_of_white (hwhite c mem_cons_self)
    rw [keywordText, append_assoc,
      lexerAt_identifier numbers h.before isIdentifier_varKeyword hpart, firstEntry, next_eq]
    rw [lexerAt_identifier numbers hwhite h.name hrest, Statement.firstEntry, hdeclaration]
    rfl

theorem pathText_append (accesses : List Access) (beforeSign : List UChar) (sign : Sign)
    (text rest : List UChar) : pathText accesses beforeSign sign text ++ rest =
      pathText accesses beforeSign sign (text ++ rest) := by
  simp [pathText]

namespace Statement

variable (s : Statement)

/-- The value and what stands after it, with the text after the statement. -/
def valueText (rest : List UChar) : List UChar :=
  s.element.before ++ (s.element.text ++ (s.afterValue ++ rest))

theorem spelled_append (rest : List UChar) : s.spelled ++ rest =
    s.before ++ (keywordText s.declaration ++
      (s.name ++ pathText s.accesses s.beforeSign s.sign (s.valueText rest))) := by
  rw [spelled, valueText, append_assoc, append_assoc, append_assoc, pathText_append,
    append_assoc, append_assoc]

/-- What the parser makes of a statement with some text after it. -/
def readAt (rest : List UChar) : JSONPData Number :=
  ⟨s.path, valueAt numbers (s.afterValue ++ rest) s.element.value⟩

/-- The name at the end of a path. -/
def lastName : UString := (s.entries.getLast?.bind JSONPPathEntry.pathEntryName?).getD []

theorem entry_of_mem_entries (h : entry ∈ s.entries) (name : UString) :
    entry ≠ .call name := by
  rcases mem_cons.mp h with rfl | h
  · rw [firstEntry]
    split <;> nofun
  · obtain ⟨access, -, rfl⟩ := mem_map.mp h
    cases access <;> nofun

variable {s}

theorem afterValue_of_ne_call (h : s.sign ≠ .call) : s.afterValue = s.element.after := by
  rw [afterValue, closing, if_neg h, append_nil]

theorem afterValue_of_call (h : s.sign = .call) :
    s.afterValue = s.element.after ++ ch ')' :: s.afterCall := by
  rw [afterValue, closing, if_pos h]

end Statement

section Statements

variable {s : Statement} (h : s.IsStatement numbers needsFullSourceInfo)
include h

theorem follows_afterValue (hrest : Follows rest) : Follows (s.afterValue ++ rest) := by
  by_cases hcall : s.sign = .call
  · rw [afterValue_of_call hcall, append_assoc]
    exact (follows_cons (by decide) _).white h.element.2
  · rw [afterValue_of_ne_call hcall]
    exact hrest.white h.element.2

theorem Statement.IsStatement.getLast?_path_of_call (hcall : s.sign = .call) :
    s.path.getLast? = some (.call s.lastName) := by
  obtain ⟨-, name, hlast⟩ := h.callable hcall
  rw [path, hcall, signed_call hlast, List.getLast?_append, lastName, hlast]
  rfl

theorem Statement.IsStatement.getLast?_path_of_ne_call (hcall : s.sign ≠ .call) (name : UString) :
    s.path.getLast? ≠ some (.call name) := by
  intro hlast
  rw [path, signed_of_ne_call hcall] at hlast
  exact s.entry_of_mem_entries (mem_of_getLast? hlast) name rfl

theorem readPath_statement (rest : List UChar) :
    readPath numbers.toNumberOperations .jsonp needsFullSourceInfo
        (lex numbers.toNumberOperations .jsonp
          (pathText s.accesses s.beforeSign s.sign (s.valueText rest))).returned
        (lexerAt numbers .jsonp (pathText s.accesses s.beforeSign s.sign (s.valueText rest)))
        [s.firstEntry] =
      some (s.path, ⟨s.sign.token, s.valueText rest⟩) :=
  readPath_complete numbers h.accesses h.beforeSign h.callable (s.valueText rest)

theorem parse_statement (hrest : Follows rest) :
    parse numbers.toNumberOperations .jsonp .startParseExpression
        (lexerAt numbers .jsonp (s.valueText rest)) =
      (some (valueAt numbers (s.afterValue ++ rest) s.element.value),
        lexerAt numbers .jsonp (s.afterValue ++ rest)) :=
  parse_complete numbers h.element.1 h.value (follows_afterValue numbers h hrest)

theorem readStatement_complete (hrest : Follows rest) :
    readStatement numbers.toNumberOperations .jsonp needsFullSourceInfo
        (lexerAt numbers .jsonp (s.spelled ++ rest)) =
      some (s.readAt numbers rest, lexerAt numbers .jsonp rest) := by
  have hpart := pathText_not_part numbers h.accesses h.beforeSign s.sign (s.valueText rest)
  have hkeyword : ((s.firstEntry.pathEntryName?).map isKeyword).getD false = false := by
    have hname : s.firstEntry.pathEntryName? = some s.name := by
      rw [Statement.firstEntry]
      split <;> rfl
    rw [hname]
    exact h.not_keyword
  rw [s.spelled_append, readStatement, firstEntry_complete numbers h hpart, bind_some]
  dsimp only
  rw [hkeyword, if_neg (by simp), next_eq]
  rw [readPath_statement numbers h, bind_some]
  rw [next_eq]
  rw [parse_statement numbers h hrest]
  dsimp only
  by_cases hcall : s.sign = .call
  · have hclose : singleCharacter (.rParen : Token Number) = some (ch ')') := rfl
    rw [h.getLast?_path_of_call numbers hcall]
    rw [readAt, afterValue_of_call hcall, append_assoc,
      cons_append, lexerAt_single numbers hclose h.element.2, if_neg (by simp [Token.type]),
      next_eq, lexerAt_white numbers h.afterCall]
  · split
    · exact absurd ‹_› (h.getLast?_path_of_ne_call numbers hcall _)
    · rw [readAt, afterValue_of_ne_call hcall, lexerAt_white numbers h.element.2]

end Statements

/-! ## What was read -/

theorem identifier_of_lexer {name : UString}
    (h : identifier? (lexerAt numbers .jsonp text).currentToken = some name) :
    ∃ white rest, White white ∧ text = white ++ (name ++ rest) ∧ IsIdentifier name ∧
      (∀ c ∈ rest.head?, ¬isIdentifierPart c) ∧
      lexerAt numbers .jsonp text = ⟨.identifier name, rest⟩ := by
  have htoken : (lexerAt numbers .jsonp text).currentToken = .identifier name := by
    generalize (lexerAt numbers .jsonp text).currentToken = token at h
    cases token <;> cases h
    rfl
  obtain ⟨white, text', rest, hwhite, rfl, hlexes, hlexer⟩ := lexes_of_token numbers htoken nofun
  cases hlexes with
  | single hsingle => cases hsingle
  | identifier hname hrest => exact ⟨white, rest, hwhite, rfl, hname, hrest, hlexer⟩

theorem number_of_lexer {index : ℤ}
    (h : index? numbers.toNumberOperations (lexerAt numbers .jsonp text).currentToken =
      some index) : ∃ (white rest : List UChar) (literal : NumberLiteral), White white ∧
      text = white ++ (literal.text ++ rest) ∧
      (lexerAt numbers .jsonp text).text = rest ∧ numbers.fits literal.text = true ∧
      numbers.equal (numbers.ofInt index) (numbers.round literal.negative literal.magnitude) = true ∧
      0 ≤ index ∧ index < 2 ^ 31 := by
  cases htoken : (lexerAt numbers .jsonp text).currentToken with
  | number value =>
    obtain ⟨white, text', rest, hwhite, rfl, hlexes, hlexer⟩ := lexes_of_token numbers htoken nofun
    rw [htoken] at h
    rw [hlexer]
    cases hlexes with
    | single hsingle => cases hsingle
    | number _ hfits =>
      exact ⟨white, rest, _, hwhite, rfl, rfl, hfits, equal_of_index? numbers h⟩
  | _ =>
    rw [htoken] at h
    cases h

section Sound

variable {text : List UChar} {path : List JSONPPathEntry}
variable {lexer' : Lexer Number}

theorem access_of_pathStep {entry : JSONPPathEntry}
    (h : pathStep numbers.toNumberOperations .jsonp needsFullSourceInfo (lexerAt numbers .jsonp text)
      path (lex numbers.toNumberOperations .jsonp text).returned = .access entry lexer') :
    ∃ access rest token, Access.IsAccess numbers access ∧ text = access.spelled ++ rest ∧
      entry = access.entry ∧ lexer' = ⟨token, rest⟩ := by
  generalize htype : (lex numbers.toNumberOperations .jsonp text).returned = type at h
  unfold pathStep at h
  split at h
  · -- an index
    obtain ⟨before, text', hbefore, rfl, hlexer⟩ := single_of_token numbers .lBracket rfl
      (type_of_returned numbers htype nofun)
    rw [hlexer, next_eq] at h
    dsimp only at h
    split at h
    · cases h
    · rename_i index hindex
      obtain ⟨between, rest, literal, hbetween, rfl, hrest, hequal⟩ :=
        number_of_lexer numbers hindex
      rw [next_eq, hrest] at h
      split at h
      · cases h
      · rename_i hclosed
        obtain ⟨after, rest', hafter, rfl, hlexer'⟩ := single_of_token numbers .rBracket rfl
          (type_of_returned numbers (not_not.mp hclosed) nofun)
        rw [hlexer'] at h
        cases h
        exact ⟨.lookup before between literal after index, rest', .rBracket,
          ⟨hbefore, hbetween, hafter, hequal⟩, by simp [Access.spelled], rfl, rfl⟩
  · -- a name
    obtain ⟨before, text', hbefore, rfl, hlexer⟩ := single_of_token numbers .dot rfl
      (type_of_returned numbers htype nofun)
    rw [hlexer, next_eq] at h
    dsimp only at h
    split at h
    · cases h
    · rename_i name hname
      obtain ⟨between, rest, hbetween, rfl, hidentifier, -, hlexer'⟩ :=
        identifier_of_lexer numbers hname
      rw [hlexer'] at h
      cases h
      exact ⟨.dot before between name, rest, .identifier name, ⟨hbefore, hbetween, hidentifier⟩,
        by simp [Access.spelled], rfl, rfl⟩
  · split at h
    · split at h <;> cases h
    · cases h
  · cases h

theorem call_of_pathStep {name : UString}
    (h : pathStep numbers.toNumberOperations .jsonp needsFullSourceInfo lexer path type =
      .call name) :
    type = .lParen ∧ needsFullSourceInfo = false ∧ path.getLast? = some (.dot name) := by
  unfold pathStep at h
  split at h
  · dsimp only at h
    split at h
    · cases h
    · split at h <;> cases h
  · dsimp only at h
    split at h <;> cases h
  · split at h
    · split at h
      · cases h
      · cases h
        exact ⟨rfl, Bool.eq_false_iff.mpr ‹_›, ‹_›⟩
    · cases h
  · cases h

theorem Access.length_spelled_pos (access : Access) : 0 < access.spelled.length := by
  cases access <;> simp [Access.spelled]

/-- The sign that is a token of type `TokAssign` to the loop. -/
theorem sign_of_assign (h : (lex numbers.toNumberOperations .jsonp text).returned = .assign) :
    ∃ white sign rest, White white ∧ sign ≠ Sign.call ∧ text = white ++ sign.character :: rest ∧
      lexerAt numbers .jsonp text = ⟨sign.token, rest⟩ := by
  rw [returned_lex, returnedType] at h
  split at h
  · obtain ⟨white, rest, hwhite, htext, hlexer⟩ := single_of_token numbers _
      (Sign.singleCharacter_token .semi) ‹_›
    exact ⟨white, .semi, rest, hwhite, by simp, htext, hlexer⟩
  · obtain ⟨white, rest, hwhite, htext, hlexer⟩ := single_of_token numbers _
      (Sign.singleCharacter_token .assign) h
    exact ⟨white, .assign, rest, hwhite, by simp, htext, hlexer⟩

theorem readPath_sound (h : readPath numbers.toNumberOperations .jsonp needsFullSourceInfo
      (lex numbers.toNumberOperations .jsonp text).returned (lexerAt numbers .jsonp text) path =
        some (path', lexer')) :
    ∃ accesses beforeSign sign rest, (∀ access ∈ accesses, Access.IsAccess numbers access) ∧
      White beforeSign ∧ Callable needsFullSourceInfo sign (path ++ accesses.map Access.entry) ∧
      text = pathText accesses beforeSign sign rest ∧
      path' = signed sign (path ++ accesses.map Access.entry) ∧ lexer' = ⟨sign.token, rest⟩ := by
  induction hn : text.length using Nat.strong_induction_on generalizing text path with
  | _ n ih =>
    by_cases hassign : (lex numbers.toNumberOperations .jsonp text).returned = .assign
    · rw [readPath_assign numbers hassign] at h
      cases h
      obtain ⟨white, sign, rest, hwhite, hne, rfl, hlexer⟩ := sign_of_assign numbers hassign
      refine ⟨[], white, sign, rest, by simp, hwhite, fun hcall => absurd hcall hne, rfl, ?_,
        hlexer⟩
      rw [map_nil, append_nil, signed_of_ne_call hne]
    · cases hstep : pathStep numbers.toNumberOperations .jsonp needsFullSourceInfo
        (lexerAt numbers .jsonp text) path (lex numbers.toNumberOperations .jsonp text).returned with
      | reject =>
        rw [readPath, if_neg hassign] at h
        split at h <;> rename_i heq <;> rw [hstep] at heq <;> cases heq
        cases h
      | call name =>
        rw [readPath_call numbers hstep] at h
        cases h
        obtain ⟨htype, hneeds, hlast⟩ := call_of_pathStep numbers hstep
        obtain ⟨white, rest, hwhite, rfl, hlexer⟩ := single_of_token numbers _
          (Sign.singleCharacter_token .call) (type_of_returned numbers htype fun h => by cases h)
        refine ⟨[], white, .call, rest, by simp, hwhite, fun _ => ⟨hneeds, name, ?_⟩, rfl, ?_,
          hlexer⟩
        · rw [map_nil, append_nil, hlast]
        · rw [map_nil, append_nil, signed_call hlast]
      | access entry lexer1 =>
        rw [readPath_access numbers hstep] at h
        obtain ⟨access, rest, token, haccess, rfl, rfl, rfl⟩ := access_of_pathStep numbers hstep
        have hlt : rest.length < n := by
          have hpos := access.length_spelled_pos
          rw [← hn, length_append]
          omega
        obtain ⟨accesses, beforeSign, sign, rest', haccesses, hbefore, hcallable, rfl, hpath, hlexer⟩ :=
          ih rest.length hlt h rfl
        rw [append_assoc] at hcallable hpath
        exact ⟨access :: accesses, beforeSign, sign, rest',
          forall_mem_cons.mpr ⟨haccess, haccesses⟩, hbefore, hcallable, by simp [pathText],
          hpath, hlexer⟩

/-- The name with which a statement starts. -/
theorem firstEntry_sound {entry : JSONPPathEntry}
    (h : firstEntry numbers.toNumberOperations .jsonp (lexerAt numbers .jsonp text) =
      some (entry, lexer')) :
    ∃ (before : List UChar) (declaration : Option (List UChar)) (name rest : List UChar),
      White before ∧ (∀ white ∈ declaration, White white ∧ white ≠ []) ∧ IsIdentifier name ∧
      text = before ++ (keywordText declaration ++ (name ++ rest)) ∧
      entry = (if declaration.isSome then .declare name else .dot name) ∧
      lexer' = ⟨.identifier name, rest⟩ := by
  obtain ⟨name, hname, h⟩ := bind_eq_some_iff.mp h
  obtain ⟨before, rest, hbefore, rfl, hidentifier, hrest, hlexer⟩ :=
    identifier_of_lexer numbers hname
  split at h
  · rename_i hvar
    obtain ⟨name', hname', h⟩ := map_eq_some_iff.mp h
    cases h
    rw [hlexer] at hname' ⊢
    obtain ⟨white, rest', hwhite, rfl, hidentifier', -, hlexer'⟩ :=
      identifier_of_lexer numbers hname'
    have hne : white ≠ [] := by
      rintro rfl
      obtain ⟨c, cs, rfl, hstart⟩ := hidentifier'.start
      exact hrest c rfl (isIdentifierPart_of_start hstart)
    refine ⟨before, some white, name', rest', hbefore, ?_, hidentifier', ?_, rfl, hlexer'⟩
    · rintro _ ⟨⟩
      exact ⟨hwhite, hne⟩
    · rw [keywordText, ← hvar]
      simp
  · cases h
    exact ⟨before, none, name, rest, hbefore, by simp, hidentifier, rfl, rfl, hlexer⟩

theorem readStatement_sound {data : JSONPData Number}
    (h : readStatement numbers.toNumberOperations .jsonp needsFullSourceInfo
      (lexerAt numbers .jsonp text) = some (data, lexer')) :
    ∃ (s : Statement) (rest : List UChar), s.IsStatement numbers needsFullSourceInfo ∧
      text = s.spelled ++ rest ∧ data = s.readAt numbers rest ∧
      lexer' = lexerAt numbers .jsonp rest := by
  obtain ⟨⟨entry, lexer1⟩, hfirst, h⟩ := bind_eq_some_iff.mp h
  obtain ⟨before, declaration, name, rest1, hbefore, hdeclaration, hname, rfl, rfl, rfl⟩ :=
    firstEntry_sound numbers hfirst
  have hentry : (if declaration.isSome then JSONPPathEntry.declare name
      else .dot name).pathEntryName? = some name := by split <;> rfl
  dsimp only at h
  rw [hentry] at h
  split at h
  · cases h
  · rename_i hkeyword
    obtain ⟨⟨path, lexer2⟩, hpath, h⟩ := bind_eq_some_iff.mp h
    obtain ⟨accesses, beforeSign, sign, rest2, haccesses, hsign, hcallable, rfl, rfl, rfl⟩ :=
      readPath_sound numbers hpath
    split at h
    · cases h
    · rename_i value lexer3 hparse
      obtain ⟨white, body, rest3, json, hwhite, hvalue, rfl, rfl, rfl⟩ := parse_sound numbers hparse
      have hmade : ∀ after afterCall : List UChar, White after → White afterCall →
          IsStatement numbers needsFullSourceInfo ⟨before, declaration, name, accesses,
            beforeSign, sign, ⟨white, body, after, json⟩, afterCall⟩ := by
        intro after afterCall hafter hafterCall
        exact
          { before := hbefore
            declaration := hdeclaration
            name := hname
            not_keyword := Bool.eq_false_iff.mpr hkeyword
            accesses := haccesses
            beforeSign := hsign
            element := ⟨hwhite, hafter⟩
            value := hvalue
            callable := hcallable
            afterCall := hafterCall }
      by_cases hcall : sign = .call
      · subst hcall
        have hshort := hmade [] [] nofun nofun
        have hpath := hshort.getLast?_path_of_call numbers rfl
        rw [path, entries, Statement.firstEntry] at hpath
        rw [singleton_append, hpath] at h
        dsimp only at h
        split at h
        · cases h
        · rename_i hclosed
          obtain ⟨after, rest, hafter, rfl, hlexer⟩ :=
            single_of_token numbers .rParen rfl (not_not.mp hclosed)
          rw [hlexer] at h
          cases h
          refine ⟨_, rest, hmade after [] hafter nofun, ?_, ?_, rfl⟩
          · simp [spelled, afterValue, closing, pathText]
          · simp [readAt, afterValue, closing, path, entries, Statement.firstEntry]
      · have hshort := hmade [] [] nofun nofun
        split at h
        · exact absurd ‹_› (hshort.getLast?_path_of_ne_call numbers hcall _)
        · cases h
          refine ⟨_, rest3, hshort, ?_, ?_, rfl⟩
          · simp [spelled, afterValue, closing, pathText, hcall]
          · simp [readAt, afterValue, closing, path, entries, Statement.firstEntry, hcall]

end Sound

/-! ## Scripts -/

/-- What the parser makes of statements with an end after them. -/
def readAll (ends : List UChar) : List Statement → List (JSONPData Number)
  | [] => []
  | s :: statements => s.readAt numbers (following statements ends) :: readAll ends statements

theorem IsEnd.follows (h : IsEnd ends) : Follows ends := by
  rcases h with rfl | ⟨white, -, rfl⟩
  · exact nofun
  · exact follows_cons (by decide) white

theorem follows_following (h : IsEnd ends) (statements : List Statement) :
    Follows (following statements ends) := by
  cases statements with
  | nil => exact h.follows
  | cons s statements => exact follows_cons (by decide) _

theorem token_of_statement (h : s.IsStatement numbers needsFullSourceInfo) (rest : List UChar) :
    ∃ name, (lexerAt numbers .jsonp (s.spelled ++ rest)).currentToken = .identifier name := by
  have hpart := pathText_not_part numbers h.accesses h.beforeSign s.sign (s.valueText rest)
  have hfirst := firstEntry_complete numbers h hpart
  rw [← s.spelled_append] at hfirst
  obtain ⟨name, hname, -⟩ := bind_eq_some_iff.mp hfirst
  obtain ⟨_, _, _, _, _, _, hlexer⟩ := identifier_of_lexer numbers hname
  exact ⟨name, by rw [hlexer]⟩

theorem lexerAt_semi (rest : List UChar) : lexerAt numbers .jsonp
    (ch ';' :: rest) = ⟨.semi, rest⟩ :=
  lexerAt_single numbers (show singleCharacter (.semi : Token Number) = _ from rfl)
    (show White [] from nofun) rest

variable {statements : List Statement} {results : List (JSONPData Number)}

theorem readStatements_complete (hends : IsEnd ends)
    (h : ∀ s' ∈ s :: statements, s'.IsStatement numbers needsFullSourceInfo)
    (results : List (JSONPData Number)) :
    ∃ lexer, readStatements numbers.toNumberOperations .jsonp needsFullSourceInfo
        (lexerAt numbers .jsonp (s.spelled ++ following statements ends)) results =
      some (results ++ readAll numbers ends (s :: statements), lexer) ∧
        lexer.currentToken.type = .end := by
  induction statements generalizing s results with
  | nil =>
    have hread := readStatement_complete numbers (h s mem_cons_self)
      (follows_following hends [])
    rw [readStatements]
    split
    · rename_i heq
      rw [hread] at heq
      cases heq
    · rename_i heq
      rw [hread] at heq
      cases heq
      rcases hends with rfl | ⟨white, hwhite, rfl⟩
      · exact ⟨_, rfl, rfl⟩
      · have hend : lexerAt numbers .jsonp white = ⟨.end, []⟩ := lexerAt_end numbers hwhite
        rw [following, lexerAt_semi, next_eq, hend]
        exact ⟨_, rfl, rfl⟩
  | cons s' statements ih =>
    have hread := readStatement_complete numbers (h s mem_cons_self)
      (follows_following hends (s' :: statements))
    rw [readStatements]
    split
    · rename_i heq
      rw [hread] at heq
      cases heq
    · rename_i heq
      rw [hread] at heq
      cases heq
      obtain ⟨name, hname⟩ := token_of_statement numbers
        (h s' (mem_cons_of_mem s mem_cons_self)) (following statements ends)
      rw [following, lexerAt_semi, if_neg (by simp [Token.type]), next_eq]
      rw [if_pos (by rw [hname]; rfl)]
      obtain ⟨lexer, heq, hend⟩ := ih (fun s'' hs => h s'' (mem_cons_of_mem s hs))
        (results ++ [s.readAt numbers (following (s' :: statements) ends)])
      rw [following] at heq
      exact ⟨lexer, by rw [heq, append_assoc]; rfl, hend⟩

namespace Statement

/-- A statement with more white space after it. -/
def pad (s : Statement) (white : List UChar) : Statement :=
  if s.sign = .call then { s with afterCall := s.afterCall ++ white }
  else { s with element := { s.element with after := s.element.after ++ white } }

variable (s : Statement) (white : List UChar)

theorem pad_spelled : (s.pad white).spelled = s.spelled ++ white := by
  rw [pad]
  split <;> rename_i h <;> simp [spelled, pathText, afterValue, closing, h]

theorem pad_readAt (rest : List UChar) :
    (s.pad white).readAt numbers rest = s.readAt numbers (white ++ rest) := by
  rw [pad]
  split <;> rename_i h <;>
    simp [readAt, afterValue, closing, path, entries, firstEntry, h]

theorem IsStatement.pad {s : Statement} (h : s.IsStatement numbers needsFullSourceInfo)
    {white : List UChar} (hwhite : White white) :
    (s.pad white).IsStatement numbers needsFullSourceInfo := by
  rw [Statement.pad]
  split
  · exact { h with afterCall := h.afterCall.append hwhite }
  · exact { h with element := ⟨h.element.1, h.element.2.append hwhite⟩ }

end Statement

theorem readStatements_sound
    (h : readStatements numbers.toNumberOperations .jsonp needsFullSourceInfo
      (lexerAt numbers .jsonp text) results = some (results', lexer))
    (hend : lexer.currentToken.type = .end) :
    ∃ s statements ends, IsScript numbers needsFullSourceInfo text s statements ends ∧
      results' = results ++ readAll numbers ends (s :: statements) := by
  induction hn : text.length using Nat.strong_induction_on generalizing text results with
  | _ n ih =>
    rw [readStatements] at h
    split at h
    · cases h
    · rename_i hread
      obtain ⟨s, rest, hs, rfl, rfl, rfl⟩ := readStatement_sound numbers hread
      split at h
      · cases h
        have hwhite := (type_end_iff numbers).mp hend
        refine ⟨s.pad rest, [], [], ⟨?_, .inl rfl, ?_⟩, ?_⟩
        · rw [forall_mem_singleton]
          exact hs.pad numbers hwhite
        · rw [s.pad_spelled, following, append_nil]
        · rw [readAll, s.pad_readAt, following, append_nil]
          rfl
      · rename_i hsemi
        obtain ⟨white, rest', hwhite, rfl, hlexer⟩ :=
          single_of_token numbers .semi rfl (not_not.mp hsemi)
        have hpadded := hs.pad numbers hwhite
        rw [hlexer] at h
        split at h
        · have hlt : rest'.length < n := by
            rw [← hn]
            simp only [length_append, length_cons]
            omega
          obtain ⟨s', statements, ends, hscript, rfl⟩ := ih _ hlt h rfl
          refine ⟨s.pad white, s' :: statements, ends,
            ⟨forall_mem_cons.mpr ⟨hpadded, hscript.isStatement⟩, hscript.isEnd, ?_⟩, ?_⟩
          · rw [s.pad_spelled, following, hscript.text_eq, append_assoc]
          · have htext := hscript.text_eq
            rw [readAll, readAll, s.pad_readAt, following, ← htext, append_assoc]
            rfl
        · cases h
          have hwhite' := (type_end_iff numbers).mp hend
          refine ⟨s.pad white, [], ch ';' :: rest', ⟨?_, .inr ⟨rest', hwhite', rfl⟩, ?_⟩, ?_⟩
          · rw [forall_mem_singleton]
            exact hpadded
          · rw [s.pad_spelled, following, append_assoc]
          · rw [readAll, s.pad_readAt]
            rfl

/-- The scripts are what is accepted. -/
theorem tryJSONPParse_iff :
    tryJSONPParse numbers.toNumberOperations .jsonp needsFullSourceInfo text = some results ↔
      ∃ s statements ends, IsScript numbers needsFullSourceInfo text s statements ends ∧
        results = readAll numbers ends (s :: statements) := by
  have heq : tryJSONPParse numbers.toNumberOperations .jsonp needsFullSourceInfo text =
      if (lex numbers.toNumberOperations .jsonp text).returned ≠ .identifier then none
      else (readStatements numbers.toNumberOperations .jsonp needsFullSourceInfo
        (lexerAt numbers .jsonp text) []).bind fun read =>
          if read.2.currentToken.type = .end then some read.1 else none := rfl
  rw [heq]
  constructor
  · intro h
    split at h
    · cases h
    · obtain ⟨⟨results', lexer⟩, hread, h⟩ := bind_eq_some_iff.mp h
      split at h
      · cases h
        exact readStatements_sound numbers hread ‹_›
      · cases h
  · rintro ⟨s, statements, ends, ⟨hstatement, hends, rfl⟩, rfl⟩
    obtain ⟨name, hname⟩ := token_of_statement numbers (hstatement s mem_cons_self)
      (following statements ends)
    obtain ⟨lexer, hread, hend⟩ := readStatements_complete numbers hends hstatement []
    rw [if_neg (by rw [returned_lex, hname]; simp [returnedType, Token.type]), hread]
    exact if_pos hend

/-! ## One script for a text -/

theorem length_signed (sign : Sign) (entries : List JSONPPathEntry) :
    (signed sign entries).length = entries.length := by
  unfold signed
  split
  · rename_i hlast
    obtain ⟨init, rfl⟩ := List.getLast?_eq_some_iff.mp hlast
    simp
  · rfl

/-- The reader tells of what kind a statement is. -/
theorem Statement.IsStatement.unique {s' : Statement}
    (h : s.IsStatement numbers needsFullSourceInfo)
    (h' : s'.IsStatement numbers needsFullSourceInfo) (hrest : Follows rest)
    (hrest' : Follows rest') (htext : s.spelled ++ rest = s'.spelled ++ rest') :
    (s.IsJavaScript ↔ s'.IsJavaScript) ∧
      lexerAt numbers .jsonp rest = lexerAt numbers .jsonp rest' := by
  have hfirst := firstEntry_complete numbers h
    (pathText_not_part numbers h.accesses h.beforeSign s.sign (s.valueText rest))
  have hfirst' := firstEntry_complete numbers h'
    (pathText_not_part numbers h'.accesses h'.beforeSign s'.sign (s'.valueText rest'))
  rw [← s.spelled_append, htext, s'.spelled_append, hfirst', Option.some.injEq, Prod.mk.injEq,
    Lexer.mk.injEq] at hfirst
  obtain ⟨hentry, -, hpathText⟩ := hfirst
  have hpath := readPath_statement numbers h rest
  rw [← hpathText, ← hentry, readPath_statement numbers h' rest', Option.some.injEq,
    Prod.mk.injEq, Lexer.mk.injEq] at hpath
  obtain ⟨hpath, hsign, -⟩ := hpath
  have hsigns : s'.sign = s.sign := by
    revert hsign
    cases s.sign <;> cases s'.sign <;> first | exact fun _ => rfl | nofun
  have hdeclaration : s'.declaration.isSome = s.declaration.isSome := by
    rw [Statement.firstEntry, Statement.firstEntry] at hentry
    cases hs : s.declaration.isSome <;> cases hs' : s'.declaration.isSome <;>
      first | rfl | (rw [hs, hs'] at hentry; cases hentry)
  have haccesses : s'.accesses = [] ↔ s.accesses = [] := by
    have hlength := congrArg List.length hpath
    rw [path, path, length_signed, length_signed, entries,
      entries, length_cons, length_cons, length_map, length_map,
      Nat.add_right_cancel_iff] at hlength
    rw [← length_eq_zero_iff, ← length_eq_zero_iff, hlength]
  have hread := readStatement_complete numbers h hrest
  rw [htext, readStatement_complete numbers h' hrest', Option.some.injEq, Prod.mk.injEq] at hread
  refine ⟨?_, hread.2.symm⟩
  rw [IsJavaScript, IsJavaScript, hsigns, hdeclaration, haccesses]

/-- After a semicolon at the end of a script there is no statement. -/
theorem not_following_of_isEnd (h : s.IsStatement numbers needsFullSourceInfo)
    (hends : IsEnd ends) :
    lexerAt numbers .jsonp ends ≠ lexerAt numbers .jsonp (ch ';' :: (s.spelled ++ rest)) := by
  intro heq
  rw [lexerAt_semi] at heq
  rcases hends with rfl | ⟨white, hwhite, rfl⟩
  · cases heq
  · rw [lexerAt_semi, Lexer.mk.injEq] at heq
    obtain ⟨name, hname⟩ := token_of_statement numbers h rest
    rw [← heq.2, lexerAt_end numbers hwhite] at hname
    cases hname

/-- The statements of a text are of one kind. -/
theorem IsScript.unique {statements' : List Statement} {s s' : Statement}
    {text ends ends' : List UChar}
    (h : IsScript numbers needsFullSourceInfo text s statements ends)
    (h' : IsScript numbers needsFullSourceInfo text s' statements' ends')
    (hjs : ∀ t ∈ s :: statements, t.IsJavaScript) : ∀ t ∈ s' :: statements', t.IsJavaScript := by
  induction statements generalizing statements' s s' text with
  | nil =>
    obtain ⟨hiff, hlexer⟩ := (h.isStatement s mem_cons_self).unique numbers
      (h'.isStatement s' mem_cons_self) (follows_following h.isEnd [])
      (follows_following h'.isEnd statements') (h.text_eq.symm.trans h'.text_eq)
    cases statements' with
    | nil =>
      rw [forall_mem_singleton] at hjs ⊢
      exact hiff.mp hjs
    | cons t statements' =>
      exact absurd hlexer (not_following_of_isEnd numbers
        (h'.isStatement t (mem_cons_of_mem s' mem_cons_self)) h.isEnd)
  | cons t statements ih =>
    obtain ⟨hiff, hlexer⟩ := (h.isStatement s mem_cons_self).unique numbers
      (h'.isStatement s' mem_cons_self) (follows_following h.isEnd (t :: statements))
      (follows_following h'.isEnd statements') (h.text_eq.symm.trans h'.text_eq)
    rw [forall_mem_cons] at hjs
    cases statements' with
    | nil =>
      exact absurd hlexer.symm (not_following_of_isEnd numbers
        (h.isStatement t (mem_cons_of_mem s mem_cons_self)) h'.isEnd)
    | cons t' statements' =>
      rw [following, following, lexerAt_semi, lexerAt_semi, Lexer.mk.injEq] at hlexer
      refine forall_mem_cons.mpr ⟨hiff.mp hjs.1, ?_⟩
      exact @ih _ _ _ (t.spelled ++ following statements ends)
        ⟨fun u hu => h.isStatement u (mem_cons_of_mem s hu), h.isEnd, rfl⟩
        ⟨fun u hu => h'.isStatement u (mem_cons_of_mem s' hu), h'.isEnd, hlexer.2⟩ hjs.2

/-! ## Programs of JavaScript -/

/-- The values of the statements are read as they denote: all that is left of them is, or it is a
number that ends the text. -/
def AllKept (ends : List UChar) : List Statement → Prop
  | [] => True
  | s :: statements =>
    (s.element.value.Kept ∨
      ∃ l, s.element.value = .number l ∧ s.afterValue ++ following statements ends = []) ∧
    AllKept ends statements

theorem readAll_eq_iff (ends : List UChar) (statements : List Statement) :
    readAll numbers ends statements = statements.map (denoted numbers) ↔
      AllKept ends statements := by
  induction statements with
  | nil => simp [readAll, AllKept]
  | cons s statements ih =>
    rw [readAll, map_cons, List.cons.injEq, ih, AllKept, readAt, denoted,
      JSONPData.mk.injEq, valueAt_eq_iff]
    simp only [true_and]

/-- A text that is accepted is a program, and what is read of it are its statements with the values
that they denote. -/
def ReadsAsProgram (needsFullSourceInfo : Bool) (text : List UChar) : Prop :=
  ∀ results, tryJSONPParse numbers.toNumberOperations .jsonp needsFullSourceInfo text =
      some results →
    (∃ s statements ends, IsScript numbers.unlimited needsFullSourceInfo text s statements ends ∧
      ∀ t ∈ s :: statements, t.IsJavaScript) ∧
    ∀ s statements ends, IsScript numbers.unlimited needsFullSourceInfo text s statements ends →
      (∀ t ∈ s :: statements, t.IsJavaScript) →
      results = (s :: statements).map (denoted numbers)

theorem readAll_unlimited (ends : List UChar) (statements : List Statement) :
    readAll numbers.unlimited ends statements = readAll numbers ends statements := by
  induction statements with
  | nil => rfl
  | cons s statements ih => rw [readAll, readAll, ih, readAt, readAt, valueAt_unlimited]

/-- What is read of a text is what is read of its statements. -/
theorem results_of_isScript
    (h : tryJSONPParse numbers.toNumberOperations .jsonp needsFullSourceInfo text = some results)
    (hscript : IsScript numbers.unlimited needsFullSourceInfo text s statements ends) :
    results = readAll numbers ends (s :: statements) := by
  obtain ⟨s', statements', ends', hscript', rfl⟩ := (tryJSONPParse_iff numbers).mp h
  have hread := (tryJSONPParse_iff numbers.unlimited).mpr ⟨_, _, _, hscript, rfl⟩
  have hread' := (tryJSONPParse_iff numbers.unlimited).mpr ⟨_, _, _, hscript'.unlimited, rfl⟩
  rw [hread, Option.some.injEq, readAll_unlimited, readAll_unlimited] at hread'
  exact hread'.symm

theorem readsAsProgram_iff_fits (text : List UChar) :
    ReadsAsProgram numbers needsFullSourceInfo text ↔
      ((∃ s statements ends, IsScript numbers needsFullSourceInfo text s statements ends) →
        ∀ s statements ends, IsScript numbers.unlimited needsFullSourceInfo text s statements ends →
          (∀ t ∈ s :: statements, t.IsJavaScript) ∧ AllKept ends (s :: statements)) := by
  constructor
  · rintro h ⟨_, _, _, hroom⟩ s statements ends hscript
    have hread := (tryJSONPParse_iff numbers).mpr ⟨_, _, _, hroom, rfl⟩
    obtain ⟨⟨s', statements', ends', hscript', hjs'⟩, hdenoted⟩ := h _ hread
    have hjs := hscript'.unique numbers.unlimited hscript hjs'
    refine ⟨hjs, (readAll_eq_iff numbers _ _).mp ?_⟩
    rw [← results_of_isScript numbers hread hscript]
    exact hdenoted s statements ends hscript hjs
  · intro h results hread
    obtain ⟨s, statements, ends, hscript, -⟩ := (tryJSONPParse_iff numbers).mp hread
    have hall := h ⟨s, statements, ends, hscript⟩
    refine ⟨⟨s, statements, ends, hscript.unlimited, (hall _ _ _ hscript.unlimited).1⟩, ?_⟩
    intro s' statements' ends' hscript' _
    rw [results_of_isScript numbers hread hscript']
    exact (readAll_eq_iff numbers _ _).mpr (hall s' statements' ends' hscript').2

/-- A text is read as JavaScript reads it if and only if there is no room for its literals, or no
statement of it has a semicolon for its equals sign or declares a name with properties, and nothing in
its values is read in another way than it is spelled. -/
theorem readsAsProgram_iff (is8Bit : Bool) (text : List UChar) :
    ReadsAsProgram (numbers.sized is8Bit) needsFullSourceInfo text ↔
      ((∃ s statements ends,
          IsScript (numbers.sized is8Bit) needsFullSourceInfo text s statements ends) →
        ∀ s statements ends, IsScript numbers.unlimited needsFullSourceInfo text s statements ends →
          (∀ t ∈ s :: statements, t.IsJavaScript) ∧ AllKept ends (s :: statements)) :=
  readsAsProgram_iff_fits (numbers.sized is8Bit) text

/-- The text `a;1` is accepted as an assignment. -/
theorem not_readsAsProgram_semicolon :
    ¬ReadsAsProgram (exactNumbers.sized true) false [ch 'a', ch ';', ch '1'] := by
  have hint : IsInt [ch '1'] := .inr ⟨⟨by simp, forall_mem_of_all (by decide)⟩, by decide⟩
  have hname : IsIdentifier [ch 'a'] :=
    { start := ⟨ch 'a', [], rfl, by decide⟩
      parts := forall_mem_of_all (by decide)
      not_true := by decide
      not_false := by decide
      not_null := by decide }
  have hkeyword : isKeyword [ch 'a'] = false := by decide
  let one : NumberLiteral := ⟨false, [ch '1'], none, none, hint, by simp, by simp⟩
  let s : Statement := ⟨[], none, [ch 'a'], [], [], .semi, ⟨[], [ch '1'], [], .number one⟩, []⟩
  have hstatement : s.IsStatement (exactNumbers.sized true) false :=
    { before := white_nil
      declaration := by simp
      name := hname
      not_keyword := hkeyword
      accesses := fun _ h => by cases h
      beforeSign := white_nil
      element := ⟨white_nil, white_nil⟩
      value := @JSONValue.number _ _ one rfl
      callable := fun h => by cases h
      afterCall := white_nil }
  have hscript : IsScript (exactNumbers.sized true) false [ch 'a', ch ';', ch '1'] s [] [] :=
    ⟨forall_mem_singleton.mpr hstatement, .inl rfl, rfl⟩
  intro h
  have hall := (readsAsProgram_iff exactNumbers true _).mp h ⟨s, [], [], hscript⟩
  exact ((hall s [] [] hscript.unlimited).1 s mem_cons_self).1 rfl

end WebKit.JavaScriptCore.LiteralParser
