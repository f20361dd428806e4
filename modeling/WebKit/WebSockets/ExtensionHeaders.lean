import WebKit.WTF.UTF8Conversions
import WebKit.WebSockets.WebSocketExtensionDispatcher

/-!
# The tokens of an extension header

What `processHeaderValue` does is a function of the tokens of the value, `readHeader`, but for one
thing: whether the value ends with a space or a tab (`processHeaderValue_eq`).  This matters where the
tokens are used up and an extension could begin: in a value of spaces, and after a last comma.  A
value that is too long for `String::utf8` is accepted with nothing offered
(`processHeaderValue_long`).

* `tokens`: the tokens of a value, and `lex_insert_blank`: what stands between them.
* `Extension.lexemes`, `listLexemes`: the grammar, as what a list of extensions is written as.
* `readsTokens_iff`: when a value is read by its tokens.
-/

namespace WebKit

open List WebSockets
namespace WebSockets

open WTF (UString utf8)
open WTF.Unicode (convertUTF16ToUTF8 writeCharacter trailingByte isLowSurrogate)

/-! ## The tokens -/

/-- A token of a header value: a token, a quoted string with its escapes resolved, a quoted string
that does not end, or another character. -/
inductive Lexeme
  | token (token : List UInt8)
  | quoted (buffer : List UInt8)
  | unterminated
  | character (character : UInt8)
  deriving DecidableEq

/-- Where the lexer is. -/
inductive LexerMode
  | start
  | token (token : List UInt8)
  | quoted (buffer : List UInt8)
  | escaped (buffer : List UInt8)

/-- A character between tokens. -/
def lexStart (c : UInt8) : List Lexeme × LexerMode :=
  if isBlank c then ([], .start)
  else if c = quote then ([], .quoted [])
  else if isTokenCharacter c then ([], .token [c])
  else ([.character c], .start)

def lexCharacter : LexerMode → UInt8 → List Lexeme × LexerMode
  | .start, c => lexStart c
  | .token token, c =>
    if isTokenCharacter c then ([], .token (token ++ [c]))
    else (.token token :: (lexStart c).1, (lexStart c).2)
  | .quoted buffer, c =>
    if c = quote then ([.quoted buffer], .start)
    else if c = backslash then ([], .escaped buffer)
    else ([], .quoted (buffer ++ [c]))
  | .escaped buffer, c => ([], .quoted (buffer ++ [c]))

def lexEnd : LexerMode → List Lexeme
  | .start => []
  | .token token => [.token token]
  | .quoted _ => [.unterminated]
  | .escaped _ => [.unterminated]

def lexFrom : LexerMode → List UInt8 → List Lexeme
  | mode, [] => lexEnd mode
  | mode, c :: text => (lexCharacter mode c).1 ++ lexFrom (lexCharacter mode c).2 text

/-- The tokens of a text. -/
def lex (text : List UInt8) : List Lexeme := lexFrom .start text

variable {c : UInt8} {lexemes' rest : List Lexeme}

variable (h : isBlank c = true)

include h

theorem not_isTokenCharacter_of_isBlank : isTokenCharacter c = false := by
  rw [isBlank, Bool.or_eq_true, beq_iff_eq, beq_iff_eq] at h
  rcases h with rfl | rfl <;> decide

theorem ne_quote_of_isBlank : c ≠ quote ∧ c ≠ backslash := by
  rw [isBlank, Bool.or_eq_true, beq_iff_eq, beq_iff_eq] at h
  rcases h with rfl | rfl <;> decide

theorem lexStart_of_isBlank : lexStart c = ([], .start) :=
  if_pos h

omit h

/-- Where the lexer is after a text. -/
def modeAfter (mode : LexerMode) (text : List UInt8) : LexerMode :=
  text.foldl (fun mode c => (lexCharacter mode c).2) mode

theorem lexFrom_congr {text text' : List UInt8} {before : List UInt8} {mode : LexerMode}
    (h : lexFrom (modeAfter mode before) text = lexFrom (modeAfter mode before) text') :
    lexFrom mode (before ++ text) = lexFrom mode (before ++ text') := by
  induction before generalizing mode with
  | nil => exact h
  | cons d before ih => rw [cons_append, cons_append, lexFrom, lexFrom, ih h]

/-- A token does not go on over the place between two texts, and no quoted string does. -/
def IsBetween (before after : List UInt8) : Prop :=
  match modeAfter .start before with
  | .start => True
  | .token _ => ∀ d ∈ after.head?, isTokenCharacter d = false
  | _ => False

/-- A space or a tab between tokens changes none of them. -/
theorem lex_insert_blank (hc : isBlank c = true) {before after : List UInt8}
    (h : IsBetween before after) : lex (before ++ c :: after) = lex (before ++ after) := by
  refine lexFrom_congr ?_
  rw [IsBetween] at h
  rw [lexFrom]
  split at h
  · rename_i hmode
    rw [hmode, lexCharacter, lexStart_of_isBlank hc]
    rfl
  · rename_i token hmode
    rw [hmode, lexCharacter, not_isTokenCharacter_of_isBlank hc, lexStart_of_isBlank hc]
    cases after with
    | nil => rfl
    | cons d after =>
      change .token token :: lexFrom .start (d :: after) = lexFrom (.token token) (d :: after)
      rw [lexFrom, lexFrom, lexCharacter, lexCharacter, if_neg (by rw [h d rfl]; decide)]
      rfl
  · exact h.elim

theorem lex_append_blank (hc : isBlank c = true) (text : List UInt8) :
    lex (text ++ [c]) = lex text := by
  have hlast : lex (text ++ [c]) = lex (text ++ []) := by
    refine lexFrom_congr ?_
    rw [lexFrom, lexFrom]
    cases modeAfter .start text with
    | start =>
      rw [lexCharacter, lexStart_of_isBlank hc]
      rfl
    | token token =>
      rw [lexCharacter, not_isTokenCharacter_of_isBlank hc, lexStart_of_isBlank hc]
      rfl
    | quoted buffer =>
      rw [lexCharacter, if_neg (ne_quote_of_isBlank hc).1, if_neg (ne_quote_of_isBlank hc).2]
      rfl
    | escaped buffer => rfl
  rwa [append_nil] at hlast

theorem lex_dropWhile_isBlank (text : List UInt8) : lex (text.dropWhile isBlank) = lex text := by
  induction text with
  | nil => rfl
  | cons c text ih =>
    by_cases hc : isBlank c = true
    · rw [dropWhile_cons_of_pos hc, ih]
      change lex text = lexFrom .start (c :: text)
      rw [lexFrom, lexCharacter, lexStart_of_isBlank hc]
      rfl
    · rw [dropWhile_cons_of_neg hc]

theorem lexFrom_token (token text : List UInt8) :
    lexFrom (.token token) text = .token (token ++ text.takeWhile isTokenCharacter) ::
      lex (text.dropWhile isTokenCharacter) := by
  induction text generalizing token with
  | nil => simp [lexFrom, lexEnd, lex]
  | cons c text ih =>
    rw [lexFrom, lexCharacter]
    by_cases hc : isTokenCharacter c = true
    · rw [if_pos hc, takeWhile_cons_of_pos hc, dropWhile_cons_of_pos hc, ih, append_assoc]
      rfl
    · rw [if_neg hc, takeWhile_cons_of_neg hc, dropWhile_cons_of_neg hc, append_nil]
      rfl

theorem lexFrom_quoted : ∀ text buffer : List UInt8, lexFrom (.quoted buffer) text =
    match ExtensionParser.readQuoted text buffer with
    | none => [.unterminated]
    | some (buffer, rest) => .quoted buffer :: lex rest
  | [], _ => rfl
  | c :: text, buffer => by
    rw [lexFrom, lexCharacter, ExtensionParser.readQuoted.eq_def]
    dsimp only
    by_cases hquote : c = quote
    · rw [if_pos hquote, if_pos hquote]
      rfl
    · rw [if_neg hquote, if_neg hquote]
      by_cases hbackslash : c = backslash
      · rw [if_pos hbackslash, if_pos hbackslash]
        match text with
        | [] => rfl
        | d :: text => exact lexFrom_quoted text (buffer ++ [d])
      · rw [if_neg hbackslash, if_neg hbackslash]
        exact lexFrom_quoted text (buffer ++ [c])

/-- What stands at the front of a text that does not start with a space or a tab. -/
inductive Front : List UInt8 → List Lexeme → Prop
  | finished : Front [] []
  | token {c : UInt8} {text : List UInt8} : c ≠ quote → isTokenCharacter c = true →
      Front (c :: text) (.token ((c :: text).takeWhile isTokenCharacter) ::
        lex ((c :: text).dropWhile isTokenCharacter))
  | quoted {text buffer rest : List UInt8} :
      ExtensionParser.readQuoted text [] = some (buffer, rest) →
      Front (quote :: text) (.quoted buffer :: lex rest)
  | unterminated {text : List UInt8} : ExtensionParser.readQuoted text [] = none →
      Front (quote :: text) [.unterminated]
  | character {c : UInt8} {text : List UInt8} : c ≠ quote → isTokenCharacter c = false →
      Front (c :: text) (.character c :: lex text)

theorem front_of_not_blank (hc : isBlank c = false) (text : List UInt8) :
    Front (c :: text) (lex (c :: text)) := by
  rw [lex, lexFrom, lexCharacter, lexStart, if_neg (by rw [hc]; exact Bool.false_ne_true)]
  by_cases hquote : c = quote
  · rw [if_pos hquote, hquote, lexFrom_quoted]
    cases hread : ExtensionParser.readQuoted text [] with
    | none => exact .unterminated hread
    | some r => exact .quoted hread
  · rw [if_neg hquote]
    by_cases htoken : isTokenCharacter c = true
    · have hfront := @Front.token c text hquote htoken
      rw [takeWhile_cons_of_pos htoken, dropWhile_cons_of_pos htoken] at hfront
      rw [if_pos htoken, lexFrom_token]
      exact hfront
    · rw [if_neg htoken]
      exact .character hquote (Bool.not_eq_true _ ▸ htoken)

/-- The tokens start with what stands after the spaces. -/
theorem front (text : List UInt8) : ∃ rest lexemes, text.dropWhile isBlank = rest ∧
    lex text = lexemes ∧ Front rest lexemes := by
  refine ⟨_, _, rfl, rfl, ?_⟩
  rw [← lex_dropWhile_isBlank]
  cases hdrop : text.dropWhile isBlank with
  | nil => exact .finished
  | cons c rest =>
    have hne : text.dropWhile isBlank ≠ [] := by rw [hdrop]; exact cons_ne_nil _ _
    have hhead := head_dropWhile_not isBlank hne
    simp only [hdrop] at hhead
    exact front_of_not_blank hhead rest

/-! ## What the parser consumes -/

/-- The value of a parameter, which a string can hold. -/
inductive Value
  | token (token : List UInt8)
  | quoted (buffer : List UInt8) (h : buffer.length ≤ WTF.StringImpl.maxLength false)
  deriving DecidableEq

def Value.string : Value → Option UString
  | .token t => some (ofLatin1 t)
  | .quoted buffer _ => (ExtensionParser.stringOfBuffer buffer).join

def Value.lexeme : Value → Lexeme
  | .token t => .token t
  | .quoted buffer _ => .quoted buffer

def takeToken : List Lexeme → Option (List UInt8 × List Lexeme)
  | .token token :: lexemes => some (token, lexemes)
  | _ => none

def takeCharacter (character : UInt8) : List Lexeme → Option (List Lexeme)
  | .character c :: lexemes => if c = character then some lexemes else none
  | _ => none

def takeValue : List Lexeme → Option (Value × List Lexeme)
  | .token token :: lexemes => some (.token token, lexemes)
  | .quoted buffer :: lexemes =>
    if h : buffer.length ≤ WTF.StringImpl.maxLength false then some (.quoted buffer h, lexemes)
    else none
  | _ => none

/-- The parser after it consumed some tokens. -/
structure Consumes (parser parser' : ExtensionParser) (lexemes : List Lexeme) : Prop where
  lex : lex parser'.current = lexemes
  suffix : parser'.current <:+ parser.current
  shorter : parser'.current.length < parser.current.length

namespace ExtensionParser

variable {parser : ExtensionParser}

theorem dropWhile_suffix_cons {rest : List UInt8}
    (h : text.dropWhile isBlank = c :: rest) : c :: rest <:+ text :=
  h ▸ dropWhile_suffix isBlank

/-- What is left is a part of the end, after the first character. -/
theorem consumes_of_suffix {rest : List UInt8}
    (h : parser.current.dropWhile isBlank = c :: text) (hrest : parser'.current = rest)
    (hsuffix : rest <:+ text) : Consumes parser parser' (lex rest) := by
  have hlong := dropWhile_suffix_cons h
  refine ⟨by rw [hrest], ?_, ?_⟩
  · rw [hrest]
    exact (hsuffix.trans (suffix_cons c text)).trans hlong
  · rw [hrest]
    have h1 := hsuffix.length_le
    have h2 := hlong.length_le
    rw [length_cons] at h2
    omega

theorem readQuoted_suffix : ∀ {text buffer buffer' rest : List UInt8},
    readQuoted text buffer = some (buffer', rest) → rest <:+ text
  | [], _, _, _, h => by cases h
  | c :: text, buffer, buffer', rest, h => by
    rw [readQuoted.eq_def] at h
    dsimp only at h
    split at h
    · cases h
      exact suffix_cons c _
    · split at h
      · match text, h with
        | d :: text, h =>
          exact (readQuoted_suffix h).trans ((suffix_cons d text).trans (suffix_cons c _))
      · exact (readQuoted_suffix h).trans (suffix_cons c _)

theorem consumeToken_of_some (h : takeToken (lex parser.current) = some (token, lexemes)) :
    ∃ parser', parser.consumeToken = (true, parser') ∧
      parser'.currentToken = some (ofLatin1 token) ∧ Consumes parser parser' lexemes := by
  obtain ⟨text, all, hdrop, hlex, hfront⟩ := front parser.current
  rw [hlex] at h
  rw [consumeToken, skipSpaces, hdrop]
  cases hfront with
  | token hquote htoken =>
    cases h
    rw [if_neg (by rw [takeWhile_cons_of_pos htoken]; exact cons_ne_nil _ _)]
    refine ⟨_, rfl, rfl, consumes_of_suffix hdrop rfl ?_⟩
    rw [dropWhile_cons_of_pos htoken]
    exact dropWhile_suffix _
  | _ => cases h

theorem consumeToken_of_none (h : takeToken (lex parser.current) = none) :
    (parser.consumeToken).1 = false := by
  obtain ⟨text, all, hdrop, hlex, hfront⟩ := front parser.current
  have hquote : isTokenCharacter quote = false := by decide
  rw [hlex] at h
  rw [consumeToken, skipSpaces, hdrop]
  cases hfront with
  | token hquote htoken => cases h
  | finished => rfl
  | quoted _ => rw [takeWhile_cons_of_neg (by rw [hquote]; exact Bool.false_ne_true)]; rfl
  | unterminated _ =>
    rfl
  | character _ hc => rw [takeWhile_cons_of_neg (by rw [hc]; exact Bool.false_ne_true)]; rfl

theorem consumeCharacter_of_some (h : takeCharacter character (lex parser.current) = some lexemes) :
    ∃ parser', parser.consumeCharacter character = (true, parser') ∧
      character :: parser'.current <:+ parser.current ∧ Consumes parser parser' lexemes := by
  obtain ⟨text, all, hdrop, hlex, hfront⟩ := front parser.current
  rw [hlex] at h
  rw [consumeCharacter, skipSpaces, hdrop]
  cases hfront with
  | @character c text _ _ =>
    rw [takeCharacter] at h
    split at h
    · rename_i heq
      cases h
      dsimp only
      rw [if_pos heq]
      exact ⟨_, rfl, heq ▸ dropWhile_suffix_cons hdrop, consumes_of_suffix hdrop rfl suffix_rfl⟩
    · cases h
  | _ => cases h

/-- A character that is a token character or a quote is no character between tokens. -/
theorem consumeCharacter_of_none (hquote : character ≠ quote)
    (htoken : isTokenCharacter character = false)
    (h : takeCharacter character (lex parser.current) = none) :
    parser.consumeCharacter character = (false, parser.skipSpaces) := by
  obtain ⟨text, all, hdrop, hlex, hfront⟩ := front parser.current
  rw [hlex] at h
  rw [consumeCharacter, skipSpaces, hdrop]
  cases hfront with
  | finished => rfl
  | @token c text _ hc =>
    dsimp only
    rw [if_neg fun heq => by rw [heq, htoken] at hc; cases hc]
  | quoted | unterminated =>
    dsimp only
    rw [if_neg hquote.symm]
  | @character c text _ _ =>
    rw [takeCharacter] at h
    split at h
    · cases h
    · rename_i hne
      dsimp only
      rw [if_neg hne]

theorem stringOfBuffer_of_le (h : buffer.length ≤ WTF.StringImpl.maxLength false) :
    ∃ string, stringOfBuffer buffer = some string := by
  rw [stringOfBuffer]
  split
  · exact ⟨_, rfl⟩
  · exact ⟨_, if_pos h⟩

theorem stringOfBuffer_of_lt (h : WTF.StringImpl.maxLength false < buffer.length) :
    stringOfBuffer buffer = none := by
  rw [stringOfBuffer, if_neg (ne_nil_of_length_pos (Nat.zero_lt_of_lt h))]
  exact if_neg (Nat.not_le_of_lt h)

theorem consumeQuotedStringOrToken_of_some
    (h : takeValue (lex parser.current) = some (value, lexemes)) :
    ∃ parser', parser.consumeQuotedStringOrToken = (true, parser') ∧
      parser'.currentToken = value.string ∧ Consumes parser parser' lexemes := by
  obtain ⟨text, all, hdrop, hlex, hfront⟩ := front parser.current
  have htoken := @consumeToken_of_some parser.skipSpaces
  rw [skipSpaces, lex_dropWhile_isBlank, hdrop, hlex] at htoken
  rw [hlex] at h
  rw [consumeQuotedStringOrToken, consumeQuotedString, skipSpaces, hdrop]
  cases hfront with
  | @token c text hquote _ =>
    cases h
    obtain ⟨parser', hconsume, hstring, hconsumes⟩ := htoken rfl
    dsimp only
    rw [if_pos hquote]
    refine ⟨parser', hconsume, hstring, hconsumes.lex, ?_, ?_⟩
    · exact hconsumes.suffix.trans (dropWhile_suffix_cons hdrop)
    · exact hconsumes.shorter.trans_le (dropWhile_suffix_cons hdrop).length_le
  | @quoted text buffer rest hread =>
    rw [takeValue] at h
    split at h
    · rename_i hfits
      cases h
      obtain ⟨string, hstring⟩ := stringOfBuffer_of_le hfits
      dsimp only
      rw [hread]
      dsimp only
      rw [hstring]
      refine ⟨_, rfl, ?_, consumes_of_suffix hdrop rfl (readQuoted_suffix hread)⟩
      rw [Value.string, hstring]
      rfl
    · cases h
  | _ => cases h

theorem consumeQuotedStringOrToken_of_none (h : takeValue (lex parser.current) = none) :
    (parser.consumeQuotedStringOrToken).1 = false := by
  obtain ⟨text, all, hdrop, hlex, hfront⟩ := front parser.current
  have htoken := @consumeToken_of_none parser.skipSpaces
  rw [skipSpaces, lex_dropWhile_isBlank, hdrop, hlex] at htoken
  rw [hlex] at h
  rw [consumeQuotedStringOrToken, consumeQuotedString, skipSpaces, hdrop]
  cases hfront with
  | token => cases h
  | @quoted text buffer rest hread =>
    rw [takeValue] at h
    split at h
    · cases h
    · rename_i hlong
      dsimp only
      rw [hread]
      dsimp only
      rw [stringOfBuffer_of_lt (Nat.lt_of_not_le hlong)]
      rfl
  | finished => exact htoken rfl
  | unterminated hread =>
    dsimp only
    rw [hread]
    rfl
  | character hquote _ =>
    dsimp only
    rw [if_pos hquote]
    exact htoken rfl

end ExtensionParser

/-! ## Extensions -/

abbrev Parameter := List UInt8 × Option Value

/-- An extension with its parameters, in their order. -/
structure Extension where
  token : List UInt8
  parameters : List Parameter

def Parameter.lexemes (parameter : Parameter) : List Lexeme :=
  .character semicolon :: .token parameter.1 ::
    match parameter.2 with
    | none => []
    | some value => [.character equals, value.lexeme]

/-- What an extension is written as. -/
def Extension.lexemes (extension : Extension) : List Lexeme :=
  .token extension.token :: extension.parameters.flatMap Parameter.lexemes

/-- A list of extensions with commas between them. -/
def listLexemes : List Extension → List Lexeme
  | [] => []
  | [extension] => extension.lexemes
  | extension :: extensions => extension.lexemes ++ .character comma :: listLexemes extensions

/-- Extensions with a comma after each. -/
def commaLexemes (extensions : List Extension) : List Lexeme :=
  extensions.flatMap fun extension => extension.lexemes ++ [.character comma]

/-- The parameters added to those there are. -/
def Parameters.addAll (extensionParameters : Parameters) (parameters : List Parameter) :
    Parameters :=
  parameters.foldl (fun all parameter =>
    all.add (ofLatin1 parameter.1) (parameter.2.bind Value.string)) extensionParameters

/-- What is offered to the processor of the extension. -/
def Extension.offered (extension : Extension) : UString × Parameters :=
  (ofLatin1 extension.token, Parameters.addAll [] extension.parameters)

variable {t : List UInt8} {value : Value} {extensions : List Extension}

theorem length_of_takeToken
    (h : takeToken lexemes = some (t, lexemes')) : lexemes'.length < lexemes.length := by
  rw [takeToken.eq_def] at h
  split at h
  · cases h
    exact Nat.lt_succ_self _
  · cases h

theorem length_of_takeCharacter
    (h : takeCharacter c lexemes = some lexemes') : lexemes'.length < lexemes.length := by
  rw [takeCharacter.eq_def] at h
  split at h
  · split at h
    · cases h
      exact Nat.lt_succ_self _
    · cases h
  · cases h

theorem length_of_takeValue
    (h : takeValue lexemes = some (value, lexemes')) : lexemes'.length < lexemes.length := by
  rw [takeValue.eq_def] at h
  split at h
  · cases h
    exact Nat.lt_succ_self _
  · split at h
    · cases h
      exact Nat.lt_succ_self _
    · cases h
  · cases h

/-- The parameters at the front. -/
def takeParameters (lexemes : List Lexeme) : Option (List Parameter × List Lexeme) :=
  match _ : takeCharacter semicolon lexemes with
  | none => some ([], lexemes)
  | some lexemes1 =>
    match _ : takeToken lexemes1 with
    | none => none
    | some (token, lexemes2) =>
      match _ : takeCharacter equals lexemes2 with
      | none => (takeParameters lexemes2).map fun r => ((token, none) :: r.1, r.2)
      | some lexemes3 =>
        match _ : takeValue lexemes3 with
        | none => none
        | some (value, lexemes4) =>
          (takeParameters lexemes4).map fun r => ((token, some value) :: r.1, r.2)
termination_by lexemes.length
decreasing_by
  · have l1 := length_of_takeCharacter ‹_›
    have l2 := length_of_takeToken ‹_›
    omega
  · have l1 := length_of_takeCharacter ‹takeCharacter semicolon _ = _›
    have l2 := length_of_takeToken ‹_›
    have l3 := length_of_takeCharacter ‹takeCharacter equals _ = _›
    have l4 := length_of_takeValue ‹_›
    omega

theorem takeToken_eq_some_iff {lexemes : List Lexeme} :
    takeToken lexemes = some (t, lexemes') ↔ lexemes = .token t :: lexemes' := by
  rw [takeToken.eq_def]
  split
  · rw [Option.some_inj, Prod.mk.injEq, List.cons.injEq, Lexeme.token.injEq]
  · rename_i hother
    exact iff_of_false (fun h => by cases h) fun h => hother _ _ h

theorem takeCharacter_eq_some_iff {lexemes : List Lexeme} :
    takeCharacter c lexemes = some lexemes' ↔ lexemes = .character c :: lexemes' := by
  rw [takeCharacter.eq_def]
  split
  · rw [List.cons.injEq, Lexeme.character.injEq]
    split
    · rename_i heq
      rw [Option.some_inj, and_iff_right heq]
    · rename_i hne
      exact iff_of_false (fun h => by cases h) fun h => hne h.1
  · rename_i hother
    exact iff_of_false (fun h => by cases h) fun h => hother _ _ h

theorem takeValue_eq_some_iff :
    takeValue lexemes = some (value, lexemes') ↔ lexemes = value.lexeme :: lexemes' := by
  rw [takeValue.eq_def]
  split
  · cases value <;> simp [Value.lexeme]
  · rename_i buffer lexemes
    cases value with
    | token t =>
      split <;> simp [Value.lexeme]
    | quoted buffer' h =>
      split
      · simp [Value.lexeme]
      · rename_i hlong
        refine iff_of_false (fun h => by cases h) fun heq => hlong ?_
        rw [Value.lexeme, List.cons.injEq, Lexeme.quoted.injEq] at heq
        exact heq.1 ▸ h
  · rename_i htoken hquoted
    refine iff_of_false (fun h => by cases h) fun h => ?_
    cases value with
    | token t => exact htoken _ _ h
    | quoted buffer => exact hquoted _ _ h

theorem takeParameters_eq (lexemes : List Lexeme) : takeParameters lexemes =
    match takeCharacter semicolon lexemes with
    | none => some ([], lexemes)
    | some lexemes1 =>
      match takeToken lexemes1 with
      | none => none
      | some (token, lexemes2) =>
        match takeCharacter equals lexemes2 with
        | none => (takeParameters lexemes2).map fun r => ((token, none) :: r.1, r.2)
        | some lexemes3 =>
          match takeValue lexemes3 with
          | none => none
          | some (value, lexemes4) =>
            (takeParameters lexemes4).map fun r => ((token, some value) :: r.1, r.2) := by
  rw [takeParameters]
  split
  · rename_i h1
    rw [h1]
  · rename_i h1
    rw [h1]
    dsimp only
    split
    · rename_i h2
      rw [h2]
    · rename_i h2
      rw [h2]
      dsimp only
      split
      · rename_i h3
        rw [h3]
      · rename_i h3
        rw [h3]
        dsimp only
        split
        all_goals
          rename_i h4
          rw [h4]

/-- What is taken is written as the parameters, and no parameter follows. -/
theorem takeParameters_sound {lexemes : List Lexeme} {parameters : List Parameter}
    (h : takeParameters lexemes = some (parameters, rest)) :
    lexemes = parameters.flatMap Parameter.lexemes ++ rest := by
  induction lexemes using takeParameters.induct generalizing parameters rest with
  | case1 lexemes h1 =>
    rw [takeParameters_eq, h1] at h
    cases h
    rfl
  | case2 lexemes lexemes1 h1 h2 =>
    rw [takeParameters_eq, h1] at h
    dsimp only at h
    rw [h2] at h
    cases h
  | case3 lexemes lexemes1 h1 token lexemes2 h2 h3 ih =>
    rw [takeParameters_eq, h1] at h
    dsimp only at h
    rw [h2] at h
    dsimp only at h
    rw [h3] at h
    obtain ⟨r, hr, heq⟩ := Option.map_eq_some_iff.mp h
    cases heq
    rw [takeCharacter_eq_some_iff.mp h1, takeToken_eq_some_iff.mp h2, ih hr]
    rfl
  | case4 lexemes lexemes1 h1 token lexemes2 h2 lexemes3 h3 h4 =>
    rw [takeParameters_eq, h1] at h
    dsimp only at h
    rw [h2] at h
    dsimp only at h
    rw [h3] at h
    dsimp only at h
    rw [h4] at h
    cases h
  | case5 lexemes lexemes1 h1 token lexemes2 h2 lexemes3 h3 value lexemes4 h4 ih =>
    rw [takeParameters_eq, h1] at h
    dsimp only at h
    rw [h2] at h
    dsimp only at h
    rw [h3] at h
    dsimp only at h
    rw [h4] at h
    obtain ⟨r, hr, heq⟩ := Option.map_eq_some_iff.mp h
    cases heq
    rw [takeCharacter_eq_some_iff.mp h1, takeToken_eq_some_iff.mp h2,
      takeCharacter_eq_some_iff.mp h3, takeValue_eq_some_iff.mp h4, ih hr]
    rfl

/-- Parameters before a comma are taken. -/
theorem takeParameters_comma (parameters : List Parameter) (rest : List Lexeme) :
    takeParameters (parameters.flatMap Parameter.lexemes ++ .character comma :: rest) =
      some (parameters, .character comma :: rest) := by
  induction parameters with
  | nil =>
    rw [takeParameters_eq]
    rfl
  | cons parameter parameters ih =>
    obtain ⟨token, value⟩ := parameter
    rw [takeParameters_eq, flatMap_cons, Parameter.lexemes]
    dsimp only [cons_append]
    rw [takeCharacter, if_pos rfl]
    dsimp only [takeToken]
    cases value with
    | none =>
      -- A comma or the semicolon of the next parameter follows, no `=`.
      have hequals : takeCharacter equals
          (parameters.flatMap Parameter.lexemes ++ .character comma :: rest) = none := by
        cases parameters with
        | _ => rfl
      dsimp only [nil_append]
      rw [hequals, ih]
      rfl
    | some value =>
      dsimp only [cons_append, nil_append]
      rw [takeCharacter, if_pos rfl]
      dsimp only
      rw [takeValue_eq_some_iff.mpr rfl]
      dsimp only
      rw [ih]
      rfl

/-- The extension at the front, and the tokens after the comma if there is one. -/
def takeExtension (lexemes : List Lexeme) : Option (Extension × Option (List Lexeme)) :=
  match takeToken lexemes with
  | none => none
  | some (token, lexemes) =>
    match takeParameters lexemes with
    | none => none
    | some (parameters, lexemes) =>
      if lexemes = [] then some (⟨token, parameters⟩, none)
      else (takeCharacter comma lexemes).map fun rest => (⟨token, parameters⟩, some rest)

/-- What follows an extension. -/
def commaBefore : Option (List Lexeme) → List Lexeme
  | none => []
  | some rest => .character comma :: rest

variable {extension : Extension}

theorem takeExtension_sound {rest : Option (List Lexeme)}
    (h : takeExtension lexemes = some (extension, rest)) :
    lexemes = extension.lexemes ++ commaBefore rest := by
  rw [takeExtension] at h
  cases htoken : takeToken lexemes with
  | none => rw [htoken] at h; cases h
  | some r =>
    obtain ⟨token, lexemes1⟩ := r
    rw [htoken] at h
    dsimp only at h
    cases hparameters : takeParameters lexemes1 with
    | none => rw [hparameters] at h; cases h
    | some r =>
      rw [hparameters] at h
      dsimp only at h
      have heq := takeParameters_sound hparameters
      rw [takeToken_eq_some_iff.mp htoken, heq]
      split at h
      · rename_i hnil
        cases h
        rw [hnil]
        rfl
      · obtain ⟨rest, hrest, heq⟩ := Option.map_eq_some_iff.mp h
        cases heq
        rw [takeCharacter_eq_some_iff.mp hrest]
        rfl

theorem takeExtension_comma (extension : Extension) (rest : List Lexeme) :
    takeExtension (extension.lexemes ++ .character comma :: rest) =
      some (extension, some rest) := by
  rw [takeExtension, Extension.lexemes]
  dsimp only [cons_append, takeToken]
  rw [takeParameters_comma]
  rfl

theorem length_of_takeExtension
    (h : takeExtension lexemes = some (extension, some rest)) : rest.length < lexemes.length := by
  rw [takeExtension_sound h, commaBefore, length_append, length_cons]
  omega

/-! ## The loops follow the tokens -/

section Loops

theorem dropWhile_isBlank_of_lex (h : lex text = []) :
    text.dropWhile isBlank = [] := by
  obtain ⟨rest, all, hdrop, hlex, hfront⟩ := front text
  cases hlex.symm.trans h
  cases hfront
  exact hdrop

theorem semicolon_facts : semicolon ≠ quote ∧ isTokenCharacter semicolon = false := by decide

theorem equals_facts : equals ≠ quote ∧ isTokenCharacter equals = false := by decide

theorem comma_facts : comma ≠ quote ∧ isTokenCharacter comma = false := by decide

open WebSocketExtensionDispatcher

/-- The parser after the loop over the parameters. -/
structure AfterParameters (parser parser' : ExtensionParser) (rest : List Lexeme) : Prop where
  lex : lex parser'.current = rest
  suffix : parser'.current <:+ parser.current
  finished : rest = [] → parser'.current = []

theorem Consumes.after
    (h : Consumes parser parser1 lexemes) (h' : AfterParameters parser1 parser' rest) :
    AfterParameters parser parser' rest :=
  ⟨h'.lex, h'.suffix.trans h.suffix, h'.finished⟩

theorem parameterLoop_eq : ∀ {parser : ExtensionParser} {extensionParameters : Parameters},
    parser.current.length < fuel →
    match takeParameters (lex parser.current) with
    | none => parameterLoop fuel parser extensionParameters = none
    | some (parameters, rest) => ∃ parser', parameterLoop fuel parser extensionParameters =
        some (extensionParameters.addAll parameters, parser') ∧
        AfterParameters parser parser' rest := by
  induction fuel with
  | zero => intro _ _ hfuel; omega
  | succ fuel ih =>
    intro parser extensionParameters hfuel
    rw [takeParameters_eq, parameterLoop]
    cases hsemicolon : takeCharacter semicolon (lex parser.current) with
    | none =>
      rw [ExtensionParser.consumeCharacter_of_none semicolon_facts.1 semicolon_facts.2 hsemicolon]
      exact ⟨_, rfl, lex_dropWhile_isBlank _, dropWhile_suffix _, dropWhile_isBlank_of_lex⟩
    | some lexemes1 =>
      obtain ⟨parser1, hconsume1, -, h1⟩ := ExtensionParser.consumeCharacter_of_some hsemicolon
      rw [hconsume1]
      dsimp only
      rw [← h1.lex]
      cases htoken : takeToken (lex parser1.current) with
      | none =>
        have hfalse := ExtensionParser.consumeToken_of_none htoken
        dsimp only
        split
        · rfl
        · rename_i heq
          rw [heq] at hfalse
          cases hfalse
      | some r =>
        obtain ⟨token, lexemes2⟩ := r
        obtain ⟨parser2, hconsume2, hcurrent2, h2⟩ := ExtensionParser.consumeToken_of_some htoken
        rw [hconsume2]
        dsimp only
        rw [hcurrent2, ← h2.lex]
        have hshort2 : parser2.current.length < parser.current.length := h2.shorter.trans h1.shorter
        cases hequals : takeCharacter equals (lex parser2.current) with
        | none =>
          rw [ExtensionParser.consumeCharacter_of_none equals_facts.1 equals_facts.2 hequals]
          have hskip : lex parser2.skipSpaces.current = lex parser2.current :=
            lex_dropWhile_isBlank _
          have hsuffix : parser2.skipSpaces.current <:+ parser2.current := dropWhile_suffix _
          have hnext := @ih parser2.skipSpaces (extensionParameters.add (ofLatin1 token) none)
            (by have := hsuffix.length_le; omega)
          rw [hskip] at hnext
          cases hparameters : takeParameters (lex parser2.current) with
          | none =>
            rw [hparameters] at hnext
            exact hnext
          | some r =>
            rw [hparameters] at hnext
            obtain ⟨parser', hloop, hafter⟩ := hnext
            exact ⟨parser', hloop, hafter.lex, (hafter.suffix.trans hsuffix).trans
              (h2.suffix.trans h1.suffix), hafter.finished⟩
        | some lexemes3 =>
          obtain ⟨parser3, hconsume3, -, h3⟩ := ExtensionParser.consumeCharacter_of_some hequals
          rw [hconsume3]
          dsimp only
          rw [← h3.lex]
          cases hvalue : takeValue (lex parser3.current) with
          | none =>
            have hfalse := ExtensionParser.consumeQuotedStringOrToken_of_none hvalue
            dsimp only
            split
            · rename_i heq
              rw [heq] at hfalse
              cases hfalse
            · rfl
          | some r =>
            obtain ⟨value, lexemes4⟩ := r
            obtain ⟨parser4, hconsume4, hcurrent4, h4⟩ :=
              ExtensionParser.consumeQuotedStringOrToken_of_some hvalue
            rw [hconsume4]
            dsimp only
            rw [hcurrent4, ← h4.lex]
            have hnext := @ih parser4 (extensionParameters.add (ofLatin1 token) value.string)
              (by have := h4.shorter; have := h3.shorter; omega)
            cases hparameters : takeParameters (lex parser4.current) with
            | none =>
              rw [hparameters] at hnext
              exact hnext
            | some r =>
              rw [hparameters] at hnext
              obtain ⟨parser', hloop, hafter⟩ := hnext
              exact ⟨parser', hloop, h1.after (h2.after (h3.after (h4.after hafter)))⟩

/-- What is left after an extension, and that it came after a comma. -/
def AfterExtension (parser parser' : ExtensionParser) : Option (List Lexeme) → Prop
  | none => parser'.current = []
  | some rest => lex parser'.current = rest ∧ comma :: parser'.current <:+ parser.current

theorem parseExtension_eq (parser : ExtensionParser) :
    match takeExtension (lex parser.current) with
    | none => parseExtension parser = none
    | some (extension, rest) => ∃ parser',
      parseExtension parser = some (extension.offered, parser') ∧
        AfterExtension parser parser' rest := by
  rw [takeExtension, parseExtension]
  cases htoken : takeToken (lex parser.current) with
  | none =>
    have hfalse := ExtensionParser.consumeToken_of_none htoken
    dsimp only
    split
    · rfl
    · rename_i heq
      rw [heq] at hfalse
      cases hfalse
  | some r =>
    obtain ⟨parser1, hconsume1, hcurrent1, h1⟩ := ExtensionParser.consumeToken_of_some htoken
    rw [hconsume1]
    dsimp only
    rw [hcurrent1, ← h1.lex]
    have hloop := @parameterLoop_eq (parser1.current.length + 1) parser1 [] (Nat.lt_succ_self _)
    cases hparameters : takeParameters (lex parser1.current) with
    | none =>
      rw [hparameters] at hloop
      rw [hloop]
    | some r =>
      obtain ⟨parameters, rest⟩ := r
      rw [hparameters] at hloop
      obtain ⟨parser2, hloop, h2⟩ := hloop
      rw [hloop]
      dsimp only [Option.getD_some]
      by_cases hnil : rest = []
      · rw [if_pos hnil]
        rw [ExtensionParser.finished, h2.finished hnil]
        exact ⟨parser2, rfl, h2.finished hnil⟩
      · have hmore : parser2.finished = false := by
          rw [ExtensionParser.finished, isEmpty_eq_false_iff]
          intro hempty
          rw [← h2.lex, hempty] at hnil
          exact hnil rfl
        rw [if_neg hnil, hmore, ← h2.lex]
        cases hcomma : takeCharacter comma (lex parser2.current) with
        | none =>
          rw [ExtensionParser.consumeCharacter_of_none comma_facts.1 comma_facts.2 hcomma]
          rfl
        | some lexemes =>
          obtain ⟨parser3, hconsume3, hsuffix, h3⟩ :=
            ExtensionParser.consumeCharacter_of_some hcomma
          rw [hconsume3]
          exact ⟨parser3, rfl, h3.lex, hsuffix.trans (h2.suffix.trans h1.suffix)⟩

end Loops

/-! ## The header by its tokens -/

/-- Where the extensions of a value end: after an extension, where another extension could begin, or
at something that is no extension. -/
inductive Ending
  | extension
  | comma
  | invalid
  deriving DecidableEq

/-- The extensions at the front, each with the comma after it, and what ends them. -/
def takeExtensions (lexemes : List Lexeme) : List Extension × Ending :=
  if lexemes = [] then ([], .comma)
  else
    match _ : takeExtension lexemes with
    | none => ([], .invalid)
    | some (extension, none) => ([extension], .extension)
    | some (extension, some rest) =>
      (extension :: (takeExtensions rest).1, (takeExtensions rest).2)
termination_by lexemes.length
decreasing_by all_goals exact length_of_takeExtension ‹_›

theorem takeExtensions_nil : takeExtensions [] = ([], .comma) := by
  rw [takeExtensions, if_pos rfl]

variable {lexemes : List Lexeme}

theorem takeExtensions_of_none (hne : lexemes ≠ [])
    (h : takeExtension lexemes = none) : takeExtensions lexemes = ([], .invalid) := by
  rw [takeExtensions, if_neg hne]
  split
  · rfl
  all_goals
    rename_i heq
    cases h.symm.trans heq

theorem ne_nil_of_takeExtension (h : takeExtension lexemes = some r) : lexemes ≠ [] := by
  rintro rfl
  cases h

theorem takeExtensions_of_last (h : takeExtension lexemes = some (extension, none)) :
    takeExtensions lexemes = ([extension], .extension) := by
  rw [takeExtensions, if_neg (ne_nil_of_takeExtension h)]
  split
  · rename_i heq
    cases h.symm.trans heq
  · rename_i heq
    cases h.symm.trans heq
    rfl
  · rename_i heq
    cases h.symm.trans heq

theorem takeExtensions_of_comma (h : takeExtension lexemes = some (extension, some rest)) :
    takeExtensions lexemes = (extension :: (takeExtensions rest).1, (takeExtensions rest).2) := by
  rw [takeExtensions, if_neg (ne_nil_of_takeExtension h)]
  split
  · rename_i heq
    cases h.symm.trans heq
  · rename_i heq
    cases h.symm.trans heq
  · rename_i heq
    cases h.symm.trans heq
    rfl

/-- What the ending says about all the tokens. -/
def Ending.Says (lexemes : List Lexeme) (extensions : List Extension) : Ending → Prop
  | .extension => extensions ≠ [] ∧ lexemes = listLexemes extensions
  | .comma => lexemes = commaLexemes extensions
  | .invalid => True

theorem listLexemes_cons (hne : extensions ≠ []) : listLexemes (extension :: extensions) =
      extension.lexemes ++ .character comma :: listLexemes extensions := by
  cases extensions with
  | nil => exact absurd rfl hne
  | cons next extensions => rfl

theorem takeExtensions_says (lexemes : List Lexeme) :
    (takeExtensions lexemes).2.Says lexemes (takeExtensions lexemes).1 := by
  induction lexemes using takeExtensions.induct with
  | case1 =>
    rw [takeExtensions_nil]
    rfl
  | case2 lexemes hne h =>
    rw [takeExtensions_of_none hne h]
    trivial
  | case3 lexemes hne extension h =>
    rw [takeExtensions_of_last h]
    refine ⟨cons_ne_nil _ _, ?_⟩
    rw [takeExtension_sound h, commaBefore, append_nil]
    rfl
  | case4 lexemes hne extension rest h ih =>
    rw [takeExtensions_of_comma h, takeExtension_sound h, commaBefore]
    cases hending : (takeExtensions rest).2 with
    | extension =>
      rw [hending] at ih
      obtain ⟨hsome, hrest⟩ := ih
      refine ⟨cons_ne_nil _ _, ?_⟩
      rw [listLexemes_cons hsome, ← hrest]
    | comma =>
      rw [hending] at ih
      have hrest : rest = commaLexemes (takeExtensions rest).1 := ih
      change _ = commaLexemes (extension :: (takeExtensions rest).1)
      rw [commaLexemes, flatMap_cons, ← commaLexemes, ← hrest, append_assoc, singleton_append]
    | invalid => trivial

theorem takeExtensions_commaLexemes (extensions : List Extension) :
    takeExtensions (commaLexemes extensions) = (extensions, .comma) := by
  induction extensions with
  | nil => exact takeExtensions_nil
  | cons extension extensions ih =>
    have htake := takeExtension_comma extension (commaLexemes extensions)
    rw [commaLexemes, flatMap_cons, ← commaLexemes, append_assoc, singleton_append,
      takeExtensions_of_comma htake, ih]

/-- The extensions end where another could begin exactly when a comma follows each. -/
theorem takeExtensions_comma_iff :
    takeExtensions lexemes = (extensions, .comma) ↔ lexemes = commaLexemes extensions := by
  refine ⟨fun h => ?_, fun h => h ▸ takeExtensions_commaLexemes extensions⟩
  have hsays := takeExtensions_says lexemes
  rw [h] at hsays
  exact hsays

theorem comma_not_mem_getLast? (extension : Extension) :
    Lexeme.character comma ∉ extension.lexemes.getLast? := by
  obtain ⟨token, parameters⟩ := extension
  rw [Extension.lexemes]
  induction parameters using List.reverseRecOn with
  | nil => exact fun h => by cases h
  | append_singleton parameters parameter _ =>
    have hne : parameter.lexemes ≠ [] := cons_ne_nil _ _
    rw [flatMap_append, flatMap_singleton, ← cons_append, List.getLast?_append_of_ne_nil _ hne]
    obtain ⟨name, value⟩ := parameter
    cases value with
    | none => exact fun h => by cases h
    | some value =>
      cases value with
      | _ => exact fun h => by cases h

theorem comma_not_mem_getLast?_listLexemes (extensions : List Extension) :
    Lexeme.character comma ∉ (listLexemes extensions).getLast? := by
  induction extensions with
  | nil => exact fun h => by cases h
  | cons extension extensions ih =>
    by_cases hnil : extensions = []
    · rw [hnil]
      exact comma_not_mem_getLast? extension
    · have hne : listLexemes extensions ≠ [] := by
        cases extensions with
        | nil => exact absurd rfl hnil
        | cons next extensions =>
          cases extensions with
          | _ => exact cons_ne_nil _ _
      rw [listLexemes_cons hnil, append_cons, List.getLast?_append_of_ne_nil _ hne]
      exact ih

/-- No list of extensions ends with a comma. -/
theorem eq_nil_of_commaLexemes {extensions' : List Extension}
    (h : listLexemes extensions' = commaLexemes extensions) : extensions = [] := by
  induction extensions using List.reverseRecOn with
  | nil => rfl
  | append_singleton extensions extension _ =>
    have hlast := comma_not_mem_getLast?_listLexemes extensions'
    rw [h, commaLexemes, flatMap_append, flatMap_singleton, ← append_assoc,
      List.getLast?_concat] at hlast
    exact absurd rfl hlast

section Header

open WebSocketExtensionDispatcher

variable {State : Type} (order : Parameters → Parameters)

/-- Every extension is offered to its processor, up to one that is not accepted. -/
def offerAll (dispatcher : WebSocketExtensionDispatcher State) :
    List Extension → Bool × WebSocketExtensionDispatcher State
  | [] => (true, dispatcher)
  | extension :: extensions =>
    match dispatcher.offer order extension.offered.1 extension.offered.2 with
    | (false, dispatcher) => (false, dispatcher)
    | (true, dispatcher) => offerAll dispatcher extensions

variable (blank : Bool) (dispatcher : WebSocketExtensionDispatcher State)

/-- What happens at the end when all extensions were accepted.  `blank` says that the value ends with
a space or a tab, which is no extension. -/
def atEnd : Ending → Bool × WebSocketExtensionDispatcher State
  | .extension => (true, dispatcher)
  | .comma => if blank then (false, dispatcher.fail headerIsInvalid) else (true, dispatcher)
  | .invalid => (false, dispatcher.fail headerIsInvalid)

/-- What the loop over the extensions does. -/
def readHeader (extensions : List Extension × Ending) : Bool × WebSocketExtensionDispatcher State :=
  match offerAll order dispatcher extensions.1 with
  | (false, dispatcher) => (false, dispatcher)
  | (true, dispatcher) => atEnd blank dispatcher extensions.2

def endsBlank (text : List UInt8) : Bool := text.getLast?.any isBlank

variable {order}

/-- The loop reads one extension and then the rest. -/
theorem readHeader_cons
    (extension : Extension) (extensions : List Extension) (ending : Ending) :
    readHeader order blank dispatcher (extension :: extensions, ending) =
      match dispatcher.offer order extension.offered.1 extension.offered.2 with
      | (false, dispatcher) => (false, dispatcher)
      | (true, dispatcher) => readHeader order blank dispatcher (extensions, ending) := by
  rw [readHeader, offerAll]
  cases hoffer : dispatcher.offer order extension.offered.1 extension.offered.2 with
  | mk accepted dispatcher' =>
    cases accepted with
    | _ => rfl

theorem endsBlank_eq (hc : isBlank c = false)
    (h : c :: text' <:+ text) : endsBlank text' = endsBlank text := by
  obtain ⟨before, rfl⟩ := h
  rw [endsBlank, endsBlank, List.getLast?_append_of_ne_nil _ (cons_ne_nil _ _)]
  cases text' with
  | nil => simp [hc]
  | cons d text' => rw [List.getLast?_cons_cons]

theorem endsBlank_append_blank (hc : isBlank c = true) (text : List UInt8) :
    endsBlank (text ++ [c]) = true := by
  rw [endsBlank, List.getLast?_concat]
  exact hc

theorem endsBlank_of_lex (hne : text ≠ []) (h : lex text = []) :
    endsBlank text = true := by
  have hall : ∀ c ∈ text, isBlank c = true := dropWhile_eq_nil_iff.mp (dropWhile_isBlank_of_lex h)
  rw [endsBlank, List.getLast?_eq_some_getLast hne]
  exact hall _ (getLast_mem hne)

theorem headerLoop_eq : ∀ {dispatcher : WebSocketExtensionDispatcher State}
    {parser : ExtensionParser}, parser.current.length < fuel →
    headerLoop order fuel dispatcher parser = readHeader order (endsBlank parser.current) dispatcher
      (takeExtensions (lex parser.current)) := by
  induction fuel with
  | zero => intro _ _ hfuel; omega
  | succ fuel ih =>
    intro dispatcher parser hfuel
    rw [headerLoop]
    by_cases hfinished : parser.current = []
    · rw [ExtensionParser.finished, ExtensionParser.parsedSuccessfully, hfinished,
        show lex [] = [] from rfl, takeExtensions_nil]
      rfl
    · rw [ExtensionParser.finished, if_neg (by rwa [List.isEmpty_iff])]
      have hparse := parseExtension_eq parser
      cases htake : takeExtension (lex parser.current) with
      | none =>
        rw [htake] at hparse
        rw [hparse]
        by_cases hnil : lex parser.current = []
        · rw [hnil, takeExtensions_nil, endsBlank_of_lex hfinished hnil]
          rfl
        · rw [takeExtensions_of_none hnil htake]
          rfl
      | some r =>
        obtain ⟨extension, rest⟩ := r
        rw [htake] at hparse
        obtain ⟨parser', hparse, hafter⟩ := hparse
        rw [hparse]
        dsimp only
        cases rest with
        | none =>
          have hcurrent : parser'.current = [] := hafter
          have hshort : parser'.current.length < fuel := by
            have := length_pos_of_ne_nil hfinished
            rw [hcurrent, length_nil]
            omega
          rw [takeExtensions_of_last htake, readHeader_cons]
          obtain ⟨accepted, dispatcher'⟩ :=
            dispatcher.offer order extension.offered.1 extension.offered.2
          cases accepted with
          | false => rfl
          | true =>
            dsimp only
            rw [ih hshort, hcurrent, show lex [] = [] from rfl, takeExtensions_nil]
            rfl
        | some rest =>
          obtain ⟨hlex, hsuffix⟩ := hafter
          have hle := hsuffix.length_le
          rw [length_cons] at hle
          have hblank : endsBlank parser'.current = endsBlank parser.current :=
            endsBlank_eq (by decide) hsuffix
          rw [takeExtensions_of_comma htake, readHeader_cons]
          obtain ⟨accepted, dispatcher'⟩ :=
            dispatcher.offer order extension.offered.1 extension.offered.2
          cases accepted with
          | false => rfl
          | true =>
            dsimp only
            rw [ih (by omega), hlex, hblank]

/-! ### The bytes of a value -/

/-- So many code units `String::utf8` converts. -/
def utf8Limit : ℕ := WTF.unsignedMax / 3

/-- The tokens of a value. -/
def tokens (headerValue : UString) : List Lexeme := lex (convertUTF16ToUTF8 headerValue)

/-- The value ends with a space or a tab. -/
def hasBlankEnd (headerValue : UString) : Bool := endsBlank (convertUTF16ToUTF8 headerValue)

variable {dispatcher dispatcher' : WebSocketExtensionDispatcher State} {headerValue : UString}
  {extensions : List Extension}

theorem isBlank_trailingByte (ch : ℕ) : isBlank (trailingByte ch) = false := by
  rw [WTF.Unicode.Conversion.trailingByte_eq]
  have hlow : ∀ n < 64, isBlank (UInt8.ofNat (n + 0x80)) = false := by decide +kernel
  exact hlow _ (Nat.mod_lt _ (by decide))

/-- The last byte of a character. -/
theorem writeCharacter_eq (ch : ℕ) : ∃ before, writeCharacter ch =
    before ++ [if ch < 0x80 then ch.toUInt8 else trailingByte ch] := by
  rw [writeCharacter]
  split
  · exact ⟨[], rfl⟩
  · split
    · exact ⟨[_], rfl⟩
    · split
      · exact ⟨[_, _], rfl⟩
      · exact ⟨[_, _, _], rfl⟩

theorem writeCharacter_ne_nil (ch : ℕ) : writeCharacter ch ≠ [] := by
  obtain ⟨before, h⟩ := writeCharacter_eq ch
  rw [h]
  exact append_ne_nil_of_right_ne_nil _ (cons_ne_nil _ _)

theorem endsBlank_writeCharacter {ch : ℕ} (h : endsBlank (writeCharacter ch) = true) :
    ch < 0x80 ∧ isBlank ch.toUInt8 = true := by
  obtain ⟨before, heq⟩ := writeCharacter_eq ch
  rw [heq, endsBlank, List.getLast?_concat, Option.any_some] at h
  split at h
  · exact ⟨‹_›, h⟩
  · rw [isBlank_trailingByte] at h
    cases h

theorem endsBlank_append {text : List UInt8} (hne : text ≠ []) (before : List UInt8) :
    endsBlank (before ++ text) = endsBlank text := by
  rw [endsBlank, List.getLast?_append_of_ne_nil _ hne, endsBlank]

theorem convertUTF16ToUTF8_ne_nil (hne : headerValue ≠ []) :
    convertUTF16ToUTF8 headerValue ≠ [] := by
  fun_cases convertUTF16ToUTF8 headerValue with
  | case1 => exact absurd rfl hne
  | case2 => exact writeCharacter_ne_nil _
  | case3 | case4 => exact append_ne_nil_of_left_ne_nil (writeCharacter_ne_nil _) _

theorem convertUTF16ToUTF8_concat (hc : isBlank c = true) (headerValue : UString) :
    convertUTF16ToUTF8 (headerValue ++ [c.toUInt16]) = convertUTF16ToUTF8 headerValue ++ [c] := by
  have hblank : isLowSurrogate c.toUInt16 = false ∧ writeCharacter c.toUInt16.toNat = [c] := by
    rw [isBlank, Bool.or_eq_true, beq_iff_eq, beq_iff_eq] at hc
    rcases hc with rfl | rfl <;> decide
  fun_induction convertUTF16ToUTF8 headerValue with
  | case1 => exact hblank.2
  | case2 ch =>
    rw [singleton_append, convertUTF16ToUTF8, hblank.1, Bool.and_false, if_neg Bool.false_ne_true,
      convertUTF16ToUTF8, hblank.2]
  | case3 ch ch2 source hpair ih =>
    rw [cons_append, cons_append, convertUTF16ToUTF8, if_pos hpair, ih, append_assoc]
  | case4 ch ch2 source hpair ih =>
    rw [cons_append, cons_append, convertUTF16ToUTF8, if_neg hpair, ← cons_append, ih, append_assoc]

/-- A space or a tab at the end of the bytes is the last code unit. -/
theorem exists_of_hasBlankEnd (h : hasBlankEnd headerValue = true) :
    ∃ before c, isBlank c = true ∧ headerValue = before ++ [c.toUInt16] := by
  rw [hasBlankEnd] at h
  fun_induction convertUTF16ToUTF8 headerValue with
  | case1 => cases h
  | case2 ch =>
    obtain ⟨hascii, hblank⟩ := endsBlank_writeCharacter h
    refine ⟨[], ch.toNat.toUInt8, hblank, ?_⟩
    rw [nil_append, List.cons.injEq, ← UInt16.toNat_inj, UInt8.toNat_toUInt16]
    exact ⟨(Nat.mod_eq_of_lt (by omega)).symm, rfl⟩
  | case3 ch ch2 source hpair ih =>
    cases source with
    | nil =>
      rw [convertUTF16ToUTF8, append_nil] at h
      have := (endsBlank_writeCharacter h).1
      omega
    | cons ch source =>
      rw [endsBlank_append (convertUTF16ToUTF8_ne_nil (cons_ne_nil _ _))] at h
      obtain ⟨before, c, hc, heq⟩ := ih h
      exact ⟨_ :: _ :: before, c, hc, by rw [heq]; rfl⟩
  | case4 ch ch2 source hpair ih =>
    rw [endsBlank_append (convertUTF16ToUTF8_ne_nil (cons_ne_nil _ _))] at h
    obtain ⟨before, c, hc, heq⟩ := ih h
    exact ⟨_ :: before, c, hc, by rw [heq]; rfl⟩

/-- The value without the spaces and tabs at its end. -/
theorem exists_trimmed (headerValue : UString) : ∃ headerValue' : UString,
    headerValue'.length ≤ headerValue.length ∧ tokens headerValue' = tokens headerValue ∧
      hasBlankEnd headerValue' = false := by
  induction headerValue using List.reverseRecOn with
  | nil => exact ⟨[], le_rfl, rfl, rfl⟩
  | append_singleton headerValue ch ih =>
    cases hend : hasBlankEnd (headerValue ++ [ch]) with
    | false => exact ⟨_, le_rfl, rfl, hend⟩
    | true =>
      obtain ⟨before, c, hc, heq⟩ := exists_of_hasBlankEnd hend
      obtain ⟨rfl, hch⟩ := append_inj' heq rfl
      cases hch
      obtain ⟨headerValue', hlength, htokens, hblank⟩ := ih
      refine ⟨headerValue', ?_, ?_, hblank⟩
      · rw [length_append]
        omega
      · rw [htokens, tokens, tokens, convertUTF16ToUTF8_concat hc, lex_append_blank hc]

/-- What is done with a value depends on its tokens, and on a space or a tab at the end. -/
theorem processHeaderValue_eq (hne : headerValue ≠ [])
    (hshort : dispatcher.processors = [] ∨ headerValue.length ≤ utf8Limit) :
    processHeaderValue order dispatcher headerValue =
      if dispatcher.processors = [] then (false, dispatcher.fail unexpectedHeader)
      else readHeader order (hasBlankEnd headerValue) dispatcher
        (takeExtensions (tokens headerValue)) := by
  rw [processHeaderValue, if_neg hne]
  split
  · rfl
  · rename_i hprocessors
    have hutf8 : utf8 headerValue = convertUTF16ToUTF8 headerValue :=
      if_neg (Nat.not_lt.mpr (hshort.resolve_left hprocessors))
    rw [hutf8]
    exact headerLoop_eq (Nat.lt_succ_self _)

/-- A longer value has no bytes for the parser, so that it is accepted with nothing offered. -/
theorem processHeaderValue_long (hprocessors : dispatcher.processors ≠ [])
    (hlong : utf8Limit < headerValue.length) :
    processHeaderValue order dispatcher headerValue = (true, dispatcher) := by
  rw [processHeaderValue, if_neg (ne_nil_of_length_pos (Nat.zero_lt_of_lt hlong)),
    if_neg hprocessors, show utf8 headerValue = [] from if_pos hlong]
  rfl

/-! ### Failures -/

theorem offer_eq (dispatcher : WebSocketExtensionDispatcher State) (extensionToken : UString)
    (extensionParameters : Parameters) :
    ((dispatcher.offer order extensionToken extensionParameters).1 = true ∧
      (dispatcher.offer order extensionToken extensionParameters).2.offered =
        dispatcher.offered ++ [(extensionToken, extensionParameters)] ∧
      dispatcher.processors ≠ []) ∨
    ((dispatcher.offer order extensionToken extensionParameters).1 = false ∧
      (dispatcher.offer order extensionToken extensionParameters).2.acceptedExtensionsBuilder =
        []) := by
  rw [offer]
  cases hfind : dispatcher.processors.find? fun p => p.extensionToken = extensionToken with
  | none => exact .inr ⟨rfl, rfl⟩
  | some processor =>
    have hprocessors : dispatcher.processors ≠ [] := ne_nil_of_mem (mem_of_find?_eq_some hfind)
    cases hresponse : (processor.processResponse dispatcher.state extensionParameters).1 with
    | false =>
      dsimp only
      rw [hresponse]
      exact .inr ⟨rfl, rfl⟩
    | true =>
      dsimp only
      rw [hresponse]
      exact .inl ⟨rfl, rfl, hprocessors⟩

theorem offerAll_failed (h : offerAll order dispatcher extensions = (false, dispatcher')) :
    dispatcher'.acceptedExtensionsBuilder = [] := by
  induction extensions generalizing dispatcher with
  | nil => cases h
  | cons extension extensions ih =>
    have hoffer := @offer_eq _ order dispatcher extension.offered.1 extension.offered.2
    rw [offerAll] at h
    split at h
    · rename_i heq
      cases h
      rw [heq] at hoffer
      obtain ⟨htrue, -⟩ | ⟨-, hempty⟩ := hoffer
      · cases htrue
      · exact hempty
    · exact ih h

/-- Accepted extensions were all offered, in their order. -/
theorem offered_of_offerAll (h : offerAll order dispatcher extensions = (true, dispatcher')) :
    dispatcher'.offered = dispatcher.offered ++ extensions.map Extension.offered ∧
      (extensions ≠ [] → dispatcher.processors ≠ []) := by
  induction extensions generalizing dispatcher with
  | nil =>
    cases h
    exact ⟨(append_nil _).symm, fun hne => absurd rfl hne⟩
  | cons extension extensions ih =>
    have hoffer := @offer_eq _ order dispatcher extension.offered.1 extension.offered.2
    rw [offerAll] at h
    split at h
    · cases h
    · rename_i heq
      rw [heq] at hoffer
      obtain ⟨-, hoffered, hprocessors⟩ | ⟨hfalse, -⟩ := hoffer
      · refine ⟨?_, fun _ => hprocessors⟩
        rw [(ih h).1, hoffered, append_assoc]
        rfl
      · cases hfalse

theorem readHeader_failed {blank : Bool} {extensions : List Extension × Ending}
    (h : readHeader order blank dispatcher extensions = (false, dispatcher')) :
    dispatcher'.acceptedExtensionsBuilder = [] := by
  rw [readHeader] at h
  split at h
  · rename_i heq
    cases h
    exact offerAll_failed heq
  · rw [atEnd.eq_def] at h
    split at h
    · cases h
    · split at h
      · cases h
        rfl
      · cases h
    · cases h
      rfl

theorem processHeaderValue_failed
    (h : processHeaderValue order dispatcher headerValue = (false, dispatcher')) :
    dispatcher'.acceptedExtensionsBuilder = [] := by
  by_cases hne : headerValue = []
  · rw [processHeaderValue, if_pos hne] at h
    cases h
  · by_cases hshort : dispatcher.processors = [] ∨ headerValue.length ≤ utf8Limit
    · rw [processHeaderValue_eq hne hshort] at h
      split at h
      · cases h
        rfl
      · exact readHeader_failed h
    · obtain ⟨hprocessors, hlong⟩ := not_or.mp hshort
      rw [processHeaderValue_long hprocessors (Nat.lt_of_not_le hlong)] at h
      cases h

/-! ### When a value is read by its tokens -/

/-- The value is accepted if the extensions before its last comma are, unless a space or a tab is at
its end. -/
theorem processHeaderValue_commaLexemes
    (hshort : dispatcher.processors = [] ∨ headerValue.length ≤ utf8Limit)
    (hlex : tokens headerValue = commaLexemes extensions)
    (haccepted : (offerAll order dispatcher extensions).1 = true) :
    (processHeaderValue order dispatcher headerValue).1 = !hasBlankEnd headerValue := by
  by_cases hne : headerValue = []
  · rw [hne]
    rfl
  · obtain ⟨dispatcher', hoffer⟩ : ∃ dispatcher',
        offerAll order dispatcher extensions = (true, dispatcher') := ⟨_, Prod.ext haccepted rfl⟩
    rw [processHeaderValue_eq hne hshort]
    by_cases hprocessors : dispatcher.processors = []
    · have hnil : extensions = [] := by
        by_contra hsome
        exact (offered_of_offerAll hoffer).2 hsome hprocessors
      rw [hnil] at hlex
      rw [if_pos hprocessors, hasBlankEnd, endsBlank_of_lex (convertUTF16ToUTF8_ne_nil hne) hlex]
      rfl
    · rw [if_neg hprocessors, hlex, takeExtensions_commaLexemes, readHeader, hoffer]
      cases hasBlankEnd headerValue with
      | _ => rfl

variable (order) in
/-- A header value is read by its tokens. -/
structure ReadsTokens (dispatcher : WebSocketExtensionDispatcher State) (headerValue : UString) :
    Prop where
  /-- Spaces and tabs between tokens make no difference, in a value that `String::utf8` converts. -/
  blanks : ∀ headerValue' : UString, headerValue'.length ≤ utf8Limit →
    tokens headerValue' = tokens headerValue →
    processHeaderValue order dispatcher headerValue' =
      processHeaderValue order dispatcher headerValue
  accepted : ∀ dispatcher', processHeaderValue order dispatcher headerValue = (true, dispatcher') →
    ∃ extensions, tokens headerValue = listLexemes extensions ∧
      offerAll order dispatcher extensions = (true, dispatcher') ∧
      dispatcher'.offered = dispatcher.offered ++ extensions.map Extension.offered
  failed : ∀ dispatcher', processHeaderValue order dispatcher headerValue = (false, dispatcher') →
    dispatcher'.acceptedExtensionsBuilder = []

variable (order) in
/-- Another extension could begin at the end of the value, and all before were accepted. -/
def EndsWhereExtensionBegins (dispatcher : WebSocketExtensionDispatcher State)
    (headerValue : UString) : Prop :=
  ∃ extensions, tokens headerValue = commaLexemes extensions ∧
    (offerAll order dispatcher extensions).1 = true

theorem readsTokens_of_not (hshort : dispatcher.processors = [] ∨ headerValue.length ≤ utf8Limit)
    (h : ¬EndsWhereExtensionBegins order dispatcher headerValue) :
    ReadsTokens order dispatcher headerValue := by
  have hsome : ∀ {headerValue'}, tokens headerValue' = tokens headerValue → headerValue' ≠ [] := by
    rintro headerValue' hlex rfl
    exact h ⟨[], hlex.symm, rfl⟩
  -- The extensions end otherwise than with a comma, unless one of them is not accepted.
  have hending : ∀ {dispatcher'}, offerAll order dispatcher (takeExtensions (tokens headerValue)).1 =
      (true, dispatcher') → (takeExtensions (tokens headerValue)).2 ≠ .comma := by
    intro dispatcher' hoffer hcomma
    have hlex := takeExtensions_comma_iff.mp (Prod.ext rfl hcomma)
    exact h ⟨_, hlex, by rw [hoffer]⟩
  refine ⟨fun headerValue' hlength hlex => ?_, fun dispatcher' hread => ?_,
    fun dispatcher' hread => processHeaderValue_failed hread⟩
  · rw [processHeaderValue_eq (hsome hlex) (.inr hlength), processHeaderValue_eq (hsome rfl) hshort,
      hlex]
    split
    · rfl
    · rw [readHeader, readHeader]
      split
      · rfl
      · rename_i hoffer
        have hne := hending hoffer
        cases hlast : (takeExtensions (tokens headerValue)).2 with
        | extension => rfl
        | comma => exact absurd hlast hne
        | invalid => rfl
  · rw [processHeaderValue_eq (hsome rfl) hshort] at hread
    split at hread
    · cases hread
    · rw [readHeader] at hread
      split at hread
      · cases hread
      · rename_i hoffer
        have hne := hending hoffer
        have hsays := takeExtensions_says (tokens headerValue)
        cases hlast : (takeExtensions (tokens headerValue)).2 with
        | extension =>
          rw [hlast] at hread hsays
          cases hread
          exact ⟨_, hsays.2, hoffer, (offered_of_offerAll hoffer).1⟩
        | comma => exact absurd hlast hne
        | invalid =>
          rw [hlast] at hread
          cases hread

/-- Without tokens, the empty value is accepted and a space is not. -/
theorem ReadsTokens.tokens_ne_nil (h : ReadsTokens order dispatcher headerValue) :
    tokens headerValue ≠ [] := by
  intro hnil
  have hshort : ([32] : UString).length ≤ utf8Limit := by decide
  have hempty := h.blanks [] (Nat.zero_le _) hnil.symm
  have hspace := h.blanks [32] hshort hnil.symm
  have hrejected := @processHeaderValue_commaLexemes _ order dispatcher [32] [] (.inr hshort) rfl rfl
  rw [hspace, ← hempty] at hrejected
  cases hrejected

theorem readsTokens_iff : ReadsTokens order dispatcher headerValue ↔
    (dispatcher.processors = [] ∨ headerValue.length ≤ utf8Limit) ∧
      ¬EndsWhereExtensionBegins order dispatcher headerValue := by
  refine ⟨fun h => ?_, fun ⟨hshort, hends⟩ => readsTokens_of_not hshort hends⟩
  have hshort : dispatcher.processors = [] ∨ headerValue.length ≤ utf8Limit := by
    by_contra hlong
    rw [not_or, Nat.not_le] at hlong
    -- Nothing was offered, so that the value would have no token.
    obtain ⟨extensions, hlex, -, hoffered⟩ :=
      h.accepted _ (processHeaderValue_long hlong.1 hlong.2)
    rw [self_eq_append_right, map_eq_nil_iff] at hoffered
    rw [hoffered] at hlex
    exact h.tokens_ne_nil hlex
  refine ⟨hshort, ?_⟩
  rintro ⟨extensions, hlex, haccepted⟩
  have hsome : extensions ≠ [] := by
    rintro rfl
    exact h.tokens_ne_nil hlex
  have hprocessors := (offered_of_offerAll (Prod.ext haccepted rfl)).2 hsome
  have hlimit := hshort.resolve_left hprocessors
  cases hread : processHeaderValue order dispatcher headerValue with
  | mk accepted dispatcher' =>
    cases accepted with
    | true =>
      -- The tokens of an accepted value do not end with a comma.
      obtain ⟨extensions', hlist, -, -⟩ := h.accepted _ hread
      exact hsome (eq_nil_of_commaLexemes (hlist.symm.trans hlex))
    | false =>
      -- The value without spaces and tabs at its end is accepted.
      obtain ⟨headerValue', hlength, htokens, hblank⟩ := exists_trimmed headerValue
      have haccept := processHeaderValue_commaLexemes (.inr (hlength.trans hlimit))
        (htokens.trans hlex) haccepted
      rw [h.blanks headerValue' (hlength.trans hlimit) htokens, hread, hblank] at haccept
      cases haccept

end Header

/-- A dispatcher with one processor, of the token `x`, that takes any parameters. -/
def acceptingDispatcher : WebSocketExtensionDispatcher Unit :=
  ⟨[⟨[120], fun state _ => (true, state), fun _ => []⟩], [], [], (), []⟩

open WebSocketExtensionDispatcher in
/-- The value `x,` is accepted, and with a space at the end it is not. -/
theorem not_readsTokens_trailing_comma : tokens [120, 44, 32] = tokens [120, 44] ∧
      (processHeaderValue id acceptingDispatcher [120, 44]).1 = true ∧
      (processHeaderValue id acceptingDispatcher [120, 44, 32]).1 = false ∧
      ¬ReadsTokens id acceptingDispatcher [120, 44, 32] := by
  refine ⟨by decide, by decide, by decide, fun h => ?_⟩
  have hsame := congrArg Prod.fst (h.blanks [120, 44] (by decide) (by decide))
  exact absurd hsame (by decide)

end WebSockets
end WebKit
