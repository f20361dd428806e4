import WebKit.JavaScriptCore.LiteralLexer
import WebKit.JavaScriptCore.LiteralParserLoop

/-!
# What the literal parser reads

The state machine reads the values of the grammar and no others.  It reads a value as the grammar
says, but for the strings and the numbers that its lexer reads in its own way.

* `run_value`: on a text that starts with a value the machine comes to the end of the value.
* `Nesting`: what the stacks of the machine say of the text that it has read.
* `parse_sound`: a value that the machine returns is spelled in the text.
-/

namespace WebKit.JavaScriptCore.LiteralParser

open WTF
open List Machine Member

variable {Number : Type*} (numbers : Numbers Number) {mode : ParserMode}

/-! ## The lexer at a position -/

/-- The lexer after it has read a token of a text. -/
def lexerAt (mode : ParserMode) (text : List UChar) : Lexer Number :=
  ((Lexer.ofText text).next numbers.toNumberOperations mode).2

theorem next_eq (lexer : Lexer Number) : lexer.next numbers.toNumberOperations mode =
    ((lex numbers.toNumberOperations mode lexer.text).returned,
      lexerAt numbers mode lexer.text) := rfl

theorem machine_next (machine : Machine Number) : machine.next numbers.toNumberOperations mode =
    { machine with lexer := lexerAt numbers mode machine.lexer.text } := rfl

variable {text rest : List UChar} {token : Token Number} {json : Json} {machine : Machine Number}

theorem lexerAt_of_lexes {white : List UChar} (hwhite : White white)
    (h : Lexes numbers mode text token rest) (hne : token ≠ .error) :
    lexerAt numbers mode (white ++ text) = ⟨token, rest⟩ := by
  change Lexer.mk _ _ = _
  rw [Lexer.ofText, lex_of_lexes numbers hwhite h hne]

theorem returned_of_lexes {white : List UChar} (hwhite : White white)
    (h : Lexes numbers mode text token rest) (hne : token ≠ .error) :
    (lex numbers.toNumberOperations mode (white ++ text)).returned = returnedType token := by
  rw [lex_of_lexes numbers hwhite h hne]

theorem lexerAt_end (h : White white) :
    lexerAt numbers mode white = ⟨.end, []⟩ := by
  change Lexer.mk _ _ = _
  rw [Lexer.ofText, lex_end numbers h]

/-! ## What may follow -/

/-- The characters that stand after a value or a name. -/
def followers : List UChar :=
  [ch ' ', 0x9, 0xA, 0xD] ++ [',', ':', ';', ')', ']', '}'].map ch

def Follows (rest : List UChar) : Prop := ∀ c ∈ rest.head?, c ∈ followers

theorem followers_stop : ∀ c ∈ followers, isASCIIDigit c = false ∧ isIdentifierPart c = false ∧
    c ≠ ch '.' ∧ c ≠ ch 'e' ∧ c ≠ ch 'E' :=
  forall_mem_of_all (by decide)

theorem Follows.stops (h : Follows rest) (l : NumberLiteral) : l.Stops rest where
  noExponent c hc _ := (followers_stop c (h c hc)).2.2.2
  noFraction c hc _ _ := (followers_stop c (h c hc)).2.2.1
  noDigit := .inr fun c hc => by simp [(followers_stop c (h c hc)).1]

theorem Follows.not_part (h : Follows rest) : ∀ c ∈ rest.head?, ¬isIdentifierPart c :=
  fun c hc => by simp [(followers_stop c (h c hc)).2.1]

theorem follows_cons {c : UChar} (h : c ∈ followers) (rest : List UChar) : Follows (c :: rest) := by
  intro d hd
  cases hd
  exact h

theorem Follows.white {white : List UChar} (hwhite : White white) (h : Follows rest) :
    Follows (white ++ rest) := by
  cases white with
  | nil => exact h
  | cons c white =>
    refine follows_cons ?_ _
    have hc := hwhite c mem_cons_self
    simp only [followers, mem_append, mem_cons, not_mem_nil, or_false]
    exact .inl hc

/-! ## Values as they are read -/

/-- What is read inside of an array or of an object. -/
def Numbers.inside : Reading Number :=
  ⟨fun l => if l.text = [ch '-', ch '0'] then numbers.round false 0
    else numbers.round l.negative l.magnitude, stored⟩

/-- What is read of a value with some text after it. -/
def valueAt (rest : List UChar) : Json → JSValue Number
  | .number l => .number (numbers.readNumber rest l)
  | json => json.evaluate numbers.inside

theorem valueAt_of_ne (h : rest ≠ []) (json : Json) :
    valueAt numbers rest json = json.evaluate numbers.inside := by
  cases json with
  | number l =>
    rw [valueAt, Json.evaluate, Numbers.readNumber, Numbers.inside]
    simp only [h, ne_eq, not_false_eq_true, and_true]
  | _ => rfl

/-! ## The machine on a value -/

/-- What a run gives after an iteration. -/
def Step.outcome (mode : ParserMode) : Step Number → Option (JSValue Number) × Lexer Number
  | .goOn machine => machine.run numbers.toNumberOperations mode
  | .done value lexer => (value, lexer)

theorem run_eq (machine : Machine Number) : machine.run numbers.toNumberOperations mode =
    (machine.step numbers.toNumberOperations mode).outcome numbers mode := by
  cases h : machine.step numbers.toNumberOperations mode with
  | done value lexer => exact run_done _ _ h
  | goOn machine' => exact run_goOn _ _ h

/-- The machine that starts on a text comes to its end with its value. -/
def RunsOver (mode : ParserMode) (text : List UChar) (json : Json) : Prop :=
  ∀ (white rest : List UChar), White white → Follows rest → ∀ lastValue stateStack objectStack
    identifierStack,
    run numbers.toNumberOperations mode ⟨.startParseExpression,
        lexerAt numbers mode (white ++ (text ++ rest)), lastValue, stateStack, objectStack,
        identifierStack⟩ =
      (popState ⟨.startParseExpression, lexerAt numbers mode rest, valueAt numbers rest json,
        stateStack, objectStack, identifierStack⟩).outcome numbers mode

theorem runsOver_scalar {token : List UChar → Token Number}
    (hlexes : ∀ rest, Follows rest → Lexes numbers mode (text ++ rest) (token rest) rest)
    (hstep : ∀ (rest : List UChar) (machine : Machine Number),
      machine.lexer.currentToken = token rest →
      machine.startParseExpression numbers.toNumberOperations mode =
        machine.scalar numbers.toNumberOperations mode (valueAt numbers rest json))
    (hne : ∀ rest, token rest ≠ .error) : RunsOver numbers mode text json := by
  intro white rest hwhite hrest lastValue stateStack objectStack identifierStack
  rw [lexerAt_of_lexes numbers hwhite (hlexes rest hrest) (hne rest), run_eq]
  change Step.outcome numbers mode (startParseExpression _ _ _) = _
  rw [hstep rest _ rfl]
  rfl

theorem lexes_single (token : Token Number) (hc : singleCharacter token = some c)
    (rest : List UChar) : Lexes numbers mode (c :: rest) token rest := .single hc rest

/-- The token that a value starts with is none that ends an array. -/
theorem returned_value (h : JSONValue numbers.fits mode text json) {white : List UChar}
    (hwhite : White white)
    (hrest : Follows rest) :
    (lex numbers.toNumberOperations mode (white ++ (text ++ rest))).returned ≠ .rBracket := by
  cases h with
  | null =>
    rw [returned_of_lexes numbers hwhite (.null rest) nofun]
    nofun
  | true =>
    rw [returned_of_lexes numbers hwhite (.true rest) nofun]
    nofun
  | false =>
    rw [returned_of_lexes numbers hwhite (.false rest) nofun]
    nofun
  | number hfits =>
    rw [returned_of_lexes numbers hwhite (.number (hrest.stops _) hfits) nofun]
    nofun
  | string h =>
    rw [returned_of_lexes numbers hwhite (.string h rest) nofun]
    nofun
  | emptyArray | array =>
    rw [cons_append, returned_of_lexes numbers hwhite (lexes_single numbers .lBracket rfl _) nofun]
    nofun
  | emptyObject | object =>
    rw [cons_append, returned_of_lexes numbers hwhite (lexes_single numbers .lBrace rfl _) nofun]
    nofun

/-! ### Arrays -/

theorem commaSeparated_singleton (text : List UChar) : commaSeparated [text] = text := by
  simp [commaSeparated]

theorem commaSeparated_cons_cons (text text' : List UChar) (texts : List (List UChar)) :
    commaSeparated (text :: text' :: texts) = text ++ ch ',' :: commaSeparated (text' :: texts) := by
  simp [commaSeparated]

/-- The element that the machine is at. -/
theorem outcome_element {e : Element} (hwhite : e.IsWhite)
    (h : JSONValue numbers.fits mode e.text e.value)
    (hruns : RunsOver numbers mode e.text e.value) (hrest : Follows rest) (hne : rest ≠ [])
    (state : ParserState) (token : Token Number) (lastValue : JSValue Number)
    (stateStack : List ParserState) (elements : List (JSValue Number))
    (objectStack : List (JSValue Number)) (identifierStack : List UString) :
    (doParseArrayStartExpression numbers.toNumberOperations mode ⟨state,
        ⟨token, e.spelled ++ rest⟩, lastValue, stateStack, .array elements :: objectStack,
        identifierStack⟩).outcome numbers mode =
      (doParseArrayEndExpression numbers.toNumberOperations mode ⟨.doParseArrayEndExpression,
        lexerAt numbers mode (e.after ++ rest), e.value.evaluate numbers.inside, stateStack,
        .array elements :: objectStack, identifierStack⟩).outcome numbers mode := by
  have hspelled : e.spelled ++ rest = e.before ++ (e.text ++ (e.after ++ rest)) := by
    simp [Element.spelled]
  have hfollows := hrest.white hwhite.2
  have hreturned := returned_value numbers h hwhite.1 hfollows
  have hvalue := valueAt_of_ne numbers (show e.after ++ rest ≠ [] by simp [hne]) e.value
  rw [doParseArrayStartExpression, next_eq, hspelled, if_neg hreturned]
  change run _ _ ⟨_, lexerAt numbers mode (e.before ++ (e.text ++ (e.after ++ rest))), _, _,
    _, _⟩ = _
  rw [hruns _ _ hwhite.1 hfollows, hvalue]
  exact run_eq numbers _

theorem outcome_elements (hrest : Follows rest) {elements : List Element} (hne : elements ≠ [])
    (hwhite : ∀ e ∈ elements, e.IsWhite)
    (h : ∀ e ∈ elements, JSONValue numbers.fits mode e.text e.value)
    (hruns : ∀ e ∈ elements, RunsOver numbers mode e.text e.value) :
    ∀ (state : ParserState) (token : Token Number) (lastValue : JSValue Number)
      (stateStack : List ParserState) (values : List (JSValue Number))
      (objectStack : List (JSValue Number)) (identifierStack : List UString),
      (doParseArrayStartExpression numbers.toNumberOperations mode ⟨state,
          ⟨token, commaSeparated (elements.map Element.spelled) ++ ch ']' :: rest⟩, lastValue,
          stateStack, .array values :: objectStack, identifierStack⟩).outcome numbers mode =
        (popState ⟨.startParseExpression, lexerAt numbers mode rest,
          .array (values ++ elements.map fun e => e.value.evaluate numbers.inside), stateStack,
          objectStack, identifierStack⟩).outcome numbers mode := by
  induction elements with
  | nil => exact absurd rfl hne
  | cons e elements ih =>
    intro state token lastValue stateStack values objectStack identifierStack
    obtain ⟨hwhite', hwhites⟩ := forall_mem_cons.mp hwhite
    obtain ⟨h', hs⟩ := forall_mem_cons.mp h
    obtain ⟨hruns', hall⟩ := forall_mem_cons.mp hruns
    cases elements with
    | nil =>
      rw [map_singleton, commaSeparated_singleton, outcome_element numbers hwhite' h' hruns'
        (follows_cons (by decide) rest) (cons_ne_nil _ _),
        lexerAt_of_lexes numbers hwhite'.2 (lexes_single numbers .rBracket rfl rest) nofun]
      rfl
    | cons e' elements =>
      rw [map_cons, map_cons, commaSeparated_cons_cons, append_assoc,
        cons_append, outcome_element numbers hwhite' h' hruns'
        (follows_cons (by decide) _) (cons_ne_nil _ _),
        lexerAt_of_lexes numbers hwhite'.2 (lexes_single numbers .comma rfl _) nofun]
      refine (ih (cons_ne_nil _ _) hwhites hs hall .doParseArrayEndExpression .comma _ _
        (values ++ [e.value.evaluate numbers.inside]) _ _).trans ?_
      rw [append_assoc]
      rfl

/-! ### Objects -/

theorem propertyName_of {nameText : List UChar} {name : UString}
    (h : PropertyName numbers.fits mode nameText name) (hwhite : White white)
    (hrest : Follows rest) : ∃ token : Token Number,
      lexerAt numbers mode (white ++ (nameText ++ rest)) = ⟨token, rest⟩ ∧
        propertyName? mode token = some (stored name) := by
  cases h with
  | string h =>
    exact ⟨_, lexerAt_of_lexes numbers hwhite (.string h rest) nofun, rfl⟩
  | identifier hmode h =>
    refine ⟨_, lexerAt_of_lexes numbers hwhite (.identifier h hrest.not_part) nofun, ?_⟩
    rw [propertyName?, if_neg hmode]

/-- The property that the machine is at. -/
theorem outcome_property {m : Member} (hwhite : m.IsWhite)
    (hruns : RunsOver numbers mode m.element.text m.element.value) (hrest : Follows rest)
    (hne : rest ≠ []) (state : ParserState) (token : Token Number) (lastValue : JSValue Number)
    (stateStack : List ParserState) (properties : List (UString × JSValue Number))
    (objectStack : List (JSValue Number)) (identifierStack : List UString) (name : UString) :
    (parseProperty numbers.toNumberOperations mode ⟨state,
        ⟨token, m.afterName ++ ch ':' :: (m.element.spelled ++ rest)⟩, lastValue, stateStack,
        .object properties :: objectStack, identifierStack⟩ name).outcome numbers mode =
      (doParseObjectEndExpression numbers.toNumberOperations mode
        ⟨.doParseObjectEndExpression, lexerAt numbers mode (m.element.after ++ rest),
        m.element.value.evaluate numbers.inside, stateStack, .object properties :: objectStack,
        name :: identifierStack⟩).outcome numbers mode := by
  have hcolon : Lexes numbers mode _ _ _ :=
    lexes_single numbers .colon rfl (m.element.spelled ++ rest)
  have hspelled : m.element.spelled ++ rest =
      m.element.before ++ (m.element.text ++ (m.element.after ++ rest)) := by
    simp [Element.spelled]
  have hfollows := hrest.white hwhite.2.2.2
  have hvalue := valueAt_of_ne numbers (show m.element.after ++ rest ≠ [] by simp [hne])
    m.element.value
  rw [parseProperty, next_eq, returned_of_lexes numbers hwhite.2.1 hcolon (by simp),
    machine_next, machine_next]
  dsimp only
  rw [lexerAt_of_lexes numbers hwhite.2.1 hcolon (by simp), hspelled]
  change run _ _ ⟨_, lexerAt numbers mode (m.element.before ++
    (m.element.text ++ (m.element.after ++ rest))), _, _, _, _⟩ = _
  rw [hruns _ _ hwhite.2.2.1 hfollows, hvalue]
  exact run_eq numbers _

theorem Member.spelled_append (m : Member) (rest : List UChar) : m.spelled ++ rest =
    m.before ++ (m.nameText ++ (m.afterName ++ ch ':' :: (m.element.spelled ++ rest))) := by
  simp [spelled]

theorem exists_tail (m : Member) (members : List Member) (rest : List UChar) :
    ∃ tail, m.spelled ++ tail = commaSeparated ((m :: members).map spelled) ++ rest := by
  cases members with
  | nil => exact ⟨_, by rw [map_singleton, commaSeparated_singleton]⟩
  | cons m' members =>
    exact ⟨_, by rw [map_cons, map_cons, commaSeparated_cons_cons, append_assoc]⟩

/-- The members from one on, when the machine has read its name. -/
theorem outcome_members (hrest : Follows rest) {members : List Member}
    (hwhite : ∀ m ∈ members, m.IsWhite)
    (hname : ∀ m ∈ members, PropertyName numbers.fits mode m.nameText m.name)
    (hruns : ∀ m ∈ members, RunsOver numbers mode m.element.text m.element.value) :
    ∀ (m : Member) (tail : List UChar) (state : ParserState) (token : Token Number)
      (lastValue : JSValue Number) (stateStack : List ParserState)
      (properties : List (UString × JSValue Number)) (objectStack : List (JSValue Number))
      (identifierStack : List UString), m.IsWhite →
      RunsOver numbers mode m.element.text m.element.value →
      m.spelled ++ tail = commaSeparated ((m :: members).map spelled) ++ ch '}' :: rest →
      (parseProperty numbers.toNumberOperations mode ⟨state,
          ⟨token, m.afterName ++ ch ':' :: (m.element.spelled ++ tail)⟩, lastValue, stateStack,
          .object properties :: objectStack, identifierStack⟩ (stored m.name)).outcome numbers mode =
        (popState ⟨.startParseExpression, lexerAt numbers mode rest,
          .object (((m :: members).map fun m =>
            (stored m.name, m.element.value.evaluate numbers.inside)).foldl
              (fun properties property => putDirect properties property.1 property.2) properties),
          stateStack, objectStack, identifierStack⟩).outcome numbers mode := by
  induction members with
  | nil =>
    intro m tail state token lastValue stateStack properties objectStack identifierStack hm hr htail
    rw [map_singleton, commaSeparated_singleton, append_cancel_left_eq] at htail
    subst htail
    rw [outcome_property numbers hm hr (follows_cons (by decide) rest) (cons_ne_nil _ _),
      lexerAt_of_lexes numbers hm.2.2.2 (lexes_single numbers .rBrace rfl rest) nofun]
    rfl
  | cons m' members ih =>
    intro m tail state token lastValue stateStack properties objectStack identifierStack hm hr htail
    rw [map_cons, map_cons, commaSeparated_cons_cons, append_assoc, cons_append,
      append_cancel_left_eq] at htail
    subst htail
    obtain ⟨hm', hwhites⟩ := forall_mem_cons.mp hwhite
    obtain ⟨hname', hnames⟩ := forall_mem_cons.mp hname
    obtain ⟨hr', hall⟩ := forall_mem_cons.mp hruns
    obtain ⟨tail, htail⟩ := exists_tail m' members (ch '}' :: rest)
    have hcolon : Follows (m'.afterName ++ ch ':' :: (m'.element.spelled ++ tail)) :=
      (follows_cons (by decide) _).white hm'.2.1
    obtain ⟨token', hlexer, hproperty⟩ :=
      propertyName_of numbers hname' hm'.1 hcolon
    rw [outcome_property numbers hm hr (follows_cons (by decide) _) (cons_ne_nil _ _),
      lexerAt_of_lexes numbers hm.2.2.2 (lexes_single numbers .comma rfl _) nofun]
    change (doParseObjectStartExpression _ _ _).outcome numbers mode = _
    rw [doParseObjectStartExpression, machine_next]
    dsimp only
    rw [← map_cons, ← htail, spelled_append, hlexer]
    rw [hproperty]
    exact ih hwhites hnames hall m' tail _ _ _ _ _ _ _ hm' hr' htail

/-! ### All values -/

theorem runsOver_of_value (h : JSONValue numbers.fits mode text json) :
    RunsOver numbers mode text json := by
  induction h with
  | null =>
    exact runsOver_scalar numbers (fun rest _ => .null rest)
      (fun _ machine h => by rw [startParseExpression, h]; rfl) (by simp)
  | true =>
    exact runsOver_scalar numbers (fun rest _ => .true rest)
      (fun _ machine h => by rw [startParseExpression, h]; rfl) (by simp)
  | false =>
    exact runsOver_scalar numbers (fun rest _ => .false rest)
      (fun _ machine h => by rw [startParseExpression, h]; rfl) (by simp)
  | number hfits =>
    exact runsOver_scalar numbers (fun rest hrest => .number (hrest.stops _) hfits)
      (fun _ machine h => by rw [startParseExpression, h]; rfl) (by simp)
  | string h =>
    exact runsOver_scalar numbers (fun rest _ => .string h rest)
      (fun _ machine h => by rw [startParseExpression, h]; rfl) (by simp)
  | emptyArray hempty =>
    intro white rest hwhite hrest lastValue stateStack objectStack identifierStack
    rw [cons_append, append_assoc, singleton_append,
      lexerAt_of_lexes numbers hwhite (lexes_single numbers .lBracket rfl _) (by simp), run_eq]
    change (startParseArray _ _ _).outcome numbers mode = _
    rw [startParseArray, doParseArrayStartExpression, next_eq,
      returned_of_lexes numbers hempty (lexes_single numbers .rBracket rfl rest) (by simp)]
    rw [machine_next, machine_next]
    rw [lexerAt_of_lexes numbers hempty (lexes_single numbers .rBracket rfl rest) (by simp)]
    rfl
  | @array elements hne hwhites h hruns =>
    intro white rest hwhite hrest lastValue stateStack objectStack identifierStack
    rw [cons_append, append_assoc,
      lexerAt_of_lexes numbers hwhite (lexes_single numbers .lBracket rfl _) (by simp), run_eq]
    refine (outcome_elements numbers hrest hne hwhites h hruns _ _ _ _ [] _ _).trans ?_
    rw [valueAt, Json.evaluate, evaluateElements_eq, map_map]
    · rfl
    · simp
  | emptyObject hempty =>
    intro white rest hwhite hrest lastValue stateStack objectStack identifierStack
    rw [cons_append, append_assoc, singleton_append,
      lexerAt_of_lexes numbers hwhite (lexes_single numbers .lBrace rfl _) (by simp), run_eq]
    change (startParseObject _ _ _).outcome numbers mode = _
    rw [startParseObject, machine_next]
    rw [lexerAt_of_lexes numbers hempty (lexes_single numbers .rBrace rfl rest) (by simp)]
    rfl
  | @object members hne hwhites hname h hruns =>
    intro white rest hwhite hrest lastValue stateStack objectStack identifierStack
    rw [cons_append, append_assoc, singleton_append,
      lexerAt_of_lexes numbers hwhite (lexes_single numbers .lBrace rfl _) (by simp), run_eq]
    obtain ⟨m, members, rfl⟩ := exists_cons_of_ne_nil hne
    obtain ⟨tail, htail⟩ := exists_tail m members (ch '}' :: rest)
    obtain ⟨hm, hwhites⟩ := forall_mem_cons.mp hwhites
    obtain ⟨hname, hnames⟩ := forall_mem_cons.mp hname
    obtain ⟨hr, hruns⟩ := forall_mem_cons.mp hruns
    have hcolon : Follows (m.afterName ++ ch ':' :: (m.element.spelled ++ tail)) :=
      (follows_cons (by decide) _).white hm.2.1
    obtain ⟨token, hlexer, hproperty⟩ := propertyName_of numbers hname hm.1 hcolon
    change (startParseObject _ _ _).outcome numbers mode = _
    rw [startParseObject, machine_next]
    dsimp only
    rw [← htail, spelled_append, hlexer]
    rw [hproperty]
    refine (outcome_members numbers hrest hwhites hnames hruns m tail _ _ _ _ _ _ _ hm hr
      htail).trans ?_
    rw [valueAt, Json.evaluate, evaluateMembers_eq, map_map]
    · rfl
    · simp

/-! ## What the machine has read -/

/-- A token of the lexer is spelled at the front of its text. -/
theorem lexes_lexerAt (mode : ParserMode) (text : List UChar) :
    (White text ∧ lexerAt numbers mode text = ⟨.end, []⟩) ∨ ∃ white text', White white ∧
      text = white ++ text' ∧ Lexes numbers mode text' (lexerAt numbers mode text).currentToken
        (lexerAt numbers mode text).text := by
  rcases lex_cases numbers mode text with ⟨hwhite, -⟩ | ⟨white, text', hwhite, htext, hfinds⟩
  · exact .inl ⟨hwhite, lexerAt_end numbers hwhite⟩
  · exact .inr ⟨white, text', hwhite, htext, hfinds.1⟩

theorem lexes_of_token (h : (lexerAt numbers mode text).currentToken = token) (hne : token ≠ .end) :
    ∃ white text' rest, White white ∧ text = white ++ text' ∧ Lexes numbers mode text' token rest ∧
        lexerAt numbers mode text = ⟨token, rest⟩ := by
  rcases lexes_lexerAt numbers mode text with ⟨-, hend⟩ | ⟨white, text', hwhite, htext, hlexes⟩
  · rw [hend] at h
    exact absurd h.symm hne
  · rw [h] at hlexes
    refine ⟨white, text', _, hwhite, htext, hlexes, ?_⟩
    rw [← h]

/-- A token of one character. -/
theorem single_of_token (token : Token Number) (hc : singleCharacter token = some c)
    (h : (lexerAt numbers mode text).currentToken.type = token.type) : ∃ white rest, White white ∧
      text = white ++ c :: rest ∧ lexerAt numbers mode text = ⟨token, rest⟩ := by
  have htoken : (lexerAt numbers mode text).currentToken = token := by
    revert h
    generalize (lexerAt numbers mode text).currentToken = token'
    intro h
    cases token <;> cases hc <;> cases token' <;> first | rfl | cases h
  have hne : token ≠ .end := by
    rintro rfl
    cases hc
  obtain ⟨white, text', rest, hwhite, rfl, hlexes, hlexer⟩ := lexes_of_token numbers htoken hne
  cases hlexes with
  | single hsingle =>
    rw [hc] at hsingle
    cases hsingle
    exact ⟨white, rest, hwhite, rfl, hlexer⟩
  | _ => cases hc

theorem returned_lex (mode : ParserMode) (text : List UChar) :
    (lex numbers.toNumberOperations mode text).returned =
      returnedType (lexerAt numbers mode text).currentToken := by
  rcases lex_cases numbers mode text with ⟨hwhite, hlex⟩ | ⟨_, _, _, _, hfinds⟩
  · rw [hlex, lexerAt_end numbers hwhite]
    rfl
  · exact hfinds.2

theorem type_of_returned
    (h : (lex numbers.toNumberOperations mode text).returned = type) (hne : type ≠ .assign) :
    (lexerAt numbers mode text).currentToken.type = type := by
  rw [returned_lex, returnedType] at h
  split at h
  · exact absurd h.symm hne
  · exact h

/-- The value of a property as it is read. -/
def Member.read (m : Member) : UString × JSValue Number :=
  (stored m.name, m.element.value.evaluate numbers.inside)

/-- The arrays and objects around a value, and the text before it. -/
inductive Nesting (mode : ParserMode) :
    List UChar → List ParserState → List (JSValue Number) → List UString → Prop
  | top : Nesting mode [] [] [] []
  | array {pre : List UChar} {stateStack : List ParserState} {objectStack : List (JSValue Number)}
      {identifierStack : List UString}
      (h : Nesting mode pre stateStack objectStack identifierStack) {white : List UChar}
      (hwhite : White white) {elements : List Element} (hwhites : ∀ e ∈ elements, e.IsWhite)
      (hvalues : ∀ e ∈ elements, JSONValue numbers.fits mode e.text e.value) :
      Nesting mode (pre ++ (white ++ ch '[' :: elements.flatMap fun e => e.spelled ++ [ch ',']))
        (.doParseArrayEndExpression :: stateStack)
        (.array (elements.map fun e => e.value.evaluate numbers.inside) :: objectStack)
        identifierStack
  | object {pre : List UChar} {stateStack : List ParserState}
      {objectStack : List (JSValue Number)} {identifierStack : List UString}
      (h : Nesting mode pre stateStack objectStack identifierStack) {white : List UChar}
      (hwhite : White white) {members : List Member} (hwhites : ∀ m ∈ members, m.IsWhite)
      (hnames : ∀ m ∈ members, PropertyName numbers.fits mode m.nameText m.name)
      (hvalues : ∀ m ∈ members, JSONValue numbers.fits mode m.element.text m.element.value)
      {before nameText afterName : List UChar} {name : UString} (hbefore : White before)
      (hname : PropertyName numbers.fits mode nameText name) (hafter : White afterName) :
      Nesting mode (pre ++ (white ++ ch '{' :: ((members.flatMap fun m => m.spelled ++ [ch ',']) ++
          (before ++ (nameText ++ (afterName ++ [ch ':']))))))
        (.doParseObjectEndExpression :: stateStack)
        (.object (makeObject (members.map (read numbers))) :: objectStack)
        (stored name :: identifierStack)

/-- What a machine that reads a text has read of it. -/
inductive Reads (mode : ParserMode) (whole : List UChar) : Machine Number → Prop
  | expression {pre text : List UChar} {stateStack : List ParserState}
      {objectStack : List (JSValue Number)} {identifierStack : List UString}
      (h : Nesting numbers mode pre stateStack objectStack identifierStack)
      (hwhole : whole = pre ++ text) (lastValue : JSValue Number) :
      Reads mode whole ⟨.startParseExpression, lexerAt numbers mode text, lastValue, stateStack,
        objectStack, identifierStack⟩
  | value {pre white text rest : List UChar} {json : Json} {state : ParserState}
      {stateStack : List ParserState} {objectStack : List (JSValue Number)}
      {identifierStack : List UString}
      (h : Nesting numbers mode pre (state :: stateStack) objectStack identifierStack)
      (hwhite : White white) (hvalue : JSONValue numbers.fits mode text json)
      (hwhole : whole = pre ++ (white ++ (text ++ rest))) :
      Reads mode whole ⟨state, lexerAt numbers mode rest, valueAt numbers rest json, stateStack,
        objectStack, identifierStack⟩

/-- A value that is spelled at the front of a text, as it is read. -/
def ReadsValue (mode : ParserMode) (whole : List UChar) (value : JSValue Number)
    (lexer : Lexer Number) : Prop :=
  ∃ white text rest json, White white ∧ JSONValue numbers.fits mode text json ∧
    whole = white ++ (text ++ rest) ∧
    value = valueAt numbers rest json ∧ lexer = lexerAt numbers mode rest

/-- What an iteration leaves is right. -/
def Step.Sound (mode : ParserMode) (whole : List UChar) : Step Number → Prop
  | .goOn machine => Reads numbers mode whole machine
  | .done none _ => True
  | .done (some value) lexer => ReadsValue numbers mode whole value lexer

variable {whole : List UChar}
variable {identifierStack : List UString} {objectStack : List (JSValue Number)} {pre : List UChar}
  {stateStack : List ParserState}

variable (h : Nesting numbers mode pre stateStack objectStack identifierStack)
  (hwhite : White white)

include h hwhite

theorem popState_sound
    (hvalue : JSONValue numbers.fits mode text json)
    (hwhole : whole = pre ++ (white ++ (text ++ rest)))
    (state : ParserState) :
    (popState ⟨state, lexerAt numbers mode rest, valueAt numbers rest json, stateStack,
      objectStack, identifierStack⟩).Sound numbers mode whole := by
  cases stateStack with
  | nil =>
    cases h
    exact ⟨white, text, rest, json, hwhite, hvalue, hwhole, rfl, rfl⟩
  | cons state' stateStack => exact Reads.value h hwhite hvalue hwhole

theorem scalar_sound
    (hvalue : JSONValue numbers.fits mode text json)
    (hwhole : whole = pre ++ (white ++ (text ++ rest)))
    (state : ParserState) (lastValue : JSValue Number) :
    (scalar numbers.toNumberOperations mode ⟨state, ⟨token, rest⟩, lastValue, stateStack,
      objectStack, identifierStack⟩ (valueAt numbers rest json)).Sound numbers mode whole :=
  popState_sound numbers h hwhite hvalue hwhole state

/-! ### Arrays -/

theorem doParseArrayStartExpression_sound {elements : List Element}
    (hwhites : ∀ e ∈ elements, e.IsWhite)
    (hvalues : ∀ e ∈ elements, JSONValue numbers.fits mode e.text e.value)
    (hwhole : whole = pre ++ (white ++ ch '[' ::
      ((elements.flatMap fun e => e.spelled ++ [ch ',']) ++ text)))
    (htoken : token.type ≠ .comma → elements = []) (state : ParserState)
    (lastValue : JSValue Number) :
    (doParseArrayStartExpression numbers.toNumberOperations mode ⟨state, ⟨token, text⟩,
      lastValue, stateStack, .array (elements.map fun e => e.value.evaluate numbers.inside) ::
        objectStack, identifierStack⟩).Sound numbers mode whole := by
  rw [doParseArrayStartExpression]
  split
  · rename_i hreturned
    have htype := type_of_returned numbers hreturned (by simp)
    obtain ⟨white', rest, hwhite', rfl, hlexer⟩ := single_of_token numbers .rBracket rfl htype
    split
    · trivial
    · rename_i hcomma
      cases htoken hcomma
      rw [machine_next, machine_next]
      rw [hlexer]
      refine popState_sound numbers h hwhite (.emptyArray hwhite') ?_ state
      rw [hwhole]
      simp
  · refine Reads.expression (.array h hwhite hwhites hvalues) ?_ lastValue
    rw [hwhole]
    simp

omit h hwhite

/-- The elements before a comma or a bracket, with the last one. -/
theorem flatMap_commaSeparated {α : Type*} (spelled : α → List UChar) (items : List α) (item : α) :
    (items.flatMap fun i => spelled i ++ [ch ',']) ++ spelled item =
      commaSeparated ((items ++ [item]).map spelled) := by
  induction items with
  | nil => simp [commaSeparated_singleton]
  | cons i items ih =>
    rw [flatMap_cons, append_assoc, ih]
    cases items with
    | nil => simp [commaSeparated_cons_cons]
    | cons i' items => simp [commaSeparated_cons_cons]

theorem forall_mem_append_singleton {α : Type*} {p : α → Prop} {items : List α} {item : α}
    (h : ∀ i ∈ items, p i) (hitem : p item) : ∀ i ∈ items ++ [item], p i := by
  intro i hi
  rcases mem_append.mp hi with hi | hi
  · exact h i hi
  · rw [mem_singleton.mp hi]
    exact hitem

theorem doParseArrayEndExpression_sound (h : Reads numbers mode whole machine)
    (hstate : machine.state = .doParseArrayEndExpression) :
    (machine.doParseArrayEndExpression numbers.toNumberOperations mode).Sound numbers mode
      whole := by
  cases h with
  | expression => cases hstate
  | @value _ white text rest json state stateStack _ identifierStack h hwhite hvalue hwhole =>
    cases hstate
    cases h with
    | @array pre _ objectStack _ h white' hwhite' elements hwhites hvalues =>
      let element (after : List UChar) : Element := ⟨white, text, after, json⟩
      have hwhites' {after : List UChar} (hafter : White after) :
          ∀ e ∈ elements ++ [element after], e.IsWhite :=
        forall_mem_append_singleton hwhites ⟨hwhite, hafter⟩
      have hvalues' (after) : ∀ e ∈ elements ++ [element after],
          JSONValue numbers.fits mode e.text e.value :=
        forall_mem_append_singleton hvalues hvalue
      rw [doParseArrayEndExpression]
      split
      · rename_i hcomma
        obtain ⟨after, rest', hafter, rfl, hlexer⟩ := single_of_token numbers .comma rfl hcomma
        have hne : after ++ ch ',' :: rest' ≠ [] := by simp
        rw [hlexer, valueAt_of_ne numbers hne]
        have hwhole' : whole = pre ++ (white' ++ ch '[' :: (((elements ++
            [element after]).flatMap fun e => e.spelled ++ [ch ',']) ++ rest')) := by
          rw [hwhole]
          simp [element, Element.spelled]
        have hsound := doParseArrayStartExpression_sound numbers h hwhite'
          (hwhites' hafter) (hvalues' after) hwhole'
          (fun hne : Token.type (.comma : Token Number) ≠ .comma => absurd rfl hne)
          .doParseArrayEndExpression (json.evaluate numbers.inside)
        rw [map_append] at hsound
        exact hsound
      · split
        · trivial
        · rename_i hbracket
          obtain ⟨after, rest', hafter, rfl, hlexer⟩ :=
            single_of_token numbers .rBracket rfl (not_not.mp hbracket)
          have hne : after ++ ch ']' :: rest' ≠ [] := by simp
          rw [hlexer, valueAt_of_ne numbers hne]
          have hwhole' : whole = pre ++ (white' ++ ((ch '[' :: (commaSeparated ((elements ++
              [element after]).map Element.spelled) ++ [ch ']'])) ++ rest')) := by
            rw [hwhole, ← flatMap_commaSeparated]
            simp [element, Element.spelled]
          have hsound := popState_sound numbers h hwhite'
            (.array (by simp) (hwhites' hafter) (hvalues' after)) hwhole'
              .doParseArrayEndExpression
          rw [valueAt, Json.evaluate, evaluateElements_eq, map_map, map_append] at hsound
          · exact hsound
          · simp

/-! ### Objects -/

theorem propertyName_inv {name : UString}
    (h : propertyName? mode (lexerAt numbers mode text).currentToken = some name) :
    ∃ before nameText name' rest, White before ∧ text = before ++ (nameText ++ rest) ∧
      PropertyName numbers.fits mode nameText name' ∧ name = stored name' ∧
        ∃ token, lexerAt numbers mode text = ⟨token, rest⟩ := by
  generalize htoken : (lexerAt numbers mode text).currentToken = token at h
  have hne : token ≠ .end := by
    rintro rfl
    cases h
  obtain ⟨before, text', rest, hbefore, rfl, hlexes, hlexer⟩ := lexes_of_token numbers htoken hne
  cases hlexes with
  | string hliteral =>
    cases h
    exact ⟨before, _, _, rest, hbefore, rfl, .string hliteral, rfl, _, hlexer⟩
  | identifier hidentifier =>
    rw [propertyName?] at h
    split at h
    · cases h
    · rename_i hmode
      cases h
      exact ⟨before, _, _, rest, hbefore, rfl, .identifier hmode hidentifier, rfl, _, hlexer⟩
  | single hsingle => cases token <;> first | (cases hsingle; done) | cases h
  | _ => cases h

include h hwhite

theorem parseProperty_sound {before nameText : List UChar} {name : UString} {members : List Member}
    (hwhites : ∀ m ∈ members, m.IsWhite)
    (hnames : ∀ m ∈ members, PropertyName numbers.fits mode m.nameText m.name)
    (hvalues : ∀ m ∈ members, JSONValue numbers.fits mode m.element.text m.element.value)
    (hbefore : White before) (hname : PropertyName numbers.fits mode nameText name)
    (hwhole : whole = pre ++ (white ++ ch '{' ::
      ((members.flatMap fun m => m.spelled ++ [ch ',']) ++ (before ++ (nameText ++ text)))))
    (state : ParserState) (lastValue : JSValue Number) :
    (parseProperty numbers.toNumberOperations mode ⟨state, ⟨token, text⟩, lastValue,
      stateStack, .object (makeObject (members.map (read numbers))) :: objectStack,
      identifierStack⟩ (stored name)).Sound numbers mode whole := by
  rw [parseProperty]
  split
  · trivial
  · rename_i hreturned
    have htype := type_of_returned numbers (not_not.mp hreturned) (by simp)
    obtain ⟨afterName, rest, hafter, rfl, hlexer⟩ := single_of_token numbers .colon rfl htype
    rw [machine_next, machine_next]
    rw [hlexer]
    refine Reads.expression
      (.object h hwhite hwhites hnames hvalues hbefore hname hafter) ?_ lastValue
    rw [hwhole]
    simp

theorem doParseObjectStartExpression_sound {members : List Member}
    (hwhites : ∀ m ∈ members, m.IsWhite)
    (hnames : ∀ m ∈ members, PropertyName numbers.fits mode m.nameText m.name)
    (hvalues : ∀ m ∈ members, JSONValue numbers.fits mode m.element.text m.element.value)
    (hwhole : whole = pre ++ (white ++ ch '{' ::
      ((members.flatMap fun m => m.spelled ++ [ch ',']) ++ text)))
    (state : ParserState) (lastValue : JSValue Number) :
    (doParseObjectStartExpression numbers.toNumberOperations mode ⟨state, ⟨token, text⟩,
      lastValue, stateStack, .object (makeObject (members.map (read numbers))) ::
        objectStack, identifierStack⟩).Sound numbers mode whole := by
  rw [doParseObjectStartExpression, machine_next]
  split
  · rename_i name hname
    obtain ⟨before, nameText, name, rest, hbefore, rfl, hname', rfl, token', hlexer⟩ :=
      propertyName_inv numbers hname
    rw [hlexer]
    exact parseProperty_sound numbers h hwhite hwhites hnames hvalues hbefore hname' hwhole state
      lastValue
  · trivial

theorem startParseObject_sound
    (hwhole : whole = pre ++ (white ++ ch '{' :: text)) (state : ParserState)
    (lastValue : JSValue Number) :
    (startParseObject numbers.toNumberOperations mode ⟨state, ⟨token, text⟩, lastValue,
      stateStack, objectStack, identifierStack⟩).Sound numbers mode whole := by
  rw [startParseObject, machine_next]
  dsimp only
  split
  · rename_i name hname
    obtain ⟨before, nameText, name, rest, hbefore, rfl, hname', rfl, token', hlexer⟩ :=
      propertyName_inv numbers hname
    rw [hlexer]
    exact parseProperty_sound numbers h hwhite (forall_mem_nil Member.IsWhite) (forall_mem_nil _)
      (forall_mem_nil _) hbefore hname' hwhole state lastValue
  · split
    · trivial
    · rename_i hbrace
      obtain ⟨white', rest, hwhite', rfl, hlexer⟩ :=
        single_of_token numbers .rBrace rfl (not_not.mp hbrace)
      rw [hlexer]
      refine popState_sound numbers h hwhite (.emptyObject hwhite') ?_ state
      rw [hwhole]
      simp

omit h hwhite

theorem doParseObjectEndExpression_sound (h : Reads numbers mode whole machine)
    (hstate : machine.state = .doParseObjectEndExpression) :
    (machine.doParseObjectEndExpression numbers.toNumberOperations mode).Sound numbers mode
      whole := by
  cases h with
  | expression => cases hstate
  | @value _ white text rest json state stateStack _ identifierStack h hwhite hvalue hwhole =>
    cases hstate
    cases h with
    | @object pre _ objectStack identifierStack h white' hwhite' members hwhites hnames hvalues before
        nameText afterName name hbefore hname hafterName =>
      let member (after : List UChar) : Member :=
        ⟨before, nameText, name, afterName, ⟨white, text, after, json⟩⟩
      have hput : ∀ after, putDirect (makeObject (members.map (read numbers))) (stored name)
          (json.evaluate numbers.inside) =
            makeObject ((members ++ [member after]).map (read numbers)) := by
        intro after
        rw [map_append, map_singleton, makeObject, makeObject, foldl_append]
        rfl
      have hwhites' {after : List UChar} (hafter : White after) :
          ∀ m ∈ members ++ [member after], m.IsWhite :=
        forall_mem_append_singleton hwhites ⟨hbefore, hafterName, hwhite, hafter⟩
      have hnames' (after) : ∀ m ∈ members ++ [member after],
          PropertyName numbers.fits mode m.nameText m.name :=
        forall_mem_append_singleton hnames hname
      have hvalues' (after) : ∀ m ∈ members ++ [member after],
          JSONValue numbers.fits mode m.element.text m.element.value :=
        forall_mem_append_singleton hvalues hvalue
      rw [doParseObjectEndExpression]
      split
      · rename_i hcomma
        obtain ⟨after, rest', hafter, rfl, hlexer⟩ := single_of_token numbers .comma rfl hcomma
        have hne : after ++ ch ',' :: rest' ≠ [] := by simp
        dsimp only [putProperty]
        rw [hlexer, valueAt_of_ne numbers hne, hput after]
        refine doParseObjectStartExpression_sound numbers h hwhite' (hwhites' hafter)
          (hnames' after) (hvalues' after) ?_ _ _
        rw [hwhole]
        simp [member, spelled, Element.spelled]
      · split
        · trivial
        · rename_i hbrace
          obtain ⟨after, rest', hafter, rfl, hlexer⟩ :=
            single_of_token numbers .rBrace rfl (not_not.mp hbrace)
          have hne : after ++ ch '}' :: rest' ≠ [] := by simp
          have hwhole' : whole = pre ++ (white' ++ ((ch '{' :: (commaSeparated ((members ++
              [member after]).map spelled) ++ [ch '}'])) ++ rest')) := by
            rw [hwhole, ← flatMap_commaSeparated]
            simp [member, spelled, Element.spelled]
          dsimp only [putProperty]
          rw [hlexer, valueAt_of_ne numbers hne, hput after]
          have hsound := popState_sound numbers h hwhite'
            (.object (by simp) (hwhites' hafter) (hnames' after) (hvalues' after)) hwhole'
              .doParseObjectEndExpression
          rw [valueAt, Json.evaluate, evaluateMembers_eq, map_map] at hsound
          · exact hsound
          · simp

/-! ### Runs -/

theorem startParseExpression_sound (h : Reads numbers mode whole machine)
    (hstate : machine.state = .startParseExpression) :
    (machine.startParseExpression numbers.toNumberOperations mode).Sound numbers mode whole := by
  cases h with
  | value h => cases h <;> cases hstate
  | @expression pre text stateStack objectStack identifierStack h hwhole lastValue =>
    rw [startParseExpression]
    split
    · rename_i htoken
      obtain ⟨white, rest, hwhite, rfl, hlexer⟩ :=
        single_of_token numbers .lBracket rfl (by rw [htoken])
      rw [hlexer]
      exact doParseArrayStartExpression_sound numbers h hwhite (forall_mem_nil Element.IsWhite)
        (forall_mem_nil _) hwhole (fun _ => rfl) _ _
    · rename_i htoken
      obtain ⟨white, rest, hwhite, rfl, hlexer⟩ :=
        single_of_token numbers .lBrace rfl (by rw [htoken])
      rw [hlexer]
      exact startParseObject_sound numbers h hwhite hwhole _ _
    case h_8 => trivial
    -- the scalars
    all_goals
      rename_i htoken
      obtain ⟨white, text', rest, hwhite, rfl, hlexes, hlexer⟩ :=
        lexes_of_token numbers htoken (by simp)
      rw [hlexer]
      cases hlexes with
      | single hsingle => cases hsingle
      | _ => exact scalar_sound numbers h hwhite (by constructor <;> assumption) hwhole _ _

theorem step_sound (h : Reads numbers mode whole machine) :
    (machine.step numbers.toNumberOperations mode).Sound numbers mode whole := by
  have hstate : machine.state = .startParseExpression ∨
      machine.state = .doParseArrayEndExpression ∨ machine.state = .doParseObjectEndExpression := by
    cases h with
    | expression => exact .inl rfl
    | value h =>
      cases h with
      | array => exact .inr (.inl rfl)
      | object => exact .inr (.inr rfl)
  rw [Machine.step]
  rcases hstate with hstate | hstate | hstate
  · rw [hstate]
    exact startParseExpression_sound numbers h hstate
  · rw [hstate]
    exact doParseArrayEndExpression_sound numbers h hstate
  · rw [hstate]
    exact doParseObjectEndExpression_sound numbers h hstate

/-- A value that is parsed is spelled at the front of the text. -/
theorem parse_sound {lexer : Lexer Number}
    (h : parse numbers.toNumberOperations mode .startParseExpression (lexerAt numbers mode text) =
      (some value, lexer)) : ReadsValue numbers mode text value lexer := by
  have hrun := run_induction numbers.toNumberOperations mode
    (P := Reads numbers mode text)
    (Q := fun value lexer => ∀ v, value = some v → ReadsValue numbers mode text v lexer)
    (fun machine machine' hreads hstep => by
      have hsound := step_sound numbers hreads
      rwa [hstep] at hsound)
    (fun machine value lexer hreads hstep v hv => by
      have hsound := step_sound numbers hreads
      rwa [hstep, hv] at hsound)
    _ (Reads.expression .top (show text = [] ++ text from rfl) .undefined)
  rw [parse] at h
  rw [h] at hrun
  exact hrun value rfl

/-- A value at the front of a text is parsed. -/
theorem parse_complete (hwhite : White white) (h : JSONValue numbers.fits mode text json)
    (hrest : Follows rest) :
    parse numbers.toNumberOperations mode .startParseExpression
        (lexerAt numbers mode (white ++ (text ++ rest))) =
      (some (valueAt numbers rest json), lexerAt numbers mode rest) :=
  runsOver_of_value numbers h white rest hwhite hrest .undefined [] [] []

end WebKit.JavaScriptCore.LiteralParser
