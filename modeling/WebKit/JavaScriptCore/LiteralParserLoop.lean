import Mathlib
import WebKit.JavaScriptCore.LiteralParser

/-!
# The loop of the literal parser

An iteration of `parse` that does not end it reads tokens, or is the target of a `goto` that the
machine never takes on its own.  So the loop ends on every text, and its definition needs no bound.

* `Lexer.size`: what is left to read, which `Lexer.size_next` says a token takes from.
* `Machine.step_below`: an iteration goes below the measure of the machine.
* `Machine.run`: the loop, with `parse`, `tryLiteralParse` and `tryJSONPParse` over it.
-/

namespace WebKit.JavaScriptCore.LiteralParser

open WTF
open List Nat Lexer

variable {Number : Type*}

/-! ## Every run ends -/

theorem length_dropWhile_le {α : Type*} (p : α → Bool) (l : List α) :
    (l.dropWhile p).length ≤ l.length :=
  (dropWhile_sublist p).length_le

variable {text rest : List UChar} {mode : ParserMode}

theorem lexUnicodeEscape_length
    (h : lexUnicodeEscape text = some (character, rest)) : rest.length < text.length := by
  unfold lexUnicodeEscape at h
  split at h
  · split at h
    · cases h
      simp only [length_cons]
      omega
    · cases h
  · cases h

theorem lexEscape_length (h : lexEscape mode text = some (character, rest)) :
    rest.length < text.length := by
  cases text with
  | nil => cases h
  | cons c text =>
    rw [lexEscape] at h
    split at h
    · exact lt_succ_of_lt (lexUnicodeEscape_length h)
    · obtain ⟨_, -, heq⟩ := Option.map_eq_some_iff.mp h
      cases heq
      exact lt_succ_self _

theorem lexAfterRun_length
    (h : lexAfterRun mode run builder ptr = some (builder', ptr')) : ptr'.length ≤ ptr.length := by
  rw [lexAfterRun] at h
  split at h
  · obtain ⟨⟨_, rest⟩, hescape, heq⟩ := Option.map_eq_some_iff.mp h
    cases heq
    have hlt := lexEscape_length hescape
    rw [length_tail] at hlt
    omega
  · cases h
    exact le_rfl

theorem lexStringLoop_length
    (h : lexStringLoop mode terminator fuel text builder = some (builder', runStart, ptr)) :
    ptr.length ≤ text.length := by
  induction fuel generalizing text builder with
  | zero => cases h
  | succ fuel ih =>
    rw [lexStringLoop] at h
    split at h
    · cases h
    · rename_i hrun
      have hle := le_trans (lexAfterRun_length hrun) (length_dropWhile_le _ _)
      split at h
      · exact le_trans (ih h) hle
      · cases h
        exact hle

theorem lexCharacters_length (mode : ParserMode) (terminator : UChar) (text : List UChar) :
    (lexCharacters mode terminator text : Token Number × List UChar).2.length ≤ text.length := by
  rw [lexCharacters]
  split
  · rename_i hloop
    have hle := lexStringLoop_length hloop
    split
    · exact le_of_succ_le hle
    · exact zero_le _
  · exact zero_le _

theorem lexDigitRun_length (h : lexDigitRun text = some rest) : rest.length < text.length := by
  cases text with
  | nil => cases h
  | cons c text =>
    rw [lexDigitRun] at h
    split at h
    · cases h
      exact lt_succ_of_le (length_dropWhile_le _ _)
    · cases h

theorem lexDigits_length (h : lexDigits text = some rest) : rest.length < text.length := by
  cases text with
  | nil => cases h
  | cons c text =>
    rw [lexDigits] at h
    split at h
    · cases h
      exact lt_succ_self _
    · split at h
      · cases h
        exact lt_succ_of_le (length_dropWhile_le _ _)
      · cases h

theorem skipSign_length (text : List UChar) : (skipSign text).length ≤ text.length := by
  cases text with
  | nil => exact le_rfl
  | cons c text =>
    rw [skipSign]
    split
    · exact le_succ _
    · exact le_rfl

theorem lexExponent_length (h : lexExponent text = some rest) : rest.length ≤ text.length := by
  cases text with
  | nil =>
    cases h
    exact le_rfl
  | cons c text =>
    rw [lexExponent] at h
    split at h
    · have hlt := lexDigitRun_length h
      have hle := skipSign_length text
      rw [length_cons]
      omega
    · cases h
      exact le_rfl

section Measure

variable (numbers : NumberOperations Number) (mode : ParserMode)

theorem within_length (text : List UChar) (read : Token Number × List UChar) :
    (within numbers text read).2.length ≤ read.2.length := by
  rw [within]
  split
  · exact le_rfl
  · exact zero_le _

theorem lexString_length (mode : ParserMode) (terminator : UChar) (text : List UChar) :
    (lexString numbers mode terminator text).2.length ≤ text.length :=
  (within_length _ _ _).trans (lexCharacters_length mode terminator text)

theorem lexNumberEnd_length (text ptr : List UChar) :
    (lexNumberEnd numbers text ptr).2.length ≤ ptr.length := by
  rw [lexNumberEnd]
  split
  · exact zero_le _
  · rename_i hexponent
    exact lexExponent_length hexponent

theorem lexFraction_length (text ptr : List UChar) :
    (lexFraction numbers text ptr).2.length ≤ ptr.length := by
  unfold lexFraction
  split
  · exact lexNumberEnd_length numbers _ _
  · split
    · split
      · exact zero_le _
      · rename_i hrun
        have hlt := lexDigitRun_length hrun
        have hle := lexNumberEnd_length numbers text ‹List UChar›
        rw [length_cons]
        omega
    · split
      · exact le_rfl
      · exact lexNumberEnd_length numbers _ _

theorem lexNumber_length (c : UChar) (rest : List UChar) :
    (lexNumber numbers (c :: rest)).2.length ≤ rest.length := by
  refine le_trans (within_length _ _ _) ?_
  rw [lexInt]
  split
  · exact zero_le _
  · rename_i ptr hdigits
    refine le_trans (lexFraction_length numbers _ _) ?_
    have hlt := lexDigits_length hdigits
    split at hlt
    · exact le_of_lt hlt
    · exact le_of_lt_succ hlt

theorem lexOther_length (c : UChar) (rest : List UChar) :
    (lexOther numbers mode c rest).rest.length ≤ rest.length := by
  rw [lexOther]
  repeat' split
  · exact le_rfl
  · exact le_rfl
  · exact le_rfl
  · rename_i hstart
    have hpart : isIdentifierPart c = true := by
      rw [isIdentifierStart] at hstart
      rw [isIdentifierPart, isASCIIAlphanumeric]
      simp only [Bool.or_eq_true] at hstart ⊢
      tauto
    change (List.dropWhile isIdentifierPart (c :: rest)).length ≤ rest.length
    rw [dropWhile_cons_of_pos hpart]
    exact length_dropWhile_le _ _
  · exact lexString_length _ _ _ _
  · exact zero_le _

theorem lexToken_length (c : UChar) (rest : List UChar) :
    (lexToken numbers mode c rest).rest.length ≤ rest.length := by
  rw [lexToken]
  split
  · exact le_rfl
  · repeat' split
    · exact lexString_length _ _ _ _
    · exact (length_drop ..).trans_le (sub_le _ _)
    · exact (length_drop ..).trans_le (sub_le _ _)
    · exact (length_drop ..).trans_le (sub_le _ _)
    · exact lexNumber_length _ _ _
    · exact lexOther_length _ _ _ _

variable (lexer : Lexer Number)

/-- The characters and the token that are left to read. -/
def Lexer.size : ℕ :=
  lexer.text.length + if lexer.currentToken.type = .end then 0 else 1

theorem Lexer.size_next : (lexer.next numbers mode).2.size ≤ lexer.text.length := by
  have hlen := length_dropWhile_le isJSONWhiteSpace lexer.text
  rw [Lexer.next, size, lex]
  dsimp only
  split
  · exact zero_le _
  · rename_i c rest heq
    have hle := lexToken_length numbers mode c rest
    rw [heq, length_cons] at hlen
    split <;> omega

theorem Lexer.size_of_ne_end {lexer : Lexer Number} (h : lexer.currentToken.type ≠ .end) :
    lexer.size = lexer.text.length + 1 := by
  rw [size, if_neg h]

theorem Lexer.length_le_size : lexer.text.length ≤ lexer.size :=
  le_add_right _ _

theorem Lexer.text_next_le : (lexer.next numbers mode).2.text.length ≤ lexer.text.length :=
  le_trans (length_le_size _) (lexer.size_next numbers mode)

theorem Lexer.text_next_lt (h : (lexer.next numbers mode).2.currentToken.type ≠ .end) :
    (lexer.next numbers mode).2.text.length < lexer.text.length := by
  have hle := lexer.size_next numbers mode
  rw [size_of_ne_end h] at hle
  exact hle

theorem eq_end_of_type {token : Token Number} (h : token.type = .end) : token = .end := by
  cases token <;> first | rfl | cases h

/-- The states that only a `goto` reaches read a token before the next iteration. -/
def Machine.measure (machine : Machine Number) : ℕ :=
  2 * machine.lexer.size + if machine.state = .startParseExpression then 0 else 1

/-- What an iteration leaves is below a bound. -/
def Step.Below (n : ℕ) : Step Number → Prop
  | .goOn machine => machine.measure < n
  | .done _ lexer => 2 * lexer.size ≤ n

theorem Step.Below.mono (h : n ≤ n') {step : Step Number} (hb : step.Below n) :
    step.Below n' := by
  cases step with
  | goOn machine => exact hb.trans_le h
  | done value lexer => exact hb.trans h

namespace Machine

variable {machine : Machine Number} {n : ℕ}

theorem popState_below (h : 2 * machine.lexer.size + 1 < n) : machine.popState.Below n := by
  rw [popState]
  split
  · exact le_of_lt (lt_of_succ_lt h)
  · change measure _ < n
    rw [measure]
    dsimp only
    split <;> omega

theorem fail_below (h : 2 * machine.lexer.size ≤ n) : machine.fail.Below n := h

theorem popObject_below (h : 2 * machine.lexer.size + 1 < n) : machine.popObject.Below n := by
  rw [popObject]
  split <;> exact popState_below h

theorem expectExpression_below (h : 2 * machine.lexer.size < n) :
    machine.expectExpression.Below n := by
  exact h

theorem size_next (machine : Machine Number) :
    (machine.next numbers mode).lexer.size ≤ machine.lexer.text.length :=
  machine.lexer.size_next numbers mode

/-- The type that `next` returns tells of the end as the type that it stores. -/
theorem size_of_returned (h : (machine.lexer.next numbers mode).1 = type) (htype : type ≠ .end) :
    (machine.next numbers mode).lexer.size = (machine.next numbers mode).lexer.text.length + 1 := by
  refine size_of_ne_end fun hend => htype ?_
  rw [← h]
  revert hend
  change (lex numbers mode machine.lexer.text).token.type = .end →
    (lex numbers mode machine.lexer.text).returned = .end
  rw [lex]
  split
  · exact fun _ => rfl
  · rw [lexToken]
    split
    · exact id
    · rw [lexOther]
      repeat' split
      all_goals first | exact id | exact fun h => by cases h

theorem doParseArrayStartExpression_below (h : 2 * machine.lexer.text.length < n) :
    (machine.doParseArrayStartExpression numbers mode).Below n := by
  have hnext := machine.size_next numbers mode
  rw [doParseArrayStartExpression]
  split
  · rename_i hbracket
    have hsize := size_of_returned numbers mode hbracket (by decide)
    have hnext' := (machine.next numbers mode).size_next numbers mode
    split
    · exact fail_below (by omega)
    · exact popObject_below (by omega)
  · refine expectExpression_below ?_
    change 2 * (machine.next numbers mode).lexer.size < n
    omega

theorem startParseArray_below (h : 2 * machine.lexer.text.length < n) :
    (machine.startParseArray numbers mode).Below n :=
  doParseArrayStartExpression_below numbers mode h

theorem doParseArrayEndExpression_below (machine : Machine Number) :
    (machine.doParseArrayEndExpression numbers mode).Below (2 * machine.lexer.size) := by
  rw [doParseArrayEndExpression]
  split
  · rename_i hcomma
    have hsize := @size_of_ne_end _ machine.lexer (by rw [hcomma]; decide)
    refine doParseArrayStartExpression_below numbers mode ?_
    dsimp only
    omega
  · split
    · exact fail_below le_rfl
    · rename_i hbracket
      have hsize := @size_of_ne_end _ machine.lexer
        (by rw [not_not.mp hbracket]; decide)
      have hnext := machine.size_next numbers mode
      refine popObject_below ?_
      change 2 * (machine.next numbers mode).lexer.size + 1 < _
      omega

theorem parseProperty_below (name : UString) (h : 2 * machine.lexer.text.length < n) :
    (machine.parseProperty numbers mode name).Below n := by
  have hnext := machine.size_next numbers mode
  rw [parseProperty]
  split
  · exact fail_below (by omega)
  · refine expectExpression_below ?_
    have hnext' := (machine.next numbers mode).size_next numbers mode
    have hle := (machine.next numbers mode).lexer.length_le_size
    change 2 * ((machine.next numbers mode).next numbers mode).lexer.size < n
    omega

theorem startParseObject_below (h : 2 * machine.lexer.text.length < n) :
    (machine.startParseObject numbers mode).Below n := by
  have hnext := machine.size_next numbers mode
  have hle := (machine.next numbers mode).lexer.length_le_size
  rw [startParseObject]
  split
  · refine parseProperty_below numbers mode _ ?_
    change 2 * (machine.next numbers mode).lexer.text.length < n
    omega
  · split
    · change 2 * (machine.next numbers mode).lexer.size ≤ n
      omega
    · rename_i hbrace
      have hsize := @size_of_ne_end _ (machine.next numbers mode).lexer
        (by
          change ¬(machine.next numbers mode).lexer.currentToken.type ≠ .rBrace at hbrace
          rw [not_not.mp hbrace]
          decide)
      have hnext' := (machine.next numbers mode).size_next numbers mode
      refine popObject_below ?_
      change 2 * ((machine.next numbers mode).next numbers mode).lexer.size + 1 < n
      omega

theorem doParseObjectStartExpression_below (h : 2 * machine.lexer.text.length < n) :
    (machine.doParseObjectStartExpression numbers mode).Below n := by
  have hnext := machine.size_next numbers mode
  have hle := (machine.next numbers mode).lexer.length_le_size
  rw [doParseObjectStartExpression]
  split
  · exact parseProperty_below numbers mode _ (by omega)
  · exact fail_below (by omega)

theorem doParseObjectEndExpression_below (machine : Machine Number) :
    (machine.doParseObjectEndExpression numbers mode).Below (2 * machine.lexer.size) := by
  rw [doParseObjectEndExpression]
  split
  · rename_i hcomma
    have hsize := @size_of_ne_end _ machine.lexer (by rw [hcomma]; decide)
    refine doParseObjectStartExpression_below numbers mode ?_
    dsimp only
    omega
  · split
    · exact fail_below le_rfl
    · rename_i hbrace
      have hsize := @size_of_ne_end _ machine.lexer
        (by rw [not_not.mp hbrace]; decide)
      have hnext := machine.size_next numbers mode
      refine popObject_below ?_
      change 2 * (machine.next numbers mode).lexer.size + 1 < _
      omega

theorem scalar_below (value : JSValue Number) (h : machine.lexer.currentToken.type ≠ .end) :
    (machine.scalar numbers mode value).Below (2 * machine.lexer.size) := by
  have hsize := size_of_ne_end h
  have hnext := machine.size_next numbers mode
  refine popState_below ?_
  change 2 * (machine.next numbers mode).lexer.size + 1 < _
  omega

theorem startParseExpression_below (machine : Machine Number) :
    (machine.startParseExpression numbers mode).Below (2 * machine.lexer.size) := by
  rw [startParseExpression]
  split
  · rename_i htoken
    have hsize := @size_of_ne_end _ machine.lexer (by rw [htoken]; simp [Token.type])
    exact startParseArray_below numbers mode (by omega)
  · rename_i htoken
    have hsize := @size_of_ne_end _ machine.lexer (by rw [htoken]; simp [Token.type])
    exact startParseObject_below numbers mode (by omega)
  all_goals first
    | exact scalar_below numbers mode _ (by simp_all [Token.type])
    | exact fail_below le_rfl

theorem startParseStatement_below (machine : Machine Number) :
    (machine.startParseStatement numbers mode).Below (2 * machine.lexer.size + 1) := by
  have hexpression := (machine.startParseExpression_below numbers mode).mono (le_succ _)
  rw [startParseStatement]
  split
  · exact hexpression
  · exact hexpression
  · exact hexpression
  · have hnext := machine.size_next numbers mode
    have hle := machine.lexer.length_le_size
    refine (startParseExpression_below numbers mode _).mono ?_
    change 2 * (machine.next numbers mode).lexer.size ≤ _
    omega
  · exact fail_below (le_succ _)

theorem startParseStatementEndStatement_below (machine : Machine Number) :
    (machine.startParseStatementEndStatement numbers mode).Below (2 * machine.lexer.size) := by
  have hnext := machine.size_next numbers mode
  have hle := machine.lexer.length_le_size
  rw [startParseStatementEndStatement]
  repeat' split
  · exact fail_below le_rfl
  · change 2 * (machine.next numbers mode).lexer.size ≤ _
    omega
  · exact fail_below (by omega)

/-- An iteration reads tokens, or ends with a `goto`. -/
theorem step_below (machine : Machine Number) :
    (machine.step numbers mode).Below machine.measure := by
  have hle := machine.lexer.length_le_size
  rw [step, measure]
  cases hstate : machine.state <;> simp only [reduceCtorEq, if_false]
  · exact startParseObject_below numbers mode (by omega)
  · exact startParseArray_below numbers mode (by omega)
  · exact startParseExpression_below numbers mode machine
  · exact startParseStatement_below numbers mode machine
  · exact (startParseStatementEndStatement_below numbers mode machine).mono (le_succ _)
  · exact doParseObjectStartExpression_below numbers mode (by omega)
  · exact (doParseObjectEndExpression_below numbers mode machine).mono (le_succ _)
  · exact doParseArrayStartExpression_below numbers mode (by omega)
  · exact (doParseArrayEndExpression_below numbers mode machine).mono (le_succ _)

/-- The loop of `parse`. -/
def run (machine : Machine Number) : Option (JSValue Number) × Lexer Number :=
  match h : machine.step numbers mode with
  | .done value lexer => (value, lexer)
  | .goOn machine' => run machine'
termination_by machine.measure
decreasing_by
  have hbelow := machine.step_below numbers mode
  rw [h] at hbelow
  exact hbelow

theorem run_done {value : Option (JSValue Number)} {lexer : Lexer Number}
    (h : machine.step numbers mode = .done value lexer) :
    machine.run numbers mode = (value, lexer) := by
  rw [run]
  split <;> simp_all

theorem run_goOn {machine' : Machine Number} (h : machine.step numbers mode = .goOn machine') :
    machine.run numbers mode = machine'.run numbers mode := by
  rw [run]
  split <;> simp_all

/-- What every iteration keeps holds at the end. -/
theorem run_induction {P : Machine Number → Prop}
    {Q : Option (JSValue Number) → Lexer Number → Prop}
    (hgoOn : ∀ machine machine', P machine → machine.step numbers mode = .goOn machine' → P machine')
    (hdone : ∀ machine value lexer, P machine → machine.step numbers mode = .done value lexer →
      Q value lexer) (machine : Machine Number) (h : P machine) :
    Q (machine.run numbers mode).1 (machine.run numbers mode).2 := by
  induction machine using run.induct numbers mode with
  | case1 machine value lexer hstep =>
    rw [run_done numbers mode hstep]
    exact hdone machine value lexer h hstep
  | case2 machine machine' hstep ih =>
    rw [run_goOn numbers mode hstep]
    exact ih (hgoOn machine machine' h hstep)

theorem run_size (machine : Machine Number) :
    (machine.run numbers mode).2.size ≤ machine.lexer.size := by
  induction machine using run.induct numbers mode with
  | case1 machine value lexer hstep =>
    have hbelow := machine.step_below numbers mode
    rw [hstep] at hbelow
    have hle : 2 * lexer.size ≤ machine.measure := hbelow
    rw [run_done numbers mode hstep]
    change lexer.size ≤ machine.lexer.size
    unfold measure at hle
    split_ifs at hle <;> omega
  | case2 machine machine' hstep ih =>
    have hbelow := machine.step_below numbers mode
    rw [hstep] at hbelow
    have hlt : machine'.measure < machine.measure := hbelow
    rw [run_goOn numbers mode hstep]
    unfold measure at hlt
    split_ifs at hlt <;> omega

end Machine

/-! ## The entry points -/

/-- `parse` from the current token. -/
def parse (initialState : ParserState) (lexer : Lexer Number) :
    Option (JSValue Number) × Lexer Number :=
  Machine.run numbers mode ⟨initialState, lexer, .undefined, [], [], []⟩

/-- The lexer of a new parser.  The token that it holds is never looked at. -/
def Lexer.ofText (text : List UChar) : Lexer Number := ⟨.error, text⟩

/-- The semicolon that may stand after the literal. -/
def skipSemicolon (lexer : Lexer Number) : Lexer Number :=
  if lexer.currentToken.type = .semi then (lexer.next numbers mode).2 else lexer

def tryLiteralParse (text : List UChar) : Option (JSValue Number) :=
  let (result, lexer) := parse numbers mode
    (if mode = .strictJSON then .startParseExpression else .startParseStatement)
    ((ofText text).next numbers mode).2
  if (skipSemicolon numbers mode lexer).currentToken.type = .end then result else none

inductive JSONPPathEntry where
  | declare (pathEntryName : UString)
  | dot (pathEntryName : UString)
  | lookup (pathIndex : ℤ)
  | call (pathEntryName : UString)
  deriving DecidableEq

structure JSONPData (Number : Type*) where
  path : List JSONPPathEntry
  value : JSValue Number

/-- The words of `Keywords.table`. -/
def keywords : List (List UChar) :=
  ["null", "true", "false", "break", "case", "catch", "const", "default", "finally", "for",
    "instanceof", "new", "var", "continue", "function", "return", "void", "delete", "if", "this",
    "do", "while", "else", "in", "switch", "throw", "try", "typeof", "with", "debugger", "class",
    "enum", "export", "extends", "import", "super", "let", "implements", "interface", "package",
    "private", "protected", "public", "static", "yield"].map fun word => word.toList.map ch

local instance : LawfulBEq UString := inferInstance

def isKeyword (name : UString) : Bool := decide (name ∈ keywords)

def varKeyword : UString := ['v', 'a', 'r'].map ch

/-- What the inner loop does on a token that is not `TokAssign`. -/
inductive PathStep (Number : Type*) where
  | access (entry : JSONPPathEntry) (lexer : Lexer Number)
  | call (name : UString)
  | reject

/-- The name of a token `TokIdentifier`. -/
def identifier? : Token Number → Option UString
  | .identifier name => some name
  | _ => none

/-- The value of a token `TokNumber` as an index. -/
def index? : Token Number → Option ℤ
  | .number value =>
    if numbers.equal (numbers.ofInt (numbers.toInt value)) value && 0 ≤ numbers.toInt value then
      some (numbers.toInt value)
    else none
  | _ => none

variable (needsFullSourceInfo : Bool)

def pathStep (lexer : Lexer Number) (path : List JSONPPathEntry) : TokenType → PathStep Number
  | .lBracket =>
    let (_, lexer) := lexer.next numbers mode
    match index? numbers lexer.currentToken with
    | none => .reject
    | some index =>
      let (tokenType, lexer) := lexer.next numbers mode
      if tokenType ≠ .rBracket then .reject else .access (.lookup index) lexer
  | .dot =>
    let (_, lexer) := lexer.next numbers mode
    match identifier? lexer.currentToken with
    | none => .reject
    | some name => .access (.dot name) lexer
  | .lParen =>
    match path.getLast? with
    | some (.dot name) => if needsFullSourceInfo then .reject else .call name
    | _ => .reject
  | _ => .reject

variable {lexer lexer' : Lexer Number}

theorem pathStep_length {path : List JSONPPathEntry}
    (h : pathStep numbers mode needsFullSourceInfo lexer path tokenType = .access entry lexer') :
    (lexer'.next numbers mode).2.text.length < lexer.text.length := by
  have hle := lexer'.text_next_le numbers mode
  refine hle.trans_lt ?_
  unfold pathStep at h
  split at h
  · dsimp only at h
    split at h
    · cases h
    · rename_i hindex
      have hlt := lexer.text_next_lt numbers mode fun hend => by
        rw [eq_end_of_type hend] at hindex
        cases hindex
      split at h
      · cases h
      · cases h
        exact lt_of_le_of_lt ((lexer.next numbers mode).2.text_next_le numbers mode) hlt
  · dsimp only at h
    split at h
    · cases h
    · rename_i hname
      cases h
      exact lexer.text_next_lt numbers mode fun hend => by
        rw [eq_end_of_type hend] at hname
        cases hname
  · split at h
    · split at h <;> cases h
    · cases h
  · cases h

/-- The inner loop: the path and the lexer before the JSON text. -/
def readPath (tokenType : TokenType) (lexer : Lexer Number) (path : List JSONPPathEntry) :
    Option (List JSONPPathEntry × Lexer Number) :=
  if tokenType = .assign then some (path, lexer)
  else match h : pathStep numbers mode needsFullSourceInfo lexer path tokenType with
    | .reject => none
    | .call name => some (path.dropLast ++ [.call name], lexer)
    | .access entry lexer' =>
      readPath (lexer'.next numbers mode).1 (lexer'.next numbers mode).2 (path ++ [entry])
termination_by lexer.text.length
decreasing_by exact pathStep_length numbers mode needsFullSourceInfo h

/-- The name of an entry that starts a path. -/
def JSONPPathEntry.pathEntryName? : JSONPPathEntry → Option UString
  | .declare name => some name
  | .dot name => some name
  | _ => none

/-- The entry that a statement starts with. -/
def firstEntry (lexer : Lexer Number) : Option (JSONPPathEntry × Lexer Number) :=
  (identifier? lexer.currentToken).bind fun name =>
    if name = varKeyword then
      let (_, lexer) := lexer.next numbers mode
      (identifier? lexer.currentToken).map fun name => (.declare name, lexer)
    else some (.dot name, lexer)

/-- The loop's body up to the semicolon. -/
def readStatement (lexer : Lexer Number) : Option (JSONPData Number × Lexer Number) :=
  (firstEntry numbers mode lexer).bind fun (entry, lexer) =>
    if (entry.pathEntryName?.map isKeyword).getD false then none
    else
      let (tokenType, lexer) := lexer.next numbers mode
      (readPath numbers mode needsFullSourceInfo tokenType lexer [entry]).bind fun (path, lexer) =>
        match parse numbers mode .startParseExpression (lexer.next numbers mode).2 with
        | (none, _) => none
        | (some value, lexer) =>
          match path.getLast? with
          | some (.call _) =>
            if lexer.currentToken.type ≠ .rParen then none
            else some (⟨path, value⟩, (lexer.next numbers mode).2)
          | _ => some (⟨path, value⟩, lexer)

theorem readPath_size {tokenType : TokenType} {path path' : List JSONPPathEntry}
    (h : readPath numbers mode needsFullSourceInfo tokenType lexer path = some (path', lexer')) :
    lexer'.text.length ≤ lexer.text.length := by
  fun_induction readPath numbers mode needsFullSourceInfo tokenType lexer path with
  | case1 | case3 =>
    cases h
    exact le_rfl
  | case2 => cases h
  | case4 _ _ _ _ _ _ hstep ih =>
    exact (ih h).trans (pathStep_length numbers mode needsFullSourceInfo hstep).le

/-- A statement takes its first token at least. -/
theorem readStatement_size {data : JSONPData Number}
    (h : readStatement numbers mode needsFullSourceInfo lexer = some (data, lexer')) :
    lexer'.size < lexer.size := by
  obtain ⟨⟨entry, lexer1⟩, hfirst, h⟩ := Option.bind_eq_some_iff.mp h
  have hsize : lexer1.text.length < lexer.size := by
    obtain ⟨name, hname, hfirst⟩ := Option.bind_eq_some_iff.mp hfirst
    have hlive : lexer.currentToken.type ≠ .end := fun hend => by
      rw [eq_end_of_type hend] at hname
      cases hname
    rw [size_of_ne_end hlive]
    split at hfirst
    · obtain ⟨_, _, heq⟩ := Option.map_eq_some_iff.mp hfirst
      cases heq
      exact lt_succ_of_le (lexer.text_next_le numbers mode)
    · cases hfirst
      exact lt_succ_self _
  dsimp only at h
  split at h
  · cases h
  · obtain ⟨⟨path, lexer2⟩, hpath, h⟩ := Option.bind_eq_some_iff.mp h
    have h2 := readPath_size numbers mode needsFullSourceInfo hpath
    have h1 := lexer1.text_next_le numbers mode
    have h3 := lexer2.size_next numbers mode
    have h4 := Machine.run_size numbers mode
      ⟨.startParseExpression, (lexer2.next numbers mode).2, .undefined, [], [], []⟩
    split at h
    · cases h
    · rename_i hparse
      rw [parse] at hparse
      rw [hparse] at h4
      dsimp only at h4
      split at h
      · split at h
        · cases h
        · cases h
          have h5 := Lexer.size_next numbers mode ‹Lexer Number›
          have h6 := length_le_size ‹Lexer Number›
          omega
      · cases h
        omega

/-- The loop over the statements. -/
def readStatements (lexer : Lexer Number) (results : List (JSONPData Number)) :
    Option (List (JSONPData Number) × Lexer Number) :=
  match h : readStatement numbers mode needsFullSourceInfo lexer with
  | none => none
  | some (data, lexer') =>
    if lexer'.currentToken.type ≠ .semi then some (results ++ [data], lexer')
    else if (lexer'.next numbers mode).2.currentToken.type = .identifier then
      readStatements (lexer'.next numbers mode).2 (results ++ [data])
    else some (results ++ [data], (lexer'.next numbers mode).2)
termination_by lexer.size
decreasing_by
  have hlt := readStatement_size numbers mode needsFullSourceInfo h
  have hle := lexer'.size_next numbers mode
  have hle' := lexer'.length_le_size
  omega

def tryJSONPParse (text : List UChar) : Option (List (JSONPData Number)) :=
  if ((ofText text).next numbers mode).1 ≠ .identifier then none
  else
    (readStatements numbers mode needsFullSourceInfo ((ofText text).next numbers mode).2
      []).bind fun (results, lexer) =>
        if lexer.currentToken.type = .end then some results else none

end Measure

end WebKit.JavaScriptCore.LiteralParser
