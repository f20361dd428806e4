import Mathlib.Data.List.TakeWhile
import WebKit.JavaScriptCore.JSONGrammar

/-!
# What the lexer of the literal parser reads

Every token that `lex` finds is spelled in the text as the grammar says, and it finds the tokens that
are spelled there, those that there is room for.  Two things are not as the grammar says: a string
loses what 31 bits cannot count, and `-0` with something after it is read by `int` arithmetic, as `0`.

* `lexCharacters_of_characters`, `literal_of_lexCharacters`: strings.
* `lexInt_of_stops`, `stops_of_lexInt`: numbers.
* `Lexes`: a token at the front of a text, and `lexes_lexToken`: what `lex` finds is one.
-/

namespace WebKit.JavaScriptCore.LiteralParser

open WTF
open List UInt16 NumberLiteral

variable {mode : ParserMode}

/-! ## Escapes -/

variable {c character quote : UChar} {text : List UChar}

theorem toNat_lt_of_isASCIIHexDigit (h : isASCIIHexDigit c) : c.toNat < 103 := by
  rw [isASCIIHexDigit, isASCIIDigit, Bool.or_eq_true, Bool.and_eq_true, Bool.and_eq_true] at h
  rcases h with ⟨-, h⟩ | ⟨-, h⟩
  · have hle : c.toNat ≤ (ch '9').toNat := le_iff_toNat_le.mp (of_decide_eq_true h)
    exact hle.trans_lt (by decide)
  · have hle : (c ||| 0x20).toNat ≤ (ch 'f').toNat :=
      le_iff_toNat_le.mp (of_decide_eq_true h)
    exact Nat.lt_of_le_of_lt (Nat.left_le_or.trans hle) (by decide)

theorem hexDigit_below : ∀ n < 103, isASCIIHexDigit (ofNat n) →
    toASCIIHexValue (ofNat n) = hexDigitValue (ofNat n) ∧ hexDigitValue (ofNat n) < 16 := by
  decide

theorem toASCIIHexValue_eq (h : isASCIIHexDigit c) :
    toASCIIHexValue c = hexDigitValue c ∧ hexDigitValue c < 16 := by
  have hbelow := hexDigit_below c.toNat (toNat_lt_of_isASCIIHexDigit h)
  rw [UInt16.ofNat_toNat] at hbelow
  exact hbelow h

theorem convertHex_eq (h1 : isASCIIHexDigit c1) (h2 : isASCIIHexDigit c2) :
    convertHex c1 c2 = hexDigitValue c1 * 16 + hexDigitValue c2 ∧ convertHex c1 c2 < 256 := by
  obtain ⟨heq1, hlt1⟩ := toASCIIHexValue_eq h1
  obtain ⟨heq2, hlt2⟩ := toASCIIHexValue_eq h2
  have heq : convertHex c1 c2 = hexDigitValue c1 * 16 + hexDigitValue c2 := by
    rw [convertHex, heq1, heq2, ← Nat.shiftLeft_add_eq_or_of_lt hlt2, Nat.shiftLeft_eq]
  exact ⟨heq, by omega⟩

theorem convertUnicode_eq (h1 : isASCIIHexDigit c1)
    (h2 : isASCIIHexDigit c2) (h3 : isASCIIHexDigit c3) (h4 : isASCIIHexDigit c4) :
    convertUnicode c1 c2 c3 c4 = ofNat (((hexDigitValue c1 * 16 + hexDigitValue c2) * 16 +
      hexDigitValue c3) * 16 + hexDigitValue c4) := by
  obtain ⟨heq, -⟩ := convertHex_eq h1 h2
  obtain ⟨heq', hlt⟩ := convertHex_eq h3 h4
  rw [convertUnicode, ← Nat.shiftLeft_add_eq_or_of_lt hlt, Nat.shiftLeft_eq]
  congr 1
  omega

theorem escape_of_simpleEscape (h : simpleEscape mode c = some character) :
    Escape mode [c] character := by
  unfold simpleEscape at h
  split_ifs at h with h1 h2 h3 h4 h5 h6 h7 h8 h9
  all_goals obtain rfl := Option.some_inj.mp h
  · subst h1
    exact .quotationMark
  · subst h2
    exact .reverseSolidus
  · subst h3
    exact .solidus
  · exact h4 ▸ .backspace
  · exact h5 ▸ .formFeed
  · exact h6 ▸ .lineFeed
  · exact h7 ▸ .carriageReturn
  · exact h8 ▸ .tab
  · exact h9.1 ▸ .apostrophe h9.2

theorem lexEscape_of_escape (h : Escape mode escape character)
    (rest : List UChar) : lexEscape mode (escape ++ rest) = some (character, rest) := by
  cases h with
  | unicode h1 h2 h3 h4 =>
    rw [cons_append, lexEscape]
    simp only [cons_append, nil_append, lexUnicodeEscape, h1, h2, h3, h4, Bool.and_self,
      if_true, convertUnicode_eq h1 h2 h3 h4]
  | apostrophe h => cases mode <;> first | rfl | exact absurd rfl h
  | _ => rfl

theorem escape_of_lexEscape (h : lexEscape mode text = some (character, rest)) :
    ∃ escape, Escape mode escape character ∧ text = escape ++ rest := by
  cases text with
  | nil => cases h
  | cons c text =>
    rw [lexEscape] at h
    split at h
    · rename_i hu
      unfold lexUnicodeEscape at h
      split at h
      · split at h
        · rename_i hhex
          simp only [Bool.and_eq_true] at hhex
          obtain ⟨⟨⟨h1, h2⟩, h3⟩, h4⟩ := hhex
          cases h
          rw [convertUnicode_eq h1 h2 h3 h4, hu]
          exact ⟨_, .unicode h1 h2 h3 h4, rfl⟩
        · cases h
      · cases h
    · obtain ⟨_, hsimple, heq⟩ := Option.map_eq_some_iff.mp h
      cases heq
      exact ⟨[c], escape_of_simpleEscape hsimple, rfl⟩

/-! ## Strings -/

theorem isSafeStringCharacter_iff (hquote : IsQuote mode quote) :
    isSafeStringCharacter mode quote c = true ↔ IsPlain mode quote c := by
  have htab : (0x9 : UChar) ≠ quote := by
    rcases hquote with rfl | ⟨rfl, -⟩ <;> decide
  simp only [isSafeStringCharacter, Bool.or_eq_true, Bool.and_eq_true, decide_eq_true_eq,
    beq_iff_eq, bne_iff_ne]
  constructor
  · rintro (⟨⟨⟨h1, h2⟩, h3⟩, h4⟩ | ⟨rfl, h2⟩)
    · exact ⟨h4, h3, .inl ⟨h1, h2⟩⟩
    · exact ⟨htab, by decide, .inr ⟨rfl, h2⟩⟩
  · rintro ⟨h1, h2, ⟨h3, h4⟩ | ⟨rfl, h4⟩⟩
    · exact .inl ⟨⟨⟨h3, h4⟩, h2⟩, h1⟩
    · exact .inr ⟨rfl, h4⟩

theorem StringCharacters.of_plain
    (hrun : ∀ c ∈ run, IsPlain mode quote c) (h : StringCharacters mode quote text value) :
    StringCharacters mode quote (run ++ text) (run ++ value) := by
  induction run with
  | nil => exact h
  | cons c run ih =>
    exact .plain (hrun c mem_cons_self) (ih fun d hd => hrun d (mem_cons_of_mem _ hd))

/-- The characters of a string are a run, with nothing or with an escape after it. -/
theorem StringCharacters.run {value : UString}
    (h : StringCharacters mode quote text value) :
    ∃ run text' value', (∀ c ∈ run, IsPlain mode quote c) ∧ text = run ++ text' ∧
      value = run ++ value' ∧ (text' = [] ∧ value' = [] ∨
        mode ≠ .nonStrictJSON ∧ ∃ escape c text'' value'', Escape mode escape c ∧
          text' = backslash :: (escape ++ text'') ∧ value' = c :: value'' ∧
            StringCharacters mode quote text'' value'') := by
  induction h with
  | nil => exact ⟨[], [], [], by simp, rfl, rfl, .inl ⟨rfl, rfl⟩⟩
  | plain hplain _ ih =>
    obtain ⟨run, text', value', hrun, rfl, rfl, hrest⟩ := ih
    refine ⟨_ :: run, text', value', fun d hd => ?_, rfl, rfl, hrest⟩
    rcases mem_cons.mp hd with rfl | hd
    · exact hplain
    · exact hrun d hd
  | escape hmode hescape hrest _ =>
    exact ⟨[], _, _, by simp, rfl, rfl, .inr ⟨hmode, _, _, _, _, hescape, rfl, rfl, hrest⟩⟩

theorem takeWhile_append_cons {α : Type*} {p : α → Bool} {run : List α} {c : α}
    (hrun : ∀ d ∈ run, p d = true) (hc : p c = false) (rest : List α) :
    (run ++ c :: rest).takeWhile p = run ∧ (run ++ c :: rest).dropWhile p = c :: rest := by
  induction run with
  | nil => simp [hc]
  | cons d run ih =>
    obtain ⟨h1, h2⟩ := ih fun d hd => hrun d (mem_cons_of_mem _ hd)
    simp [hrun d mem_cons_self, h1, h2]

theorem not_isPlain_quote (mode : ParserMode) (quote : UChar) : ¬IsPlain mode quote quote :=
  fun h => h.1 rfl

theorem not_isPlain_backslash (mode : ParserMode) (quote : UChar) : ¬IsPlain mode quote backslash :=
  fun h => h.2.1 rfl

theorem IsQuote.ne_backslash (h : IsQuote mode quote) : quote ≠ backslash := by
  rcases h with rfl | ⟨rfl, -⟩ <;> decide

variable (hquote : IsQuote mode quote)

include hquote

/-- The loop on the characters of a string with the quote after them. -/
theorem lexStringLoop_of_characters
    (hfuel : text.length < fuel) (h : StringCharacters mode quote text value) (builder : UString)
    (rest : List UChar) :
    ∃ builder' runStart, lexStringLoop mode quote fuel (text ++ quote :: rest) builder =
        some (builder', runStart, quote :: rest) ∧
      (builder ≠ [] → builder' = builder ++ value) ∧
      (builder = [] → builder' = value ∧ value ≠ [] ∨
        builder' = [] ∧ runStart = text ++ quote :: rest ∧ value = text) := by
  induction fuel generalizing text value builder with
  | zero => omega
  | succ fuel ih =>
    have hsafe : ∀ c, isSafeStringCharacter mode quote c = true ↔ IsPlain mode quote c :=
      fun c => isSafeStringCharacter_iff hquote
    have hplain : ∀ {c}, ¬IsPlain mode quote c → isSafeStringCharacter mode quote c = false :=
      fun hc => Bool.eq_false_iff.mpr fun hs => hc ((hsafe _).mp hs)
    obtain ⟨run, text', value', hrun, rfl, rfl, hrest⟩ := h.run
    have hrun' : ∀ c ∈ run, isSafeStringCharacter mode quote c = true :=
      fun c hc => (hsafe c).mpr (hrun c hc)
    rw [lexStringLoop, append_assoc]
    rcases hrest with ⟨rfl, rfl⟩ | ⟨hmode, escape, c, text'', value'', hescape, rfl, rfl, hrest⟩
    · obtain ⟨htake, hdrop⟩ := takeWhile_append_cons hrun'
        (hplain (not_isPlain_quote mode quote)) rest
      rw [nil_append, htake, hdrop, lexAfterRun,
        if_neg fun hc => hquote.ne_backslash (Option.some_inj.mp hc.2), append_nil]
      dsimp only
      rw [if_neg fun hc => hc.2.2.2 rfl]
      refine ⟨_, _, rfl, fun hne => ?_, fun hnil => ?_⟩
      · rw [if_neg (by simpa using hne)]
      · subst hnil
        exact .inr ⟨rfl, rfl, rfl⟩
    · obtain ⟨htake, hdrop⟩ := takeWhile_append_cons hrun'
        (hplain (not_isPlain_backslash mode quote)) (escape ++ (text'' ++ quote :: rest))
      rw [cons_append, append_assoc, htake, hdrop, lexAfterRun, if_pos ⟨hmode, rfl⟩,
        tail_cons, lexEscape_of_escape hescape]
      dsimp only [Option.map_some]
      have hbuilder : (if (if builder.isEmpty then builder else builder ++ run).isEmpty then run
          else if builder.isEmpty then builder else builder ++ run) = builder ++ run := by
        cases builder <;> simp
      rw [hbuilder]
      have hlength : (text'' ++ quote :: rest).length ≠
          (run ++ backslash :: (escape ++ (text'' ++ quote :: rest))).length := by
        simp only [length_append, length_cons]
        omega
      by_cases hnil : text'' = []
      · subst hnil
        cases hrest
        rw [if_neg fun hc => hc.2.2.2 rfl]
        refine ⟨_, _, rfl, fun _ => ?_, fun hnil => ?_⟩
        · rw [append_assoc]
        · subst hnil
          exact .inl ⟨rfl, by simp⟩
      · by_cases hhead : (text'' ++ quote :: rest).head? = some quote
        · exfalso
          cases hrest with
          | nil => exact hnil rfl
          | plain hplain =>
            exact hplain.1 (Option.some_inj.mp hhead)
          | escape =>
            exact hquote.ne_backslash (Option.some_inj.mp hhead).symm
        · rw [if_pos ⟨hmode, hlength, by simp, hhead⟩]
          simp only [length_append, length_cons] at hfuel
          obtain ⟨builder', runStart, heq, hne, -⟩ := ih (by omega) hrest (builder ++ run ++ [c])
          have hvalue := hne (by simp)
          refine ⟨builder', runStart, heq, fun _ => ?_, fun hb => .inl ⟨?_, by simp⟩⟩
          · rw [hvalue]
            simp
          · rw [hvalue, hb]
            simp

/-- What the loop reads before a quote are the characters of a string. -/
theorem characters_of_lexStringLoop
    (h : lexStringLoop mode quote fuel text builder = some (builder', runStart, quote :: rest)) :
    ∃ raw value, text = raw ++ quote :: rest ∧ StringCharacters mode quote raw value := by
  induction fuel generalizing text builder with
  | zero => cases h
  | succ fuel ih =>
    have hrun : ∀ c ∈ text.takeWhile (isSafeStringCharacter mode quote), IsPlain mode quote c :=
      fun c hc => (isSafeStringCharacter_iff hquote).mp (mem_takeWhile_imp hc)
    have htext : text.takeWhile (isSafeStringCharacter mode quote) ++
        text.dropWhile (isSafeStringCharacter mode quote) = text := takeWhile_append_dropWhile
    rw [lexStringLoop] at h
    split at h
    · cases h
    · rename_i builder'' ptr hafter
      rw [lexAfterRun] at hafter
      split at hafter
      · rename_i hescape
        obtain ⟨⟨c, ptr'⟩, hlex, heq⟩ := Option.map_eq_some_iff.mp hafter
        cases heq
        obtain ⟨escape, hesc, htail⟩ := escape_of_lexEscape hlex
        have hdrop : text.dropWhile (isSafeStringCharacter mode quote) =
            backslash :: (escape ++ ptr) := by
          rw [← htail]
          exact eq_cons_of_mem_head? hescape.2
        rw [hdrop] at htext
        split at h
        · obtain ⟨raw, value, rfl, hchars⟩ := ih h
          exact ⟨_, _, htext.symm.trans (by simp), .of_plain hrun (.escape hescape.1 hesc hchars)⟩
        · simp only [Option.some.injEq, Prod.mk.injEq] at h
          rw [h.2.2] at htext
          exact ⟨_, _, htext.symm.trans (by simp), .of_plain hrun (.escape hescape.1 hesc .nil)⟩
      · cases hafter
        split at h
        · obtain ⟨raw, value, hraw, hchars⟩ := ih h
          rw [hraw] at htext
          exact ⟨_, _, htext.symm.trans (by simp), .of_plain hrun hchars⟩
        · simp only [Option.some.injEq, Prod.mk.injEq] at h
          rw [h.2.2] at htext
          exact ⟨_, _, htext.symm.trans (by simp), .of_plain hrun .nil⟩

section

variable {Number : Type*}
variable {rest digits word white : List UChar} {token : Token Number}

theorem lexCharacters_of_characters (h : StringCharacters mode quote text value) :
    (lexCharacters mode quote (text ++ quote :: rest) : Token Number × List UChar) =
      (.string (stored value), rest) := by
  obtain ⟨builder, runStart, hloop, -, hnil⟩ := lexStringLoop_of_characters hquote
    (show text.length < (text ++ quote :: rest).length + 1 by rw [length_append]; omega) h [] rest
  rw [lexCharacters, hloop]
  dsimp only
  rw [if_pos rfl]
  rcases hnil rfl with ⟨rfl, hne⟩ | ⟨rfl, rfl, rfl⟩
  · rw [if_neg (by simpa using hne)]
  · simp

/-- A string that the lexer reads is spelled in the text. -/
theorem literal_of_lexCharacters (h : lexCharacters mode quote text = (token, rest)) :
    token = .error ∧ rest = [] ∨ ∃ raw value, StringCharacters mode quote raw value ∧
      text = raw ++ quote :: rest ∧ token = .string (stored value) := by
  have hread := h
  rw [lexCharacters] at h
  split at h
  · rename_i hloop
    split at h
    · rename_i hc
      subst hc
      obtain ⟨raw, value, rfl, hchars⟩ := characters_of_lexStringLoop hquote hloop
      rw [lexCharacters_of_characters hquote hchars] at hread
      cases hread
      exact .inr ⟨raw, value, hchars, rfl, rfl⟩
    · cases h
      exact .inl ⟨rfl, rfl⟩
  · cases h
    exact .inl ⟨rfl, rfl⟩

omit hquote

/-! ## Numbers -/

theorem ne_of_isASCIIDigit (hc : isASCIIDigit c) (hd : isASCIIDigit d = false) :
    c ≠ d := by
  rintro rfl
  rw [hc] at hd
  cases hd

theorem IsInt.isDigits (h : IsInt digits) : IsDigits digits := by
  rcases h with rfl | h
  · exact ⟨cons_ne_nil _ _, fun c hc => by
      cases mem_singleton.mp hc
      decide⟩
  · exact h.1

theorem IsDigits.head (h : IsDigits digits) :
    ∃ d ds, digits = d :: ds ∧ isASCIIDigit d ∧ ∀ c ∈ ds, isASCIIDigit c := by
  obtain ⟨d, ds, rfl⟩ := exists_cons_of_ne_nil h.1
  exact ⟨d, ds, rfl, h.2 d mem_cons_self, fun c hc => h.2 c (mem_cons_of_mem _ hc)⟩

/-- No digit is at the front. -/
def NoDigit (rest : List UChar) : Prop := ∀ c ∈ rest.head?, ¬isASCIIDigit c

theorem dropWhile_digits (h : ∀ c ∈ digits, isASCIIDigit c) (hrest : NoDigit rest) :
    (digits ++ rest).dropWhile isASCIIDigit = rest := by
  rw [dropWhile_append_of_pos h]
  cases rest with
  | nil => rfl
  | cons c rest => exact dropWhile_cons_of_neg (hrest c rfl)

theorem noDigit_dropWhile (text : List UChar) : NoDigit (text.dropWhile isASCIIDigit) := by
  intro c hc
  have hnot := List.head?_dropWhile_not isASCIIDigit text
  rw [Option.mem_def.mp hc] at hnot
  simpa using hnot

theorem lexDigitRun_of_isDigits (h : IsDigits digits) (hrest : NoDigit rest) :
    lexDigitRun (digits ++ rest) = some rest := by
  obtain ⟨d, ds, rfl, hd, hds⟩ := h.head
  rw [cons_append, lexDigitRun, if_pos hd, dropWhile_digits hds hrest]

theorem isDigits_of_lexDigitRun (h : lexDigitRun text = some rest) :
    ∃ digits, IsDigits digits ∧ text = digits ++ rest ∧ NoDigit rest := by
  cases text with
  | nil => cases h
  | cons c text =>
    rw [lexDigitRun] at h
    split at h
    · rename_i hc
      cases h
      refine ⟨c :: text.takeWhile isASCIIDigit, ⟨cons_ne_nil _ _, fun d hd => ?_⟩, ?_,
        noDigit_dropWhile text⟩
      · rcases mem_cons.mp hd with rfl | hd
        · exact hc
        · exact mem_takeWhile_imp hd
      · rw [cons_append, takeWhile_append_dropWhile]
    · cases h

theorem lexDigits_of_isInt (h : IsInt digits) (hrest : digits = [ch '0'] ∨ NoDigit rest) :
    lexDigits (digits ++ rest) = some rest := by
  by_cases hzero : digits = [ch '0']
  · rw [hzero]
    rfl
  · obtain ⟨hdigits, hhead⟩ := h.resolve_left hzero
    obtain ⟨d, ds, rfl, hd, hds⟩ := hdigits.head
    rw [cons_append, lexDigits, if_neg fun hc => hhead (congrArg some hc), if_pos hd,
      dropWhile_digits hds (hrest.resolve_left hzero)]

theorem isInt_of_lexDigits (h : lexDigits text = some rest) :
    ∃ digits, IsInt digits ∧ text = digits ++ rest ∧ (digits = [ch '0'] ∨ NoDigit rest) := by
  cases text with
  | nil => cases h
  | cons c text =>
    rw [lexDigits] at h
    split at h
    · rename_i hc
      cases h
      exact ⟨[ch '0'], .inl rfl, by rw [hc]; rfl, .inl rfl⟩
    · rename_i hc
      have hrun : lexDigitRun (c :: text) = some rest := h
      obtain ⟨digits, hdigits, heq, hrest⟩ := isDigits_of_lexDigitRun hrun
      refine ⟨digits, .inr ⟨hdigits, fun hhead => hc ?_⟩, heq, .inr hrest⟩
      obtain ⟨d, ds, rfl, -⟩ := hdigits.head
      cases heq
      exact Option.some_inj.mp hhead

theorem skipSign_toList {sign : Option UChar} (hsign : ∀ c ∈ sign, c = ch '-' ∨ c = ch '+')
    (h : IsDigits digits) : skipSign (sign.toList ++ (digits ++ rest)) = digits ++ rest := by
  cases sign with
  | some c =>
    change skipSign (c :: (digits ++ rest)) = _
    rw [skipSign, if_pos (hsign c rfl)]
  | none =>
    obtain ⟨d, ds, rfl, hd, -⟩ := h.head
    change skipSign (d :: (ds ++ rest)) = _
    rw [skipSign, if_neg]
    · rfl
    · rintro (rfl | rfl)
      all_goals exact absurd hd (by decide)

theorem sign_of_skipSign (text : List UChar) : ∃ sign : Option UChar,
    (∀ c ∈ sign, c = ch '-' ∨ c = ch '+') ∧ text = sign.toList ++ skipSign text := by
  cases text with
  | nil => exact ⟨none, by simp, rfl⟩
  | cons c text =>
    rw [skipSign]
    split
    · rename_i hc
      exact ⟨some c, fun d hd => by cases hd; exact hc, rfl⟩
    · exact ⟨none, by simp, rfl⟩

namespace NumberLiteral

/-- Nothing after the literal goes on with it. -/
structure Stops (l : NumberLiteral) (rest : List UChar) : Prop where
  noExponent : ∀ c ∈ rest.head?, l.exponent = none → c ≠ ch 'e' ∧ c ≠ ch 'E'
  noFraction : ∀ c ∈ rest.head?, l.exponent = none → l.fraction = none → c ≠ ch '.'
  noDigit : (l.int = [ch '0'] ∧ l.fraction = none ∧ l.exponent = none) ∨ NoDigit rest

theorem noDigit_exponentText {l : NumberLiteral} (hrest : NoDigit rest) :
    NoDigit (exponentText l.exponent ++ rest) := by
  intro c hc
  cases he : l.exponent with
  | none =>
    rw [he] at hc
    exact hrest c hc
  | some e =>
    obtain ⟨letter, sign, digits⟩ := e
    rw [he] at hc
    obtain rfl : letter = c := Option.some_inj.mp hc
    rcases (l.isExponent _ (Option.mem_def.mpr he)).1 with hletter | hletter <;>
    · rw [show letter = _ from hletter]
      decide

theorem lexExponent_text {l : NumberLiteral}
    (hexp : ∀ c ∈ rest.head?, l.exponent = none → c ≠ ch 'e' ∧ c ≠ ch 'E')
    (hrest : l.exponent = none ∨ NoDigit rest) :
    lexExponent (exponentText l.exponent ++ rest) = some rest := by
  cases he : l.exponent with
  | none =>
    cases rest with
    | nil => rfl
    | cons c rest =>
      obtain ⟨h1, h2⟩ := hexp c rfl he
      change lexExponent (c :: rest) = _
      rw [lexExponent, if_neg (not_or.mpr ⟨h1, h2⟩)]
  | some e =>
    obtain ⟨letter, sign, digits⟩ := e
    obtain ⟨hletter, hsign, hdigits⟩ := l.isExponent _ (Option.mem_def.mpr he)
    have hrest' : NoDigit rest := hrest.resolve_left (by simp [he])
    change lexExponent (letter :: (sign.toList ++ digits ++ rest)) = _
    rw [lexExponent, if_pos hletter, append_assoc, skipSign_toList hsign hdigits,
      lexDigitRun_of_isDigits hdigits hrest']

/-! ### The value of a short integer -/

theorem digitsValue_nonneg (digits : List UChar) (h : ∀ c ∈ digits, isASCIIDigit c) (start : ℕ) :
    digits.foldl (fun result digit => result * 10 + (digit.toNat : ℤ) - (ch '0').toNat) (start : ℤ) =
      ((digits.foldl (fun value digit => value * 10 + (digit.toNat - (ch '0').toNat)) start : ℕ) :
        ℤ) := by
  induction digits generalizing start with
  | nil => rfl
  | cons d ds ih =>
    have hd := h d mem_cons_self
    rw [isASCIIDigit, Bool.and_eq_true] at hd
    have hle : (ch '0').toNat ≤ d.toNat := le_iff_toNat_le.mp (of_decide_eq_true hd.1)
    rw [foldl_cons, foldl_cons, ← ih fun c hc => h c (mem_cons_of_mem _ hc)]
    congr 1
    omega

theorem intValue_eq (h : ∀ c ∈ digits, isASCIIDigit c) : intValue digits = digitsValue digits :=
  digitsValue_nonneg digits h 0

theorem digitsValue_pos (digits : List UChar) (h : 0 < start) :
    0 < digits.foldl (fun value digit => value * 10 + (digit.toNat - (ch '0').toNat)) start := by
  induction digits generalizing start with
  | nil => exact h
  | cons d ds ih =>
    rw [foldl_cons]
    exact ih (by omega)

/-- Of the integers only `0` has the value zero. -/
theorem digitsValue_eq_zero_iff (h : IsInt digits) :
    digitsValue digits = 0 ↔ digits = [ch '0'] := by
  constructor
  · intro hzero
    by_contra hne
    obtain ⟨hdigits, hhead⟩ := h.resolve_left hne
    obtain ⟨d, ds, rfl, hd, -⟩ := hdigits.head
    rw [isASCIIDigit, Bool.and_eq_true] at hd
    have hle : (ch '0').toNat ≤ d.toNat := le_iff_toNat_le.mp (of_decide_eq_true hd.1)
    have hd0 : d.toNat ≠ (ch '0').toNat := fun heq =>
      hhead (congrArg some (UInt16.toNat_inj.mp heq))
    have hpos := digitsValue_pos ds (show 0 < 0 * 10 + (d.toNat - (ch '0').toNat) by omega)
    rw [digitsValue, foldl_cons] at hzero
    omega
  · rintro rfl
    rfl

end NumberLiteral

/-- What is read of a number with some text after it: the integer `-0` is the number `0`, unless the
text ends with it. -/
def Numbers.readNumber (numbers : Numbers Number) (rest : List UChar) (l : NumberLiteral) : Number :=
  if l.text = [ch '-', ch '0'] ∧ rest ≠ [] then numbers.round false 0
  else numbers.round l.negative l.magnitude

namespace NumberLiteral

variable (numbers : Numbers Number) {l : NumberLiteral} {rest : List UChar}

section

variable (hf : l.fraction = none) (he : l.exponent = none)
include he hf

theorem magnitude_int : l.magnitude = digitsValue l.int := by
  rw [magnitude, hf, he]
  simp [exponentValue]

theorem text_int : l.text = l.signText ++ l.int := by
  rw [text, hf, he]
  simp [fractionText, exponentText]

theorem ofInt_text (hrest : rest ≠ []) :
    numbers.ofInt (intOfToken l.text) = numbers.readNumber rest l := by
  have hvalue := intValue_eq l.isInt.isDigits.2
  obtain ⟨d, ds, hint, hd, -⟩ := l.isInt.isDigits.head
  have hminus : d ≠ ch '-' := ne_of_isASCIIDigit hd (by decide)
  rw [Numbers.readNumber, numbers.ofInt_eq, text_int hf he, magnitude_int hf he, signText]
  cases hneg : l.negative with
  | false =>
    have htoken : intOfToken ([] ++ l.int) = digitsValue l.int := by
      rw [nil_append, ← hvalue, hint, intOfToken, if_neg hminus]
    have hne : ¬(([] ++ l.int = [ch '-', ch '0']) ∧ rest ≠ []) := by
      rintro ⟨heq, -⟩
      rw [hint] at heq
      cases heq
      exact hminus rfl
    have hnonneg : ¬(digitsValue l.int : ℤ) < 0 := by omega
    rw [if_neg Bool.false_ne_true, htoken, if_neg hne, decide_eq_false hnonneg]
    simp
  | true =>
    have htoken : intOfToken ([ch '-'] ++ l.int) = -digitsValue l.int := by
      rw [singleton_append, intOfToken, if_pos rfl]
      omega
    have hiff : [ch '-'] ++ l.int = [ch '-', ch '0'] ↔ digitsValue l.int = 0 := by
      rw [digitsValue_eq_zero_iff l.isInt]
      simp
    rw [if_pos rfl, htoken]
    by_cases hzero : digitsValue l.int = 0
    · rw [if_pos ⟨hiff.mpr hzero, hrest⟩, hzero]
      simp
    · rw [if_neg fun hc => hzero (hiff.mp hc.1)]
      congr 1
      · exact decide_eq_true (by omega)
      · simp

end

theorem length_text : l.text.length = l.signText.length + (l.int.length +
    ((fractionText l.fraction).length + (exponentText l.exponent).length)) := by
  rw [text, length_append, length_append, length_append]

/-- The token of the characters of a literal. -/
theorem numberToken_text : numberToken numbers.toNumberOperations (l.text ++ rest) rest =
    .number (numbers.round l.negative l.magnitude) := by
  rw [numberToken, length_append, Nat.add_sub_cancel, take_left, numbers.strtod_text]

theorem readNumber_of_ne (h : l.text ≠ [ch '-', ch '0'] ∨ rest = []) :
    numbers.readNumber rest l = numbers.round l.negative l.magnitude := by
  rw [Numbers.readNumber, if_neg]
  rintro ⟨h1, h2⟩
  exact h.elim (fun h => h h1) h2

theorem fraction_of_isNegativeZero (h : l.text = [ch '-', ch '0']) :
    l.fraction = none ∧ l.exponent = none := by
  obtain ⟨d, ds, hint, hd, -⟩ := l.isInt.isDigits.head
  have hlen := congrArg List.length h
  have hneg : l.signText = [ch '-'] := by
    rw [signText]
    cases hneg : l.negative with
    | true => rfl
    | false =>
      rw [text, signText, hneg, hint] at h
      have hhead := (List.cons.inj h).1
      rw [hhead] at hd
      exact absurd hd (by decide)
  rw [length_text, hneg, hint] at hlen
  constructor
  · cases hf : l.fraction with
    | none => rfl
    | some digits =>
      rw [hf] at hlen
      simp only [fractionText, length_cons] at hlen
      omega
  · cases he : l.exponent with
    | none => rfl
    | some e =>
      rw [he] at hlen
      simp only [exponentText, length_cons] at hlen
      omega

theorem lexNumberEnd_text (hexp : ∀ c ∈ rest.head?, l.exponent = none → c ≠ ch 'e' ∧ c ≠ ch 'E')
    (hrest : l.exponent = none ∨ NoDigit rest) :
    lexNumberEnd numbers.toNumberOperations (l.text ++ rest) (exponentText l.exponent ++ rest) =
      (.number (numbers.round l.negative l.magnitude), rest) := by
  rw [lexNumberEnd, lexExponent_text hexp hrest]
  dsimp only
  rw [numberToken_text]

theorem lexDigits_text (hrest : l.int = [ch '0'] ∨
    NoDigit (fractionText l.fraction ++ (exponentText l.exponent ++ rest))) :
    lexDigits (if (l.text ++ rest).head? = some (ch '-') then (l.text ++ rest).tail
      else l.text ++ rest) =
        some (fractionText l.fraction ++ (exponentText l.exponent ++ rest)) := by
  obtain ⟨d, ds, hint, hd, -⟩ := l.isInt.isDigits.head
  have hminus : d ≠ ch '-' := ne_of_isASCIIDigit hd (by decide)
  have hread := lexDigits_of_isInt l.isInt hrest
  rw [text, signText]
  simp only [append_assoc]
  cases l.negative with
  | true => exact hread
  | false =>
    rw [if_neg]
    · exact hread
    · rw [hint]
      exact fun hc => hminus (Option.some_inj.mp hc)

/-- A number that is spelled in the text is read, up to the sign of `-0`. -/
theorem lexInt_of_stops (h : l.Stops rest) :
    lexInt numbers.toNumberOperations (l.text ++ rest) =
      (.number (numbers.readNumber rest l), rest) := by
  have hexponent : l.exponent = none ∨ NoDigit rest := h.noDigit.imp (fun hc => hc.2.2) id
  cases hf : l.fraction with
  | some digits =>
    have hnoDigit : NoDigit rest := h.noDigit.resolve_left fun hc => by simp [hf] at hc
    have hdigits := l.isDigits_fraction digits (Option.mem_def.mpr hf)
    have hdot : NoDigit (fractionText l.fraction ++ (exponentText l.exponent ++ rest)) := by
      rw [hf]
      intro c hc
      obtain rfl := Option.some_inj.mp hc
      decide
    rw [lexInt, lexDigits_text (.inr hdot), hf]
    dsimp only [fractionText, cons_append]
    rw [lexFraction, if_pos rfl, lexDigitRun_of_isDigits hdigits (noDigit_exponentText hnoDigit)]
    dsimp only
    rw [lexNumberEnd_text numbers h.noExponent hexponent, readNumber_of_ne]
    exact .inl fun hc => by simp [(fraction_of_isNegativeZero hc).1] at hf
  | none =>
    have hstop : l.int = [ch '0'] ∨
        NoDigit (fractionText l.fraction ++ (exponentText l.exponent ++ rest)) := by
      rw [hf]
      exact h.noDigit.imp And.left noDigit_exponentText
    have hread := lexNumberEnd_text numbers h.noExponent hexponent
    rw [lexInt, lexDigits_text hstop, hf]
    dsimp only [fractionText, nil_append]
    cases he : l.exponent with
    | some e =>
      obtain ⟨letter, sign, digits⟩ := e
      have hletter := (l.isExponent _ (Option.mem_def.mpr he)).1
      rw [he] at hread
      dsimp only [exponentText, cons_append] at hread ⊢
      have hdot : letter ≠ ch '.' := by
        rcases hletter with hc | hc <;>
        · rw [show letter = _ from hc]
          decide
      rw [lexFraction, if_neg hdot, if_neg fun hc => hletter.elim hc.1 hc.2.1, hread, readNumber_of_ne]
      exact .inl fun hc => by simp [(fraction_of_isNegativeZero hc).2] at he
    | none =>
      rw [he] at hread
      cases rest with
      | nil =>
        exact hread.trans (by rw [readNumber_of_ne numbers (.inr rfl)])
      | cons c rest =>
        obtain ⟨h1, h2⟩ := h.noExponent c rfl he
        dsimp only [exponentText, nil_append]
        rw [lexFraction, if_neg (h.noFraction c rfl he hf)]
        have htake : (l.text ++ c :: rest).length - (rest.length + 1) = l.text.length := by
          rw [length_append, length_cons]
          omega
        rw [htake, take_left]
        by_cases hshort : l.text.length < 10
        · rw [if_pos ⟨h1, h2, hshort⟩, ofInt_text numbers hf he (cons_ne_nil _ _)]
        · rw [if_neg fun hc => hshort hc.2.2]
          refine hread.trans ?_
          rw [readNumber_of_ne]
          exact .inl fun hc => hshort (by rw [hc]; decide)

/-- An exponent, or none, with what does not go on with it. -/
theorem exponent_of_lexExponent (h : lexExponent ptr = some rest) :
    ∃ exponent : Option (UChar × Option UChar × List UChar),
      (∀ e ∈ exponent, (e.1 = ch 'e' ∨ e.1 = ch 'E') ∧
        (∀ sign ∈ e.2.1, sign = ch '-' ∨ sign = ch '+') ∧ IsDigits e.2.2) ∧
      ptr = exponentText exponent ++ rest ∧
      (∀ c ∈ rest.head?, exponent = none → c ≠ ch 'e' ∧ c ≠ ch 'E') ∧
      (exponent = none ∨ NoDigit rest) := by
  cases ptr with
  | nil =>
    cases h
    exact ⟨none, by simp, rfl, by simp, .inl rfl⟩
  | cons c ptr =>
    rw [lexExponent] at h
    split at h
    · rename_i hletter
      obtain ⟨digits, hdigits, heq, hrest⟩ := isDigits_of_lexDigitRun h
      obtain ⟨sign, hsign, hptr⟩ := sign_of_skipSign ptr
      refine ⟨some (c, sign, digits), fun e he => ?_, ?_, by simp, .inr hrest⟩
      · cases he
        exact ⟨hletter, hsign, hdigits⟩
      · rw [hptr, heq]
        simp [exponentText]
    · rename_i hletter
      cases h
      exact ⟨none, by simp, rfl, fun d hd _ => by
        cases hd
        exact not_or.mp hletter, .inl rfl⟩

/-- A number that the lexer reads is spelled in the text. -/
theorem stops_of_lexInt
    (h : lexInt numbers.toNumberOperations text = (token, rest)) :
    token = .error ∧ rest = [] ∨ ∃ l : NumberLiteral, text = l.text ++ rest ∧ l.Stops rest := by
  rw [lexInt] at h
  split at h
  · cases h
    exact .inl ⟨rfl, rfl⟩
  · rename_i ptr hlex
    obtain ⟨int, hint, heq, hptr⟩ := isInt_of_lexDigits hlex
    obtain ⟨negative, htext⟩ : ∃ negative : Bool,
        text = (if negative then [ch '-'] else []) ++ (int ++ ptr) := by
      rw [← heq]
      split
      · rename_i hminus
        exact ⟨true, eq_cons_of_mem_head? hminus⟩
      · exact ⟨false, rfl⟩
    have hliteral : ∀ fraction exponent (hf : ∀ digits ∈ fraction, IsDigits digits)
        (he : ∀ e ∈ exponent, (e.1 = ch 'e' ∨ e.1 = ch 'E') ∧
          (∀ sign ∈ e.2.1, sign = ch '-' ∨ sign = ch '+') ∧ IsDigits e.2.2) (rest' : List UChar),
        ptr = fractionText fraction ++ (exponentText exponent ++ rest') →
        text = (NumberLiteral.mk negative int fraction exponent hint hf he).text ++ rest' := by
      rintro fraction exponent hf he rest' rfl
      rw [htext, NumberLiteral.text, signText]
      simp
    have hend : ∀ fraction (hf : ∀ digits ∈ fraction, IsDigits digits) (ptr' : List UChar),
        ptr = fractionText fraction ++ ptr' →
        (fraction = none → ∀ c ∈ ptr'.head?, c ≠ ch '.') →
        (int = [ch '0'] ∧ fraction = none ∨ NoDigit ptr') →
        lexNumberEnd numbers.toNumberOperations text ptr' = (token, rest) →
        token = .error ∧ rest = [] ∨ ∃ l : NumberLiteral, text = l.text ++ rest ∧ l.Stops rest := by
      intro fraction hf ptr' heq' hdot hdigit h
      rw [lexNumberEnd] at h
      split at h
      · cases h
        exact .inl ⟨rfl, rfl⟩
      · rename_i rest' hexponent
        cases h
        obtain ⟨exponent, he, rfl, hletter, hnoDigit⟩ := exponent_of_lexExponent hexponent
        refine .inr ⟨_, hliteral fraction exponent hf he rest heq', hletter, ?_, ?_⟩
        · rintro c hc rfl hnone
          exact hdot hnone c hc
        · rcases hnoDigit with rfl | hnoDigit
          · exact hdigit.imp (fun hc => ⟨hc.1, hc.2, rfl⟩) id
          · exact .inr hnoDigit
    unfold lexFraction at h
    split at h
    · exact hend none (by simp) [] rfl (by simp) (.inr (by simp [NoDigit])) h
    · rename_i c rest'
      split at h
      · rename_i hdot
        split at h
        · cases h
          exact .inl ⟨rfl, rfl⟩
        · rename_i ptr' hrun
          obtain ⟨digits, hdigits, heq', hnoDigit⟩ := isDigits_of_lexDigitRun hrun
          refine hend (some digits) (fun ds hds => ?_) ptr' ?_ (by simp) (.inr hnoDigit) h
          · cases hds
            exact hdigits
          · rw [hdot, heq']
            rfl
      · rename_i hdot
        have hhead : ∀ d ∈ (c :: rest').head?, d ≠ ch '.' := by
          intro d hd
          cases hd
          exact hdot
        split at h
        · rename_i hshort
          cases h
          refine .inr ⟨_, hliteral none none (by simp) (by simp) _ rfl, ?_, ?_, ?_⟩
          · intro d hd _
            cases hd
            exact ⟨hshort.1, hshort.2.1⟩
          · exact fun d hd _ _ => hhead d hd
          · exact hptr.imp (fun hc => ⟨hc, rfl, rfl⟩) id
        · exact hend none (by simp) _ rfl (fun _ => hhead) (hptr.imp (fun hc => ⟨hc, rfl⟩) id) h

end NumberLiteral

/-! ## Tokens -/

/-- The tokens of one character. -/
def singleCharacter : Token Number → Option UChar
  | .lBracket => some (ch '[')
  | .rBracket => some (ch ']')
  | .lBrace => some (ch '{')
  | .rBrace => some (ch '}')
  | .colon => some (ch ':')
  | .lParen => some (ch '(')
  | .rParen => some (ch ')')
  | .comma => some (ch ',')
  | .dot => some (ch '.')
  | .assign => some (ch '=')
  | .semi => some (ch ';')
  | _ => none

/-- The type that is returned with a token. -/
def returnedType (token : Token Number) : TokenType :=
  if token.type = .semi then .assign else token.type

/-- A token at the front of a text, with what is left of the text. -/
inductive Lexes (numbers : Numbers Number) (mode : ParserMode) :
    List UChar → Token Number → List UChar → Prop
  | single {token : Token Number} {c : UChar} (h : singleCharacter token = some c)
      (rest : List UChar) : Lexes numbers mode (c :: rest) token rest
  | string {text : List UChar} {value : UString} (h : StringLiteral numbers.fits mode text value)
      (rest : List UChar) : Lexes numbers mode (text ++ rest) (.string (stored value)) rest
  | true (rest : List UChar) : Lexes numbers mode (trueWord ++ rest) .true rest
  | false (rest : List UChar) : Lexes numbers mode (falseWord ++ rest) .false rest
  | null (rest : List UChar) : Lexes numbers mode (nullWord ++ rest) .null rest
  | number {l : NumberLiteral} {rest : List UChar} (h : l.Stops rest)
      (hfits : numbers.fits l.text = true) :
      Lexes numbers mode (l.text ++ rest) (.number (numbers.readNumber rest l)) rest
  | identifier {name rest : List UChar} (h : IsIdentifier name)
      (hrest : ∀ c ∈ rest.head?, ¬isIdentifierPart c) :
      Lexes numbers mode (name ++ rest) (.identifier name) rest
  | error (text : List UChar) : Lexes numbers mode text .error []

variable (numbers : Numbers Number)

theorem singleCharacter_of_punctuator (h : punctuator c = some token) :
    singleCharacter token = some c ∧ returnedType token = token.type := by
  unfold punctuator at h
  split_ifs at h with h1 h2 h3 h4 h5 h6 h7 h8
  all_goals
    obtain rfl := Option.some_inj.mp h
    subst c
    exact ⟨rfl, rfl⟩

theorem isIdentifierPart_of_start (h : isIdentifierStart c) : isIdentifierPart c := by
  rw [isIdentifierStart] at h
  rw [isIdentifierPart, isASCIIAlphanumeric]
  simp only [Bool.or_eq_true] at h ⊢
  tauto

theorem not_prefix_takeWhile (h : ¬word.isPrefixOf text = true) :
    ¬word <+: text.takeWhile isIdentifierPart :=
  fun hword => h (List.isPrefixOf_iff_prefix.mpr (hword.trans (List.takeWhile_prefix _)))

/-- A token found in a text, with the type that is returned. -/
def Finds (mode : ParserMode) (text : List UChar) (lexed : Lexed Number) : Prop :=
  Lexes numbers mode text lexed.token lexed.rest ∧ lexed.returned = returnedType lexed.token

/-- A literal with a text behind it is read when there is room for it. -/
theorem within_of_fits {literal : List UChar} (hfits : numbers.fits literal = true) :
    within numbers.toNumberOperations (literal ++ rest) (token, rest) = (token, rest) := by
  rw [within, length_append, Nat.add_sub_cancel, take_left, if_pos hfits]

/-- A literal for which there is no room is an error. -/
theorem within_cases (literal : List UChar) (token : Token Number) (rest : List UChar) :
    within numbers.toNumberOperations (literal ++ rest) (token, rest) = (.error, []) ∨
      numbers.fits literal = true ∧
        within numbers.toNumberOperations (literal ++ rest) (token, rest) = (token, rest) := by
  by_cases hfits : numbers.fits literal = true
  · exact .inr ⟨hfits, within_of_fits numbers hfits⟩
  · rw [within, length_append, Nat.add_sub_cancel, take_left, if_neg hfits]
    exact .inl rfl

theorem within_error (text : List UChar) :
    within numbers.toNumberOperations text (.error, []) = (.error, []) := by
  rw [within]
  split <;> rfl

theorem lexString_of_characters (hquote : IsQuote mode quote)
    (h : StringCharacters mode quote text value)
    (hfits : numbers.fits (quote :: (text ++ [quote])) = true) :
    lexString numbers.toNumberOperations mode quote (text ++ quote :: rest) =
      (.string (stored value), rest) := by
  rw [lexString, lexCharacters_of_characters hquote h]
  have hsplit : quote :: (text ++ quote :: rest) = quote :: (text ++ [quote]) ++ rest := by simp
  rw [hsplit]
  exact within_of_fits numbers hfits

theorem lexNumber_of_stops {l : NumberLiteral} (h : l.Stops rest)
    (hfits : numbers.fits l.text = true) :
    lexNumber numbers.toNumberOperations (l.text ++ rest) =
      (.number (numbers.readNumber rest l), rest) := by
  rw [lexNumber, lexInt_of_stops numbers h]
  exact within_of_fits numbers hfits

theorem finds_lexString (hquote : IsQuote mode quote) (rest : List UChar) :
    Finds numbers mode (quote :: rest)
      (.ofToken (lexString numbers.toNumberOperations mode quote rest)) := by
  rw [lexString]
  cases hread : (lexCharacters mode quote rest : Token Number × List UChar) with
  | mk token left =>
    rcases literal_of_lexCharacters hquote hread with ⟨rfl, rfl⟩ | ⟨raw, value, hchars, rfl, rfl⟩
    · rw [within_error]
      exact ⟨.error _, rfl⟩
    · have hsplit : quote :: (raw ++ quote :: left) = quote :: (raw ++ [quote]) ++ left := by simp
      rw [hsplit]
      rcases within_cases numbers (quote :: (raw ++ [quote])) (.string (stored value)) left with
        hwithin | ⟨hfits, hwithin⟩
      · rw [hwithin]
        exact ⟨.error _, rfl⟩
      · rw [hwithin]
        exact ⟨.string (.quoted hquote hchars hfits) left, rfl⟩

theorem finds_lexNumber (text : List UChar) :
    Finds numbers mode text (.ofToken (lexNumber numbers.toNumberOperations text)) := by
  rw [lexNumber]
  cases hread : lexInt numbers.toNumberOperations text with
  | mk token left =>
    rcases stops_of_lexInt numbers hread with ⟨rfl, rfl⟩ | ⟨l, rfl, hstops⟩
    · rw [within_error]
      exact ⟨.error _, rfl⟩
    · rw [lexInt_of_stops numbers hstops] at hread
      cases hread
      rcases within_cases numbers l.text (.number (numbers.readNumber left l)) left with
        hwithin | ⟨hfits, hwithin⟩
      · rw [hwithin]
        exact ⟨.error _, rfl⟩
      · rw [hwithin]
        exact ⟨.number hstops hfits, rfl⟩

theorem finds_lexIdentifier (hstart : isIdentifierStart c)
    (htrue : ¬trueWord.isPrefixOf (c :: rest) = true)
    (hfalse : ¬falseWord.isPrefixOf (c :: rest) = true)
    (hnull : ¬nullWord.isPrefixOf (c :: rest) = true) :
    Finds numbers mode (c :: rest) (.ofToken (lexIdentifier (c :: rest))) := by
  have hpart := isIdentifierPart_of_start hstart
  have hname : IsIdentifier ((c :: rest).takeWhile isIdentifierPart) :=
    ⟨⟨c, _, takeWhile_cons_of_pos hpart, hstart⟩, fun d hd => mem_takeWhile_imp hd,
      not_prefix_takeWhile htrue, not_prefix_takeWhile hfalse, not_prefix_takeWhile hnull⟩
  have hrest : ∀ d ∈ ((c :: rest).dropWhile isIdentifierPart).head?, ¬isIdentifierPart d := by
    intro d hd
    have hnot := List.head?_dropWhile_not isIdentifierPart (c :: rest)
    rw [Option.mem_def.mp hd] at hnot
    simpa using hnot
  have hlexes : Lexes numbers mode _ _ _ := .identifier hname hrest
  rw [takeWhile_append_dropWhile] at hlexes
  exact ⟨hlexes, rfl⟩

theorem finds_lexOther (htrue : ¬trueWord.isPrefixOf (c :: rest) = true)
    (hfalse : ¬falseWord.isPrefixOf (c :: rest) = true)
    (hnull : ¬nullWord.isPrefixOf (c :: rest) = true) :
    Finds numbers mode (c :: rest) (lexOther numbers.toNumberOperations mode c rest) := by
  rw [lexOther]
  split_ifs with h1 h2 h3 h4 h5
  · subst h1
    exact ⟨.single rfl rest, rfl⟩
  · subst h2
    exact ⟨.single rfl rest, rfl⟩
  · subst h3
    exact ⟨.single rfl rest, rfl⟩
  · exact finds_lexIdentifier numbers h4 htrue hfalse hnull
  · rw [h5.1]
    exact finds_lexString numbers (.inr ⟨rfl, h5.2⟩) rest
  · exact ⟨.error _, rfl⟩

theorem eq_append_of_isPrefixOf (h : word.isPrefixOf text = true) :
    text = word ++ text.drop word.length := by
  obtain ⟨tail, rfl⟩ := isPrefixOf_iff_prefix.mp h
  rw [drop_left]

/-- What the lexer finds is spelled in the text. -/
theorem finds_lexToken (mode : ParserMode) (c : UChar) (rest : List UChar) :
    Finds numbers mode (c :: rest) (lexToken numbers.toNumberOperations mode c rest) := by
  rw [lexToken]
  split
  · rename_i token hpunctuator
    obtain ⟨hsingle, hreturned⟩ := singleCharacter_of_punctuator hpunctuator
    exact ⟨.single hsingle rest, hreturned.symm⟩
  · split_ifs with hquote htrue hfalse hnull hnumber
    · rw [hquote]
      exact finds_lexString numbers (.inl rfl) rest
    · refine ⟨?_, rfl⟩
      rw [eq_append_of_isPrefixOf htrue]
      exact .true _
    · refine ⟨?_, rfl⟩
      rw [eq_append_of_isPrefixOf hfalse]
      exact .false _
    · refine ⟨?_, rfl⟩
      rw [eq_append_of_isPrefixOf hnull]
      exact .null _
    · exact finds_lexNumber numbers _
    · exact finds_lexOther numbers htrue hfalse hnull

/-! ### Tokens that are spelled are found -/

theorem lexToken_of_single (h : singleCharacter token = some c) (rest : List UChar) :
    lexToken numbers.toNumberOperations mode c rest =
      ⟨token, returnedType token, rest⟩ ∧ isJSONWhiteSpace c = false := by
  cases token <;> cases h <;> exact ⟨rfl, rfl⟩

theorem isASCIIDigit_range (h : isASCIIDigit c) :
    c ∈ ['0', '1', '2', '3', '4', '5', '6', '7', '8', '9'].map ch := by
  rw [isASCIIDigit, Bool.and_eq_true] at h
  have hlow : 48 ≤ c.toNat := UInt16.le_iff_toNat_le.mp (of_decide_eq_true h.1)
  have hhigh : c.toNat ≤ 57 := UInt16.le_iff_toNat_le.mp (of_decide_eq_true h.2)
  have hall : ∀ n < 58, 48 ≤ n →
      UInt16.ofNat n ∈ ['0', '1', '2', '3', '4', '5', '6', '7', '8', '9'].map ch := by
    decide
  have hmem := hall c.toNat (by omega) hlow
  rwa [UInt16.ofNat_toNat] at hmem

theorem lexToken_of_digit (h : isASCIIDigit c ∨ c = ch '-') (rest : List UChar) :
    lexToken numbers.toNumberOperations mode c rest =
        .ofToken (lexNumber numbers.toNumberOperations (c :: rest)) ∧
      isJSONWhiteSpace c = false := by
  have hmem : c ∈ ['-', '0', '1', '2', '3', '4', '5', '6', '7', '8', '9'].map ch := by
    rcases h with h | rfl
    · exact mem_cons_of_mem _ (isASCIIDigit_range h)
    · exact mem_cons_self
  simp only [map_cons, map_nil, mem_cons, not_mem_nil, or_false] at hmem
  rcases hmem with rfl | rfl | rfl | rfl | rfl | rfl | rfl | rfl | rfl | rfl | rfl <;>
    exact ⟨rfl, rfl⟩

theorem lexToken_of_quote (h : IsQuote mode quote) (rest : List UChar) :
    lexToken numbers.toNumberOperations mode quote rest =
        .ofToken (lexString numbers.toNumberOperations mode quote rest) ∧
      isJSONWhiteSpace quote = false := by
  rcases h with rfl | ⟨rfl, hmode⟩
  · exact ⟨rfl, rfl⟩
  · cases mode
    · exact absurd rfl hmode
    all_goals exact ⟨rfl, rfl⟩

theorem toNat_lt_of_isIdentifierStart (h : isIdentifierStart c) : c.toNat < 123 := by
  simp only [isIdentifierStart, isASCIIAlpha, Bool.or_eq_true, Bool.and_eq_true, beq_iff_eq] at h
  rcases h with (⟨-, h⟩ | rfl) | rfl
  · have hle : (c ||| 0x20).toNat ≤ (ch 'z').toNat :=
      le_iff_toNat_le.mp (of_decide_eq_true h)
    exact Nat.lt_of_le_of_lt (Nat.left_le_or.trans hle) (by decide)
  all_goals decide

/-- The tests before the one for an identifier fail on its first character. -/
def IsOther (c : UChar) : Prop :=
  (∀ d ∈ ['[', ']', '(', ')', '{', '}', ',', ':', '-', '.', '=', ';'].map ch, c ≠ d) ∧
    c ≠ quotationMark ∧ isASCIIDigit c = false ∧ isJSONWhiteSpace c = false

instance (c : UChar) : Decidable (IsOther c) :=
  @instDecidableAnd _ _ (List.decidableBAll _ _) inferInstance

theorem isOther_below : ∀ n < 123, isIdentifierStart (ofNat n) → IsOther (ofNat n) := by
  decide

theorem isOther_of_start (h : isIdentifierStart c) : IsOther c := by
  have hbelow := isOther_below c.toNat (toNat_lt_of_isIdentifierStart h)
  rw [UInt16.ofNat_toNat] at hbelow
  exact hbelow h

/-- A word at the front of an identifier's text is at the front of the identifier. -/
theorem not_isPrefixOf_append (hword : ∀ c ∈ word, isIdentifierPart c)
    (hname : ¬word <+: name) (hrest : ∀ c ∈ rest.head?, ¬isIdentifierPart c) :
    word.isPrefixOf (name ++ rest) = false := by
  refine Bool.eq_false_iff.mpr fun hstarts => hname ?_
  have hboth := isPrefixOf_iff_prefix.mp hstarts
  rcases prefix_or_prefix_of_prefix hboth (prefix_append name rest) with h | ⟨tail, rfl⟩
  · exact h
  · obtain ⟨more, heq⟩ := hboth
    rw [append_assoc, append_cancel_left_eq] at heq
    cases tail with
    | nil => rw [append_nil]
    | cons c tail =>
      rw [← heq] at hrest
      exact absurd (hword c (by simp)) (hrest c rfl)

theorem lexToken_of_identifier (h : IsIdentifier name)
    (hrest : ∀ c ∈ rest.head?, ¬isIdentifierPart c) : ∃ c cs, name = c :: cs ∧
      lexToken numbers.toNumberOperations mode c (cs ++ rest) =
        ⟨.identifier name, .identifier, rest⟩ ∧ isJSONWhiteSpace c = false := by
  obtain ⟨c, cs, rfl, hstart⟩ := h.start
  obtain ⟨hsingle, hquote, hdigit, hwhite⟩ := isOther_of_start hstart
  simp only [map_cons, map_nil, mem_cons, not_mem_nil, or_false,
    forall_eq_or_imp, forall_eq] at hsingle
  obtain ⟨h1, h2, h3, h4, h5, h6, h7, h8, h9, h10, h11, h12⟩ := hsingle
  have htrue := not_isPrefixOf_append (forall_mem_of_all (by decide)) h.not_true hrest
  have hfalse := not_isPrefixOf_append (forall_mem_of_all (by decide)) h.not_false hrest
  have hnull := not_isPrefixOf_append (forall_mem_of_all (by decide)) h.not_null hrest
  rw [cons_append] at htrue hfalse hnull
  refine ⟨c, cs, rfl, ?_, hwhite⟩
  have htake : (c :: (cs ++ rest)).takeWhile isIdentifierPart = c :: cs := by
    rw [← cons_append, takeWhile_append_of_pos h.parts]
    cases rest with
    | nil => simp
    | cons d rest => rw [takeWhile_cons_of_neg (hrest d rfl), append_nil]
  have hdrop : (c :: (cs ++ rest)).dropWhile isIdentifierPart = rest := by
    rw [← cons_append, dropWhile_append_of_pos h.parts]
    cases rest with
    | nil => rfl
    | cons d rest => rw [dropWhile_cons_of_neg (hrest d rfl)]
  simp only [lexToken, punctuator, lexOther, lexIdentifier, h1, h2, h3, h4, h5, h6, h7, h8, h9, h10,
    h11, h12, hquote, hdigit, htrue, hfalse, hnull, hstart, htake, hdrop]
  rfl

/-! ### White space -/

theorem isJSONWhiteSpace_iff :
    isJSONWhiteSpace c = true ↔ c = ch ' ' ∨ c = 0x9 ∨ c = 0xA ∨ c = 0xD := by
  simp only [isJSONWhiteSpace, Bool.or_eq_true, beq_iff_eq, or_assoc]

theorem White.append (h : White text) (h' : White text') :
    White (text ++ text') :=
  fun c hc => (mem_append.mp hc).elim (h c) (h' c)

theorem lex_white (h : White white) (text : List UChar) :
    lex numbers.toNumberOperations mode (white ++ text) =
      lex numbers.toNumberOperations mode text := by
  rw [lex, lex, dropWhile_append_of_pos fun c hc => isJSONWhiteSpace_iff.mpr (h c hc)]

theorem lex_end (h : White white) :
    lex numbers.toNumberOperations mode white = ⟨.end, .end, []⟩ := by
  rw [← append_nil white, lex_white numbers h]
  rfl

theorem lex_cons (h : isJSONWhiteSpace c = false) (rest : List UChar) :
    lex numbers.toNumberOperations mode (c :: rest) =
      lexToken numbers.toNumberOperations mode c rest := by
  rw [lex, dropWhile_cons_of_neg (by simp [h])]

/-- A token that is spelled after white space is found. -/
theorem lex_of_lexes (hwhite : White white) (h : Lexes numbers mode text token rest)
    (hne : token ≠ .error) :
    lex numbers.toNumberOperations mode (white ++ text) = ⟨token, returnedType token, rest⟩ := by
  rw [lex_white numbers hwhite]
  cases h with
  | single hsingle =>
    obtain ⟨hlex, hc⟩ := lexToken_of_single numbers hsingle rest
    rw [lex_cons numbers hc, hlex]
  | string hliteral =>
    obtain ⟨hquote, hchars, hfits⟩ := hliteral
    obtain ⟨hlex, hc⟩ := lexToken_of_quote numbers hquote (_ ++ _ :: rest)
    rw [cons_append, append_assoc, singleton_append, lex_cons numbers hc, hlex,
      lexString_of_characters numbers hquote hchars hfits]
    rfl
  | true | false | null => exact lex_cons numbers rfl _
  | @number l _ hstops hfits =>
    obtain ⟨d, ds, hint, hd, -⟩ := l.isInt.isDigits.head
    have hread := lexNumber_of_stops numbers hstops hfits
    obtain ⟨c, cs, hcons, hc⟩ : ∃ c cs, l.text ++ rest = c :: cs ∧ (isASCIIDigit c ∨ c = ch '-') := by
      rw [text, signText, hint]
      cases l.negative with
      | true => exact ⟨_, _, rfl, .inr rfl⟩
      | false => exact ⟨_, _, rfl, .inl hd⟩
    obtain ⟨hlex, hwhite⟩ := lexToken_of_digit numbers hc cs
    rw [hcons] at hread ⊢
    rw [lex_cons numbers hwhite, hlex, hread]
    rfl
  | identifier hname hrest =>
    obtain ⟨c, cs, rfl, hlex, hc⟩ := lexToken_of_identifier numbers hname hrest
    rw [cons_append, lex_cons numbers hc, hlex]
    rfl
  | error => exact absurd rfl hne

/-- The lexer finds the end or a token after white space. -/
theorem lex_cases (mode : ParserMode) (text : List UChar) :
    (White text ∧ lex numbers.toNumberOperations mode text = ⟨.end, .end, []⟩) ∨
      ∃ white text', White white ∧ text = white ++ text' ∧
        Finds numbers mode text' (lex numbers.toNumberOperations mode text) := by
  have htext := takeWhile_append_dropWhile (p := isJSONWhiteSpace) (l := text)
  have hwhite : White (text.takeWhile isJSONWhiteSpace) :=
    fun c hc => isJSONWhiteSpace_iff.mp (mem_takeWhile_imp hc)
  cases hdrop : text.dropWhile isJSONWhiteSpace with
  | nil =>
    rw [hdrop, append_nil] at htext
    rw [htext] at hwhite
    exact .inl ⟨hwhite, lex_end numbers hwhite⟩
  | cons c rest =>
    refine .inr ⟨_, _, hwhite, htext.symm, ?_⟩
    rw [lex, hdrop]
    exact finds_lexToken numbers mode c rest

end

end WebKit.JavaScriptCore.LiteralParser
