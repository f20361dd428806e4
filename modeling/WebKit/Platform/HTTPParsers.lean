import Mathlib.Data.List.DropRight
import WebKit.Text.Base64

/-!
# The header `X-XSS-Protection`

`HTTPParsers.cpp`.  The position in the stripped header is compared with the length of the header as
it came, and a keyword that stops at the end of the header is taken for the whole of it.

* `isRight_iff`: the headers that get the answer for what stands in them.
-/

namespace WebKit.Platform.HTTPParsers

open WTF

inductive XSSProtectionDisposition
  | disabled
  | enabled
  | blockEnabled
  deriving DecidableEq

/-! ## The parser -/

/-- What is skipped between two tokens. -/
def isBlank (fromHttpEquivMeta : Bool) (c : UChar) : Bool :=
  if fromHttpEquivMeta then decide (c ≤ ch ' ') else c == 0x9 || c == ch ' '

/-- A position is the text from it on; there has to be more to parse. -/
def skipWhiteSpace (fromHttpEquivMeta : Bool) (str : List UChar) : Option (List UChar) :=
  let rest := str.dropWhile (isBlank fromHttpEquivMeta)
  if rest = [] then none else some rest

def skipToken : List UChar → List UChar → Option (List UChar)
  | [], str => some str
  | _, [] => some []
  | t :: token, c :: str => if toASCIILower c = t then skipToken token str else none

/-- `str[pos++] == c` -/
def skipCharacter (c : UChar) : List UChar → Option (List UChar)
  | [] => none
  | first :: rest => if first = c then some rest else none

def text (token : String) : List UChar := token.toList.map ch

/-- The tests before the last token. -/
def skipToValue (str : List UChar) : Option (List UChar) := do
  let str ← skipCharacter (ch '1') str
  let str ← skipWhiteSpace false str
  let str ← skipCharacter (ch ';') str
  let str ← skipWhiteSpace false str
  let str ← skipToken (text "mode") str
  let str ← skipWhiteSpace false str
  let str ← skipCharacter (ch '=') str
  skipWhiteSpace false str

/-- `isWhiteSpaceNeutral` is the Unicode direction of the characters above 0x7F. -/
def stripWhiteSpace (isWhiteSpaceNeutral : UChar → Bool) (header : List UChar) : List UChar :=
  let isSpace c := Text.Base64.isSpaceOrNewline isWhiteSpaceNeutral c.toUInt32
  (header.dropWhile isSpace).rdropWhile isSpace

def parseXSSProtectionHeader (isWhiteSpaceNeutral : UChar → Bool) (header : List UChar) :
    XSSProtectionDisposition :=
  let strippedHeader := stripWhiteSpace isWhiteSpaceNeutral header
  if strippedHeader = [] then .enabled
  else if strippedHeader.head? = ch '0' then .disabled
  else
    match skipToValue strippedHeader >>= skipToken (text "block") with
    | some rest =>
      if strippedHeader.length - rest.length = header.length then .blockEnabled else .enabled
    | none => .enabled

/-! ## What stands in the header -/

/-- `1; mode=` and a value, with spaces and tabs between the tokens. -/
def HasMode (value str : List UChar) : Prop :=
  ∃ blanks₁ blanks₂ mode blanks₃ blanks₄ written,
    str = ch '1' :: (blanks₁ ++ ch ';' :: (blanks₂ ++ (mode ++ (blanks₃ ++ ch '=' ::
      (blanks₄ ++ written))))) ∧
    (∀ c ∈ blanks₁ ++ blanks₂ ++ blanks₃ ++ blanks₄, isBlank false c) ∧
    mode.map toASCIILower = text "mode" ∧ written.map toASCIILower = value

/-- The answer is the one for the stripped header, whatever was around it. -/
def IsRight (isWhiteSpaceNeutral : UChar → Bool) (header : List UChar) : Prop :=
  let answer := parseXSSProtectionHeader isWhiteSpaceNeutral header
  let strippedHeader := stripWhiteSpace isWhiteSpaceNeutral header
  (answer = .blockEnabled ↔ HasMode (text "block") strippedHeader) ∧
    (answer = .disabled ↔ strippedHeader.head? = ch '0')

variable {str rest token : List UChar} {c : UChar}

theorem skipCharacter_eq_some_iff : skipCharacter c str = some rest ↔ str = c :: rest := by
  cases str <;> simp [skipCharacter]

theorem skipWhiteSpace_eq_some_iff : skipWhiteSpace false str = some rest ↔
    ∃ blanks, str = blanks ++ rest ∧ (∀ c ∈ blanks, isBlank false c) ∧
      ∃ c after, rest = c :: after ∧ ¬isBlank false c := by
  simp only [skipWhiteSpace]
  constructor
  · intro h
    split_ifs at h with hnil
    cases h
    refine ⟨str.takeWhile (isBlank false), (List.takeWhile_append_dropWhile ..).symm,
      fun _ => List.mem_takeWhile_imp, _, _, (List.cons_head_tail hnil).symm, ?_⟩
    simpa using List.head_dropWhile_not _ hnil
  · rintro ⟨blanks, rfl, hblanks, c, after, rfl, hc⟩
    rw [List.dropWhile_append_of_pos hblanks, List.dropWhile_cons_of_neg hc]
    rfl

theorem skipToken_eq_some_iff : skipToken token str = some rest ↔
    ∃ read, str = read ++ rest ∧
      (read.map toASCIILower = token ∨ rest = [] ∧ read.map toASCIILower <+: token) := by
  fun_induction skipToken token str with
  | case1 str =>
    constructor
    · rintro ⟨⟩
      exact ⟨[], rfl, .inl rfl⟩
    · rintro ⟨_ | _, rfl, hread⟩
      · rfl
      · simp at hread
  | case2 token h => simp +contextual [eq_comm]
  | case3 token c str ih =>
    rw [ih]
    constructor
    · rintro ⟨read, rfl, hread⟩
      exact ⟨c :: read, rfl, by simpa [List.cons_prefix_cons] using hread⟩
    · rintro ⟨_ | ⟨d, read⟩, heq, hread⟩
      · simp at heq hread
        simp [← heq] at hread
      · cases heq
        exact ⟨read, rfl, by simpa [List.cons_prefix_cons] using hread⟩
  | case4 t token c str hc =>
    refine iff_of_false nofun ?_
    rintro ⟨_ | ⟨d, read⟩, heq, hread⟩
    · simp at heq hread
      simp [← heq] at hread
    · cases heq
      rcases hread with hread | ⟨-, hread⟩
      · exact hc (List.cons.inj hread).1
      · exact hc (List.cons_prefix_cons.mp hread).1

theorem not_isBlank_of_map (h : written.map toASCIILower = value)
    (hvalue : ∃ c ∈ value.head?, ¬isBlank false c) :
    ∃ c after, written = c :: after ∧ ¬isBlank false c := by
  cases h
  cases written with
  | nil => simp at hvalue
  | cons c after =>
    refine ⟨c, after, rfl, fun hc => ?_⟩
    have hlower : toASCIILower c = c := by
      rcases Bool.or_eq_true_iff.mp hc with hc | hc <;> rw [eq_of_beq hc] <;> rfl
    simp [hlower, hc] at hvalue

/-- The tests before the value read `1; mode=`. -/
theorem hasMode_iff (hvalue : ∃ c ∈ value.head?, ¬isBlank false c) :
    HasMode value str ↔ ∃ rest, skipToValue str = some rest ∧ rest.map toASCIILower = value := by
  simp only [skipToValue, bind, Option.bind_eq_some_iff, skipCharacter_eq_some_iff,
    skipWhiteSpace_eq_some_iff, skipToken_eq_some_iff]
  constructor
  · rintro ⟨s1, s2, mode, s3, s4, written, rfl, hblank, hmode, hwritten⟩
    simp only [List.forall_mem_append] at hblank
    obtain ⟨⟨⟨h1, h2⟩, h3⟩, h4⟩ := hblank
    obtain ⟨m, after, rfl, hm⟩ := not_isBlank_of_map hmode ⟨ch 'm', rfl, by decide⟩
    exact ⟨written, ⟨_, rfl, _, ⟨s1, rfl, h1, _, _, rfl, by decide⟩, _, rfl, _,
      ⟨s2, rfl, h2, m, _, rfl, hm⟩, _, ⟨m :: after, rfl, .inl hmode⟩, _,
      ⟨s3, rfl, h3, _, _, rfl, by decide⟩, _, rfl, s4, rfl, h4, not_isBlank_of_map hwritten hvalue⟩,
      hwritten⟩
  · rintro ⟨written, ⟨_, rfl, _, ⟨s1, rfl, h1, -⟩, _, rfl, _, ⟨s2, rfl, h2, -⟩, _,
      ⟨mode, rfl, hmode⟩, _, ⟨s3, rfl, h3, -⟩, _, rfl, s4, rfl, h4, -⟩, hwritten⟩
    have hmode : mode.map toASCIILower = text "mode" := hmode.resolve_right (by simp)
    refine ⟨s1, s2, mode, s3, s4, written, rfl, ?_, hmode, hwritten⟩
    simpa only [List.forall_mem_append] using ⟨⟨⟨h1, h2⟩, h3⟩, h4⟩

variable {isWhiteSpaceNeutral : UChar → Bool} {header value : List UChar}

theorem not_isBlank_of_begins (hbegins : value <+: text "block") (hne : value ≠ []) :
    ∃ c ∈ value.head?, ¬isBlank false c := by
  obtain ⟨c, value, rfl⟩ := List.exists_cons_of_ne_nil hne
  rw [(List.cons_prefix_cons.mp hbegins).1]
  exact ⟨ch 'b', rfl, by decide⟩

theorem hasMode_unique (hvalue : ∃ c ∈ value.head?, ¬isBlank false c)
    (hvalue' : ∃ c ∈ value'.head?, ¬isBlank false c) (h : HasMode value str)
    (h' : HasMode value' str) : value = value' := by
  obtain ⟨rest, hrest, rfl⟩ := (hasMode_iff hvalue).mp h
  obtain ⟨rest', hrest', rfl⟩ := (hasMode_iff hvalue').mp h'
  rw [Option.some_inj.mp (hrest.symm.trans hrest')]

/-- The last token is found, perhaps cut short at the end. -/
theorem skipToEnd_iff : skipToValue str >>= skipToken (text "block") = some [] ↔
    ∃ value ≠ [], value <+: text "block" ∧ HasMode value str := by
  simp only [bind, Option.bind_eq_some_iff, skipToken_eq_some_iff, List.append_nil]
  constructor
  · rintro ⟨rest, hrest, _, rfl, hread⟩
    have hbegins : rest.map toASCIILower <+: text "block" := by
      rcases hread with hread | ⟨-, hread⟩
      · rw [hread]
      · exact hread
    have hne : rest.map toASCIILower ≠ [] := by
      simp only [skipToValue, bind, Option.bind_eq_some_iff, skipWhiteSpace_eq_some_iff] at hrest
      obtain ⟨_, -, _, -, _, -, _, -, _, -, _, -, _, -, _, -, -, c, after, rfl, -⟩ := hrest
      simp
    exact ⟨_, hne, hbegins, (hasMode_iff (not_isBlank_of_begins hbegins hne)).mpr ⟨rest, hrest, rfl⟩⟩
  · rintro ⟨value, hne, hbegins, hmode⟩
    obtain ⟨rest, hrest, rfl⟩ := (hasMode_iff (not_isBlank_of_begins hbegins hne)).mp hmode
    exact ⟨rest, hrest, rest, rfl, .inr ⟨trivial, hbegins⟩⟩

/-- Nothing was stripped, and the header is in the block form or stops in the keyword. -/
theorem parse_eq_blockEnabled_iff :
    parseXSSProtectionHeader isWhiteSpaceNeutral header = .blockEnabled ↔
      stripWhiteSpace isWhiteSpaceNeutral header = header ∧
        skipToValue header >>= skipToken (text "block") = some [] := by
  have hsublist : (stripWhiteSpace isWhiteSpaceNeutral header).Sublist header :=
    (List.rdropWhile_prefix ..).sublist.trans (List.dropWhile_suffix _).sublist
  simp only [parseXSSProtectionHeader]
  constructor
  · intro h
    split_ifs at h with hnil hzero
    split at h
    · next rest hrest =>
      split_ifs at h with hlength
      have hle := hsublist.length_le
      have hpos := List.length_pos_iff.mpr hnil
      have heq := hsublist.eq_of_length (by omega)
      rw [heq] at hrest hlength hpos
      refine ⟨heq, hrest.trans (congrArg some (List.length_eq_zero_iff.mp ?_))⟩
      omega
    · cases h
  · rintro ⟨heq, hend⟩
    obtain ⟨value, -, -, s1, s2, mode, s3, s4, written, rfl, -⟩ := skipToEnd_iff.mp hend
    simp [heq, hend]
    decide

theorem parse_eq_disabled_iff :
    parseXSSProtectionHeader isWhiteSpaceNeutral header = .disabled ↔
      (stripWhiteSpace isWhiteSpaceNeutral header).head? = ch '0' := by
  simp only [parseXSSProtectionHeader]
  constructor
  · intro h
    split_ifs at h with hnil hzero
    · exact hzero
    · split at h
      · split_ifs at h
      · cases h
  · intro h
    rw [if_pos h, if_neg (by rintro hnil; simp [hnil] at h)]

/-- The answer is right for a value without surrounding white space that does not stop in the
keyword, and for one with it that is not in the block form. -/
theorem isRight_iff (isWhiteSpaceNeutral : UChar → Bool) (header : List UChar) :
    IsRight isWhiteSpaceNeutral header ↔
      if stripWhiteSpace isWhiteSpaceNeutral header = header
      then ∀ value, HasMode value header → value <+: text "block" → value = [] ∨ value = text "block"
      else ¬HasMode (text "block") (stripWhiteSpace isWhiteSpaceNeutral header) := by
  simp only [IsRight, parse_eq_disabled_iff, parse_eq_blockEnabled_iff, and_true]
  split_ifs with heq
  · simp only [heq, true_and, skipToEnd_iff]
    constructor
    · intro h value hmode hbegins
      refine or_iff_not_imp_left.mpr fun hne => ?_
      exact hasMode_unique (not_isBlank_of_begins hbegins hne) (not_isBlank_of_begins (List.prefix_rfl)
        (by decide)) hmode (h.mp ⟨value, hne, hbegins, hmode⟩)
    · refine fun h => ⟨?_, fun hmode => ⟨_, by decide, List.prefix_rfl, hmode⟩⟩
      rintro ⟨value, hne, hbegins, hmode⟩
      exact (h value hmode hbegins).resolve_left hne ▸ hmode
  · simp [heq]

/-- A truncated keyword is taken for the keyword. -/
theorem not_isRight_truncated : ¬IsRight (fun _ => false) (text "1;mode=b") := by
  rintro ⟨h, -⟩
  obtain ⟨rest, hrest, hmap⟩ := (hasMode_iff ⟨ch 'b', rfl, by decide⟩).mp (h.mp (by decide))
  have hread : skipToValue (stripWhiteSpace (fun _ => false) (text "1;mode=b")) =
    some (text "b") := by decide
  cases hread.symm.trans hrest
  exact absurd hmap (by decide)

end WebKit.Platform.HTTPParsers
