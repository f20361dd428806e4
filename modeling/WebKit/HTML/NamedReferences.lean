import WebKit.HTML.CharacterReferences
import WebKit.HTML.HTMLEntityMatches
import WebKit.Text.SegmentedStringRuns

/-!
# References by name

`consumeHTMLEntity` takes the longest name of the table that the text starts with, or leaves the text
as it was (`consumeHTMLEntity_longest`).

* `Source`: the strings it is called with, by any sequence of operations and of calls.
* `TakesLongest`: what a reference by name should take.
* `oneLetterTable`: names of one letter are given back in the wrong order.
-/

namespace WebKit.HTML

open Text
open Text.SegmentedString (Valid ofString)
open List SegmentedString HTMLEntitySearch

/-! ## The strings of the parser -/

/-- The strings that a parser makes by operations and by reading references.  Nothing else pushes
characters back than the reading of references. -/
inductive Source (table : HTMLEntityTable) : SegmentedString → Prop
  | empty : Source table empty
  | ofString (str : List UChar) : Source table (ofString str)
  | step {s : SegmentedString} (op : Operation) : Source table s → op.Allowed s →
      (∀ c, op ≠ .push c) → (∀ other ∈ op.operands, Source table other) → Source table (s.step op).1
  | consumeHTMLEntity {s : SegmentedString} (additionalAllowedCharacter : UChar) : Source table s →
      Source table (consumeHTMLEntity table s additionalAllowedCharacter).1

section Pushed

variable {table : HTMLEntityTable} {s : SegmentedString}

theorem pushed_length_advance (h : s.Valid) : s.advance.pushed.length ≠ 2 := by
  have := pushed_length_le s
  rw [h.pushed_advance, length_tail]
  omega

theorem pushed_length_advanceLine (h : s.Valid) (lineNumber : ℤ) :
    (s.advanceLine lineNumber).1.pushed.length ≠ 2 := by
  rw [h.advanceLine_eq]
  split
  · exact pushed_length_advance h.countNewline
  · exact pushed_length_advance h

/-- A look-ahead leaves what is pushed back, or nothing. -/
theorem pushed_lookAhead (h : s.Valid) (hpushed : s.pushed.length ≤ string.length) :
    (s.lookAhead string).1.pushed = s.pushed ∨ (s.lookAhead string).1.pushed = [] := by
  rw [lookAhead, lookAheadInline]
  split
  · exact .inl rfl
  · rw [lookAheadSlowCase]
    split
    · exact .inl rfl
    · right
      rename_i henough
      have hle := (Nat.not_lt.mp henough).trans h.unsignedLength_le
      obtain ⟨hv, -⟩ := h.advanceCount hle
      obtain ⟨hext, -⟩ := hv.prepend
        (valid_ofString (s.advanceCount string.length).2)
        ⟨rfl, by simp [ofString]⟩
      rw [hext.pushed, h.pushed_advanceCount, drop_eq_nil_of_le hpushed]

/-- No operation but `push` leaves two characters pushed back that were not. -/
theorem keepsReading_step (h : s.Valid) (hkeeps : KeepsReading table s.pushed) (hop : op.Allowed s)
    (hpush : ∀ c, op ≠ .push c)
    (hargs : ∀ other ∈ op.operands, other.Valid ∧ KeepsReading table other.pushed) :
    KeepsReading table (s.step op).1.pushed := by
  cases op with
  | append other =>
    rw [step, (h.append (hargs other mem_cons_self).1).1.pushed]
    exact hkeeps
  | prepend other =>
    rw [step, (h.prepend (hargs other mem_cons_self).1 hop.2.2).1.pushed]
    exact hkeeps
  | push c => exact absurd rfl (hpush c)
  | advance => exact keepsReading_of_length (pushed_length_advance h)
  | advanceLine n => exact keepsReading_of_length (pushed_length_advanceLine h n)
  | advancePastNewline n =>
    rw [step, h.advancePastNewline_eq n hop]
    exact keepsReading_of_length (pushed_length_advanceLine h n)
  | advancePastNonNewline => exact keepsReading_of_length (pushed_length_advance h)
  | advanceCount count =>
    rw [step, h.pushed_advanceCount]
    cases count with
    | zero => exact hkeeps
    | succ count =>
      have := pushed_length_le s
      exact keepsReading_of_length (by rw [length_drop]; omega)
  | lookAhead string =>
    rw [step]
    rcases pushed_lookAhead h hop.1 with heq | heq
    · rw [heq]
      exact hkeeps
    · rw [heq]
      exact keepsReading_of_length (by simp)
  | copyConstruct a b c => exact hkeeps
  | assign other => exact (hargs other mem_cons_self).2
  | _ => exact hkeeps

/-- What is pushed back in a string of the parser goes on as it did before. -/
theorem Source.keepsReading (hgives : table.GivesBack) (h : Source table s) :
    s.Valid ∧ KeepsReading table s.pushed := by
  induction h with
  | empty => exact ⟨SegmentedString.valid_empty, keepsReading_of_length (by decide)⟩
  | ofString str =>
    exact ⟨SegmentedString.valid_ofString str, keepsReading_of_length (by simp [
      SegmentedString.pushed, SegmentedString.ofString])⟩
  | step op _ hop hpush _ ih ihargs =>
    exact ⟨ih.1.step hop fun other hmem => (ihargs other hmem).1,
      keepsReading_step ih.1 ih.2 hop hpush ihargs⟩
  | consumeHTMLEntity additionalAllowedCharacter _ ih =>
    have hleaves := consumeHTMLEntity_leaves ⟨ih.1, rfl, rfl⟩ ih.2 (.inl hgives)
      additionalAllowedCharacter
    exact ⟨hleaves.spells.valid, hleaves.keepsReading⟩

end Pushed

/-! ## Reading a name from plain text -/

section Table

variable {table : HTMLEntityTable}

/-- The match is no reference: it stands in the value of an attribute without a semicolon, and a
letter, a digit or `=` follows. -/
def Blocked (additionalAllowedCharacter : UChar) (text : List UChar)
    (entry : HTMLEntityTableEntry) : Prop :=
  ¬(entry.lastCharacter = ch ';' ∨ additionalAllowedCharacter = 0 ∨
    ¬(isAlphaNumeric ((text[entry.length]?).getD 0) ∨ (text[entry.length]?).getD 0 = ch '='))

/-- What a reference by name should take of a text: the longest name. -/
structure TakesLongest (table : HTMLEntityTable) (additionalAllowedCharacter : UChar)
    (text : List UChar) (reference : Reference) (rest : List UChar) : Prop where
  notEnough_iff : reference = .notEnoughCharacters ↔ table.IsStart text
  success_iff : ∀ decoded, reference = .success decoded ↔ ¬table.IsStart text ∧
    ∃ entry, table.IsLongestMatch text entry ∧ ¬Blocked additionalAllowedCharacter text entry ∧
      decoded = decodeEntry entry
  taken : ∀ decoded, reference = .success decoded → ∀ entry, table.IsLongestMatch text entry →
    rest = text.drop entry.length

/-- The search for a name ends where the search over all the text fails. -/
theorem searchText_eq {text : List UChar} : ∀ {search : HTMLEntitySearch},
    search.isEntityPrefix = true →
    ∃ count, searchText table search text =
      if (search.advanceOver table text).isEntityPrefix then none
      else some (search.advanceOver table text, count) := by
  induction text with
  | nil =>
    intro search h
    exact ⟨0, (if_pos h).symm⟩
  | cons c text ih =>
    intro search h
    rw [advanceOver, if_pos h, searchText]
    cases hnext : (search.advance table c).isEntityPrefix with
    | true =>
      obtain ⟨count, hcount⟩ := ih hnext
      refine ⟨count + 1, ?_⟩
      rw [if_pos rfl, hcount]
      split <;> rfl
    | false =>
      refine ⟨0, ?_⟩
      rw [advanceOver_of_fail hnext, hnext]
      rfl

theorem readName_takesLongest (hencloses : table.Encloses) (additionalAllowedCharacter : UChar)
    (text : List UChar) :
    TakesLongest table additionalAllowedCharacter text
      (readName table additionalAllowedCharacter text).1
      (text.drop (readName table additionalAllowedCharacter text).2) := by
  have hanswers := answers_advanceOver hencloses text
  obtain ⟨count, hsearch⟩ := @searchText_eq table text (start table) rfl
  rw [readName, hsearch]
  generalize (start table).advanceOver table text = search at hanswers
  by_cases hstart : table.IsStart text
  · rw [if_pos (hanswers.isEntityPrefix.mpr hstart)]
    refine ⟨iff_of_true rfl hstart, fun decoded => ?_, fun decoded h => by cases h⟩
    exact iff_of_false (fun h => by cases h) fun h => h.1 hstart
  · rw [if_neg fun h => hstart (hanswers.isEntityPrefix.mp h)]
    dsimp only
    cases hmatch : search.mostRecentMatch with
    | none =>
      have hnone : ∀ entry, ¬table.IsLongestMatch text entry := fun entry hentry => by
        have hsome := (hanswers.mostRecentMatch entry).mpr hentry
        rw [hmatch] at hsome
        cases hsome
      refine ⟨iff_of_false (fun h => by cases h) hstart, fun decoded => ?_,
        fun decoded h => by cases h⟩
      exact iff_of_false (fun h => by cases h) fun h =>
        h.2.elim fun entry hentry => hnone entry hentry.1
    | some found =>
      have hfound := (hanswers.mostRecentMatch found).mp hmatch
      dsimp only
      split
      · rename_i hends
        refine ⟨iff_of_false (fun h => by cases h) hstart, fun decoded => ?_,
          fun decoded _ entry hentry => by rw [hentry.unique hfound]⟩
        constructor
        · intro h
          cases h
          exact ⟨hstart, found, hfound, not_not.mpr hends, rfl⟩
        · rintro ⟨-, entry, hentry, -, rfl⟩
          rw [hentry.unique hfound]
      · rename_i hends
        refine ⟨iff_of_false (fun h => by cases h) hstart, fun decoded => ?_,
          fun decoded h => by cases h⟩
        refine iff_of_false (fun h => by cases h) ?_
        rintro ⟨-, entry, hentry, hallowed, -⟩
        rw [hentry.unique hfound] at hallowed
        exact hallowed hends

variable {additionalAllowedCharacter : UChar}

/-- A name that is not read takes nothing. -/
theorem readName_of_not_success {text : List UChar}
    (h : ∀ decoded, (readName table additionalAllowedCharacter text).1 ≠ .success decoded) :
    (readName table additionalAllowedCharacter text).2 = 0 := by
  rw [readName] at h ⊢
  split at h
  · rfl
  · split at h
    · rfl
    · dsimp only at h ⊢
      split at h
      · exact absurd rfl (h _)
      · rename_i hblocked
        rw [if_neg hblocked]
        rfl

theorem readReferenceFrom_of_not_success {text : List UChar} {count : ℕ}
    (h : ∀ decoded, (readReferenceFrom table additionalAllowedCharacter state result count text).1 ≠
      .success decoded) :
    (readReferenceFrom table additionalAllowedCharacter state result count text).2 = 0 := by
  induction text generalizing state result count with
  | nil => rfl
  | cons cc text ih =>
    rw [readReferenceFrom] at h ⊢
    cases hstep : referenceStep additionalAllowedCharacter result cc state with
    | consume state' result' =>
      rw [hstep] at h
      exact ih h
    | finish result' takesSemicolon =>
      rw [hstep] at h
      exact absurd rfl (h _)
    | giveBack characters => rfl
    | named =>
      rw [hstep] at h
      exact readName_of_not_success h

/-- A letter goes on with a name. -/
theorem readReference_letter (hletter : isASCIIUpper cc ∨ isASCIILower cc)
    (hadditional : ¬(isASCIIUpper additionalAllowedCharacter ∨
      isASCIILower additionalAllowedCharacter)) (text : List UChar) :
    readReference table additionalAllowedCharacter (cc :: text) =
      readName table additionalAllowedCharacter (cc :: text) := by
  have hspecial : ¬(isTokenizerWhitespace cc ∨ cc = ch '<' ∨ cc = ch '&') := by
    intro h
    rw [isTokenizerWhitespace, Bool.or_eq_true, Bool.or_eq_true, Bool.or_eq_true] at h
    simp only [beq_iff_eq] at h
    rcases h with (((rfl | rfl) | rfl) | rfl) | rfl | rfl <;> exact absurd hletter (by decide)
  have hother : ¬(additionalAllowedCharacter ≠ 0 ∧ cc = additionalAllowedCharacter) := by
    rintro ⟨-, rfl⟩
    exact hadditional hletter
  have hstep : referenceStep additionalAllowedCharacter 0 cc .initial = .named := by
    rw [referenceStep, if_neg hspecial, if_neg hother, if_neg (ne_hash_of_letter hletter),
      if_pos hletter.symm]
  rw [readReference, readReferenceFrom, hstep]

end Table

/-! ## Reading a name from a string of the parser -/

/-- The search answers for every text, and reads only what is there; and when the names of the table
have two characters or more, a reference by name in a string of the parser takes the longest name of
the table, and a reference that is not read leaves the text as it was. -/
theorem consumeHTMLEntity_longest (table : HTMLEntityTable) (hencloses : table.Encloses) :
    (∀ text, Answers table
        ((start table).advanceOver table text) text ∧
      (start table).advanceOverChecked table text = some ((start table).advanceOver table text)) ∧
    (table.GivesBack → ∀ source, Source table source → ∀ additionalAllowedCharacter,
      let result := consumeHTMLEntity table source additionalAllowedCharacter
      (¬(isASCIIUpper additionalAllowedCharacter ∨ isASCIILower additionalAllowedCharacter) →
        ∀ cc, source.current = some cc → isASCIIUpper cc ∨ isASCIILower cc →
        TakesLongest table additionalAllowedCharacter source.characters result.2
          result.1.characters) ∧
      ((∀ decoded, result.2 ≠ .success decoded) → result.1.characters = source.characters)) := by
  refine ⟨fun text => ⟨answers_advanceOver hencloses text, holds_start.advanceOverChecked⟩, ?_⟩
  intro hgives source hsource additionalAllowedCharacter
  obtain ⟨hvalid, hkeeps⟩ := hsource.keepsReading hgives
  have hleaves := consumeHTMLEntity_leaves ⟨hvalid, rfl, rfl⟩ hkeeps (.inl hgives)
    additionalAllowedCharacter
  dsimp only
  rw [hleaves.reference, hleaves.spells.characters]
  constructor
  · intro hadditional cc hcc hletter
    rw [hvalid.current_eq] at hcc
    obtain ⟨text, htext⟩ := List.head?_eq_some_iff.mp hcc
    rw [htext, readReference_letter hletter hadditional]
    exact readName_takesLongest hencloses additionalAllowedCharacter (cc :: text)
  · intro h
    rw [readReference, readReferenceFrom_of_not_success h, drop_zero]

/-- A table of two names with the same first letter. -/
def pairTable (letter : UChar) (rest rest' : List UChar)
    (hletter : isASCIIUpper letter ∨ isASCIILower letter) (hlt : rest < rest') :
    HTMLEntityTable where
  entries := [⟨letter :: rest, 62, 0⟩, ⟨letter :: rest', 62, 0⟩]
  firstEntryStartingWith c := if c = letter then some 0 else none
  lastEntryStartingWith c := if c = letter then some 1 else none
  sorted := by simpa using hlt
  letters c first h := by
    split at h
    · rename_i hc
      exact hc ▸ hletter
    · cases h
  offsets c first last hfirst hlast := by
    split at hfirst
    · rename_i hc
      rw [if_pos hc] at hlast
      cases hfirst
      cases hlast
      refine ⟨by decide, fun i _ hi => ?_⟩
      match i, hi with
      | 0, _ => exact ⟨_, rfl, rest, by rw [hc]; rfl⟩
      | 1, _ => exact ⟨_, rfl, rest', by rw [hc]; rfl⟩
    · cases hfirst

theorem pairTable_encloses
    (hletter : isASCIIUpper letter ∨ isASCIILower letter) (hlt : rest < rest') :
    (pairTable letter rest rest' hletter hlt).Encloses := by
  refine ⟨by simp [pairTable], by simp [pairTable], fun i entry c hentry hbegins => ?_⟩
  have hmem := mem_of_getElem? hentry
  obtain ⟨more, hmore⟩ := hbegins
  have hlt : i < 2 := (List.getElem?_eq_some_iff.mp hentry).1
  have hc : c = letter := by
    rcases mem_cons.mp hmem with rfl | hmem
    · exact (cons_eq_cons.mp hmore).1
    · rw [mem_singleton.mp hmem] at hmore
      exact (cons_eq_cons.mp hmore).1
  exact ⟨0, 1, if_pos hc, if_pos hc, Nat.zero_le _, Nat.le_of_lt_succ hlt⟩

/-- `gt` and `gt;`. -/
def gtTable : HTMLEntityTable :=
  pairTable (ch 'g') [ch 't'] [ch 't', ch ';'] (.inr (by decide)) (by decide)

theorem gtTable_givesBack : gtTable.GivesBack where
  two_le_length := forall_mem_cons.mpr ⟨by decide, forall_mem_singleton.mpr (by decide)⟩
  ne_zero := by
    have hg : ch 'g' ≠ 0 := by decide
    have ht : ch 't' ≠ 0 := by decide
    have hsemicolon : ch ';' ≠ 0 := by decide
    simp [gtTable, pairTable, hg, ht, hsemicolon]

/-- The text `gt;x`. -/
theorem consumeHTMLEntity_longest_gt :
    TakesLongest gtTable 0 (ofString ("gt;x".toList.map ch)).characters
      (consumeHTMLEntity gtTable (ofString ("gt;x".toList.map ch)) 0).2
      (consumeHTMLEntity gtTable (ofString ("gt;x".toList.map ch)) 0).1.characters :=
  ((consumeHTMLEntity_longest gtTable (pairTable_encloses _ _)).2 gtTable_givesBack _ (.ofString _)
    0).1 (by decide) (ch 'g') (by decide) (.inr (by decide))

/-- `a` and `abc`. -/
def oneLetterTable : HTMLEntityTable :=
  pairTable (ch 'a') [] [ch 'b', ch 'c'] (.inr (by decide)) (by decide)

/-- In the value of an attribute the text `abx` is not read as `a`, and is left as `bax`: `b` is still
pushed back when `a` is. -/
theorem consumeHTMLEntity_oneLetter :
    oneLetterTable.Encloses ∧ Source oneLetterTable (ofString ("abx".toList.map ch)) ∧
      (consumeHTMLEntity oneLetterTable (ofString ("abx".toList.map ch)) (ch '>')).2 = .failure ∧
      (consumeHTMLEntity oneLetterTable (ofString ("abx".toList.map ch)) (ch '>')).1.characters =
        "bax".toList.map ch ∧
      (ofString ("abx".toList.map ch)).characters = "abx".toList.map ch :=
  ⟨pairTable_encloses _ _, .ofString _, by decide, by decide, by decide⟩

end WebKit.HTML
