import WebKit.Text.SegmentedText

/-!
# Operations on a segmented string, in any order

The operations of `SegmentedString`, each on an object that earlier operations made, refine what
their names say about the text left, the number of characters consumed and the line, with these
exceptions (`refines_iff`).  The copy constructor leaves the counters of the copy as it finds
them.  A look-ahead over more than the current substring puts the characters it has looked at
back as a new substring, whose newlines count: it makes those count that were pushed back or stood
in excluded text.  A text that no string can hold makes `toString()` crash, and `length()` wrap when
it is longer still.  And the counters are each an `int`.
-/

namespace WebKit.Text

open List SegmentedSubstring

namespace SegmentedString

/-! ## Operations -/

/-- An operation on an object.  `copyConstruct` makes the object a copy of itself, with what the
memory of the copy holds. -/
inductive Operation
  | append (other : SegmentedString)
  | prepend (other : SegmentedString)
  | push (c : UChar)
  | advance
  | advanceLine (lineNumber : ℤ)
  | advancePastNewline (lineNumber : ℤ)
  | advancePastNonNewline
  | advanceCount (count : ℕ)
  | lookAhead (string : List UChar)
  | copyConstruct (priorToString priorToLine line : ℤ)
  | assign (other : SegmentedString)
  | setExcludeLineNumbers
  | close

/-- What an operation returns. -/
inductive Output
  | none
  | lineNumber (lineNumber : ℤ)
  | characters (consumedCharacters : List UChar)
  | found (result : LookAheadResult)
  deriving DecidableEq

variable (s : SegmentedString)

/-- The line number is an `int` too. -/
def step : Operation → SegmentedString × Output
  | .append other => (s.append other, .none)
  | .prepend other => (s.prepend other, .none)
  | .push c => (s.push c, .none)
  | .advance => (s.advance, .none)
  | .advanceLine n => ((s.advanceLine n).1, .lineNumber (toInt (s.advanceLine n).2))
  | .advancePastNewline n =>
      ((s.advancePastNewline n).1, .lineNumber (toInt (s.advancePastNewline n).2))
  | .advancePastNonNewline => (s.advancePastNonNewline, .none)
  | .advanceCount count => ((s.advanceCount count).1, .characters (s.advanceCount count).2)
  | .lookAhead string => ((s.lookAhead string).1, .found (s.lookAhead string).2)
  | .copyConstruct a b c => (s.copyConstruct a b c, .none)
  | .assign other => (s.assign other, .none)
  | .setExcludeLineNumbers => (s.setExcludeLineNumbers, .none)
  | .close => (s.close, .none)

/-- What the assertions of the operations ask for. -/
def Operation.Allowed : Operation → Prop
  | .append other => s.closed = false ∧ other.escaped = false
  | .prepend other => s.escaped = false ∧ other.escaped = false ∧ other.Fresh
  | .push c => c ≠ 0 ∧ s.pushedChar2 = 0
  | .advancePastNewline _ => s.current = some newline
  | .advancePastNonNewline => ∃ c, s.current = some c ∧ c ≠ newline
  | .advanceCount count => count ≤ s.unsignedLength
  | .lookAhead string =>
      s.pushed.length ≤ string.length ∧ string.length ≤ WTF.StringImpl.maxLength false
  | .close => s.closed = false
  | _ => True

/-- The other objects of an operation. -/
def Operation.operands : Operation → List SegmentedString
  | .append other => [other]
  | .prepend other => [other]
  | .assign other => [other]
  | _ => []

/-- The objects that sequences of operations make. -/
inductive Reachable : SegmentedString → Prop
  | empty : Reachable empty
  | ofString (str : List UChar) (h : str.length ≤ WTF.StringImpl.maxLength false) :
      Reachable (ofString str)
  | step {s : SegmentedString} (op : Operation) : Reachable s → op.Allowed s →
      (∀ other ∈ op.operands, Reachable other) → Reachable (s.step op).1

/-! ## What the operations should do -/

/-- How far a step that counts lines moves the line. -/
def lineStep : ℤ := if s.startsWithCounted then 1 else 0

/-- How far a step moves the number of characters consumed. -/
def countStep : ℤ := if s.text = [] then 0 else 1

/-- The text becomes the given one, and the counters move by the given numbers. -/
structure Moves (s s' : SegmentedString) (text : List (UChar × Bool)) (count lines : ℤ) :
    Prop where
  text : s'.contents.text = text
  consumed : s'.contents.consumed = s.contents.consumed + count
  line : s'.contents.line = s.contents.line + lines

/-- What a look-ahead should find. -/
def IsLookAheadResult (string : List UChar) (r : LookAheadResult) : Prop :=
  (r = .didMatch ↔ string <+: s.characters) ∧
    (r = .notEnoughCharacters ↔ s.characters.length < string.length)

/-- What the operation should make of the text, the number of characters consumed and the line. -/
def Refines (op : Operation) (s' : SegmentedString) (out : Output) : Prop :=
  match op with
  | .append other => s'.text = s.text ++ other.text ∧ s'.contents.line = s.contents.line ∧
      (other.Fresh → s'.contents.consumed = s.contents.consumed)
  | .prepend other => Moves s s' (other.text ++ s.text) (-other.text.length) 0
  | .push c => Moves s s' (s.pushed.map (fun c => (c, false)) ++ (c, false) :: s.unread) (-1) 0
  | .advance => Moves s s' s.text.tail s.countStep 0
  | .advanceLine n => Moves s s' s.text.tail s.countStep s.lineStep ∧
      out = .lineNumber (n + s.lineStep)
  | .advancePastNewline n => Moves s s' s.text.tail s.countStep s.lineStep ∧
      out = .lineNumber (n + s.lineStep)
  | .advancePastNonNewline => Moves s s' s.text.tail s.countStep 0
  | .advanceCount count => Moves s s' (s.text.drop count) count 0 ∧
      out = .characters (s.characters.take count)
  | .lookAhead string => s'.contents = s.contents ∧
      ∃ r, out = .found r ∧ IsLookAheadResult s string r
  | .copyConstruct _ _ _ => s'.contents = s.contents
  | .assign other => s'.contents = other.contents
  | .setExcludeLineNumbers => Moves s s' (s.text.map fun e => (e.1, false)) 0 0
  | .close => s'.contents = s.contents

/-- What the object says about its text. -/
structure Agrees (s : SegmentedString) : Prop where
  current : s.current = s.characters.head?
  isEmpty : s.isEmpty = true ↔ s.characters = []
  length : s.unsignedLength = s.characters.length
  toString : s.toString = some s.characters

/-! ## Validity -/

variable {s : SegmentedString}

/-- The object says what its text is when a string can hold it. -/
theorem Valid.agrees_iff (h : s.Valid) :
    Agrees s ↔ s.characters.length ≤ WTF.StringImpl.maxLength false := by
  constructor
  · intro hagrees
    have hstring := hagrees.toString
    rw [h.toString_eq, stringAppend] at hstring
    split at hstring
    · assumption
    · cases hstring
  · intro hfits
    refine ⟨h.current_eq, ?_, ?_, ?_⟩
    · rw [h.isEmpty_iff, characters, map_eq_nil_iff]
    · have hlimit : WTF.StringImpl.maxLength false < 2 ^ 32 := by decide
      have hlength : s.characters.length = s.text.length := length_map _
      rw [h.unsignedLength_eq, ← hlength, Nat.mod_eq_of_lt (hfits.trans_lt hlimit)]
    · rw [h.toString_eq, stringAppend, nil_append, if_pos hfits]

theorem escaped_eq_false : s.escaped = false ↔ s.pushedChar1 = 0 := by
  rw [escaped, bne_eq_false_iff_eq]

/-! ## Counters -/

/-- The number is one that an `int` holds. -/
def FitsInt (n : ℤ) : Prop := -2 ^ 31 ≤ n ∧ n < 2 ^ 31

/-- A counter that is moved says so exactly when it does not wrap. -/
theorem toInt_add_eq_iff (n count : ℤ) :
    toInt (n + count) = toInt n + count ↔ FitsInt (toInt n + count) := by
  unfold FitsInt toInt
  constructor
  · intro heq
    have hlow := Int.le_bmod (x := n + count) (Nat.two_pow_pos 32)
    have hhigh := Int.bmod_lt (x := n + count) (Nat.two_pow_pos 32)
    omega
  · rintro ⟨hlow, hhigh⟩
    rw [← Int.bmod_add_bmod]
    exact Int.bmod_eq_of_le (by omega) (by omega)

theorem fitsInt_toInt (n : ℤ) : FitsInt (toInt n) := by
  have h := (toInt_add_eq_iff n 0).mp (by rw [Int.add_zero, Int.add_zero])
  rwa [Int.add_zero] at h

/-- The counters can be moved so far. -/
def Room (s : SegmentedString) (count lines : ℤ) : Prop :=
  FitsInt (s.contents.consumed + count) ∧ FitsInt (s.contents.line + lines)

/-- The counters are moved as the integers that they stand for are. -/
theorem moves_iff {s' : SegmentedString} {text : List (UChar × Bool)} {count lines : ℤ}
    (htext : s'.text = text)
    (hconsumed : s'.numberOfCharactersConsumed = s.numberOfCharactersConsumed + count)
    (hline : s'.currentLineNumber = s.currentLineNumber + lines) :
    Moves s s' text count lines ↔ s.Room count lines := by
  have hcount : s'.contents.consumed = s.contents.consumed + count ↔
      FitsInt (s.contents.consumed + count) := by
    rw [contents, hconsumed]
    exact toInt_add_eq_iff _ _
  have hlines : s'.contents.line = s.contents.line + lines ↔
      FitsInt (s.contents.line + lines) := by
    rw [contents, hline]
    exact toInt_add_eq_iff _ _
  rw [Room, ← hcount, ← hlines]
  exact ⟨fun h => ⟨h.consumed, h.line⟩, fun h => ⟨htext, h.1, h.2⟩⟩

theorem Valid.advanceLine (h : s.Valid) (n : ℤ) :
    (s.advanceLine n).1.Valid ∧ (Moves s (s.advanceLine n).1 s.text.tail s.countStep s.lineStep ↔
      s.Room s.countStep s.lineStep) ∧ (s.advanceLine n).2 = n + s.lineStep := by
  rw [h.advanceLine_eq, lineStep]
  cases hstart : s.startsWithCounted with
  | false =>
    have hadv := h.advances
    exact ⟨hadv.valid, moves_iff hadv.text hadv.consumed (hadv.line.trans (Int.add_zero _).symm),
      (Int.add_zero n).symm⟩
  | true =>
    obtain ⟨hv, ht, hc, hl⟩ := h.advances_countNewline
    exact ⟨hv, moves_iff ht (hc.trans h.advances.consumed) hl, rfl⟩

theorem Valid.text_advanceLine (h : s.Valid) (n : ℤ) : (s.advanceLine n).1.text = s.text.tail := by
  rw [h.advanceLine_eq]
  cases s.startsWithCounted with
  | false => exact h.advances.text
  | true => exact h.advances_countNewline.2.1

theorem Valid.moves_advance_iff (h : s.Valid) :
    Moves s s.advance s.text.tail s.countStep 0 ↔ s.Room s.countStep 0 :=
  moves_iff h.advances.text h.advances.consumed (h.advances.line.trans (Int.add_zero _).symm)

theorem Valid.setExcludeLineNumbers (h : s.Valid) : s.setExcludeLineNumbers.Valid ∧
      s.setExcludeLineNumbers.text = s.text.map fun e => (e.1, false) := by
  have marked : ∀ sub : SegmentedSubstring,
      sub.setExcludeLineNumbers.marked = sub.marked.map fun e => (e.1, false) := by
    intro sub
    rw [marked, marked, map_map]
    exact map_congr_left fun c _ => Prod.ext rfl (Bool.and_false _)
  refine ⟨⟨⟨valid_setExcludeLineNumbers h.currentString, fun sub hmem => ?_,
    fun hzero => ?_, h.pushedChars⟩, h.pointer⟩, ?_⟩
  · obtain ⟨sub', hmem', rfl⟩ := mem_map.mp hmem
    exact ⟨valid_setExcludeLineNumbers (h.substrings sub' hmem').1, (h.substrings sub' hmem').2⟩
  · exact map_eq_nil_iff.mpr (h.composite hzero)
  · rw [text, unread, text, unread, map_append, map_append, map_map, map_flatten, map_map]
    change s.pushed.map _ ++ (s.currentString.setExcludeLineNumbers.marked ++
      ((s.substrings.map SegmentedSubstring.setExcludeLineNumbers).map
        SegmentedSubstring.marked).flatten) = _
    rw [marked, map_map]
    congr 3
    exact map_congr_left fun sub _ => marked sub

/-! ## Looking ahead -/

/-- The look-ahead takes its slow path, and finds enough characters. -/
def LooksSlowly (s : SegmentedString) (string : List UChar) : Prop :=
  ¬(s.pushedChar1 = 0 ∧ string.length ≤ s.currentString.length) ∧ string.length ≤ s.unsignedLength

instance (s : SegmentedString) (string : List UChar) : Decidable (s.LooksSlowly string) :=
  inferInstanceAs (Decidable (_ ∧ _))

/-- A newline that does not count is among the first characters. -/
def HasUncounted (s : SegmentedString) (count : ℕ) : Prop :=
  ∃ e ∈ s.text.take count, e.1 = newline ∧ e.2 = false

section LookAhead

variable {s : SegmentedString} (h : s.Valid) {string : List UChar}
  (hpushed : s.pushed.length ≤ string.length)

include h

omit h in
/-- Comparing as many characters as the string has. -/
theorem isLookAheadResult_of_take (hlen : string.length ≤ s.characters.length) :
    IsLookAheadResult s string
      (if equalsLiterally string (s.characters.take string.length) then .didMatch
        else .didNotMatch) := by
  have hiff : (equalsLiterally string (s.characters.take string.length) = true) ↔
      string <+: s.characters := by
    rw [equalsLiterally, beq_iff_eq, prefix_iff_eq_take]
  constructor
  · rw [← hiff]
    split
    · rename_i heq
      exact iff_of_true rfl heq
    · rename_i hne
      exact iff_of_false (fun heq => by cases heq) hne
  · refine iff_of_false (fun heq => ?_) (by omega)
    split at heq <;> cases heq

theorem Valid.characters_take (hp : s.pushedChar1 = 0) {count : ℕ}
    (hcount : count ≤ s.currentString.length) :
    s.characters.take count = s.currentString.charactersAtCurrent count := by
  rw [h.currentString.charactersAtCurrent hcount, characters, text_of_not_escaped hp, unread,
    map_append, marked_characters, take_append_of_le_length]
  rw [h.currentString.remaining_length]
  exact hcount

theorem Valid.currentString_length_le : s.currentString.length ≤ s.characters.length := by
  rw [characters, length_map, ← h.length_eq, length]
  omega

include hpushed

/-- Every look-ahead finds what it should in a text that a string can hold. -/
theorem Valid.lookAhead_result (hagrees : Agrees s) :
    IsLookAheadResult s string (s.lookAhead string).2 := by
  rw [lookAhead, lookAheadInline]
  split
  · rename_i hfast
    rw [← h.characters_take hfast.1 hfast.2]
    exact isLookAheadResult_of_take (Nat.le_trans hfast.2 h.currentString_length_le)
  · have hlength := hagrees.length
    by_cases hmore : string.length > s.unsignedLength
    · rw [SegmentedString.lookAheadSlowCase, if_pos hmore]
      refine ⟨iff_of_false (fun heq => by cases heq) fun hgoes => ?_, iff_of_true rfl (by omega)⟩
      have hle := hgoes.length_le
      omega
    · rw [(h.lookAheadSlowCase equalsLiterally hpushed (Nat.not_lt.mp hmore)).2.2.2.2]
      exact isLookAheadResult_of_take (by omega)

/-- What every look-ahead leaves. -/
theorem Valid.lookAhead_contents : (s.lookAhead string).1.Valid ∧ (s.lookAhead string).1.contents =
      ⟨if s.LooksSlowly string then recount s.text string.length else s.text,
        s.contents.consumed, s.contents.line⟩ := by
  rw [lookAhead, lookAheadInline]
  by_cases hfast : s.pushedChar1 = 0 ∧ string.length ≤ s.currentString.length
  · have hnot : ¬s.LooksSlowly string := fun hslow => hslow.1 hfast
    rw [if_pos hfast, if_neg hnot]
    exact ⟨h, rfl⟩
  · rw [if_neg hfast]
    by_cases hmore : string.length > s.unsignedLength
    · have hnot : ¬s.LooksSlowly string := fun hslow => absurd hslow.2 (by omega)
      rw [SegmentedString.lookAheadSlowCase, if_pos hmore, if_neg hnot]
      exact ⟨h, rfl⟩
    · obtain ⟨hv, ht, hc, hl, -⟩ :=
        h.lookAheadSlowCase equalsLiterally hpushed (Nat.not_lt.mp hmore)
      rw [if_pos ⟨hfast, by omega⟩]
      refine ⟨hv, ?_⟩
      rw [contents, ht, hc, hl]
      rfl

end LookAhead

/-- Only newlines count. -/
theorem newline_of_counted (he : e ∈ s.text) (hcounted : e.2 = true) :
    e.1 = newline := by
  -- a marked character counts only when it is a newline
  have marked : ∀ sub : SegmentedSubstring, e ∈ sub.marked → e.1 = newline := by
    intro sub hmem
    obtain ⟨c, -, rfl⟩ := mem_map.mp hmem
    exact beq_iff_eq.mp (Bool.and_eq_true_iff.mp hcounted).1
  rcases mem_append.mp he with hmem | hmem
  · obtain ⟨c, -, rfl⟩ := mem_map.mp hmem
    cases hcounted
  · rcases mem_append.mp hmem with hmem | hmem
    · exact marked _ hmem
    · obtain ⟨l, hl, hmem⟩ := mem_flatten.mp hmem
      obtain ⟨sub, -, rfl⟩ := mem_map.mp hl
      exact marked sub hmem

/-- Counting anew changes nothing exactly when no uncounted newline is among the characters. -/
theorem recount_eq_iff (s : SegmentedString) (count : ℕ) :
    recount s.text count = s.text ↔ ¬s.HasUncounted count := by
  have hsplit : recount s.text count = s.text ↔
      (s.text.take count).map (fun e => (e.1, e.1 == newline)) = s.text.take count := by
    conv_lhs => rhs; rw [← take_append_drop count s.text]
    rw [recount, append_left_inj]
  rw [hsplit]
  constructor
  · rintro heq ⟨e, he, hnewline, huncounted⟩
    have hmap := map_inj_left.mp (heq.trans (map_id _).symm) e he
    have hsnd : (e.1 == newline) = e.2 := congrArg Prod.snd hmap
    rw [hnewline, huncounted] at hsnd
    exact absurd hsnd (by decide)
  · intro hno
    refine (map_inj_left.mpr fun e he => ?_).trans (map_id _)
    refine Prod.ext rfl ?_
    change (e.1 == newline) = e.2
    cases hcounted : e.2 with
    | true =>
      exact beq_iff_eq.mpr (newline_of_counted (mem_of_mem_take he) hcounted)
    | false =>
      have hne : e.1 ≠ newline := fun heq => hno ⟨e, he, heq, hcounted⟩
      exact beq_eq_false_iff_ne.mpr hne

/-! ## Every operation on every object -/

/-- When the operation does what it should to the text and the counters: a copy construction finds
the counters it does not set in the memory of the copy, a slow look-ahead passes no newline that does
not count, and no counter wraps. -/
def Operation.Exact (s : SegmentedString) : Operation → Prop
  | .prepend other => s.Room (-other.text.length) 0
  | .push _ => s.Room (-1) 0
  | .advance | .advancePastNonNewline => s.Room s.countStep 0
  | .advanceLine n | .advancePastNewline n =>
      s.Room s.countStep s.lineStep ∧ toInt (n + s.lineStep) = n + s.lineStep
  | .advanceCount count => s.Room count 0
  | .copyConstruct priorToString _ line =>
      toInt priorToString = toInt s.numberOfCharactersConsumedPriorToCurrentString ∧
        toInt line = s.contents.line
  | .lookAhead string => s.LooksSlowly string → ¬s.HasUncounted string.length
  | .append _ | .assign _ | .setExcludeLineNumbers | .close => True

/-- The most characters that the operation leaves. -/
def Operation.most (s : SegmentedString) : Operation → ℕ
  | .append other | .prepend other => s.characters.length + other.characters.length
  | .push _ => s.characters.length + 1
  | .assign other => max s.characters.length other.characters.length
  | _ => s.characters.length

/-- A string can hold the text before the operation and after it, too. -/
def Operation.Sound (s : SegmentedString) (op : Operation) : Prop :=
  op.most s ≤ WTF.StringImpl.maxLength false ∧ op.Exact s

theorem text_of_unescaped (h : s.escaped = false) : s.text = s.unread :=
  text_of_not_escaped (escaped_eq_false.mp h)

variable (h : s.Valid)

include h

theorem Valid.step (hop : op.Allowed s)
    (hargs : ∀ other ∈ op.operands, other.Valid) : (s.step op).1.Valid := by
  cases op with
  | append other => exact (h.append (hargs other mem_cons_self)).2.1
  | prepend other => exact (h.prepend (hargs other mem_cons_self) hop.2.2).2.1
  | push c => exact (h.push hop.1 hop.2).1
  | advance => exact h.advances.valid
  | advanceLine n => exact (h.advanceLine n).1
  | advancePastNewline n =>
    rw [SegmentedString.step, h.advancePastNewline_eq n hop]
    exact (h.advanceLine n).1
  | advancePastNonNewline => exact h.advances.valid
  | advanceCount count =>
    exact (h.advanceCount (hop.trans h.unsignedLength_le)).1
  | lookAhead string => exact (h.lookAhead_contents hop.1).1
  | copyConstruct a b c =>
    exact { h with }
  | assign other => exact hargs other mem_cons_self
  | setExcludeLineNumbers => exact h.setExcludeLineNumbers.1
  | close => exact { h with }

omit h in
theorem Reachable.valid (h : Reachable s) : s.Valid := by
  induction h with
  | empty => exact valid_empty
  | ofString str _ => exact valid_ofString str
  | step op _ hop _ ih ihargs => exact ih.step hop ihargs

theorem Valid.text_append (hother : other.Valid) (hop : (Operation.append other).Allowed s) :
    (s.append other).text = s.text ++ other.text := by
  obtain ⟨hext, -, hunread, -⟩ := h.append hother
  rw [text, hext.pushed, hunread, text_of_unescaped hop.2, text, append_assoc]

theorem Valid.text_prepend (hother : other.Valid) (hop : (Operation.prepend other).Allowed s) :
    (s.prepend other).text = other.text ++ s.text := by
  obtain ⟨hext, -, hunread, -⟩ := h.prepend hother hop.2.2
  have hp := escaped_eq_false.mp hop.1
  rw [text, hext.pushed, hunread, text_of_unescaped hop.2.1, text_of_not_escaped hp,
    pushed_of_not_escaped hp]
  rfl

theorem Valid.text_push (hop : (Operation.push c).Allowed s) :
    (s.push c).text = s.pushed.map (fun c => (c, false)) ++ (c, false) :: s.unread := by
  have hsame : (s.push c).unread = s.unread := by
    rw [SegmentedString.push]
    split <;> rfl
  rw [text, (h.push hop.1 hop.2).2, hsame, map_append, append_assoc]
  rfl

theorem Valid.refines_append (hother : other.Valid) (hop : (Operation.append other).Allowed s) :
    Refines s (.append other) (s.append other) .none := by
  obtain ⟨hext, -, -, htaken⟩ := h.append hother
  refine ⟨h.text_append hother hop, congrArg toInt hext.line, fun hfresh => congrArg toInt ?_⟩
  rw [numberOfCharactersConsumed_eq, numberOfCharactersConsumed_eq, htaken hfresh, hext.pushed]

theorem Valid.refines_prepend_iff (hother : other.Valid)
    (hop : (Operation.prepend other).Allowed s) :
    Refines s (.prepend other) (s.prepend other) .none ↔ (Operation.prepend other).Exact s := by
  obtain ⟨hext, -, -, htaken⟩ := h.prepend hother hop.2.2
  refine moves_iff (h.text_prepend hother hop) ?_ (hext.line.trans (Int.add_zero _).symm)
  rw [numberOfCharactersConsumed_eq, numberOfCharactersConsumed_eq, hext.pushed, htaken,
    text_of_unescaped hop.2.1]
  omega

theorem Valid.refines_push_iff (hop : (Operation.push c).Allowed s) :
    Refines s (.push c) (s.push c) .none ↔ (Operation.push c).Exact s := by
  have hsame : (s.push c).taken = s.taken ∧
      (s.push c).currentLineNumber = s.currentLineNumber := by
    rw [SegmentedString.push]
    split <;> exact ⟨rfl, rfl⟩
  refine moves_iff (h.text_push hop) ?_ (hsame.2.trans (Int.add_zero _).symm)
  rw [numberOfCharactersConsumed_eq, numberOfCharactersConsumed_eq, (h.push hop.1 hop.2).2,
    hsame.1, length_append, length_singleton]
  omega

theorem Valid.refines_advanceLine_iff (n : ℤ) :
    (Moves s (s.advanceLine n).1 s.text.tail s.countStep s.lineStep ∧
      Output.lineNumber (toInt (s.advanceLine n).2) = .lineNumber (n + s.lineStep)) ↔
    s.Room s.countStep s.lineStep ∧ toInt (n + s.lineStep) = n + s.lineStep := by
  obtain ⟨-, hmoves, hn⟩ := h.advanceLine n
  rw [hmoves, hn, Output.lineNumber.injEq]

theorem Valid.refines_advanceCount_iff {count : ℕ}
    (hop : (Operation.advanceCount count).Allowed s) :
    Refines s (.advanceCount count) (s.advanceCount count).1
      (.characters (s.advanceCount count).2) ↔ (Operation.advanceCount count).Exact s := by
  obtain ⟨-, ht, hc, hn, hl, -, -⟩ := h.advanceCount (hop.trans h.unsignedLength_le)
  exact (and_iff_left (congrArg Output.characters hc)).trans
    (moves_iff ht hn (hl.trans (Int.add_zero _).symm))

theorem Valid.refines_lookAhead_iff {string : List UChar}
    (hop : (Operation.lookAhead string).Allowed s) (hagrees : Agrees s) :
    Refines s (.lookAhead string) (s.lookAhead string).1 (.found (s.lookAhead string).2) ↔
      (Operation.lookAhead string).Exact s := by
  have hcontents : (s.lookAhead string).1.contents = s.contents ↔
      (s.LooksSlowly string → ¬s.HasUncounted string.length) := by
    rw [(h.lookAhead_contents hop.1).2, contents, Contents.mk.injEq]
    by_cases hslow : s.LooksSlowly string
    · rw [if_pos hslow, recount_eq_iff]
      exact ⟨fun heq _ => heq.1, fun hno => ⟨hno hslow, rfl, rfl⟩⟩
    · rw [if_neg hslow]
      exact iff_of_true ⟨rfl, rfl, rfl⟩ fun hslow' => absurd hslow' hslow
  rw [Refines, hcontents]
  exact and_iff_left ⟨_, rfl, h.lookAhead_result hop.1 hagrees⟩

omit h

theorem refines_copyConstruct_iff (s : SegmentedString) (a b c : ℤ) :
    Refines s (.copyConstruct a b c) (s.copyConstruct a b c) .none ↔
      (Operation.copyConstruct a b c).Exact s := by
  have hconsumed : (s.copyConstruct a b c).numberOfCharactersConsumed =
      a + (s.currentString.numberOfCharactersConsumed - s.pushed.length) :=
    Int.add_sub_assoc ..
  have hsame : s.numberOfCharactersConsumed = s.numberOfCharactersConsumedPriorToCurrentString +
      (s.currentString.numberOfCharactersConsumed - s.pushed.length) := Int.add_sub_assoc ..
  rw [Refines, contents, contents, Contents.mk.injEq, hconsumed, hsame]
  exact ⟨fun heq => ⟨Int.bmod_add_cancel_right _ |>.mp heq.2.1, heq.2.2⟩,
    fun hexact => ⟨rfl, Int.bmod_add_cancel_right _ |>.mpr hexact.1, hexact.2⟩⟩

theorem moves_self (s : SegmentedString) {s' : SegmentedString} {text : List (UChar × Bool)}
    (htext : s'.text = text) (hconsumed : s'.numberOfCharactersConsumed = s.numberOfCharactersConsumed)
    (hline : s'.currentLineNumber = s.currentLineNumber) : Moves s s' text 0 0 :=
  (moves_iff (by exact htext) (hconsumed.trans (Int.add_zero _).symm)
    (hline.trans (Int.add_zero _).symm)).mpr
      ⟨by rw [Int.add_zero]; exact fitsInt_toInt _, by rw [Int.add_zero]; exact fitsInt_toInt _⟩

/-- What the operation does to the text and the counters, where the object says what its text is. -/
theorem Valid.refines_step_iff (h : s.Valid) (hagrees : Agrees s) {op : Operation}
    (hop : op.Allowed s) (hargs : ∀ other ∈ op.operands, other.Valid) :
    Refines s op (s.step op).1 (s.step op).2 ↔ op.Exact s := by
  cases op with
  | append other =>
    exact iff_of_true (h.refines_append (hargs other mem_cons_self) hop) trivial
  | prepend other => exact h.refines_prepend_iff (hargs other mem_cons_self) hop
  | push c => exact h.refines_push_iff hop
  | advance => exact h.moves_advance_iff
  | advanceLine n => exact h.refines_advanceLine_iff n
  | advancePastNewline n =>
    rw [SegmentedString.step, h.advancePastNewline_eq n hop]
    exact h.refines_advanceLine_iff n
  | advancePastNonNewline => exact h.moves_advance_iff
  | advanceCount count => exact h.refines_advanceCount_iff hop
  | lookAhead string => exact h.refines_lookAhead_iff hop hagrees
  | copyConstruct a b c => exact refines_copyConstruct_iff s a b c
  | assign other => exact iff_of_true rfl trivial
  | setExcludeLineNumbers =>
    exact iff_of_true (moves_self s h.setExcludeLineNumbers.2 rfl rfl) trivial
  | close => exact iff_of_true rfl trivial

/-- How long the longer one is of the texts before an operation and after it. -/
theorem Valid.most_eq (h : s.Valid) {op : Operation} (hop : op.Allowed s)
    (hargs : ∀ other ∈ op.operands, other.Valid) :
    max s.characters.length (s.step op).1.characters.length = op.most s := by
  have hlength : ∀ s : SegmentedString, s.characters.length = s.text.length :=
    fun s => length_map _
  have hshrinks : ∀ s' : SegmentedString, s'.text.length ≤ s.text.length →
      max s.characters.length s'.characters.length = s.characters.length := by
    intro s' hle
    rw [hlength, hlength]
    omega
  have htail : ∀ s' : SegmentedString, s'.text = s.text.tail →
      max s.characters.length s'.characters.length = s.characters.length := by
    intro s' htext
    exact hshrinks s' (by rw [htext, length_tail]; omega)
  cases op with
  | append other =>
    rw [Operation.most, SegmentedString.step, hlength, hlength, hlength,
      h.text_append (hargs other mem_cons_self) hop, length_append]
    omega
  | prepend other =>
    rw [Operation.most, SegmentedString.step, hlength, hlength, hlength,
      h.text_prepend (hargs other mem_cons_self) hop, length_append]
    omega
  | push c =>
    rw [Operation.most, SegmentedString.step, hlength, hlength, h.text_push hop, text, length_append,
      length_append, length_cons]
    omega
  | advance => exact htail _ h.advances.text
  | advanceLine n => exact htail _ (h.text_advanceLine n)
  | advancePastNewline n =>
    rw [SegmentedString.step, h.advancePastNewline_eq n hop]
    exact htail _ (h.text_advanceLine n)
  | advancePastNonNewline => exact htail _ h.advances.text
  | advanceCount count =>
    obtain ⟨-, ht, -⟩ := h.advanceCount (hop.trans h.unsignedLength_le)
    exact hshrinks _ (by rw [SegmentedString.step, ht, length_drop]; omega)
  | lookAhead string =>
    refine hshrinks _ (Nat.le_of_eq ?_)
    refine (congrArg List.length (congrArg Contents.text (h.lookAhead_contents hop.1).2)).trans ?_
    dsimp only
    split
    · rw [recount, length_append, length_map, ← length_append, take_append_drop]
    · rfl
  | setExcludeLineNumbers =>
    exact hshrinks _ (by rw [SegmentedString.step, h.setExcludeLineNumbers.2, length_map])
  | assign other => rfl
  | copyConstruct | close => exact Nat.max_self _

/-- Of the objects that sequences of operations make, each says what its text is, and each
operation on it does what it should exactly when it is sound. -/
theorem refines_iff (h : Reachable s) {op : Operation}
    (hop : op.Allowed s) (hargs : ∀ other ∈ op.operands, Reachable other) :
    (Agrees s ∧ Agrees (s.step op).1 ∧ Refines s op (s.step op).1 (s.step op).2) ↔ op.Sound s := by
  have hv := h.valid
  have hvargs : ∀ other ∈ op.operands, other.Valid := fun other hmem => (hargs other hmem).valid
  have hsaid : Agrees s ∧ Agrees (s.step op).1 ↔ op.most s ≤ WTF.StringImpl.maxLength false := by
    rw [hv.agrees_iff, (hv.step hop hvargs).agrees_iff, ← hv.most_eq hop hvargs, Nat.max_le]
  rw [Operation.Sound, ← hsaid, ← and_assoc]
  exact and_congr_right fun hagrees => hv.refines_step_iff hagrees.1 hop hvargs

theorem refines_advance_letter :
    (Agrees (ofString [97]) ∧ Agrees ((ofString [97]).step .advance).1 ∧
      Refines (ofString [97]) .advance ((ofString [97]).step .advance).1
        ((ofString [97]).step .advance).2) ↔ Operation.advance.Sound (ofString [97]) :=
  refines_iff (Reachable.ofString [97] (by decide)) trivial (by simp [Operation.operands])

/-! ### A newline that starts to count -/

/-- A newline that does not count, and a letter. -/
def excludedNewline : SegmentedString :=
  (((ofString [newline]).step .setExcludeLineNumbers).1.step (.append (ofString [97]))).1

theorem reachable_excludedNewline : Reachable excludedNewline := by
  refine Reachable.step (.append (ofString [97])) (Reachable.step .setExcludeLineNumbers
    (Reachable.ofString [newline] (by decide)) trivial (by simp [Operation.operands])) ⟨rfl, rfl⟩ ?_
  intro other hmem
  rw [mem_singleton.mp hmem]
  exact Reachable.ofString [97] (by decide)

/-- Looking for two letters in vain makes the newline count. -/
theorem lookAhead_counts_excluded :
    Reachable excludedNewline ∧ (Operation.lookAhead [98, 98]).Allowed excludedNewline ∧
      excludedNewline.text = [(newline, false), (97, false)] ∧
      (excludedNewline.lookAhead [98, 98]).1.text = [(newline, true), (97, false)] ∧
      ¬Refines excludedNewline (.lookAhead [98, 98])
        (excludedNewline.step (.lookAhead [98, 98])).1
        (excludedNewline.step (.lookAhead [98, 98])).2 := by
  have hbefore : excludedNewline.text = [(newline, false), (97, false)] := by decide
  have hafter : (excludedNewline.lookAhead [98, 98]).1.text = [(newline, true), (97, false)] := by
    decide
  have hallowed : excludedNewline.pushed.length ≤ 2 ∧ 2 ≤ WTF.StringImpl.maxLength false := by
    decide
  refine ⟨reachable_excludedNewline, hallowed, hbefore, hafter, fun h => ?_⟩
  have htext := congrArg Contents.text h.1
  exact absurd htext (by decide)

end SegmentedString

end WebKit.Text
