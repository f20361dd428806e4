import WebKit.Text.SegmentedString

/-!
# The text of a segmented string

What a segmented string stands for: the characters left, each marked when it is a newline that the
line-counting variants count, and the number of characters consumed and the line, as an `int` holds
them (`SegmentedString.contents`).  `SegmentedString.Valid` is what every object keeps.  With it, the fast
path of each `advance` is a case of its slow path, and each operation is an operation on the
contents.
-/

namespace WebKit.Text

open List SegmentedSubstring SegmentedString

/-! ## Substrings -/

namespace SegmentedSubstring

/-- The pointer stands where `m_length` characters are left, and is null when none are. -/
structure Valid (sub : SegmentedSubstring) : Prop where
  length_le : sub.length ≤ sub.string.length
  current_eq : sub.current =
    if sub.length = 0 then none else some (sub.string.length - sub.length)

variable (sub : SegmentedSubstring)

/-- The characters left. -/
def remaining : List UChar :=
  sub.string.drop (sub.string.length - sub.length)

/-- The characters left, with the newlines that count. -/
def marked : List (UChar × Bool) :=
  sub.remaining.map fun c => (c, c == newline && sub.doNotExcludeLineNumbers)

theorem valid_empty : empty.Valid := ⟨Nat.le_refl 0, rfl⟩

theorem valid_ofString (str : List UChar) : (ofString str).Valid := by
  constructor
  · exact Nat.le_refl _
  · cases str with
    | nil => rfl
    | cons c str => simp [ofString]

@[simp] theorem remaining_ofString (str : List UChar) : (ofString str).remaining = str := by
  simp [remaining, ofString]

@[simp] theorem marked_length : sub.marked.length = sub.remaining.length := length_map ..

@[simp] theorem marked_characters : sub.marked.map Prod.fst = sub.remaining := by
  rw [marked, map_map]
  exact map_id _

variable {sub : SegmentedSubstring}

theorem Valid.remaining_length (h : sub.Valid) : sub.remaining.length = sub.length := by
  have hle := h.length_le
  rw [remaining, length_drop]
  omega

theorem remaining_of_length_eq_zero (h : sub.length = 0) : sub.remaining = [] := by
  rw [remaining, h, Nat.sub_zero, drop_length]

theorem marked_of_length_eq_zero (h : sub.length = 0) : sub.marked = [] := by
  rw [marked, remaining_of_length_eq_zero h]
  rfl

variable (sub : SegmentedSubstring)

theorem valid_clear : sub.clear.Valid := ⟨Nat.zero_le _, rfl⟩

@[simp] theorem marked_clear : sub.clear.marked = [] :=
  marked_of_length_eq_zero rfl

@[simp] theorem numberOfCharactersConsumed_clear :
    sub.clear.numberOfCharactersConsumed = sub.string.length := by
  simp [numberOfCharactersConsumed, clear]

variable {sub}

/-- Nothing of the substring was consumed. -/
def Fresh (sub : SegmentedSubstring) : Prop := sub.length = sub.string.length

theorem Fresh.consumed (h : sub.Fresh) : sub.numberOfCharactersConsumed = 0 := by
  rw [numberOfCharactersConsumed, h, Int.sub_self]

variable (h : sub.Valid)

include h

theorem valid_setExcludeLineNumbers :
    sub.setExcludeLineNumbers.Valid := ⟨h.length_le, h.current_eq⟩

/-- The offset of a substring with characters left. -/
theorem Valid.current_of_pos (hpos : sub.length ≠ 0) :
    sub.current = some (sub.string.length - sub.length) := by
  rw [h.current_eq, if_neg hpos]

theorem Valid.charactersAtCurrent {count : ℕ} (hcount : count ≤ sub.length) :
    sub.charactersAtCurrent count = sub.remaining.take count := by
  by_cases hzero : sub.length = 0
  · have hc : count = 0 := by omega
    rw [SegmentedSubstring.charactersAtCurrent, h.current_eq, if_pos hzero, hc, take_zero]
  · rw [SegmentedSubstring.charactersAtCurrent, h.current_of_pos hzero, remaining]

/-- `appendTo` appends what is left. -/
theorem Valid.appendTo (str : List UChar) :
    sub.appendTo str = stringAppend str sub.remaining := by
  rw [SegmentedSubstring.appendTo]
  split
  · rename_i hstart
    rcases hstart with hstart | ⟨-, hnil⟩
    · have hpos : sub.length ≠ 0 := fun hzero => by
        rw [h.current_eq, if_pos hzero] at hstart
        cases hstart
      rw [h.current_of_pos hpos] at hstart
      have hoff : sub.string.length - sub.length = 0 := Option.some_inj.mp hstart
      rw [remaining, hoff, drop_zero]
    · rw [remaining, hnil, drop_nil]
  · rw [h.charactersAtCurrent (Nat.le_refl _), ← h.remaining_length, take_length]

/-- A character taken. -/
theorem Valid.remaining_eq_cons (hpos : sub.length ≠ 0) :
    ∃ c, sub.string[sub.string.length - sub.length]? = some c ∧
      sub.remaining = c :: sub.string.drop (sub.string.length - (sub.length - 1)) := by
  have hle := h.length_le
  have hlt : sub.string.length - sub.length < sub.string.length := by omega
  refine ⟨sub.string[sub.string.length - sub.length], List.getElem?_eq_getElem hlt, ?_⟩
  rw [remaining, drop_eq_getElem_cons hlt]
  congr 2
  omega

end SegmentedSubstring

/-! ## The contents of an object -/

/-- What an object stands for: the text left, with the newlines that count, the number of
characters consumed and the line. -/
structure Contents where
  text : List (UChar × Bool)
  consumed : ℤ
  line : ℤ

namespace SegmentedString

/-- What every object keeps of the characters it stores. -/
structure Stored (s : SegmentedString) : Prop where
  currentString : s.currentString.Valid
  substrings : ∀ sub ∈ s.substrings, sub.Valid ∧ sub.length ≠ 0
  composite : s.currentString.length = 0 → s.substrings = []
  pushedChars : s.pushedChar1 = 0 → s.pushedChar2 = 0

/-- What every object keeps between two operations. -/
structure Valid (s : SegmentedString) : Prop extends Stored s where
  pointer : s.currentChar =
    if s.pushedChar1 ≠ 0 then .pushedChar1 else CharPointer.ofCurrent s.currentString.current

variable (s : SegmentedString)

/-- The text of the current substring and of those after it. -/
def unread : List (UChar × Bool) :=
  s.currentString.marked ++ (s.substrings.map marked).flatten

/-- The text left.  Newlines that were pushed back are not counted. -/
def text : List (UChar × Bool) :=
  s.pushed.map (fun c => (c, false)) ++ s.unread

/-- The characters left. -/
def characters : List UChar := s.text.map Prod.fst

def contents : Contents :=
  ⟨s.text, toInt s.numberOfCharactersConsumed, toInt s.currentLineNumber⟩

theorem valid_empty : empty.Valid :=
  ⟨⟨SegmentedSubstring.valid_empty, by simp [empty], fun _ => rfl, fun _ => rfl⟩, rfl⟩

theorem valid_ofString (str : List UChar) : (ofString str).Valid :=
  ⟨⟨SegmentedSubstring.valid_ofString str, by simp [ofString], fun _ => rfl, fun _ => rfl⟩, rfl⟩

/-- Whether the first character is a newline that counts. -/
def startsWithCounted : Bool :=
  match s.text with
  | (_, counted) :: _ => counted
  | [] => false

variable {s : SegmentedString}

/-- Updating the pointer to the current character makes it right. -/
theorem Stored.updateCurrentChar (h : s.Stored) :
    s.updateCurrentChar.Valid := { h with pointer := rfl }

theorem Valid.updateCurrentChar (h : s.Valid) : s.updateCurrentChar = s := by
  unfold SegmentedString.updateCurrentChar
  rw [← h.pointer]

@[simp] theorem text_updateCurrentChar (s : SegmentedString) :
    s.updateCurrentChar.text = s.text := rfl

theorem pushed_of_not_escaped (h : s.pushedChar1 = 0) : s.pushed = [] :=
  if_pos h

/-- Taking the first pushed back character. -/
theorem pushed_of_escaped (h : s.pushedChar1 ≠ 0) :
    s.pushed = s.pushedChar1 :: s.takePushed.pushed := by
  rw [pushed, if_neg h, takePushed, pushed]
  split <;> simp

theorem text_of_not_escaped (h : s.pushedChar1 = 0) : s.text = s.unread := by
  rw [text, pushed_of_not_escaped h]
  rfl

/-! ### Reading -/

section Read

variable {s : SegmentedString} (h : s.Valid)

include h

/-- The length of the text. -/
theorem Valid.length_eq : s.length = s.text.length := by
  have hsub : (s.substrings.map SegmentedSubstring.length).sum =
      ((s.substrings.map marked).flatten).length := by
    rw [length_flatten, map_map]
    congr 1
    refine map_congr_left fun sub hmem => ?_
    rw [Function.comp_apply, marked_length, (h.substrings sub hmem).1.remaining_length]
  rw [length, text, unread, length_append, length_append, length_map, marked_length, h.currentString.remaining_length]
  omega

/-- `length()` is the length of the text, unless it wraps. -/
theorem Valid.unsignedLength_eq : s.unsignedLength = s.text.length % 2 ^ 32 := by
  rw [unsignedLength, h.length_eq]

theorem Valid.unsignedLength_le : s.unsignedLength ≤ s.text.length :=
  h.unsignedLength_eq ▸ Nat.mod_le _ _

/-- `toString()` is the text that a string can hold. -/
theorem Valid.toString_eq : s.toString = stringAppend [] s.characters := by
  have fold : ∀ (l : List SegmentedSubstring) (str : List UChar), (∀ sub ∈ l, sub.Valid) →
      (stringAppend [] str).bind (l.foldlM fun result it => it.appendTo result) =
        stringAppend [] (str ++ ((l.map marked).flatten).map Prod.fst) := by
    intro l
    induction l with
    | nil =>
      intro str _
      rw [map_nil, flatten_nil, map_nil, append_nil]
      cases stringAppend [] str <;> rfl
    | cons sub l ih =>
      intro str hl
      have htail := ih (str ++ sub.remaining) fun sub' hmem => hl sub' (mem_cons_of_mem _ hmem)
      rw [map_cons, flatten_cons, map_append, marked_characters, ← append_assoc, ← htail]
      by_cases hfits : str.length ≤ WTF.StringImpl.maxLength false
      · rw [stringAppend, nil_append, if_pos hfits, Option.bind_some, foldlM_cons,
          (hl sub mem_cons_self).appendTo]
        rfl
      · have hlong : ¬(str ++ sub.remaining).length ≤ WTF.StringImpl.maxLength false := by
          rw [length_append]
          omega
        rw [stringAppend, nil_append, if_neg hfits, stringAppend, nil_append, if_neg hlong]
        rfl
  rw [toString, h.currentString.appendTo]
  refine (fold s.substrings (s.pushed ++ s.currentString.remaining)
    fun sub hmem => (h.substrings sub hmem).1).trans ?_
  rw [characters, text, unread, map_append, map_append, map_map, marked_characters, append_assoc]
  congr 2
  exact (map_id _).symm

/-- `operator*` is the first character of the text. -/
theorem Valid.current_eq : s.current = s.characters.head? := by
  rw [SegmentedString.current, h.pointer]
  by_cases hp : s.pushedChar1 = 0
  · rw [if_neg (not_not_intro hp), characters, text_of_not_escaped hp, unread, map_append,
      marked_characters]
    by_cases hzero : s.currentString.length = 0
    · rw [h.currentString.current_eq, if_pos hzero, h.composite hzero,
        remaining_of_length_eq_zero hzero]
      rfl
    · obtain ⟨c, hget, hrem⟩ := h.currentString.remaining_eq_cons hzero
      rw [h.currentString.current_of_pos hzero, hrem]
      exact hget
  · rw [if_pos hp, characters, text, pushed_of_escaped hp]
    rfl

theorem Valid.isEmpty_iff : s.isEmpty = true ↔ s.text = [] := by
  rw [isEmpty, h.pointer]
  by_cases hp : s.pushedChar1 = 0
  · rw [if_neg (not_not_intro hp), text_of_not_escaped hp, unread]
    by_cases hzero : s.currentString.length = 0
    · rw [h.currentString.current_eq, if_pos hzero, h.composite hzero,
        marked_of_length_eq_zero hzero]
      exact iff_of_true rfl rfl
    · obtain ⟨c, -, hrem⟩ := h.currentString.remaining_eq_cons hzero
      rw [h.currentString.current_of_pos hzero, marked, hrem]
      exact iff_of_false (fun heq => by cases heq) (by simp)
  · rw [if_pos hp, text, pushed_of_escaped hp]
    exact iff_of_false (fun heq => by cases heq) (by simp)

end Read

/-! ### Advancing -/

theorem advanceSubstring_nil (hsub : s.substrings = []) :
    s.advanceSubstring = { s with currentString := s.currentString.clear } := by
  rw [advanceSubstring]
  split
  · rfl
  · rename_i heq
    rw [hsub] at heq
    cases heq

theorem advanceSubstring_cons (hsub : s.substrings = first :: rest) :
    s.advanceSubstring =
      { s with
        numberOfCharactersConsumedPriorToCurrentString :=
          s.numberOfCharactersConsumedPriorToCurrentString +
            s.currentString.numberOfCharactersConsumed - first.numberOfCharactersConsumed
        currentString := first
        substrings := rest } := by
  rw [advanceSubstring]
  split
  · rename_i heq
    rw [hsub] at heq
    cases heq
  · rename_i heq
    rw [hsub] at heq
    cases heq
    rfl

/-- The fast path does what the slow one would do. -/
theorem advanceFast_eq (hp : s.pushedChar1 = 0) (hlong : s.currentString.length > 1) :
    s.advanceFast = s.stepCurrentString.nextSubstring.updateCurrentChar := by
  have hmore : s.stepCurrentString.currentString.length ≠ 0 := by
    change s.currentString.length - 1 ≠ 0
    omega
  rw [nextSubstring, if_neg hmore, updateCurrentChar,
    if_neg (show ¬s.stepCurrentString.pushedChar1 ≠ 0 from not_not_intro hp)]
  rfl

section Advance

variable {s : SegmentedString} (h : s.Valid)

include h

/-- What every step forward keeps: the text loses its first character, which is consumed. -/
structure Valid.Advances (s s' : SegmentedString) : Prop where
  valid : s'.Valid
  text : s'.text = s.text.tail
  consumed : s'.numberOfCharactersConsumed =
    s.numberOfCharactersConsumed + if s.text = [] then 0 else 1
  line : s'.currentLineNumber = s.currentLineNumber
  priorToLine : s'.numberOfCharactersConsumedPriorToCurrentLine =
    s.numberOfCharactersConsumedPriorToCurrentLine
  closed : s'.closed = s.closed

theorem Valid.advances_takePushed (hp : s.pushedChar1 ≠ 0) :
    Valid.Advances s s.takePushed.updateCurrentChar := by
  have htext : s.text = (s.pushedChar1, false) :: s.takePushed.text := by
    rw [text, pushed_of_escaped hp]
    rfl
  constructor
  · exact Stored.updateCurrentChar ⟨h.currentString, h.substrings, h.composite, fun _ => rfl⟩
  · rw [htext]
    rfl
  · rw [if_neg (by rw [htext]; exact cons_ne_nil _ _), numberOfCharactersConsumed,
      numberOfCharactersConsumed, pushed_of_escaped hp, length_cons]
    change _ + _ - (s.takePushed.pushed.length : ℤ) = _
    change s.numberOfCharactersConsumedPriorToCurrentString +
      s.currentString.numberOfCharactersConsumed - _ = _
    omega
  all_goals rfl

/-- The end of a text is left as it is. -/
theorem Valid.advances_end (hp : s.pushedChar1 = 0) (hzero : s.currentString.length = 0) :
    Valid.Advances s s := by
  have htext : s.text = [] := by
    rw [text_of_not_escaped hp, unread, h.composite hzero, marked_of_length_eq_zero hzero]
    rfl
  constructor
  · exact h
  · rw [htext]
    rfl
  · rw [if_pos htext, Int.add_zero]
  all_goals rfl

/-- A step inside the current substring, or from its end to the next one. -/
theorem Valid.advances_step (hp : s.pushedChar1 = 0) (hpos : s.currentString.length ≠ 0) :
    Valid.Advances s s.stepCurrentString.nextSubstring.updateCurrentChar := by
  obtain ⟨c, hget, hrem⟩ := h.currentString.remaining_eq_cons hpos
  have hcur := h.currentString.current_of_pos hpos
  have hle := h.currentString.length_le
  have htext : s.text = (c, c == newline && s.currentString.doNotExcludeLineNumbers) ::
      (s.stepCurrentString.currentString.marked ++ (s.substrings.map marked).flatten) := by
    rw [text_of_not_escaped hp, unread, marked, hrem]
    rfl
  have hconsumed : s.currentString.numberOfCharactersConsumed + 1 =
      s.stepCurrentString.currentString.numberOfCharactersConsumed := by
    simp only [SegmentedSubstring.numberOfCharactersConsumed, stepCurrentString]
    omega
  have hcount : s.numberOfCharactersConsumed = s.numberOfCharactersConsumedPriorToCurrentString +
      s.currentString.numberOfCharactersConsumed - (s.pushed.length : ℤ) := rfl
  have hone : (if s.text = [] then (0 : ℤ) else 1) = 1 :=
    if_neg (by rw [htext]; exact cons_ne_nil _ _)
  by_cases hlast : s.currentString.length = 1
  · have hend : s.stepCurrentString.currentString.length = 0 := by
      change s.currentString.length - 1 = 0
      omega
    have hmarked := marked_of_length_eq_zero hend
    rw [nextSubstring, if_pos hend]
    cases hsub : s.substrings with
    | nil =>
      have hclear : s.stepCurrentString.currentString.clear.numberOfCharactersConsumed =
          s.stepCurrentString.currentString.numberOfCharactersConsumed := by
        rw [numberOfCharactersConsumed_clear, SegmentedSubstring.numberOfCharactersConsumed, hend]
        exact (Int.sub_zero _).symm
      rw [advanceSubstring_nil (s := s.stepCurrentString) hsub]
      constructor
      · exact Stored.updateCurrentChar ⟨valid_clear _, h.substrings, fun _ => hsub, h.pushedChars⟩
      · rw [htext, hmarked]
        rw [text_updateCurrentChar, text_of_not_escaped (s := { s.stepCurrentString with
          currentString := s.stepCurrentString.currentString.clear }) hp]
        change s.stepCurrentString.currentString.clear.marked ++
          (s.substrings.map marked).flatten = _
        rw [hsub, marked_clear]
        rfl
      · rw [hone]
        change s.numberOfCharactersConsumedPriorToCurrentString +
          s.stepCurrentString.currentString.clear.numberOfCharactersConsumed -
            (s.pushed.length : ℤ) = s.numberOfCharactersConsumed + 1
        omega
      all_goals rfl
    | cons first rest =>
      have hfirst := h.substrings first (hsub ▸ mem_cons_self)
      rw [advanceSubstring_cons (s := s.stepCurrentString) hsub]
      constructor
      · refine Stored.updateCurrentChar ⟨hfirst.1, fun sub hmem => ?_,
          fun hzero => absurd hzero hfirst.2, h.pushedChars⟩
        exact h.substrings sub (hsub ▸ mem_cons_of_mem _ hmem)
      · rw [htext, hmarked, hsub]
        exact text_of_not_escaped hp
      · rw [hone]
        change s.numberOfCharactersConsumedPriorToCurrentString +
          s.stepCurrentString.currentString.numberOfCharactersConsumed -
            first.numberOfCharactersConsumed + first.numberOfCharactersConsumed -
              (s.pushed.length : ℤ) = s.numberOfCharactersConsumed + 1
        omega
      all_goals rfl
  · have hmore : s.stepCurrentString.currentString.length ≠ 0 := by
      change s.currentString.length - 1 ≠ 0
      omega
    rw [nextSubstring, if_neg hmore]
    constructor
    · refine Stored.updateCurrentChar ⟨⟨?_, ?_⟩, h.substrings, fun hzero => absurd hzero hmore,
        h.pushedChars⟩
      · change s.currentString.length - 1 ≤ s.currentString.string.length
        omega
      · rw [if_neg hmore]
        change s.currentString.current.map (· + 1) = some (s.currentString.string.length -
          (s.currentString.length - 1))
        rw [hcur, Option.map_some, Option.some_inj]
        omega
    · rw [htext]
      exact text_of_not_escaped hp
    · rw [hone]
      change s.numberOfCharactersConsumedPriorToCurrentString +
        s.stepCurrentString.currentString.numberOfCharactersConsumed - (s.pushed.length : ℤ) =
          s.numberOfCharactersConsumed + 1
      omega
    all_goals rfl

theorem Valid.advances_slow : Valid.Advances s s.advanceSlowCase := by
  rw [advanceSlowCase]
  by_cases hp : s.pushedChar1 = 0
  · rw [if_neg (not_not_intro hp)]
    by_cases hzero : s.currentString.length = 0
    · rw [h.currentString.current_eq, if_pos hzero, if_neg (by simp), h.updateCurrentChar]
      exact h.advances_end hp hzero
    · rw [h.currentString.current_of_pos hzero]
      exact h.advances_step hp hzero
  · rw [if_pos hp]
    exact h.advances_takePushed hp

theorem Valid.advance_eq_slow : s.advance = s.advanceSlowCase := by
  rw [advance]
  split
  · rename_i hfast
    have hpos : s.currentString.length ≠ 0 := by omega
    rw [advanceFast_eq hfast.1 hfast.2, advanceSlowCase, if_neg (not_not_intro hfast.1),
      h.currentString.current_of_pos hpos, if_pos (by simp)]
  · rfl

/-- `advance()` takes the first character. -/
theorem Valid.advances : Valid.Advances s s.advance := by
  rw [h.advance_eq_slow]
  exact h.advances_slow

/-! ### Advancing with a line number -/

theorem Valid.startsWithCounted_eq (hp : s.pushedChar1 = 0) : s.startsWithCounted =
      (s.currentStringStartsWith newline && s.currentString.doNotExcludeLineNumbers) := by
  by_cases hzero : s.currentString.length = 0
  · have htext : s.text = [] := by
      rw [text_of_not_escaped hp, unread, h.composite hzero, marked_of_length_eq_zero hzero]
      rfl
    rw [startsWithCounted, htext, currentStringStartsWith, h.currentString.current_eq, if_pos hzero]
    rfl
  · obtain ⟨c, hget, hrem⟩ := h.currentString.remaining_eq_cons hzero
    rw [startsWithCounted, text_of_not_escaped hp, unread, marked, hrem,
      currentStringStartsWith, h.currentString.current_of_pos hzero]
    dsimp only
    rw [hget]
    rfl

omit h in
theorem startsWithCounted_of_escaped (hp : s.pushedChar1 ≠ 0) : s.startsWithCounted = false := by
  rw [startsWithCounted, text, pushed_of_escaped hp]
  rfl

theorem Valid.countNewline : s.countNewline.Valid :=
  { h with }

theorem Valid.advanceSlowCaseLine_eq (lineNumber : ℤ) : s.advanceSlowCaseLine lineNumber =
      if s.startsWithCounted then (s.countNewline.advanceSlowCase, lineNumber + 1)
      else (s.advanceSlowCase, lineNumber) := by
  by_cases hp : s.pushedChar1 = 0
  · have hslow : ∀ s' : SegmentedString, s'.pushedChar1 = 0 → s'.currentString.current.isSome →
        s'.advanceSlowCase = s'.stepCurrentString.nextSubstring.updateCurrentChar := by
      intro s' hp' hsome
      rw [advanceSlowCase, if_neg (not_not_intro hp'), if_pos hsome]
    rw [advanceSlowCaseLine, if_neg (not_not_intro hp), ← h.startsWithCounted_eq hp]
    by_cases hsome : s.currentString.current.isSome
    · rw [if_pos hsome, hslow s hp hsome, hslow s.countNewline hp hsome]
    · have hstart : s.startsWithCounted = false := by
        rw [h.startsWithCounted_eq hp, currentStringStartsWith, Option.not_isSome_iff_eq_none.mp
          hsome]
        rfl
      rw [if_neg hsome, hstart, if_neg (by simp), advanceSlowCase, if_neg (not_not_intro hp),
        if_neg hsome]
  · rw [startsWithCounted_of_escaped hp, if_neg (by simp), advanceSlowCaseLine, if_pos hp,
      advanceSlowCase, if_pos hp]

/-- `advance(int& lineNumber)` counts a newline that counts, and advances. -/
theorem Valid.advanceLine_eq (lineNumber : ℤ) : s.advanceLine lineNumber =
      if s.startsWithCounted then (s.countNewline.advance, lineNumber + 1)
      else (s.advance, lineNumber) := by
  rw [h.countNewline.advance_eq_slow, h.advance_eq_slow, ← h.advanceSlowCaseLine_eq, advanceLine]
  split
  · rename_i hfast
    have hpos : s.currentString.length ≠ 0 := by omega
    have hsome : s.currentString.current.isSome := by
      rw [h.currentString.current_of_pos hpos]
      rfl
    rw [advanceSlowCaseLine, if_neg (not_not_intro hfast.1), if_pos hsome,
      advanceFast_eq hfast.1 hfast.2, advanceFast_eq (s := s.countNewline) hfast.1 hfast.2]
  · rfl

/-- At a newline, `advancePastNewline` does what `advance(int& lineNumber)` does. -/
theorem Valid.advancePastNewline_eq (lineNumber : ℤ) (hnewline : s.current = some newline) :
    s.advancePastNewline lineNumber = s.advanceLine lineNumber := by
  rw [advancePastNewline, advanceLine]
  split
  · rename_i hfast
    have hpos : s.currentString.length ≠ 0 := by omega
    have hstart : s.currentStringStartsWith newline = true := by
      rw [SegmentedString.current, h.pointer, if_neg (not_not_intro hfast.1),
        h.currentString.current_of_pos hpos] at hnewline
      rw [currentStringStartsWith, h.currentString.current_of_pos hpos]
      exact beq_iff_eq.mpr hnewline
    rw [hstart, Bool.true_and]
  · rfl

/-- A step forward that counts a newline. -/
theorem Valid.advances_countNewline :
    s.countNewline.advance.Valid ∧ s.countNewline.advance.text = s.text.tail ∧
      s.countNewline.advance.numberOfCharactersConsumed = s.advance.numberOfCharactersConsumed ∧
      s.countNewline.advance.currentLineNumber = s.currentLineNumber + 1 := by
  have hadv := h.countNewline.advances
  refine ⟨hadv.valid, hadv.text, ?_, hadv.line⟩
  rw [hadv.consumed, h.advances.consumed]
  rfl

end Advance

/-! ### Pushing back -/

theorem Valid.push (h : s.Valid) (hc : c ≠ 0) (hroom : s.pushedChar2 = 0) :
    (s.push c).Valid ∧ (s.push c).pushed = s.pushed ++ [c] := by
  by_cases hp : s.pushedChar1 = 0
  · rw [SegmentedString.push, if_pos hp]
    refine ⟨Stored.updateCurrentChar ⟨h.currentString, h.substrings, h.composite, fun _ => hroom⟩,
      ?_⟩
    rw [pushed_of_not_escaped hp]
    change (if c = 0 then [] else if s.pushedChar2 = 0 then [c] else [c, s.pushedChar2]) = [c]
    rw [if_neg hc, if_pos hroom]
  · have hone : s.pushed = [s.pushedChar1] := by rw [pushed, if_neg hp, if_pos hroom]
    rw [SegmentedString.push, if_neg hp, hone]
    refine ⟨⟨⟨h.currentString, h.substrings, h.composite, fun hnil => absurd hnil hp⟩, ?_⟩, ?_⟩
    · rw [h.pointer]
    · change (if s.pushedChar1 = 0 then [] else if c = 0 then [s.pushedChar1]
        else [s.pushedChar1, c]) = _
      rw [if_neg hp, if_neg hc]
      rfl

/-! ### Appending and prepending -/

/-- What appending and prepending leave as it is. -/
structure Extends (s s' : SegmentedString) : Prop where
  stored : s'.Stored
  pushedChar1 : s'.pushedChar1 = s.pushedChar1
  pushedChar2 : s'.pushedChar2 = s.pushedChar2
  line : s'.currentLineNumber = s.currentLineNumber
  priorToLine : s'.numberOfCharactersConsumedPriorToCurrentLine =
    s.numberOfCharactersConsumedPriorToCurrentLine
  closed : s'.closed = s.closed

theorem Extends.refl (h : s.Stored) : Extends s s :=
  ⟨h, rfl, rfl, rfl, rfl, rfl⟩

theorem Extends.trans {s' s'' : SegmentedString} (h : Extends s s') (h' : Extends s' s'') :
    Extends s s'' :=
  ⟨h'.stored, h'.pushedChar1.trans h.pushedChar1, h'.pushedChar2.trans h.pushedChar2,
    h'.line.trans h.line, h'.priorToLine.trans h.priorToLine, h'.closed.trans h.closed⟩

theorem Extends.pushed {s' : SegmentedString} (h : Extends s s') : s'.pushed = s.pushed := by
  rw [SegmentedString.pushed, SegmentedString.pushed, h.pushedChar1, h.pushedChar2]

/-- The number of characters consumed, before those pushed back are taken off. -/
def taken (s : SegmentedString) : ℤ :=
  s.numberOfCharactersConsumedPriorToCurrentString + s.currentString.numberOfCharactersConsumed

theorem numberOfCharactersConsumed_eq (s : SegmentedString) :
    s.numberOfCharactersConsumed = s.taken - s.pushed.length := rfl

/-- The end of the object is reached when the current substring is. -/
theorem Stored.unread_of_end (h : s.Stored) (hzero : s.currentString.length = 0) :
    s.unread = [] := by
  rw [unread, h.composite hzero, marked_of_length_eq_zero hzero]
  rfl

variable {sub : SegmentedSubstring} {other : SegmentedString}

theorem Stored.appendSubstring (h : s.Stored) (hsub : sub.Valid) :
    Extends s (s.appendSubstring sub) ∧ (s.appendSubstring sub).unread = s.unread ++ sub.marked ∧
      (sub.Fresh → (s.appendSubstring sub).taken = s.taken) := by
  by_cases hnone : sub.length = 0
  · rw [SegmentedString.appendSubstring, if_pos hnone, marked_of_length_eq_zero hnone, append_nil]
    exact ⟨Extends.refl h, rfl, fun _ => rfl⟩
  · rw [SegmentedString.appendSubstring, if_neg hnone]
    by_cases hzero : s.currentString.length = 0
    · rw [if_pos hzero, h.unread_of_end hzero]
      refine ⟨⟨⟨hsub, h.substrings, fun hz => absurd hz hnone, h.pushedChars⟩, rfl, rfl, rfl, rfl,
        rfl⟩, ?_, fun hfresh => ?_⟩
      · rw [h.composite hzero]
        exact append_nil _
      · change s.numberOfCharactersConsumedPriorToCurrentString +
          s.currentString.numberOfCharactersConsumed + sub.numberOfCharactersConsumed = _
        rw [hfresh.consumed, Int.add_zero]
        rfl
    · rw [if_neg hzero]
      refine ⟨⟨⟨h.currentString, fun sub' hmem => ?_, fun hz => absurd hz hzero, h.pushedChars⟩, rfl,
        rfl, rfl, rfl, rfl⟩, ?_, fun _ => rfl⟩
      · rcases mem_append.mp hmem with hmem | hmem
        · exact h.substrings sub' hmem
        · rw [mem_singleton.mp hmem]
          exact ⟨hsub, hnone⟩
      · change s.currentString.marked ++ ((s.substrings ++ [sub]).map marked).flatten = _
        rw [unread]
        simp

theorem Stored.prependSubstring (h : s.Stored) (hsub : sub.Valid)
    (hfresh : sub.Fresh) :
    Extends s (s.prependSubstring sub) ∧ (s.prependSubstring sub).unread = sub.marked ++ s.unread ∧
      (s.prependSubstring sub).taken = s.taken - sub.length := by
  by_cases hnone : sub.length = 0
  · rw [SegmentedString.prependSubstring, marked_of_length_eq_zero hnone, hnone]
    exact ⟨Extends.refl h, rfl, (Int.sub_zero _).symm⟩
  · rw [SegmentedString.prependSubstring, if_neg hnone]
    by_cases hzero : s.currentString.length = 0
    · rw [if_pos hzero, h.unread_of_end hzero]
      refine ⟨⟨⟨hsub, h.substrings, fun hz => absurd hz hnone, h.pushedChars⟩, rfl, rfl, rfl, rfl,
        rfl⟩, ?_, ?_⟩
      · rw [h.composite hzero]
        rfl
      · change s.taken - sub.length + sub.numberOfCharactersConsumed = _
        rw [hfresh.consumed, Int.add_zero]
    · rw [if_neg hzero]
      refine ⟨⟨⟨hsub, fun sub' hmem => ?_, fun hz => absurd hz hnone, h.pushedChars⟩, rfl, rfl, rfl,
        rfl, rfl⟩, ?_, ?_⟩
      · rcases mem_cons.mp hmem with rfl | hmem
        · exact ⟨h.currentString, hzero⟩
        · exact h.substrings sub' hmem
      · rfl
      · change s.taken - sub.length + sub.numberOfCharactersConsumed = _
        rw [hfresh.consumed, Int.add_zero]

/-- Nothing of the object was consumed. -/
structure Fresh (s : SegmentedString) : Prop where
  currentString : s.currentString.Fresh
  substrings : ∀ sub ∈ s.substrings, sub.Fresh

/-- Appending the substrings one after the other. -/
theorem Stored.appendSubstrings : ∀ {subs : List SegmentedSubstring} {s : SegmentedString},
    s.Stored → (∀ sub ∈ subs, sub.Valid) →
      Extends s (subs.foldl SegmentedString.appendSubstring s) ∧
      (subs.foldl SegmentedString.appendSubstring s).unread =
        s.unread ++ (subs.map marked).flatten ∧
      ((∀ sub ∈ subs, sub.Fresh) → (subs.foldl SegmentedString.appendSubstring s).taken = s.taken)
  | [], s, h, _ => ⟨Extends.refl h, (append_nil _).symm, fun _ => rfl⟩
  | sub :: subs, s, h, hsubs => by
    obtain ⟨hext, hunread, htaken⟩ := h.appendSubstring (hsubs sub mem_cons_self)
    obtain ⟨hext', hunread', htaken'⟩ := Stored.appendSubstrings hext.stored
      fun sub' hmem => hsubs sub' (mem_cons_of_mem _ hmem)
    refine ⟨hext.trans hext', ?_, fun hfresh => ?_⟩
    · rw [foldl_cons, hunread', hunread, map_cons, flatten_cons, append_assoc]
    · rw [foldl_cons, htaken' fun sub' hmem => hfresh sub' (mem_cons_of_mem _ hmem),
        htaken (hfresh sub mem_cons_self)]

/-- Prepending the substrings of a list from the last one to the first. -/
theorem Stored.prependSubstrings : ∀ {subs : List SegmentedSubstring} {s : SegmentedString},
    s.Stored → (∀ sub ∈ subs, sub.Valid) → (∀ sub ∈ subs, sub.Fresh) →
      Extends s (subs.reverse.foldl SegmentedString.prependSubstring s) ∧
      (subs.reverse.foldl SegmentedString.prependSubstring s).unread =
        (subs.map marked).flatten ++ s.unread ∧
      (subs.reverse.foldl SegmentedString.prependSubstring s).taken =
        s.taken - ((subs.map marked).flatten.length : ℤ)
  | [], s, h, _, _ => ⟨Extends.refl h, rfl, (Int.sub_zero _).symm⟩
  | sub :: subs, s, h, hsubs, hfresh => by
    obtain ⟨hext, hunread, htaken⟩ := Stored.prependSubstrings h
      (fun sub' hmem => hsubs sub' (mem_cons_of_mem _ hmem))
      fun sub' hmem => hfresh sub' (mem_cons_of_mem _ hmem)
    have hsub := hsubs sub mem_cons_self
    obtain ⟨hext', hunread', htaken'⟩ := hext.stored.prependSubstring hsub
      (hfresh sub mem_cons_self)
    rw [reverse_cons, foldl_append, foldl_cons, foldl_nil]
    refine ⟨hext.trans hext', ?_, ?_⟩
    · rw [hunread', hunread, map_cons, flatten_cons, append_assoc]
    · rw [map_cons, flatten_cons, length_append, marked_length, hsub.remaining_length]
      omega

/-- `append` puts the text of the other object after the text. -/
theorem Valid.append (h : s.Valid) (hother : other.Valid) :
    Extends s (s.append other) ∧ (s.append other).Valid ∧
      (s.append other).unread = s.unread ++ other.unread ∧
      (other.Fresh → (s.append other).taken = s.taken) := by
  obtain ⟨hext, hunread, htaken⟩ := h.toStored.appendSubstring hother.currentString
  obtain ⟨hext', hunread', htaken'⟩ := hext.stored.appendSubstrings
    fun sub hmem => (hother.substrings sub hmem).1
  have hall := hext.trans hext'
  have hvalid := hall.stored.updateCurrentChar
  refine ⟨{ hall with stored := hvalid.toStored }, hvalid, ?_, fun hfresh => ?_⟩
  · refine hunread'.trans ?_
    rw [hunread, append_assoc]
    rfl
  · exact (htaken' hfresh.substrings).trans (htaken hfresh.currentString)

/-- `prepend` puts a text nothing of which was consumed before the text. -/
theorem Valid.prepend (h : s.Valid) (hother : other.Valid)
    (hfresh : other.Fresh) :
    Extends s (s.prepend other) ∧ (s.prepend other).Valid ∧
      (s.prepend other).unread = other.unread ++ s.unread ∧
      (s.prepend other).taken = s.taken - (other.unread.length : ℤ) := by
  obtain ⟨hext, hunread, htaken⟩ := h.toStored.prependSubstrings
    (fun sub hmem => (hother.substrings sub hmem).1) hfresh.substrings
  obtain ⟨hext', hunread', htaken'⟩ := hext.stored.prependSubstring hother.currentString
    hfresh.currentString
  have hall := hext.trans hext'
  have hvalid := hall.stored.updateCurrentChar
  refine ⟨{ hall with stored := hvalid.toStored }, hvalid, ?_, ?_⟩
  · refine hunread'.trans ?_
    rw [hunread, ← append_assoc]
    rfl
  · refine htaken'.trans ?_
    rw [unread, length_append, marked_length, hother.currentString.remaining_length]
    omega

/-! ### Looking ahead -/

/-- `advance(count, consumedCharacters)` takes the first characters and writes them. -/
theorem Valid.advanceCount : ∀ {s : SegmentedString} {count : ℕ}, s.Valid →
    count ≤ s.text.length → (s.advanceCount count).1.Valid ∧
      (s.advanceCount count).1.text = s.text.drop count ∧
      (s.advanceCount count).2 = s.characters.take count ∧
      (s.advanceCount count).1.numberOfCharactersConsumed = s.numberOfCharactersConsumed + count ∧
      (s.advanceCount count).1.currentLineNumber = s.currentLineNumber ∧
      (s.advanceCount count).1.numberOfCharactersConsumedPriorToCurrentLine =
        s.numberOfCharactersConsumedPriorToCurrentLine ∧
      (s.advanceCount count).1.closed = s.closed
  | s, 0, h, _ => ⟨h, rfl, rfl, (Int.add_zero _).symm, rfl, rfl, rfl⟩
  | s, count + 1, h, hle => by
    have hadv := h.advances
    obtain ⟨e, rest, htext⟩ : ∃ e rest, s.text = e :: rest := exists_cons_of_length_pos (by omega)
    have htail : s.advance.text = rest := by rw [hadv.text, htext]; rfl
    rw [htext, length_cons] at hle
    have hle' : count ≤ s.advance.text.length := by
      rw [htail]
      omega
    obtain ⟨hv, ht, hc, hn, hl, hp, hcl⟩ := Valid.advanceCount hadv.valid hle'
    refine ⟨hv, ?_, ?_, ?_, hl.trans hadv.line, hp.trans hadv.priorToLine, hcl.trans hadv.closed⟩
    · rw [SegmentedString.advanceCount, ht, htail, htext]
      rfl
    · rw [SegmentedString.advanceCount, hc, h.current_eq, characters, characters, htail, htext]
      rfl
    · rw [SegmentedString.advanceCount, hn, hadv.consumed, if_neg (by rw [htext]; simp)]
      omega

theorem pushed_nextSubstring (s : SegmentedString) : s.nextSubstring.pushed = s.pushed := by
  rw [nextSubstring]
  split
  · rw [advanceSubstring]
    split <;> rfl
  · rfl

theorem Valid.pushed_advance (h : s.Valid) : s.advance.pushed = s.pushed.tail := by
  rw [h.advance_eq_slow, advanceSlowCase]
  by_cases hp : s.pushedChar1 = 0
  · rw [if_neg (not_not_intro hp), pushed_of_not_escaped hp]
    split
    · exact (pushed_nextSubstring s.stepCurrentString).trans (pushed_of_not_escaped hp)
    · exact pushed_of_not_escaped hp
  · rw [if_pos hp, pushed_of_escaped hp]
    rfl

theorem pushedChar1_of_pushed (h : s.pushed = []) : s.pushedChar1 = 0 := by
  by_contra hp
  rw [pushed_of_escaped hp] at h
  cases h

/-- What is pushed back is taken first. -/
theorem Valid.pushed_advanceCount : ∀ {s : SegmentedString} {count : ℕ}, s.Valid →
    (s.advanceCount count).1.pushed = s.pushed.drop count
  | _, 0, _ => rfl
  | s, count + 1, h => by
    refine (Valid.pushed_advanceCount h.advances.valid).trans ?_
    rw [h.pushed_advance, drop_tail]

/-- The text as it is after a slow look-ahead: every newline looked at counts. -/
def recount (text : List (UChar × Bool)) (count : ℕ) : List (UChar × Bool) :=
  (text.take count).map (fun e => (e.1, e.1 == newline)) ++ text.drop count

/-- The slow look-ahead over text that is there. -/
theorem Valid.lookAheadSlowCase (h : s.Valid) (equals : List UChar → List UChar → Bool)
    {string : List UChar} (hpushed : s.pushed.length ≤ string.length)
    (henough : string.length ≤ s.unsignedLength) :
    (s.lookAheadSlowCase equals string).1.Valid ∧
      (s.lookAheadSlowCase equals string).1.text = recount s.text string.length ∧
      (s.lookAheadSlowCase equals string).1.numberOfCharactersConsumed =
        s.numberOfCharactersConsumed ∧
      (s.lookAheadSlowCase equals string).1.currentLineNumber = s.currentLineNumber ∧
      (s.lookAheadSlowCase equals string).2 =
        if equals string (s.characters.take string.length) then .didMatch else .didNotMatch := by
  have hlen := henough.trans h.unsignedLength_le
  obtain ⟨hv, ht, hc, hn, hl, -, -⟩ := h.advanceCount hlen
  have hp1 : (s.advanceCount string.length).1.pushed = [] := by
    rw [h.pushed_advanceCount, drop_eq_nil_of_le hpushed]
  obtain ⟨hext, hv', hunread, htaken⟩ := hv.prepend
    (valid_ofString (s.advanceCount string.length).2) ⟨rfl, by simp [ofString]⟩
  have hback : (ofString (s.advanceCount string.length).2).unread =
      (s.text.take string.length).map fun e => (e.1, e.1 == newline) := by
    rw [hc, characters, ← map_take]
    change (SegmentedSubstring.ofString _).marked ++ [] = _
    rw [append_nil, marked, remaining_ofString, map_map]
    refine map_congr_left fun e _ => ?_
    exact Prod.ext rfl (Bool.and_true _)
  rw [SegmentedString.lookAheadSlowCase, if_neg (Nat.not_lt.mpr henough)]
  refine ⟨hv', ?_, ?_, ?_, ?_⟩
  · have hp := pushedChar1_of_pushed (hext.pushed.trans hp1)
    rw [text_of_not_escaped hp, hunread, hback,
      ← text_of_not_escaped (pushedChar1_of_pushed hp1), ht]
    rfl
  · rw [numberOfCharactersConsumed_eq, hext.pushed, htaken, hback, hp1]
    rw [numberOfCharactersConsumed_eq, hp1] at hn
    rw [length_map, length_take, Nat.min_eq_left hlen]
    omega
  · exact hext.line.trans hl
  · dsimp only
    rw [hc]

end SegmentedString

end WebKit.Text
