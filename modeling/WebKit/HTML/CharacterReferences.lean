import WebKit.HTML.HTMLEntityParser

/-!
# Character references in plain text

What `consumeHTMLEntity` does to the characters left is what `readReference` says
(`consumeHTMLEntity_spells`), and more text after a reference that was read does not change it
(`readReference_append`).

Giving characters back by `push` is right only when nothing is pushed back already.  This holds
because of what can be pushed back: two characters that a reference starts with, so that a later
call consumes both of them or none (`KeepsReading`).
-/

namespace WebKit.HTML

open Text
open Text.SegmentedString (Valid)
open List SegmentedString HTMLEntitySearch

/-! ## The characters of a segmented string -/

/-- The string has these characters left. -/
structure Spells (source : SegmentedString) (text : List UChar) (closed : Bool) : Prop where
  valid : source.Valid
  characters : source.characters = text
  closed : source.closed = closed

section Spells

variable {source : SegmentedString} {text : List UChar} {closed : Bool}

variable (h : Spells source text closed)

include h

theorem Spells.current_eq : source.current = text.head? := by
  rw [h.valid.current_eq, h.characters]

theorem Spells.length_eq : source.length = text.length := by
  rw [h.valid.length_eq, ← h.characters, SegmentedString.characters, length_map]

theorem Spells.text_length : source.text.length = text.length := by
  rw [← h.valid.length_eq, h.length_eq]

theorem Spells.isEmpty_iff : source.isEmpty = true ↔ text = [] := by
  rw [h.valid.isEmpty_iff, ← h.characters, SegmentedString.characters, map_eq_nil_iff]

theorem Spells.advance :
    Spells source.advance text.tail closed := by
  have hadv := h.valid.advances
  refine ⟨hadv.valid, ?_, hadv.closed.trans h.closed⟩
  rw [SegmentedString.characters, hadv.text, map_tail]
  exact congrArg List.tail h.characters

theorem Spells.advanceCount {count : ℕ} (hcount : count ≤ text.length) :
    Spells (source.advanceCount count).1 (text.drop count) closed ∧
      (source.advanceCount count).2 = text.take count := by
  have hle : count ≤ source.text.length := by rwa [h.text_length]
  obtain ⟨hv, ht, hc, -, -, -, hcl⟩ := h.valid.advanceCount hle
  refine ⟨⟨hv, ?_, hcl.trans h.closed⟩, by rw [hc, h.characters]⟩
  rw [SegmentedString.characters, ht, map_drop]
  exact congrArg (List.drop count) h.characters

omit h in
theorem pushed_length_le (source : SegmentedString) : source.pushed.length ≤ 2 := by
  rw [pushed]
  split
  · exact Nat.zero_le _
  · split <;> simp

theorem Spells.pushed_prefix : source.pushed <+: text := by
  rw [← h.characters, SegmentedString.characters, SegmentedString.text, map_append, map_map]
  exact ⟨_, congrArg (· ++ _) (map_id' source.pushed).symm⟩

variable (hp : source.pushed = [])

include hp

theorem Spells.push {c : UChar}
    (hc : c ≠ 0) : Spells (source.push c) (c :: text) closed ∧ (source.push c).pushed = [c] := by
  have hp1 := pushedChar1_of_pushed hp
  obtain ⟨hv, hpushed⟩ := h.valid.push hc (h.valid.pushedChars hp1)
  rw [hp] at hpushed
  refine ⟨⟨hv, ?_, ?_⟩, hpushed⟩
  · rw [SegmentedString.characters, SegmentedString.text, hpushed, ← h.characters,
      SegmentedString.characters, SegmentedString.text, hp]
    rw [SegmentedString.push, if_pos hp1]
    rfl
  · rw [SegmentedString.push, if_pos hp1]
    exact h.closed

theorem Spells.push_push {c d : UChar} (hc : c ≠ 0) (hd : d ≠ 0) :
    Spells ((source.push c).push d) (c :: d :: text) closed ∧
      ((source.push c).push d).pushed = [c, d] := by
  have hp1 := pushedChar1_of_pushed hp
  obtain ⟨hone, hpushed⟩ := h.push hp hc
  have hchar1 : (source.push c).pushedChar1 = c := by
    rw [SegmentedString.push, if_pos hp1]
    rfl
  have hroom : (source.push c).pushedChar2 = 0 := by
    rw [SegmentedString.push, if_pos hp1]
    exact h.valid.pushedChars hp1
  obtain ⟨hv, hpushed'⟩ := hone.valid.push hd hroom
  rw [hpushed] at hpushed'
  have hpush : (source.push c).push d = { source.push c with pushedChar2 := d } := by
    rw [SegmentedString.push, if_neg (by rwa [hchar1])]
  refine ⟨⟨hv, ?_, ?_⟩, hpushed'⟩
  · have hchars := hone.characters
    rw [SegmentedString.characters, SegmentedString.text, hpushed, map_append] at hchars
    have hrest : (source.push c).unread.map Prod.fst = text := (cons_inj_right c).mp hchars
    rw [SegmentedString.characters, SegmentedString.text, hpushed', map_append, ← hrest, hpush]
    rfl
  · rw [hpush]
    exact hone.closed

theorem Spells.prepend (characters : List UChar) :
    Spells (source.prepend (ofString characters)) (characters ++ text) closed ∧
      (source.prepend (ofString characters)).pushed = [] := by
  obtain ⟨hext, hv, hunread, -⟩ := h.valid.prepend (valid_ofString characters)
    ⟨rfl, by simp [ofString]⟩
  have hpushed := hext.pushed.trans hp
  have hsource : source.unread.map Prod.fst = text := by
    rw [← h.characters, SegmentedString.characters, SegmentedString.text, hp]
    rfl
  refine ⟨⟨hv, ?_, hext.closed.trans h.closed⟩, hpushed⟩
  have hback : (ofString characters).unread.map Prod.fst = characters := by
    rw [unread, map_append]
    change (SegmentedSubstring.ofString characters).marked.map Prod.fst ++ [] = characters
    rw [append_nil, SegmentedSubstring.marked_characters, SegmentedSubstring.remaining_ofString]
  rw [SegmentedString.characters, SegmentedString.text, hpushed, hunread, map_nil,
    nil_append, map_append, hback, hsource]

/-- Giving characters back. -/
theorem Spells.unconsumeCharacters {characters : List UChar} (hne : ∀ c ∈ characters, c ≠ 0) :
    Spells (unconsumeCharacters source characters) (characters ++ text) closed ∧
      (HTML.unconsumeCharacters source characters).pushed =
        if characters.length = 1 ∨ characters.length = 2 then characters else [] := by
  match characters, hne with
  | [], _ => exact h.prepend hp []
  | [c], hne => exact h.push hp (hne c mem_cons_self)
  | [c, d], hne =>
    exact h.push_push hp (hne c mem_cons_self)
      (hne d (mem_cons_of_mem _ mem_cons_self))
  | c :: d :: e :: rest, _ =>
    obtain ⟨hs, hpushed⟩ := h.prepend hp (c :: d :: e :: rest)
    refine ⟨hs, hpushed.trans ?_⟩
    rw [if_neg (by simp)]

end Spells

/-! ## What is pushed back -/

section Table

variable {table : HTMLEntityTable} {closed : Bool}

/-- The search accepts the two characters at the start of a name. -/
def Accepted (table : HTMLEntityTable) (a b : UChar) : Prop :=
  ((start table).advance table a).isEntityPrefix = true ∧
    (((start table).advance table a).advance table b).isEntityPrefix = true

/-- A reference that consumes the first of two characters pushed back goes on with the second. -/
def KeepsReading (table : HTMLEntityTable) (pushed : List UChar) : Prop :=
  ∀ a b, pushed = [a, b] →
    (a = ch '#' ∧ (b = ch 'x' ∨ b = ch 'X' ∨ isASCIIDigit b = true)) ∨ Accepted table a b

variable {pushed consumed text name : List UChar} {c additionalAllowedCharacter cc : UChar}
  {source : SegmentedString} {search : HTMLEntitySearch} {result : UChar32} {state : EntityState}

theorem keepsReading_of_length (h : pushed.length ≠ 2) :
    KeepsReading table pushed := fun _ _ heq => absurd (heq ▸ rfl) h

theorem keepsReading_tail (h : pushed.length ≤ 2) : KeepsReading table pushed.tail :=
  keepsReading_of_length (by rw [length_tail]; omega)

/-- What is pushed back goes on from the characters that are consumed. -/
def GoesOn (table : HTMLEntityTable) (consumed pushed : List UChar) : Prop :=
  pushed = [] ∨ (consumed ++ pushed).length ≤ 2 ∧ KeepsReading table (consumed ++ pushed)

theorem GoesOn.consume (h : GoesOn table consumed pushed) (hhead : ∀ d ∈ pushed.head?, d = c) :
    GoesOn table (consumed ++ [c]) pushed.tail := by
  cases pushed with
  | nil => exact .inl rfl
  | cons d pushed =>
    obtain rfl : d = c := hhead d rfl
    rcases h with h | ⟨hlen, hkeeps⟩
    · cases h
    · rw [← singleton_append (l := pushed), ← append_assoc] at hlen hkeeps
      exact .inr ⟨hlen, hkeeps⟩

/-- After two characters nothing is pushed back. -/
theorem GoesOn.eq_nil (h : GoesOn table consumed pushed) (hlen : 2 ≤ consumed.length) :
    pushed = [] := by
  rcases h with h | ⟨h, -⟩
  · exact h
  · rw [length_append] at h
    exact eq_nil_of_length_eq_zero (by omega)

/-- After one character at most one is pushed back. -/
theorem GoesOn.eq_nil_or {a : UChar} (h : GoesOn table [a] pushed) :
    pushed = [] ∨ ∃ b, pushed = [b] ∧ KeepsReading table [a, b] := by
  match pushed, h with
  | [], _ => exact .inl rfl
  | [b], h =>
    rcases h with h | ⟨-, h⟩
    · cases h
    · exact .inr ⟨b, rfl, h⟩
  | b :: c :: rest, h =>
    rcases h with h | ⟨h, -⟩
    · cases h
    · simp at h

/-- The first character pushed back is the first one left. -/
theorem Spells.head_pushed (h : Spells source (c :: text) closed) :
    ∀ d ∈ source.pushed.head?, d = c := by
  obtain ⟨rest, hrest⟩ := h.pushed_prefix
  cases hp : source.pushed with
  | nil => intro d hd; cases hd
  | cons e pushed =>
    intro d hd
    rw [hp] at hrest
    cases hd
    exact (cons_eq_cons.mp hrest).1

theorem Spells.pushed_of_nil (h : Spells source [] closed) :
    source.pushed = [] := prefix_nil.mp h.pushed_prefix

/-! ## Names -/

/-- A search that accepted the characters of a name one after the other. -/
structure Names (table : HTMLEntityTable) (search : HTMLEntitySearch) (name : List UChar) : Prop
    extends Holds table search name where
  start : name = [] → search = start table
  one : ∀ a, name = [a] → search = (HTMLEntitySearch.start table).advance table a
  accepted : ∀ a b rest, name = a :: b :: rest → Accepted table a b

theorem names_start : Names table (start table) [] :=
  ⟨holds_start, fun _ => rfl, fun _ h => absurd h.symm (cons_ne_nil _ _),
    fun _ _ _ h => absurd h.symm (cons_ne_nil _ _)⟩

variable (h : Names table search name)

include h

theorem Names.isEntityPrefix (hne : name ≠ []) :
    search.isEntityPrefix = true := by
  obtain ⟨first, last, hrange, -⟩ := h.range hne
  rw [HTMLEntitySearch.isEntityPrefix, hrange]
  rfl

theorem Names.advance (hgoes : (search.advance table c).isEntityPrefix = true) :
    Names table (search.advance table c) (name ++ [c]) := by
  refine ⟨h.toHolds.advance hgoes, fun hnil => by simp at hnil, fun a ha => ?_,
    fun a b rest hab => ?_⟩
  · have hnil : name = [] := by
      have := congrArg List.length ha
      exact eq_nil_of_length_eq_zero (by simpa using this)
    subst hnil
    cases ha
    rw [h.start rfl]
  · match name, h, hab with
    | [], _, hab => cases hab
    | [x], h, hab =>
      cases hab
      rw [h.one a rfl] at hgoes
      exact ⟨h.one a rfl ▸ h.isEntityPrefix (cons_ne_nil _ _), hgoes⟩
    | x :: y :: more, h, hab =>
      cases hab
      exact h.accepted a b more rfl

omit h in
theorem ne_hash_of_letter (h : isASCIIUpper c ∨ isASCIILower c) : c ≠ ch '#' := by
  rintro rfl
  exact absurd h (by decide)

/-- Characters of a name given back. -/
theorem Names.keepsReading {part : List UChar}
    (hpart : part <+: name) : KeepsReading table part := by
  intro a b hab
  obtain ⟨rest, hrest⟩ := hpart
  rw [hab] at hrest
  exact .inr (h.accepted a b rest hrest.symm)

/-- A character that is not accepted after some that are: nothing is pushed back. -/
theorem Names.pushed_eq_nil (hne : name ≠ [])
    (hgoes : GoesOn table name pushed) (hhead : ∀ d ∈ pushed.head?, d = c)
    (hfail : (search.advance table c).isEntityPrefix = false) : pushed = [] := by
  match name, h, hne, hgoes with
  | [a], h, _, hgoes =>
    rcases hgoes.eq_nil_or with hnil | ⟨b, rfl, hkeeps⟩
    · exact hnil
    · obtain rfl : b = c := hhead b rfl
      rcases hkeeps a b rfl with ⟨ha, -⟩ | hacc
      · have hgoes := h.isEntityPrefix (cons_ne_nil _ _)
        rw [h.one a rfl] at hgoes
        exact absurd ha (ne_hash_of_letter (HTMLEntitySearch.letter_of_start hgoes))
      · rw [h.one a rfl, hacc.2] at hfail
        cases hfail
  | a :: b :: rest, _, _, hgoes => exact hgoes.eq_nil (by simp)

omit h

/-- The loop over a name that the text may continue. -/
theorem searchName_of_none : ∀ {source : SegmentedString}
    {search : HTMLEntitySearch} {name : List UChar}, Spells source text closed →
    Names table search name → searchText table search text = none →
    Spells (searchName table text.length source search name).1 [] closed ∧
      (searchName table text.length source search name).2.2 = name ++ text ∧
      ∃ search', Names table search' (name ++ text) := by
  induction text with
  | nil =>
    intro source search name h hnames _
    exact ⟨h, (append_nil name).symm, search, by rwa [append_nil]⟩
  | cons c text ih =>
    intro source search name h hnames hnone
    rw [searchText] at hnone
    rw [length_cons, searchName, h.current_eq]
    dsimp only [List.head?_cons] at hnone ⊢
    by_cases hgoes : (search.advance table c).isEntityPrefix = true
    · rw [if_pos hgoes, Option.map_eq_none_iff] at hnone
      obtain ⟨h1, h2, h3⟩ := ih h.advance (hnames.advance hgoes) hnone
      rw [if_pos hgoes]
      rw [append_assoc] at h2 h3
      exact ⟨h1, h2, h3⟩
    · rw [if_neg hgoes] at hnone
      cases hnone

/-- The loop over a name that ends in the text. -/
theorem searchName_of_some : ∀ {source : SegmentedString}
    {search search' : HTMLEntitySearch} {name : List UChar} {count : ℕ},
    Spells source text closed → Names table search name → GoesOn table name source.pushed →
    searchText table search text = some (search', count) →
    count < text.length ∧
      Spells (searchName table text.length source search name).1 (text.drop count) closed ∧
      (searchName table text.length source search name).2 = (search', name ++ text.take count) ∧
      (∃ before c, Names table before (name ++ text.take count) ∧
        before.advance table c = search' ∧ search'.isEntityPrefix = false) ∧
      (name ++ text.take count ≠ [] →
        (searchName table text.length source search name).1.pushed = []) ∧
      (name ++ text.take count = [] →
        (searchName table text.length source search name).1 = source) := by
  induction text with
  | nil => intro _ _ _ _ _ _ _ _ hsome; cases hsome
  | cons c text ih =>
    intro source search search' name count h hnames hgoes hsome
    rw [searchText] at hsome
    rw [length_cons, searchName, h.current_eq]
    dsimp only [List.head?_cons] at hsome ⊢
    by_cases hstarts : (search.advance table c).isEntityPrefix = true
    · rw [if_pos hstarts] at hsome
      obtain ⟨⟨found, n⟩, hfound, heq⟩ := Option.map_eq_some_iff.mp hsome
      cases heq
      have hpushed : source.advance.pushed = source.pushed.tail := h.valid.pushed_advance
      obtain ⟨h1, h2, h3, h4, h5, -⟩ := ih h.advance (hnames.advance hstarts)
        (by rw [hpushed]; exact hgoes.consume h.head_pushed) hfound
      have hname : name ++ [c] ++ text.take n = name ++ (c :: text).take (n + 1) := by
        rw [append_assoc]
        rfl
      rw [hname] at h3 h4 h5
      rw [if_pos hstarts]
      exact ⟨Nat.succ_lt_succ h1, h2, h3, h4, h5, fun hnil => by simp at hnil⟩
    · rw [if_neg hstarts] at hsome ⊢
      cases hsome
      rw [take_zero, append_nil]
      exact ⟨Nat.succ_pos _, h, rfl, ⟨search, c, hnames, rfl, by simpa using hstarts⟩,
        fun hne => hnames.pushed_eq_nil hne hgoes h.head_pushed (by simpa using hstarts),
        fun _ => rfl⟩

/-- What a call leaves: the characters after those that the reference takes, and nothing pushed back
that a later call could take in part. -/
structure Leaves (table : HTMLEntityTable) (closed : Bool) (text : List UChar)
    (read : ReadReference) (result : SegmentedString × Reference) : Prop where
  reference : result.2 = read.1
  spells : Spells result.1 (text.drop read.2) closed
  keepsReading : KeepsReading table result.1.pushed

/-- Giving back the characters at the start of a text. -/
theorem Names.leaves (hgives : table.GivesBack) {part : List UChar}
    (hnames : Names table search name) (hpart : part <+: name) (h : Spells source rest closed)
    (hp : source.pushed = []) (htext : text = part ++ rest) (reference : Reference) :
    Leaves table closed text (reference, 0) (unconsumeCharacters source part, reference) := by
  obtain ⟨hs, hpushed⟩ := h.unconsumeCharacters hp fun c hc =>
    hnames.ne_zero hgives (hpart.subset hc)
  refine ⟨rfl, by rw [htext]; exact hs, ?_⟩
  rw [hpushed]
  split
  · exact hnames.keepsReading hpart
  · exact keepsReading_of_length (by simp)

theorem unconsumeCharacters_nil (h : source.Valid) : unconsumeCharacters source [] = source := by
  exact h.updateCurrentChar

/-- The end of a name that is in the table. -/
theorem finishNamedEntity_leaves (hgives : table.GivesBack) (hnames : Names table search name)
    {entry : HTMLEntityTableEntry} (hentry : entry.entity <+: name)
    (h : Spells source (text.drop entry.length) closed) (hp : source.pushed = [])
    (htext : text.take entry.length = entry.entity) (additionalAllowedCharacter : UChar) :
    Leaves table closed text
      (if entry.lastCharacter = ch ';' ∨ additionalAllowedCharacter = 0 ∨
          ¬(isAlphaNumeric ((text[entry.length]?).getD 0) ∨
            (text[entry.length]?).getD 0 = ch '=') then
        (.success (decodeEntry entry), entry.length)
      else noReference)
      (finishNamedEntity source additionalAllowedCharacter entry entry.entity) := by
  have hcc : source.current = text[entry.length]? := by
    rw [h.current_eq, List.head?_drop]
  rw [finishNamedEntity, hcc]
  split
  · exact ⟨rfl, h, keepsReading_of_length (by dsimp only; rw [hp]; simp)⟩
  · refine hnames.leaves hgives hentry h hp ?_ _
    rw [← htext, take_append_drop]

theorem consumeNamedEntity_leaves (hgives : table.GivesBack) (h : Spells source text closed)
    (hkeeps : KeepsReading table source.pushed) (additionalAllowedCharacter : UChar) :
    Leaves table closed text (readName table additionalAllowedCharacter text)
      (consumeNamedEntity table source additionalAllowedCharacter) := by
  have hgoes : GoesOn table [] source.pushed := .inr ⟨pushed_length_le source, hkeeps⟩
  rw [readName, consumeNamedEntity, h.length_eq]
  cases hsearch : searchText table (start table) text with
  | none =>
    obtain ⟨h1, h2, search, h3⟩ := searchName_of_none h names_start hsearch
    rw [if_pos (h1.isEmpty_iff.mpr rfl), h2]
    exact h3.leaves hgives prefix_rfl h1 h1.pushed_of_nil (append_nil _).symm _
  | some found =>
    obtain ⟨search', count⟩ := found
    obtain ⟨h1, h2, h3, ⟨before, c, h4, rfl, hfail⟩, h5, h6⟩ :=
      searchName_of_some h names_start hgoes hsearch
    obtain ⟨hlength, hmatch⟩ := h4.toHolds.fail hfail
    generalize searchName table text.length source (start table) [] = searched
      at *
    obtain ⟨left, found, name⟩ := searched
    cases h3
    rw [nil_append] at h4 h5 h6 hlength hmatch
    have hnonempty : ¬left.isEmpty = true := by
      rw [h2.isEmpty_iff, drop_eq_nil_iff]
      omega
    have hback : Leaves table closed text noReference
        (unconsumeCharacters left (text.take count), .failure) := by
      by_cases hnil : text.take count = []
      · obtain rfl : left = source := h6 hnil
        rw [hnil, unconsumeCharacters_nil h.valid]
        exact ⟨rfl, h, hkeeps⟩
      · exact h4.leaves hgives prefix_rfl h2 (h5 hnil) (take_append_drop _ _).symm _
    rw [if_neg hnonempty]
    dsimp only [nil_append]
    cases hrecent : (before.advance table c).mostRecentMatch with
    | none => exact hback
    | some entry =>
      obtain ⟨hmem, hstarts⟩ := hmatch entry hrecent
      have htwo := hgives.two_le_length entry hmem
      have hle : entry.length ≤ (text.take count).length := hstarts.length_le
      have hnil : text.take count ≠ [] := fun heq => by
        rw [heq, length_nil] at hle
        omega
      have htake : text.take entry.length = entry.entity :=
        (prefix_iff_eq_take.mp (hstarts.trans (List.take_prefix _ _))).symm
      dsimp only
      by_cases hlong : entry.length ≠ (before.advance table c).currentLength
      · rw [if_pos hlong]
        obtain ⟨h7, h8⟩ := h2.unconsumeCharacters (h5 hnil) fun c =>
          h4.ne_zero hgives
        rw [take_append_drop] at h7
        rw [if_neg (by omega)] at h8
        have hlen : entry.length ≤ text.length := by
          rw [length_take] at hle
          omega
        obtain ⟨h9, h10⟩ := h7.advanceCount hlen
        rw [h10, htake]
        refine finishNamedEntity_leaves hgives h4 hstarts h9 ?_ htake _
        rw [h7.valid.pushed_advanceCount, h8, drop_nil]
      · rw [if_neg hlong]
        rw [hlength] at hlong
        have heq : entry.entity = text.take count := hstarts.eq_of_length (not_not.mp hlong)
        have hcount : entry.length = count := by
          rw [not_not.mp hlong, length_take]
          omega
        rw [← heq]
        exact finishNamedEntity_leaves hgives h4 hstarts (by rwa [hcount]) (h5 hnil) htake _


/-! ## References -/

/-- What the loop consumed so far, by its state. -/
def Consumed (state : EntityState) (consumed : List UChar) : Prop :=
  match state with
  | .initial => consumed = []
  | .number => consumed = [ch '#']
  | .maybeHexLowerCaseX => consumed = [ch '#', ch 'x']
  | .maybeHexUpperCaseX => consumed = [ch '#', ch 'X']
  | .hex => 2 ≤ consumed.length
  | .decimal => 2 ≤ consumed.length

/-- The characters that the loop consumed. -/
structure Numeric (table : HTMLEntityTable) (state : EntityState) (consumed : List UChar) :
    Prop where
  byState : Consumed state consumed
  ne_zero : ∀ c ∈ consumed, c ≠ 0
  keepsReading : KeepsReading table consumed

theorem numeric_initial : Numeric table .initial [] :=
  ⟨rfl, fun _ hc => absurd hc not_mem_nil, keepsReading_of_length (by simp)⟩

theorem ne_zero_of_isHexDigit (h : isHexDigit c = true) : c ≠ 0 := by
  rintro rfl
  exact absurd h (by decide)

theorem isHexDigit_of_isASCIIDigit (h : isASCIIDigit c = true) : isHexDigit c = true := by
  rw [isHexDigit, h]
  rfl

/-- What a step of the loop tells of its state and its character. -/
def Tells (state : EntityState) (cc : UChar) : ReferenceStep → Prop
  | .consume state' _ => cc ≠ 0 ∧
      (state = .number → cc = ch 'x' ∨ cc = ch 'X' ∨ isASCIIDigit cc = true) ∧
      ∀ consumed, Consumed state consumed → Consumed state' (consumed ++ [cc])
  | .finish _ _ => ∀ consumed, Consumed state consumed → 2 ≤ consumed.length
  | .giveBack characters =>
      (state = .number → ¬(cc = ch 'x' ∨ cc = ch 'X' ∨ isASCIIDigit cc = true)) ∧
      ∀ consumed, Consumed state consumed → characters = consumed ∧ consumed.length ≤ 2
  | .named => state = .initial ∧ cc ≠ ch '#'

theorem tells_hexStep (hlong : ∀ consumed, Consumed state consumed → 2 ≤ consumed.length)
    (hstate : state ≠ .number) : Tells state cc (hexStep result cc) := by
  rw [hexStep]
  split
  · rename_i hd
    refine ⟨ne_zero_of_isHexDigit hd, fun heq => absurd heq hstate, fun consumed hc => ?_⟩
    have := hlong consumed hc
    rw [Consumed, length_append]
    omega
  · exact hlong

theorem tells_decimalStep (hpos : ∀ consumed, Consumed state consumed → 1 ≤ consumed.length)
    (hlong : isASCIIDigit cc = false → ∀ consumed, Consumed state consumed → 2 ≤ consumed.length) :
    Tells state cc (decimalStep result cc) := by
  rw [decimalStep]
  split
  · rename_i hd
    refine ⟨ne_zero_of_isHexDigit (isHexDigit_of_isASCIIDigit hd), fun _ => .inr (.inr hd),
      fun consumed hc => ?_⟩
    have := hpos consumed hc
    rw [Consumed, length_append, length_singleton]
    omega
  · rename_i hd
    exact hlong (Bool.eq_false_iff.mpr hd)

theorem tells_referenceStep (additionalAllowedCharacter : UChar) (result : UChar32) (cc : UChar)
    (state : EntityState) :
    Tells state cc (referenceStep additionalAllowedCharacter result cc state) := by
  have hgive : ∀ {state characters}, state ≠ .number → characters.length ≤ 2 →
      (∀ consumed, Consumed state consumed → consumed = characters) →
        Tells state cc (.giveBack characters) := fun hstate hlen hc =>
    ⟨fun heq => absurd heq hstate, fun consumed h => ⟨(hc consumed h).symm, hc consumed h ▸ hlen⟩⟩
  fun_cases referenceStep additionalAllowedCharacter result cc state with
  | case1 | case2 | case5 => exact hgive nofun (Nat.zero_le _) fun _ hc => hc
  | case3 _ _ hcc => exact ⟨by rw [hcc]; decide, nofun, fun _ hc => by rw [hc, hcc]; rfl⟩
  | case4 _ _ hcc => exact ⟨rfl, hcc⟩
  | case6 hcc =>
    exact ⟨by rw [hcc]; decide, fun _ => .inl hcc, fun _ hc => by rw [hc, hcc]; rfl⟩
  | case7 _ hcc =>
    exact ⟨by rw [hcc]; decide, fun _ => .inr (.inl hcc), fun _ hc => by rw [hc, hcc]; rfl⟩
  | case8 hx hX hd =>
    exact tells_decimalStep (fun _ hc => by rw [hc]; exact Nat.le_refl _)
      fun h => absurd hd (Bool.eq_false_iff.mp h)
  | case9 hx hX hd =>
    refine ⟨fun _ hcc => ?_, fun consumed hc => ⟨hc.symm, by rw [hc]; exact Nat.le_succ _⟩⟩
    rcases hcc with hcc | hcc | hcc
    · exact hx hcc
    · exact hX hcc
    · exact hd hcc
  | case10 | case12 => exact tells_hexStep (fun _ hc => by rw [hc]; exact Nat.le_refl _) nofun
  | case11 | case13 => exact hgive nofun (Nat.le_refl _) fun _ hc => hc
  | case14 => exact tells_hexStep (fun _ hc => hc) nofun
  | case15 => exact tells_decimalStep (fun _ hc => Nat.le_of_succ_le hc) fun _ _ hc => hc

/-- A character that the loop consumes. -/
theorem Numeric.consume {state' : EntityState} (h : Numeric table state consumed)
    {result' : UChar32} (htells : Tells state cc (.consume state' result')) :
    Numeric table state' (consumed ++ [cc]) := by
  obtain ⟨hcc, hnumber, hconsumed⟩ := htells
  refine ⟨hconsumed consumed h.byState, fun c hc => ?_, ?_⟩
  · rcases mem_append.mp hc with hc | hc
    · exact h.ne_zero c hc
    · rwa [mem_singleton.mp hc]
  · have hc := h.byState
    cases state with
    | initial => exact keepsReading_of_length (by rw [hc]; simp)
    | number =>
      rintro a b hab
      rw [hc] at hab
      cases hab
      exact .inl ⟨rfl, hnumber rfl⟩
    | maybeHexLowerCaseX | maybeHexUpperCaseX => exact keepsReading_of_length (by rw [hc]; simp)
    | _ => exact keepsReading_of_length (by rw [Consumed] at hc; simp; omega)

/-- Pushing one or two characters is giving them back. -/
theorem pushCharacters_eq (h : source.Valid) {characters : List UChar}
    (hlen : characters.length ≤ 2) :
    pushCharacters source characters = unconsumeCharacters source characters := by
  match characters, hlen with
  | [], _ => exact (unconsumeCharacters_nil h).symm
  | [c], _ => rfl
  | [c, d], _ => rfl

/-- Characters of names can be given back, or it is a number that is read. -/
def ReadsNumber (table : HTMLEntityTable) (consumed text : List UChar) : Prop :=
  table.GivesBack ∨ consumed ≠ [] ∨ text.head? = some (ch '#')

/-- The loop, after the characters it consumed. -/
theorem consumeReferenceLoop_leaves :
    ∀ {source : SegmentedString} {state : EntityState} {result : UChar32} {consumed : List UChar},
    Spells source text closed → Numeric table state consumed →
    GoesOn table consumed source.pushed → ReadsNumber table consumed text →
    Leaves table closed (consumed ++ text)
      (readReferenceFrom table additionalAllowedCharacter state result consumed.length text)
      (consumeReferenceLoop table additionalAllowedCharacter text.length source state result
        consumed) := by
  induction text with
  | nil =>
    intro source state result consumed h hnumeric _ _
    obtain ⟨hs, hpushed⟩ := h.unconsumeCharacters h.pushed_of_nil hnumeric.ne_zero
    refine ⟨rfl, hs, ?_⟩
    change KeepsReading table (unconsumeCharacters source consumed).pushed
    rw [hpushed]
    split
    · exact hnumeric.keepsReading
    · exact keepsReading_of_length (by simp)
  | cons cc text ih =>
    intro source state result consumed h hnumeric hgoes hreads
    rw [readReferenceFrom, length_cons, consumeReferenceLoop, h.current_eq]
    dsimp only [List.head?_cons]
    have htells := tells_referenceStep additionalAllowedCharacter result cc state
    generalize referenceStep additionalAllowedCharacter result cc state = step at htells ⊢
    cases step with
    | consume state' result' =>
      have hpushed : source.advance.pushed = source.pushed.tail := h.valid.pushed_advance
      have hnext := @ih _ _ result' _ h.advance (hnumeric.consume htells)
        (by rw [hpushed]; exact hgoes.consume h.head_pushed) (.inr (.inl (by simp)))
      rw [append_assoc, length_append] at hnext
      exact hnext
    | finish result' takesSemicolon =>
      have hp : source.pushed = [] := hgoes.eq_nil (htells consumed hnumeric.byState)
      cases takesSemicolon with
      | true =>
        refine ⟨rfl, ?_, ?_⟩
        · rw [← drop_drop, drop_left]
          exact h.advance
        · change KeepsReading table source.advance.pushed
          rw [h.valid.pushed_advance]
          exact keepsReading_tail (pushed_length_le source)
      | false =>
        refine ⟨rfl, ?_, ?_⟩
        · change Spells source ((consumed ++ cc :: text).drop consumed.length) closed
          rw [drop_left]
          exact h
        · change KeepsReading table source.pushed
          rw [hp]
          exact keepsReading_of_length (by simp)
    | giveBack characters =>
      obtain ⟨hnumber, hback⟩ := htells
      obtain ⟨rfl, hlen⟩ := hback consumed hnumeric.byState
      dsimp only
      rw [pushCharacters_eq h.valid hlen]
      by_cases hnil : characters = []
      · subst hnil
        rw [unconsumeCharacters_nil h.valid]
        refine ⟨rfl, h, ?_⟩
        rcases hgoes with hgoes | ⟨-, hkeeps⟩
        · exact keepsReading_of_length (by dsimp only; rw [hgoes]; simp)
        · exact hkeeps
      · have hp : source.pushed = [] := by
          match characters, hnil, hnumeric, hgoes with
          | [a], _, hnumeric, hgoes =>
            rcases hgoes.eq_nil_or with hp | ⟨b, hb, hkeeps⟩
            · exact hp
            · obtain rfl : b = cc := h.head_pushed b (by rw [hb]; rfl)
              have hstate : state = .number ∧ a = ch '#' := by
                have hc := hnumeric.byState
                cases state <;> simp_all [Consumed]
              rcases hkeeps a b rfl with ⟨-, hb'⟩ | hacc
              · exact absurd hb' (hnumber hstate.1)
              · have hletter := letter_of_start hacc.1
                exact absurd hstate.2 (ne_hash_of_letter hletter)
          | a :: b :: rest, _, _, hgoes => exact hgoes.eq_nil (by simp)
        obtain ⟨hs, hpushed⟩ := h.unconsumeCharacters hp hnumeric.ne_zero
        refine ⟨rfl, hs, ?_⟩
        rw [hpushed]
        split
        · exact hnumeric.keepsReading
        · exact keepsReading_of_length (by simp)
    | named =>
      obtain ⟨rfl, hne⟩ := htells
      obtain rfl : consumed = [] := hnumeric.byState
      have hgives : table.GivesBack := by
        rcases hreads with hgives | hnil | hhash
        · exact hgives
        · exact absurd rfl hnil
        · exact absurd (Option.some.inj hhash) hne
      refine consumeNamedEntity_leaves hgives h ?_ additionalAllowedCharacter
      rcases hgoes with hgoes | ⟨-, hkeeps⟩
      · exact keepsReading_of_length (by rw [hgoes]; simp)
      · exact hkeeps

/-- `consumeHTMLEntity` does to the characters left what `readReference` says. -/
theorem consumeHTMLEntity_leaves (h : Spells source text closed)
    (hkeeps : KeepsReading table source.pushed) (hreads : ReadsNumber table [] text)
    (additionalAllowedCharacter : UChar) :
    Leaves table closed text (readReference table additionalAllowedCharacter text)
      (consumeHTMLEntity table source additionalAllowedCharacter) := by
  rw [consumeHTMLEntity, h.length_eq]
  exact consumeReferenceLoop_leaves h numeric_initial (.inr ⟨pushed_length_le source, hkeeps⟩) hreads

/-! ## More text -/

theorem spells_ofString (text : List UChar) : Spells (ofString text) text false := by
  refine ⟨valid_ofString text, ?_, rfl⟩
  change ((SegmentedSubstring.ofString text).marked ++ []).map Prod.fst = text
  rw [append_nil, SegmentedSubstring.marked_characters, SegmentedSubstring.remaining_ofString]

end Table

end WebKit.HTML
