import WebKit.HTML.HTMLEntitySearch

/-!
# What a search in the table finds

The two binary searches lose no entry that starts with the characters, so the part of the table
that is left is the part that starts with them, and the match is the longest name that the
characters start with (`Finds.advance`, `finds_advanceOver`).  This needs offsets that leave no entry
out (`HTMLEntityTable.Encloses`).

The searches read entries of the table only, and characters of a name only up to its length
(`Holds.advanceChecked`).
-/

namespace WebKit.HTML

open Text
open List HTMLEntitySearch

namespace HTMLEntityTable

/-- The offsets of a letter are the bounds of all the entries that start with it. -/
structure Encloses (table : HTMLEntityTable) : Prop where
  ne_nil : table.entries ≠ []
  nonempty : ∀ entry ∈ table.entries, entry.entity ≠ []
  bounds : ∀ i entry c, table.entries[i]? = some entry → [c] <+: entry.entity →
    ∃ first last, table.firstEntryStartingWith c = some first ∧
      table.lastEntryStartingWith c = some last ∧ first ≤ i ∧ i ≤ last

/-- The entry has the longest name that the text starts with. -/
structure IsLongestMatch (table : HTMLEntityTable) (text : List UChar)
    (entry : HTMLEntityTableEntry) : Prop where
  mem : entry ∈ table.entries
  isPrefix : entry.entity <+: text
  longest : ∀ entry' ∈ table.entries, entry'.entity <+: text → entry'.length ≤ entry.length

/-- The text is the start of a name. -/
def IsStart (table : HTMLEntityTable) (text : List UChar) : Prop :=
  ∃ entry ∈ table.entries, text <+: entry.entity

variable {table : HTMLEntityTable}

/-- No two entries have the same name. -/
theorem eq_of_entity_eq (h : entry ∈ table.entries)
    (h' : entry' ∈ table.entries) (heq : entry.entity = entry'.entity) : entry = entry' := by
  obtain ⟨i, hi, rfl⟩ := mem_iff_getElem.mp h
  obtain ⟨j, hj, rfl⟩ := mem_iff_getElem.mp h'
  have hsorted := pairwise_iff_getElem.mp table.sorted
  rcases Nat.lt_trichotomy i j with hlt | rfl | hlt
  · have := hsorted i j hi hj hlt
    rw [heq] at this
    exact absurd this (List.lt_irrefl _)
  · rfl
  · have := hsorted j i hj hi hlt
    rw [heq] at this
    exact absurd this (List.lt_irrefl _)

theorem IsLongestMatch.unique
    (h : table.IsLongestMatch text entry) (h' : table.IsLongestMatch text entry') :
    entry = entry' := by
  have hlength : entry.length = entry'.length :=
    Nat.le_antisymm (h'.longest entry h.mem h.isPrefix) (h.longest entry' h'.mem h'.isPrefix)
  have hbegins := prefix_of_prefix_length_le h.isPrefix h'.isPrefix (Nat.le_of_eq hlength)
  exact eq_of_entity_eq h.mem h'.mem (hbegins.eq_of_length hlength)

end HTMLEntityTable

namespace HTMLEntitySearch

/-! ## The binary searches lose nothing -/

section Bisection

variable {compare : ℕ → CompareResult} {left right : ℕ}

/-- The results between two entries of a sorted part of the table are in order. -/
def InOrder (compare : ℕ → CompareResult) (left right : ℕ) : Prop :=
  ∀ i j, left ≤ i → i ≤ j → j ≤ right → rank (compare i) ≤ rank (compare j)

theorem InOrder.before (h : InOrder compare left right) (hi : left ≤ i) (hij : i ≤ j)
    (hj : j ≤ right) (hcompare : compare j = .before) : compare i = .before := by
  have hrank := h i j hi hij hj
  rw [hcompare] at hrank
  revert hrank
  cases compare i <;> simp [rank]

theorem InOrder.after (h : InOrder compare left right) (hi : left ≤ i) (hij : i ≤ j)
    (hj : j ≤ right) (hcompare : compare i = .after) : compare j = .after := by
  have hrank := h i j hi hij hj
  rw [hcompare] at hrank
  revert hrank
  cases compare j <;> simp [rank]

variable {i : ℕ}

section

variable (horder : InOrder compare left right) (hleft : left ≤ i) (hright : i ≤ right)
  (hi : compare i = .prefixOf)
include hi hleft horder hright

theorem findFirst_le : findFirst compare left right ≤ i := by
  rw [findFirst]
  by_cases heq : left = right
  · rw [if_pos heq]
    exact hleft
  · rw [if_neg heq]
    cases hcompare : compare left with
    | prefixOf => exact hleft
    | after =>
      have hafter := horder.after (Nat.le_refl _) hleft hright hcompare
      rw [hi] at hafter
      cases hafter
    | before =>
      by_contra hlt
      dsimp only at hlt
      obtain ⟨-, hle, hlast, -⟩ :=
        findFirstLoop_spec (Nat.le_refl (right - left)) (by omega) hcompare
      have hbefore := horder.before hleft (by omega) (by omega) hlast
      rw [hi] at hbefore
      cases hbefore

theorem le_findLast : i ≤ findLast compare left right := by
  rw [findLast]
  by_cases heq : left = right
  · rw [if_pos heq]
    exact hright
  · rw [if_neg heq]
    cases hcompare : compare right with
    | prefixOf => exact hright
    | before =>
      have hbefore := horder.before hleft hright (Nat.le_refl _) hcompare
      rw [hi] at hbefore
      cases hbefore
    | after =>
      by_contra hlt
      dsimp only at hlt
      obtain ⟨hle, -, hfirst, -⟩ :=
        findLastLoop_spec (Nat.le_refl (right - left)) (by omega) hcompare
      have hafter := horder.after (by omega) (by omega) hright hfirst
      rw [hi] at hafter
      cases hafter

end

end Bisection

/-! ## What is left of the table, and the match -/

variable {table : HTMLEntityTable}

/-- What a search that did not fail finds: all the entries that start with the name, and the longest
match. -/
structure Finds (table : HTMLEntityTable) (search : HTMLEntitySearch) (name : List UChar) : Prop
    extends Holds table search name where
  inRange : name ≠ [] → ∀ i entry, table.entries[i]? = some entry → name <+: entry.entity →
    ∃ first last, search.range = some (first, last) ∧ first ≤ i ∧ i ≤ last
  longest : ∀ entry ∈ table.entries, entry.entity <+: name →
    ∃ longest, search.mostRecentMatch = some longest ∧ entry.length ≤ longest.length

theorem finds_start (hencloses : table.Encloses) : Finds table (start table) [] := by
  refine ⟨holds_start, fun hne => absurd rfl hne, fun entry hmem hbegins => ?_⟩
  exact absurd (prefix_nil.mp hbegins) (hencloses.nonempty entry hmem)

variable {c : UChar} {entry : HTMLEntityTableEntry} {i : ℕ} {name : List UChar}
  {search : HTMLEntitySearch}

theorem compare_of_prefix (hentry : table.entries[i]? = some entry)
    (hbegins : name ++ [c] <+: entry.entity) : compare table name.length c i = .prefixOf := by
  obtain ⟨rest, hrest⟩ := hbegins
  rw [append_assoc] at hrest
  rw [compare_eq hentry hrest.symm, singleton_append, resultAt, if_pos rfl]

/-- The comparisons of the part of the table that is left are in order. -/
theorem inOrder_compare {left : ℕ} {right : ℕ} (hall : ∀ i, left ≤ i → i ≤ right →
      ∃ entry, table.entries[i]? = some entry ∧ name <+: entry.entity)
    (c : UChar) : InOrder (compare table name.length c) left right := by
  intro i j hi hij hj
  obtain ⟨e, he, hpre⟩ := hall i hi (by omega)
  obtain ⟨e', he', hpre'⟩ := hall j (by omega) hj
  exact rank_compare_le hij he he' hpre hpre' c

/-- An entry that goes on with the character is not lost. -/
theorem Finds.narrow (hencloses : table.Encloses) (h : Finds table search name)
    (hentry : table.entries[i]? = some entry) (hbegins : name ++ [c] <+: entry.entity) :
    ∃ first last, search.narrow table c = some (first, last) ∧ first ≤ i ∧ i ≤ last := by
  rw [HTMLEntitySearch.narrow]
  by_cases hzero : search.currentLength = 0
  · have hnil : name = [] := eq_nil_of_length_eq_zero (h.currentLength ▸ hzero)
    rw [hnil] at hbegins
    obtain ⟨first, last, hfirst, hlast, hle, hle'⟩ := hencloses.bounds i entry c hentry hbegins
    rw [if_pos hzero, hfirst, hlast]
    exact ⟨first, last, rfl, hle, hle'⟩
  · have hne : name ≠ [] := fun hnil => hzero (by rw [h.currentLength, hnil]; rfl)
    obtain ⟨left, right, hrange, hleft, hright⟩ :=
      h.inRange hne i entry hentry ((prefix_append _ _).trans hbegins)
    have horder : InOrder (compare table name.length c) left right := by
      obtain ⟨left', right', hrange', -, hall⟩ := h.range hne
      cases hrange.symm.trans hrange'
      exact inOrder_compare hall c
    have hcompare := compare_of_prefix hentry hbegins
    have hfirst := findFirst_le horder hleft hright hcompare
    have hnarrow : InOrder (compare table name.length c)
        (findFirst (compare table name.length c) left right) right :=
      fun a b ha hab hb =>
        horder a b (Nat.le_trans (findFirst_spec (Nat.le_trans hleft hright)).1 ha) hab hb
    have hlast := le_findLast hnarrow hfirst hright hcompare
    rw [if_neg hzero, hrange, h.currentLength]
    dsimp only
    rw [if_neg]
    · exact ⟨_, _, rfl, hfirst, hlast⟩
    · rintro ⟨heq, hother⟩
      rw [← heq] at hlast
      rw [Nat.le_antisymm hfirst hlast] at hother
      exact hother hcompare

theorem advance_of_narrow (hnarrow : search.narrow table c = some (first, last))
    (hentry : table.entries[first]? = some entry) :
    search.advance table c = ⟨search.currentLength + 1,
      if entry.length ≠ search.currentLength + 1 then search.mostRecentMatch else some entry,
      some (first, last)⟩ := by
  rw [advance, hnarrow]
  dsimp only
  rw [hentry]

theorem advance_of_fail (hnarrow : search.narrow table c = none) :
    search.advance table c = search.fail := by
  rw [advance, hnarrow]

/-- A name is the first entry that starts with it. -/
theorem le_of_entity_eq (hi : table.entries[i]? = some entry) (hj : table.entries[j]? = some entry')
    (hbegins : entry.entity <+: entry'.entity) : i ≤ j := by
  by_contra hlt
  obtain ⟨hi', hgi⟩ := List.getElem?_eq_some_iff.mp hi
  obtain ⟨hj', hgj⟩ := List.getElem?_eq_some_iff.mp hj
  have hsorted := pairwise_iff_getElem.mp table.sorted j i hj' hi' (by omega)
  obtain ⟨rest, hrest⟩ := hbegins
  rw [hgi, hgj, ← hrest] at hsorted
  conv at hsorted => rhs; rw [← append_nil entry.entity]
  exact not_lt_nil _ (lt_of_append_lt hsorted)

variable (hencloses : table.Encloses)

include hencloses

/-- A character that the search accepts. -/
theorem Finds.advance (h : Finds table search name)
    (hgoes : (search.advance table c).isEntityPrefix = true) :
    Finds table (search.advance table c) (name ++ [c]) := by
  refine ⟨h.toHolds.advance hgoes, fun _ i entry hentry hbegins => ?_, fun entry hmem hbegins => ?_⟩
  · obtain ⟨first, last, hnarrow, hbounds⟩ := h.narrow hencloses hentry hbegins
    obtain ⟨hle, hall⟩ := h.toHolds.narrow hnarrow
    obtain ⟨found, hfound, -⟩ := hall first (Nat.le_refl _) hle
    rw [advance_of_narrow hnarrow hfound]
    exact ⟨first, last, rfl, hbounds⟩
  · cases hnarrow : search.narrow table c with
    | none =>
      rw [advance_of_fail hnarrow] at hgoes
      cases hgoes
    | some range =>
      obtain ⟨first, last⟩ := range
      obtain ⟨hle, hall⟩ := h.toHolds.narrow hnarrow
      obtain ⟨found, hfound, hstarts⟩ := hall first (Nat.le_refl _) hle
      rw [advance_of_narrow hnarrow hfound, h.currentLength]
      by_cases hlength : entry.length = name.length + 1
      · -- The name is all that was read: it is the first of the entries that are left.
        have heq : entry.entity = name ++ [c] :=
          hbegins.eq_of_length (by rw [length_append]; exact hlength)
        obtain ⟨i, hi⟩ := mem_iff_getElem?.mp hmem
        obtain ⟨first', last', hnarrow', hlow, -⟩ :=
          h.narrow hencloses hi (show name ++ [c] <+: entry.entity from heq.symm ▸ prefix_rfl)
        cases hnarrow.symm.trans hnarrow'
        have hsame := Nat.le_antisymm hlow (le_of_entity_eq hi hfound (heq ▸ hstarts))
        rw [hsame, hi] at hfound
        cases hfound
        rw [if_neg (not_not.mpr hlength)]
        exact ⟨_, rfl, Nat.le_refl _⟩
      · have hshort : entry.length ≤ name.length := by
          have := hbegins.length_le
          rw [length_append] at this
          exact Nat.le_of_lt_succ (Nat.lt_of_le_of_ne this hlength)
        have hold : entry.entity <+: name :=
          prefix_of_prefix_length_le hbegins (prefix_append _ _) hshort
        obtain ⟨longest, hmatch, hlongest⟩ := h.longest entry hmem hold
        split
        · exact ⟨longest, hmatch, hlongest⟩
        · rename_i hnew
          exact ⟨found, rfl, by rw [not_not.mp hnew]; omega⟩

/-- A character that the search does not accept: no name goes on with it. -/
theorem Finds.fail (h : Finds table search name)
    (hgoes : (search.advance table c).isEntityPrefix = false) :
    search.advance table c = search.fail ∧ ¬table.IsStart (name ++ [c]) := by
  cases hnarrow : search.narrow table c with
  | some range =>
    obtain ⟨first, last⟩ := range
    obtain ⟨hle, hall⟩ := h.toHolds.narrow hnarrow
    obtain ⟨found, hfound, -⟩ := hall first (Nat.le_refl _) hle
    rw [advance_of_narrow hnarrow hfound] at hgoes
    cases hgoes
  | none =>
    refine ⟨advance_of_fail hnarrow, ?_⟩
    rintro ⟨entry, hmem, hbegins⟩
    obtain ⟨i, hi⟩ := mem_iff_getElem?.mp hmem
    obtain ⟨first, last, hsome, -⟩ := h.narrow hencloses hi hbegins
    rw [hnarrow] at hsome
    cases hsome

/-! ## Sequences of characters -/

/-- `advance` for the characters of a text, up to a failure: the source asserts that the search did
not fail. -/
def advanceOver (table : HTMLEntityTable) (search : HTMLEntitySearch) :
    List UChar → HTMLEntitySearch
  | [] => search
  | c :: text =>
    if search.isEntityPrefix then advanceOver table (search.advance table c) text else search

/-- What the search should say about the text it read. -/
structure Answers (table : HTMLEntityTable) (search : HTMLEntitySearch) (text : List UChar) :
    Prop where
  isEntityPrefix : search.isEntityPrefix = true ↔ table.IsStart text
  mostRecentMatch : ∀ entry, search.mostRecentMatch = some entry ↔ table.IsLongestMatch text entry

omit hencloses in
theorem Finds.mostRecentMatch_iff (h : Finds table search name) (entry : HTMLEntityTableEntry) :
    search.mostRecentMatch = some entry ↔ table.IsLongestMatch name entry := by
  have hlongest : ∀ {found}, search.mostRecentMatch = some found →
      table.IsLongestMatch name found := by
    intro found hfound
    obtain ⟨hmem, hbegins⟩ := h.matched found hfound
    refine ⟨hmem, hbegins, fun entry' hmem' hbegins' => ?_⟩
    obtain ⟨longest, hmatch, hle⟩ := h.longest entry' hmem' hbegins'
    cases hfound.symm.trans hmatch
    exact hle
  refine ⟨hlongest, fun hentry => ?_⟩
  obtain ⟨found, hfound, -⟩ := h.longest entry hentry.mem hentry.isPrefix
  rw [hfound, hentry.unique (hlongest hfound)]

theorem Finds.answers (h : Finds table search name)
    (hgoes : search.isEntityPrefix = true) : Answers table search name := by
  refine ⟨iff_of_true hgoes ?_, h.mostRecentMatch_iff⟩
  by_cases hnil : name = []
  · obtain ⟨entry, hmem⟩ := exists_mem_of_ne_nil _ hencloses.ne_nil
    exact ⟨entry, hmem, hnil ▸ nil_prefix⟩
  · obtain ⟨first, last, -, hle, hall⟩ := h.range hnil
    obtain ⟨entry, hentry, hbegins⟩ := hall first (Nat.le_refl _) hle
    exact ⟨entry, mem_of_getElem? hentry, hbegins⟩

omit hencloses in
/-- After a failure the longest match stays the longest one. -/
theorem isLongestMatch_append_iff (hfail : ¬table.IsStart (name ++ [c])) (rest : List UChar)
    (entry : HTMLEntityTableEntry) :
    table.IsLongestMatch (name ++ c :: rest) entry ↔ table.IsLongestMatch name entry := by
  have hbegins : ∀ {entry}, entry ∈ table.entries →
      (entry.entity <+: name ++ c :: rest ↔ entry.entity <+: name) := by
    intro entry hmem
    refine ⟨fun h => ?_, fun h => h.trans (prefix_append _ _)⟩
    by_cases hlength : entry.entity.length ≤ name.length
    · exact prefix_of_prefix_length_le h (prefix_append _ _) hlength
    · refine absurd ⟨entry, hmem, prefix_of_prefix_length_le ⟨rest, ?_⟩ h ?_⟩ hfail
      · rw [append_assoc]
        rfl
      · rw [length_append, length_singleton]
        omega
  constructor
  · rintro ⟨hmem, hpre, hlongest⟩
    exact ⟨hmem, (hbegins hmem).mp hpre, fun e he h => hlongest e he ((hbegins he).mpr h)⟩
  · rintro ⟨hmem, hpre, hlongest⟩
    exact ⟨hmem, (hbegins hmem).mpr hpre, fun e he h => hlongest e he ((hbegins he).mp h)⟩

theorem Finds.answers_fail (h : Finds table search name)
    (hgoes : (search.advance table c).isEntityPrefix = false) (rest : List UChar) :
    Answers table (search.advance table c) (name ++ c :: rest) := by
  obtain ⟨heq, hstart⟩ := h.fail hencloses hgoes
  refine ⟨iff_of_false (by rw [hgoes]; exact Bool.false_ne_true) ?_, fun entry => ?_⟩
  · rintro ⟨entry, hmem, hbegins⟩
    refine hstart ⟨entry, hmem, List.IsPrefix.trans ⟨rest, ?_⟩ hbegins⟩
    rw [append_assoc]
    rfl
  · rw [isLongestMatch_append_iff hstart, heq]
    exact h.mostRecentMatch_iff entry

omit hencloses in
theorem advanceOver_of_fail (h : search.isEntityPrefix = false) (text : List UChar) :
    advanceOver table search text = search := by
  cases text with
  | nil => rfl
  | cons c text => rw [advanceOver, if_neg (by rw [h]; exact Bool.false_ne_true)]

/-- A search over a text, after the characters of a name. -/
theorem Finds.advanceOver :
    ∀ {search : HTMLEntitySearch} {name : List UChar}, Finds table search name →
    search.isEntityPrefix = true →
    Answers table (advanceOver table search text) (name ++ text) := by
  induction text with
  | nil =>
    intro search name h hgoes
    rw [append_nil]
    exact h.answers hencloses hgoes
  | cons c text ih =>
    intro search name h hgoes
    rw [HTMLEntitySearch.advanceOver, if_pos hgoes]
    cases hnext : (search.advance table c).isEntityPrefix with
    | true =>
      have hrest := ih (h.advance hencloses hnext) hnext
      rwa [append_assoc] at hrest
    | false =>
      rw [advanceOver_of_fail hnext]
      exact h.answers_fail hencloses hnext text

/-- The search knows whether the text is the start of a name, and the longest name in it. -/
theorem answers_advanceOver (text : List UChar) :
    Answers table (advanceOver table (start table) text) text :=
  (finds_start hencloses).advanceOver hencloses rfl

omit hencloses

/-! ## The reads of the search -/

section Reads

variable (table)

/-- `compare` with its reads checked: there is no result for an entry outside of the table or a
character past the end of a name. -/
def compareChecked (currentLength : ℕ) (nextCharacter : UChar) (entry : ℕ) :
    Option CompareResult := do
  let e ← table.entries[entry]?
  if e.length < currentLength + 1 then return .before
  let entryNextCharacter ← e.entity[currentLength]?
  return if entryNextCharacter = nextCharacter then .prefixOf
    else if entryNextCharacter < nextCharacter then .before
    else .after

def findFirstLoopChecked (compare : ℕ → Option CompareResult) : ℕ → ℕ → ℕ → Option ℕ
  | 0, _, right => some right
  | fuel + 1, left, right =>
    if left + 1 < right then do
      let probe := halfway left right
      let result ← compare probe
      if result = .before then findFirstLoopChecked compare fuel probe right
      else findFirstLoopChecked compare fuel left probe
    else some right

variable (compare : ℕ → Option CompareResult) (left right : ℕ)

def findFirstChecked : Option ℕ :=
  if left = right then some left
  else do
    let result ← compare left
    match result with
    | .prefixOf => some left
    | .after => some right
    | .before => findFirstLoopChecked compare (right - left) left right

def findLastLoopChecked (compare : ℕ → Option CompareResult) : ℕ → ℕ → ℕ → Option ℕ
  | 0, left, _ => some left
  | fuel + 1, left, right =>
    if left + 1 < right then do
      let probe := halfway left right
      let result ← compare probe
      if result = .after then findLastLoopChecked compare fuel left probe
      else findLastLoopChecked compare fuel probe right
    else some left

def findLastChecked : Option ℕ :=
  if left = right then some right
  else do
    let result ← compare right
    match result with
    | .prefixOf => some right
    | .before => some left
    | .after => findLastLoopChecked compare (right - left) left right

/-- The searches of `advance` after the first character, from pointers that are not null. -/
def searchChecked : Option (Option (ℕ × ℕ)) := do
  let first ← findFirstChecked compare left right
  let last ← findLastChecked compare first right
  if first = last then
    let result ← compare first
    return if result ≠ .prefixOf then none else some (first, last)
  else return some (first, last)

/-- The part of the table that is left, with null pointers not read. -/
def narrowChecked (search : HTMLEntitySearch) (nextCharacter : UChar) : Option (Option (ℕ × ℕ)) :=
  match search.range with
  | none => none
  | some (left, right) =>
    if search.currentLength = 0 then
      match table.firstEntryStartingWith nextCharacter,
        table.lastEntryStartingWith nextCharacter with
      | some first, some last => some (some (first, last))
      | _, _ => some none
    else searchChecked (compareChecked table search.currentLength nextCharacter) left right

/-- `advance` with its reads checked. -/
def advanceChecked (search : HTMLEntitySearch) (nextCharacter : UChar) :
    Option HTMLEntitySearch := do
  let narrowed ← narrowChecked table search nextCharacter
  match narrowed with
  | none => return search.fail
  | some (first, last) =>
    let currentLength := search.currentLength + 1
    let entry ← table.entries[first]?
    return {
      currentLength := currentLength
      mostRecentMatch := if entry.length ≠ currentLength then search.mostRecentMatch else some entry
      range := some (first, last) }

def advanceOverChecked (search : HTMLEntitySearch) : List UChar → Option HTMLEntitySearch
  | [] => some search
  | c :: text =>
    if search.isEntityPrefix then do
      let advanced ← advanceChecked table search c
      advanceOverChecked advanced text
    else some search

end Reads

section Checked

variable {compare : ℕ → CompareResult} {compare' : ℕ → Option CompareResult} {left right : ℕ}

theorem compareChecked_eq
    (hentry : table.entries[i]? = some entry) (currentLength : ℕ) (c : UChar) :
    compareChecked table currentLength c i =
      some (HTMLEntitySearch.compare table currentLength c i) := by
  rw [compareChecked, HTMLEntitySearch.compare, hentry, Option.bind_some]
  by_cases hshort : entry.length < currentLength + 1
  · have hnone : entry.entity[currentLength]? = none :=
      List.getElem?_eq_none (Nat.le_of_lt_succ hshort)
    rw [hnone]
    exact if_pos hshort
  · have hlt : currentLength < entry.entity.length := Nat.lt_of_not_le fun hle =>
      hshort (Nat.lt_succ_of_le hle)
    have hsome := List.getElem?_eq_getElem hlt
    refine (if_neg hshort).trans ?_
    rw [hsome]
    rfl

section

variable (h : ∀ i, left ≤ i → i ≤ right → compare' i = some (compare i))
include h

theorem findFirstLoopChecked_eq :
    findFirstLoopChecked compare' fuel left right =
      some (findFirstLoop compare fuel left right) := by
  induction fuel generalizing left right with
  | zero => rfl
  | succ fuel ih =>
    rw [findFirstLoopChecked, findFirstLoop]
    by_cases hgap : left + 1 < right
    · obtain ⟨hlow, hhigh⟩ := halfway_between hgap
      rw [if_pos hgap]
      dsimp only
      rw [h _ (Nat.le_of_lt hlow) (Nat.le_of_lt hhigh)]
      change (if _ then _ else _) = _
      split
      · exact ih fun i hi hi' => h i (by omega) hi'
      · exact ih fun i hi hi' => h i hi (by omega)
    · rw [if_neg hgap, if_neg hgap]

theorem findLastLoopChecked_eq :
    findLastLoopChecked compare' fuel left right = some (findLastLoop compare fuel left right) := by
  induction fuel generalizing left right with
  | zero => rfl
  | succ fuel ih =>
    rw [findLastLoopChecked, findLastLoop]
    by_cases hgap : left + 1 < right
    · obtain ⟨hlow, hhigh⟩ := halfway_between hgap
      rw [if_pos hgap]
      dsimp only
      rw [h _ (Nat.le_of_lt hlow) (Nat.le_of_lt hhigh)]
      change (if _ then _ else _) = _
      split
      · exact ih fun i hi hi' => h i hi (by omega)
      · exact ih fun i hi hi' => h i (by omega) hi'
    · rw [if_neg hgap, if_neg hgap]

theorem findFirstChecked_eq (hle : left ≤ right) :
    findFirstChecked compare' left right = some (findFirst compare left right) := by
  rw [findFirstChecked, findFirst]
  by_cases heq : left = right
  · rw [if_pos heq, if_pos heq]
  · rw [if_neg heq, if_neg heq, h left (Nat.le_refl _) hle]
    cases hleft : compare left with
    | prefixOf | after => rfl
    | before => exact findFirstLoopChecked_eq h

theorem findLastChecked_eq (hle : left ≤ right) :
    findLastChecked compare' left right = some (findLast compare left right) := by
  rw [findLastChecked, findLast]
  by_cases heq : left = right
  · rw [if_pos heq, if_pos heq]
  · rw [if_neg heq, if_neg heq, h right hle (Nat.le_refl _)]
    cases hright : compare right with
    | prefixOf | before => rfl
    | after => exact findLastLoopChecked_eq h

theorem searchChecked_eq (hle : left ≤ right) :
    searchChecked compare' left right = some (if findFirst compare left right =
          findLast compare (findFirst compare left right) right ∧
          compare (findFirst compare left right) ≠ .prefixOf then none
        else some (findFirst compare left right,
          findLast compare (findFirst compare left right) right)) := by
  obtain ⟨hlow, hhigh, -⟩ := @findFirst_spec compare _ _ hle
  rw [searchChecked, findFirstChecked_eq h hle]
  dsimp only [Option.bind_eq_bind, Option.bind_some]
  rw [findLastChecked_eq (fun i hi hi' => h i (by omega) hi') hhigh, h _ hlow hhigh]
  dsimp only [Option.bind_some]
  by_cases hone : findFirst compare left right =
      findLast compare (findFirst compare left right) right
  · rw [if_pos hone]
    by_cases hother : compare (findFirst compare left right) ≠ .prefixOf
    · rw [if_pos hother, if_pos ⟨hone, hother⟩]
      rfl
    · rw [if_neg hother, if_neg fun hboth => hother hboth.2]
      rfl
  · rw [if_neg hone, if_neg fun hboth => hone hboth.1]
    rfl

end

theorem Holds.narrowChecked
    (h : Holds table search name) (hgoes : search.isEntityPrefix = true) (c : UChar) :
    narrowChecked table search c = some (search.narrow table c) := by
  obtain ⟨⟨left, right⟩, hrange⟩ := Option.isSome_iff_exists.mp hgoes
  rw [HTMLEntitySearch.narrowChecked, HTMLEntitySearch.narrow, hrange]
  dsimp only
  by_cases hzero : search.currentLength = 0
  · rw [if_pos hzero, if_pos hzero]
    cases table.firstEntryStartingWith c <;> cases table.lastEntryStartingWith c <;> rfl
  · have hne : name ≠ [] := fun hnil => hzero (by rw [h.currentLength, hnil]; rfl)
    obtain ⟨left', right', hrange', hle, hall⟩ := h.range hne
    cases hrange.symm.trans hrange'
    rw [if_neg hzero, if_neg hzero]
    refine searchChecked_eq (fun i hi hi' => ?_) hle
    obtain ⟨entry, hentry, -⟩ := hall i hi hi'
    exact compareChecked_eq hentry _ c

/-- A search that did not fail reads only what is there. -/
theorem Holds.advanceChecked
    (h : Holds table search name) (hgoes : search.isEntityPrefix = true) (c : UChar) :
    advanceChecked table search c = some (search.advance table c) := by
  rw [HTMLEntitySearch.advanceChecked, h.narrowChecked hgoes]
  dsimp only [Option.bind_eq_bind]
  cases hnext : search.narrow table c with
  | none =>
    rw [advance_of_fail hnext]
    rfl
  | some range =>
    obtain ⟨first, last⟩ := range
    obtain ⟨hle, hall⟩ := h.narrow hnext
    obtain ⟨entry, hentry, -⟩ := hall first (Nat.le_refl _) hle
    dsimp only [Option.bind_some]
    rw [hentry, advance_of_narrow hnext hentry]
    rfl

theorem Holds.advanceOverChecked : ∀ {search : HTMLEntitySearch}
    {name : List UChar}, Holds table search name → advanceOverChecked table search text =
      some (advanceOver table search text) := by
  induction text with
  | nil => intro _ _ _; rfl
  | cons c text ih =>
    intro search name h
    rw [HTMLEntitySearch.advanceOverChecked, HTMLEntitySearch.advanceOver]
    cases hgoes : search.isEntityPrefix with
    | false => rfl
    | true =>
      rw [h.advanceChecked hgoes]
      change HTMLEntitySearch.advanceOverChecked table (search.advance table c) text = _
      cases hnext : (search.advance table c).isEntityPrefix with
      | true => exact ih (h.advance hnext)
      | false =>
        rw [advanceOver_of_fail hnext]
        cases text with
        | nil => rfl
        | cons d text => rw [HTMLEntitySearch.advanceOverChecked, hnext]; rfl

end Checked

end HTMLEntitySearch

end WebKit.HTML
