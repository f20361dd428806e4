import WebKit.Text.SegmentedString

/-!
# Searching the table of character references

The names of the character references are in a table that the build generates from
`HTMLEntityNames.in`, sorted by name.  A search is given the characters of a name one after the
other, and keeps the part of the table whose names start with them.

* `HTMLEntityTable`: the table and the offsets by first letter, with what the generating script
  gives.
* `HTMLEntitySearch`: the search, with the functions of the source under their names.
* `HTMLEntitySearch.Holds`: what a search that did not fail knows, and `Holds.advance`: it knows it
  after every character.
-/

namespace WebKit.HTML

open Text
open List

/-- A code point.  The arithmetic of the parsers wraps. -/
abbrev UChar32 := Int32

/-! ## The table -/

structure HTMLEntityTableEntry where
  entity : List UChar
  firstValue : UChar32
  secondValue : UChar32
  deriving DecidableEq

namespace HTMLEntityTableEntry

def length (entry : HTMLEntityTableEntry) : ℕ := entry.entity.length

def lastCharacter (entry : HTMLEntityTableEntry) : UChar := entry.entity.getLastD 0

end HTMLEntityTableEntry

/-- A character constant of the source. -/
def ch (c : Char) : UChar := UInt16.ofNat c.toNat

def isASCIILower (c : UChar) : Bool := decide (ch 'a' ≤ c) && decide (c ≤ ch 'z')

def isASCIIUpper (c : UChar) : Bool := decide (ch 'A' ≤ c) && decide (c ≤ ch 'Z')

def isASCIIDigit (c : UChar) : Bool := decide (ch '0' ≤ c) && decide (c ≤ ch '9')

def isAlphaNumeric (c : UChar) : Bool := isASCIIDigit c || isASCIILower c || isASCIIUpper c

/-- The generated table.  A pointer into it is an index, and no index is the null pointer. -/
structure HTMLEntityTable where
  entries : List HTMLEntityTableEntry
  firstEntryStartingWith : UChar → Option ℕ
  lastEntryStartingWith : UChar → Option ℕ
  /-- The script sorts the entries by name. -/
  sorted : entries.Pairwise fun entry entry' => entry.entity < entry'.entity
  /-- There are offsets of letters only. -/
  letters : ∀ c first, firstEntryStartingWith c = some first → isASCIIUpper c ∨ isASCIILower c
  /-- The offsets of a letter enclose entries that start with it. -/
  offsets : ∀ c first last, firstEntryStartingWith c = some first →
    lastEntryStartingWith c = some last → first ≤ last ∧
      ∀ i, first ≤ i → i ≤ last → ∃ entry, entries[i]? = some entry ∧ [c] <+: entry.entity

/-- What giving characters back relies on, and the names of `HTMLEntityNames.in` have: the shortest
are `GT`, `LT`, `gt` and `lt`, and there is no NUL in them. -/
structure HTMLEntityTable.GivesBack (table : HTMLEntityTable) : Prop where
  two_le_length : ∀ entry ∈ table.entries, 2 ≤ entry.length
  ne_zero : ∀ entry ∈ table.entries, ∀ c ∈ entry.entity, c ≠ 0

/-! ## The search -/

/-- `CompareResult`. -/
inductive CompareResult
  | before
  | prefixOf
  | after
  deriving DecidableEq

/-- `m_first` and `m_last` are null together: one of them is null only after a failure. -/
structure HTMLEntitySearch where
  currentLength : ℕ
  mostRecentMatch : Option HTMLEntityTableEntry
  range : Option (ℕ × ℕ)

namespace HTMLEntitySearch

variable (table : HTMLEntityTable)

/-- The constructor. -/
def start : HTMLEntitySearch := ⟨0, none, some (0, table.entries.length - 1)⟩

variable (search : HTMLEntitySearch)

def isEntityPrefix : Bool := search.range.isSome

def fail : HTMLEntitySearch := { search with range := none }

/-- `compare` for the entry at an index. -/
def compare (currentLength : ℕ) (nextCharacter : UChar) (entry : ℕ) : CompareResult :=
  match (table.entries[entry]?).bind fun e => e.entity[currentLength]? with
  | none => .before
  | some entryNextCharacter =>
    if entryNextCharacter = nextCharacter then .prefixOf
    else if entryNextCharacter < nextCharacter then .before
    else .after

/-- `halfway`. -/
def halfway (left right : ℕ) : ℕ := left + (right - left) / 2

/-- The loop of `findFirst`: every round halves what is between `left` and `right`. -/
def findFirstLoop (compare : ℕ → CompareResult) : ℕ → ℕ → ℕ → ℕ
  | 0, _, right => right
  | fuel + 1, left, right =>
    if left + 1 < right then
      let probe := halfway left right
      if compare probe = .before then findFirstLoop compare fuel probe right
      else findFirstLoop compare fuel left probe
    else right

def findFirst (compare : ℕ → CompareResult) (left right : ℕ) : ℕ :=
  if left = right then left
  else match compare left with
    | .prefixOf => left
    | .after => right
    | .before => findFirstLoop compare (right - left) left right

/-- The loop of `findLast`. -/
def findLastLoop (compare : ℕ → CompareResult) : ℕ → ℕ → ℕ → ℕ
  | 0, left, _ => left
  | fuel + 1, left, right =>
    if left + 1 < right then
      let probe := halfway left right
      if compare probe = .after then findLastLoop compare fuel left probe
      else findLastLoop compare fuel probe right
    else left

def findLast (compare : ℕ → CompareResult) (left right : ℕ) : ℕ :=
  if left = right then right
  else match compare right with
    | .prefixOf => right
    | .before => left
    | .after => findLastLoop compare (right - left) left right

/-- The part of the table that is left.  `findLast` starts at the new `m_first`. -/
def narrow (nextCharacter : UChar) : Option (ℕ × ℕ) :=
  if search.currentLength = 0 then
    match table.firstEntryStartingWith nextCharacter, table.lastEntryStartingWith nextCharacter with
    | some first, some last => some (first, last)
    | _, _ => none
  else
    match search.range with
    | none => none
    | some (left, right) =>
      let compare := compare table search.currentLength nextCharacter
      let first := findFirst compare left right
      let last := findLast compare first right
      if first = last ∧ compare first ≠ .prefixOf then none else some (first, last)

def advance (nextCharacter : UChar) : HTMLEntitySearch :=
  match search.narrow table nextCharacter with
  | none => search.fail
  | some (first, last) =>
    let currentLength := search.currentLength + 1
    match table.entries[first]? with
    | none => { search with currentLength := currentLength, range := some (first, last) }
    | some entry =>
      { currentLength := currentLength
        mostRecentMatch := if entry.length ≠ currentLength then search.mostRecentMatch else some entry
        range := some (first, last) }

/-! ## What a search knows -/

section Bisection

variable {compare : ℕ → CompareResult} {left right : ℕ}

/-- The order of the results in a sorted part of the table. -/
def rank : CompareResult → ℕ
  | .before => 0
  | .prefixOf => 1
  | .after => 2

theorem halfway_between (hgap : left + 1 < right) :
    left < halfway left right ∧ halfway left right < right := by
  rw [halfway]
  omega

/-- The neighbours that a loop ends between: every round goes on with one half. -/
def halve (goesRight : ℕ → Bool) : ℕ → ℕ → ℕ → ℕ × ℕ
  | 0, left, right => (left, right)
  | fuel + 1, left, right =>
    if left + 1 < right then
      if goesRight (halfway left right) then halve goesRight fuel (halfway left right) right
      else halve goesRight fuel left (halfway left right)
    else (left, right)

theorem halve_spec (goesRight : ℕ → Bool) (hfuel : right - left ≤ fuel)
    (hlt : left < right) : ∃ i, halve goesRight fuel left right = (i, i + 1) ∧ left ≤ i ∧
      i < right ∧ (i = left ∨ goesRight i = true) ∧
        (i + 1 = right ∨ goesRight (i + 1) = false) := by
  induction fuel generalizing left right with
  | zero => omega
  | succ fuel ih =>
    rw [halve]
    by_cases hgap : left + 1 < right
    · obtain ⟨hlow, hhigh⟩ := halfway_between hgap
      rw [if_pos hgap]
      cases hprobe : goesRight (halfway left right) with
      | true =>
        obtain ⟨i, heq, h1, h2, h3, h4⟩ := @ih (halfway left right) right (by omega) hhigh
        exact ⟨i, heq, by omega, h2, .inr (h3.elim (· ▸ hprobe) id), h4⟩
      | false =>
        obtain ⟨i, heq, h1, h2, h3, h4⟩ := @ih left (halfway left right) (by omega) hlow
        exact ⟨i, heq, h1, by omega, h3, .inr (h4.elim (· ▸ hprobe) id)⟩
    · rw [if_neg hgap]
      obtain rfl : right = left + 1 := by omega
      exact ⟨left, rfl, Nat.le_refl _, hlt, .inl rfl, .inl rfl⟩

theorem findFirstLoop_eq (compare : ℕ → CompareResult) (fuel left right : ℕ) :
    findFirstLoop compare fuel left right =
      (halve (fun i => compare i = .before) fuel left right).2 := by
  induction fuel generalizing left right with
  | zero => rfl
  | succ fuel ih => simp only [findFirstLoop, halve, ih, decide_eq_true_eq, apply_ite Prod.snd]

theorem findLastLoop_eq (compare : ℕ → CompareResult) (fuel left right : ℕ) :
    findLastLoop compare fuel left right =
      (halve (fun i => compare i ≠ .after) fuel left right).1 := by
  induction fuel generalizing left right with
  | zero => rfl
  | succ fuel ih =>
    simp only [findLastLoop, halve, ih, decide_eq_true_eq, apply_ite Prod.fst, ite_not]

theorem findFirstLoop_spec (hfuel : right - left ≤ fuel) (hlt : left < right)
    (hleft : compare left = .before) :
    left < findFirstLoop compare fuel left right ∧ findFirstLoop compare fuel left right ≤ right ∧
      compare (findFirstLoop compare fuel left right - 1) = .before ∧
        (findFirstLoop compare fuel left right = right ∨
          compare (findFirstLoop compare fuel left right) ≠ .before) := by
  obtain ⟨i, heq, hle, hlt', hbelow, habove⟩ := halve_spec (fun i => compare i = .before) hfuel hlt
  rw [findFirstLoop_eq, heq]
  exact ⟨Nat.lt_succ_of_le hle, hlt', hbelow.elim (· ▸ hleft) of_decide_eq_true,
    habove.imp_right of_decide_eq_false⟩

theorem findLastLoop_spec (hfuel : right - left ≤ fuel) (hlt : left < right)
    (hright : compare right = .after) :
    left ≤ findLastLoop compare fuel left right ∧ findLastLoop compare fuel left right < right ∧
      compare (findLastLoop compare fuel left right + 1) = .after ∧
        (findLastLoop compare fuel left right = left ∨
          compare (findLastLoop compare fuel left right) ≠ .after) := by
  obtain ⟨i, heq, hle, hlt', hbelow, habove⟩ := halve_spec (fun i => compare i ≠ .after) hfuel hlt
  rw [findLastLoop_eq, heq]
  exact ⟨hle, hlt', habove.elim (· ▸ hright) fun h => not_not.mp (of_decide_eq_false h),
    hbelow.imp_right of_decide_eq_true⟩

/-- The first entry found starts with the characters, unless it is the last one. -/
theorem findFirst_spec (hle : left ≤ right) :
    left ≤ findFirst compare left right ∧ findFirst compare left right ≤ right ∧
      (findFirst compare left right = right ∨
        compare (findFirst compare left right) ≠ .before) := by
  rw [findFirst]
  by_cases heq : left = right
  · rw [if_pos heq]
    exact ⟨Nat.le_refl _, hle, .inl heq⟩
  · rw [if_neg heq]
    cases hleft : compare left with
    | prefixOf => exact ⟨Nat.le_refl _, hle, .inr (by rw [hleft]; simp)⟩
    | after => exact ⟨hle, Nat.le_refl _, .inl rfl⟩
    | before =>
      obtain ⟨h1, h2, -, h3⟩ :=
        findFirstLoop_spec (Nat.le_refl _) (Nat.lt_of_le_of_ne hle heq) hleft
      exact ⟨Nat.le_of_lt h1, h2, h3⟩

/-- The last entry found starts with the characters, unless it is the first one. -/
theorem findLast_spec (hle : left ≤ right) :
    left ≤ findLast compare left right ∧ findLast compare left right ≤ right ∧
      (findLast compare left right = left ∨ compare (findLast compare left right) ≠ .after) := by
  rw [findLast]
  by_cases heq : left = right
  · rw [if_pos heq]
    exact ⟨hle, Nat.le_refl _, .inl heq.symm⟩
  · rw [if_neg heq]
    cases hright : compare right with
    | prefixOf => exact ⟨hle, Nat.le_refl _, .inr (by rw [hright]; simp)⟩
    | before => exact ⟨Nat.le_refl _, hle, .inl rfl⟩
    | after =>
      obtain ⟨h1, h2, -, h3⟩ :=
        findLastLoop_spec (Nat.le_refl _) (Nat.lt_of_le_of_ne hle heq) hright
      exact ⟨h1, Nat.le_of_lt h2, h3⟩

/-- The part that is left has only entries that go on with the character. -/
theorem bisection_spec (hle : left ≤ right)
    (hmono : ∀ i j, left ≤ i → i ≤ j → j ≤ right → rank (compare i) ≤ rank (compare j))
    (hfound : ¬(findFirst compare left right =
        findLast compare (findFirst compare left right) right ∧
      compare (findFirst compare left right) ≠ .prefixOf)) :
    left ≤ findFirst compare left right ∧
      findFirst compare left right ≤ findLast compare (findFirst compare left right) right ∧
      findLast compare (findFirst compare left right) right ≤ right ∧
      ∀ i, findFirst compare left right ≤ i →
        i ≤ findLast compare (findFirst compare left right) right → compare i = .prefixOf := by
  obtain ⟨hf1, hf2, hf3⟩ := @findFirst_spec compare _ _ hle
  obtain ⟨hl1, hl2, hl3⟩ := @findLast_spec compare _ _ hf2
  refine ⟨hf1, hl1, hl2, fun i hi1 hi2 => ?_⟩
  generalize findFirst compare left right = first at *
  generalize findLast compare first right = last at *
  by_cases hone : first = last
  · have hgoes : compare first = .prefixOf := by
      by_contra hne
      exact hfound ⟨hone, hne⟩
    rw [show i = first by omega, hgoes]
  · have hfirst : compare first ≠ .before := hf3.resolve_left fun heq => hone (by omega)
    have hlast : compare last ≠ .after := hl3.resolve_left fun heq => hone heq.symm
    have h1 := hmono first i hf1 hi1 (by omega)
    have h2 := hmono i last (by omega) hi2 hl2
    revert h1 h2 hfirst hlast
    cases compare first <;> cases compare last <;> cases compare i <;> simp [rank]

end Bisection

section Holds

variable {table}

/-- What a search that did not fail on the characters of a name knows. -/
structure Holds (table : HTMLEntityTable) (search : HTMLEntitySearch) (name : List UChar) :
    Prop where
  currentLength : search.currentLength = name.length
  range : name ≠ [] → ∃ first last, search.range = some (first, last) ∧ first ≤ last ∧
    ∀ i, first ≤ i → i ≤ last → ∃ entry, table.entries[i]? = some entry ∧ name <+: entry.entity
  matched : ∀ entry, search.mostRecentMatch = some entry →
    entry ∈ table.entries ∧ entry.entity <+: name

theorem holds_start : Holds table (start table) [] :=
  ⟨rfl, fun hne => absurd rfl hne, fun _ h => by cases h⟩

/-- What is compared after a name is the character at its end. -/
def resultAt (c : UChar) : List UChar → CompareResult
  | [] => .before
  | d :: _ => if d = c then .prefixOf else if d < c then .before else .after

variable {entry : HTMLEntityTableEntry} {i : ℕ} {name rest : List UChar} {c : UChar}
  {search : HTMLEntitySearch}

theorem compare_eq (hentry : table.entries[i]? = some entry) (hname : entry.entity = name ++ rest)
    (c : UChar) : compare table name.length c i = resultAt c rest := by
  rw [compare, hentry, Option.bind_some, hname, List.getElem?_append_right (Nat.le_refl _),
    Nat.sub_self]
  cases rest <;> rfl

/-- The entry goes on with the character when the comparison says so. -/
theorem prefix_of_compare (hentry : table.entries[i]? = some entry)
    (hname : name <+: entry.entity) (hcompare : compare table name.length c i = .prefixOf) :
    name ++ [c] <+: entry.entity := by
  obtain ⟨rest, hrest⟩ := hname
  rw [compare_eq hentry hrest.symm] at hcompare
  cases rest with
  | nil => cases hcompare
  | cons d rest =>
    rw [resultAt] at hcompare
    by_cases hd : d = c
    · exact ⟨rest, by rw [← hrest, hd, append_assoc]; rfl⟩
    · rw [if_neg hd] at hcompare
      split at hcompare <;> cases hcompare

theorem lt_of_append_lt (h : name ++ rest < name ++ rest') : rest < rest' := by
  induction name with
  | nil => exact h
  | cons c name ih =>
    rw [cons_append, cons_append, cons_lt_cons_iff] at h
    rcases h with h | ⟨-, h⟩
    · exact absurd h (UInt16.lt_irrefl c)
    · exact ih h

/-- A later text is compared with no smaller result. -/
theorem rank_resultAt_le (hlt : rest < rest') (c : UChar) :
    rank (resultAt c rest) ≤ rank (resultAt c rest') := by
  cases rest with
  | nil => exact Nat.zero_le _
  | cons d rest =>
    cases rest' with
    | nil => exact absurd hlt (not_lt_nil _)
    | cons d' rest' =>
      have hle : d < d' ∨ d = d' := (cons_lt_cons_iff.mp hlt).imp id And.left
      rcases hle with hd | rfl
      · rw [resultAt, resultAt]
        by_cases h1 : d = c
        · subst h1
          have h2 : ¬d' = d := fun h => UInt16.lt_irrefl d (by rwa [h] at hd)
          have h3 : ¬d' < d := fun h => UInt16.lt_irrefl d (UInt16.lt_trans hd h)
          rw [if_pos rfl, if_neg h2, if_neg h3]
          decide
        · rw [if_neg h1]
          by_cases h2 : d < c
          · rw [if_pos h2]
            exact Nat.zero_le _
          · have h3 : ¬d' = c := fun h => h2 (h ▸ hd)
            have h4 : ¬d' < c := fun h => h2 (UInt16.lt_trans hd h)
            exact Nat.le_of_eq (by rw [if_neg h2, if_neg h3, if_neg h4])
      · exact Nat.le_refl _

/-- The entries of a part of the table that start with a name are compared in order. -/
theorem rank_compare_le (hij : i ≤ j)
    (hi : table.entries[i]? = some entry) (hj : table.entries[j]? = some entry')
    (hname : name <+: entry.entity) (hname' : name <+: entry'.entity) (c : UChar) :
    rank (compare table name.length c i) ≤ rank (compare table name.length c j) := by
  rcases Nat.eq_or_lt_of_le hij with rfl | hlt
  · exact Nat.le_refl _
  · obtain ⟨rest, hrest⟩ := hname
    obtain ⟨rest', hrest'⟩ := hname'
    obtain ⟨hi', hgi⟩ := List.getElem?_eq_some_iff.mp hi
    obtain ⟨hj', hgj⟩ := List.getElem?_eq_some_iff.mp hj
    have hsorted := pairwise_iff_getElem.mp table.sorted i j hi' hj' hlt
    rw [hgi, hgj, ← hrest, ← hrest'] at hsorted
    rw [compare_eq hi hrest.symm, compare_eq hj hrest'.symm]
    exact rank_resultAt_le (lt_of_append_lt hsorted) c

variable (h : Holds table search name)

include h

/-- The part of the table after a character. -/
theorem Holds.narrow (hnarrow : search.narrow table c = some (first, last)) :
    first ≤ last ∧ ∀ i, first ≤ i → i ≤ last →
      ∃ entry, table.entries[i]? = some entry ∧ name ++ [c] <+: entry.entity := by
  rw [HTMLEntitySearch.narrow] at hnarrow
  by_cases hzero : search.currentLength = 0
  · have hnil : name = [] := eq_nil_of_length_eq_zero (h.currentLength ▸ hzero)
    rw [if_pos hzero] at hnarrow
    cases hf : table.firstEntryStartingWith c with
    | none => rw [hf] at hnarrow; cases hnarrow
    | some f =>
      cases hl : table.lastEntryStartingWith c with
      | none => rw [hf, hl] at hnarrow; cases hnarrow
      | some l =>
        rw [hf, hl] at hnarrow
        cases hnarrow
        rw [hnil]
        exact table.offsets c _ _ hf hl
  · have hne : name ≠ [] := fun hnil => hzero (by rw [h.currentLength, hnil]; rfl)
    obtain ⟨left, right, hrange, hle, hall⟩ := h.range hne
    rw [if_neg hzero, hrange, h.currentLength] at hnarrow
    dsimp only at hnarrow
    split at hnarrow
    · cases hnarrow
    · rename_i hfound
      cases hnarrow
      obtain ⟨h1, h2, h3, h4⟩ := bisection_spec hle (fun i j hi hij hj => by
        obtain ⟨e, he, hpre⟩ := hall i hi (by omega)
        obtain ⟨e', he', hpre'⟩ := hall j (by omega) hj
        exact rank_compare_le hij he he' hpre hpre' c) hfound
      refine ⟨h2, fun i hi1 hi2 => ?_⟩
      obtain ⟨e, he, hpre⟩ := hall i (by omega) (by omega)
      exact ⟨e, he, prefix_of_compare he hpre (h4 i hi1 hi2)⟩

/-- A character that the search accepts. -/
theorem Holds.advance (hgoes : (search.advance table c).isEntityPrefix = true) :
    Holds table (search.advance table c) (name ++ [c]) := by
  rw [HTMLEntitySearch.advance] at hgoes ⊢
  cases hnarrow : search.narrow table c with
  | none => rw [hnarrow] at hgoes; cases hgoes
  | some range =>
    obtain ⟨first, last⟩ := range
    obtain ⟨hle, hall⟩ := h.narrow hnarrow
    obtain ⟨entry, hentry, hpre⟩ := hall first (Nat.le_refl _) hle
    dsimp only
    rw [hentry]
    refine ⟨?_, fun _ => ⟨first, last, rfl, hle, hall⟩, fun e he => ?_⟩
    · rw [h.currentLength, length_append]
      rfl
    · dsimp only at he
      split at he
      · exact (h.matched e he).imp id fun hp => hp.trans (prefix_append _ _)
      · rename_i hlength
        cases he
        refine ⟨mem_of_getElem? hentry, ?_⟩
        have hlen : entry.entity.length = (name ++ [c]).length := by
          rw [length_append, ← h.currentLength]
          exact not_not.mp hlength
        exact ⟨[], by rw [append_nil, hpre.eq_of_length hlen.symm]⟩

/-- After a failure the match is the one there was. -/
theorem Holds.fail (hgoes : (search.advance table c).isEntityPrefix = false) :
    (search.advance table c).currentLength = name.length ∧
      ∀ entry, (search.advance table c).mostRecentMatch = some entry →
        entry ∈ table.entries ∧ entry.entity <+: name := by
  rw [HTMLEntitySearch.advance] at hgoes ⊢
  cases hnarrow : search.narrow table c with
  | none => exact ⟨h.currentLength, h.matched⟩
  | some range =>
    rw [hnarrow] at hgoes
    dsimp only at hgoes
    split at hgoes <;> cases hgoes

theorem Holds.ne_zero (hgives : table.GivesBack) (hc : c ∈ name) :
    c ≠ 0 := by
  obtain ⟨first, last, -, hle, hall⟩ := h.range (ne_nil_of_mem hc)
  obtain ⟨entry, hentry, hpre⟩ := hall first (Nat.le_refl _) hle
  exact hgives.ne_zero entry (mem_of_getElem? hentry) c (hpre.subset hc)

omit h

/-- A search that accepted a character started with a letter. -/
theorem letter_of_start (hgoes : ((start table).advance table a).isEntityPrefix = true) :
    isASCIIUpper a ∨ isASCIILower a := by
  cases hfirst : table.firstEntryStartingWith a with
  | some first => exact table.letters a first hfirst
  | none =>
    have hnarrow : (start table).narrow table a = none := by
      rw [HTMLEntitySearch.narrow, if_pos (show (start table).currentLength = 0 from rfl), hfirst]
    rw [HTMLEntitySearch.advance, hnarrow] at hgoes
    cases hgoes

end Holds

end HTMLEntitySearch

end WebKit.HTML
