import WebKit.JavaScriptCore.JSONText

/-!
# Decimal numbers of 32 bits

A property name that spells an array index, and the counts and back references of a regular
expression.  `Identifier::toUInt32` looks for the overflow of the product and of the sum; Yarr looks
whether the new number, after the wrap, has become less than the number before.

* `Identifier.toUInt32_iff`: what is taken for an index is the canonical form of one.
* `Yarr.exact_iff`: the digits whose value is read without a loss.
-/

namespace WebKit.JavaScriptCore

open WTF LiteralParser

section Digits

variable {n : UInt32} {c : UChar} {digits : List UChar}

theorem toNat_toUInt32_sub (hc : isASCIIDigit c) : (c.toUInt32 - 48).toNat = c.toNat - 48 := by
  have hle := (toNat_of_isASCIIDigit hc).1
  rw [UInt32.toNat_sub_of_le _ _ (UInt32.le_iff_toNat_le.mpr (by simpa using hle))]
  simp

theorem toNat_first (hc : isASCIIDigit c) : (c.toUInt32 - 48).toNat = digitsValue [c] := by
  simp [toNat_toUInt32_sub hc, digitsValue, ch]

theorem toNat_newValue (hc : isASCIIDigit c) (hn : n.toNat = digitsValue digits) :
    (n * 10 + (c.toUInt32 - 48)).toNat = digitsValue (digits ++ [c]) % 2 ^ 32 := by
  rw [digitsValue_append_one, ← hn, UInt32.toNat_add, UInt32.toNat_mul, toNat_toUInt32_sub hc]
  simp [ch]

theorem digitsValue_le_append (digits rest : List UChar) :
    digitsValue digits ≤ digitsValue (digits ++ rest) := by
  induction rest using List.reverseRecOn with
  | nil => simp
  | append_singleton rest c ih =>
    rw [← List.append_assoc, digitsValue_append_one]
    omega

end Digits

/-! ## `Identifier::toUInt32` -/

namespace Identifier

/-- A string of 8-bit or of 16-bit characters. -/
inductive UString
  | characters8 (characters : List UInt8)
  | characters16 (characters : List UChar)

def UString.characters : UString → List UChar
  | characters8 characters => characters.map UInt8.toUInt16
  | characters16 characters => characters

/-- One round of the loop; `none` is the return of 0 that leaves `ok` false. -/
def addDigit (value : UInt32) (character : UChar) : Option UInt32 :=
  if value > 0xFFFFFFFF / 10 then none
  else
    let newValue := character.toUInt32 - 48
    if newValue > 9 then none
    else if newValue + value * 10 < value * 10 then none else some (newValue + value * 10)

def toUInt32FromCharacters : List UChar → Option UInt32
  | [] => none
  | character :: characters =>
    let value := character.toUInt32 - 48
    if value > 9 then none
    else if value = 0 ∧ characters ≠ [] then none else characters.foldlM addDigit value

def toUInt32 (string : UString) : Option UInt32 := toUInt32FromCharacters string.characters

variable {value newValue n : UInt32} {c : UChar} {digits rest : List UChar}

/-- The subtraction wraps for the characters below `'0'`. -/
theorem not_gt_nine_iff : ¬c.toUInt32 - 48 > 9 ↔ isASCIIDigit c := by
  have hlt := c.toNat_lt
  rw [isASCIIDigit, Bool.and_eq_true, decide_eq_true_iff, decide_eq_true_iff, gt_iff_lt,
    UInt32.lt_iff_toNat_lt, UInt32.toNat_sub, UInt16.le_iff_toNat_le, UInt16.le_iff_toNat_le]
  simp [ch]
  omega

theorem sub_eq_zero_iff_zero : c.toUInt32 - 48 = 0 ↔ c = ch '0' := by
  rw [sub_eq_zero, ← UInt32.toNat_inj, ← UInt16.toNat_inj]
  simp [ch]

/-- What a round adds is a digit, and the number still fits. -/
theorem addDigit_eq_some_iff (hvalue : value.toNat = digitsValue digits) :
    addDigit value c = some newValue ↔
      isASCIIDigit c ∧ newValue.toNat = digitsValue (digits ++ [c]) := by
  have hnew := newValue.toNat_lt
  have hlimit : value > 0xFFFFFFFF / 10 ↔ 429496729 < value.toNat := UInt32.lt_iff_toNat_lt
  simp only [addDigit, hlimit]
  split_ifs with hproduct hdigit hsum
  · refine iff_of_false nofun fun ⟨_, hvalue'⟩ => ?_
    rw [digitsValue_append_one, ← hvalue] at hvalue'
    omega
  · exact iff_of_false nofun fun ⟨hc, _⟩ => not_gt_nine_iff.mpr hc hdigit
  all_goals
    have hc := not_gt_nine_iff.mp hdigit
    have hten : (value * 10).toNat = value.toNat * 10 := by
      rw [UInt32.toNat_mul]
      simp
      omega
    rw [UInt32.lt_iff_toNat_lt, UInt32.toNat_add, hten, toNat_toUInt32_sub hc] at hsum
    have hd := toNat_of_isASCIIDigit hc
    have hone := digitsValue_append_one digits c
    rw [← hvalue, show (ch '0').toNat = 48 from rfl] at hone
  · refine iff_of_false nofun fun ⟨_, hvalue'⟩ => ?_
    omega
  · rw [Option.some_inj, ← UInt32.toNat_inj, UInt32.toNat_add, hten, toNat_toUInt32_sub hc]
    simp only [hc, true_and]
    omega

theorem foldlM_eq_some_iff (hvalue : value.toNat = digitsValue digits) :
    rest.foldlM addDigit value = some n ↔
      (∀ c ∈ rest, isASCIIDigit c) ∧ n.toNat = digitsValue (digits ++ rest) := by
  induction rest generalizing value digits with
  | nil =>
    rw [List.append_nil, ← hvalue, UInt32.toNat_inj, List.foldlM_nil]
    simp [eq_comm (a := n)]
  | cons c rest ih =>
    rw [List.foldlM_cons, Option.bind_eq_bind, Option.bind_eq_some_iff, List.forall_mem_cons,
      List.append_cons]
    constructor
    · rintro ⟨newValue, hadd, hrest⟩
      obtain ⟨hc, hnew⟩ := (addDigit_eq_some_iff hvalue).mp hadd
      obtain ⟨hrest, hn⟩ := (ih hnew).mp hrest
      exact ⟨⟨hc, hrest⟩, hn⟩
    · rintro ⟨⟨hc, hrest⟩, hn⟩
      have hlt := (digitsValue_le_append (digits ++ [c]) rest).trans_lt (hn ▸ n.toNat_lt)
      have hnew := UInt32.toNat_ofNat_of_lt' hlt
      exact ⟨_, (addDigit_eq_some_iff hvalue).mpr ⟨hc, hnew⟩, (ih hnew).mpr ⟨hrest, hn⟩⟩

/-- A string is taken for an index exactly when it is the canonical form of it. -/
theorem toUInt32_iff (string : UString) (n : UInt32) : toUInt32 string = some n ↔
    IsInt string.characters ∧ n.toNat = digitsValue string.characters := by
  rw [toUInt32]
  generalize string.characters = characters
  cases characters with
  | nil => simp [toUInt32FromCharacters, IsInt, IsDigits]
  | cons c rest =>
    simp only [toUInt32FromCharacters, sub_eq_zero_iff_zero]
    split_ifs with hdigit hzero
    · refine iff_of_false nofun fun ⟨hint, _⟩ => not_gt_nine_iff.mpr ?_ hdigit
      rcases hint with hint | ⟨hint, -⟩
      · cases hint
        rfl
      · exact hint.2 c List.mem_cons_self
    · refine iff_of_false nofun fun ⟨hint, _⟩ => ?_
      simp [IsInt, hzero] at hint
    · have hc := not_gt_nine_iff.mp hdigit
      rw [foldlM_eq_some_iff (toNat_first hc)]
      refine and_congr ?_ Iff.rfl
      by_cases hfirst : c = ch '0'
      · have hnil : rest = [] := by simpa [hfirst] using hzero
        simp [hfirst, hnil, IsInt]
      · simp [IsInt, IsDigits, hfirst, hc]

end Identifier

/-! ## `Parser::consumeNumber` of Yarr -/

namespace Yarr

/-- The loop, on what stands behind the first digit. -/
def consumeDigits (n : UInt32) : List UChar → UInt32 × List UChar
  | [] => (n, [])
  | c :: rest =>
    let newValue := n * 10 + (c.toUInt32 - 48)
    if isASCIIDigit c ∧ newValue ≥ n then consumeDigits newValue rest else (n, c :: rest)

/-- The number, and the characters from the new index on.  The first is a digit (`ASSERT`). -/
def consumeNumber : List UChar → UInt32 × List UChar
  | [] => (0, [])
  | c :: rest => consumeDigits (c.toUInt32 - 48) rest

/-- The number is the value of the digits that are consumed, and they are followed by a digit only
where their value with it does not fit. -/
def IsExact (pattern : List UChar) (result : UInt32 × List UChar) : Prop :=
  ∃ digits, pattern = digits ++ result.2 ∧ (∀ d ∈ digits, isASCIIDigit d) ∧
    result.1.toNat = digitsValue digits ∧
    ∀ c after, result.2 = c :: after → isASCIIDigit c → 2 ^ 32 ≤ digitsValue (digits ++ [c])

/-- Where the value of the digits gets too large, its remainder is less than the value before. -/
def ShrinksAtOverflow (pattern : List UChar) : Prop :=
  ∀ digits c after, pattern = digits ++ c :: after → (∀ d ∈ digits, isASCIIDigit d) →
    isASCIIDigit c → digitsValue digits < 2 ^ 32 → 2 ^ 32 ≤ digitsValue (digits ++ [c]) →
    digitsValue (digits ++ [c]) % 2 ^ 32 < digitsValue digits

variable {n : UInt32} {c : UChar} {digits rest : List UChar}

/-- The loop consumes digits. -/
theorem consumes (n : UInt32) (rest : List UChar) :
    ∃ more, rest = more ++ (consumeDigits n rest).2 ∧ ∀ d ∈ more, isASCIIDigit d := by
  fun_induction consumeDigits n rest with
  | case1 => exact ⟨[], by simp⟩
  | case2 n c rest newValue h ih =>
    obtain ⟨more, heq, hmore⟩ := ih
    exact ⟨c :: more, by rw [List.cons_append, ← heq], by simpa using ⟨h.1, hmore⟩⟩
  | case3 => exact ⟨[], by simp⟩

/-- A digit is consumed unless the wrapped number is less. -/
theorem consumeDigits_cons (hc : isASCIIDigit c) (hn : n.toNat = digitsValue digits) :
    consumeDigits n (c :: rest) =
      if digitsValue digits ≤ digitsValue (digits ++ [c]) % 2 ^ 32
      then consumeDigits (n * 10 + (c.toUInt32 - 48)) rest else (n, c :: rest) := by
  simp only [consumeDigits, hc, true_and, ge_iff_le, UInt32.le_iff_toNat_le, toNat_newValue hc hn]
  rw [hn]

/-- The loop gets to each number that fits. -/
theorem consumeDigits_append (hn : n.toNat = digitsValue digits)
    (hmore : ∀ d ∈ more, isASCIIDigit d) (hfits : digitsValue (digits ++ more) < 2 ^ 32) :
    ∃ m : UInt32, m.toNat = digitsValue (digits ++ more) ∧
      consumeDigits n (more ++ rest) = consumeDigits m rest := by
  induction more generalizing n digits with
  | nil => exact ⟨n, by simpa using hn, rfl⟩
  | cons c more ih =>
    obtain ⟨hc, hmore⟩ := List.forall_mem_cons.mp hmore
    rw [List.append_cons] at hfits ⊢
    have hlt := (digitsValue_le_append (digits ++ [c]) more).trans_lt hfits
    have hnew := toNat_newValue hc hn
    rw [Nat.mod_eq_of_lt hlt] at hnew
    obtain ⟨m, hm, hreach⟩ := ih hnew hmore hfits
    refine ⟨m, hm, ?_⟩
    rw [List.cons_append, consumeDigits_cons hc hn, Nat.mod_eq_of_lt hlt,
      if_pos (digitsValue_le_append digits [c]), hreach]

theorem exact_of_shrinks (hn : n.toNat = digitsValue digits)
    (hdigits : ∀ d ∈ digits, isASCIIDigit d)
    (h : ShrinksAtOverflow (digits ++ rest)) : IsExact (digits ++ rest) (consumeDigits n rest) := by
  induction rest generalizing n digits with
  | nil => exact ⟨digits, rfl, hdigits, hn, nofun⟩
  | cons c rest ih =>
    by_cases hc : isASCIIDigit c
    · have hnew := toNat_newValue hc hn
      rw [consumeDigits_cons hc hn]
      rcases Nat.lt_or_ge (digitsValue (digits ++ [c])) (2 ^ 32) with hlt | hge
      · rw [Nat.mod_eq_of_lt hlt] at hnew ⊢
        rw [if_pos (digitsValue_le_append digits [c]), List.append_cons]
        refine ih hnew (by simpa [or_imp, forall_and] using ⟨hdigits, hc⟩) ?_
        rwa [← List.append_cons]
      · have hless := h digits c rest rfl hdigits hc (hn ▸ n.toNat_lt) hge
        rw [if_neg (Nat.not_le.mpr hless)]
        refine ⟨digits, rfl, hdigits, hn, fun d after heq _ => ?_⟩
        cases heq
        exact hge
    · have hstop : consumeDigits n (c :: rest) = (n, c :: rest) := by simp [consumeDigits, hc]
      rw [hstop]
      refine ⟨digits, rfl, hdigits, hn, fun d after heq hd => ?_⟩
      cases heq
      exact absurd hd hc

theorem shrinks_of_exact (hfirst : isASCIIDigit first)
    (h : IsExact (first :: rest) (consumeNumber (first :: rest))) :
    ShrinksAtOverflow (first :: rest) := by
  intro digits c after heq hdigits hc hfits hover
  by_contra hnot
  have hnot := Nat.not_lt.mp hnot
  obtain ⟨m, hm, hreach⟩ : ∃ m : UInt32, m.toNat = digitsValue digits ∧
      consumeNumber (first :: rest) = consumeDigits m (c :: after) := by
    cases digits with
    | nil =>
      have := toNat_of_isASCIIDigit hc
      simp [digitsValue, ch] at hover
      omega
    | cons d digits =>
      cases heq
      exact consumeDigits_append (toNat_first hfirst) (List.forall_mem_cons.mp hdigits).2 hfits
  rw [hreach, consumeDigits_cons hc hm, if_pos hnot] at h
  obtain ⟨all, happ, -, hvalue, -⟩ := h
  obtain ⟨more, hafter, -⟩ := consumes (m * 10 + (c.toUInt32 - 48)) after
  have hall : all = (digits ++ [c]) ++ more := by
    rw [heq, List.append_cons] at happ
    nth_rewrite 1 [hafter] at happ
    rw [← List.append_assoc] at happ
    exact (List.append_cancel_right happ).symm
  have hle := digitsValue_le_append (digits ++ [c]) more
  have hlt := (consumeDigits (m * 10 + (c.toUInt32 - 48)) after).1.toNat_lt
  rw [hvalue, hall] at hlt
  omega

/-- The number is read exactly unless the wrap goes unnoticed. -/
theorem exact_iff (first : UChar) (rest : List UChar) (hfirst : isASCIIDigit first) :
    IsExact (first :: rest) (consumeNumber (first :: rest)) ↔ ShrinksAtOverflow (first :: rest) :=
  ⟨shrinks_of_exact hfirst, exact_of_shrinks (toNat_first hfirst) (by simpa using hfirst)⟩

theorem exact_iff_42 : IsExact [ch '4', ch '2'] (consumeNumber [ch '4', ch '2']) ↔
    ShrinksAtOverflow [ch '4', ch '2'] :=
  exact_iff (ch '4') [ch '2'] rfl

/-- `6000000000` is read as 1705032704, which is not less than 600000000. -/
theorem not_exact_6000000000 : ¬IsExact ("6000000000".toList.map ch)
    (consumeNumber ("6000000000".toList.map ch)) := by
  have hread : consumeNumber ("6000000000".toList.map ch) = (1705032704, []) := by decide
  rw [hread]
  rintro ⟨digits, hdigits, -, hvalue, -⟩
  rw [List.append_nil] at hdigits
  subst hdigits
  exact absurd hvalue (by decide)

end Yarr
end WebKit.JavaScriptCore
