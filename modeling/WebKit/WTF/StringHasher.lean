import WebKit.WTF.UTF8Conversions

/-!
# Hashing a string by its UTF-8 bytes

`StringHasher` takes two code units at a time; a single one is kept until the next comes.  Where no
unit is kept, two units may be given at once, and `calculateStringHashAndLengthFromUTF8` does so for
a supplementary character, whether one is kept or not.

* `addCharacters_eq_feed`: two units at once are the two units, if none is kept.
* `hash_iff`: the hash by the bytes is the hash by the characters, with no assertion violated, when no
  supplementary character has an odd number of code units before it.
-/

namespace WebKit

open List
namespace WTF

/-! ## The hasher -/

/-- `m_pendingCharacter` is read only when there is one.  The assertions so far are kept with it. -/
structure StringHasher where
  hash : UInt32 := 0x9e3779b9
  pendingCharacter : Option UInt16 := none
  assertionsHold : Bool := true
  deriving DecidableEq

namespace StringHasher

def addCharactersToHash (hash : UInt32) (a b : UInt16) : UInt32 :=
  let hash := hash + a.toUInt32
  let tmp := (b.toUInt32 <<< 11) ^^^ hash
  let hash := (hash <<< 16) ^^^ tmp
  hash + (hash >>> 11)

def addCharacters (h : StringHasher) (a b : UInt16) : StringHasher :=
  { h with
    hash := addCharactersToHash h.hash a b
    assertionsHold := h.assertionsHold && h.pendingCharacter.isNone }

def addCharacter (h : StringHasher) (character : UInt16) : StringHasher :=
  match h.pendingCharacter with
  | some pending =>
    { h with hash := addCharactersToHash h.hash pending character, pendingCharacter := none }
  | none => { h with pendingCharacter := some character }

/-- `hash()`. -/
def result (h : StringHasher) : UInt32 :=
  let result : UInt32 := match h.pendingCharacter with
    | none => h.hash
    | some pending =>
      let result := h.hash + pending.toUInt32
      let result := result ^^^ (result <<< 11)
      result + (result >>> 17)
  let result := result ^^^ (result <<< 3)
  let result := result + (result >>> 5)
  let result := result ^^^ (result <<< 2)
  let result := result + (result >>> 15)
  let result := result ^^^ (result <<< 10)
  let result := result &&& 0xFFFFFF
  if result = 0 then 0x800000 else result

def addPairs : List UInt16 → StringHasher → StringHasher
  | a :: b :: data, h => addPairs data (h.addCharacters a b)
  | [a], h => h.addCharacter a
  | [], h => h

def computeHash (data : List UInt16) : UInt32 := (addPairs data {}).result

variable (units : List UInt16) (h : StringHasher)

/-- The units, one after the other. -/
def feed : StringHasher := units.foldl addCharacter h

theorem feed_append (units' : List UInt16) :
    h.feed (units ++ units') = (h.feed units).feed units' := foldl_append

theorem addCharacters_eq_feed {h : StringHasher} (hnone : h.pendingCharacter = none)
    (a b : UInt16) :
    h.addCharacters a b = h.feed [a, b] := by
  obtain ⟨hash, pending, asserted⟩ := h
  obtain rfl : pending = none := hnone
  simp [feed, addCharacter, addCharacters]

theorem addPairs_eq_feed {h : StringHasher} (hnone : h.pendingCharacter = none)
    (data : List UInt16) :
    addPairs data h = h.feed data := by
  induction data, h using addPairs.induct with
  | case1 a b data h ih =>
    have hnext : (h.addCharacters a b).pendingCharacter = none := hnone
    rw [addPairs, ih hnext, addCharacters_eq_feed hnone]
    rfl
  | _ => rfl

theorem isSome_pendingCharacter_feed : (h.feed units).pendingCharacter.isSome =
      (h.pendingCharacter.isSome ^^ decide (units.length % 2 = 1)) := by
  induction units generalizing h with
  | nil => simp [feed]
  | cons a units ih =>
    have hone : (h.addCharacter a).pendingCharacter.isSome = !h.pendingCharacter.isSome := by
      rw [addCharacter]
      cases h.pendingCharacter <;> rfl
    have hlength : decide ((a :: units).length % 2 = 1) = !decide (units.length % 2 = 1) := by
      rw [← decide_not, length_cons]
      exact decide_eq_decide.mpr (by omega)
    rw [feed, foldl_cons, ← feed, ih, hone, hlength, Bool.not_xor, Bool.xor_not]

theorem assertionsHold_feed : (h.feed units).assertionsHold = h.assertionsHold := by
  induction units generalizing h with
  | nil => rfl
  | cons a units ih =>
    rw [feed, foldl_cons, ← feed, ih, addCharacter]
    cases h.pendingCharacter <;> rfl

end StringHasher

/-! ## The functions on bytes -/

namespace Unicode

open Conversion

/-- What both loops read at the start of the data: the code units of a character, and what is left.
At the end of the data or at an illegal sequence there is none. -/
def readCharacter (data : List UInt8) : Option (List UInt16 × List UInt8) :=
  let utf8SequenceLength := inlineUTF8SequenceLength (data.headD 0)
  let piece := data.take utf8SequenceLength
  if data.length < utf8SequenceLength ∨ isLegalUTF8 piece = false then none
  else
    let character := readUTF8Sequence piece
    let data := data.drop utf8SequenceLength
    if character ≤ 0xFFFF then
      if isSurrogate character then none else some ([character.toUInt16], data)
    else if character ≤ 0x10FFFF then some (surrogatePair character, data)
    else none

/-- The results of `calculateStringHashAndLengthFromUTF8`. -/
structure HashAndLengths where
  hasher : StringHasher := {}
  dataLength : UInt32 := 0
  utf16Length : UInt32 := 0

/-- A character, in one or two code units, of so many bytes. -/
def HashAndLengths.add (r : HashAndLengths) (bytes : ℕ) (units : List UInt16) : HashAndLengths where
  hasher := match units with
    | [a, b] => r.hasher.addCharacters a b
    | [a] => r.hasher.addCharacter a
    | _ => r.hasher
  dataLength := r.dataLength + UInt32.ofNat bytes
  utf16Length := r.utf16Length + UInt32.ofNat units.length

/-- The loop, over at most the number of characters given.  It is left without a result where the
function returns zero. -/
def hashLoop : ℕ → List UInt8 → HashAndLengths → Option HashAndLengths
  | 0, _, r => some r
  | _ + 1, [], r => some r
  | fuel + 1, b :: data, r => do
    let (units, rest) ← readCharacter (b :: data)
    hashLoop fuel rest (r.add ((b :: data).length - rest.length) units)

/-- The data are the bytes up to their end, or up to the terminating zero. -/
def calculateStringHashAndLengthFromUTF8 (data : List UInt8) : Option HashAndLengths :=
  hashLoop data.length data {}

/-- `*a++ != unit`, for one unit after the other: whether all are equal, and what is left of `a`.
None stands for a read behind the end of `a`. -/
def compareUnits : List UInt16 → List UInt16 → Option (Bool × List UInt16)
  | a, [] => some (true, a)
  | [], _ :: _ => none
  | c :: a, unit :: units => if c ≠ unit then some (false, a) else compareUnits a units

def equalLoop : ℕ → List UInt16 → List UInt8 → Option Bool
  | 0, a, _ => some a.isEmpty
  | _ + 1, a, [] => some a.isEmpty
  | fuel + 1, a, b :: data =>
    match readCharacter (b :: data) with
    | none => some false
    | some (units, rest) =>
      match compareUnits a units with
      | none => none
      | some (false, _) => some false
      | some (true, a) => equalLoop fuel a rest

def equalUTF16WithUTF8 (a : List UInt16) (b : List UInt8) : Option Bool := equalLoop b.length a b

/-! ## Reading well-formed data -/

theorem readCharacter_encode (c : Char) (rest : List UInt8) :
    readCharacter (String.utf8EncodeChar c ++ rest) = some (utf16FormOf c, rest) := by
  obtain ⟨hsequence, hread⟩ := isSequence_encode c
  have hhead : (String.utf8EncodeChar c ++ rest).headD 0 = (String.utf8EncodeChar c).headD 0 := by
    cases hc : String.utf8EncodeChar c with
    | nil => exact absurd hc hsequence.ne_nil
    | cons b piece => rfl
  have hc := toNat_char c
  have hlength : ¬((String.utf8EncodeChar c ++ rest).length < (String.utf8EncodeChar c).length ∨
      isLegalUTF8 (String.utf8EncodeChar c) = false) := by
    rw [hsequence.isLegal]
    simp
  rw [readCharacter, hhead, ← hsequence.length_eq, take_left, drop_left]
  rw [if_neg hlength, hread, utf16FormOf_eq, unitsOf]
  by_cases hbasic : c.toNat ≤ 0xFFFF
  · rw [if_pos hbasic, if_pos hbasic, not_isSurrogate (by omega), if_neg Bool.false_ne_true]
  · rw [if_neg hbasic, if_neg hbasic, if_pos (by omega)]

theorem utf16FormOf_cases (c : Char) : (c.toNat ≤ 0xFFFF ∧ ∃ a, utf16FormOf c = [a]) ∨
      (0xFFFF < c.toNat ∧ ∃ a b, utf16FormOf c = [a, b]) := by
  by_cases hbasic : c.toNat ≤ 0xFFFF
  · exact .inl ⟨hbasic, _, if_pos hbasic⟩
  · exact .inr ⟨by omega, _, _, if_neg hbasic⟩

variable (text : List Char)

/-- The units of a text, as the function adds them. -/
def addText (r : HashAndLengths) : HashAndLengths :=
  text.foldl (fun r c => r.add (String.utf8EncodeChar c).length (utf16FormOf c)) r

theorem hashLoop_utf8Form {fuel : ℕ} (hfuel : (utf8Form text).length ≤ fuel)
    (r : HashAndLengths) : hashLoop fuel (utf8Form text) r = some (addText text r) := by
  induction text generalizing fuel r with
  | nil => cases fuel <;> rfl
  | cons c text ih =>
    have hread := readCharacter_encode c (utf8Form text)
    rw [utf8Form_cons] at hfuel ⊢
    cases hc : String.utf8EncodeChar c with
    | nil => exact absurd hc (isSequence_encode c).1.ne_nil
    | cons b piece =>
      rw [hc, length_append, length_cons] at hfuel
      obtain ⟨fuel, rfl⟩ := Nat.exists_eq_add_of_le' ((by omega : 1 ≤ _).trans hfuel)
      rw [hc, cons_append] at hread
      rw [cons_append, hashLoop, hread]
      have hbytes : (b :: (piece ++ utf8Form text)).length - (utf8Form text).length =
          (String.utf8EncodeChar c).length := by
        rw [hc, length_cons, length_append, length_cons]
        omega
      change hashLoop fuel (utf8Form text) _ = _
      rw [hbytes, ih (by omega)]
      rfl

theorem compareUnits_eq {units : List UInt16} (h : units.length ≤ a.length) :
    ∃ left, compareUnits a units = some (decide (a.take units.length = units), left) ∧
      (a.take units.length = units → left = a.drop units.length) := by
  induction units generalizing a with
  | nil => exact ⟨a, by rw [compareUnits]; simp, fun _ => rfl⟩
  | cons unit units ih =>
    cases a with
    | nil => cases h
    | cons c a =>
      rw [compareUnits]
      by_cases hc : c = unit
      · subst hc
        obtain ⟨left, hleft, hdrop⟩ := ih (Nat.le_of_succ_le_succ h)
        exact ⟨left, by rw [hleft]; simp, fun heq => hdrop (by simpa using heq)⟩
      · exact ⟨a, by simp [hc], fun heq => absurd (List.cons.inj heq).1 hc⟩

theorem equalLoop_utf8Form {fuel : ℕ} (hfuel : (utf8Form text).length ≤ fuel)
    {a : List UInt16} (ha : a.length = (utf16Form text).length) :
    equalLoop fuel a (utf8Form text) = some (decide (utf16Form text = a)) := by
  induction text generalizing fuel a with
  | nil =>
    obtain rfl := eq_nil_of_length_eq_zero ha
    cases fuel <;> rfl
  | cons c text ih =>
    have hread := readCharacter_encode c (utf8Form text)
    rw [utf8Form_cons] at hfuel ⊢
    rw [utf16Form_cons, length_append] at ha
    cases hc : String.utf8EncodeChar c with
    | nil => exact absurd hc (isSequence_encode c).1.ne_nil
    | cons b piece =>
      rw [hc, length_append, length_cons] at hfuel
      obtain ⟨fuel, rfl⟩ := Nat.exists_eq_add_of_le' ((by omega : 1 ≤ _).trans hfuel)
      rw [hc, cons_append] at hread
      have hle : (utf16FormOf c).length ≤ a.length := by omega
      obtain ⟨left, hcompare, hdrop⟩ := compareUnits_eq hle
      rw [cons_append, equalLoop, hread]
      dsimp only
      rw [hcompare, utf16Form_cons]
      by_cases heq : a.take (utf16FormOf c).length = utf16FormOf c
      · rw [decide_eq_true heq, hdrop heq]
        dsimp only
        rw [ih (by omega) (by rw [length_drop]; omega)]
        congr 2
        conv_rhs => rw [← take_append_drop (utf16FormOf c).length a, heq]
        rw [append_cancel_left_eq]
      · rw [decide_eq_false heq]
        refine congrArg some (decide_eq_false fun hall => heq ?_).symm
        rw [← hall, take_left]

/-! ## Agreement -/

/-- No supplementary character has an odd number of code units before it. -/
def SupplementaryAtEven : Prop :=
  ∀ before c behind, text = before ++ c :: behind → 0xFFFF < c.toNat →
    (utf16Form before).length % 2 = 0

theorem supplementaryAtEven_append_one {text : List Char} {c : Char} :
    SupplementaryAtEven (text ++ [c]) ↔
      SupplementaryAtEven text ∧ (0xFFFF < c.toNat → (utf16Form text).length % 2 = 0) := by
  constructor
  · intro h
    refine ⟨fun before d behind htext hd => ?_, h text c [] rfl⟩
    exact h before d (behind ++ [c]) (by rw [htext]; simp) hd
  · rintro ⟨htext, hc⟩ before d behind heq hd
    obtain rfl | ⟨behind, e, rfl⟩ := eq_nil_or_concat' behind
    · obtain ⟨hbefore, hlast⟩ := append_inj' heq rfl
      rw [← hbefore]
      exact hc ((List.cons.inj hlast).1 ▸ hd)
    · rw [← cons_append, ← append_assoc] at heq
      exact htext before d behind (append_inj' heq rfl).1 hd

/-- What the function has added after a text. -/
theorem addText_spec : (addText text {}).dataLength = UInt32.ofNat (utf8Form text).length ∧
      (addText text {}).utf16Length = UInt32.ofNat (utf16Form text).length ∧
      ((addText text {}).hasher.assertionsHold = true ↔ SupplementaryAtEven text) ∧
      (SupplementaryAtEven text →
        (addText text {}).hasher = StringHasher.feed (utf16Form text) {}) := by
  induction text using List.reverseRecOn with
  | nil => exact ⟨rfl, rfl, ⟨fun _ _ _ _ h => by simp at h, fun _ => rfl⟩, fun _ => rfl⟩
  | append_singleton text c ih =>
    obtain ⟨hdata, hutf16, hasserted, hfeed⟩ := ih
    have hlast : addText (text ++ [c]) {} =
        (addText text {}).add (String.utf8EncodeChar c).length (utf16FormOf c) := by
      rw [addText, foldl_append]
      rfl
    have hpending := StringHasher.isSome_pendingCharacter_feed (utf16Form text) {}
    rw [hlast, supplementaryAtEven_append_one]
    generalize addText text {} = r at hdata hutf16 hasserted hfeed
    refine ⟨?_, ?_, ?_⟩
    · change r.dataLength + _ = _
      rw [hdata]
      simp [utf8Form]
    · change r.utf16Length + _ = _
      rw [hutf16]
      simp [utf16Form]
    · have hform : utf16Form (text ++ [c]) = utf16Form text ++ utf16FormOf c := by simp [utf16Form]
      rw [hform, StringHasher.feed_append]
      obtain ⟨hbasic, a, hunits⟩ | ⟨hbig, a, b, hunits⟩ := utf16FormOf_cases c
      · have hadd : (r.add (String.utf8EncodeChar c).length (utf16FormOf c)).hasher =
            r.hasher.addCharacter a := by rw [hunits]; rfl
        have hkept : (r.hasher.addCharacter a).assertionsHold = r.hasher.assertionsHold :=
          StringHasher.assertionsHold_feed [a] r.hasher
        rw [hadd, hkept, hasserted, hunits]
        exact ⟨⟨fun h => ⟨h, fun hc => by omega⟩, And.left⟩, fun h => by rw [hfeed h.1]; rfl⟩
      · have hadd : (r.add (String.utf8EncodeChar c).length (utf16FormOf c)).hasher =
            r.hasher.addCharacters a b := by rw [hunits]; rfl
        have hnone (h : SupplementaryAtEven text) : r.hasher.pendingCharacter.isNone = true ↔
            (utf16Form text).length % 2 = 0 := by
          rw [hfeed h, ← Option.not_isSome, hpending]
          simp
        have hasserts : (r.hasher.addCharacters a b).assertionsHold = true ↔
            SupplementaryAtEven text ∧ r.hasher.pendingCharacter.isNone = true := by
          rw [StringHasher.addCharacters, Bool.and_eq_true, hasserted]
        rw [hadd, hasserts, hunits]
        refine ⟨and_congr_right fun h => ?_, fun h => ?_⟩
        · rw [hnone h]
          exact ⟨fun heven _ => heven, fun h => h hbig⟩
        · rw [StringHasher.addCharacters_eq_feed (Option.isNone_iff_eq_none.mp
            ((hnone h.1).mpr (h.2 hbig))), hfeed h.1]

/-- For the string of its conversion, the functions on the bytes give what those on the code units
give, and violate no assertion. -/
def AgreesWithUTF16 (bytes : List UInt8) : Prop :=
  ∃ units r, Conversion.convertUTF8ToUTF16 true bytes bytes.length = ⟨.conversionOK, [], units⟩ ∧
    calculateStringHashAndLengthFromUTF8 bytes = some r ∧ r.hasher.assertionsHold = true ∧
    r.dataLength.toNat = bytes.length ∧ r.utf16Length.toNat = units.length ∧
    r.hasher.result = StringHasher.computeHash units ∧
    ∀ a : List UInt16, a.length = units.length →
      equalUTF16WithUTF8 a bytes = some (decide (units = a))

/-- When a well-formed string and its conversion have the same hash and lengths. -/
theorem hash_iff : AgreesWithUTF16 (utf8Form text) ↔
    (utf8Form text).length < 2 ^ 32 ∧ SupplementaryAtEven text := by
  obtain ⟨hdata, hutf16, hasserted, hfeed⟩ := addText_spec text
  have hconvert : Conversion.convertUTF8ToUTF16 true (utf8Form text) (utf8Form text).length =
      ⟨.conversionOK, [], utf16Form text⟩ := by
    rw [convertUTF8ToUTF16_eq]
    exact convert_all takes_nextCharacter (converts_utf8Form text) (length_utf16Form_le text)
  have hhash : calculateStringHashAndLengthFromUTF8 (utf8Form text) = some (addText text {}) :=
    hashLoop_utf8Form text le_rfl _
  constructor
  · rintro ⟨units, r, -, hr, hholds, hlength, -⟩
    cases hhash.symm.trans hr
    refine ⟨?_, hasserted.mp hholds⟩
    rw [← hlength]
    exact UInt32.toNat_lt _
  · rintro ⟨hlength, heven⟩
    have hlength' := (length_utf16Form_le text).trans_lt hlength
    refine ⟨_, _, hconvert, hhash, hasserted.mpr heven, ?_, ?_, ?_, fun a ha =>
      equalLoop_utf8Form text le_rfl ha⟩
    · rw [hdata, UInt32.toNat_ofNat', Nat.mod_eq_of_lt hlength]
    · rw [hutf16, UInt32.toNat_ofNat', Nat.mod_eq_of_lt hlength']
    · rw [hfeed heven, StringHasher.computeHash, StringHasher.addPairs_eq_feed rfl]

/-- The bytes of `a😀` have another hash than their conversion. -/
theorem hash_ne : ¬∃ r, calculateStringHashAndLengthFromUTF8
    [0x61, 0xF0, 0x9F, 0x98, 0x80] = some r ∧
    r.hasher.result = StringHasher.computeHash [0x61, 0xD83D, 0xDE00] := by
  rintro ⟨r, hr, hresult⟩
  have hread : (calculateStringHashAndLengthFromUTF8 [0x61, 0xF0, 0x9F, 0x98, 0x80]).map
      (·.hasher.result) ≠ some (StringHasher.computeHash [0x61, 0xD83D, 0xDE00]) := by decide +kernel
  rw [hr] at hread
  exact hread (congrArg some hresult)

end Unicode
end WTF
end WebKit
