import Mathlib.Data.UInt

/-!
# Reading UTF-8 with replacements

Bytes are read from the left.  A well-formed sequence is read as its character; where none starts,
one byte is skipped and U+FFFD is written.

* `utf8Encoding`, `utf16Encoding`: the two encodings of a scalar value.
* `Passes`: a piece of a reading, up to some bytes that are left.
* `Reads`: a reading of all bytes.
* `Reads.unique`: there is one reading of all bytes.
-/

namespace WebKit

open List

/-! ## The encodings -/

/-- A Unicode scalar value. -/
def IsScalarValue (c : ℕ) : Prop := c < 0xD800 ∨ 0xE000 ≤ c ∧ c < 0x110000

def utf8Encoding (c : ℕ) : List UInt8 :=
  if c < 0x80 then [.ofNat c]
  else if c < 0x800 then [.ofNat (0xC0 + c / 0x40), .ofNat (0x80 + c % 0x40)]
  else if c < 0x10000 then
    [.ofNat (0xE0 + c / 0x1000), .ofNat (0x80 + c / 0x40 % 0x40), .ofNat (0x80 + c % 0x40)]
  else
    [.ofNat (0xF0 + c / 0x40000), .ofNat (0x80 + c / 0x1000 % 0x40),
      .ofNat (0x80 + c / 0x40 % 0x40), .ofNat (0x80 + c % 0x40)]

def utf16Encoding (c : ℕ) : List UInt16 :=
  if c < 0x10000 then [.ofNat c]
  else [.ofNat (0xD800 + (c - 0x10000) / 0x400), .ofNat (0xDC00 + (c - 0x10000) % 0x400)]

theorem utf8Encoding_ne_nil (c : ℕ) : utf8Encoding c ≠ [] := by
  rw [utf8Encoding]
  split_ifs <;> exact cons_ne_nil _ _

/-- An encoding tells its character, whatever follows it. -/
theorem utf8Encoding_append_inj (hc : IsScalarValue c) (hc' : IsScalarValue c')
    (h : utf8Encoding c ++ rest = utf8Encoding c' ++ rest') :
    c = c' ∧ rest = rest' := by
  have hlimit : c < 0x110000 := by rcases hc with h | h <;> omega
  have hlimit' : c' < 0x110000 := by rcases hc' with h | h <;> omega
  rw [utf8Encoding, utf8Encoding] at h
  split_ifs at h <;>
    simp only [cons_append, List.cons.injEq, ← UInt8.toNat_inj, UInt8.toNat_ofNat'] at h
  -- with the same first byte both have the same length
  all_goals first | (exfalso; omega) | skip
  · exact ⟨by omega, h.2⟩
  · exact ⟨by omega, h.2.2⟩
  · exact ⟨by omega, h.2.2.2⟩
  · exact ⟨by omega, h.2.2.2.2⟩

/-! ## Readings -/

/-- U+FFFD. -/
def replacementUnit : UInt16 := 0xFFFD

/-- A well-formed sequence starts here. -/
def StartsWellFormed (bytes : List UInt8) : Prop :=
  ∃ c rest, IsScalarValue c ∧ bytes = utf8Encoding c ++ rest

/-- No well-formed sequence starts here, whatever follows the bytes. -/
def NeverWellFormed (bytes : List UInt8) : Prop := ∀ more, ¬StartsWellFormed (bytes ++ more)

/-- A piece of a reading: some bytes are read as text, with or without an error, and the rest is
left.  A byte is skipped at a place that is an error. -/
inductive Passes (isError : List UInt8 → Prop) : List UInt8 → List UInt16 → Bool → List UInt8 → Prop
  | stop (bytes : List UInt8) : Passes isError bytes [] false bytes
  | character {c : ℕ} {bytes left : List UInt8} {text : List UInt16} {sawError : Bool}
      (hc : IsScalarValue c) (rest : Passes isError bytes text sawError left) :
      Passes isError (utf8Encoding c ++ bytes) (utf16Encoding c ++ text) sawError left
  | error {b : UInt8} {bytes left : List UInt8} {text : List UInt16} {sawError : Bool}
      (herror : isError (b :: bytes)) (rest : Passes isError bytes text sawError left) :
      Passes isError (b :: bytes) (replacementUnit :: text) true left

/-- A reading of all bytes. -/
def Reads (bytes : List UInt8) (text : List UInt16) (sawError : Bool) : Prop :=
  Passes (fun bytes => ¬StartsWellFormed bytes) bytes text sawError []

variable {isError isError' : List UInt8 → Prop} {bytes left : List UInt8} {text : List UInt16}
  {sawError : Bool}

theorem Passes.mono (h : Passes isError bytes text sawError left)
    (herror : ∀ bytes, isError bytes → isError' bytes) :
    Passes isError' bytes text sawError left := by
  induction h with
  | stop bytes => exact .stop bytes
  | character hc _ ih => exact .character hc ih
  | error h _ ih => exact .error (herror _ h) ih

theorem Passes.trans (h : Passes isError bytes text sawError left)
    (h' : Passes isError left text' sawError' left') :
    Passes isError bytes (text ++ text') (sawError || sawError') left' := by
  induction h with
  | stop bytes => exact h'
  | character hc _ ih =>
    rw [append_assoc]
    exact .character hc (ih h')
  | error h _ ih =>
    exact .error h (ih h')

/-- What was read without regard to what follows is read so with more behind it. -/
theorem Passes.append (h : Passes NeverWellFormed bytes text sawError left) (more : List UInt8) :
    Passes NeverWellFormed (bytes ++ more) text sawError (left ++ more) := by
  induction h with
  | stop bytes => exact .stop _
  | character hc _ ih =>
    rw [append_assoc]
    exact .character hc ih
  | error h _ ih =>
    refine .error (fun more' => ?_) ih
    have hmore := h (more ++ more')
    rwa [← append_assoc] at hmore

theorem NeverWellFormed.not_starts (h : NeverWellFormed bytes) : ¬StartsWellFormed bytes := by
  have hnil := h []
  rwa [append_nil] at hnil

/-- There is one reading of all bytes. -/
theorem Reads.unique (h : Reads bytes text sawError)
    (h' : Reads bytes text' sawError') : text = text' ∧ sawError = sawError' := by
  rw [Reads] at h
  generalize hleft : ([] : List UInt8) = left at h
  induction h generalizing text' sawError' with
  | stop bytes =>
    subst hleft
    generalize hnil : ([] : List UInt8) = bytes at h'
    cases h' with
    | stop => exact ⟨rfl, rfl⟩
    | character hc _ => exact absurd (append_eq_nil_iff.mp hnil.symm).1 (utf8Encoding_ne_nil _)
    | error => cases hnil
  | @character c bytes left text sawError hc _ ih =>
    generalize hbytes : utf8Encoding c ++ bytes = bytes' at h'
    cases h' with
    | stop =>
      exact absurd (append_eq_nil_iff.mp hbytes).1 (utf8Encoding_ne_nil c)
    | character hc' rest' =>
      obtain ⟨rfl, rfl⟩ := utf8Encoding_append_inj hc hc' hbytes
      obtain ⟨rfl, rfl⟩ := ih rest' hleft
      exact ⟨rfl, rfl⟩
    | error herror _ => exact absurd ⟨c, bytes, hc, hbytes.symm⟩ herror
  | @error b bytes left text sawError herror _ ih =>
    generalize hbytes : b :: bytes = bytes' at h'
    cases h' with
    | stop => cases hbytes
    | @character c rest' _ _ _ hc' _ => exact absurd ⟨c, rest', hc', hbytes⟩ herror
    | error _ rest' =>
      cases hbytes
      obtain ⟨rfl, rfl⟩ := ih rest' hleft
      exact ⟨rfl, rfl⟩

end WebKit
