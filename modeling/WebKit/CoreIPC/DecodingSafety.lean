import Mathlib
import WebKit.CoreIPC.ArgumentRoundTrip

/-!
# What a decoder reads

A decode function written with the bytes it reads beside its result: `traced` is the decode function
of the type, see `result_traced`, and every place that it copies from or points to is in the buffer.

A check that fails puts the position one behind the end of the buffer.  That is all that says the
decoder is invalid, and the next call rounds this very position up; but rounding never goes down, so
that no check succeeds any more, not even for nothing.  `Sound` is what holds of the position at all
times, and `Keeps` what every decode function does about it.
-/

namespace WebKit

open List
namespace CoreIPC

/-! ## Results with what was read -/

/-- The address and the number of bytes of each read, and the result. -/
structure Traced (α : Type) where
  reads : List (ℕ × ℕ)
  result : DecodeResult α

namespace Traced

variable {α β : Type}

/-- Nothing is read. -/
def ofResult (result : DecodeResult α) : Traced α := ⟨[], result⟩

def bind (x : Traced α) (f : α → ArgumentDecoder → Traced β) : Traced β :=
  match x.result with
  | .decoded value d => ⟨x.reads ++ (f value d).reads, (f value d).result⟩
  | .failed d => ⟨x.reads, .failed d⟩
  | .crashed => ⟨x.reads, .crashed⟩

/-- The bytes at the position are read, and the position goes behind them. -/
def read (size : ℕ) (ofBytes : Bytes → α) (d : ArgumentDecoder) : Traced α :=
  ⟨[(d.bufferPos, size)],
    .decoded (ofBytes (d.rest.take size)) { d with bufferPos := d.bufferPos + size }⟩

theorem result_bind (x : Traced α) (f : α → ArgumentDecoder → Traced β) :
    (x.bind f).result = x.result.bind fun value d => (f value d).result := by
  unfold bind
  cases x.result <;> rfl

/-- Computations that go on with the same results have the same result. -/
theorem result_bind_of_eq {x : Traced α} {y : DecodeResult α} {f : α → ArgumentDecoder → Traced β}
    (hx : x.result = y)
    (hf : ∀ value d, (f value d).result = g value d) : (x.bind f).result = y.bind g := by
  rw [result_bind]
  congr
  funext value d
  exact hf value d

end Traced

/-! ## The decode functions with what they read -/

namespace ArgumentDecoder

variable (d : ArgumentDecoder)

def tracedFixedLengthData (size alignment : ℕ) : Traced Bytes :=
  (Traced.ofResult (d.alignBufferPosition alignment size)).bind fun _ d => .read size id d

def tracedArithmetic (a : ArithmeticType) : Traced a.Value :=
  (Traced.ofResult (d.alignBufferPosition a.size a.size)).bind fun _ d => .read a.size a.ofBytes d

def tracedUInt32 : Traced (BitVec 32) := d.tracedArithmetic .uint32

def tracedUInt64 : Traced (BitVec 64) := d.tracedArithmetic .uint64

/-- What the reference refers to counts as read. -/
def tracedVariableLengthByteArray : Traced Bytes :=
  d.tracedUInt64.bind fun size d =>
    (Traced.ofResult (d.alignBufferPosition 1 size.toNat)).bind fun _ d => .read size.toNat id d

theorem result_tracedFixedLengthData (size alignment : ℕ) :
    (d.tracedFixedLengthData size alignment).result = d.decodeFixedLengthData size alignment :=
  Traced.result_bind_of_eq rfl fun _ _ => rfl

theorem result_tracedArithmetic (a : ArithmeticType) :
    (d.tracedArithmetic a).result = d.decodeArithmetic a :=
  Traced.result_bind_of_eq rfl fun _ _ => rfl

theorem result_tracedVariableLengthByteArray :
    d.tracedVariableLengthByteArray.result = d.decodeVariableLengthByteArray :=
  Traced.result_bind_of_eq (d.result_tracedArithmetic .uint64) fun _ _ =>
    Traced.result_bind_of_eq rfl fun _ _ => rfl

end ArgumentDecoder

namespace ArgumentCoder

def tracedCString (d : ArgumentDecoder) : Traced (Option Bytes) :=
  d.tracedUInt32.bind fun length d =>
    if length = maxUInt32 then .ofResult (.decoded none d)
    else if !d.bufferIsLargeEnoughToContain 1 length.toNat then .ofResult (.failed d.markInvalid)
    else (d.tracedFixedLengthData length.toNat 1).bind fun string d =>
      .ofResult (.decoded (some string) d)

theorem length_bytesCharacters_lt (length : BitVec 32) (b : Bytes) :
    (bytesCharacters length.toNat b).length < 2 ^ 32 := by
  rw [length_bytesCharacters]
  exact length.isLt

def tracedString (d : ArgumentDecoder) : Traced (Option StringImpl) :=
  d.tracedUInt32.bind fun length d =>
    if length = maxUInt32 then .ofResult (.decoded none d)
    else if !d.bufferIsLargeEnoughToContain sizeOfUChar length.toNat then
      .ofResult (.failed d.markInvalid)
    else if length.toNat > maxStringLength then .ofResult .crashed
    else (d.tracedFixedLengthData (length.toNat * sizeOfUChar) sizeOfUChar).bind fun b d =>
      .ofResult (.decoded (some
        { characters := bytesCharacters length.toNat b
          length_lt := length_bytesCharacters_lt length b }) d)

def tracedFixedSizeElements (a : ArithmeticType) (d : ArgumentDecoder) : Traced (List a.Value) :=
  d.tracedUInt64.bind fun size d =>
    if !d.bufferIsLargeEnoughToContain a.size size.toNat then .ofResult (.failed d.markInvalid)
    else
      let inner := d.tracedFixedLengthData (size.toNat * a.size) a.size
      ⟨inner.reads, match inner.result with
        | .decoded b d => .decoded (readElements a size.toNat b) d
        | .failed d => .decoded (readElements a size.toNat []) d
        | .crashed => .crashed⟩

section Loops

variable {α β : Type}

def tracedElements (decode : ArgumentDecoder → Traced α) :
    ℕ → List α → ArgumentDecoder → Traced (List α)
  | 0, tmp, d => .ofResult (.decoded tmp d)
  | n + 1, tmp, d => (decode d).bind fun element d => tracedElements decode n (tmp ++ [element]) d

def tracedEntries [DecidableEq α] (decodeKey : ArgumentDecoder → Traced α)
    (decodeMapped : ArgumentDecoder → Traced β) :
    ℕ → HashMap α β → ArgumentDecoder → Traced (HashMap α β)
  | 0, tempHashMap, d => .ofResult (.decoded tempHashMap d)
  | n + 1, tempHashMap, d =>
    (decodeKey d).bind fun key d => (decodeMapped d).bind fun value d =>
      match tempHashMap.add key value with
      | none => .ofResult (.failed d.markInvalid)
      | some tempHashMap => tracedEntries decodeKey decodeMapped n tempHashMap d

theorem result_tracedElements {decode : ArgumentDecoder → DecodeResult α}
    {traced : ArgumentDecoder → Traced α} (h : ∀ d, (traced d).result = decode d) (n : ℕ)
    (tmp : List α) (d : ArgumentDecoder) :
    (tracedElements traced n tmp d).result = decodeElements decode n tmp d := by
  induction n generalizing tmp d with
  | zero => rfl
  | succ n ih => exact Traced.result_bind_of_eq (h d) fun element d => ih (tmp ++ [element]) d

theorem result_tracedEntries [DecidableEq α] {decodeKey : ArgumentDecoder → DecodeResult α}
    (hkey : ∀ d, (tracedKey d).result = decodeKey d)
    (hmapped : ∀ d, (tracedMapped d).result = decodeMapped d) (n : ℕ) (m : HashMap α β)
    (d : ArgumentDecoder) :
    (tracedEntries tracedKey tracedMapped n m d).result =
      decodeEntries decodeKey decodeMapped n m d := by
  induction n generalizing m d with
  | zero => rfl
  | succ n ih =>
    refine Traced.result_bind_of_eq (hkey d) fun key d => ?_
    refine Traced.result_bind_of_eq (hmapped d) fun value d => ?_
    cases m.add key value with
    | none => rfl
    | some m => exact ih m d

end Loops

def tracedVector : (t : ArgumentType) → (ArgumentDecoder → Traced t.Value) →
    ArgumentDecoder → Traced (List t.Value)
  | .arithmetic a, _, d => tracedFixedSizeElements a d
  | _, decode, d => d.tracedUInt64.bind fun size d => tracedElements decode size.toNat [] d

def traced : (t : ArgumentType) → ArgumentDecoder → Traced t.Value
  | .arithmetic a, d => d.tracedArithmetic a
  | .string, d => tracedString d
  | .cString, d => tracedCString d
  | .dataReference, d => d.tracedVariableLengthByteArray
  | .pair t u, d => (traced t d).bind fun first d => (traced u d).bind fun second d =>
      .ofResult (.decoded ((first, second) : t.Value × u.Value) d)
  | .hashMap key mapped, d => d.tracedUInt64.bind fun hashMapSize d =>
      (tracedEntries (traced key) (traced mapped) hashMapSize.toNat HashMap.empty d :
        Traced (HashMap key.Value mapped.Value))
  | .vector t, d => (tracedVector t (traced t) d : Traced (List t.Value))

theorem result_tracedCString (d : ArgumentDecoder) :
    (tracedCString d).result = decodeCString d := by
  refine Traced.result_bind_of_eq (d.result_tracedArithmetic .uint32) fun length d => ?_
  split
  · rfl
  · split
    · rfl
    · exact Traced.result_bind_of_eq (d.result_tracedFixedLengthData _ _) fun _ _ => rfl

theorem result_tracedString (d : ArgumentDecoder) : (tracedString d).result = decodeString d := by
  refine Traced.result_bind_of_eq (d.result_tracedArithmetic .uint32) fun length d => ?_
  split
  · rfl
  · split
    · rfl
    · split
      · rfl
      · exact Traced.result_bind_of_eq (d.result_tracedFixedLengthData _ _) fun _ _ => rfl

theorem result_tracedFixedSizeElements (a : ArithmeticType) (d : ArgumentDecoder) :
    (tracedFixedSizeElements a d).result = decodeFixedSizeElements a d := by
  refine Traced.result_bind_of_eq (d.result_tracedArithmetic .uint64) fun size d => ?_
  split
  · rfl
  · have hinner := d.result_tracedFixedLengthData (size.toNat * a.size) a.size
    exact congrArg (fun data : DecodeResult (List UInt8) =>
      (match data with
        | .decoded b d => .decoded (readElements a size.toNat b) d
        | .failed d => .decoded (readElements a size.toNat []) d
        | .crashed => .crashed : DecodeResult (List a.Value))) hinner

theorem result_tracedVector {t : ArgumentType} {decode : ArgumentDecoder → DecodeResult t.Value}
    {traced : ArgumentDecoder → Traced t.Value} (h : ∀ d, (traced d).result = decode d)
    (d : ArgumentDecoder) : (tracedVector t traced d).result = decodeVector t decode d := by
  have hloop : (d.tracedUInt64.bind fun size d => tracedElements traced size.toNat [] d).result =
      d.decodeUInt64.bind fun size d => decodeElements decode size.toNat [] d :=
    Traced.result_bind_of_eq (d.result_tracedArithmetic .uint64) fun size d =>
      result_tracedElements h size.toNat [] d
  cases t with
  | arithmetic a => exact result_tracedFixedSizeElements a d
  | _ => exact hloop

/-- `traced` is the decode function of the type. -/
theorem result_traced (t : ArgumentType) (d : ArgumentDecoder) :
    (traced t d).result = decode t d := by
  induction t generalizing d with
  | arithmetic a => exact d.result_tracedArithmetic a
  | string => exact result_tracedString d
  | cString => exact result_tracedCString d
  | dataReference => exact d.result_tracedVariableLengthByteArray
  | pair t u iht ihu =>
    exact Traced.result_bind_of_eq (iht d) fun _ d =>
      Traced.result_bind_of_eq (ihu d) fun _ _ => rfl
  | hashMap key mapped ihkey ihmapped =>
    exact Traced.result_bind_of_eq (d.result_tracedArithmetic .uint64) fun size d =>
      result_tracedEntries ihkey ihmapped size.toNat HashMap.empty d
  | vector t ih => exact result_tracedVector ih d

end ArgumentCoder

/-! ## What every decode function keeps -/

/-- Rounding up does not go down. -/
theorem le_decoder_roundUpToAlignment (hk : k < 32) (hptr : ptr ≤ 2 ^ 63) :
    ptr ≤ ArgumentDecoder.roundUpToAlignment ptr (2 ^ k) := by
  have hpos : 0 < 2 ^ k := Nat.two_pow_pos k
  have hle : 2 ^ k ≤ 2 ^ 31 := Nat.pow_le_pow_right (by decide) (by omega)
  unfold ArgumentDecoder.roundUpToAlignment
  simp only
  rw [← BitVec.ofNat_add, Alignment.toNat_and_not_mask (by omega), ← Nat.add_sub_assoc hpos]
  exact Alignment.le_div_mul hpos ptr

theorem ArithmeticType.size_eq_two_pow (a : ArithmeticType) : ∃ k < 32, a.size = 2 ^ k := by
  cases a
  · exact ⟨0, by decide, rfl⟩
  · exact ⟨2, by decide, rfl⟩
  · exact ⟨2, by decide, rfl⟩
  · exact ⟨3, by decide, rfl⟩
  · exact ⟨3, by decide, rfl⟩
  · exact ⟨2, by decide, rfl⟩
  · exact ⟨3, by decide, rfl⟩

/-- The position is in the buffer, at its end or, for an invalid decoder, one behind. -/
structure Sound (d : ArgumentDecoder) : Prop where
  inBounds : d.bufferEnd < 2 ^ 63
  le : d.buffer ≤ d.bufferPos
  position : d.bufferPos ≤ d.bufferEnd + 1

/-- The memory is the same. -/
structure SameBuffer (d d' : ArgumentDecoder) : Prop where
  buffer : d'.buffer = d.buffer
  data : d'.data = d.data

theorem SameBuffer.refl (d : ArgumentDecoder) : SameBuffer d d := ⟨rfl, rfl⟩

theorem SameBuffer.trans {d d' d'' : ArgumentDecoder} (h : SameBuffer d d')
    (h' : SameBuffer d' d'') : SameBuffer d d'' :=
  ⟨h'.buffer.trans h.buffer, h'.data.trans h.data⟩

theorem SameBuffer.bufferEnd {d d' : ArgumentDecoder} (h : SameBuffer d d') :
    d'.bufferEnd = d.bufferEnd := by
  rw [ArgumentDecoder.bufferEnd, ArgumentDecoder.bufferEnd, h.buffer, h.data]

theorem isInvalid_eq_false_iff (d : ArgumentDecoder) :
    d.isInvalid = false ↔ d.bufferPos ≤ d.bufferEnd := by
  unfold ArgumentDecoder.isInvalid
  rw [decide_eq_false_iff_not, Nat.not_lt]

theorem isInvalid_markInvalid (d : ArgumentDecoder) : d.markInvalid.isInvalid = true :=
  decide_eq_true (Nat.lt_succ_self _)

theorem Sound.markInvalid {d : ArgumentDecoder} (h : Sound d) : Sound d.markInvalid where
  inBounds := h.inBounds
  le := (Nat.le_add_right d.buffer d.data.length).trans (Nat.le_succ _)
  position := le_rfl

/-- What is read is in the buffer; only a valid decoder succeeds, and stays valid; whoever fails
leaves an invalid decoder. -/
structure Keeps {α : Type} (d : ArgumentDecoder) (x : Traced α) : Prop where
  reads : ∀ r ∈ x.reads, d.buffer ≤ r.1 ∧ r.1 + r.2 ≤ d.bufferEnd
  decoded : ∀ value d', x.result = .decoded value d' →
    d.isInvalid = false ∧ d'.isInvalid = false ∧ SameBuffer d d' ∧ Sound d'
  failed : ∀ d', x.result = .failed d' → d'.isInvalid = true ∧ SameBuffer d d' ∧ Sound d'
  crashed : x.result = .crashed → d.isInvalid = false

namespace Keeps

variable {α β : Type} {d : ArgumentDecoder}

theorem of_decoded (hd : Sound d) (hvalid : d.isInvalid = false) (value : α) :
    Keeps d (.ofResult (.decoded value d)) where
  reads r hr := absurd hr not_mem_nil
  decoded value' d' h := by
    cases h
    exact ⟨hvalid, hvalid, .refl d, hd⟩
  failed d' h := nomatch h
  crashed h := nomatch h

theorem of_markInvalid (hd : Sound d) :
    Keeps d (.ofResult (.failed d.markInvalid : DecodeResult α)) where
  reads r hr := absurd hr not_mem_nil
  decoded value d' h := nomatch h
  failed d' h := by
    cases h
    exact ⟨isInvalid_markInvalid d, ⟨rfl, rfl⟩, hd.markInvalid⟩
  crashed h := nomatch h

theorem of_crashed (hvalid : d.isInvalid = false) :
    Keeps d (.ofResult (.crashed : DecodeResult α)) where
  reads r hr := absurd hr not_mem_nil
  decoded value d' h := nomatch h
  failed d' h := nomatch h
  crashed _ := hvalid

theorem bind {x : Traced α} {f : α → ArgumentDecoder → Traced β} (hx : Keeps d x)
    (hf : ∀ value d', Sound d' → d'.isInvalid = false → Keeps d' (f value d')) :
    Keeps d (x.bind f) := by
  unfold Traced.bind
  cases hresult : x.result with
  | decoded value d' =>
    obtain ⟨hvalid, hvalid', hsame, hd'⟩ := hx.decoded value d' hresult
    have hnext := hf value d' hd' hvalid'
    refine ⟨fun r hr => ?_, fun value'' d'' h => ?_, fun d'' h => ?_, fun _ => hvalid⟩
    · rcases mem_append.mp hr with hr | hr
      · exact hx.reads r hr
      · have hin := hnext.reads r hr
        rwa [hsame.buffer, hsame.bufferEnd] at hin
    · obtain ⟨-, hvalid'', hsame', hd''⟩ := hnext.decoded value'' d'' h
      exact ⟨hvalid, hvalid'', hsame.trans hsame', hd''⟩
    · obtain ⟨hinvalid, hsame', hd''⟩ := hnext.failed d'' h
      exact ⟨hinvalid, hsame.trans hsame', hd''⟩
  | failed d' =>
    refine ⟨hx.reads, fun _ _ h => (nomatch h), fun d'' h => ?_, fun h => (nomatch h)⟩
    cases h
    exact hx.failed d' hresult
  | crashed =>
    exact ⟨hx.reads, fun _ _ h => (nomatch h), fun _ h => (nomatch h), fun _ => hx.crashed hresult⟩

/-- Reading behind a check that there is as much in the buffer. -/
theorem align_read (hk : k < 32) (size : ℕ) (ofBytes : Bytes → α) (hd : Sound d) :
    Keeps d ((Traced.ofResult (d.alignBufferPosition (2 ^ k) size)).bind
      fun _ d => .read size ofBytes d) := by
  have hend := hd.inBounds
  have hposition := hd.position
  have hle := le_decoder_roundUpToAlignment hk (by omega : d.bufferPos ≤ 2 ^ 63)
  unfold ArgumentDecoder.alignBufferPosition ArgumentDecoder.alignedBufferIsLargeEnoughToContain
  simp only
  split
  · rename_i hroom
    rw [Bool.and_eq_true, decide_eq_true_eq, decide_eq_true_eq] at hroom
    have hvalid : d.isInvalid = false := (isInvalid_eq_false_iff d).mpr (hle.trans hroom.1)
    refine ⟨fun r hr => ?_, fun value d' h => ?_, fun d' h => (nomatch h), fun h => (nomatch h)⟩
    · obtain rfl := mem_singleton.mp hr
      exact ⟨hd.le.trans hle, by simp only; omega⟩
    · cases h
      have hvalid' : ArgumentDecoder.roundUpToAlignment d.bufferPos (2 ^ k) + size ≤ d.bufferEnd := by
        omega
      exact ⟨hvalid, (isInvalid_eq_false_iff _).mpr hvalid', ⟨rfl, rfl⟩, hend,
        (hd.le.trans hle).trans (Nat.le_add_right _ _), hvalid'.trans (Nat.le_succ _)⟩
  · exact of_markInvalid hd

theorem fixedLengthData (hk : k < 32) (size : ℕ) (hd : Sound d) :
    Keeps d (d.tracedFixedLengthData size (2 ^ k)) :=
  align_read hk size id hd

theorem arithmetic (a : ArithmeticType) (hd : Sound d) : Keeps d (d.tracedArithmetic a) := by
  obtain ⟨k, hk, hsize⟩ := a.size_eq_two_pow
  unfold ArgumentDecoder.tracedArithmetic
  rw [hsize]
  exact align_read hk _ _ hd

theorem variableLengthByteArray (hd : Sound d) : Keeps d d.tracedVariableLengthByteArray :=
  (arithmetic .uint64 hd).bind fun size _ hd' _ =>
    align_read (by decide : 0 < 32) size.toNat id hd'

theorem cString (hd : Sound d) : Keeps d (ArgumentCoder.tracedCString d) := by
  refine (arithmetic .uint32 hd).bind fun length d hd hvalid => ?_
  split
  · exact of_decoded hd hvalid none
  · split
    · exact of_markInvalid hd
    · exact (fixedLengthData (by decide : 0 < 32) _ hd).bind fun _ _ hd hvalid =>
        of_decoded hd hvalid _

theorem string (hd : Sound d) : Keeps d (ArgumentCoder.tracedString d) := by
  refine (arithmetic .uint32 hd).bind fun length d hd hvalid => ?_
  split
  · exact of_decoded hd hvalid none
  · split
    · exact of_markInvalid hd
    · split
      · exact of_crashed hvalid
      · exact (fixedLengthData (by decide : 1 < 32) _ hd).bind fun _ _ hd hvalid =>
          of_decoded hd hvalid _

/-- The coder of vectors has made the check that the inner call makes, so that nothing is lost by not
looking at what it returns. -/
theorem fixedSizeElements (a : ArithmeticType) (hd : Sound d) :
    Keeps d (ArgumentCoder.tracedFixedSizeElements a d) := by
  refine (arithmetic .uint64 hd).bind fun size d hd hvalid => ?_
  split
  · exact of_markInvalid hd
  · rename_i hroom
    rw [Bool.not_eq_true', Bool.not_eq_false] at hroom
    obtain ⟨k, hk, hsize⟩ := a.size_eq_two_pow
    have hinner := fixedLengthData hk (size.toNat * a.size) hd
    rw [← hsize] at hinner
    obtain ⟨b, d', hresult⟩ : ∃ b d',
        (d.tracedFixedLengthData (size.toNat * a.size) a.size).result = .decoded b d' := by
      rw [d.result_tracedFixedLengthData]
      unfold ArgumentDecoder.bufferIsLargeEnoughToContain at hroom
      split at hroom
      · exact absurd hroom Bool.false_ne_true
      · unfold ArgumentDecoder.decodeFixedLengthData ArgumentDecoder.alignBufferPosition
        rw [if_pos hroom]
        exact ⟨_, _, rfl⟩
    simp only [hresult]
    refine ⟨hinner.reads, fun value d'' h => ?_, fun _ h => (nomatch h), fun h => (nomatch h)⟩
    cases h
    exact hinner.decoded b d' hresult

theorem elements (hdecode : ∀ d, Sound d → Keeps d (decode d))
    (n : ℕ) (tmp : List α) (hd : Sound d) (hvalid : d.isInvalid = false) :
    Keeps d (ArgumentCoder.tracedElements decode n tmp d) := by
  induction n generalizing tmp d with
  | zero => exact of_decoded hd hvalid tmp
  | succ n ih => exact (hdecode d hd).bind fun element d hd hvalid => ih (tmp ++ [element]) hd hvalid

theorem entries [DecidableEq α] (hkey : ∀ d, Sound d → Keeps d (decodeKey d))
    (hmapped : ∀ d, Sound d → Keeps d (decodeMapped d)) (n : ℕ) (m : HashMap α β) (hd : Sound d)
    (hvalid : d.isInvalid = false) :
    Keeps d (ArgumentCoder.tracedEntries decodeKey decodeMapped n m d) := by
  induction n generalizing m d with
  | zero => exact of_decoded hd hvalid m
  | succ n ih =>
    refine (hkey d hd).bind fun key d hd _ => (hmapped d hd).bind fun value d hd hvalid => ?_
    cases m.add key value with
    | none => exact of_markInvalid hd
    | some m => exact ih m hd hvalid

/-- Decoding a value of any type. -/
theorem traced (t : ArgumentType) (hd : Sound d) : Keeps d (ArgumentCoder.traced t d) := by
  induction t generalizing d with
  | arithmetic a => exact arithmetic a hd
  | string => exact string hd
  | cString => exact cString hd
  | dataReference => exact variableLengthByteArray hd
  | pair t u iht ihu =>
    exact (iht hd).bind fun _ _ hd _ => (ihu hd).bind fun _ _ hd hvalid => of_decoded hd hvalid _
  | hashMap key mapped ihkey ihmapped =>
    exact (arithmetic .uint64 hd).bind fun size _ hd hvalid =>
      entries (fun _ => ihkey) (fun _ => ihmapped) size.toNat _ hd hvalid
  | vector t ih =>
    have hloop : Keeps d (d.tracedUInt64.bind fun size d =>
        ArgumentCoder.tracedElements (ArgumentCoder.traced t) size.toNat [] d) :=
      (arithmetic .uint64 hd).bind fun size _ hd hvalid =>
        elements (fun _ => ih) size.toNat [] hd hvalid
    cases t with
    | arithmetic a => exact fixedSizeElements a hd
    | _ => exact hloop

end Keeps

/-! ## Sequences of calls -/

/-- A call of a decode function: of the coder of a type, or of `decodeFixedLengthData` with an
alignment, which is a power of two and an `unsigned`. -/
inductive DecodeCall where
  | value (t : ArgumentType)
  | fixedLengthData (size : BitVec 64) (alignmentBit : Fin 32)

namespace DecodeCall

def Value : DecodeCall → Type
  | value t => t.Value
  | fixedLengthData _ _ => Bytes

def decode : (c : DecodeCall) → ArgumentDecoder → DecodeResult c.Value
  | value t, d => ArgumentCoder.decode t d
  | fixedLengthData size alignmentBit, d => d.decodeFixedLengthData size.toNat (2 ^ alignmentBit.val)

def traced : (c : DecodeCall) → ArgumentDecoder → Traced c.Value
  | value t, d => ArgumentCoder.traced t d
  | fixedLengthData size alignmentBit, d =>
    d.tracedFixedLengthData size.toNat (2 ^ alignmentBit.val)

theorem result_traced (c : DecodeCall) (d : ArgumentDecoder) :
    (c.traced d).result = c.decode d := by
  cases c with
  | value t => exact ArgumentCoder.result_traced t d
  | fixedLengthData size alignmentBit => exact d.result_tracedFixedLengthData _ _

theorem keeps {d : ArgumentDecoder} (c : DecodeCall) (hd : Sound d) : Keeps d (c.traced d) := by
  cases c with
  | value t => exact Keeps.traced t hd
  | fixedLengthData size alignmentBit => exact Keeps.fixedLengthData alignmentBit.isLt _ hd

end DecodeCall

/-- Calls one after the other, whether they succeed or not, each with what it returned. -/
inductive DecodeRun (start : ArgumentDecoder) : List (DecodeCall × Bool) → ArgumentDecoder → Prop
  | start : DecodeRun start [] start
  | succeed {calls d d'} (h : DecodeRun start calls d) (c : DecodeCall) (value : c.Value)
      (hc : c.decode d = .decoded value d') : DecodeRun start (calls ++ [(c, true)]) d'
  | fail {calls d d'} (h : DecodeRun start calls d) (c : DecodeCall)
      (hc : c.decode d = .failed d') : DecodeRun start (calls ++ [(c, false)]) d'

/-- What holds after every sequence of calls. -/
theorem DecodeRun.keeps {d : ArgumentDecoder} {start : ArgumentDecoder}
    (h : DecodeRun start calls d) (hstart : Sound start) :
    Sound d ∧ SameBuffer start d ∧
      (start.isInvalid = true ∨ (∃ c, (c, false) ∈ calls) → d.isInvalid = true) := by
  induction h with
  | start =>
    exact ⟨hstart, .refl start, fun h => h.resolve_right fun ⟨c, hc⟩ => absurd hc not_mem_nil⟩
  | @succeed calls d d' h c value hc ih =>
    obtain ⟨hd, hsame, hfailed⟩ := ih
    have hc' := (c.result_traced d).trans hc
    obtain ⟨hvalid, -, hsame', hd'⟩ := (c.keeps hd).decoded value d' hc'
    have hnot : ¬ d.isInvalid = true := by
      rw [hvalid]
      exact Bool.false_ne_true
    refine ⟨hd', hsame.trans hsame', ?_⟩
    rintro (hinvalid | ⟨c', hmem⟩)
    · exact absurd (hfailed (Or.inl hinvalid)) hnot
    · rcases mem_append.mp hmem with hmem | hmem
      · exact absurd (hfailed (Or.inr ⟨c', hmem⟩)) hnot
      · exact absurd (mem_singleton.mp hmem) (by simp)
  | @fail calls d d' h c hc ih =>
    obtain ⟨hd, hsame, -⟩ := ih
    obtain ⟨hinvalid, hsame', hd'⟩ := (c.keeps hd).failed d' ((c.result_traced d).trans hc)
    exact ⟨hd', hsame.trans hsame', fun _ => hinvalid⟩

namespace ArgumentDecoder

/-- The decoder as `initialize` has it before it decodes the destination ID. -/
def uninitialized (buffer : Bytes) (block : Block (buffer.length + expectedAlignment)) :
    ArgumentDecoder :=
  { destinationID := none
    data := buffer
    buffer := roundUpToAlignment block.base expectedAlignment
    bufferPos := roundUpToAlignment block.base expectedAlignment }

end ArgumentDecoder

open ArgumentDecoder in
theorem sound_uninitialized (buffer : Bytes) (block : Block (buffer.length + expectedAlignment)) :
    Sound (uninitialized buffer block) := by
  have hin := block.inBounds
  have hround : roundUpToAlignment block.base expectedAlignment ≤ block.base + 7 := by
    rw [roundUpToAlignment_eq dvd_rfl (by unfold expectedAlignment; omega)]
    unfold ArgumentEncoder.roundUpToAlignment expectedAlignment
    omega
  have hend : (uninitialized buffer block).bufferEnd =
      roundUpToAlignment block.base expectedAlignment + buffer.length := rfl
  unfold expectedAlignment at hin
  refine ⟨?_, le_rfl, ?_⟩
  · omega
  · exact (Nat.le_add_right _ _).trans (Nat.le_succ _)

open ArgumentDecoder in
/-- The decoder is created by decoding the destination ID. -/
theorem sound_create (buffer : Bytes) (block : Block (buffer.length + expectedAlignment)) :
    Sound (create buffer block) ∧ SameBuffer (uninitialized buffer block) (create buffer block) ∧
      ∀ d', (uninitialized buffer block).decodeUInt64 = .failed d' →
        (create buffer block).isInvalid = true := by
  have hkeeps := Keeps.arithmetic .uint64 (sound_uninitialized buffer block)
  have hresult := (uninitialized buffer block).result_tracedArithmetic .uint64
  cases hd : (uninitialized buffer block).decodeUInt64 with
  | decoded n d =>
    obtain ⟨-, -, hsame, hsound⟩ := hkeeps.decoded n d (hresult.trans hd)
    rw [uninitialized] at hd
    rw [create, hd]
    exact ⟨⟨hsound.inBounds, hsound.le, hsound.position⟩, ⟨hsame.buffer, hsame.data⟩,
      fun d' h => by cases h⟩
  | failed d =>
    obtain ⟨hinvalid, hsame, hsound⟩ := hkeeps.failed d (hresult.trans hd)
    rw [uninitialized] at hd
    rw [create, hd]
    exact ⟨hsound, hsame, fun d' _ => hinvalid⟩
  | crashed =>
    rw [uninitialized] at hd
    rw [create, hd]
    exact ⟨sound_uninitialized buffer block, .refl _, fun d' h => by cases h⟩

theorem ArgumentDecoder.decodeArithmetic_ne_crashed (d : ArgumentDecoder) (a : ArithmeticType) :
    d.decodeArithmetic a ≠ .crashed := by
  unfold decodeArithmetic alignBufferPosition
  simp only
  split <;> exact fun h => nomatch h

open ArgumentDecoder in
/-- A decoder of any bytes reads them only, from the destination ID on.  After any calls, some of
which may have failed, whatever is called next reads in the buffer only; if it fails, the decoder is
invalid; and if the decoder is invalid already, it fails and the decoder stays invalid.  So a decoder
that is valid in the end has decoded the destination ID and had all calls succeed. -/
theorem reads_inBounds_of_run (buffer : Bytes) (block : Block (buffer.length + expectedAlignment))
    {calls : List (DecodeCall × Bool)} {d : ArgumentDecoder}
    (h : DecodeRun (create buffer block) calls d) :
    (d.data = buffer ∧ d.buffer = roundUpToAlignment block.base expectedAlignment ∧
      ∀ r ∈ (uninitialized buffer block).tracedUInt64.reads,
        d.buffer ≤ r.1 ∧ r.1 + r.2 ≤ d.bufferEnd) ∧
    (∀ c : DecodeCall, (c.traced d).result = c.decode d ∧
      ∀ r ∈ (c.traced d).reads, d.buffer ≤ r.1 ∧ r.1 + r.2 ≤ d.bufferEnd) ∧
    (∀ (c : DecodeCall) (d' : ArgumentDecoder), c.decode d = .failed d' → d'.isInvalid = true) ∧
    (d.isInvalid = true → ∀ c : DecodeCall, ∃ d', c.decode d = .failed d' ∧ d'.isInvalid = true) ∧
    (d.isInvalid = false → (∀ c, (c, false) ∉ calls) ∧
      ∃ n d', (uninitialized buffer block).decodeUInt64 = .decoded n d') := by
  obtain ⟨hcreate, hsame, hfail⟩ := sound_create buffer block
  obtain ⟨hd, hsame', hinvalid⟩ := h.keeps hcreate
  have hall := hsame.trans hsame'
  have hnot : d.isInvalid = false → ¬ d.isInvalid = true := fun hvalid => by
    rw [hvalid]
    exact Bool.false_ne_true
  refine ⟨⟨hall.data, hall.buffer, fun r hr => ?_⟩,
    fun c => ⟨c.result_traced d, (c.keeps hd).reads⟩, fun c d' hc => ?_, fun hover c => ?_,
    fun hvalid => ⟨fun c hc => hnot hvalid (hinvalid (Or.inr ⟨c, hc⟩)), ?_⟩⟩
  · have hreads := (Keeps.arithmetic .uint64 (sound_uninitialized buffer block)).reads r hr
    rwa [← hall.buffer, ← hall.bufferEnd] at hreads
  · exact ((c.keeps hd).failed d' ((c.result_traced d).trans hc)).1
  · cases hc : c.decode d with
    | decoded value d' =>
      exact absurd hover (hnot ((c.keeps hd).decoded value d' ((c.result_traced d).trans hc)).1)
    | failed d' => exact ⟨d', rfl, ((c.keeps hd).failed d' ((c.result_traced d).trans hc)).1⟩
    | crashed => exact absurd hover (hnot ((c.keeps hd).crashed ((c.result_traced d).trans hc)))
  · cases hdecode : (uninitialized buffer block).decodeUInt64 with
    | decoded n d' => exact ⟨n, d', rfl⟩
    | failed d' => exact absurd (hinvalid (Or.inl (hfail d' hdecode))) (hnot hvalid)
    | crashed => exact absurd hdecode (decodeArithmetic_ne_crashed _ _)

open ArgumentDecoder in
/-- A buffer that holds a destination ID and nothing else, from which a vector is decoded: the call
fails, and so does any after it. -/
theorem reads_inBounds_of_run_vector :
    let d := create (List.replicate 8 0) ⟨0, by decide⟩
    ∃ d', (DecodeCall.value (.vector (.arithmetic .bool))).decode d = .failed d' ∧
      d'.isInvalid = true ∧
      ∀ c : DecodeCall, ∃ d'', c.decode d' = .failed d'' ∧ d''.isInvalid = true := by
  intro d
  have halign : d.alignBufferPosition 8 8 = .failed d.markInvalid := by
    have hroom : ¬ alignedBufferIsLargeEnoughToContain (roundUpToAlignment d.bufferPos 8)
        d.bufferEnd 8 = true := by
      decide
    exact if_neg hroom
  have hfail : (DecodeCall.value (.vector (.arithmetic .bool))).decode d = .failed d.markInvalid := by
    show ((d.alignBufferPosition 8 8).bind _).bind _ = _
    rw [halign]
    rfl
  have hrun := reads_inBounds_of_run (List.replicate 8 0) ⟨0, by decide⟩
    (DecodeRun.start.fail _ hfail)
  exact ⟨d.markInvalid, hfail, isInvalid_markInvalid d, hrun.2.2.2.1 (isInvalid_markInvalid d)⟩

end CoreIPC
end WebKit
