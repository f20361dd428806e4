import Mathlib.Data.Nat.Prime.Basic
import WebKit.CoreIPC.ArgumentCoders
import WebKit.Library.Alignment

/-!
# What was encoded is decoded

The encoder's buffer only grows, so a decoder that holds the final buffer holds that of every moment
before.  Both compute the same padding: the decoder's buffer starts at a multiple of eight, which
every alignment divides.  So a decoder that stands where the encoder stood reads the value that the
encoder wrote and then stands where the encoder does.

The count of a string is one word of 32 bits, of which the greatest stands for a null string.  What a
decoder returns is therefore never longer than that, and longer strings do not survive.
-/

namespace WebKit

open List Nat
namespace CoreIPC

open LittleEndian

/-! ## Two ways to align -/

section Alignment

variable {alignment : ℕ}

section

variable (h : alignment ∣ ArgumentDecoder.expectedAlignment)
include h

/-- The alignments of the arguments are the divisors of the greatest one. -/
theorem eq_two_pow_of_dvd : ∃ k ≤ 3, alignment = 2 ^ k :=
  (dvd_prime_pow prime_two).mp h

theorem alignment_pos : 0 < alignment := pos_of_dvd_of_pos h (by decide)

theorem alignment_le : alignment ≤ ArgumentDecoder.expectedAlignment := le_of_dvd (by decide) h

end

/-- The decoder rounds up what the encoder rounds up. -/
theorem roundUpToAlignment_eq {ptr : ℕ} (h : alignment ∣ ArgumentDecoder.expectedAlignment)
    (hptr : ptr + ArgumentDecoder.expectedAlignment ≤ 2 ^ 64) :
    ArgumentDecoder.roundUpToAlignment ptr alignment
      = ArgumentEncoder.roundUpToAlignment ptr alignment := by
  have hle := alignment_le h
  obtain ⟨k, -, rfl⟩ := eq_two_pow_of_dvd h
  have hpos : 0 < 2 ^ k := Nat.two_pow_pos k
  unfold ArgumentDecoder.roundUpToAlignment ArgumentEncoder.roundUpToAlignment
  simp only
  rw [← BitVec.ofNat_add, Alignment.toNat_and_not_mask (by omega), Nat.add_sub_assoc hpos]

/-- Padding depends on the offset only when the buffer starts at a multiple of the alignment. -/
theorem roundUpToAlignment_add (h : alignment ∣ start) (hpos : 0 < alignment) (n : ℕ) :
    ArgumentEncoder.roundUpToAlignment (start + n) alignment
      = start + ArgumentEncoder.roundUpToAlignment n alignment := by
  obtain ⟨q, rfl⟩ := h
  unfold ArgumentEncoder.roundUpToAlignment
  rw [Nat.add_assoc, Nat.add_sub_assoc (by omega), Nat.mul_add_div hpos, Nat.add_mul, mul_comm q]

theorem le_roundUpToAlignment (hpos : 0 < alignment) (n : ℕ) :
    n ≤ ArgumentEncoder.roundUpToAlignment n alignment := Alignment.le_div_mul hpos n

variable (a : ArithmeticType)

theorem ArithmeticType.size_dvd :
    a.size ∣ ArgumentDecoder.expectedAlignment := by
  cases a <;> decide

theorem ArithmeticType.length_toBytes (n : a.Value) :
    (a.toBytes n).length = a.size := by
  cases a <;> exact length_bytes _ _

theorem ArithmeticType.ofBytes_toBytes (n : a.Value) :
    a.ofBytes (a.toBytes n) = n := by
  cases a with
  | bool =>
    have hbool : ∀ b : Bool, decide (value (bytes 1 b.toNat) ≠ 0) = b := by decide
    exact hbool n
  | int32 | uint32 | float => exact ofNat_value_bytes (k := 4) n (by norm_num)
  | _ => exact ofNat_value_bytes (k := 8) n (by norm_num)

variable {a}

end Alignment

/-! ## Where the decoder stands -/

section Standing

variable {d : ArgumentDecoder} {e : ArgumentEncoder}

/-- The decoder stands where the encoder does. -/
def ArgumentDecoder.at (d : ArgumentDecoder) (e : ArgumentEncoder) : ArgumentDecoder :=
  { d with bufferPos := d.buffer + e.buffer.length }

/-- The decoder's memory, aligned as `create` aligns it, starts with what the encoder has written. -/
structure Holds (d : ArgumentDecoder) (e : ArgumentEncoder) : Prop where
  written : e.buffer <+: d.data
  aligned : ArgumentDecoder.expectedAlignment ∣ d.buffer
  inBounds : d.bufferEnd < 2 ^ 63

theorem Holds.of_prefix {e' : ArgumentEncoder} (h : Holds d e') (hbegin : e.buffer <+: e'.buffer) :
    Holds d e := ⟨hbegin.trans h.written, h.aligned, h.inBounds⟩

namespace ArgumentEncoder

theorem prefix_grow (e : ArgumentEncoder) (alignment : ℕ) (data : Bytes) :
    e.buffer <+: (e.grow alignment data).buffer := by
  unfold grow
  simp only
  rw [append_assoc]
  exact prefix_append _ _

theorem length_grow (e : ArgumentEncoder) {alignment : ℕ} (hpos : 0 < alignment) (data : Bytes) :
    (e.grow alignment data).buffer.length
      = roundUpToAlignment e.buffer.length alignment + data.length := by
  have hle := le_roundUpToAlignment hpos e.buffer.length
  unfold grow
  rw [length_append, length_append, length_map, length_range']
  omega

/-- The data are at the aligned offset. -/
theorem drop_grow (e : ArgumentEncoder) (hpos : 0 < alignment) (data : Bytes) :
    (e.grow alignment data).buffer.drop (roundUpToAlignment e.buffer.length alignment) = data := by
  have hle := le_roundUpToAlignment hpos e.buffer.length
  refine drop_left' ?_
  rw [length_append, length_map, length_range']
  omega

end ArgumentEncoder

variable {data : Bytes}

/-- The decoder aligns its position as the encoder did, and there are the data. -/
theorem Holds.alignBufferPosition {alignment : ℕ}
    (ha : alignment ∣ ArgumentDecoder.expectedAlignment) (h : Holds d (e.grow alignment data)) :
    ∃ d', (d.at e).alignBufferPosition alignment data.length = .decoded () d'
      ∧ d'.rest.take data.length = data
      ∧ { d' with bufferPos := d'.bufferPos + data.length } = d.at (e.grow alignment data) := by
  have hpos := alignment_pos ha
  have hlength := e.length_grow hpos data
  obtain ⟨others, hothers⟩ := h.written
  have hdata := congrArg List.length hothers
  rw [length_append] at hdata
  have hin := h.inBounds
  have hend : d.bufferEnd = d.buffer + d.data.length := rfl
  have hle := le_roundUpToAlignment hpos e.buffer.length
  have hround : ArgumentDecoder.roundUpToAlignment (d.at e).bufferPos alignment
      = d.buffer + ArgumentEncoder.roundUpToAlignment e.buffer.length alignment := by
    rw [← roundUpToAlignment_add (ha.trans h.aligned) hpos]
    refine roundUpToAlignment_eq ha ?_
    show d.buffer + e.buffer.length + 8 ≤ 2 ^ 64
    omega
  have henough : ArgumentDecoder.alignedBufferIsLargeEnoughToContain
      (d.buffer + ArgumentEncoder.roundUpToAlignment e.buffer.length alignment) d.bufferEnd
      data.length = true := by
    unfold ArgumentDecoder.alignedBufferIsLargeEnoughToContain
    rw [Bool.and_eq_true, decide_eq_true_eq, decide_eq_true_eq]
    omega
  refine ⟨{ d.at e with bufferPos :=
    d.buffer + ArgumentEncoder.roundUpToAlignment e.buffer.length alignment }, ?_, ?_, ?_⟩
  · unfold ArgumentDecoder.alignBufferPosition
    rw [hround, show (d.at e).bufferEnd = d.bufferEnd from rfl, if_pos henough]
  · show (d.data.drop (d.buffer + _ - d.buffer)).take data.length = data
    rw [Nat.add_sub_cancel_left, ← hothers, drop_append_of_le_length (by omega),
      e.drop_grow hpos, take_left]
  · unfold ArgumentDecoder.at
    rw [hlength, add_assoc]

theorem Holds.decodeFixedLengthData {alignment n : ℕ} (hn : n = data.length)
    (ha : alignment ∣ ArgumentDecoder.expectedAlignment) (h : Holds d (e.grow alignment data)) :
    (d.at e).decodeFixedLengthData n alignment = .decoded data (d.at (e.grow alignment data)) := by
  subst hn
  obtain ⟨d', halign, hread, hat⟩ := h.alignBufferPosition ha
  unfold ArgumentDecoder.decodeFixedLengthData
  rw [halign, DecodeResult.bind, hread, hat]

theorem Holds.decodeArithmetic (h : Holds d (e.encodeArithmetic a n)) :
    (d.at e).decodeArithmetic a = .decoded n (d.at (e.encodeArithmetic a n)) := by
  obtain ⟨d', halign, hread, hat⟩ := Holds.alignBufferPosition a.size_dvd h
  rw [a.length_toBytes] at halign hread hat
  unfold ArgumentDecoder.decodeArithmetic
  rw [halign, DecodeResult.bind, hread, hat, a.ofBytes_toBytes]
  rfl

/-- The check before the memory of a vector or a string is allocated. -/
theorem Holds.bufferIsLargeEnoughToContain {size : ℕ} (hn : n * size = data.length)
    (ha : size ∣ ArgumentDecoder.expectedAlignment) (h : Holds d (e.grow size data)) :
    (d.at e).bufferIsLargeEnoughToContain size n = true := by
  obtain ⟨d', halign, -, -⟩ := h.alignBufferPosition ha
  have hlength := e.length_grow (alignment_pos ha) data
  have hdata := h.written.length_le
  have hin := h.inBounds
  have hend : d.bufferEnd = d.buffer + d.data.length := rfl
  have hfew : n ≤ (sizeLimit - 1) / size := by
    rw [le_div_iff_mul_le (alignment_pos ha)]
    unfold sizeLimit
    omega
  unfold ArgumentDecoder.bufferIsLargeEnoughToContain
  rw [if_neg (not_lt.mpr hfew), hn]
  unfold ArgumentDecoder.alignBufferPosition at halign
  simp only at halign
  split at halign
  · rename_i henough
    exact henough
  · cases halign

end Standing

/-! ## The encoder's buffer grows -/

section Growing

/-- What was written stays, and at least `n` bytes are added. -/
structure Grows (e e' : ArgumentEncoder) (n : ℕ) : Prop where
  written : e.buffer <+: e'.buffer
  length_add_le : e.buffer.length + n ≤ e'.buffer.length

variable {e e' e'' : ArgumentEncoder} {m n : ℕ}

theorem Grows.trans (h : Grows e e' m) (h' : Grows e' e'' n) : Grows e e'' (m + n) where
  written := h.written.trans h'.written
  length_add_le := by
    have := h.length_add_le
    have := h'.length_add_le
    omega

theorem Grows.of_le (h : Grows e e' n) (hle : m ≤ n) : Grows e e' m where
  written := h.written
  length_add_le := by
    have := h.length_add_le
    omega

theorem grows_grow (e : ArgumentEncoder) {alignment : ℕ} (hpos : 0 < alignment) (data : Bytes) :
    Grows e (e.grow alignment data) data.length where
  written := e.prefix_grow alignment data
  length_add_le := by
    rw [e.length_grow hpos]
    exact Nat.add_le_add_right (le_roundUpToAlignment hpos _) _

theorem grows_encodeArithmetic (e : ArgumentEncoder) (a : ArithmeticType) (n : a.Value) :
    Grows e (e.encodeArithmetic a n) 1 := by
  have hgrow := grows_grow e (alignment_pos a.size_dvd) (a.toBytes n)
  rw [a.length_toBytes] at hgrow
  exact hgrow.of_le (alignment_pos a.size_dvd)

/-- A loop that writes something for each element. -/
theorem grows_foldl {α : Type} {encode : ArgumentEncoder → α → ArgumentEncoder}
    (hencode : ∀ e x, Grows e (encode e x) 1) (l : List α) (e : ArgumentEncoder) :
    Grows e (l.foldl encode e) l.length := by
  induction l generalizing e with
  | nil => exact ⟨prefix_rfl, le_rfl⟩
  | cons x l ih =>
    have hstep := (hencode e x).trans (ih (encode e x))
    rwa [add_comm] at hstep

namespace ArgumentCoder

/-- A vector whose elements are not of an arithmetic type is encoded element by element. -/
theorem encode_vector {t : ArgumentType} (ht : ∀ a, t ≠ .arithmetic a) (l : List t.Value)
    (e : ArgumentEncoder) : encode (.vector t) l e
      = l.foldl (fun e element => encode t element e)
        (e.encodeUInt64 (BitVec.ofNat 64 l.length)) := by
  cases t with
  | arithmetic a => exact absurd rfl (ht a)
  | _ => rfl

theorem decode_vector {t : ArgumentType} (ht : ∀ a, t ≠ .arithmetic a) (d : ArgumentDecoder) :
    decode (.vector t) d = d.decodeUInt64.bind fun size d =>
      decodeElements (decode t) size.toNat [] d := by
  cases t with
  | arithmetic a => exact absurd rfl (ht a)
  | _ => rfl

/-- Every value writes at least one byte. -/
theorem grows_encode (t : ArgumentType) (v : t.Value) (e : ArgumentEncoder) :
    Grows e (encode t v e) 1 := by
  have hdata : ∀ (e : ArgumentEncoder) (data : Bytes) {alignment : ℕ}, 0 < alignment →
      Grows e (e.encodeFixedLengthData data alignment) 0 :=
    fun e data _ hpos => (grows_grow e hpos data).of_le (zero_le _)
  induction t generalizing e with
  | arithmetic a => exact grows_encodeArithmetic e a v
  | string =>
    cases v with
    | none => exact grows_encodeArithmetic e .uint32 _
    | some string => exact (grows_encodeArithmetic e .uint32 _).trans (hdata _ _ two_pos)
  | cString =>
    cases v with
    | none => exact grows_encodeArithmetic e .uint32 _
    | some string => exact (grows_encodeArithmetic e .uint32 _).trans (hdata _ _ one_pos)
  | dataReference => exact (grows_encodeArithmetic e .uint64 _).trans (hdata _ _ one_pos)
  | pair t u iht ihu =>
    exact ((iht v.1 e).trans (ihu v.2 _)).of_le (le_add_right 1 1)
  | hashMap key mapped ihkey ihmapped =>
    refine ((grows_encodeArithmetic e .uint64 _).trans (grows_foldl ?_ _ _)).of_le
      (le_add_right 1 _)
    intro e entry
    exact ((ihkey entry.1 e).trans (ihmapped entry.2 _)).of_le (le_add_right 1 1)
  | vector t ih =>
    by_cases ht : ∃ a, t = .arithmetic a
    · obtain ⟨a, rfl⟩ := ht
      exact (grows_encodeArithmetic e .uint64 _).trans
        (hdata _ _ (alignment_pos a.size_dvd))
    · have hvector := encode_vector (fun a ha => ht ⟨a, ha⟩) v e
      rw [hvector]
      exact ((grows_encodeArithmetic e .uint64 _).trans
        (grows_foldl (fun e element => ih element e) _ _)).of_le (le_add_right 1 _)

end ArgumentCoder

end Growing

/-! ## What the coders read back -/

section Coders

variable {d : ArgumentDecoder} {e : ArgumentEncoder}

/-- A count of things that are all in the buffer is not truncated. -/
theorem Holds.toNat_ofNat (h : Holds d e) {n : ℕ} (hn : n ≤ e.buffer.length) :
    (BitVec.ofNat 64 n).toNat = n := by
  have hdata := h.written.length_le
  have hin := h.inBounds
  have hend : d.bufferEnd = d.buffer + d.data.length := rfl
  exact mod_eq_of_lt (by omega)

namespace ArgumentCoder

theorem length_characterBytes (characters : List UChar) :
    (characterBytes characters).length = characters.length * sizeOfUChar := by
  unfold characterBytes
  induction characters with
  | nil => rfl
  | cons c characters ih =>
    rw [flatMap_cons, length_append, ih, length_cons, succ_mul, add_comm]
    rfl

theorem bytesCharacters_characterBytes (characters : List UChar) :
    bytesCharacters characters.length (characterBytes characters) = characters := by
  unfold characterBytes
  induction characters with
  | nil => rfl
  | cons c characters ih =>
    have hlength : (bytes 2 c.toNat).length = sizeOfUChar := length_bytes _ _
    rw [flatMap_cons, length_cons, bytesCharacters, take_left' hlength,
      drop_left' hlength, ih, ofNat_value_bytes c (by norm_num)]

theorem length_flatMap_toBytes (a : ArithmeticType) (l : List a.Value) :
    (l.flatMap a.toBytes).length = l.length * a.size := by
  induction l with
  | nil => exact (zero_mul _).symm
  | cons n l ih =>
    rw [flatMap_cons, length_append, ih, a.length_toBytes, length_cons, succ_mul, add_comm]

theorem readElements_flatMap (a : ArithmeticType) (l : List a.Value) :
    readElements a l.length (l.flatMap a.toBytes) = l := by
  induction l with
  | nil => rfl
  | cons n l ih =>
    rw [flatMap_cons, length_cons, readElements, take_left' (a.length_toBytes n),
      drop_left' (a.length_toBytes n), a.ofBytes_toBytes, ih]

theorem decodeUInt64_at {n : BitVec 64} (h : Holds d (e.encodeUInt64 n)) :
    (d.at e).decodeUInt64 = .decoded n (d.at (e.encodeUInt64 n)) :=
  Holds.decodeArithmetic (a := .uint64) h

theorem decodeUInt32_at {n : BitVec 32} (h : Holds d (e.encodeUInt32 n)) :
    (d.at e).decodeUInt32 = .decoded n (d.at (e.encodeUInt32 n)) :=
  Holds.decodeArithmetic (a := .uint32) h

/-- A length below the greatest word is written as it is and is not taken for a null string. -/
theorem length_word {n : ℕ} (hn : n < 2 ^ 32 - 1) :
    (BitVec.ofNat 32 n).toNat = n ∧ BitVec.ofNat 32 n ≠ maxUInt32 := by
  have hword : (BitVec.ofNat 32 n).toNat = n := by
    exact mod_eq_of_lt (by omega)
  refine ⟨hword, fun hmax => ?_⟩
  have htoNat := congrArg BitVec.toNat hmax
  have hall : maxUInt32.toNat = 2 ^ 32 - 1 := by decide
  omega

theorem decodeCString_at (string : Option Bytes)
    (hshort : ∀ s, string = some s → s.length < 2 ^ 32 - 1)
    (h : Holds d (encodeCString string e)) :
    decodeCString (d.at e) = .decoded string (d.at (encodeCString string e)) := by
  unfold decodeCString
  cases string with
  | none => rw [decodeUInt32_at h]; rfl
  | some s =>
    obtain ⟨hword, hmax⟩ := length_word (hshort s rfl)
    unfold encodeCString at h ⊢
    simp only at h ⊢
    rw [hword, take_length] at h ⊢
    have hlength : Holds d (e.encodeUInt32 (BitVec.ofNat 32 s.length)) :=
      h.of_prefix (ArgumentEncoder.prefix_grow _ _ _)
    rw [decodeUInt32_at hlength, DecodeResult.bind, if_neg hmax, hword,
      h.bufferIsLargeEnoughToContain (mul_one _) (one_dvd _),
      h.decodeFixedLengthData rfl (one_dvd _)]
    rfl

theorem decodeString_at (string : Option StringImpl)
    (hshort : ∀ s, string = some s → s.characters.length ≤ maxStringLength)
    (h : Holds d (encodeString string e)) :
    decodeString (d.at e) = .decoded string (d.at (encodeString string e)) := by
  unfold decodeString
  cases string with
  | none => rw [decodeUInt32_at h]; rfl
  | some s =>
    have hle := hshort s rfl
    have hlt : s.characters.length < 2 ^ 32 - 1 := hle.trans_lt (by decide)
    obtain ⟨hword, hmax⟩ := length_word hlt
    have hlength : Holds d (e.encodeUInt32 (BitVec.ofNat 32 s.characters.length)) :=
      h.of_prefix (ArgumentEncoder.prefix_grow _ _ _)
    have hbytes := length_characterBytes s.characters
    have hdvd : sizeOfUChar ∣ ArgumentDecoder.expectedAlignment := by decide
    rw [decodeUInt32_at hlength, DecodeResult.bind, if_neg hmax]
    simp only [hword]
    rw [h.bufferIsLargeEnoughToContain hbytes.symm hdvd, if_neg (not_lt.mpr hle),
      h.decodeFixedLengthData hbytes.symm hdvd]
    simp only [DecodeResult.bind, bytesCharacters_characterBytes]
    rfl

theorem decodeVariableLengthByteArray_at (h : Holds d (e.encodeVariableLengthByteArray data)) :
    (d.at e).decodeVariableLengthByteArray
      = .decoded data (d.at (e.encodeVariableLengthByteArray data)) := by
  have hcount : Holds d (e.encodeUInt64 (BitVec.ofNat 64 data.length)) :=
    h.of_prefix (ArgumentEncoder.prefix_grow _ _ _)
  have hgrows := grows_grow (e.encodeUInt64 (BitVec.ofNat 64 data.length)) one_pos data
  have hword := h.toNat_ofNat ((le_add_left _ _).trans hgrows.length_add_le)
  have hfixed := Holds.decodeFixedLengthData rfl (one_dvd _) h
  unfold ArgumentDecoder.decodeVariableLengthByteArray
  rw [decodeUInt64_at hcount, DecodeResult.bind, hword]
  exact hfixed

theorem decodeFixedSizeElements_at {a : ArithmeticType} {l : List a.Value}
    (h : Holds d (encodeFixedSizeElements a l e)) :
    decodeFixedSizeElements a (d.at e) = .decoded l (d.at (encodeFixedSizeElements a l e)) := by
  have hcount : Holds d (e.encodeUInt64 (BitVec.ofNat 64 l.length)) :=
    h.of_prefix (ArgumentEncoder.prefix_grow _ _ _)
  have hpos := alignment_pos a.size_dvd
  have hbytes := length_flatMap_toBytes a l
  have hgrows := grows_grow (e.encodeUInt64 (BitVec.ofNat 64 l.length)) hpos (l.flatMap a.toBytes)
  have hword : (BitVec.ofNat 64 l.length).toNat = l.length := by
    refine h.toNat_ofNat (le_trans ?_ hgrows.length_add_le)
    rw [hbytes]
    exact (Nat.le_mul_of_pos_right _ hpos).trans (Nat.le_add_left _ _)
  unfold decodeFixedSizeElements
  rw [decodeUInt64_at hcount, DecodeResult.bind, hword,
    Holds.bufferIsLargeEnoughToContain hbytes.symm a.size_dvd h,
    Holds.decodeFixedLengthData hbytes.symm a.size_dvd h]
  simp only [readElements_flatMap]
  rfl

section Loops

variable {α β : Type}

/-- The loop over the elements reads what the loop over the elements wrote. -/
theorem decodeElements_foldl {encode : ArgumentEncoder → α → ArgumentEncoder}
    {decode : ArgumentDecoder → DecodeResult α} (hgrows : ∀ e x, Grows e (encode e x) 1)
    (hdecode : ∀ x ∈ l, ∀ e, Holds d (encode e x) →
      decode (d.at e) = .decoded x (d.at (encode e x)))
    (tmp : List α) (h : Holds d (l.foldl encode e)) :
    decodeElements decode l.length tmp (d.at e)
      = .decoded (tmp ++ l) (d.at (l.foldl encode e)) := by
  induction l generalizing tmp e with
  | nil =>
    rw [append_nil]
    rfl
  | cons x l ih =>
    have hx : Holds d (encode e x) := h.of_prefix (grows_foldl hgrows l _).written
    rw [length_cons, decodeElements, hdecode x mem_cons_self e hx, DecodeResult.bind,
      ih (fun y hy => hdecode y (mem_cons_of_mem _ hy)) _ h, append_assoc]
    rfl

variable [DecidableEq α]

/-- A key that is not there yet is added behind the others. -/
theorem add_eq {m whole : HashMap α β} {value : β}
    (hwhole : whole.entries = m.entries ++ (key, value) :: l) :
    ∃ m', m.add key value = some m' ∧ m'.entries = m.entries ++ [(key, value)] := by
  have hnew : key ∉ m.entries.map Prod.fst := by
    intro hmem
    have hnodup := whole.nodup
    rw [hwhole, map_append] at hnodup
    exact (nodup_append.mp hnodup).2.2 key hmem key mem_cons_self rfl
  unfold HashMap.add
  rw [dif_neg hnew]
  exact ⟨_, rfl, rfl⟩

/-- The loop over the entries of a map adds them in the order in which they were written. -/
theorem decodeEntries_foldl {encodeKey : α → ArgumentEncoder → ArgumentEncoder}
    {encodeMapped : β → ArgumentEncoder → ArgumentEncoder}
    {decodeMapped : ArgumentDecoder → DecodeResult β}
    (hkey : ∀ e x, Grows e (encodeKey x e) 1) (hmapped : ∀ e y, Grows e (encodeMapped y e) 1)
    (hdecodeKey : ∀ entry ∈ l, ∀ e, Holds d (encodeKey entry.1 e) →
      decodeKey (d.at e) = .decoded entry.1 (d.at (encodeKey entry.1 e)))
    (hdecodeMapped : ∀ entry ∈ l, ∀ e, Holds d (encodeMapped entry.2 e) →
      decodeMapped (d.at e) = .decoded entry.2 (d.at (encodeMapped entry.2 e))) (hwhole :
    whole.entries = m.entries ++ l)
    (h : Holds d (l.foldl (fun e entry => encodeMapped entry.2 (encodeKey entry.1 e)) e)) :
    decodeEntries decodeKey decodeMapped l.length m (d.at e) = .decoded whole
      (d.at (l.foldl (fun e entry => encodeMapped entry.2 (encodeKey entry.1 e)) e)) := by
  induction l generalizing m e with
  | nil =>
    obtain ⟨entries, nodup⟩ := m
    obtain ⟨entries', nodup'⟩ := whole
    obtain rfl : entries' = entries := hwhole.trans (append_nil _)
    rfl
  | cons entry l ih =>
    obtain ⟨key, value⟩ := entry
    have hentry : ∀ (e : ArgumentEncoder) (entry : α × β),
        Grows e (encodeMapped entry.2 (encodeKey entry.1 e)) 1 := fun e entry =>
      ((hkey e entry.1).trans (hmapped _ entry.2)).of_le (le_add_right 1 1)
    have hvalue : Holds d (encodeMapped value (encodeKey key e)) :=
      h.of_prefix (grows_foldl hentry l _).written
    have hfirst : Holds d (encodeKey key e) := hvalue.of_prefix (hmapped _ value).written
    obtain ⟨m', hadd, hentries⟩ := add_eq hwhole
    rw [length_cons, decodeEntries, hdecodeKey _ mem_cons_self e hfirst,
      DecodeResult.bind, hdecodeMapped _ mem_cons_self _ hvalue, DecodeResult.bind]
    simp only [hadd]
    refine ih (fun entry hentry => hdecodeKey entry (mem_cons_of_mem _ hentry))
      (fun entry hentry => hdecodeMapped entry (mem_cons_of_mem _ hentry)) ?_ h
    rw [hwhole, hentries, append_assoc]
    rfl

end Loops

end ArgumentCoder

end Coders

/-! ## Short strings -/

/-- Every string in the value is one that the coder can create again, and no length is the word that
stands for a null string. -/
def ArgumentType.Short : (t : ArgumentType) → t.Value → Prop
  | .arithmetic _, _ => True
  | .string, (v : Option StringImpl) =>
    ∀ s, v = some s → s.characters.length ≤ ArgumentCoder.maxStringLength
  | .cString, (v : Option Bytes) => ∀ s, v = some s → s.length < 2 ^ 32 - 1
  | .dataReference, _ => True
  | .pair t u, (p : t.Value × u.Value) => t.Short p.1 ∧ u.Short p.2
  | .hashMap key mapped, (m : HashMap key.Value mapped.Value) =>
    ∀ entry ∈ m.entries, key.Short entry.1 ∧ mapped.Short entry.2
  | .vector t, (l : List t.Value) => ∀ element ∈ l, t.Short element

namespace ArgumentCoder

/-- A decoder that stands where the encoder stood reads the value and stands where the encoder
does. -/
theorem decode_encode (t : ArgumentType) (v : t.Value) (hshort : t.Short v) {d : ArgumentDecoder}
    {e : ArgumentEncoder} (h : Holds d (encode t v e)) :
    decode t (d.at e) = .decoded v (d.at (encode t v e)) := by
  induction t generalizing e with
  | arithmetic a => exact Holds.decodeArithmetic h
  | string => exact decodeString_at v hshort h
  | cString => exact decodeCString_at v hshort h
  | dataReference => exact decodeVariableLengthByteArray_at h
  | pair t u iht ihu =>
    have hfirst : Holds d (encode t v.1 e) := h.of_prefix (grows_encode u v.2 _).written
    show ((decode t (d.at e)).bind fun first d => (decode u d).bind fun second d =>
      .decoded ((first, second) : t.Value × u.Value) d) = _
    rw [iht v.1 hshort.1 hfirst]
    show (decode u (d.at (encode t v.1 e))).bind _ = _
    rw [ihu v.2 hshort.2 h]
    rfl
  | hashMap key mapped ihkey ihmapped =>
    have hgrows : ∀ (e : ArgumentEncoder) (entry : key.Value × mapped.Value),
        Grows e (encode mapped entry.2 (encode key entry.1 e)) 1 := fun e entry =>
      ((grows_encode key entry.1 e).trans (grows_encode mapped entry.2 _)).of_le
        (le_add_right 1 1)
    have hloop := grows_foldl hgrows v.entries
      (e.encodeUInt64 (BitVec.ofNat 64 v.entries.length))
    have hcount := h.of_prefix hloop.written
    have hword := h.toNat_ofNat ((le_add_left _ _).trans hloop.length_add_le)
    show (d.at e).decodeUInt64.bind _ = _
    rw [decodeUInt64_at hcount]
    show decodeEntries _ _ (BitVec.ofNat 64 v.entries.length).toNat _ _ = _
    rw [hword]
    exact decodeEntries_foldl (fun e x => grows_encode key x e)
      (fun e y => grows_encode mapped y e)
      (fun entry hentry _ => ihkey entry.1 (hshort entry hentry).1)
      (fun entry hentry _ => ihmapped entry.2 (hshort entry hentry).2) rfl h
  | vector t ih =>
    by_cases ht : ∃ a, t = .arithmetic a
    · obtain ⟨a, rfl⟩ := ht
      exact decodeFixedSizeElements_at h
    · have ht : ∀ a, t ≠ .arithmetic a := fun a ha => ht ⟨a, ha⟩
      have hencode := encode_vector ht v e
      rw [hencode] at h ⊢
      have hloop := grows_foldl (fun e element => grows_encode t element e) v
        (e.encodeUInt64 (BitVec.ofNat 64 v.length))
      have hcount := h.of_prefix hloop.written
      have hword := h.toNat_ofNat ((le_add_left _ _).trans hloop.length_add_le)
      rw [decode_vector ht, decodeUInt64_at hcount, DecodeResult.bind, hword]
      exact decodeElements_foldl (fun e element => grows_encode t element e)
        (fun element helement _ => ih element (hshort element helement)) [] h

end ArgumentCoder

section Decoded

variable {α β : Type} {d d' : ArgumentDecoder}

/-- A chain of calls returns true when each does. -/
theorem DecodeResult.bind_eq_decoded {r : DecodeResult α}
    {f : α → ArgumentDecoder → DecodeResult β} {y : β} (h : r.bind f = .decoded y d') :
    ∃ x d, r = .decoded x d ∧ f x d = .decoded y d' := by
  cases r with
  | decoded x d => exact ⟨x, d, rfl, h⟩
  | _ => cases h

namespace ArgumentCoder

theorem length_of_decodeFixedLengthData {size : ℕ}
    (h : d.decodeFixedLengthData size alignment = .decoded b d') : b.length ≤ size := by
  obtain ⟨_, d₁, -, h⟩ := DecodeResult.bind_eq_decoded h
  injection h with hb
  rw [← hb]
  exact length_take_le _ _

theorem short_of_decodeCString {string : Option Bytes}
    (h : decodeCString d = .decoded string d') : ArgumentType.cString.Short string := by
  obtain ⟨length, d₁, -, h⟩ := DecodeResult.bind_eq_decoded h
  rintro s rfl
  split at h
  · cases h
  · rename_i hmax
    split at h
    · cases h
    · obtain ⟨b, d₂, hb, h⟩ := DecodeResult.bind_eq_decoded h
      injection h with hs
      obtain rfl := Option.some.inj hs
      have hle := length_of_decodeFixedLengthData hb
      have hne : length.toNat ≠ maxUInt32.toNat := fun heq => hmax (BitVec.eq_of_toNat_eq heq)
      have hall : maxUInt32.toNat = 2 ^ 32 - 1 := by decide
      omega

theorem short_of_decodeString {string : Option StringImpl}
    (h : decodeString d = .decoded string d') : ArgumentType.string.Short string := by
  obtain ⟨length, d₁, -, h⟩ := DecodeResult.bind_eq_decoded h
  rintro s rfl
  split at h
  · cases h
  · split at h
    · cases h
    · split at h
      · cases h
      · rename_i hle
        obtain ⟨b, d₂, -, h⟩ := DecodeResult.bind_eq_decoded h
        injection h with hs
        obtain rfl := Option.some.inj hs
        simp only [length_bytesCharacters]
        exact Nat.le_of_not_lt hle

theorem forall_of_decodeElements {decode : ArgumentDecoder → DecodeResult α} {P : α → Prop}
    (hdecode : ∀ {d x d'}, decode d = .decoded x d' → P x)
    (htmp : ∀ x ∈ tmp, P x) (h : decodeElements decode n tmp d = .decoded l d') :
    ∀ x ∈ l, P x := by
  induction n generalizing tmp d with
  | zero =>
    injection h with hl
    exact hl ▸ htmp
  | succ n ih =>
    obtain ⟨element, d₁, helement, h⟩ := DecodeResult.bind_eq_decoded h
    refine ih (fun x hx => ?_) h
    rcases mem_append.mp hx with hx | hx
    · exact htmp x hx
    · exact mem_singleton.mp hx ▸ hdecode helement

theorem forall_of_decodeEntries [DecidableEq α] {decodeKey : ArgumentDecoder → DecodeResult α}
    {P : α → Prop} {Q : β → Prop}
    (hkey : ∀ {d x d'}, decodeKey d = .decoded x d' → P x)
    (hmapped : ∀ {d y d'}, decodeMapped d = .decoded y d' → Q y)
    (htmp : ∀ entry ∈ tmp.entries, P entry.1 ∧ Q entry.2)
    (h : decodeEntries decodeKey decodeMapped n tmp d = .decoded m d') :
    ∀ entry ∈ m.entries, P entry.1 ∧ Q entry.2 := by
  induction n generalizing tmp d with
  | zero =>
    injection h with hm
    exact hm ▸ htmp
  | succ n ih =>
    obtain ⟨key, d₁, hdecodeKey, h⟩ := DecodeResult.bind_eq_decoded h
    obtain ⟨value, d₂, hdecodeMapped, h⟩ := DecodeResult.bind_eq_decoded h
    cases hadd : tmp.add key value with
    | none =>
      rw [hadd] at h
      cases h
    | some tmp' =>
      rw [hadd] at h
      refine ih (fun entry hentry => ?_) h
      unfold HashMap.add at hadd
      split at hadd
      · cases hadd
      · obtain rfl := Option.some.inj hadd
        rcases mem_append.mp hentry with hentry | hentry
        · exact htmp entry hentry
        · obtain rfl := mem_singleton.mp hentry
          exact ⟨hkey hdecodeKey, hmapped hdecodeMapped⟩

/-- Whatever the buffer holds, the strings that are decoded are short. -/
theorem short_of_decode {t : ArgumentType} {v : t.Value} (h : decode t d = .decoded v d') :
    t.Short v := by
  induction t generalizing d d' with
  | arithmetic a => exact trivial
  | string => exact short_of_decodeString h
  | cString => exact short_of_decodeCString h
  | dataReference => exact trivial
  | pair t u iht ihu =>
    obtain ⟨first, d₁, hfirst, h⟩ := DecodeResult.bind_eq_decoded h
    obtain ⟨second, d₂, hsecond, h⟩ := DecodeResult.bind_eq_decoded h
    injection h with hv
    rw [← hv]
    exact ⟨iht hfirst, ihu hsecond⟩
  | hashMap key mapped ihkey ihmapped =>
    obtain ⟨hashMapSize, d₁, -, h⟩ := DecodeResult.bind_eq_decoded h
    exact forall_of_decodeEntries ihkey ihmapped (fun _ hmem => absurd hmem not_mem_nil) h
  | vector t ih =>
    by_cases ht : ∃ a, t = .arithmetic a
    · obtain ⟨a, rfl⟩ := ht
      exact fun _ _ => trivial
    · rw [decode_vector fun a ha => ht ⟨a, ha⟩] at h
      obtain ⟨size, d₁, -, h⟩ := DecodeResult.bind_eq_decoded h
      exact forall_of_decodeElements ih (fun _ hmem => absurd hmem not_mem_nil) h

end ArgumentCoder

end Decoded

/-! ## A whole message -/

section RoundTrip

/-- The encoder after the destination ID and the arguments. -/
def encodeMessage (uninitialized : ℕ → UInt8) (destinationID : BitVec 64)
    (arguments : List Argument) : ArgumentEncoder :=
  encodeArguments arguments (ArgumentEncoder.create uninitialized destinationID)

/-- The receiver's decoder gets the destination ID and each of the arguments back and stands, after
each, where the encoder stood, so that it has read all in the end; and at every offset in the buffer
the decoder skips the bytes that the encoder skips. -/
structure RoundTrips (uninitialized : ℕ → UInt8) (destinationID : BitVec 64)
    (arguments : List Argument) (d : ArgumentDecoder) : Prop where
  destination : d.destinationID = some destinationID
  decoded : ∀ n ≤ arguments.length, ∃ d',
    decodeArguments ((arguments.take n).map (·.type)) d = .decoded (arguments.take n) d'
      ∧ d'.bufferPos
        = d'.buffer + (encodeMessage uninitialized destinationID (arguments.take n)).buffer.length
  atEnd : ∃ d', decodeArguments (arguments.map (·.type)) d = .decoded arguments d'
    ∧ d'.bufferPos = d'.bufferEnd
  padding : ∀ n ≤ d.data.length, ∀ alignment, alignment ∣ ArgumentDecoder.expectedAlignment →
    ArgumentDecoder.roundUpToAlignment (d.buffer + n) alignment
      = d.buffer + ArgumentEncoder.roundUpToAlignment n alignment

theorem prefix_encodeArguments (arguments : List Argument) (e : ArgumentEncoder) :
    e.buffer <+: (encodeArguments arguments e).buffer :=
  (grows_foldl (fun e (argument : Argument) =>
    ArgumentCoder.grows_encode argument.type argument.value e) arguments e).written

variable {d : ArgumentDecoder} {e : ArgumentEncoder}

theorem decodeArguments_at {arguments : List Argument}
    (hshort : ∀ argument ∈ arguments, argument.type.Short argument.value)
    (h : Holds d (encodeArguments arguments e)) :
    decodeArguments (arguments.map (·.type)) (d.at e)
      = .decoded arguments (d.at (encodeArguments arguments e)) := by
  induction arguments generalizing e with
  | nil => rfl
  | cons argument arguments ih =>
    have hfirst : Holds d (ArgumentCoder.encode argument.type argument.value e) :=
      h.of_prefix (prefix_encodeArguments arguments _)
    rw [map_cons, decodeArguments,
      ArgumentCoder.decode_encode _ _ (hshort _ mem_cons_self) hfirst, DecodeResult.bind,
      ih (fun a ha => hshort a (mem_cons_of_mem _ ha)) h]
    rfl

theorem short_of_decodeArguments {types : List ArgumentType} {arguments : List Argument}
    (h : decodeArguments types d = .decoded arguments d') :
    ∀ argument ∈ arguments, argument.type.Short argument.value := by
  induction types generalizing arguments d d' with
  | nil =>
    injection h with harguments
    rw [← harguments]
    exact fun _ hmem => absurd hmem not_mem_nil
  | cons type types ih =>
    obtain ⟨value, d₁, hvalue, h⟩ := DecodeResult.bind_eq_decoded h
    obtain ⟨rest, d₂, hrest, h⟩ := DecodeResult.bind_eq_decoded h
    injection h with harguments
    rw [← harguments]
    intro argument hargument
    rcases mem_cons.mp hargument with rfl | hargument
    · exact ArgumentCoder.short_of_decode hvalue
    · exact ih hrest argument hargument

/-- The decoder before the destination ID is read. -/
def ArgumentDecoder.start (buffer : Bytes)
    (block : Block (buffer.length + ArgumentDecoder.expectedAlignment)) : ArgumentDecoder where
  destinationID := none
  data := buffer
  buffer := roundUpToAlignment block.base expectedAlignment
  bufferPos := roundUpToAlignment block.base expectedAlignment

/-- `create` makes room for eight bytes more than the buffer has, so the aligned buffer fits. -/
theorem holds_start {e' : ArgumentEncoder} (hbegin : e.buffer <+: e'.buffer)
    (block : Block (e'.buffer.length + ArgumentDecoder.expectedAlignment)) :
    Holds (ArgumentDecoder.start e'.buffer block) e := by
  have hblock := block.inBounds
  unfold ArgumentDecoder.expectedAlignment at hblock
  have hround : ArgumentDecoder.roundUpToAlignment block.base ArgumentDecoder.expectedAlignment
      = (block.base + 8 - 1) / 8 * 8 :=
    roundUpToAlignment_eq dvd_rfl (by unfold ArgumentDecoder.expectedAlignment; omega)
  refine ⟨hbegin, ?_, ?_⟩
  · show _ ∣ ArgumentDecoder.roundUpToAlignment block.base ArgumentDecoder.expectedAlignment
    rw [hround]
    exact dvd_mul_left _ _
  · show ArgumentDecoder.roundUpToAlignment block.base ArgumentDecoder.expectedAlignment
      + e'.buffer.length < 2 ^ 63
    omega

/-- The destination ID is the first word of the buffer, and behind it the decoder stands. -/
theorem holds_create {uninitialized : ℕ → UInt8} {destinationID : BitVec 64}
    (hbegin : (ArgumentEncoder.create uninitialized destinationID).buffer <+: e.buffer)
    (block : Block (e.buffer.length + ArgumentDecoder.expectedAlignment))
    (hd : d = ArgumentDecoder.create e.buffer block) :
    Holds d e ∧ d.data = e.buffer ∧ d.destinationID = some destinationID
      ∧ d.at (ArgumentEncoder.create uninitialized destinationID) = d := by
  have hstart := holds_start prefix_rfl block
  have hdecode := ArgumentCoder.decodeUInt64_at (holds_start hbegin block)
  have hat : (ArgumentDecoder.start e.buffer block).at { buffer := [], uninitialized }
      = ArgumentDecoder.start e.buffer block := rfl
  have hcreate : d = { (ArgumentDecoder.start e.buffer block).at
      (ArgumentEncoder.create uninitialized destinationID) with
        destinationID := some destinationID } := by
    rw [hat] at hdecode
    rw [hd]
    unfold ArgumentDecoder.create
    simp only
    unfold ArgumentDecoder.start at hdecode ⊢
    rw [hdecode]
    rfl
  subst hcreate
  exact ⟨⟨hstart.written, hstart.aligned, hstart.inBounds⟩, rfl, rfl, rfl⟩

variable (uninitialized : ℕ → UInt8) (destinationID : BitVec 64) (arguments : List Argument)

theorem prefix_encodeMessage (n : ℕ) :
    (encodeMessage uninitialized destinationID (arguments.take n)).buffer
      <+: (encodeMessage uninitialized destinationID arguments).buffer := by
  have hsplit : encodeMessage uninitialized destinationID arguments
      = encodeArguments (arguments.drop n)
        (encodeMessage uninitialized destinationID (arguments.take n)) := by
    unfold encodeMessage encodeArguments
    rw [← foldl_append, take_append_drop]
  rw [hsplit]
  exact prefix_encodeArguments _ _

/-- Encoding and decoding a message gives back what was encoded if and only if no string in it is too
long. -/
theorem roundTrips_iff_short
    (block : Block ((encodeMessage uninitialized destinationID arguments).buffer.length
      + ArgumentDecoder.expectedAlignment)) :
    RoundTrips uninitialized destinationID arguments
      (ArgumentDecoder.create (encodeMessage uninitialized destinationID arguments).buffer block)
      ↔ ∀ argument ∈ arguments, argument.type.Short argument.value := by
  refine ⟨fun h => ?_, fun hshort => ?_⟩
  · obtain ⟨d', hdecode, -⟩ := h.atEnd
    exact short_of_decodeArguments hdecode
  · obtain ⟨d, hd⟩ : ∃ d, d = ArgumentDecoder.create
      (encodeMessage uninitialized destinationID arguments).buffer block := ⟨_, rfl⟩
    obtain ⟨hholds, hdata, hdestination, hat⟩ :=
      holds_create (prefix_encodeArguments arguments _) block hd
    rw [← hd]
    -- after the first arguments the decoder stands where the encoder stood
    have hdecoded : ∀ n, decodeArguments ((arguments.take n).map (·.type)) d
        = .decoded (arguments.take n)
          (d.at (encodeMessage uninitialized destinationID (arguments.take n))) := by
      intro n
      have hfirst := decodeArguments_at (e := ArgumentEncoder.create uninitialized destinationID)
        (fun a ha => hshort a (mem_of_mem_take ha))
        (hholds.of_prefix (prefix_encodeMessage uninitialized destinationID arguments n))
      rwa [hat] at hfirst
    refine ⟨hdestination, fun n _ => ⟨_, hdecoded n, rfl⟩, ?_, fun n hn alignment halignment => ?_⟩
    · have hall := hdecoded arguments.length
      rw [take_length] at hall
      refine ⟨_, hall, ?_⟩
      show d.buffer + _ = d.buffer + d.data.length
      rw [hdata]
      rfl
    · rw [← roundUpToAlignment_add (halignment.trans hholds.aligned) (alignment_pos halignment)]
      refine roundUpToAlignment_eq halignment ?_
      have hin := hholds.inBounds
      have hend : d.bufferEnd = d.buffer + d.data.length := rfl
      unfold ArgumentDecoder.expectedAlignment
      omega

/-! ## A string of four gigabytes -/

/-- As many bytes as the word that stands for a null string says. -/
@[irreducible] def longString : Bytes := List.replicate (2 ^ 32 - 1) 0

theorem length_longString : longString.length = 2 ^ 32 - 1 := by
  unfold longString
  exact length_replicate

def longCString : Argument where
  type := .cString
  value := some longString

theorem length_encodeCString_le (string : Bytes) (e : ArgumentEncoder) :
    (ArgumentCoder.encodeCString (some string) e).buffer.length ≤ e.buffer.length + 2 ^ 32 + 8 := by
  have hcount : (e.encodeUInt32 (BitVec.ofNat 32 string.length)).buffer.length
      = ArgumentEncoder.roundUpToAlignment e.buffer.length 4 + 4 := by
    have hgrow := e.length_grow (alignment_pos ArithmeticType.uint32.size_dvd)
      (ArithmeticType.uint32.toBytes (BitVec.ofNat 32 string.length))
    exact hgrow.trans (congrArg (_ + ·)
      (ArithmeticType.uint32.length_toBytes (BitVec.ofNat 32 string.length)))
  have hround : ∀ n, ArgumentEncoder.roundUpToAlignment n 4 ≤ n + 3 := fun n =>
    (div_mul_le_self _ 4).trans_eq rfl
  have hround' : ∀ n, ArgumentEncoder.roundUpToAlignment n 1 ≤ n := fun n =>
    div_mul_le_self _ 1
  have htake := length_take_le (BitVec.ofNat 32 string.length).toNat string
  unfold ArgumentCoder.encodeCString ArgumentEncoder.encodeFixedLengthData
  rw [ArgumentEncoder.length_grow _ one_pos]
  have hround₁ := hround e.buffer.length
  have hround₂ := hround' (e.encodeUInt32 (BitVec.ofNat 32 string.length)).buffer.length
  omega

theorem length_encode_longCString :
    (encodeMessage (fun _ => 0) 0#64 [longCString]).buffer.length ≤ 2 ^ 33 := by
  have hcreate : (ArgumentEncoder.create (fun _ => 0) 0#64).buffer.length = 8 := by decide
  have hle := length_encodeCString_le longString (ArgumentEncoder.create (fun _ => 0) 0#64)
  rw [hcreate] at hle
  exact hle.trans (by norm_num)

/-- Memory for a buffer of a few gigabytes. -/
def lowBlock {n : ℕ} (h : n ≤ 2 ^ 33) : Block (n + ArgumentDecoder.expectedAlignment) where
  base := 4096
  inBounds := by
    unfold ArgumentDecoder.expectedAlignment
    omega

/-- The string comes back as a null string. -/
theorem not_roundTrips_longCString : ¬ RoundTrips (fun _ => 0) 0#64 [longCString]
    (ArgumentDecoder.create (encodeMessage (fun _ => 0) 0#64 [longCString]).buffer
      (lowBlock length_encode_longCString)) := by
  intro h
  obtain ⟨d', hdecode, -⟩ := h.atEnd
  have hshort := short_of_decodeArguments hdecode longCString mem_cons_self
  have hlt := hshort longString rfl
  rw [length_longString] at hlt
  exact absurd hlt (lt_irrefl _)

end RoundTrip

end CoreIPC
end WebKit
