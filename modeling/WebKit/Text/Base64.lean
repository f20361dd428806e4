import Mathlib.Tactic.IntervalCases
import WebKit.WTF.ASCIICType

/-!
# Base64

The encoder writes groups of four characters, and a line feed before a group when a count of the
characters before it is a multiple of 76.  The decoder collects the sextets of a text in its output
buffer and then converts them to bytes in the same buffer, four to three.

* `decodesOrFails_iff`: the conversion reads no cell that was written over, and what is decoded are
  the bytes that the alphabet characters of the text denote, unless there are `2 ^ 32 - 2` or
  `2 ^ 32 - 1` of them, for which `outLength + 3` wraps.
* `decode_encode_iff`: when a byte string is encoded in lines of 76 characters and decoded again.  The
  count is an `int`, which overflows for `3 * 2 ^ 29` bytes when there are line feeds.
-/

namespace WebKit

open List UInt8
namespace Text
namespace Base64

/-! ## Sextets -/

def encMap : List UInt8 :=
  [0x41, 0x42, 0x43, 0x44, 0x45, 0x46, 0x47, 0x48, 0x49, 0x4A, 0x4B, 0x4C, 0x4D, 0x4E, 0x4F, 0x50,
   0x51, 0x52, 0x53, 0x54, 0x55, 0x56, 0x57, 0x58,
   0x59, 0x5A, 0x61, 0x62, 0x63, 0x64, 0x65, 0x66,
   0x67, 0x68, 0x69, 0x6A, 0x6B, 0x6C, 0x6D, 0x6E,
   0x6F, 0x70, 0x71, 0x72, 0x73, 0x74, 0x75, 0x76,
   0x77, 0x78, 0x79, 0x7A, 0x30, 0x31, 0x32, 0x33,
   0x34, 0x35, 0x36, 0x37, 0x38, 0x39, 0x2B, 0x2F]

def decMap : List UInt8 :=
  [0x00, 0x00, 0x00, 0x00, 0x00, 0x00, 0x00, 0x00, 0x00, 0x00, 0x00, 0x00, 0x00, 0x00, 0x00, 0x00,
   0x00, 0x00, 0x00, 0x00, 0x00, 0x00, 0x00, 0x00,
   0x00, 0x00, 0x00, 0x00, 0x00, 0x00, 0x00, 0x00,
   0x00, 0x00, 0x00, 0x00, 0x00, 0x00, 0x00, 0x00,
   0x00, 0x00, 0x00, 0x3E, 0x00, 0x00, 0x00, 0x3F,
   0x34, 0x35, 0x36, 0x37, 0x38, 0x39, 0x3A, 0x3B,
   0x3C, 0x3D, 0x00, 0x00, 0x00, 0x00, 0x00, 0x00,
   0x00, 0x00, 0x01, 0x02, 0x03, 0x04, 0x05, 0x06,
   0x07, 0x08, 0x09, 0x0A, 0x0B, 0x0C, 0x0D, 0x0E,
   0x0F, 0x10, 0x11, 0x12, 0x13, 0x14, 0x15, 0x16,
   0x17, 0x18, 0x19, 0x00, 0x00, 0x00, 0x00, 0x00,
   0x00, 0x1A, 0x1B, 0x1C, 0x1D, 0x1E, 0x1F, 0x20,
   0x21, 0x22, 0x23, 0x24, 0x25, 0x26, 0x27, 0x28,
   0x29, 0x2A, 0x2B, 0x2C, 0x2D, 0x2E, 0x2F, 0x30,
   0x31, 0x32, 0x33, 0x00, 0x00, 0x00, 0x00, 0x00]

def encode (sextet : UInt8) : UInt8 := encMap.getD sextet.toNat 0

def decode (character : UInt32) : UInt8 := decMap.getD character.toNat 0

/-- The sextets of three bytes; a byte that is not there counts as zero. -/
def sextet0 (a : UInt8) : UInt8 := (a >>> 2) &&& 63
def sextet1 (a b : UInt8) : UInt8 := ((b >>> 4) &&& (15 : UInt8)) ||| ((a <<< 4) &&& 63)
def sextet2 (b c : UInt8) : UInt8 := ((c >>> 6) &&& (3 : UInt8)) ||| ((b <<< 2) &&& 63)
def sextet3 (c : UInt8) : UInt8 := c &&& 63

/-- The bytes of four sextets. -/
def byte0 (s t : UInt8) : UInt8 := (s <<< 2) ||| ((t >>> 4) &&& 3)
def byte1 (t u : UInt8) : UInt8 := (t <<< 4) ||| ((u >>> 2) &&& 15)
def byte2 (u v : UInt8) : UInt8 := (u <<< 6) ||| (v &&& 63)

/-! ## Encoding -/

def maxInputBufferSize : ℕ := (2 ^ 32 - 1) / 77 * 76 / 4 * 3 - 2

/-- `outLength`, in `unsigned` arithmetic, and whether line feeds are inserted. -/
def outLength (len : ℕ) (insertLFs : Bool) : ℕ × Bool :=
  let length := ((len + 2) % 2 ^ 32 / 3 * 4) % 2 ^ 32
  let insertLFs := insertLFs && decide (76 < length)
  (if insertLFs then (length + (length - 1) / 76) % 2 ^ 32 else length, insertLFs)

/-- What is written before a group when a number of characters has been counted. -/
def lineFeed (insertLFs : Bool) (count : ℕ) : List UInt8 :=
  if insertLFs && decide (0 < count) && decide (count % 76 = 0) then [0x0A] else []

/-- The groups of the data.  None stands for an overflow of the `int` that counts. -/
def encodeGroups (insertLFs : Bool) : ℕ → List UInt8 → Option (List UInt8)
  | count, a :: b :: c :: data =>
    let next := if insertLFs then count + 4 else count
    if 2 ^ 31 ≤ next then none
    else (encodeGroups insertLFs next data).map fun rest =>
      lineFeed insertLFs count ++ [encode (sextet0 a), encode (sextet1 a b), encode (sextet2 b c),
        encode (sextet3 c)] ++ rest
  | count, [a, b] => some (lineFeed insertLFs count ++
      [encode (sextet0 a), encode (sextet1 a b), encode (sextet2 b 0)])
  | count, [a] => some (lineFeed insertLFs count ++ [encode (sextet0 a), encode (sextet1 a 0)])
  | _, [] => some []

/-- None also stands for a write behind the end of the output, whose length is computed before. -/
def base64Encode (data : List UInt8) (insertLFs : Bool) : Option (List UInt8) :=
  if data.length = 0 ∨ maxInputBufferSize < data.length then some []
  else
    let (length, insertLFs) := outLength data.length insertLFs
    (encodeGroups insertLFs 0 data).bind fun out =>
      if length < out.length then none else some (out ++ List.replicate (length - out.length) 0x3D)

/-! ## Decoding -/

inductive Base64DecodePolicy
  | failOnInvalidCharacter
  | ignoreWhitespace
  | ignoreInvalidCharacters
  deriving DecidableEq

def isAlphabet (ch : UInt32) : Bool :=
  (decide (0x30 ≤ ch) && decide (ch ≤ 0x39)) || (decide (0x41 ≤ ch) && decide (ch ≤ 0x5A)) ||
    (decide (0x61 ≤ ch) && decide (ch ≤ 0x7A)) || ch == 0x2B || ch == 0x2F

/-- A code unit above `0x7F` is a space by its Unicode direction. -/
def isSpaceOrNewline (isWhiteSpaceNeutral : UInt16 → Bool) (ch : UInt32) : Bool :=
  if ch.toUInt16 ≤ 0x7F then WTF.isASCIISpace ch.toUInt16 else isWhiteSpaceNeutral ch.toUInt16

/-- A cell of the output buffer holds what it was grown with, a sextet or a byte. -/
inductive Cell
  | fresh
  | sextet (value : UInt8)
  | byte (value : UInt8)

abbrev Buffer := ℕ → Cell

/-- A read of a sextet. -/
def Buffer.sextet? (out : Buffer) (i : ℕ) : Option UInt8 :=
  match out i with
  | .sextet value => some value
  | _ => none

def Buffer.byte? (out : Buffer) (i : ℕ) : Option UInt8 :=
  match out i with
  | .byte value => some value
  | _ => none

/-- The first bytes of the buffer. -/
def Buffer.bytes (out : Buffer) : ℕ → Option (List UInt8)
  | 0 => some []
  | n + 1 => do
    let bytes ← out.bytes n
    let value ← out.byte? n
    return bytes ++ [value]

/-- `out[didx] = f(out[sidx], out[sidx + 1])`, with `unsigned` indices. -/
def Buffer.convert (f : UInt8 → UInt8 → UInt8) (didx sidx : ℕ) (out : Buffer) : Option Buffer := do
  let s ← out.sextet? sidx
  let t ← out.sextet? ((sidx + 1) % 2 ^ 32)
  return Function.update out didx (.byte (f s t))

section Decoding

variable (isWhiteSpaceNeutral : UInt16 → Bool)

/-- The sextets of a text with whether an equals sign was seen, unless the text is refused. -/
def scan (policy : Base64DecodePolicy) : Bool → List UInt32 → Option (Bool × List UInt8)
  | sawEqualsSign, [] => some (sawEqualsSign, [])
  | sawEqualsSign, ch :: data =>
    if ch = 0x3D then scan policy true data
    else if isAlphabet ch then
      if sawEqualsSign then none
      else (scan policy sawEqualsSign data).map fun r => (r.1, decode ch :: r.2)
    else if policy = .failOnInvalidCharacter ∨
        policy = .ignoreWhitespace ∧ isSpaceOrNewline isWhiteSpaceNeutral ch = false then none
    else scan policy sawEqualsSign data

/-- The 4-byte to 3-byte conversion, over at most the number of groups given. -/
def convertGroups (outLength : ℕ) : ℕ → ℕ → ℕ → Buffer → Option (ℕ × ℕ × Buffer)
  | 0, sidx, didx, out => some (sidx, didx, out)
  | fuel + 1, sidx, didx, out =>
    if 1 < outLength ∧ didx < outLength - 2 then do
      let out ← out.convert byte0 didx sidx
      let out ← out.convert byte1 ((didx + 1) % 2 ^ 32) ((sidx + 1) % 2 ^ 32)
      let out ← out.convert byte2 ((didx + 2) % 2 ^ 32) ((sidx + 2) % 2 ^ 32)
      convertGroups outLength fuel ((sidx + 4) % 2 ^ 32) ((didx + 3) % 2 ^ 32) out
    else some (sidx, didx, out)

/-- The buffer with the sextets of a text. -/
def buffer (sextets : List UInt8) : Buffer := fun i => (sextets[i]?).elim .fresh .sextet

/-- `outLength -= (outLength + 3) / 4`, in `unsigned` arithmetic. -/
def convertedLength (outLength : ℕ) : ℕ :=
  (outLength + 2 ^ 32 - (outLength + 3) % 2 ^ 32 / 4) % 2 ^ 32

/-- The conversion of the whole buffer.  None stands for a read of a cell that is no sextet, or for a
cell of the result that is no byte. -/
def convertBuffer (sextets : List UInt8) : Option (List UInt8) := do
  let outLength := convertedLength sextets.length
  let (sidx, didx, out) ← convertGroups outLength sextets.length 0 0 (buffer sextets)
  let out ← (if didx < outLength then out.convert byte0 didx sidx else some out)
  let didx := (didx + 1) % 2 ^ 32
  let out ← (if didx < outLength then out.convert byte1 didx ((sidx + 1) % 2 ^ 32) else some out)
  out.bytes outLength

/-- The result, and the bytes when it is true.  A vector may be longer than an `unsigned` counts. -/
def base64Decode (data : List UInt32) (policy : Base64DecodePolicy) : Option (Bool × List UInt8) :=
  if 2 ^ 32 ≤ data.length then some (false, [])
  else if data.length = 0 then some (true, [])
  else
    match scan isWhiteSpaceNeutral policy false data with
    | none => some (false, [])
    | some (sawEqualsSign, sextets) =>
      if sextets.length = 0 then some (!sawEqualsSign, [])
      else if sextets.length % 4 = 1 then some (false, [])
      else if convertedLength sextets.length = 0 then some (false, [])
      else (convertBuffer sextets).map fun out => (true, out)

/-- The bytes that sextets denote. -/
def bytesOf : List UInt8 → List UInt8
  | s :: t :: u :: v :: rest => byte0 s t :: byte1 t u :: byte2 u v :: bytesOf rest
  | [s, t, u] => [byte0 s t, byte1 t u]
  | [s, t] => [byte0 s t]
  | [_] => []
  | [] => []

/-! ### The conversion in the buffer -/

/-- The start of a buffer holds bytes and a part behind it sextets. -/
structure Holds (out : Buffer) (done : List UInt8) (sidx : ℕ) (rest : List UInt8) : Prop where
  done_le : done.length ≤ sidx
  end_lt : sidx + rest.length < 2 ^ 32
  byte_eq : ∀ i < done.length, out.byte? i = done[i]?
  sextet_eq : ∀ j < rest.length, out.sextet? (sidx + j) = rest[j]?

theorem holds_buffer {sextets : List UInt8} (h : sextets.length < 2 ^ 32) :
    Holds (buffer sextets) [] 0 sextets where
  done_le := Nat.zero_le _
  end_lt := (Nat.zero_add _).symm ▸ h
  byte_eq := nofun
  sextet_eq j hj := by
    rw [Nat.zero_add, Buffer.sextet?, buffer, List.getElem?_eq_getElem hj]
    rfl

variable {done rest : List UInt8} {out : Buffer} {sidx : ℕ}

/-- A byte is written behind the bytes from two sextets, of which the first is then given up. -/
theorem Holds.convert {s t : UInt8} (h : Holds out done sidx (s :: t :: rest))
    (f : UInt8 → UInt8 → UInt8) :
    ∃ out', out.convert f done.length sidx = some out' ∧
      Holds out' (done ++ [f s t]) (sidx + 1) (t :: rest) := by
  have hs : out.sextet? sidx = some s := h.sextet_eq 0 (Nat.zero_lt_succ _)
  have ht : out.sextet? (sidx + 1) = some t := h.sextet_eq 1 (by simp)
  have hle := h.done_le
  have hend := h.end_lt
  simp only [length_cons] at hend
  have hmod : (sidx + 1) % 2 ^ 32 = sidx + 1 := Nat.mod_eq_of_lt (by omega)
  refine ⟨Function.update out done.length (.byte (f s t)),
    by rw [Buffer.convert, hmod, hs, ht]; rfl, ?_⟩
  refine ⟨by simp; omega, by simp only [length_cons]; omega, fun i hi => ?_, fun j hj => ?_⟩
  · rw [length_append, length_singleton] at hi
    by_cases hlast : i = done.length
    · subst hlast
      simp [Buffer.byte?]
    · rw [List.getElem?_append_left (by omega), ← h.byte_eq i (by omega)]
      simp [Buffer.byte?, hlast]
  · have hcell := h.sextet_eq (j + 1) (by simpa using hj)
    rw [List.getElem?_cons_succ] at hcell
    rw [← hcell, Nat.add_right_comm, Nat.add_assoc]
    simp [Buffer.sextet?, show sidx + (j + 1) ≠ done.length by omega]

theorem Holds.skip {s : UInt8} (h : Holds out done sidx (s :: rest)) :
    Holds out done (sidx + 1) rest := by
  have hend := h.end_lt
  simp only [length_cons] at hend
  refine ⟨h.done_le.trans (Nat.le_succ _), by omega, h.byte_eq, fun j hj => ?_⟩
  have hcell := h.sextet_eq (j + 1) (Nat.succ_lt_succ hj)
  rwa [← Nat.add_assoc, Nat.add_right_comm] at hcell

theorem length_bytesOf (sextets : List UInt8) :
    (bytesOf sextets).length = sextets.length - (sextets.length + 3) / 4 := by
  induction sextets using bytesOf.induct with
  | case1 s t u v rest ih =>
    simp only [bytesOf, length_cons]
    omega
  | case2 | case3 | case4 | case5 => simp [bytesOf]

/-- The loop converts the sextets by fours. -/
theorem convertGroups_spec {outLength : ℕ} (rest : List UInt8)
    (hfuel : rest.length ≤ fuel) (h : Holds out done sidx rest)
    (hlength : outLength = done.length + (bytesOf rest).length) :
    ∃ sidx' out' done' rest', convertGroups outLength fuel sidx done.length out =
        some (sidx', done'.length, out') ∧ Holds out' done' sidx' rest' ∧ rest'.length < 4 ∧
      done' ++ bytesOf rest' = done ++ bytesOf rest ∧ rest'.length % 4 = rest.length % 4 := by
  induction rest using bytesOf.induct generalizing fuel out done sidx with
  | case1 s t u v rest ih =>
    obtain ⟨fuel, rfl⟩ := Nat.exists_eq_add_of_le' ((Nat.succ_le_succ (Nat.zero_le _)).trans hfuel)
    obtain ⟨out0, heq0, h0⟩ := h.convert byte0
    obtain ⟨out1, heq1, h1⟩ := h0.convert byte1
    obtain ⟨out2, heq2, h2⟩ := h1.convert byte2
    rw [length_append, length_singleton] at heq1
    rw [length_append, length_append, length_singleton, length_singleton] at heq2
    have hend := h.end_lt
    have hle := h.done_le
    simp only [length_cons] at hend
    have hd (k : ℕ) (hk : k ≤ 3) : (done.length + k) % 2 ^ 32 = done.length + k :=
      Nat.mod_eq_of_lt (by omega)
    have hsidx (k : ℕ) (hk : k ≤ 3) : (sidx + k) % 2 ^ 32 = sidx + k := Nat.mod_eq_of_lt (by omega)
    have hnext : (sidx + 4) % 2 ^ 32 = sidx + 4 := Nat.mod_eq_of_lt (by omega)
    have hbytes : bytesOf (s :: t :: u :: v :: rest) =
        byte0 s t :: byte1 t u :: byte2 u v :: bytesOf rest := rfl
    rw [hbytes] at hlength ⊢
    simp only [length_cons] at hlength hfuel
    have hdone : (done ++ [byte0 s t] ++ [byte1 t u] ++ [byte2 u v]).length = done.length + 3 := by
      simp
    obtain ⟨sidx', out', done', rest', hrun, hholds, hfew, hsame, hmod⟩ :=
      ih (by omega : rest.length ≤ fuel) h2.skip (by rw [hdone]; omega)
    rw [hdone] at hrun
    refine ⟨sidx', out', done', rest', ?_, hholds, hfew, by simpa using hsame, ?_⟩
    · rw [convertGroups, if_pos (by omega), heq0, hd 1 (by decide), hd 2 (by decide),
        hd 3 le_rfl, hsidx 1 (by decide), hsidx 2 (by decide), hnext]
      dsimp only [bind, Option.bind]
      rw [heq1]
      dsimp only
      rw [heq2]
      exact hrun
    · simp only [length_cons]
      omega
  | case2 | case3 | case4 | case5 =>
    refine ⟨sidx, out, done, _, ?_, h, by simp, rfl, rfl⟩
    cases fuel with
    | zero => rfl
    | succ fuel =>
      rw [convertGroups, if_neg]
      rw [hlength, bytesOf]
      simp only [length_cons, length_nil]
      omega

theorem Holds.bytes (h : Holds out done sidx rest) : out.bytes done.length = some done := by
  have hfirst : ∀ n ≤ done.length, out.bytes n = some (done.take n) := by
    intro n hn
    induction n with
    | zero => rfl
    | succ n ih =>
      have hbyte := h.byte_eq n hn
      rw [Buffer.bytes, ih (Nat.le_of_succ_le hn), hbyte, take_add_one, List.getElem?_eq_getElem hn]
      rfl
  rw [hfirst _ le_rfl, take_length]

theorem convertedLength_eq {n : ℕ} (h : n < 2 ^ 32 - 3) :
    convertedLength n = n - (n + 3) / 4 := by
  unfold convertedLength
  omega

theorem convertedLength_wraps {n : ℕ} (h : 2 ^ 32 - 2 ≤ n) (hlt : n < 2 ^ 32) :
    convertedLength n = n := by
  unfold convertedLength
  omega

/-- The conversion reads sextets only, and gives the bytes that they denote. -/
theorem convertBuffer_eq (hlt : sextets.length < 2 ^ 32 - 2) (hvalid : sextets.length % 4 ≠ 1) :
    convertBuffer sextets = some (bytesOf sextets) := by
  have hlength : (bytesOf sextets).length = convertedLength sextets.length :=
    (length_bytesOf sextets).trans (convertedLength_eq (by omega)).symm
  obtain ⟨sidx, out, done, rest, hrun, hholds, hfew, hsame, hmod⟩ :=
    convertGroups_spec sextets le_rfl (holds_buffer (by omega)) (Nat.zero_add _).symm
  rw [nil_append] at hsame
  have hrun' : convertGroups (bytesOf sextets).length sextets.length 0 0 (buffer sextets) =
      some (sidx, done.length, out) := hrun
  rw [convertBuffer, ← hlength, hrun']
  dsimp only [bind, Option.bind]
  have hend := hholds.end_lt
  have hdone := congrArg List.length hsame
  rw [length_append, hlength, convertedLength_eq (by omega)] at hdone
  have hd : (done.length + 1) % 2 ^ 32 = done.length + 1 := Nat.mod_eq_of_lt (by omega)
  rw [hd, ← hsame]
  match rest, hfew, hmod, hholds, hend with
  | [], _, _, hholds, hend =>
    simpa [bytesOf] using hholds.bytes
  | [_], _, hmod, _, _ => exact absurd hmod.symm hvalid
  | [s, t], _, _, hholds, hend =>
    obtain ⟨out0, heq0, h0⟩ := hholds.convert byte0
    rw [heq0]
    simpa [bytesOf] using h0.bytes
  | [s, t, u], _, _, hholds, hend =>
    have hs : (sidx + 1) % 2 ^ 32 = sidx + 1 :=
      Nat.mod_eq_of_lt (by rw [length_cons] at hend; omega)
    obtain ⟨out0, heq0, h0⟩ := hholds.convert byte0
    obtain ⟨out1, heq1, h1⟩ := h0.convert byte1
    rw [length_append, length_singleton] at heq1
    rw [heq0, hs]
    simpa [bytesOf, heq1] using h1.bytes
  | _ :: _ :: _ :: _ :: _, hfew, _, _, _ => exact absurd hfew (by simp)

theorem Buffer.length_bytes {n : ℕ} {value : List UInt8} (h : out.bytes n = some value) :
    value.length = n := by
  induction n generalizing value with
  | zero =>
    cases h
    rfl
  | succ n ih =>
    obtain ⟨start, hstart, h⟩ := Option.bind_eq_some_iff.mp h
    obtain ⟨last, -, h⟩ := Option.bind_eq_some_iff.mp h
    cases h
    rw [length_append, ih hstart, length_singleton]

theorem length_convertBuffer {bytes : List UInt8} (h : convertBuffer sextets = some bytes) :
    bytes.length = convertedLength sextets.length := by
  obtain ⟨⟨sidx, didx, out⟩, -, h⟩ := Option.bind_eq_some_iff.mp h
  obtain ⟨out0, -, h⟩ := Option.bind_eq_some_iff.mp h
  obtain ⟨out1, -, h⟩ := Option.bind_eq_some_iff.mp h
  exact Buffer.length_bytes h

/-! ### What a text denotes -/

/-- The sextets that are collected are those of the alphabet characters. -/
theorem scan_eq (h : scan isWhiteSpaceNeutral policy saw data = some (saw', sextets)) :
    sextets = (data.filter isAlphabet).map decode := by
  induction data generalizing saw sextets with
  | nil =>
    cases h
    rfl
  | cons ch data ih =>
    rw [scan] at h
    by_cases hequals : ch = 0x3D
    · subst hequals
      exact ih h
    · rw [if_neg hequals] at h
      by_cases halphabet : isAlphabet ch = true
      · rw [if_pos halphabet] at h
        split_ifs at h
        obtain ⟨⟨saw'', rest⟩, hrest, heq⟩ := Option.map_eq_some_iff.mp h
        cases heq
        rw [filter_cons_of_pos halphabet, map_cons, ih hrest]
      · rw [if_neg halphabet] at h
        split_ifs at h
        rw [filter_cons_of_neg halphabet]
        exact ih h

/-- The texts that a policy takes: no alphabet character stands behind an equals sign. -/
def Accepts (policy : Base64DecodePolicy) (text : List UInt32) : Prop :=
  (∀ ch ∈ text, isAlphabet ch = true ∨ ch = 0x3D ∨ policy = .ignoreInvalidCharacters ∨
      policy = .ignoreWhitespace ∧ isSpaceOrNewline isWhiteSpaceNeutral ch = true) ∧
    ∀ ch ∈ text.dropWhile (· ≠ 0x3D), isAlphabet ch = false

theorem isSome_scan_iff : (scan isWhiteSpaceNeutral policy saw text).isSome = true ↔
    (∀ ch ∈ text, isAlphabet ch = true ∨ ch = 0x3D ∨ policy = .ignoreInvalidCharacters ∨
        policy = .ignoreWhitespace ∧ isSpaceOrNewline isWhiteSpaceNeutral ch = true) ∧
      ∀ ch ∈ if saw then text else text.dropWhile (· ≠ 0x3D), isAlphabet ch = false := by
  induction text generalizing saw with
  | nil => simp [scan]
  | cons ch text ih =>
    rw [scan]
    by_cases hequals : ch = 0x3D
    · subst hequals
      rw [if_pos rfl, ih]
      cases saw <;> simp [isAlphabet]
    · rw [if_neg hequals]
      by_cases halphabet : isAlphabet ch = true
      · cases saw <;> simp [halphabet, hequals, ih]
      · cases policy <;> cases saw <;>
          cases hspace : isSpaceOrNewline isWhiteSpaceNeutral ch <;>
            simp [halphabet, hequals, ih, hspace]

/-- Decoding fails or gives what the alphabet characters denote, and reads no cell that was written
over. -/
def DecodesOrFails (text : List UInt32) (policy : Base64DecodePolicy) : Prop :=
  ∃ result bytes, base64Decode isWhiteSpaceNeutral text policy = some (result, bytes) ∧
    (result = true → bytes = bytesOf ((text.filter isAlphabet).map decode))

/-- So many sextets that `outLength + 3` wraps, in a text that is taken. -/
def Wraps (text : List UInt32) (policy : Base64DecodePolicy) : Prop :=
  text.length < 2 ^ 32 ∧ 2 ^ 32 - 2 ≤ (text.filter isAlphabet).length ∧
    Accepts isWhiteSpaceNeutral policy text

/-- Decoding fails or gives the bytes that the alphabet characters denote, unless the length wraps. -/
theorem decodesOrFails_iff (text : List UInt32) (policy : Base64DecodePolicy) :
    DecodesOrFails isWhiteSpaceNeutral text policy ↔ ¬Wraps isWhiteSpaceNeutral text policy := by
  rw [DecodesOrFails, base64Decode]
  by_cases hlong : 2 ^ 32 ≤ text.length
  · rw [if_pos hlong]
    exact iff_of_true ⟨_, _, rfl, nofun⟩ fun hwraps => absurd hwraps.1 (Nat.not_lt.mpr hlong)
  by_cases hempty : text.length = 0
  · rw [if_neg hlong, if_pos hempty]
    obtain rfl := eq_nil_of_length_eq_zero hempty
    exact iff_of_true ⟨_, _, rfl, fun _ => rfl⟩ fun hwraps => absurd hwraps.2.1 (by decide)
  rw [if_neg hlong, if_neg hempty]
  have haccepts : (scan isWhiteSpaceNeutral policy false text).isSome = true ↔
      Accepts isWhiteSpaceNeutral policy text := isSome_scan_iff isWhiteSpaceNeutral
  have hcount : (text.filter isAlphabet).length ≤ text.length := length_filter_le _ _
  cases hscan : scan isWhiteSpaceNeutral policy false text with
  | none =>
    rw [hscan] at haccepts
    exact iff_of_true ⟨_, _, rfl, nofun⟩ fun hwraps => absurd (haccepts.mpr hwraps.2.2) nofun
  | some r =>
    obtain ⟨saw, sextets⟩ := r
    rw [hscan] at haccepts
    have htaken := haccepts.mp rfl
    have hsextets := scan_eq isWhiteSpaceNeutral hscan
    have hlength : sextets.length = (text.filter isAlphabet).length := by rw [hsextets, length_map]
    rw [Wraps, ← hlength, and_iff_left htaken, and_iff_right (Nat.lt_of_not_le hlong), ← hsextets]
    dsimp only
    by_cases hnone : sextets.length = 0
    · rw [if_pos hnone, eq_nil_of_length_eq_zero hnone]
      exact iff_of_true ⟨_, _, rfl, fun _ => rfl⟩ (by decide)
    rw [if_neg hnone]
    by_cases hone : sextets.length % 4 = 1
    · rw [if_pos hone]
      exact iff_of_true ⟨_, _, rfl, nofun⟩ (by omega)
    rw [if_neg hone]
    by_cases hwraps : 2 ^ 32 - 2 ≤ sextets.length
    · have hconverted : convertedLength sextets.length = sextets.length :=
        convertedLength_wraps hwraps (by omega)
      rw [hconverted, if_neg hnone]
      refine iff_of_false ?_ (not_not_intro hwraps)
      rintro ⟨result, bytes, hdecoded, hbytes⟩
      obtain ⟨out, hout, heq⟩ := Option.map_eq_some_iff.mp hdecoded
      obtain ⟨rfl, rfl⟩ := Prod.mk.inj heq
      -- the output is longer than the bytes
      have hlong := length_convertBuffer hout
      rw [hbytes rfl, length_bytesOf, hconverted] at hlong
      omega
    · have hconverted : convertedLength sextets.length ≠ 0 := by
        rw [convertedLength_eq (by omega)]
        omega
      rw [if_neg hconverted, convertBuffer_eq (Nat.lt_of_not_le hwraps) hone]
      exact iff_of_true ⟨_, _, rfl, fun _ => rfl⟩ hwraps

end Decoding

/-! ## The round trip -/

/-- The sextets of the data. -/
def sextetsOf : List UInt8 → List UInt8
  | a :: b :: c :: data => sextet0 a :: sextet1 a b :: sextet2 b c :: sextet3 c :: sextetsOf data
  | [a, b] => [sextet0 a, sextet1 a b, sextet2 b 0]
  | [a] => [sextet0 a, sextet1 a 0]
  | [] => []

theorem encode_spec (h : sextet.toNat < 64) :
    isAlphabet (encode sextet).toUInt32 = true ∧ decode (encode sextet).toUInt32 = sextet ∧
      encode sextet ≠ 0x0A := by
  have hall : ∀ n < 64, isAlphabet (encode (UInt8.ofNat n)).toUInt32 = true ∧
      decode (encode (UInt8.ofNat n)).toUInt32 = UInt8.ofNat n ∧ encode (UInt8.ofNat n) ≠ 0x0A := by
    decide
  have hone := hall sextet.toNat h
  rwa [UInt8.ofNat_toNat] at hone

theorem toNat_lt_of_and {s : UInt8} (h : s &&& 63 = s) : s.toNat < 64 := by
  rw [← h]
  exact Nat.lt_succ_of_le Nat.and_le_right

theorem sextet_lt (a b : UInt8) : (sextet0 a).toNat < 64 ∧ (sextet1 a b).toNat < 64 ∧
    (sextet2 a b).toNat < 64 ∧ (sextet3 a).toNat < 64 := by
  refine ⟨toNat_lt_of_and ?_, toNat_lt_of_and ?_, toNat_lt_of_and ?_, toNat_lt_of_and ?_⟩ <;>
    refine UInt8.toBitVec_inj.mp (BitVec.eq_of_getLsbD_eq fun i hi => ?_) <;>
    interval_cases i <;> simp [sextet0, sextet1, sextet2, sextet3]

theorem byte0_sextets (a b : UInt8) : byte0 (sextet0 a) (sextet1 a b) = a := by
  refine UInt8.toBitVec_inj.mp (BitVec.eq_of_getLsbD_eq fun i hi => ?_)
  interval_cases i <;> simp [byte0, sextet0, sextet1]

theorem byte1_sextets (a b c : UInt8) : byte1 (sextet1 a b) (sextet2 b c) = b := by
  refine UInt8.toBitVec_inj.mp (BitVec.eq_of_getLsbD_eq fun i hi => ?_)
  interval_cases i <;> simp [byte1, sextet1, sextet2]

theorem byte2_sextets (b c : UInt8) : byte2 (sextet2 b c) (sextet3 c) = c := by
  refine UInt8.toBitVec_inj.mp (BitVec.eq_of_getLsbD_eq fun i hi => ?_)
  interval_cases i <;> simp [byte2, sextet2, sextet3]

theorem bytesOf_sextetsOf (data : List UInt8) : bytesOf (sextetsOf data) = data := by
  induction data using sextetsOf.induct with
  | case1 a b c data ih =>
    rw [sextetsOf, bytesOf, ih, byte0_sextets, byte1_sextets, byte2_sextets]
  | case2 a b => rw [sextetsOf, bytesOf, byte0_sextets, byte1_sextets]
  | case3 a => rw [sextetsOf, bytesOf, byte0_sextets]
  | case4 => rfl

theorem length_sextetsOf (data : List UInt8) :
    (sextetsOf data).length = (4 * data.length + 2) / 3 := by
  induction data using sextetsOf.induct with
  | case1 a b c data ih =>
    simp only [sextetsOf, length_cons]
    omega
  | case2 | case3 | case4 => simp [sextetsOf]

/-! ### Lines -/

/-- From a column on, the line feeds are those at the ends of lines. -/
def Breaks (insertLFs : Bool) (start : ℕ) (out : List UInt8) : Prop :=
  ∀ i, out[i]? = some 0x0A ↔ i < out.length ∧ insertLFs = true ∧ (i + start) % 77 = 76

variable {insertLFs : Bool} {out : List UInt8}

theorem Breaks.append
    (h : Breaks insertLFs start out) (h' : Breaks insertLFs (start + out.length) out') :
    Breaks insertLFs start (out ++ out') := by
  intro i
  rw [length_append]
  obtain hlt | hle := Nat.lt_or_ge i out.length
  · rw [List.getElem?_append_left hlt, h i]
    exact and_congr_left fun _ => ⟨fun _ => by omega, fun _ => hlt⟩
  · rw [List.getElem?_append_right hle, h' (i - out.length)]
    have hcolumn : i - out.length + (start + out.length) = i + start := by omega
    rw [hcolumn]
    exact and_congr_left fun _ => ⟨fun _ => by omega, fun _ => by omega⟩

/-- The column of a character that so many others come before. -/
def position (count : ℕ) : ℕ := count + (count - 1) / 76

theorem length_lineFeed (insertLFs : Bool) (count : ℕ) : (lineFeed insertLFs count).length =
    if insertLFs = true ∧ 0 < count ∧ count % 76 = 0 then 1 else 0 := by
  rw [lineFeed]
  split_ifs <;> simp_all

variable {count : ℕ}

/-- A group, with the line feed before it. -/
theorem breaks_group (hcount : count % 4 = 0) (hlength : group.length = 4) (hgroup : 0x0A ∉ group) :
    Breaks insertLFs (position count) (lineFeed insertLFs count ++ group) := by
  have hnot : ∀ i : ℕ, group[i]? ≠ some 0x0A := fun i hi => hgroup (mem_of_getElem? hi)
  intro i
  rw [length_append, position]
  by_cases hline : insertLFs = true ∧ 0 < count ∧ count % 76 = 0
  · obtain ⟨rfl, hpos, hmod⟩ := hline
    have hlf : lineFeed true count = [0x0A] := by simp [lineFeed, hpos, hmod]
    rw [hlf]
    cases i with
    | zero => exact iff_of_true rfl ⟨by simp, rfl, by omega⟩
    | succ i =>
      refine iff_of_false (hnot i) fun ⟨hi, _, hcolumn⟩ => ?_
      rw [length_singleton] at hi
      omega
  · have hlf : lineFeed insertLFs count = [] :=
      eq_nil_of_length_eq_zero (by rw [length_lineFeed, if_neg hline])
    rw [hlf]
    refine iff_of_false (hnot i) fun ⟨hi, hinsert, hcolumn⟩ => hline ⟨hinsert, ?_⟩
    rw [length_nil] at hi
    -- inside a line the column is at most 75
    by_contra hboth
    have hsum : i + (count + (count - 1) / 76) = 77 * (count / 76) + (i + count % 76) := by omega
    rw [hsum, Nat.mul_add_mod, Nat.mod_eq_of_lt (by omega)] at hcolumn
    omega

/-- What the loop has written for the data when so many characters have been counted. -/
structure Encoded (insertLFs : Bool) (count : ℕ) (data out : List UInt8) : Prop where
  characters : ∀ c ∈ out, isAlphabet c.toUInt32 = true ∨ c = 0x0A
  sextets : ((out.map toUInt32).filter isAlphabet).map decode = sextetsOf data
  breaks : Breaks insertLFs (position count)
    (out ++ List.replicate ((3 - data.length % 3) % 3) 0x3D)
  length_eq : out.length + (3 - data.length % 3) % 3 + (if insertLFs then position count else 0) =
    if insertLFs then position (count + 4 * ((data.length + 2) / 3)) else 4 * ((data.length + 2) / 3)

/-- A group is written before what is written for the other data. -/
theorem Encoded.group (hcount : count % 4 = 0)
    (sextets : List UInt8) (pad : ℕ) (hsextets : ∀ s ∈ sextets, s.toNat < 64)
    (hfour : sextets.length + pad = 4) (hdata : sextetsOf data = sextets ++ sextetsOf data')
    (hlength : (data.length + 2) / 3 = (data'.length + 2) / 3 + 1)
    (hpad : (3 - data.length % 3) % 3 = pad + (3 - data'.length % 3) % 3)
    (hlast : 0 < pad → out = [] ∧ data' = [])
    (h : Encoded insertLFs (if insertLFs then count + 4 else count) data' out) :
    Encoded insertLFs count data (lineFeed insertLFs count ++ sextets.map encode ++ out) := by
  have hfeed := length_lineFeed insertLFs count
  have hlf : ∀ c ∈ lineFeed insertLFs count, c = 0x0A := by
    rw [lineFeed]
    split_ifs <;> simp
  have hnone : ((lineFeed insertLFs count).map toUInt32).filter isAlphabet = [] := by
    refine filter_eq_nil_iff.mpr fun c hc => ?_
    obtain ⟨d, hd, rfl⟩ := mem_map.mp hc
    rw [hlf d hd]
    decide
  have hall : ((sextets.map encode).map toUInt32).filter isAlphabet =
      (sextets.map encode).map toUInt32 := by
    refine filter_eq_self.mpr fun c hc => ?_
    rw [map_map] at hc
    obtain ⟨s, hs, rfl⟩ := mem_map.mp hc
    exact (encode_spec (hsextets s hs)).1
  have hback : ((sextets.map encode).map toUInt32).map decode = sextets := by
    rw [map_map, map_map]
    exact (map_congr_left fun s hs => (encode_spec (hsextets s hs)).2.1).trans (map_id _)
  refine ⟨fun c hc => ?_, ?_, ?_, ?_⟩
  · rw [append_assoc, mem_append, mem_append] at hc
    obtain hc | hc | hc := hc
    · exact .inr (hlf c hc)
    · obtain ⟨s, hs, rfl⟩ := mem_map.mp hc
      exact .inl (encode_spec (hsextets s hs)).1
    · exact h.characters c hc
  · rw [map_append, map_append, filter_append, filter_append, hnone, hall,
      nil_append, map_append, hback, h.sextets, hdata]
  · have hshape : lineFeed insertLFs count ++ sextets.map encode ++ out ++
        List.replicate ((3 - data.length % 3) % 3) 0x3D =
        (lineFeed insertLFs count ++ (sextets.map encode ++ List.replicate pad 0x3D)) ++
          (out ++ List.replicate ((3 - data'.length % 3) % 3) 0x3D) := by
      rw [hpad]
      rcases Nat.eq_zero_or_pos pad with rfl | hpos
      · simp
      · simp [(hlast hpos).1]
    have hgroup : (0x0A : UInt8) ∉ sextets.map encode ++ List.replicate pad 0x3D := by
      rw [mem_append, not_or]
      refine ⟨fun hmem => ?_, fun hmem => absurd (eq_of_mem_replicate hmem) (by decide)⟩
      obtain ⟨s, hs, heq⟩ := mem_map.mp hmem
      exact (encode_spec (hsextets s hs)).2.2 heq
    rw [hshape]
    refine (breaks_group hcount (by simpa using hfour) hgroup).append ?_
    rw [length_append, length_append, length_map, length_replicate, hfour, hfeed]
    cases insertLFs with
    | false =>
      intro i
      rw [h.breaks i]
      simp
    | true =>
      have hnext : position count + ((if true = true ∧ 0 < count ∧ count % 76 = 0 then 1 else 0) + 4) =
          position (count + 4) := by
        rw [position, position]
        split_ifs with hline
        · omega
        · have hsmall : count = 0 ∨ count % 76 ≠ 0 := by
            by_contra hboth
            exact hline ⟨rfl, by omega, by omega⟩
          omega
      rw [hnext]
      exact h.breaks
  · have hrest := h.length_eq
    rw [length_append, length_append, length_map, hfeed, hlength]
    cases insertLFs with
    | false =>
      simp only [Bool.false_eq_true, if_false, false_and] at hrest ⊢
      omega
    | true =>
      simp only [if_true, true_and] at hrest ⊢
      have hsame : count + 4 + 4 * ((data'.length + 2) / 3) =
          count + 4 * ((data'.length + 2) / 3 + 1) := by omega
      rw [hsame] at hrest
      rw [← hrest, position, position]
      split_ifs with hline <;> omega

theorem encoded_nil (insertLFs : Bool) (count : ℕ) : Encoded insertLFs count [] [] where
  characters := nofun
  sextets := rfl
  breaks i := by simp
  length_eq := by cases insertLFs <;> simp

/-- The loop writes the groups, unless the count overflows. -/
theorem encodeGroups_spec (insertLFs : Bool) (hcount : count % 4 = 0)
    (hzero : insertLFs = false → count = 0) (data : List UInt8) :
    if insertLFs = true ∧ data.length / 3 ≠ 0 ∧ 2 ^ 31 ≤ count + 4 * (data.length / 3) then
      encodeGroups insertLFs count data = none
    else ∃ out, encodeGroups insertLFs count data = some out ∧ Encoded insertLFs count data out := by
  induction data using sextetsOf.induct generalizing count with
  | case1 a b c data ih =>
    rw [encodeGroups]
    have hthird : (a :: b :: c :: data).length / 3 = data.length / 3 + 1 := by
      simp only [length_cons]
      omega
    have hnext : (if insertLFs then count + 4 else count) % 4 = 0 := by
      split_ifs <;> omega
    have hnextZero : insertLFs = false → (if insertLFs then count + 4 else count) = 0 :=
      fun hfalse => by rw [hfalse]; exact hzero hfalse
    have hrest := ih hnext hnextZero
    rw [hthird]
    by_cases hover : 2 ^ 31 ≤ if insertLFs then count + 4 else count
    · cases insertLFs with
      | false =>
        rw [hzero rfl] at hover
        exact absurd hover (by decide)
      | true =>
        change 2 ^ 31 ≤ count + 4 at hover
        rw [if_pos ⟨rfl, by omega, by omega⟩]
        exact if_pos hover
    · rw [if_neg hover]
      by_cases hlater : insertLFs = true ∧ 2 ^ 31 ≤ count + 4 * (data.length / 3 + 1)
      · obtain ⟨rfl, hlater⟩ := hlater
        change ¬2 ^ 31 ≤ count + 4 at hover
        rw [if_pos ⟨rfl, by omega, hlater⟩]
        rw [if_pos ⟨rfl, by omega, by change 2 ^ 31 ≤ count + 4 + _; omega⟩] at hrest
        rw [hrest]
        rfl
      · rw [if_neg fun hc => hlater ⟨hc.1, hc.2.2⟩]
        rw [if_neg] at hrest
        · obtain ⟨out, hout, hencoded⟩ := hrest
          rw [hout]
          refine ⟨_, rfl, hencoded.group hcount
            [sextet0 a, sextet1 a b, sextet2 b c, sextet3 c] 0 ?_ rfl rfl ?_ ?_ nofun⟩
          · simp only [forall_mem_cons, not_mem_nil, false_imp_iff, implies_true, and_true]
            exact ⟨(sextet_lt a b).1, (sextet_lt a b).2.1, (sextet_lt b c).2.2.1,
              (sextet_lt c c).2.2.2⟩
          all_goals
            simp only [length_cons]
            omega
        · rintro ⟨rfl, -, hle⟩
          exact hlater ⟨rfl, by change 2 ^ 31 ≤ count + 4 + _ at hle; omega⟩
  | case2 a b =>
    rw [if_neg (by simp)]
    refine ⟨_, rfl, ?_⟩
    have hgroup : Encoded insertLFs count [a, b] _ := (encoded_nil insertLFs _).group
      hcount [sextet0 a, sextet1 a b, sextet2 b 0] 1 (by
        simp only [forall_mem_cons, not_mem_nil, false_imp_iff, implies_true, and_true]
        exact ⟨(sextet_lt a b).1, (sextet_lt a b).2.1, (sextet_lt b 0).2.2.1⟩) rfl rfl (by simp) (by simp)
      fun _ => ⟨rfl, rfl⟩
    rwa [append_nil] at hgroup
  | case3 a =>
    rw [if_neg (by simp)]
    refine ⟨_, rfl, ?_⟩
    have hgroup : Encoded insertLFs count [a] _ := (encoded_nil insertLFs _).group
      hcount [sextet0 a, sextet1 a 0] 2 (by
        simp only [forall_mem_cons, not_mem_nil, false_imp_iff, implies_true, and_true]
        exact ⟨(sextet_lt a 0).1, (sextet_lt a 0).2.1⟩) rfl rfl (by simp) (by simp) fun _ => ⟨rfl, rfl⟩
    rwa [append_nil] at hgroup
  | case4 =>
    rw [if_neg (by simp)]
    exact ⟨[], rfl, encoded_nil insertLFs count⟩

/-! ### Decoding what was encoded -/

/-- A text of alphabet characters and line feeds, then equals signs. -/
theorem scan_text (isWhiteSpaceNeutral : UInt16 → Bool) (n : ℕ)
    (h : ∀ c ∈ out, isAlphabet c.toUInt32 = true ∨ c = 0x0A ∧ policy = .ignoreWhitespace) :
    scan isWhiteSpaceNeutral policy false ((out ++ List.replicate n 0x3D).map toUInt32) =
      some (decide (0 < n), ((out.map toUInt32).filter isAlphabet).map decode) := by
  induction out with
  | nil =>
    have hsigns : ∀ k saw, scan isWhiteSpaceNeutral policy saw
        ((List.replicate k (0x3D : UInt8)).map toUInt32) = some (saw || decide (0 < k), []) := by
      intro k
      induction k with
      | zero => exact fun saw => congrArg some (Prod.ext (by simp) rfl)
      | succ k ih =>
        intro saw
        rw [replicate_succ, map_cons, scan, ih]
        simp
    exact hsigns n false
  | cons c out ih =>
    obtain ⟨hc, hout⟩ := forall_mem_cons.mp h
    rw [cons_append, map_cons, map_cons, scan]
    obtain halphabet | ⟨rfl, rfl⟩ := hc
    · have hsign : c.toUInt32 ≠ 0x3D := fun heq => by
        rw [heq] at halphabet
        cases halphabet
      rw [if_neg hsign, if_pos halphabet, ih hout, filter_cons_of_pos halphabet]
      rfl
    · rw [if_neg (by decide), if_neg (by decide), if_neg (by simp [isSpaceOrNewline]; decide), ih hout,
        filter_cons_of_neg (by decide)]

section Lengths

variable (isWhiteSpaceNeutral : UInt16 → Bool)

/-- The output is as long as computed before, has its line feeds at the ends of lines of 76
characters and its equals signs at the end, and is decoded to the data. -/
def RoundTrips (data : List UInt8) (insertLFs : Bool) : Prop :=
  ∃ out n, base64Encode data insertLFs = some (out ++ List.replicate n 0x3D) ∧ n ≤ 2 ∧ 0x3D ∉ out ∧
    (out ++ List.replicate n 0x3D).length = (outLength data.length insertLFs).1 ∧
    Breaks insertLFs 0 (out ++ List.replicate n 0x3D) ∧
    ∀ policy, (0x0A ∈ out → policy = .ignoreWhitespace) →
      base64Decode isWhiteSpaceNeutral ((out ++ List.replicate n 0x3D).map toUInt32) policy =
        some (true, data)

theorem outLength_eq (h : len ≤ maxInputBufferSize) (insertLFs : Bool) :
    outLength len insertLFs =
      (if insertLFs = true ∧ 76 < 4 * ((len + 2) / 3) then position (4 * ((len + 2) / 3))
        else 4 * ((len + 2) / 3), insertLFs && decide (76 < 4 * ((len + 2) / 3))) := by
  have hmax : len ≤ 3179391370 := h
  have hlength : (len + 2) % 2 ^ 32 / 3 * 4 % 2 ^ 32 = 4 * ((len + 2) / 3) := by omega
  rw [outLength, hlength, position]
  cases insertLFs with
  | false => simp
  | true =>
    by_cases hlong : 76 < 4 * ((len + 2) / 3)
    · simp only [hlong, decide_true, Bool.and_true, if_true, and_true]
      congr 1
      omega
    · simp [hlong]

/-- A text of at most one line is the same with and without line feeds. -/
theorem Breaks.of_short (h : Breaks false 0 out)
    (hshort : out.length ≤ 76) : Breaks insertLFs 0 out := fun i =>
  (h i).trans (iff_of_false (fun hi => by cases hi.2.1) fun hi => by omega)

/-- What was encoded is decoded again. -/
theorem base64Decode_encoded (hmaximum : data.length ≤ maxInputBufferSize)
    (hlt : (out ++ List.replicate n 0x3D).length < 2 ^ 32) (h : Encoded insertLFs 0 data out)
    (hpolicy : 0x0A ∈ out → policy = .ignoreWhitespace) (hdata : data ≠ []) :
    base64Decode isWhiteSpaceNeutral ((out ++ List.replicate n 0x3D).map toUInt32) policy =
      some (true, data) := by
  have hscan := scan_text isWhiteSpaceNeutral n fun c hc =>
    (h.characters c hc).imp id fun heq => ⟨heq, hpolicy (heq ▸ hc)⟩
  rw [h.sextets] at hscan
  have hpos : 0 < data.length := length_pos_of_ne_nil hdata
  have hlength := length_sextetsOf data
  have hout : out ≠ [] := by
    rintro rfl
    have hnone := congrArg List.length h.sextets
    simp at hnone
    omega
  have hlong : 0 < ((out ++ List.replicate n 0x3D).map toUInt32).length := by
    rw [length_map, length_append]
    have := length_pos_of_ne_nil hout
    omega
  have hmax : data.length ≤ 3179391370 := hmaximum
  have hconverted : convertedLength (sextetsOf data).length ≠ 0 := by
    rw [convertedLength_eq (by omega)]
    omega
  rw [base64Decode, if_neg (by rw [length_map]; omega), if_neg (by omega), hscan]
  dsimp only
  rw [if_neg (by omega), if_neg (by omega), if_neg hconverted,
    convertBuffer_eq (by omega) (by omega), bytesOf_sextetsOf]
  rfl

section

variable {data : List UInt8} (h : data.length ≤ maxInputBufferSize)
include h

/-- The count of the characters overflows. -/
theorem base64Encode_long (hlong : 3 * 2 ^ 29 ≤ data.length) : base64Encode data true = none := by
  have hrun := encodeGroups_spec (outLength data.length true).2 (Nat.zero_mod 4) (fun _ => rfl) data
  have hover : 2 ^ 31 ≤ 0 + 4 * (data.length / 3) := by omega
  rw [outLength_eq h] at hrun
  rw [if_pos ⟨by simp; omega, by omega, hover⟩] at hrun
  rw [base64Encode, if_neg (by omega), outLength_eq h]
  dsimp only
  rw [hrun]
  rfl

/-- When encoding and decoding do what they should. -/
theorem decode_encode_iff (insertLFs : Bool) (text : List UInt32) (policy : Base64DecodePolicy) :
    RoundTrips isWhiteSpaceNeutral data insertLFs ∧ DecodesOrFails isWhiteSpaceNeutral text policy ↔
      ¬(insertLFs = true ∧ 3 * 2 ^ 29 ≤ data.length) ∧ ¬Wraps isWhiteSpaceNeutral text policy := by
  refine and_congr ?_ (decodesOrFails_iff isWhiteSpaceNeutral text policy)
  constructor
  · rintro ⟨out, n, hencode, -⟩ ⟨rfl, hlong⟩
    rw [base64Encode_long h hlong] at hencode
    cases hencode
  · intro hshort
    have hrun := encodeGroups_spec (outLength data.length insertLFs).2 (Nat.zero_mod 4)
      (fun _ => rfl) data
    rw [outLength_eq h] at hrun
    by_cases hempty : data = []
    · subst hempty
      refine ⟨[], 0, rfl, Nat.zero_le _, not_mem_nil, ?_, fun i => by simp, fun _ _ => rfl⟩
      cases insertLFs <;> rfl
    rw [if_neg] at hrun
    · obtain ⟨out, hout, hencoded⟩ := hrun
      have hpos : 0 < data.length := length_pos_of_ne_nil hempty
      have hlength := hencoded.length_eq
      have htotal : out.length + (3 - data.length % 3) % 3 = (outLength data.length insertLFs).1 := by
        rw [outLength_eq h]
        by_cases hboth : insertLFs = true ∧ 76 < 4 * ((data.length + 2) / 3)
        · rw [if_pos (by simpa using hboth), if_pos (by simpa using hboth)] at hlength
          rw [if_pos hboth]
          simpa [position] using hlength
        · rw [if_neg (by simpa using hboth), if_neg (by simpa using hboth)] at hlength
          rw [if_neg hboth]
          exact hlength
      have hlt : (out ++ List.replicate ((3 - data.length % 3) % 3) 0x3D).length < 2 ^ 32 := by
        have hmax : data.length ≤ 3179391370 := h
        rw [length_append, length_replicate, htotal, outLength_eq h, position]
        dsimp only
        split_ifs <;> omega
      refine ⟨out, (3 - data.length % 3) % 3, ?_, by omega, fun hmem => ?_, ?_, ?_,
        fun policy hpolicy =>
          base64Decode_encoded isWhiteSpaceNeutral h hlt hencoded hpolicy hempty⟩
      · rw [base64Encode, if_neg (by omega)]
        have hflag : (outLength data.length insertLFs).2 =
            (insertLFs && decide (76 < 4 * ((data.length + 2) / 3))) := by rw [outLength_eq h]
        dsimp only at htotal hflag ⊢
        rw [hflag, hout, Option.bind_some, if_neg (by omega), ← htotal, Nat.add_sub_cancel_left]
      · obtain halphabet | hfeed := hencoded.characters _ hmem
        · cases halphabet
        · cases hfeed
      · rw [length_append, length_replicate, htotal]
      · have hbreaks := hencoded.breaks
        by_cases hlong : 76 < 4 * ((data.length + 2) / 3)
        · rwa [decide_eq_true hlong, Bool.and_true] at hbreaks
        · rw [decide_eq_false hlong, Bool.and_false] at hbreaks
          refine Breaks.of_short hbreaks ?_
          rw [length_append, length_replicate, htotal, outLength_eq h,
            if_neg fun hboth => hlong hboth.2]
          omega
    · rintro ⟨hinsert, -, hover⟩
      exact hshort ⟨(Bool.and_eq_true _ _ ▸ hinsert).1, by omega⟩

end

theorem decode_encode_iff_three :
    RoundTrips (fun _ => false) [0, 1, 2] true ∧
        DecodesOrFails (fun _ => false) [0x51, 0x20, 0x51, 0x3D] .ignoreWhitespace ↔
      ¬(true = true ∧ 3 * 2 ^ 29 ≤ [(0 : UInt8), 1, 2].length) ∧
        ¬Wraps (fun _ => false) [0x51, 0x20, 0x51, 0x3D] .ignoreWhitespace :=
  decode_encode_iff (fun _ => false) (by decide) true [0x51, 0x20, 0x51, 0x3D] .ignoreWhitespace

end Lengths

/-- So many bytes with line feeds. -/
theorem not_roundTrips_long :
    ¬RoundTrips (fun _ => false) (List.replicate (3 * 2 ^ 29) 0) true := by
  rintro ⟨out, n, hencode, -⟩
  rw [base64Encode_long (by rw [length_replicate]; decide)
    (by rw [length_replicate])] at hencode
  cases hencode

end Base64
end Text
end WebKit
