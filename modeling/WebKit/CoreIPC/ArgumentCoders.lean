import WebKit.CoreIPC.Connection

/-!
# Arguments of a message

The encoder appends each value to its buffer at the next offset that the value's alignment divides;
the decoder copies the buffer to an aligned address and reads each value at the next address that the
alignment divides.  The coders of strings, vectors and maps put a count before what they consist of.

Sizes are those of a 64-bit platform.  The bytes that the encoder skips hold whatever the allocated
memory held; memory does not run out.
-/

namespace WebKit

open List
namespace CoreIPC

open LittleEndian

/-! ## Values -/

/-- The types of `IsArithmetic` among the arguments. -/
inductive ArithmeticType where
  | bool | int32 | uint32 | int64 | uint64 | float | double
  deriving DecidableEq

namespace ArithmeticType

/-- Numbers are their bit patterns. -/
def Value : ArithmeticType → Type
  | bool => Bool
  | int32 | uint32 | float => BitVec 32
  | int64 | uint64 | double => BitVec 64

instance : (a : ArithmeticType) → DecidableEq a.Value
  | bool => inferInstanceAs (DecidableEq Bool)
  | int32 | uint32 | float => inferInstanceAs (DecidableEq (BitVec 32))
  | int64 | uint64 | double => inferInstanceAs (DecidableEq (BitVec 64))

/-- `sizeof`, and the alignment as well. -/
def size : ArithmeticType → ℕ
  | bool => 1
  | int32 | uint32 | float => 4
  | int64 | uint64 | double => 8

def toBytes : (a : ArithmeticType) → a.Value → Bytes
  | bool, (b : Bool) => bytes 1 b.toNat
  | int32, (n : BitVec 32) | uint32, (n : BitVec 32) | float, (n : BitVec 32) => bytes 4 n.toNat
  | int64, (n : BitVec 64) | uint64, (n : BitVec 64) | double, (n : BitVec 64) => bytes 8 n.toNat

def ofBytes : (a : ArithmeticType) → Bytes → a.Value
  | bool, b => decide (value b ≠ 0)
  | int32, b | uint32, b | float, b => BitVec.ofNat 32 (value b)
  | int64, b | uint64, b | double, b => BitVec.ofNat 64 (value b)

end ArithmeticType

abbrev UChar := BitVec 16

def sizeOfUChar : ℕ := 2

/-- A string that is not null; its length is an `unsigned`. -/
structure StringImpl where
  characters : List UChar
  length_lt : characters.length < 2 ^ 32
  deriving DecidableEq

/-- A map in the order in which it is iterated. -/
structure HashMap (α β : Type) where
  entries : List (α × β)
  nodup : (entries.map Prod.fst).Nodup
  deriving DecidableEq

namespace HashMap

variable {α β : Type} [DecidableEq α]

def empty : HashMap α β where
  entries := []
  nodup := nodup_nil

/-- `add(key, value)`; `none` says that the key is already there. -/
def add (m : HashMap α β) (key : α) (value : β) : Option (HashMap α β) :=
  if h : key ∈ m.entries.map Prod.fst then none
  else some
    { entries := m.entries ++ [(key, value)]
      nodup := by
        rw [map_append, map_singleton]
        refine nodup_append.mpr ⟨m.nodup, nodup_singleton _, fun a ha b hb hab => h ?_⟩
        rwa [hab, mem_singleton.mp hb] at ha }

end HashMap

inductive ArgumentType where
  | arithmetic (a : ArithmeticType)
  | string
  | cString
  | dataReference
  | pair (t u : ArgumentType)
  | hashMap (key mapped : ArgumentType)
  | vector (t : ArgumentType)
  deriving DecidableEq

namespace ArgumentType

/-- `none` is a null string. -/
def Value : ArgumentType → Type
  | arithmetic a => a.Value
  | string => Option StringImpl
  | cString => Option Bytes
  | dataReference => Bytes
  | pair t u => t.Value × u.Value
  | hashMap key mapped => HashMap key.Value mapped.Value
  | vector t => List t.Value

instance decidableEqValue : (t : ArgumentType) → DecidableEq t.Value
  | arithmetic a => inferInstanceAs (DecidableEq a.Value)
  | string => inferInstanceAs (DecidableEq (Option StringImpl))
  | cString => inferInstanceAs (DecidableEq (Option Bytes))
  | dataReference => inferInstanceAs (DecidableEq Bytes)
  | pair t u =>
    have := decidableEqValue t
    have := decidableEqValue u
    inferInstanceAs (DecidableEq (t.Value × u.Value))
  | hashMap key mapped =>
    have := decidableEqValue key
    have := decidableEqValue mapped
    inferInstanceAs (DecidableEq (HashMap key.Value mapped.Value))
  | vector t =>
    have := decidableEqValue t
    inferInstanceAs (DecidableEq (List t.Value))

end ArgumentType

/-! ## The encoder -/

/-- `buffer` is the first `m_bufferSize` bytes; `uninitialized` is what the memory holds at an offset
before anything is written there. -/
structure ArgumentEncoder where
  buffer : Bytes
  uninitialized : ℕ → UInt8

namespace ArgumentEncoder

def roundUpToAlignment (value alignment : ℕ) : ℕ := (value + alignment - 1) / alignment * alignment

variable (e : ArgumentEncoder)

/-- `data` is what the caller writes where the pointer that `grow` returns points to. -/
def grow (alignment : ℕ) (data : Bytes) : ArgumentEncoder :=
  let alignedSize := roundUpToAlignment e.buffer.length alignment
  { e with
    buffer := e.buffer ++ (List.range' e.buffer.length (alignedSize - e.buffer.length)).map
      e.uninitialized ++ data }

def encodeFixedLengthData (data : Bytes) (alignment : ℕ) : ArgumentEncoder := e.grow alignment data

/-- A value whose alignment is its size. -/
def encodeArithmetic (a : ArithmeticType) (n : a.Value) : ArgumentEncoder :=
  e.grow a.size (a.toBytes n)

def encodeBool (n : Bool) : ArgumentEncoder := e.encodeArithmetic .bool n
def encodeUInt32 (n : BitVec 32) : ArgumentEncoder := e.encodeArithmetic .uint32 n
def encodeUInt64 (n : BitVec 64) : ArgumentEncoder := e.encodeArithmetic .uint64 n
def encodeInt32 (n : BitVec 32) : ArgumentEncoder := e.encodeArithmetic .int32 n
def encodeInt64 (n : BitVec 64) : ArgumentEncoder := e.encodeArithmetic .int64 n
def encodeFloat (n : BitVec 32) : ArgumentEncoder := e.encodeArithmetic .float n
def encodeDouble (n : BitVec 64) : ArgumentEncoder := e.encodeArithmetic .double n

def encodeVariableLengthByteArray (data : Bytes) : ArgumentEncoder :=
  (e.encodeUInt64 (BitVec.ofNat 64 data.length)).encodeFixedLengthData data 1

/-- The buffer starts with the destination ID. -/
def create (uninitialized : ℕ → UInt8) (destinationID : BitVec 64) : ArgumentEncoder :=
  encodeUInt64 { buffer := [], uninitialized } destinationID

end ArgumentEncoder

/-! ## The decoder -/

/-- Memory that was allocated; a program's addresses are in the lower half of the address space. -/
structure Block (size : ℕ) where
  base : ℕ
  inBounds : base + size ≤ 2 ^ 63

/-- `data` is what the memory holds from the address `buffer` up to `bufferEnd`; the destination ID
is `none` when it was never written. -/
structure ArgumentDecoder where
  destinationID : Option (BitVec 64)
  data : Bytes
  buffer : ℕ
  bufferPos : ℕ
  deriving DecidableEq

/-- How a call of a decode function ends. -/
inductive DecodeResult (α : Type) where
  /-- It returns true. -/
  | decoded (value : α) (d : ArgumentDecoder)
  /-- It returns false. -/
  | failed (d : ArgumentDecoder)
  /-- It calls `CRASH`. -/
  | crashed

namespace DecodeResult

variable {α β : Type}

/-- What follows `if (!decode(..)) return false`. -/
def bind : DecodeResult α → (α → ArgumentDecoder → DecodeResult β) → DecodeResult β
  | decoded value d, f => f value d
  | failed d, _ => failed d
  | crashed, _ => crashed

end DecodeResult

namespace ArgumentDecoder

/-- The alignment is a power of two; addresses have the type `uintptr_t`. -/
def roundUpToAlignment (ptr alignment : ℕ) : ℕ :=
  let alignmentMask := BitVec.ofNat 64 (alignment - 1)
  ((BitVec.ofNat 64 ptr + alignmentMask) &&& ~~~alignmentMask).toNat

variable (d : ArgumentDecoder)

def bufferEnd : ℕ := d.buffer + d.data.length

def isInvalid : Bool := d.bufferPos > d.bufferEnd

def markInvalid : ArgumentDecoder := { d with bufferPos := d.bufferEnd + 1 }

def alignedBufferIsLargeEnoughToContain (alignedPosition bufferEnd size : ℕ) : Bool :=
  bufferEnd ≥ alignedPosition && bufferEnd - alignedPosition ≥ size

def alignBufferPosition (alignment size : ℕ) : DecodeResult Unit :=
  let alignedPosition := roundUpToAlignment d.bufferPos alignment
  if alignedBufferIsLargeEnoughToContain alignedPosition d.bufferEnd size then
    .decoded () { d with bufferPos := alignedPosition }
  else .failed d.markInvalid

/-- `bufferIsLargeEnoughToContain<T>`, where `size` is the size of `T` and its alignment. -/
def bufferIsLargeEnoughToContain (size numElements : ℕ) : Bool :=
  if numElements > (sizeLimit - 1) / size then false
  else alignedBufferIsLargeEnoughToContain (roundUpToAlignment d.bufferPos size) d.bufferEnd
    (numElements * size)

/-- The bytes from the position on. -/
def rest : Bytes := d.data.drop (d.bufferPos - d.buffer)

def decodeFixedLengthData (size alignment : ℕ) : DecodeResult Bytes :=
  (d.alignBufferPosition alignment size).bind fun _ d =>
    .decoded (d.rest.take size) { d with bufferPos := d.bufferPos + size }

/-- A value whose alignment is its size. -/
def decodeArithmetic (a : ArithmeticType) : DecodeResult a.Value :=
  (d.alignBufferPosition a.size a.size).bind fun _ d =>
    .decoded (a.ofBytes (d.rest.take a.size)) { d with bufferPos := d.bufferPos + a.size }

def decodeBool : DecodeResult Bool := d.decodeArithmetic .bool
def decodeUInt32 : DecodeResult (BitVec 32) := d.decodeArithmetic .uint32
def decodeUInt64 : DecodeResult (BitVec 64) := d.decodeArithmetic .uint64
def decodeInt32 : DecodeResult (BitVec 32) := d.decodeArithmetic .int32
def decodeInt64 : DecodeResult (BitVec 64) := d.decodeArithmetic .int64
def decodeFloat : DecodeResult (BitVec 32) := d.decodeArithmetic .float
def decodeDouble : DecodeResult (BitVec 64) := d.decodeArithmetic .double

def decodeVariableLengthByteArray : DecodeResult Bytes :=
  d.decodeUInt64.bind fun size d =>
    (d.alignBufferPosition 1 size.toNat).bind fun _ d =>
      .decoded (d.rest.take size.toNat) { d with bufferPos := d.bufferPos + size.toNat }

def expectedAlignment : ℕ := 8

/-- `initialize`, which the constructors call. -/
def create (buffer : Bytes) (block : Block (buffer.length + expectedAlignment)) : ArgumentDecoder :=
  let start := roundUpToAlignment block.base expectedAlignment
  let d := { destinationID := none, data := buffer, buffer := start, bufferPos := start }
  match decodeUInt64 d with
  | .decoded n d => { d with destinationID := some n }
  | .failed d => d
  | .crashed => d

end ArgumentDecoder

/-! ## The coders -/

namespace ArgumentCoder

def maxUInt32 : BitVec 32 := BitVec.allOnes 32

def encodeCString : Option Bytes → ArgumentEncoder → ArgumentEncoder
  | none, e => e.encodeUInt32 maxUInt32
  | some string, e =>
    let length := BitVec.ofNat 32 string.length
    -- `length` is truncated, so the data is cut short as well
    (e.encodeUInt32 length).encodeFixedLengthData (string.take length.toNat) 1

def decodeCString (d : ArgumentDecoder) : DecodeResult (Option Bytes) :=
  d.decodeUInt32.bind fun length d =>
    if length = maxUInt32 then .decoded none d
    else if !d.bufferIsLargeEnoughToContain 1 length.toNat then .failed d.markInvalid
    else (d.decodeFixedLengthData length.toNat 1).bind fun string d => .decoded (some string) d

/-- An array of characters as its bytes, and back. -/
def characterBytes (characters : List UChar) : Bytes := characters.flatMap fun c => bytes 2 c.toNat

def bytesCharacters : ℕ → Bytes → List UChar
  | 0, _ => []
  | n + 1, b => BitVec.ofNat 16 (value (b.take sizeOfUChar)) :: bytesCharacters n (b.drop sizeOfUChar)

theorem length_bytesCharacters (n : ℕ) (b : Bytes) : (bytesCharacters n b).length = n := by
  induction n generalizing b with
  | zero => rfl
  | succ n ih => rw [bytesCharacters, length_cons, ih]

def sizeOfStringImpl : ℕ := 32

/-- The longest string that `StringImpl::createUninitialized` creates. -/
def maxStringLength : ℕ := (2 ^ 32 - 1 - sizeOfStringImpl) / sizeOfUChar

def encodeString : Option StringImpl → ArgumentEncoder → ArgumentEncoder
  | none, e => e.encodeUInt32 maxUInt32
  | some string, e =>
    (e.encodeUInt32 (BitVec.ofNat 32 string.characters.length)).encodeFixedLengthData
      (characterBytes string.characters) sizeOfUChar

def decodeString (d : ArgumentDecoder) : DecodeResult (Option StringImpl) :=
  d.decodeUInt32.bind fun length d =>
    if length = maxUInt32 then .decoded none d
    else if !d.bufferIsLargeEnoughToContain sizeOfUChar length.toNat then .failed d.markInvalid
    else if length.toNat > maxStringLength then .crashed
    else (d.decodeFixedLengthData (length.toNat * sizeOfUChar) sizeOfUChar).bind fun b d =>
      .decoded (some
        { characters := bytesCharacters length.toNat b
          length_lt := by rw [length_bytesCharacters]; exact length.isLt }) d

/-- `VectorArgumentCoder<true, T>`. -/
def encodeFixedSizeElements (a : ArithmeticType) (vector : List a.Value) (e : ArgumentEncoder) :
    ArgumentEncoder :=
  (e.encodeUInt64 (BitVec.ofNat 64 vector.length)).encodeFixedLengthData (vector.flatMap a.toBytes)
    a.size

/-- The elements that `n` of them in memory are. -/
def readElements (a : ArithmeticType) : ℕ → Bytes → List a.Value
  | 0, _ => []
  | n + 1, b => a.ofBytes (b.take a.size) :: readElements a n (b.drop a.size)

/-- What `decodeFixedLengthData` returns is not looked at; were it false, the elements would be left
as `resize` leaves them, taken to be zero here. -/
def decodeFixedSizeElements (a : ArithmeticType) (d : ArgumentDecoder) :
    DecodeResult (List a.Value) :=
  d.decodeUInt64.bind fun size d =>
    if !d.bufferIsLargeEnoughToContain a.size size.toNat then .failed d.markInvalid
    else match d.decodeFixedLengthData (size.toNat * a.size) a.size with
      | .decoded b d => .decoded (readElements a size.toNat b) d
      | .failed d => .decoded (readElements a size.toNat []) d
      | .crashed => .crashed

section Loops

variable {α β : Type}

/-- The loop of `VectorArgumentCoder<false, T>::decode`, with the elements so far. -/
def decodeElements (decode : ArgumentDecoder → DecodeResult α) :
    ℕ → List α → ArgumentDecoder → DecodeResult (List α)
  | 0, tmp, d => .decoded tmp d
  | n + 1, tmp, d => (decode d).bind fun element d => decodeElements decode n (tmp ++ [element]) d

/-- The loop of the coder of maps, with the map so far. -/
def decodeEntries [DecidableEq α] (decodeKey : ArgumentDecoder → DecodeResult α)
    (decodeMapped : ArgumentDecoder → DecodeResult β) :
    ℕ → HashMap α β → ArgumentDecoder → DecodeResult (HashMap α β)
  | 0, tempHashMap, d => .decoded tempHashMap d
  | n + 1, tempHashMap, d =>
    (decodeKey d).bind fun key d => (decodeMapped d).bind fun value d =>
      match tempHashMap.add key value with
      | none => .failed d.markInvalid
      | some tempHashMap => decodeEntries decodeKey decodeMapped n tempHashMap d

end Loops

/-- `VectorArgumentCoder<IsArithmetic<T>::value, T>::encode`. -/
def encodeVector : (t : ArgumentType) → (t.Value → ArgumentEncoder → ArgumentEncoder) →
    List t.Value → ArgumentEncoder → ArgumentEncoder
  | .arithmetic a, _, vector, e => encodeFixedSizeElements a vector e
  | _, encode, vector, e => vector.foldl (fun e element => encode element e)
      (e.encodeUInt64 (BitVec.ofNat 64 vector.length))

def decodeVector : (t : ArgumentType) → (ArgumentDecoder → DecodeResult t.Value) →
    ArgumentDecoder → DecodeResult (List t.Value)
  | .arithmetic a, _, d => decodeFixedSizeElements a d
  | _, decode, d => d.decodeUInt64.bind fun size d => decodeElements decode size.toNat [] d

def encode : (t : ArgumentType) → t.Value → ArgumentEncoder → ArgumentEncoder
  | .arithmetic a, n, e => e.encodeArithmetic a n
  | .string, string, e => encodeString string e
  | .cString, string, e => encodeCString string e
  | .dataReference, data, e => e.encodeVariableLengthByteArray data
  | .pair t u, (p : t.Value × u.Value), e => encode u p.2 (encode t p.1 e)
  | .hashMap key mapped, (m : HashMap key.Value mapped.Value), e =>
    m.entries.foldl (fun e entry => encode mapped entry.2 (encode key entry.1 e))
      (e.encodeUInt64 (BitVec.ofNat 64 m.entries.length))
  | .vector t, (l : List t.Value), e => encodeVector t (encode t) l e

def decode : (t : ArgumentType) → ArgumentDecoder → DecodeResult t.Value
  | .arithmetic a, d => d.decodeArithmetic a
  | .string, d => decodeString d
  | .cString, d => decodeCString d
  | .dataReference, d => d.decodeVariableLengthByteArray
  | .pair t u, d => (decode t d).bind fun first d => (decode u d).bind fun second d =>
      .decoded ((first, second) : t.Value × u.Value) d
  | .hashMap key mapped, d => d.decodeUInt64.bind fun hashMapSize d =>
      (decodeEntries (decode key) (decode mapped) hashMapSize.toNat HashMap.empty d :
        DecodeResult (HashMap key.Value mapped.Value))
  | .vector t, d => (decodeVector t (decode t) d : DecodeResult (List t.Value))

end ArgumentCoder

/-! ## Sequences of arguments -/

structure Argument where
  type : ArgumentType
  value : type.Value

def encodeArguments (arguments : List Argument) (e : ArgumentEncoder) : ArgumentEncoder :=
  arguments.foldl (fun e argument => ArgumentCoder.encode argument.type argument.value e) e

def decodeArguments : List ArgumentType → ArgumentDecoder → DecodeResult (List Argument)
  | [], d => .decoded [] d
  | type :: types, d => (ArgumentCoder.decode type d).bind fun value d =>
      (decodeArguments types d).bind fun arguments d => .decoded (⟨type, value⟩ :: arguments) d

end CoreIPC
end WebKit
