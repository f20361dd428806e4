import WebKit.IndexedDB.IDBKeyOrder

/-!
# The key classes

Every key of the backing store starts with a prefix, the triple (database id, object store id,
index id) with the lengths of its three integers packed into the first byte.  Meta-data keys go on
with a type byte and the fields of their class; data keys go on with an encoded user key.  This
file has the prefix, the key classes with their `encode`, `decode` and `compare` functions, and
the comparator `compare` that dispatches over them.

A class is the structure of its fields, an id is the `int64_t` the decoder read.
-/

namespace WebKit

open List Option
namespace IndexedDB

def kMinimumIndexId : ℕ := 30

def kObjectStoreDataIndexId : ℕ := 1
def kExistsEntryIndexId : ℕ := 2

def kSchemaVersionTypeByte : UInt8 := 0
def kMaxDatabaseIdTypeByte : UInt8 := 1
def kDatabaseFreeListTypeByte : UInt8 := 100
def kDatabaseNameTypeByte : UInt8 := 201

def kObjectStoreMetaDataTypeByte : UInt8 := 50
def kIndexMetaDataTypeByte : UInt8 := 100
def kObjectStoreFreeListTypeByte : UInt8 := 150
def kIndexFreeListTypeByte : UInt8 := 151
def kObjectStoreNamesTypeByte : UInt8 := 200
def kIndexNamesKeyTypeByte : UInt8 := 201

/-! ## The prefix -/

@[ext] structure KeyPrefix where
  m_databaseId : ℤ
  m_objectStoreId : ℤ
  m_indexId : ℤ
  deriving DecidableEq

namespace KeyPrefix

/-- `KeyPrefix::Type`. -/
inductive Kind where
  | kGlobalMetaData
  | kDatabaseMetaData
  | kObjectStoreData
  | kExistsEntry
  | kIndexData
  | kInvalidType
  deriving DecidableEq

def decode : Bytes → Option (KeyPrefix × Bytes)
  | [] => none
  | firstByte :: start =>
    let databaseIdBytes := ((firstByte >>> 5) &&& 0x7).toNat + 1
    let objectStoreIdBytes := ((firstByte >>> 2) &&& 0x7).toNat + 1
    let indexIdBytes := (firstByte &&& 0x3).toNat + 1
    if start.length < databaseIdBytes + objectStoreIdBytes + indexIdBytes then none
    else
      let start' := start.drop databaseIdBytes
      let start'' := start'.drop objectStoreIdBytes
      some (⟨decodeInt (start.take databaseIdBytes), decodeInt (start'.take objectStoreIdBytes),
        decodeInt (start''.take indexIdBytes)⟩, start''.drop indexIdBytes)

/-- The ids are asserted to be non-negative. -/
def encode (p : KeyPrefix) : Bytes :=
  let databaseIdString := encodeInt p.m_databaseId.toNat
  let objectStoreIdString := encodeInt p.m_objectStoreId.toNat
  let indexIdString := encodeInt p.m_indexId.toNat
  let firstByte := UInt8.ofNat ((databaseIdString.length - 1) <<< 5 |||
    (objectStoreIdString.length - 1) <<< 2 ||| (indexIdString.length - 1))
  firstByte :: (databaseIdString ++ objectStoreIdString ++ indexIdString)

def compare (p other : KeyPrefix) : ℤ :=
  if p.m_databaseId ≠ other.m_databaseId then compareInts p.m_databaseId other.m_databaseId
  else if p.m_objectStoreId ≠ other.m_objectStoreId then
    compareInts p.m_objectStoreId other.m_objectStoreId
  else if p.m_indexId ≠ other.m_indexId then compareInts p.m_indexId other.m_indexId
  else 0

def type (p : KeyPrefix) : Kind :=
  if p.m_databaseId = 0 then .kGlobalMetaData
  else if p.m_objectStoreId = 0 then .kDatabaseMetaData
  else if p.m_indexId = kObjectStoreDataIndexId then .kObjectStoreData
  else if p.m_indexId = kExistsEntryIndexId then .kExistsEntry
  else if p.m_indexId ≥ kMinimumIndexId then .kIndexData
  else .kInvalidType

/-- The three lengths are packed side by side. -/
theorem firstByte_fields : ∀ (a b : Fin 8) (c : Fin 4),
    let firstByte := UInt8.ofNat ((a : ℕ) <<< 5 ||| (b : ℕ) <<< 2 ||| (c : ℕ))
    ((firstByte >>> 5) &&& 0x7).toNat = a ∧ ((firstByte >>> 2) &&& 0x7).toNat = b ∧
      (firstByte &&& 0x3).toNat = c := by
  decide +kernel

/-- The decoder reads back the prefix and stops behind it. -/
theorem decode_encode {databaseId objectStoreId indexId : ℕ} (hd : databaseId < 2 ^ 63)
    (ho : objectStoreId < 2 ^ 63) (hi : indexId < 2 ^ 32) (r : Bytes) :
    decode (encode ⟨databaseId, objectStoreId, indexId⟩ ++ r) =
      some (⟨databaseId, objectStoreId, indexId⟩, r) := by
  have hdp := length_encodeInt_pos databaseId
  have hop := length_encodeInt_pos objectStoreId
  have hip := length_encodeInt_pos indexId
  have hdl := length_encodeInt_le (k := 7) (n := databaseId) (by omega)
  have hol := length_encodeInt_le (k := 7) (n := objectStoreId) (by omega)
  have hil := length_encodeInt_le (k := 3) (n := indexId) (by omega)
  obtain ⟨h1, h2, h3⟩ := firstByte_fields ⟨(encodeInt databaseId).length - 1, by omega⟩
    ⟨(encodeInt objectStoreId).length - 1, by omega⟩ ⟨(encodeInt indexId).length - 1, by omega⟩
  have hd' : (encodeInt databaseId).length - 1 + 1 = (encodeInt databaseId).length := by omega
  have ho' : (encodeInt objectStoreId).length - 1 + 1 = (encodeInt objectStoreId).length := by
    omega
  have hi' : (encodeInt indexId).length - 1 + 1 = (encodeInt indexId).length := by omega
  simp only [encode, Int.toNat_natCast, cons_append, append_assoc, decode]
  simp only [h1, h2, h3, hd', ho', hi', take_left, drop_left, length_append]
  rw [if_neg (by omega), decodeInt_encodeInt hd, decodeInt_encodeInt ho,
    decodeInt_encodeInt (by omega)]

end KeyPrefix

/-! ## Meta-data keys -/

/-- The prefix and the type byte every meta-data key starts with. -/
def decodeMetaData (start : Bytes) : Option Bytes :=
  match KeyPrefix.decode start with
  | none => none
  | some (_, []) => none
  | some (_, _ :: p) => some p

/-- The prefix and the type byte of a meta-data key. -/
def encodeMetaData (databaseId : ℕ) (typeByte : UInt8) : Bytes :=
  KeyPrefix.encode ⟨databaseId, 0, 0⟩ ++ encodeByte typeByte

variable {databaseId objectStoreId : ℕ}

theorem decodeMetaData_encodeMetaData (h : databaseId < 2 ^ 63) (typeByte : UInt8) (r : Bytes) :
    decodeMetaData (encodeMetaData databaseId typeByte ++ r) = some r := by
  have hp := KeyPrefix.decode_encode h (show 0 < 2 ^ 63 by omega) (show 0 < 2 ^ 32 by omega)
    (typeByte :: r)
  simp only [Nat.cast_zero] at hp
  rw [decodeMetaData, encodeMetaData, encodeByte, append_assoc, singleton_append, hp]

def SchemaVersionKey.encode : Bytes := encodeMetaData 0 kSchemaVersionTypeByte

def MaxDatabaseIdKey.encode : Bytes := encodeMetaData 0 kMaxDatabaseIdTypeByte

structure DatabaseFreeListKey where
  m_databaseId : ℤ

namespace DatabaseFreeListKey

def decode (start : Bytes) : Option (DatabaseFreeListKey × Bytes) :=
  (decodeMetaData start).bind fun p => (decodeVarInt p).map fun r => (⟨r.1⟩, r.2)

def encode (databaseId : ℕ) : Bytes :=
  encodeMetaData 0 kDatabaseFreeListTypeByte ++ encodeVarInt databaseId

def compare (a other : DatabaseFreeListKey) : ℤ := compareInts a.m_databaseId other.m_databaseId

theorem decode_encode (h : databaseId < 2 ^ 63) :
    decode (encode databaseId) = some (⟨databaseId⟩, []) := by
  rw [decode, encode, decodeMetaData_encodeMetaData (by omega), bind_some,
    ← append_nil (encodeVarInt databaseId), decodeVarInt_encodeVarInt h, map_some]

end DatabaseFreeListKey

/-- `codePointCompare` of `StringImpl.cpp`. -/
def codePointCompare : UString → UString → ℤ
  | u :: s, v :: t => if u = v then codePointCompare s t else if u > v then 1 else -1
  | [], [] => 0
  | _ :: _, [] => 1
  | [], _ :: _ => -1

structure DatabaseNameKey where
  m_origin : UString
  m_databaseName : UString

namespace DatabaseNameKey

def decode (start : Bytes) : Option (DatabaseNameKey × Bytes) :=
  (decodeMetaData start).bind fun p => (decodeStringWithLength p).bind fun r =>
    (decodeStringWithLength r.2).map fun r' => (⟨r.1, r'.1⟩, r'.2)

def encode (origin databaseName : UString) : Bytes :=
  encodeMetaData 0 kDatabaseNameTypeByte ++ encodeStringWithLength origin ++
    encodeStringWithLength databaseName

def encodeMinKeyForOrigin (origin : UString) : Bytes := encode origin []

/-- Just after the origin in collation order. -/
def encodeStopKeyForOrigin (origin : UString) : Bytes := encodeMinKeyForOrigin (origin ++ [1])

def compare (a other : DatabaseNameKey) : ℤ :=
  let x := codePointCompare a.m_origin other.m_origin
  if x ≠ 0 then x else codePointCompare a.m_databaseName other.m_databaseName

theorem decode_encode (h : origin.length ≤ 2 ^ 30) (h' : databaseName.length ≤ 2 ^ 30) :
    decode (encode origin databaseName) = some (⟨origin, databaseName⟩, []) := by
  rw [decode, encode, append_assoc, decodeMetaData_encodeMetaData (by omega),
    bind_some, decodeStringWithLength_of_le h, bind_some,
    ← append_nil (encodeStringWithLength databaseName),
    decodeStringWithLength_of_le h', map_some]

end DatabaseNameKey

/-- `DatabaseMetaDataKey::MetaDataType`. -/
inductive DatabaseMetaDataKey.MetaDataType where
  | kOriginName
  | kDatabaseName
  | kUserVersion
  | kMaxObjectStoreId
  deriving DecidableEq

def DatabaseMetaDataKey.MetaDataType.toByte : DatabaseMetaDataKey.MetaDataType → UInt8
  | .kOriginName => 0
  | .kDatabaseName => 1
  | .kUserVersion => 2
  | .kMaxObjectStoreId => 3

def DatabaseMetaDataKey.encode (databaseId : ℕ) (metaDataType : MetaDataType) : Bytes :=
  encodeMetaData databaseId metaDataType.toByte

structure ObjectStoreMetaDataKey where
  m_objectStoreId : ℤ
  m_metaDataType : ℤ

namespace ObjectStoreMetaDataKey

def decode (start : Bytes) : Option (ObjectStoreMetaDataKey × Bytes) :=
  (decodeMetaData start).bind fun p => (decodeVarInt p).bind fun r =>
    (decodeVarInt r.2).map fun r' => (⟨r.1, r'.1⟩, r'.2)

def encode (databaseId objectStoreId metaDataType : ℕ) : Bytes :=
  encodeMetaData databaseId kObjectStoreMetaDataTypeByte ++ encodeVarInt objectStoreId ++
    encodeVarInt metaDataType

/-- The difference of two `int64_t` is returned as an `int`. -/
def compare (a other : ObjectStoreMetaDataKey) : ℤ :=
  let x := compareInts a.m_objectStoreId other.m_objectStoreId
  if x ≠ 0 then x else toInt32 (a.m_metaDataType - other.m_metaDataType)

theorem decode_encode (hd : databaseId < 2 ^ 63)
    (ho : objectStoreId < 2 ^ 63) (hm : metaDataType < 2 ^ 63) :
    decode (encode databaseId objectStoreId metaDataType) =
      some (⟨objectStoreId, metaDataType⟩, []) := by
  rw [decode, encode, append_assoc, decodeMetaData_encodeMetaData hd, bind_some,
    decodeVarInt_encodeVarInt ho, bind_some, ← append_nil (encodeVarInt metaDataType),
    decodeVarInt_encodeVarInt hm, map_some]

end ObjectStoreMetaDataKey

structure IndexMetaDataKey where
  m_objectStoreId : ℤ
  m_indexId : ℤ
  m_metaDataType : UInt8

namespace IndexMetaDataKey

def decode (start : Bytes) : Option (IndexMetaDataKey × Bytes) :=
  (decodeMetaData start).bind fun p => (decodeVarInt p).bind fun r =>
    (decodeVarInt r.2).bind fun r' =>
      match r'.2 with
      | [] => none
      | metaDataType :: p => some (⟨r.1, r'.1, metaDataType⟩, p)

def encode (databaseId objectStoreId indexId : ℕ) (metaDataType : UInt8) : Bytes :=
  encodeMetaData databaseId kIndexMetaDataTypeByte ++ encodeVarInt objectStoreId ++
    encodeVarInt indexId ++ encodeByte metaDataType

def compare (a other : IndexMetaDataKey) : ℤ :=
  let x := compareInts a.m_objectStoreId other.m_objectStoreId
  if x ≠ 0 then x
  else
    let x := compareInts a.m_indexId other.m_indexId
    if x ≠ 0 then x else (a.m_metaDataType.toNat : ℤ) - other.m_metaDataType.toNat

theorem decode_encode (hd : databaseId < 2 ^ 63)
    (ho : objectStoreId < 2 ^ 63) (hi : indexId < 2 ^ 63) (metaDataType : UInt8) :
    decode (encode databaseId objectStoreId indexId metaDataType) =
      some (⟨objectStoreId, indexId, metaDataType⟩, []) := by
  rw [decode, encode, append_assoc, append_assoc, decodeMetaData_encodeMetaData hd,
    bind_some, decodeVarInt_encodeVarInt ho, bind_some,
    decodeVarInt_encodeVarInt hi, bind_some, encodeByte]

end IndexMetaDataKey

structure ObjectStoreFreeListKey where
  m_objectStoreId : ℤ

namespace ObjectStoreFreeListKey

def decode (start : Bytes) : Option (ObjectStoreFreeListKey × Bytes) :=
  (decodeMetaData start).bind fun p => (decodeVarInt p).map fun r => (⟨r.1⟩, r.2)

def encode (databaseId objectStoreId : ℕ) : Bytes :=
  encodeMetaData databaseId kObjectStoreFreeListTypeByte ++ encodeVarInt objectStoreId

/-- The database ids have been compared before. -/
def compare (a other : ObjectStoreFreeListKey) : ℤ :=
  compareInts a.m_objectStoreId other.m_objectStoreId

theorem decode_encode (hd : databaseId < 2 ^ 63)
    (ho : objectStoreId < 2 ^ 63) :
    decode (encode databaseId objectStoreId) = some (⟨objectStoreId⟩, []) := by
  rw [decode, encode, decodeMetaData_encodeMetaData hd, bind_some,
    ← append_nil (encodeVarInt objectStoreId), decodeVarInt_encodeVarInt ho, map_some]

end ObjectStoreFreeListKey

structure IndexFreeListKey where
  m_objectStoreId : ℤ
  m_indexId : ℤ

namespace IndexFreeListKey

def decode (start : Bytes) : Option (IndexFreeListKey × Bytes) :=
  (decodeMetaData start).bind fun p => (decodeVarInt p).bind fun r =>
    (decodeVarInt r.2).map fun r' => (⟨r.1, r'.1⟩, r'.2)

def encode (databaseId objectStoreId indexId : ℕ) : Bytes :=
  encodeMetaData databaseId kIndexFreeListTypeByte ++ encodeVarInt objectStoreId ++
    encodeVarInt indexId

def compare (a other : IndexFreeListKey) : ℤ :=
  let x := compareInts a.m_objectStoreId other.m_objectStoreId
  if x ≠ 0 then x else compareInts a.m_indexId other.m_indexId

theorem decode_encode (hd : databaseId < 2 ^ 63)
    (ho : objectStoreId < 2 ^ 63) (hi : indexId < 2 ^ 63) :
    decode (encode databaseId objectStoreId indexId) = some (⟨objectStoreId, indexId⟩, []) := by
  rw [decode, encode, append_assoc, decodeMetaData_encodeMetaData hd, bind_some,
    decodeVarInt_encodeVarInt ho, bind_some, ← append_nil (encodeVarInt indexId),
    decodeVarInt_encodeVarInt hi, map_some]

end IndexFreeListKey

structure ObjectStoreNamesKey where
  m_objectStoreName : UString

namespace ObjectStoreNamesKey

def decode (start : Bytes) : Option (ObjectStoreNamesKey × Bytes) :=
  (decodeMetaData start).bind fun p => (decodeStringWithLength p).map fun r => (⟨r.1⟩, r.2)

def encode (databaseId : ℕ) (objectStoreName : UString) : Bytes :=
  encodeMetaData databaseId kObjectStoreNamesTypeByte ++ encodeStringWithLength objectStoreName

def compare (a other : ObjectStoreNamesKey) : ℤ :=
  codePointCompare a.m_objectStoreName other.m_objectStoreName

theorem decode_encode (hd : databaseId < 2 ^ 63) (h : objectStoreName.length ≤ 2 ^ 30) :
    decode (encode databaseId objectStoreName) = some (⟨objectStoreName⟩, []) := by
  rw [decode, encode, decodeMetaData_encodeMetaData hd, bind_some,
    ← append_nil (encodeStringWithLength objectStoreName),
    decodeStringWithLength_of_le h, map_some]

end ObjectStoreNamesKey

structure IndexNamesKey where
  m_objectStoreId : ℤ
  m_indexName : UString

namespace IndexNamesKey

def decode (start : Bytes) : Option (IndexNamesKey × Bytes) :=
  (decodeMetaData start).bind fun p => (decodeVarInt p).bind fun r =>
    (decodeStringWithLength r.2).map fun r' => (⟨r.1, r'.1⟩, r'.2)

def encode (databaseId objectStoreId : ℕ) (indexName : UString) : Bytes :=
  encodeMetaData databaseId kIndexNamesKeyTypeByte ++ encodeVarInt objectStoreId ++
    encodeStringWithLength indexName

def compare (a other : IndexNamesKey) : ℤ :=
  let x := compareInts a.m_objectStoreId other.m_objectStoreId
  if x ≠ 0 then x else codePointCompare a.m_indexName other.m_indexName

theorem decode_encode
    (hd : databaseId < 2 ^ 63) (ho : objectStoreId < 2 ^ 63) (h : indexName.length ≤ 2 ^ 30) :
    decode (encode databaseId objectStoreId indexName) = some (⟨objectStoreId, indexName⟩, []) := by
  rw [decode, encode, append_assoc, decodeMetaData_encodeMetaData hd, bind_some,
    decodeVarInt_encodeVarInt ho, bind_some,
    ← append_nil (encodeStringWithLength indexName),
    decodeStringWithLength_of_le h, map_some]

end IndexNamesKey

/-! ## Data keys -/

structure ObjectStoreDataKey where
  m_encodedUserKey : Bytes

namespace ObjectStoreDataKey

def decode (start : Bytes) : Option (ObjectStoreDataKey × Bytes) :=
  (KeyPrefix.decode start).bind fun p =>
    if p.2 = [] then none else (extractEncodedIDBKey p.2).map fun r => (⟨r.1⟩, r.2)

def encode (databaseId objectStoreId : ℕ) (encodedUserKey : Bytes) : Bytes :=
  KeyPrefix.encode ⟨databaseId, objectStoreId, kObjectStoreDataIndexId⟩ ++ encodedUserKey

def compare (a other : ObjectStoreDataKey) : ℤ :=
  compareEncodedIDBKeys a.m_encodedUserKey other.m_encodedUserKey

/-- The decoded user key. -/
def userKey (k : ObjectStoreDataKey) : Option IDBKey :=
  (decodeIDBKey k.m_encodedUserKey).map Prod.fst

end ObjectStoreDataKey

structure ExistsEntryKey where
  m_encodedUserKey : Bytes

namespace ExistsEntryKey

def decode (start : Bytes) : Option (ExistsEntryKey × Bytes) :=
  (KeyPrefix.decode start).bind fun p =>
    if p.2 = [] then none else (extractEncodedIDBKey p.2).map fun r => (⟨r.1⟩, r.2)

def encode (databaseId objectStoreId : ℕ) (encodedKey : Bytes) : Bytes :=
  KeyPrefix.encode ⟨databaseId, objectStoreId, kExistsEntryIndexId⟩ ++ encodedKey

def compare (a other : ExistsEntryKey) : ℤ :=
  compareEncodedIDBKeys a.m_encodedUserKey other.m_encodedUserKey

end ExistsEntryKey

structure IndexDataKey where
  m_databaseId : ℤ
  m_objectStoreId : ℤ
  m_indexId : ℤ
  m_encodedUserKey : Bytes
  m_encodedPrimaryKey : Bytes
  m_sequenceNumber : ℤ
  deriving DecidableEq

namespace IndexDataKey

/-- The sequence number and the primary key are optional. -/
def decode (start : Bytes) : Option (IndexDataKey × Bytes) :=
  (KeyPrefix.decode start).bind fun p => (extractEncodedIDBKey p.2).bind fun u =>
    let result : IndexDataKey :=
      ⟨p.1.m_databaseId, p.1.m_objectStoreId, p.1.m_indexId, u.1, minIDBKey, -1⟩
    if u.2 = [] then some (result, u.2)
    else
      (decodeVarInt u.2).bind fun s =>
        let result := { result with m_sequenceNumber := s.1 }
        if s.2 = [] then some (result, s.2)
        else (extractEncodedIDBKey s.2).map fun r =>
          ({ result with m_encodedPrimaryKey := r.1 }, r.2)

def encode (databaseId objectStoreId indexId : ℕ) (encodedUserKey encodedPrimaryKey : Bytes)
    (sequenceNumber : ℕ) : Bytes :=
  KeyPrefix.encode ⟨databaseId, objectStoreId, indexId⟩ ++ encodedUserKey ++
    encodeVarInt sequenceNumber ++ encodedPrimaryKey

def compare (a other : IndexDataKey) (ignoreDuplicates : Bool) : ℤ :=
  let x := compareEncodedIDBKeys a.m_encodedUserKey other.m_encodedUserKey
  if x ≠ 0 then x
  else if ignoreDuplicates then 0
  else
    let x := compareEncodedIDBKeys a.m_encodedPrimaryKey other.m_encodedPrimaryKey
    if x ≠ 0 then x else compareInts a.m_sequenceNumber other.m_sequenceNumber

end IndexDataKey

variable (hd : databaseId < 2 ^ 63)

include hd

theorem ObjectStoreDataKey.decode_encode {k : UserKey}
    (ho : objectStoreId < 2 ^ 63) (hk : k.Valid) (r : Bytes) :
    decode (encode databaseId objectStoreId k.encode ++ r) = some (⟨k.encode⟩, r) := by
  rw [decode, encode, append_assoc,
    KeyPrefix.decode_encode hd ho (show kObjectStoreDataIndexId < 2 ^ 32 by decide),
    bind_some]
  rw [if_neg (by simp [UserKey.encode_ne_nil]), UserKey.extractEncodedIDBKey_encode hk, map_some]

theorem ExistsEntryKey.decode_encode {k : UserKey}
    (ho : objectStoreId < 2 ^ 63) (hk : k.Valid) (r : Bytes) :
    decode (encode databaseId objectStoreId k.encode ++ r) = some (⟨k.encode⟩, r) := by
  rw [decode, encode, append_assoc,
    KeyPrefix.decode_encode hd ho (show kExistsEntryIndexId < 2 ^ 32 by decide),
    bind_some]
  rw [if_neg (by simp [UserKey.encode_ne_nil]), UserKey.extractEncodedIDBKey_encode hk, map_some]

theorem IndexDataKey.decode_encode {indexId sequenceNumber : ℕ} {u p : UserKey} (ho : objectStoreId < 2 ^ 63) (hi : indexId < 2 ^ 32)
    (hu : u.Valid) (hp : p.Valid) (hs : sequenceNumber < 2 ^ 63) :
    decode (encode databaseId objectStoreId indexId u.encode p.encode sequenceNumber) =
      some (⟨databaseId, objectStoreId, indexId, u.encode, p.encode, sequenceNumber⟩, []) := by
  have hp' := UserKey.extractEncodedIDBKey_encode hp []
  rw [append_nil] at hp'
  rw [decode, encode, append_assoc, append_assoc, KeyPrefix.decode_encode hd ho hi,
    bind_some, UserKey.extractEncodedIDBKey_encode hu, bind_some]
  rw [if_neg (by simp [UserKey.encode_ne_nil]), decodeVarInt_encodeVarInt hs, bind_some]
  rw [if_neg (UserKey.encode_ne_nil p), hp', map_some]

omit hd

/-- Both parsers find the end of the encoding of a key whatever follows it, it is no proper prefix of
another one, and an index data key with it gives back the ids, the two keys and the sequence number
it was made of. -/
def SelfDelimiting (k : IDBKey) : Prop :=
  (∀ r : Bytes, decodeIDBKey (encodeIDBKey k ++ r) = some (k, r) ∧
      extractEncodedIDBKey (encodeIDBKey k ++ r) = some (encodeIDBKey k, r)) ∧
    (∀ k' : IDBKey, k'.Valid → encodeIDBKey k <+: encodeIDBKey k' →
      encodeIDBKey k = encodeIDBKey k') ∧
    ∀ (p : IDBKey) (databaseId objectStoreId indexId sequenceNumber : ℕ), p.Valid →
      databaseId < 2 ^ 63 → objectStoreId < 2 ^ 63 → indexId < 2 ^ 32 →
      sequenceNumber < 2 ^ 63 →
      IndexDataKey.decode (IndexDataKey.encode databaseId objectStoreId indexId
        (encodeIDBKey k) (encodeIDBKey p) sequenceNumber) =
          some (⟨databaseId, objectStoreId, indexId, encodeIDBKey k, encodeIDBKey p,
            sequenceNumber⟩, [])

/-- **When the encoding of a key is self-delimiting.**  The builder of `decodeString` CRASHes for a
longer string; everything else holds for every key. -/
theorem encodeIDBKey_self_delimiting_iff (k : IDBKey) (hk : k.Valid) :
    SelfDelimiting k ↔ k.Decodable := by
  refine ⟨fun h => decodable_of_decodeIDBKey hk (h.1 []).1, fun hshort => ⟨fun r =>
    ⟨decodeIDBKey_encodeIDBKey hk hshort r, extractEncodedIDBKey_encodeIDBKey hk r⟩,
    fun k' hk' h => encodeIDBKey_eq_of_isPrefix hk hk' h, ?_⟩⟩
  intro p databaseId objectStoreId indexId sequenceNumber hp hd ho hi hs
  exact IndexDataKey.decode_encode (u := .key k) (p := .key p) hd ho hi hk hp hs

/-- The array holding the empty string, found in front of a zero byte and as an index key. -/
theorem encodeIDBKey_self_delimiting_array :
    decodeIDBKey (encodeIDBKey (.array [.string []]) ++ [0]) = some (.array [.string []], [0]) ∧
      IndexDataKey.decode (IndexDataKey.encode 1 1 30 (encodeIDBKey (.array [.string []]))
        (encodeIDBKey (.string [])) 7) =
          some (⟨1, 1, 30, encodeIDBKey (.array [.string []]), encodeIDBKey (.string []), 7⟩,
            []) := by
  have hp : (IDBKey.string []).Valid := show ([] : UString).length < 2 ^ 32 by decide
  have hk : (IDBKey.array [.string []]).Valid :=
    IDBKey.valid_array.mpr ⟨by decide, fun k h => mem_singleton.mp h ▸ hp⟩
  have hshort : (IDBKey.array [.string []]).Decodable :=
    IDBKey.decodable_array.mpr fun k h => mem_singleton.mp h ▸
      show ([] : UString).length ≤ 2 ^ 30 by decide
  obtain ⟨hdec, -, hindex⟩ := (encodeIDBKey_self_delimiting_iff _ hk).mpr hshort
  exact ⟨(hdec [0]).1, hindex _ 1 1 30 7 hp (by decide) (by decide) (by decide) (by decide)⟩

/-- A string of `2 ^ 30 + 1` code units. -/
theorem not_self_delimiting_long : ¬SelfDelimiting (.string (List.replicate (2 ^ 30 + 1) 97)) := by
  intro h
  have hk : (IDBKey.string (List.replicate (2 ^ 30 + 1) 97)).Valid := by
    change (List.replicate (2 ^ 30 + 1) _).length < 2 ^ 32
    rw [length_replicate]
    decide
  have hshort := decodable_of_decodeIDBKey hk (h.1 []).1
  change (List.replicate (2 ^ 30 + 1) _).length ≤ 2 ^ 30 at hshort
  rw [length_replicate] at hshort
  exact absurd hshort (by decide)

/-! ## The comparator -/

/-- `decodeAndCompare`; both keys are asserted to decode. -/
def decodeAndCompare {α : Type} (decode : Bytes → Option (α × Bytes)) (compare : α → α → ℤ)
    (a b : Bytes) : ℤ :=
  match decode a, decode b with
  | some (keyA, _), some (keyB, _) => compare keyA keyB
  | _, _ => 0

/-- The comparison of two data keys: a key without a user key comes first. -/
def compareDataKeys (ptrA ptrB : Bytes) (compareUserKeys : ℤ) : ℤ :=
  if ptrA = [] ∧ ptrB = [] then 0
  else if ptrA = [] then -1
  else if ptrB = [] then 1
  else compareUserKeys

def compare (a b : Bytes) (indexKeys : Bool) : ℤ :=
  match KeyPrefix.decode a, KeyPrefix.decode b with
  | some (prefixA, ptrA), some (prefixB, ptrB) =>
    let x := prefixA.compare prefixB
    if x ≠ 0 then x
    else
      match prefixA.type with
      | .kGlobalMetaData =>
        match ptrA, ptrB with
        | typeByteA :: _, typeByteB :: _ =>
          let x := (typeByteA.toNat : ℤ) - typeByteB.toNat
          if x ≠ 0 then x
          else if typeByteA ≤ 1 then 0
          else if typeByteA = kDatabaseFreeListTypeByte then
            decodeAndCompare DatabaseFreeListKey.decode DatabaseFreeListKey.compare a b
          else if typeByteA = kDatabaseNameTypeByte then
            decodeAndCompare DatabaseNameKey.decode DatabaseNameKey.compare a b
          else 0
        | _, _ => 0
      | .kDatabaseMetaData =>
        match ptrA, ptrB with
        | typeByteA :: _, typeByteB :: _ =>
          let x := (typeByteA.toNat : ℤ) - typeByteB.toNat
          if x ≠ 0 then x
          else if typeByteA ≤ 3 then 0
          else if typeByteA = kObjectStoreMetaDataTypeByte then
            decodeAndCompare ObjectStoreMetaDataKey.decode ObjectStoreMetaDataKey.compare a b
          else if typeByteA = kIndexMetaDataTypeByte then
            decodeAndCompare IndexMetaDataKey.decode IndexMetaDataKey.compare a b
          else if typeByteA = kObjectStoreFreeListTypeByte then
            decodeAndCompare ObjectStoreFreeListKey.decode ObjectStoreFreeListKey.compare a b
          else if typeByteA = kIndexFreeListTypeByte then
            decodeAndCompare IndexFreeListKey.decode IndexFreeListKey.compare a b
          else if typeByteA = kObjectStoreNamesTypeByte then
            decodeAndCompare ObjectStoreNamesKey.decode ObjectStoreNamesKey.compare a b
          else if typeByteA = kIndexNamesKeyTypeByte then
            decodeAndCompare IndexNamesKey.decode IndexNamesKey.compare a b
          else 0
        | _, _ => 0
      | .kObjectStoreData =>
        compareDataKeys ptrA ptrB
          (decodeAndCompare ObjectStoreDataKey.decode ObjectStoreDataKey.compare a b)
      | .kExistsEntry =>
        compareDataKeys ptrA ptrB
          (decodeAndCompare ExistsEntryKey.decode ExistsEntryKey.compare a b)
      | .kIndexData =>
        compareDataKeys ptrA ptrB
          (decodeAndCompare IndexDataKey.decode (fun x y => x.compare y indexKeys) a b)
      | .kInvalidType => 0
  | _, _ => 0

end IndexedDB
end WebKit
