import WebKit.IndexedDB.LevelDBKeys

/-!
# The order of the keys

The comparator `compare` dispatches over the key classes: it compares the prefixes, then the type
bytes of meta-data keys, then the fields of the class.  Every key gets a word, its `rank`, and the
comparator is the lexicographic comparison of the words, with one exception.

`ObjectStoreMetaDataKey::compare` returns the difference of two `int64_t` meta-data types as an
`int`.  That is the order of the types only inside a window of `2 ^ 31` values counted modulo
`2 ^ 32`; the rank therefore counts meta-data types from a base, one for each object store.
A set of keys is totally preordered by the comparator exactly when such a base exists for any three
meta-data types of one object store.
-/

namespace WebKit

open List
namespace IndexedDB

/-! ## The keys of the store -/

/-- The keys with prefix (0, 0, 0). -/
inductive GlobalKey where
  | schemaVersion
  | maxDatabaseId
  | databaseFreeList (databaseId : ℕ)
  | databaseName (origin name : UString)

/-- The keys with prefix (database id, 0, 0). -/
inductive DatabaseKey where
  | databaseMetaData (metaDataType : DatabaseMetaDataKey.MetaDataType)
  | objectStoreMetaData (objectStoreId metaDataType : ℕ)
  | indexMetaData (objectStoreId indexId : ℕ) (metaDataType : UInt8)
  | objectStoreFreeList (objectStoreId : ℕ)
  | indexFreeList (objectStoreId indexId : ℕ)
  | objectStoreNames (objectStoreName : UString)
  | indexNames (objectStoreId : ℕ) (indexName : UString)

/-- The keys of the fourteen classes, and the prefixes without a user key that bound the range of
`clearObjectStore`. -/
inductive LevelDBKey where
  | globalMetaData (k : GlobalKey)
  | databaseMetaData (databaseId : ℕ) (k : DatabaseKey)
  | keyPrefix (databaseId objectStoreId : ℕ)
  | objectStoreData (databaseId objectStoreId : ℕ) (userKey : UserKey)
  | existsEntry (databaseId objectStoreId : ℕ) (userKey : UserKey)
  | indexData (databaseId objectStoreId indexId : ℕ) (userKey primaryKey : UserKey)
      (sequenceNumber : ℕ)

namespace GlobalKey

def encode : GlobalKey → Bytes
  | .schemaVersion => SchemaVersionKey.encode
  | .maxDatabaseId => MaxDatabaseIdKey.encode
  | .databaseFreeList databaseId => DatabaseFreeListKey.encode databaseId
  | .databaseName origin name => DatabaseNameKey.encode origin name

/-- The ids are non-negative `int64_t`, and the strings are such as `decodeString` gets through. -/
def Valid : GlobalKey → Prop
  | .databaseFreeList databaseId => databaseId < 2 ^ 63
  | .databaseName origin name => origin.length ≤ 2 ^ 30 ∧ name.length ≤ 2 ^ 30
  | _ => True

def typeByte : GlobalKey → UInt8
  | .schemaVersion => kSchemaVersionTypeByte
  | .maxDatabaseId => kMaxDatabaseIdTypeByte
  | .databaseFreeList _ => kDatabaseFreeListTypeByte
  | .databaseName _ _ => kDatabaseNameTypeByte

end GlobalKey

namespace DatabaseKey

def encode (databaseId : ℕ) : DatabaseKey → Bytes
  | .databaseMetaData metaDataType => DatabaseMetaDataKey.encode databaseId metaDataType
  | .objectStoreMetaData objectStoreId metaDataType =>
    ObjectStoreMetaDataKey.encode databaseId objectStoreId metaDataType
  | .indexMetaData objectStoreId indexId metaDataType =>
    IndexMetaDataKey.encode databaseId objectStoreId indexId metaDataType
  | .objectStoreFreeList objectStoreId => ObjectStoreFreeListKey.encode databaseId objectStoreId
  | .indexFreeList objectStoreId indexId => IndexFreeListKey.encode databaseId objectStoreId indexId
  | .objectStoreNames objectStoreName => ObjectStoreNamesKey.encode databaseId objectStoreName
  | .indexNames objectStoreId indexName => IndexNamesKey.encode databaseId objectStoreId indexName

def Valid : DatabaseKey → Prop
  | .databaseMetaData _ => True
  | .objectStoreMetaData objectStoreId metaDataType =>
    objectStoreId < 2 ^ 63 ∧ metaDataType < 2 ^ 63
  | .indexMetaData objectStoreId indexId _ => objectStoreId < 2 ^ 63 ∧ indexId < 2 ^ 63
  | .objectStoreFreeList objectStoreId => objectStoreId < 2 ^ 63
  | .indexFreeList objectStoreId indexId => objectStoreId < 2 ^ 63 ∧ indexId < 2 ^ 63
  | .objectStoreNames objectStoreName => objectStoreName.length ≤ 2 ^ 30
  | .indexNames objectStoreId indexName => objectStoreId < 2 ^ 63 ∧ indexName.length ≤ 2 ^ 30

def typeByte : DatabaseKey → UInt8
  | .databaseMetaData metaDataType => metaDataType.toByte
  | .objectStoreMetaData _ _ => kObjectStoreMetaDataTypeByte
  | .indexMetaData _ _ _ => kIndexMetaDataTypeByte
  | .objectStoreFreeList _ => kObjectStoreFreeListTypeByte
  | .indexFreeList _ _ => kIndexFreeListTypeByte
  | .objectStoreNames _ => kObjectStoreNamesTypeByte
  | .indexNames _ _ => kIndexNamesKeyTypeByte

end DatabaseKey

namespace LevelDBKey

def encode : LevelDBKey → Bytes
  | .globalMetaData k => k.encode
  | .databaseMetaData databaseId k => k.encode databaseId
  | .keyPrefix databaseId objectStoreId => KeyPrefix.encode ⟨databaseId, objectStoreId, 0⟩
  | .objectStoreData databaseId objectStoreId userKey =>
    ObjectStoreDataKey.encode databaseId objectStoreId userKey.encode
  | .existsEntry databaseId objectStoreId userKey =>
    ExistsEntryKey.encode databaseId objectStoreId userKey.encode
  | .indexData databaseId objectStoreId indexId userKey primaryKey sequenceNumber =>
    IndexDataKey.encode databaseId objectStoreId indexId userKey.encode primaryKey.encode
      sequenceNumber

/-- The prefix of a key. -/
def toPrefix : LevelDBKey → KeyPrefix
  | .globalMetaData _ => ⟨0, 0, 0⟩
  | .databaseMetaData databaseId _ => ⟨databaseId, 0, 0⟩
  | .keyPrefix databaseId objectStoreId => ⟨databaseId, objectStoreId, 0⟩
  | .objectStoreData databaseId objectStoreId _ =>
    ⟨databaseId, objectStoreId, kObjectStoreDataIndexId⟩
  | .existsEntry databaseId objectStoreId _ => ⟨databaseId, objectStoreId, kExistsEntryIndexId⟩
  | .indexData databaseId objectStoreId indexId _ _ _ => ⟨databaseId, objectStoreId, indexId⟩

/-- The ids are those the decoders assert: the database of a database key is not the global one,
the object store of a data key is not 0 and an index id is at least `kMinimumIndexId`; ids and
lengths fit their types and the prefix, and user keys are valid and hold no NaN. -/
def Valid : LevelDBKey → Prop
  | .globalMetaData k => k.Valid
  | .databaseMetaData databaseId k => (0 < databaseId ∧ databaseId < 2 ^ 63) ∧ k.Valid
  | .keyPrefix databaseId objectStoreId =>
    (0 < databaseId ∧ databaseId < 2 ^ 63) ∧ 0 < objectStoreId ∧ objectStoreId < 2 ^ 63
  | .objectStoreData databaseId objectStoreId userKey =>
    (0 < databaseId ∧ databaseId < 2 ^ 63) ∧ (0 < objectStoreId ∧ objectStoreId < 2 ^ 63) ∧
      userKey.Valid ∧ userKey.NoNaN
  | .existsEntry databaseId objectStoreId userKey =>
    (0 < databaseId ∧ databaseId < 2 ^ 63) ∧ (0 < objectStoreId ∧ objectStoreId < 2 ^ 63) ∧
      userKey.Valid ∧ userKey.NoNaN
  | .indexData databaseId objectStoreId indexId userKey primaryKey sequenceNumber =>
    (0 < databaseId ∧ databaseId < 2 ^ 63) ∧ (0 < objectStoreId ∧ objectStoreId < 2 ^ 63) ∧
      (kMinimumIndexId ≤ indexId ∧ indexId < 2 ^ 32) ∧ (userKey.Valid ∧ userKey.NoNaN) ∧
      (primaryKey.Valid ∧ primaryKey.NoNaN) ∧ sequenceNumber < 2 ^ 63

end LevelDBKey

/-! ## Comparing fields -/

theorem orderingOfInt_compareInts (a b : ℤ) :
    orderingOfInt (compareInts a b) = Ord.compare a b := by
  rw [← orderingOfInt_sub, compareInts]
  rcases lt_trichotomy (a - b) 0 with h | h | h
  · rw [if_pos h, orderingOfInt_neg_one, orderingOfInt_eq_lt.mpr h]
  · rw [if_neg (by omega), if_neg (by omega), h]
  · rw [if_neg (by omega), if_pos h, orderingOfInt_one, orderingOfInt_eq_gt.mpr h]

theorem lexOf_compareInts (a b : ℤ) : LexOf (orderingOfInt (compareInts a b)) [a] [b] := by
  rw [orderingOfInt_compareInts]
  exact LexOf.singleton a b

/-- The word of a string: its code units and an end mark below them. -/
def rankString (s : UString) : List ℤ := s.map (fun u => (u.toNat : ℤ) + 1) ++ [0]

theorem orderingOfInt_codePointCompare (s t : UString) :
    orderingOfInt (codePointCompare s t) = compareCodeUnits s t := by
  induction s generalizing t with
  | nil => cases t <;> rfl
  | cons u s ih =>
    cases t with
    | nil => rfl
    | cons v t =>
      rw [codePointCompare, compareCodeUnits, List.compareLex_cons_cons]
      rcases lt_trichotomy u.toNat v.toNat with h | h | h
      · rw [if_neg (fun he => h.ne (congrArg UInt16.toNat he)),
          if_neg (show ¬ u > v from fun hc => absurd h (Nat.lt_asymm hc)), compare_lt_iff_lt.mpr h]
        rfl
      · rw [if_pos (UInt16.toNat_inj.mp h), ih, compare_eq_iff_eq.mpr h]
        rfl
      · rw [if_neg (fun he => h.ne' (congrArg UInt16.toNat he)),
          if_pos (show u > v from h), compare_gt_iff_gt.mpr h]
        rfl

theorem lexOf_codePointCompare (s t : UString) :
    LexOf (orderingOfInt (codePointCompare s t)) (rankString s) (rankString t) := by
  rw [orderingOfInt_codePointCompare]
  exact IDBKey.lexOf_codeUnits s t

theorem rankString_injective : Function.Injective rankString := by
  intro s t h
  have hmap := append_cancel_right h
  refine map_injective_iff.mpr (fun u v huv => ?_) hmap
  exact UInt16.toNat_inj.mp (by simpa using huv)

variable {m n : ℤ}

/-- Inside a window of `2 ^ 31` values the truncated difference has the sign of the difference. -/
theorem orderingOfInt_toInt32 {w : ℤ} (hm : (m - w) % 2 ^ 32 < 2 ^ 31)
    (hn : (n - w) % 2 ^ 32 < 2 ^ 31) :
    orderingOfInt (toInt32 (m - n)) = Ord.compare ((m - w) % 2 ^ 32) ((n - w) % 2 ^ 32) := by
  rw [← orderingOfInt_sub, toInt32, Int.bmod_def]
  congr 1
  split <;> omega

theorem lexOf_keyPrefix (p q : KeyPrefix) :
    LexOf (orderingOfInt (p.compare q)) [p.m_databaseId, p.m_objectStoreId, p.m_indexId]
      [q.m_databaseId, q.m_objectStoreId, q.m_indexId] := by
  rw [KeyPrefix.compare]
  split
  · next h =>
    rw [orderingOfInt_compareInts]
    exact LexOf.of_ne h
  · next h =>
    rw [not_not.mp h]
    split
    · next h' =>
      rw [orderingOfInt_compareInts]
      exact (LexOf.of_ne h').cons_self
    · next h' =>
      rw [not_not.mp h']
      split
      · next h'' =>
        rw [orderingOfInt_compareInts]
        exact (LexOf.of_ne h'').cons_self.cons_self
      · next h'' =>
        rw [not_not.mp h'']
        exact LexOf.nil.cons_self.cons_self.cons_self

theorem KeyPrefix.compare_self (p : KeyPrefix) : p.compare p = 0 := by
  rw [KeyPrefix.compare, if_neg (not_not.mpr rfl), if_neg (not_not.mpr rfl),
    if_neg (not_not.mpr rfl)]

/-- Two type bytes are compared by their difference. -/
theorem lexOf_typeByte (s t : UInt8) :
    LexOf (orderingOfInt ((s.toNat : ℤ) - t.toNat)) [(s.toNat : ℤ)] [(t.toNat : ℤ)] := by
  rw [orderingOfInt_sub]
  exact LexOf.singleton _ _

/-! ## Global meta-data -/

theorem decodeAndCompare_of {α : Type} {decode : Bytes → Option (α × Bytes)} {compare : α → α → ℤ}
    {a b r : Bytes} {x y : α} (ha : decode a = some (x, r)) (hb : decode b = some (y, s)) :
    decodeAndCompare decode compare a b = compare x y := by
  rw [decodeAndCompare, ha, hb]

namespace GlobalKey

/-- The word of a global key behind the prefix. -/
def rank (k : GlobalKey) : List ℤ :=
  [(k.typeByte.toNat : ℤ)] ++
    match k with
    | .schemaVersion => []
    | .maxDatabaseId => []
    | .databaseFreeList databaseId => [(databaseId : ℤ)]
    | .databaseName origin name => rankString origin ++ rankString name

theorem decode_encode (k : GlobalKey) :
    ∃ r, KeyPrefix.decode k.encode = some (⟨0, 0, 0⟩, k.typeByte :: r) := by
  have h : ∀ (t : UInt8) (r : Bytes),
      KeyPrefix.decode (encodeMetaData 0 t ++ r) = some (⟨0, 0, 0⟩, t :: r) := fun t r => by
    rw [encodeMetaData, append_assoc]
    exact KeyPrefix.decode_encode (by decide) (by decide) (by decide) _
  cases k with
  | schemaVersion | maxDatabaseId => exact ⟨_, append_nil (encodeMetaData 0 _) ▸ h _ []⟩
  | databaseFreeList databaseId => exact ⟨_, h _ _⟩
  | databaseName origin name =>
    rw [encode, DatabaseNameKey.encode, append_assoc]
    exact ⟨_, h _ _⟩

/-- The comparison of two global keys with one type byte. -/
def compareFields (typeByte : UInt8) (a b : Bytes) : ℤ :=
  if typeByte ≤ 1 then 0
  else if typeByte = kDatabaseFreeListTypeByte then
    decodeAndCompare DatabaseFreeListKey.decode DatabaseFreeListKey.compare a b
  else if typeByte = kDatabaseNameTypeByte then
    decodeAndCompare DatabaseNameKey.decode DatabaseNameKey.compare a b
  else 0

theorem compare_encode (a b : GlobalKey) : compare a.encode b.encode false =
      let x := (a.typeByte.toNat : ℤ) - b.typeByte.toNat
      if x ≠ 0 then x else compareFields a.typeByte a.encode b.encode := by
  obtain ⟨r, hr⟩ := a.decode_encode
  obtain ⟨s, hs⟩ := b.decode_encode
  rw [compare, hr, hs]
  rfl

theorem lexOf_compare {a b : GlobalKey} (ha : a.Valid) (hb : b.Valid) :
    LexOf (orderingOfInt (compare a.encode b.encode false)) a.rank b.rank := by
  rw [compare_encode, orderingOfInt_ite]
  refine (lexOf_typeByte _ _).append_of_eq fun h => ?_
  have ht : a.typeByte = b.typeByte := by
    have := orderingOfInt_eq_eq.mp h
    exact UInt8.toNat_inj.mp (by omega)
  cases a with
  | schemaVersion =>
    cases b with
    | schemaVersion => exact LexOf.nil
    | _ => exact absurd ht (by simp only [typeByte]; decide)
  | maxDatabaseId =>
    cases b with
    | maxDatabaseId => exact LexOf.nil
    | _ => exact absurd ht (by simp only [typeByte]; decide)
  | databaseFreeList d =>
    cases b with
    | databaseFreeList e =>
      have hcmp : compareFields kDatabaseFreeListTypeByte (DatabaseFreeListKey.encode d)
          (DatabaseFreeListKey.encode e) = compareInts d e :=
        decodeAndCompare_of (DatabaseFreeListKey.decode_encode ha)
          (DatabaseFreeListKey.decode_encode hb)
      rw [typeByte, encode, encode, hcmp]
      exact lexOf_compareInts d e
    | _ => exact absurd ht (by simp only [typeByte]; decide)
  | databaseName o n =>
    cases b with
    | databaseName o' n' =>
      have hcmp : compareFields kDatabaseNameTypeByte (DatabaseNameKey.encode o n)
          (DatabaseNameKey.encode o' n') =
          if codePointCompare o o' ≠ 0 then codePointCompare o o' else codePointCompare n n' :=
        decodeAndCompare_of (DatabaseNameKey.decode_encode ha.1 ha.2)
          (DatabaseNameKey.decode_encode hb.1 hb.2)
      rw [typeByte, encode, encode, hcmp, orderingOfInt_ite]
      exact (lexOf_codePointCompare o o').append (lexOf_codePointCompare n n')
    | _ => exact absurd ht (by simp only [typeByte]; decide)

end GlobalKey

/-! ## Database meta-data -/

namespace DatabaseKey

/-- The word of a database key behind the prefix; `base` gives the meta-data type counted as 0 for
every object store. -/
def rank (base : ℕ → ℤ) (k : DatabaseKey) : List ℤ :=
  [(k.typeByte.toNat : ℤ)] ++
    match k with
    | .databaseMetaData _ => []
    | .objectStoreMetaData objectStoreId metaDataType =>
      [(objectStoreId : ℤ)] ++ [((metaDataType : ℤ) - base objectStoreId) % 2 ^ 32]
    | .indexMetaData objectStoreId indexId metaDataType =>
      [(objectStoreId : ℤ)] ++ ([(indexId : ℤ)] ++ [(metaDataType.toNat : ℤ)])
    | .objectStoreFreeList objectStoreId => [(objectStoreId : ℤ)]
    | .indexFreeList objectStoreId indexId => [(objectStoreId : ℤ)] ++ [(indexId : ℤ)]
    | .objectStoreNames objectStoreName => rankString objectStoreName
    | .indexNames objectStoreId indexName => [(objectStoreId : ℤ)] ++ rankString indexName

/-- The meta-data type of an object store meta-data key is at most `2 ^ 31 - 1` above the base. -/
def InWindow (base : ℕ → ℤ) : DatabaseKey → Prop
  | .objectStoreMetaData objectStoreId metaDataType =>
    ((metaDataType : ℤ) - base objectStoreId) % 2 ^ 32 < 2 ^ 31
  | _ => True

variable {databaseId : ℕ}

theorem decode_encode (hd : databaseId < 2 ^ 63) (k : DatabaseKey) :
    ∃ r, KeyPrefix.decode (k.encode databaseId) = some (⟨databaseId, 0, 0⟩, k.typeByte :: r) := by
  have h : ∀ (t : UInt8) (r : Bytes), KeyPrefix.decode (encodeMetaData databaseId t ++ r) =
        some (⟨databaseId, 0, 0⟩, t :: r) := fun t r => by
    rw [encodeMetaData, append_assoc]
    exact KeyPrefix.decode_encode hd (by decide) (by decide) _
  cases k with
  | databaseMetaData t => exact ⟨_, append_nil (encodeMetaData databaseId _) ▸ h _ []⟩
  | objectStoreMetaData os m =>
    rw [encode, ObjectStoreMetaDataKey.encode, append_assoc]
    exact ⟨_, h _ _⟩
  | indexMetaData os i t =>
    rw [encode, IndexMetaDataKey.encode, append_assoc, append_assoc]
    exact ⟨_, h _ _⟩
  | objectStoreFreeList os => exact ⟨_, h _ _⟩
  | indexFreeList os i =>
    rw [encode, IndexFreeListKey.encode, append_assoc]
    exact ⟨_, h _ _⟩
  | objectStoreNames n => exact ⟨_, h _ _⟩
  | indexNames os n =>
    rw [encode, IndexNamesKey.encode, append_assoc]
    exact ⟨_, h _ _⟩

/-- The comparison of two database keys with one type byte. -/
def compareFields (typeByte : UInt8) (a b : Bytes) : ℤ :=
  if typeByte ≤ 3 then 0
  else if typeByte = kObjectStoreMetaDataTypeByte then
    decodeAndCompare ObjectStoreMetaDataKey.decode ObjectStoreMetaDataKey.compare a b
  else if typeByte = kIndexMetaDataTypeByte then
    decodeAndCompare IndexMetaDataKey.decode IndexMetaDataKey.compare a b
  else if typeByte = kObjectStoreFreeListTypeByte then
    decodeAndCompare ObjectStoreFreeListKey.decode ObjectStoreFreeListKey.compare a b
  else if typeByte = kIndexFreeListTypeByte then
    decodeAndCompare IndexFreeListKey.decode IndexFreeListKey.compare a b
  else if typeByte = kObjectStoreNamesTypeByte then
    decodeAndCompare ObjectStoreNamesKey.decode ObjectStoreNamesKey.compare a b
  else if typeByte = kIndexNamesKeyTypeByte then
    decodeAndCompare IndexNamesKey.decode IndexNamesKey.compare a b
  else 0

theorem compare_encode (h0 : 0 < databaseId) (hd : databaseId < 2 ^ 63) (a b : DatabaseKey) :
    compare (a.encode databaseId) (b.encode databaseId) false =
      let x := (a.typeByte.toNat : ℤ) - b.typeByte.toNat
      if x ≠ 0 then x
      else compareFields a.typeByte (a.encode databaseId) (b.encode databaseId) := by
  obtain ⟨r, hr⟩ := a.decode_encode hd
  obtain ⟨s, hs⟩ := b.decode_encode hd
  have htype : (KeyPrefix.mk databaseId 0 0).type = .kDatabaseMetaData := by
    rw [KeyPrefix.type, if_neg (show (databaseId : ℤ) ≠ 0 by omega), if_pos rfl]
  rw [compare, hr, hs]
  simp only [KeyPrefix.compare_self, htype]
  rfl

/-- The difference of the types, as the `int` it is returned as. -/
theorem compareFields_objectStoreMetaData {os m os' m' : ℕ} (hd : databaseId < 2 ^ 63)
    (ha : (objectStoreMetaData os m).Valid) (hb : (objectStoreMetaData os' m').Valid) :
    compareFields kObjectStoreMetaDataTypeByte ((objectStoreMetaData os m).encode databaseId)
        ((objectStoreMetaData os' m').encode databaseId) =
      if compareInts os os' ≠ 0 then compareInts os os' else toInt32 ((m : ℤ) - m') :=
  decodeAndCompare_of (ObjectStoreMetaDataKey.decode_encode hd ha.1 ha.2)
    (ObjectStoreMetaDataKey.decode_encode hd hb.1 hb.2)

theorem lexOf_objectStoreMetaData {base : ℕ → ℤ} {os m : ℕ} (hd : databaseId < 2 ^ 63)
    (ha : (objectStoreMetaData os m).Valid) (hb : (objectStoreMetaData os' m').Valid)
    (hwa : (objectStoreMetaData os m).InWindow base)
    (hwb : (objectStoreMetaData os' m').InWindow base) :
    LexOf (orderingOfInt (compareFields kObjectStoreMetaDataTypeByte
        ((objectStoreMetaData os m).encode databaseId)
        ((objectStoreMetaData os' m').encode databaseId)))
      ([(os : ℤ)] ++ [((m : ℤ) - base os) % 2 ^ 32])
      ([(os' : ℤ)] ++ [((m' : ℤ) - base os') % 2 ^ 32]) := by
  rw [compareFields_objectStoreMetaData hd ha hb, orderingOfInt_ite]
  refine (lexOf_compareInts os os').append_of_eq fun h => ?_
  obtain rfl : os = os' := by
    rw [orderingOfInt_compareInts, compare_eq_iff_eq] at h
    exact_mod_cast h
  rw [orderingOfInt_toInt32 hwa hwb]
  exact LexOf.singleton _ _

/-- Keys of one type. -/
inductive SameType : DatabaseKey → DatabaseKey → Prop
  | databaseMetaData (t t') : SameType (.databaseMetaData t) (.databaseMetaData t')
  | objectStoreMetaData (os m os' m') :
      SameType (.objectStoreMetaData os m) (.objectStoreMetaData os' m')
  | indexMetaData (os i t os' i' t') : SameType (.indexMetaData os i t) (.indexMetaData os' i' t')
  | objectStoreFreeList (os os') : SameType (.objectStoreFreeList os) (.objectStoreFreeList os')
  | indexFreeList (os i os' i') : SameType (.indexFreeList os i) (.indexFreeList os' i')
  | objectStoreNames (n n') : SameType (.objectStoreNames n) (.objectStoreNames n')
  | indexNames (os n os' n') : SameType (.indexNames os n) (.indexNames os' n')

theorem SameType.of_typeByte_eq {a b : DatabaseKey} (h : a.typeByte = b.typeByte) :
    SameType a b := by
  cases a with
  | databaseMetaData t =>
    cases b with
    | databaseMetaData t' => constructor
    | _ => exact absurd h (by cases t <;> simp only [typeByte] <;> decide)
  | _ =>
    cases b with
    | databaseMetaData t => exact absurd h (by cases t <;> simp only [typeByte] <;> decide)
    | _ => first | constructor | exact absurd h (by simp only [typeByte]; decide)

theorem lexOf_compare {base : ℕ → ℤ} (h0 : 0 < databaseId) (hd : databaseId < 2 ^ 63)
    {a b : DatabaseKey} (ha : a.Valid) (hb : b.Valid) (hwa : a.InWindow base)
    (hwb : b.InWindow base) :
    LexOf (orderingOfInt (compare (a.encode databaseId) (b.encode databaseId) false))
      (a.rank base) (b.rank base) := by
  rw [compare_encode h0 hd, orderingOfInt_ite]
  refine (lexOf_typeByte _ _).append_of_eq fun h => ?_
  have ht : a.typeByte = b.typeByte := by
    have := orderingOfInt_eq_eq.mp h
    exact UInt8.toNat_inj.mp (by omega)
  cases SameType.of_typeByte_eq ht with
  | databaseMetaData t t' =>
    have hcmp : compareFields (databaseMetaData t).typeByte
        ((databaseMetaData t).encode databaseId) ((databaseMetaData t').encode databaseId) = 0 :=
      if_pos (by cases t <;> decide)
    rw [hcmp]
    exact LexOf.nil
  | objectStoreMetaData os m os' m' => exact lexOf_objectStoreMetaData hd ha hb hwa hwb
  | indexMetaData os i t os' i' t' =>
    have hcmp : compareFields kIndexMetaDataTypeByte
        ((indexMetaData os i t).encode databaseId) ((indexMetaData os' i' t').encode databaseId) =
        if compareInts os os' ≠ 0 then compareInts os os'
        else if compareInts i i' ≠ 0 then compareInts i i' else (t.toNat : ℤ) - t'.toNat :=
      decodeAndCompare_of (IndexMetaDataKey.decode_encode hd ha.1 ha.2 t)
        (IndexMetaDataKey.decode_encode hd hb.1 hb.2 t')
    rw [typeByte, hcmp, orderingOfInt_ite, orderingOfInt_ite]
    exact (lexOf_compareInts os os').append
      ((lexOf_compareInts i i').append (lexOf_typeByte t t'))
  | objectStoreFreeList os os' =>
    have hcmp : compareFields kObjectStoreFreeListTypeByte
        ((objectStoreFreeList os).encode databaseId)
        ((objectStoreFreeList os').encode databaseId) = compareInts os os' :=
      decodeAndCompare_of (ObjectStoreFreeListKey.decode_encode hd ha)
        (ObjectStoreFreeListKey.decode_encode hd hb)
    rw [typeByte, hcmp]
    exact lexOf_compareInts os os'
  | indexFreeList os i os' i' =>
    have hcmp : compareFields kIndexFreeListTypeByte
        ((indexFreeList os i).encode databaseId) ((indexFreeList os' i').encode databaseId) =
        if compareInts os os' ≠ 0 then compareInts os os' else compareInts i i' :=
      decodeAndCompare_of (IndexFreeListKey.decode_encode hd ha.1 ha.2)
        (IndexFreeListKey.decode_encode hd hb.1 hb.2)
    rw [typeByte, hcmp, orderingOfInt_ite]
    exact (lexOf_compareInts os os').append (lexOf_compareInts i i')
  | objectStoreNames n n' =>
    have hcmp : compareFields kObjectStoreNamesTypeByte
        ((objectStoreNames n).encode databaseId) ((objectStoreNames n').encode databaseId) =
        codePointCompare n n' :=
      decodeAndCompare_of (ObjectStoreNamesKey.decode_encode hd ha)
        (ObjectStoreNamesKey.decode_encode hd hb)
    rw [typeByte, hcmp]
    exact lexOf_codePointCompare n n'
  | indexNames os n os' n' =>
    have hcmp : compareFields kIndexNamesKeyTypeByte
        ((indexNames os n).encode databaseId) ((indexNames os' n').encode databaseId) =
        if compareInts os os' ≠ 0 then compareInts os os' else codePointCompare n n' :=
      decodeAndCompare_of (IndexNamesKey.decode_encode hd ha.1 ha.2)
        (IndexNamesKey.decode_encode hd hb.1 hb.2)
    rw [typeByte, hcmp, orderingOfInt_ite]
    exact (lexOf_compareInts os os').append (lexOf_codePointCompare n n')

end DatabaseKey

/-! ## All keys -/

namespace LevelDBKey

variable (base : ℕ → ℕ → ℤ)

/-- The word of a key behind the prefix. -/
def tailRank : LevelDBKey → List ℤ
  | .globalMetaData k => k.rank
  | .databaseMetaData databaseId k => k.rank (base databaseId)
  | .keyPrefix _ _ => []
  | .objectStoreData _ _ userKey => userKey.rank
  | .existsEntry _ _ userKey => userKey.rank
  | .indexData _ _ _ userKey primaryKey sequenceNumber =>
    userKey.rank ++ (primaryKey.rank ++ [(sequenceNumber : ℤ)])

/-- The word of a key; `base` gives the meta-data type counted as 0 for every database and object
store. -/
def rank (k : LevelDBKey) : List ℤ :=
  [k.toPrefix.m_databaseId, k.toPrefix.m_objectStoreId, k.toPrefix.m_indexId] ++ k.tailRank base

def InWindow : LevelDBKey → Prop
  | .databaseMetaData databaseId k => k.InWindow (base databaseId)
  | _ => True

theorem decode_encode {k : LevelDBKey} (hk : k.Valid) :
    ∃ r, KeyPrefix.decode k.encode = some (k.toPrefix, r) := by
  cases k with
  | globalMetaData k =>
    obtain ⟨r, hr⟩ := k.decode_encode
    exact ⟨_, hr⟩
  | databaseMetaData d k =>
    obtain ⟨r, hr⟩ := k.decode_encode hk.1.2
    exact ⟨_, hr⟩
  | keyPrefix d os =>
    exact ⟨[], append_nil (encode _) ▸
      KeyPrefix.decode_encode hk.1.2 hk.2.2 (show 0 < 2 ^ 32 by decide) []⟩
  | objectStoreData | existsEntry =>
    exact ⟨_, KeyPrefix.decode_encode hk.1.2 hk.2.1.2 (by decide) _⟩
  | indexData d os i u p n =>
    rw [encode, IndexDataKey.encode, append_assoc, append_assoc]
    exact ⟨_, KeyPrefix.decode_encode hk.1.2 hk.2.1.2 hk.2.2.1.2 _⟩

variable {a b : LevelDBKey} {d os : ℕ} {u v : UserKey}

/-- Different prefixes decide. -/
theorem compare_of_prefix_ne (ha : a.Valid) (hb : b.Valid) (h : a.toPrefix.compare b.toPrefix ≠ 0)
    (indexKeys : Bool) : compare a.encode b.encode indexKeys = a.toPrefix.compare b.toPrefix := by
  obtain ⟨r, hr⟩ := decode_encode ha
  obtain ⟨s, hs⟩ := decode_encode hb
  rw [compare, hr, hs]
  exact if_pos h

theorem compareDataKeys_of_ne_nil {p q : Bytes} (hp : p ≠ []) (hq : q ≠ []) (x : ℤ) :
    compareDataKeys p q x = x := by
  rw [compareDataKeys, if_neg (fun h => hp h.1), if_neg hp, if_neg hq]

/-- The dispatch of the comparator on a data key. -/
theorem type_data (hd : 0 < d) (hos : 0 < os) (i : ℕ) : (KeyPrefix.mk d os i).type =
      if i = kObjectStoreDataIndexId then .kObjectStoreData
      else if i = kExistsEntryIndexId then .kExistsEntry
      else if kMinimumIndexId ≤ i then .kIndexData
      else .kInvalidType := by
  rw [KeyPrefix.type, if_neg (show (d : ℤ) ≠ 0 by omega), if_neg (show (os : ℤ) ≠ 0 by omega)]
  simp only [Int.natCast_inj, Int.ofNat_le]

def kind : LevelDBKey → KeyPrefix.Kind
  | .globalMetaData _ => .kGlobalMetaData
  | .databaseMetaData _ _ => .kDatabaseMetaData
  | .keyPrefix _ _ => .kInvalidType
  | .objectStoreData _ _ _ => .kObjectStoreData
  | .existsEntry _ _ _ => .kExistsEntry
  | .indexData _ _ _ _ _ _ => .kIndexData

theorem type_toPrefix {k : LevelDBKey} (hk : k.Valid) : k.toPrefix.type = k.kind := by
  cases k with
  | globalMetaData k => rfl
  | databaseMetaData d k =>
    rw [toPrefix, KeyPrefix.type, if_neg (show (d : ℤ) ≠ 0 by have := hk.1.1; omega)]
    rfl
  | keyPrefix d os => exact type_data hk.1.1 hk.2.1 0
  | objectStoreData d os u => exact type_data hk.1.1 hk.2.1.1 kObjectStoreDataIndexId
  | existsEntry d os u => exact type_data hk.1.1 hk.2.1.1 kExistsEntryIndexId
  | indexData d os i u p n =>
    have hi : 30 ≤ i := hk.2.2.1.1
    rw [toPrefix, type_data hk.1.1 hk.2.1.1, if_neg (by rw [kObjectStoreDataIndexId]; omega),
      if_neg (by rw [kExistsEntryIndexId]; omega), if_pos hk.2.2.1.1]
    rfl

theorem compare_keyPrefix (h : (keyPrefix d os).Valid) :
    compare (keyPrefix d os).encode (keyPrefix d os).encode false = 0 := by
  obtain ⟨r, hr⟩ := decode_encode h
  rw [compare, hr]
  simp only [KeyPrefix.compare_self, type_toPrefix h]
  rfl

theorem compare_objectStoreData (hu : (objectStoreData d os u).Valid)
    (hv : (objectStoreData d os v).Valid) :
    compare (objectStoreData d os u).encode (objectStoreData d os v).encode false =
      compareEncodedIDBKeys u.encode v.encode := by
  have hp : ∀ w : Bytes, KeyPrefix.decode (ObjectStoreDataKey.encode d os w) =
      some (⟨d, os, kObjectStoreDataIndexId⟩, w) := fun w =>
    KeyPrefix.decode_encode hu.1.2 hu.2.1.2 (by decide) w
  rw [compare, encode, encode, hp, hp]
  have htype : (KeyPrefix.mk d os kObjectStoreDataIndexId).type = .kObjectStoreData :=
    type_toPrefix hu
  simp only [KeyPrefix.compare_self, htype]
  rw [compareDataKeys_of_ne_nil u.encode_ne_nil v.encode_ne_nil,
    ← append_nil (ObjectStoreDataKey.encode d os _), ← append_nil (ObjectStoreDataKey.encode d os v.encode)]
  exact decodeAndCompare_of (ObjectStoreDataKey.decode_encode hu.1.2 hu.2.1.2 hu.2.2.1 [])
    (ObjectStoreDataKey.decode_encode hv.1.2 hv.2.1.2 hv.2.2.1 [])

theorem compare_existsEntry (hu : (existsEntry d os u).Valid) (hv : (existsEntry d os v).Valid) :
    compare (existsEntry d os u).encode (existsEntry d os v).encode false =
      compareEncodedIDBKeys u.encode v.encode := by
  have hp : ∀ w : Bytes, KeyPrefix.decode (ExistsEntryKey.encode d os w) =
      some (⟨d, os, kExistsEntryIndexId⟩, w) := fun w =>
    KeyPrefix.decode_encode hu.1.2 hu.2.1.2 (by decide) w
  rw [compare, encode, encode, hp, hp]
  have htype : (KeyPrefix.mk d os kExistsEntryIndexId).type = .kExistsEntry := type_toPrefix hu
  simp only [KeyPrefix.compare_self, htype]
  rw [compareDataKeys_of_ne_nil u.encode_ne_nil v.encode_ne_nil,
    ← append_nil (ExistsEntryKey.encode d os _), ← append_nil (ExistsEntryKey.encode d os v.encode)]
  exact decodeAndCompare_of (ExistsEntryKey.decode_encode hu.1.2 hu.2.1.2 hu.2.2.1 [])
    (ExistsEntryKey.decode_encode hv.1.2 hv.2.1.2 hv.2.2.1 [])

theorem compare_indexData {i : ℕ} {m n : ℕ} (ha : (indexData d os i u p m).Valid)
    (hb : (indexData d os i v q n).Valid) (indexKeys : Bool) :
    compare (indexData d os i u p m).encode (indexData d os i v q n).encode indexKeys =
      let x := compareEncodedIDBKeys u.encode v.encode
      if x ≠ 0 then x
      else if indexKeys then 0
      else
        let x := compareEncodedIDBKeys p.encode q.encode
        if x ≠ 0 then x else compareInts m n := by
  have htype : (KeyPrefix.mk d os i).type = .kIndexData := type_toPrefix ha
  obtain ⟨hd, hos, hi, hu, hp, hm⟩ := ha
  obtain ⟨-, -, -, hv, hq, hn⟩ := hb
  have hdec : ∀ w : Bytes, KeyPrefix.decode (KeyPrefix.encode ⟨d, os, i⟩ ++ w) =
      some (⟨d, os, i⟩, w) := fun w => KeyPrefix.decode_encode hd.2 hos.2 hi.2 w
  have hne : ∀ (w : UserKey) (r : Bytes), w.encode ++ r ≠ [] := fun w r => by
    simp [w.encode_ne_nil]
  have hpre : ∀ (w z : UserKey) (k : ℕ),
      KeyPrefix.decode (IndexDataKey.encode d os i w.encode z.encode k) =
        some (⟨d, os, i⟩, w.encode ++ (encodeVarInt k ++ z.encode)) := fun w z k => by
    rw [IndexDataKey.encode, append_assoc, append_assoc, hdec]
  rw [compare, encode, encode, hpre, hpre]
  simp only [KeyPrefix.compare_self, htype]
  rw [if_neg (not_not.mpr rfl), compareDataKeys_of_ne_nil (hne u _) (hne v _)]
  exact decodeAndCompare_of (IndexDataKey.decode_encode hd.2 hos.2 hi.2 hu.1 hp.1 hm)
    (IndexDataKey.decode_encode hd.2 hos.2 hi.2 hv.1 hq.1 hn)

theorem lexOf_userKey (hu : u.Valid ∧ u.NoNaN) (hv : v.Valid ∧ v.NoNaN) :
    LexOf (orderingOfInt (compareEncodedIDBKeys u.encode v.encode)) u.rank v.rank := by
  rw [orderingOfInt_compareEncodedIDBKeys hu.1 hv.1 hu.2 hv.2]
  exact u.lexOf_rank v

/-- Keys of one kind. -/
inductive SameKind : LevelDBKey → LevelDBKey → Prop
  | globalMetaData (k k') : SameKind (.globalMetaData k) (.globalMetaData k')
  | databaseMetaData (d k d' k') : SameKind (.databaseMetaData d k) (.databaseMetaData d' k')
  | keyPrefix (d os d' os') : SameKind (.keyPrefix d os) (.keyPrefix d' os')
  | objectStoreData (d os u d' os' v) :
      SameKind (.objectStoreData d os u) (.objectStoreData d' os' v)
  | existsEntry (d os u d' os' v) : SameKind (.existsEntry d os u) (.existsEntry d' os' v)
  | indexData (d os i u p m d' os' i' v q n) :
      SameKind (.indexData d os i u p m) (.indexData d' os' i' v q n)

theorem SameKind.of_kind_eq (h : a.kind = b.kind) : SameKind a b := by
  cases a <;> cases b <;> first | constructor | exact absurd h (by simp [kind])

/-- Behind a common prefix the comparator compares the rests of the words. -/
theorem lexOf_tailRank {base : ℕ → ℕ → ℤ} (ha : a.Valid) (hb : b.Valid) (hwa : a.InWindow base)
    (hwb : b.InWindow base) (h : a.toPrefix = b.toPrefix) :
    LexOf (orderingOfInt (compare a.encode b.encode false)) (a.tailRank base)
      (b.tailRank base) := by
  have hkind : a.kind = b.kind := by rw [← type_toPrefix ha, ← type_toPrefix hb, h]
  cases SameKind.of_kind_eq hkind with
  | globalMetaData k k' => exact GlobalKey.lexOf_compare ha hb
  | databaseMetaData d k d' k' =>
    obtain rfl : d = d' := by simpa [toPrefix] using h
    exact DatabaseKey.lexOf_compare ha.1.1 ha.1.2 ha.2 hb.2 hwa hwb
  | keyPrefix d os d' os' =>
    obtain ⟨rfl, rfl⟩ : d = d' ∧ os = os' := by simpa [toPrefix] using h
    rw [compare_keyPrefix ha]
    exact LexOf.nil
  | objectStoreData d os u d' os' v =>
    obtain ⟨rfl, rfl⟩ : d = d' ∧ os = os' := by simpa [toPrefix] using h
    rw [compare_objectStoreData ha hb]
    exact lexOf_userKey ha.2.2 hb.2.2
  | existsEntry d os u d' os' v =>
    obtain ⟨rfl, rfl⟩ : d = d' ∧ os = os' := by simpa [toPrefix] using h
    rw [compare_existsEntry ha hb]
    exact lexOf_userKey ha.2.2 hb.2.2
  | indexData d os i u p m d' os' i' v q n =>
    obtain ⟨rfl, rfl, rfl⟩ : d = d' ∧ os = os' ∧ i = i' := by simpa [toPrefix] using h
    rw [compare_indexData ha hb false, orderingOfInt_ite, if_neg Bool.false_ne_true,
      orderingOfInt_ite]
    obtain ⟨-, -, -, hu, hp, -⟩ := ha
    obtain ⟨-, -, -, hv, hq, -⟩ := hb
    exact (lexOf_userKey hu hv).append ((lexOf_userKey hp hq).append (lexOf_compareInts m n))

theorem eq_of_prefix_compare_eq_zero {p : KeyPrefix} (h : p.compare q = 0) : p = q := by
  have := (lexOf_keyPrefix p q).eq_iff.mpr (orderingOfInt_eq_eq.mpr h)
  simpa [KeyPrefix.ext_iff] using this

/-- Only index keys are compared differently as index keys. -/
theorem compare_indexKeys_of_kind (ha : a.Valid) (hb : b.Valid) (h : b.kind ≠ .kIndexData)
    (indexKeys : Bool) : compare a.encode b.encode indexKeys = compare a.encode b.encode false := by
  obtain ⟨r, hr⟩ := decode_encode ha
  obtain ⟨s, hs⟩ := decode_encode hb
  rw [compare, compare, hr, hs]
  simp only
  split
  · rfl
  · next hp =>
    rw [eq_of_prefix_compare_eq_zero (not_not.mp hp), type_toPrefix hb]
    cases hk : b.kind with
    | kIndexData => exact absurd hk h
    | _ => rfl

/-- **The comparator compares words.** -/
theorem lexOf_compare {base : ℕ → ℕ → ℤ} (ha : a.Valid) (hb : b.Valid) (hwa : a.InWindow base)
    (hwb : b.InWindow base) :
    LexOf (orderingOfInt (compare a.encode b.encode false)) (a.rank base) (b.rank base) := by
  have hcmp : compare a.encode b.encode false =
      if a.toPrefix.compare b.toPrefix ≠ 0 then a.toPrefix.compare b.toPrefix
      else compare a.encode b.encode false := by
    split
    · next h => exact compare_of_prefix_ne ha hb h false
    · rfl
  rw [hcmp, orderingOfInt_ite]
  refine (lexOf_keyPrefix _ _).append_of_eq fun h => ?_
  exact lexOf_tailRank ha hb hwa hwb (eq_of_prefix_compare_eq_zero (orderingOfInt_eq_eq.mp h))

section Words

variable {base : ℕ → ℕ → ℤ} {a b : LevelDBKey} (ha : a.Valid) (hb : b.Valid)
  (hwa : a.InWindow base) (hwb : b.InWindow base)

include ha hb hwa hwb

theorem compare_neg_iff : compare a.encode b.encode false < 0 ↔ a.rank base < b.rank base := by
  rw [(lexOf_compare ha hb hwa hwb).lt_iff, orderingOfInt_eq_lt]

theorem compare_eq_zero_iff : compare a.encode b.encode false = 0 ↔ a.rank base = b.rank base := by
  rw [(lexOf_compare ha hb hwa hwb).eq_iff, orderingOfInt_eq_eq]

theorem compare_nonpos_iff : compare a.encode b.encode false ≤ 0 ↔ a.rank base ≤ b.rank base := by
  rw [le_iff_lt_or_eq, compare_neg_iff ha hb hwa hwb, compare_eq_zero_iff ha hb hwa hwb,
    ← le_iff_lt_or_eq]

theorem compare_pos_iff : 0 < compare a.encode b.encode false ↔ b.rank base < a.rank base := by
  rw [← not_le, compare_nonpos_iff ha hb hwa hwb, not_le]

theorem sign_compare_swap :
    Int.sign (compare a.encode b.encode false) = -Int.sign (compare b.encode a.encode false) := by
  rcases lt_trichotomy (a.rank base) (b.rank base) with h | h | h
  · rw [Int.sign_eq_neg_one_of_neg ((compare_neg_iff ha hb hwa hwb).mpr h),
      Int.sign_eq_one_of_pos ((compare_pos_iff hb ha hwb hwa).mpr h)]
  · rw [(compare_eq_zero_iff ha hb hwa hwb).mpr h, (compare_eq_zero_iff hb ha hwb hwa).mpr h.symm]
    rfl
  · rw [Int.sign_eq_one_of_pos ((compare_pos_iff ha hb hwa hwb).mpr h),
      Int.sign_eq_neg_one_of_neg ((compare_neg_iff hb ha hwb hwa).mpr h)]
    rfl

end Words

end LevelDBKey

/-! ## What the words determine -/

theorem rankString_append_inj (h : rankString s ++ x = rankString t ++ y) : s = t ∧ x = y := by
  have hst := lexOf_codePointCompare s t
  obtain ⟨hs, hxy⟩ := (hst.eq_append_iff x y).mp h
  exact ⟨rankString_injective (hst.eq_iff.mpr hs), hxy⟩

theorem GlobalKey.rank_injective : Function.Injective GlobalKey.rank := by
  intro a b h
  have ht : a.typeByte = b.typeByte := by
    have := (cons_eq_cons.mp h).1
    exact UInt8.toNat_inj.mp (by omega)
  have hf := (cons_eq_cons.mp h).2
  cases a with
  | schemaVersion =>
    cases b with
    | schemaVersion => rfl
    | _ => exact absurd ht (by simp only [typeByte]; decide)
  | maxDatabaseId =>
    cases b with
    | maxDatabaseId => rfl
    | _ => exact absurd ht (by simp only [typeByte]; decide)
  | databaseFreeList d =>
    cases b with
    | databaseFreeList e => simpa using hf
    | _ => exact absurd ht (by simp only [typeByte]; decide)
  | databaseName o n =>
    cases b with
    | databaseName o' n' =>
      obtain ⟨rfl, hn⟩ := rankString_append_inj hf
      rw [rankString_injective hn]
    | _ => exact absurd ht (by simp only [typeByte]; decide)

/-- The word of a database key determines the key up to a multiple of `2 ^ 32` in the type of an
object store meta-data key. -/
theorem DatabaseKey.eq_of_rank_eq {base : ℕ → ℤ} {a : DatabaseKey} (h : a.rank base = b.rank base)
    (hm : ∀ os m n, a = .objectStoreMetaData os m → b = .objectStoreMetaData os n →
      m % 2 ^ 32 = n % 2 ^ 32 → m = n) : a = b := by
  have ht : a.typeByte = b.typeByte := by
    have := (cons_eq_cons.mp h).1
    exact UInt8.toNat_inj.mp (by omega)
  have hf := (cons_eq_cons.mp h).2
  cases DatabaseKey.SameType.of_typeByte_eq ht with
  | databaseMetaData t t' => cases t <;> cases t' <;> first | rfl | exact absurd ht (by decide)
  | objectStoreMetaData os m os' m' =>
    obtain ⟨hos, hmm⟩ : (os : ℤ) = os' ∧
        ((m : ℤ) - base os) % 2 ^ 32 = ((m' : ℤ) - base os') % 2 ^ 32 := by simpa using hf
    obtain rfl : os = os' := by omega
    rw [hm os m m' rfl rfl (by omega)]
  | indexMetaData os i t os' i' t' => simpa [UInt8.toNat_inj] using hf
  | objectStoreFreeList | indexFreeList => simpa using hf
  | objectStoreNames n n' => rw [rankString_injective hf]
  | indexNames os n os' n' =>
    obtain ⟨hos, hn⟩ := cons_eq_cons.mp hf
    rw [rankString_injective hn, show os = os' by omega]

theorem UserKey.rank_append_eq_iff {u v : UserKey} :
    u.rank ++ x = v.rank ++ y ↔ u.referenceCompare v = .eq ∧ x = y :=
  (u.lexOf_rank v).eq_append_iff x y

namespace LevelDBKey

/-- Two keys of one class with equal ids, equal strings and equal user keys; the numbers of user
keys are equal as numbers. -/
def SameFields : LevelDBKey → LevelDBKey → Prop
  | .globalMetaData k, .globalMetaData k' => k = k'
  | .databaseMetaData d k, .databaseMetaData d' k' => d = d' ∧ k = k'
  | .keyPrefix d os, .keyPrefix d' os' => d = d' ∧ os = os'
  | .objectStoreData d os u, .objectStoreData d' os' v =>
    d = d' ∧ os = os' ∧ u.referenceCompare v = .eq
  | .existsEntry d os u, .existsEntry d' os' v => d = d' ∧ os = os' ∧ u.referenceCompare v = .eq
  | .indexData d os i u p n, .indexData d' os' i' v q n' =>
    d = d' ∧ os = os' ∧ i = i' ∧ u.referenceCompare v = .eq ∧ p.referenceCompare q = .eq ∧ n = n'
  | _, _ => False

theorem toPrefix_eq_of_rank_eq {base : ℕ → ℕ → ℤ} {a b : LevelDBKey}
    (h : a.rank base = b.rank base) :
    a.toPrefix = b.toPrefix ∧ a.tailRank base = b.tailRank base := by
  simpa [rank, KeyPrefix.ext_iff, and_assoc] using h

theorem sameFields_of_rank_eq {base : ℕ → ℕ → ℤ} {a : LevelDBKey} (ha : a.Valid) (hb : b.Valid)
    (h : a.rank base = b.rank base)
    (hm : ∀ d os m n, a = .databaseMetaData d (.objectStoreMetaData os m) →
      b = .databaseMetaData d (.objectStoreMetaData os n) → m % 2 ^ 32 = n % 2 ^ 32 → m = n) :
    a.SameFields b := by
  obtain ⟨hp, ht⟩ := toPrefix_eq_of_rank_eq h
  have hkind : a.kind = b.kind := by rw [← type_toPrefix ha, ← type_toPrefix hb, hp]
  cases SameKind.of_kind_eq hkind with
  | globalMetaData k k' => exact GlobalKey.rank_injective ht
  | databaseMetaData d k d' k' =>
    obtain rfl : d = d' := by simpa [toPrefix] using hp
    refine ⟨rfl, DatabaseKey.eq_of_rank_eq ht fun os m n hk hk' => ?_⟩
    exact hm d os m n (by rw [hk]) (by rw [hk'])
  | keyPrefix d os d' os' => simpa [SameFields, toPrefix] using hp
  | objectStoreData d os u d' os' v =>
    obtain ⟨rfl, rfl⟩ : d = d' ∧ os = os' := by simpa [toPrefix] using hp
    exact ⟨rfl, rfl, (u.lexOf_rank v).eq_iff.mp ht⟩
  | existsEntry d os u d' os' v =>
    obtain ⟨rfl, rfl⟩ : d = d' ∧ os = os' := by simpa [toPrefix] using hp
    exact ⟨rfl, rfl, (u.lexOf_rank v).eq_iff.mp ht⟩
  | indexData d os i u p m d' os' i' v q n =>
    obtain ⟨rfl, rfl, rfl⟩ : d = d' ∧ os = os' ∧ i = i' := by simpa [toPrefix] using hp
    obtain ⟨hu, ht'⟩ := UserKey.rank_append_eq_iff.mp ht
    obtain ⟨hp', hn⟩ := UserKey.rank_append_eq_iff.mp ht'
    exact ⟨rfl, rfl, rfl, hu, hp', by simpa using hn⟩

end LevelDBKey

/-! ## The comparator as an order -/

/-- What LevelDB and the AVL tree need of the comparator on a set of keys. -/
structure ComparesTotally (S : Set LevelDBKey) : Prop where
  sign_swap : ∀ a ∈ S, ∀ b ∈ S,
    Int.sign (compare a.encode b.encode false) = -Int.sign (compare b.encode a.encode false)
  trans : ∀ a ∈ S, ∀ b ∈ S, ∀ c ∈ S, compare a.encode b.encode false ≤ 0 →
    compare b.encode c.encode false ≤ 0 → compare a.encode c.encode false ≤ 0
  sameFields : ∀ a ∈ S, ∀ b ∈ S, compare a.encode b.encode false = 0 → a.SameFields b

/-- Any three meta-data types of one object store lie in a window of `2 ^ 31` values modulo
`2 ^ 32`, and different ones differ modulo `2 ^ 32`. -/
def MetaDataTypesFit (S : Set LevelDBKey) : Prop :=
  ∀ databaseId objectStoreId l m n : ℕ,
    .databaseMetaData databaseId (.objectStoreMetaData objectStoreId l) ∈ S →
    .databaseMetaData databaseId (.objectStoreMetaData objectStoreId m) ∈ S →
    .databaseMetaData databaseId (.objectStoreMetaData objectStoreId n) ∈ S →
    (∃ r : ℤ, ((l : ℤ) - r) % 2 ^ 32 < 2 ^ 31 ∧ ((m : ℤ) - r) % 2 ^ 32 < 2 ^ 31 ∧
      ((n : ℤ) - r) % 2 ^ 32 < 2 ^ 31) ∧
    (l % 2 ^ 32 = m % 2 ^ 32 → l = m)

namespace LevelDBKey

/-- The meta-data type of an object store meta-data key of the given store. -/
def metaDataTypeOf (databaseId objectStoreId : ℕ) : LevelDBKey → Option ℕ
  | .databaseMetaData d (.objectStoreMetaData os m) =>
    if d = databaseId ∧ os = objectStoreId then some m else none
  | _ => none

theorem metaDataTypeOf_eq_some {os m : ℕ} {k : LevelDBKey} (h : k.metaDataTypeOf d os = some m) :
    k = .databaseMetaData d (.objectStoreMetaData os m) := by
  unfold metaDataTypeOf at h
  split at h
  · split at h
    · next hd =>
      obtain ⟨rfl, rfl⟩ := hd
      rw [Option.some_inj.mp h]
    · cases h
  · cases h

theorem inWindow_of_metaDataTypeOf {base : ℕ → ℕ → ℤ} {k : LevelDBKey}
    (h : ∀ d os m, k.metaDataTypeOf d os = some m → ((m : ℤ) - base d os) % 2 ^ 32 < 2 ^ 31) :
    k.InWindow base := by
  cases k with
  | databaseMetaData d k =>
    cases k with
    | objectStoreMetaData os m => exact h d os m (if_pos ⟨rfl, rfl⟩)
    | _ => trivial
  | _ => trivial

/-- Three keys whose types fit have a common base. -/
theorem exists_base (hS : MetaDataTypesFit S) {a : LevelDBKey}
    (ha : a ∈ S) (hb : b ∈ S) (hc : c ∈ S) :
    ∃ base, a.InWindow base ∧ b.InWindow base ∧ c.InWindow base := by
  have hstore : ∀ d os, ∃ r : ℤ, ∀ k, (k = a ∨ k = b ∨ k = c) → ∀ m,
      k.metaDataTypeOf d os = some m → ((m : ℤ) - r) % 2 ^ 32 < 2 ^ 31 := by
    intro d os
    -- the types the three keys have in this store, at most three
    have hmem : ∀ k, (k = a ∨ k = b ∨ k = c) → ∀ m, k.metaDataTypeOf d os = some m →
        .databaseMetaData d (.objectStoreMetaData os m) ∈ S := by
      intro k hk m hm
      rw [← metaDataTypeOf_eq_some hm]
      rcases hk with rfl | rfl | rfl <;> assumption
    by_cases hnone : ∀ k, (k = a ∨ k = b ∨ k = c) → k.metaDataTypeOf d os = none
    · exact ⟨0, fun k hk m hm => absurd hm (by rw [hnone k hk]; simp)⟩
    · push Not at hnone
      obtain ⟨k₀, hk₀, hne⟩ := hnone
      obtain ⟨m₀, hm₀⟩ := Option.ne_none_iff_exists'.mp hne
      have hdef : ∀ k, (k = a ∨ k = b ∨ k = c) →
          .databaseMetaData d (.objectStoreMetaData os ((k.metaDataTypeOf d os).getD m₀)) ∈ S := by
        intro k hk
        cases hm : k.metaDataTypeOf d os with
        | none => exact hmem k₀ hk₀ m₀ hm₀
        | some m => exact hmem k hk m hm
      obtain ⟨⟨r, hra, hrb, hrc⟩, -⟩ := hS d os _ _ _ (hdef a (.inl rfl))
        (hdef b (.inr (.inl rfl))) (hdef c (.inr (.inr rfl)))
      refine ⟨r, fun k hk m hm => ?_⟩
      rcases hk with rfl | rfl | rfl
      · simpa [hm] using hra
      · simpa [hm] using hrb
      · simpa [hm] using hrc
  choose base hbase using hstore
  exact ⟨base, inWindow_of_metaDataTypeOf fun d os m hm => hbase d os a (.inl rfl) m hm,
    inWindow_of_metaDataTypeOf fun d os m hm => hbase d os b (.inr (.inl rfl)) m hm,
    inWindow_of_metaDataTypeOf fun d os m hm => hbase d os c (.inr (.inr rfl)) m hm⟩

/-- Two meta-data keys of one object store are compared by the truncated difference. -/
theorem compare_objectStoreMetaData {m n : ℕ}
    (hm : (databaseMetaData d (.objectStoreMetaData os m)).Valid)
    (hn : (databaseMetaData d (.objectStoreMetaData os n)).Valid) :
    compare (databaseMetaData d (.objectStoreMetaData os m)).encode
      (databaseMetaData d (.objectStoreMetaData os n)).encode false = toInt32 ((m : ℤ) - n) := by
  have hself : compareInts os os = 0 := by simp [compareInts]
  rw [encode, encode, DatabaseKey.compare_encode hm.1.1 hm.1.2]
  simp only [DatabaseKey.typeByte, sub_self]
  rw [if_neg (not_not.mpr rfl), DatabaseKey.compareFields_objectStoreMetaData hm.1.2 hm.2 hn.2,
    hself, if_neg (not_not.mpr rfl)]

end LevelDBKey

/-- A type that does not compare above `n`, nor at distance `2 ^ 31`, starts a window that
holds `n`. -/
theorem window_of_toInt32_nonpos (h : toInt32 (m - n) ≤ 0) (hne : toInt32 (m - n) ≠ -2 ^ 31) :
    (n - m) % 2 ^ 32 < 2 ^ 31 := by
  rw [toInt32, Int.bmod_def] at h hne
  split at h <;> split at hne <;> omega

theorem toInt32_ne_of_sign (h : Int.sign (toInt32 (m - n)) = -Int.sign (toInt32 (n - m))) :
    toInt32 (m - n) ≠ -2 ^ 31 := by
  intro heq
  have hswap : toInt32 (n - m) = -2 ^ 31 := by
    rw [toInt32, Int.bmod_def] at heq ⊢
    split at heq <;> split <;> omega
  rw [heq, hswap] at h
  exact absurd h (by decide)

/-- Of three elements of a total transitive relation one is below the others. -/
theorem exists_least_of_three {r : ℤ → ℤ → Prop} (htotal : r l m ∨ r m l)
    (hln : r l n ∨ r n l) (hmn : r m n ∨ r n m) (hl : r l l) (hm : r m m) (hn : r n n)
    (hnlm : r n l → r l m → r n m) (hnml : r n m → r m l → r n l) :
    ∃ x, (x = l ∨ x = m ∨ x = n) ∧ r x l ∧ r x m ∧ r x n := by
  rcases htotal with h | h
  · rcases hln with h' | h'
    · exact ⟨l, .inl rfl, hl, h, h'⟩
    · exact ⟨n, .inr (.inr rfl), h', hnlm h' h, hn⟩
  · rcases hmn with h' | h'
    · exact ⟨m, .inr (.inl rfl), h, hm, h'⟩
    · exact ⟨n, .inr (.inr rfl), hnml h' h, h', hn⟩

theorem metaDataTypesFit_of_comparesTotally (hS : ∀ k ∈ S, k.Valid)
    (h : ComparesTotally S) : MetaDataTypesFit S := by
  intro d os l m n hl hm hn
  have hsign : ∀ x y : ℕ, .databaseMetaData d (.objectStoreMetaData os x) ∈ S →
      .databaseMetaData d (.objectStoreMetaData os y) ∈ S →
      Int.sign (toInt32 ((x : ℤ) - y)) = -Int.sign (toInt32 ((y : ℤ) - x)) := by
    intro x y hx hy
    rw [← LevelDBKey.compare_objectStoreMetaData (hS _ hx) (hS _ hy),
      ← LevelDBKey.compare_objectStoreMetaData (hS _ hy) (hS _ hx)]
    exact h.sign_swap _ hx _ hy
  have htrans : ∀ x y z : ℕ, .databaseMetaData d (.objectStoreMetaData os x) ∈ S →
      .databaseMetaData d (.objectStoreMetaData os y) ∈ S →
      .databaseMetaData d (.objectStoreMetaData os z) ∈ S →
      toInt32 ((x : ℤ) - y) ≤ 0 → toInt32 ((y : ℤ) - z) ≤ 0 → toInt32 ((x : ℤ) - z) ≤ 0 := by
    intro x y z hx hy hz
    rw [← LevelDBKey.compare_objectStoreMetaData (hS _ hx) (hS _ hy),
      ← LevelDBKey.compare_objectStoreMetaData (hS _ hy) (hS _ hz),
      ← LevelDBKey.compare_objectStoreMetaData (hS _ hx) (hS _ hz)]
    exact h.trans _ hx _ hy _ hz
  have htotal : ∀ x y : ℕ, .databaseMetaData d (.objectStoreMetaData os x) ∈ S →
      .databaseMetaData d (.objectStoreMetaData os y) ∈ S →
      toInt32 ((x : ℤ) - y) ≤ 0 ∨ toInt32 ((y : ℤ) - x) ≤ 0 := by
    intro x y hx hy
    by_contra! hc
    have := hsign x y hx hy
    rw [Int.sign_eq_one_of_pos hc.1, Int.sign_eq_one_of_pos hc.2] at this
    exact absurd this (by decide)
  have hrefl : ∀ x : ℕ, toInt32 ((x : ℤ) - x) ≤ 0 := fun x => by simp [toInt32]
  constructor
  · -- the least of the three types is a base for all of them
    obtain ⟨x, hx, hxl, hxm, hxn⟩ := exists_least_of_three (r := fun x y => toInt32 (x - y) ≤ 0)
      (htotal l m hl hm) (htotal l n hl hn) (htotal m n hm hn) (hrefl l) (hrefl m) (hrefl n)
      (htrans n l m hn hl hm) (htrans n m l hn hm hl)
    have hwindow : ∀ y : ℕ, .databaseMetaData d (.objectStoreMetaData os y) ∈ S →
        toInt32 (x - y) ≤ 0 → ((y : ℤ) - x) % 2 ^ 32 < 2 ^ 31 := by
      intro y hy hxy
      refine window_of_toInt32_nonpos hxy (toInt32_ne_of_sign ?_)
      rcases hx with rfl | rfl | rfl
      · exact hsign l y hl hy
      · exact hsign m y hm hy
      · exact hsign n y hn hy
    exact ⟨x, hwindow l hl hxl, hwindow m hm hxm, hwindow n hn hxn⟩
  · intro hlm
    have hzero : compare (LevelDBKey.databaseMetaData d (.objectStoreMetaData os l)).encode
        (LevelDBKey.databaseMetaData d (.objectStoreMetaData os m)).encode false = 0 := by
      rw [LevelDBKey.compare_objectStoreMetaData (hS _ hl) (hS _ hm), toInt32, Int.bmod_def]
      split <;> omega
    have hsame : d = d ∧ DatabaseKey.objectStoreMetaData os l = .objectStoreMetaData os m :=
      h.sameFields _ hl _ hm hzero
    simpa using hsame.2

/-- **When the comparator is an order.**  On a set of valid keys the comparator is a total
preorder that ties only equal keys exactly when the meta-data types of every object store fit. -/
theorem comparesTotally_iff (S : Set LevelDBKey) (hS : ∀ k ∈ S, k.Valid) :
    ComparesTotally S ↔ MetaDataTypesFit S := by
  refine ⟨metaDataTypesFit_of_comparesTotally hS, fun hfit => ⟨?_, ?_, ?_⟩⟩
  · intro a ha b hb
    obtain ⟨base, hwa, hwb, -⟩ := LevelDBKey.exists_base hfit ha hb hb
    exact LevelDBKey.sign_compare_swap (hS a ha) (hS b hb) hwa hwb
  · intro a ha b hb c hc hab hbc
    obtain ⟨base, hwa, hwb, hwc⟩ := LevelDBKey.exists_base hfit ha hb hc
    rw [LevelDBKey.compare_nonpos_iff (hS a ha) (hS b hb) hwa hwb] at hab
    rw [LevelDBKey.compare_nonpos_iff (hS b hb) (hS c hc) hwb hwc] at hbc
    exact (LevelDBKey.compare_nonpos_iff (hS a ha) (hS c hc) hwa hwc).mpr (hab.trans hbc)
  · intro a ha b hb h
    obtain ⟨base, hwa, hwb, -⟩ := LevelDBKey.exists_base hfit ha hb hb
    refine LevelDBKey.sameFields_of_rank_eq (hS a ha) (hS b hb)
      ((LevelDBKey.compare_eq_zero_iff (hS a ha) (hS b hb) hwa hwb).mp h) ?_
    intro d os m n ham hbn
    exact (hfit d os m n n (ham ▸ ha) (hbn ▸ hb) (hbn ▸ hb)).2

/-- The types in use are 0 to 6, and `INT64_MAX` in the keys `encodeMaxKey` returns.  The key of a
record and of an index entry is one that `decodeIDBKey` gets through. -/
def LevelDBKey.InUse : LevelDBKey → Prop
  | .databaseMetaData _ (.objectStoreMetaData _ m) => m ≤ 6 ∨ m = INT64_MAX
  | .objectStoreData _ _ userKey => userKey.Decodable
  | .indexData _ _ _ userKey primaryKey _ => userKey.Decodable ∧ primaryKey.Decodable
  | _ => True

/-- On the keys in use the comparator is an order. -/
theorem comparesTotally_inUse : ComparesTotally {k | k.Valid ∧ k.InUse} := by
  refine (comparesTotally_iff _ fun k hk => hk.1).mpr fun d os l m n hl hm hn => ?_
  have hl' : l ≤ 6 ∨ l = INT64_MAX := hl.2
  have hm' : m ≤ 6 ∨ m = INT64_MAX := hm.2
  have hn' : n ≤ 6 ∨ n = INT64_MAX := hn.2
  rw [INT64_MAX] at hl' hm' hn'
  exact ⟨⟨2 ^ 63 - 1, by omega, by omega, by omega⟩, by omega⟩

/-- The types 0 and `2 ^ 31` of one object store are each below the other. -/
theorem not_comparesTotally_valid :
    compare (ObjectStoreMetaDataKey.encode 1 1 0) (ObjectStoreMetaDataKey.encode 1 1 (2 ^ 31))
        false < 0 ∧
      compare (ObjectStoreMetaDataKey.encode 1 1 (2 ^ 31)) (ObjectStoreMetaDataKey.encode 1 1 0)
        false < 0 ∧
      ¬ ComparesTotally {k | k.Valid} := by
  have h0 : (LevelDBKey.databaseMetaData 1 (.objectStoreMetaData 1 0)).Valid :=
    ⟨by decide, show 1 < 2 ^ 63 ∧ 0 < 2 ^ 63 by decide⟩
  have h1 : (LevelDBKey.databaseMetaData 1 (.objectStoreMetaData 1 (2 ^ 31))).Valid :=
    ⟨by decide, show 1 < 2 ^ 63 ∧ 2 ^ 31 < 2 ^ 63 by decide⟩
  have hlt : compare (ObjectStoreMetaDataKey.encode 1 1 0)
      (ObjectStoreMetaDataKey.encode 1 1 (2 ^ 31)) false = -2 ^ 31 :=
    LevelDBKey.compare_objectStoreMetaData h0 h1
  have hgt : compare (ObjectStoreMetaDataKey.encode 1 1 (2 ^ 31))
      (ObjectStoreMetaDataKey.encode 1 1 0) false = -2 ^ 31 :=
    LevelDBKey.compare_objectStoreMetaData h1 h0
  refine ⟨by rw [hlt]; decide, by rw [hgt]; decide, fun h => ?_⟩
  have hsign := h.sign_swap (.databaseMetaData 1 (.objectStoreMetaData 1 0)) h0
    (.databaseMetaData 1 (.objectStoreMetaData 1 (2 ^ 31))) h1
  rw [LevelDBKey.compare_objectStoreMetaData h0 h1,
    LevelDBKey.compare_objectStoreMetaData h1 h0] at hsign
  exact absurd hsign (by decide)

end IndexedDB
end WebKit
