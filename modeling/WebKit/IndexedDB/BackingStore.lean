import WebKit.IndexedDB.KeyOrder
import WebKit.LevelDB.DeleteRange

/-!
# The backing store

The backing store keeps all of IndexedDB in one LevelDB database with the comparator `compare`.
This file instantiates the transactions of LevelDB at the keys of the store: a `StoreKey` is a key
that one of the key classes encodes, it is compared through its encoding, and its rank is the word
of the key.  With it come the ids an operation of the store is called with, the keys it builds of
them, and the readers and writers of single values.

A range of keys is a set of words that share a beginning; `StoreKey.eq_of_rank` reads the class and
the fields of a key off its word.
-/

namespace WebKit

open List

/-- The words between two continuations of one word continue it. -/
theorem append_le_and_lt_append {α : Type*} [LinearOrder α] {p a b x : List α} :
    p ++ a ≤ x ∧ x < p ++ b ↔ ∃ y, x = p ++ y ∧ a ≤ y ∧ y < b := by
  induction p generalizing x with
  | nil => simp
  | cons c p ih =>
    cases x with
    | nil => simp
    | cons d x =>
      have hcons : c :: (p ++ a) ≤ d :: x ↔ c < d ∨ c = d ∧ p ++ a ≤ x := by
        rw [le_iff_lt_or_eq, le_iff_lt_or_eq, cons_lt_cons_iff, cons_eq_cons]
        tauto
      rw [cons_append, cons_append, hcons, cons_lt_cons_iff]
      constructor
      · rintro ⟨hle | ⟨rfl, hle⟩, hlt | ⟨hcd, hlt⟩⟩
        · exact absurd hle (not_lt.mpr hlt.le)
        · exact absurd hcd hle.ne'
        · exact absurd hlt (lt_irrefl _)
        · obtain ⟨y, rfl, hy⟩ := ih.mp ⟨hle, hlt⟩
          exact ⟨y, rfl, hy⟩
      · rintro ⟨y, hy, hay, hyb⟩
        obtain ⟨rfl, rfl⟩ := cons_eq_cons.mp hy
        obtain ⟨hle, hlt⟩ := ih.mpr ⟨y, rfl, hay, hyb⟩
        exact ⟨Or.inr ⟨rfl, hle⟩, Or.inr ⟨rfl, hlt⟩⟩

namespace IndexedDB

open LevelDB LevelDBTransaction

/-! ## The keys of the store -/

/-- A key of the store. -/
@[ext] structure StoreKey where
  key : LevelDBKey
  valid : key.Valid
  inUse : key.InUse

namespace StoreKey

/-- The bytes LevelDB sees. -/
def bytes (k : StoreKey) : Bytes := k.key.encode

instance : Comparator StoreKey := ⟨fun a b => compare a.bytes b.bytes false⟩

/-- The meta-data types count from `INT64_MAX`, which the comparator puts below 0. -/
def typeBase : ℕ → ℕ → ℤ := fun _ _ => INT64_MAX

theorem inWindow (k : StoreKey) : k.key.InWindow typeBase := by
  refine LevelDBKey.inWindow_of_metaDataTypeOf fun d os m hm => ?_
  have hu := k.inUse
  rw [LevelDBKey.metaDataTypeOf_eq_some hm] at hu
  have hm' : m ≤ 6 ∨ m = INT64_MAX := hu
  rw [typeBase]
  rw [INT64_MAX] at hm' ⊢
  omega

instance : Ranked StoreKey (List ℤ) where
  rank k := k.key.rank typeBase
  compare_neg_iff a b := LevelDBKey.compare_neg_iff a.valid b.valid a.inWindow b.inWindow
  compare_eq_zero_iff a b := LevelDBKey.compare_eq_zero_iff a.valid b.valid a.inWindow b.inWindow

theorem rank_def (k : StoreKey) : rank k = k.key.rank typeBase := rfl

variable {a b : StoreKey}

/-- The word of a key in use determines its fields. -/
theorem sameFields_of_rank_eq (h : rank a = rank b) : a.key.SameFields b.key := by
  refine LevelDBKey.sameFields_of_rank_eq a.valid b.valid h fun d os m n hm hn hmn => ?_
  have ha := a.inUse
  have hb := b.inUse
  rw [hm] at ha
  rw [hn] at hb
  have ha' : m ≤ 6 ∨ m = INT64_MAX := ha
  have hb' : n ≤ 6 ∨ n = INT64_MAX := hb
  rw [INT64_MAX] at ha' hb'
  omega

theorem kind_eq_of_toPrefix_eq (h : a.key.toPrefix = b.key.toPrefix) : a.key.kind = b.key.kind := by
  rw [← LevelDBKey.type_toPrefix a.valid, ← LevelDBKey.type_toPrefix b.valid, h]

theorem kind_eq_of_rank_eq (h : rank a = rank b) : a.key.kind = b.key.kind :=
  kind_eq_of_toPrefix_eq (LevelDBKey.toPrefix_eq_of_rank_eq h).1

/-- Keys of different kinds are different entries. -/
theorem rank_ne_of_kind (h : a.key.kind ≠ b.key.kind) : rank a ≠ rank b :=
  fun hr => h (kind_eq_of_rank_eq hr)

/-- A word that starts with (database id, 0, 0) is the one of a database key. -/
theorem exists_databaseKey {k : StoreKey} {d : ℕ} (hd : 0 < d)
    (h : rank k = (d : ℤ) :: 0 :: 0 :: y) :
    ∃ k', k.key = .databaseMetaData d k' ∧ k'.rank (typeBase d) = y := by
  obtain ⟨key, hvalid, hinUse⟩ := k
  have h' : key.rank typeBase = (d : ℤ) :: 0 :: 0 :: y := h
  cases key with
  | globalMetaData k' =>
    have hd' : (0 : ℤ) = d := (cons_eq_cons.mp h').1
    omega
  | databaseMetaData d' k' =>
    obtain ⟨hd', hrest⟩ := cons_eq_cons.mp h'
    obtain rfl : d' = d := Int.natCast_inj.mp hd'
    exact ⟨k', rfl, (cons_eq_cons.mp (cons_eq_cons.mp hrest).2).2⟩
  | keyPrefix d' os =>
    have hos : (os : ℤ) = 0 := (cons_eq_cons.mp (cons_eq_cons.mp h').2).1
    have hpos := hvalid.2.1
    omega
  | objectStoreData d' os u =>
    have hos : (os : ℤ) = 0 := (cons_eq_cons.mp (cons_eq_cons.mp h').2).1
    have hpos := hvalid.2.1.1
    omega
  | existsEntry d' os u =>
    have hos : (os : ℤ) = 0 := (cons_eq_cons.mp (cons_eq_cons.mp h').2).1
    have hpos := hvalid.2.1.1
    omega
  | indexData d' os i u p n =>
    have hos : (os : ℤ) = 0 := (cons_eq_cons.mp (cons_eq_cons.mp h').2).1
    have hpos := hvalid.2.1.1
    omega

end StoreKey

namespace DatabaseKey

variable {base : ℕ → ℤ} {k : DatabaseKey} {y : List ℤ}

theorem typeByte_of_rank {t : UInt8} (h : k.rank base = (t.toNat : ℤ) :: y) : k.typeByte = t :=
  UInt8.toNat_inj.mp (Int.natCast_inj.mp (cons_eq_cons.mp h).1)

theorem exists_objectStoreMetaData (h : k.rank base = 50 :: y) :
    ∃ os m : ℕ, k = .objectStoreMetaData os m ∧ y = [(os : ℤ), ((m : ℤ) - base os) % 2 ^ 32] := by
  have ht := typeByte_of_rank (t := kObjectStoreMetaDataTypeByte) h
  cases k with
  | objectStoreMetaData os m => exact ⟨os, m, rfl, (cons_eq_cons.mp h).2.symm⟩
  | databaseMetaData m => cases m <;> exact absurd ht (by decide)
  | _ => exact absurd ht (by simp only [typeByte]; decide)

theorem exists_indexMetaData (h : k.rank base = 100 :: y) :
    ∃ (os i : ℕ) (t : UInt8), k = .indexMetaData os i t ∧
      y = [(os : ℤ), (i : ℤ), (t.toNat : ℤ)] := by
  have ht := typeByte_of_rank (t := kIndexMetaDataTypeByte) h
  cases k with
  | indexMetaData os i t => exact ⟨os, i, t, rfl, (cons_eq_cons.mp h).2.symm⟩
  | databaseMetaData m => cases m <;> exact absurd ht (by decide)
  | _ => exact absurd ht (by simp only [typeByte]; decide)

theorem exists_indexFreeList (h : k.rank base = 151 :: y) : ∃ os i : ℕ, k = .indexFreeList os i ∧
      y = [(os : ℤ), (i : ℤ)] := by
  have ht := typeByte_of_rank (t := kIndexFreeListTypeByte) h
  cases k with
  | indexFreeList os i => exact ⟨os, i, rfl, (cons_eq_cons.mp h).2.symm⟩
  | databaseMetaData m => cases m <;> exact absurd ht (by decide)
  | _ => exact absurd ht (by simp only [typeByte]; decide)

end DatabaseKey

/-! ## Ids and the keys built of them -/

/-- The database an operation is called for; its id is not the one of the global keys. -/
structure DatabaseId where
  databaseId : ℕ
  databaseId_pos : 0 < databaseId
  databaseId_lt : databaseId < 2 ^ 63

/-- The object store an operation is called for.  The id after its own ends its range and fits
too. -/
structure StoreId extends DatabaseId where
  objectStoreId : ℕ
  objectStoreId_pos : 0 < objectStoreId
  objectStoreId_lt : objectStoreId + 1 < 2 ^ 63

/-- An index id as `IndexDataKey` has it. -/
structure IndexId where
  val : ℕ
  le_val : kMinimumIndexId ≤ val
  val_lt : val < 2 ^ 32

/-- What `encodeIDBKey`, `minIDBKey` and `maxIDBKey` encode. -/
structure BoundKey where
  key : UserKey
  valid : key.Valid
  noNaN : key.NoNaN
  decodable : key.Decodable

/-- The key of a record, which `decodeIDBKey` gets through. -/
structure RecordKey where
  key : IDBKey
  valid : key.Valid
  noNaN : key.NoNaN
  decodable : key.Decodable

/-- A `String` that `decodeString` gets through. -/
structure ShortString where
  units : UString
  length_le : units.length ≤ 2 ^ 30

def RecordKey.toBound (k : RecordKey) : BoundKey := ⟨.key k.key, k.valid, k.noNaN, k.decodable⟩

def BoundKey.min : BoundKey := ⟨.min, trivial, trivial, trivial⟩

def BoundKey.max : BoundKey := ⟨.max, trivial, trivial, trivial⟩

namespace DatabaseId

variable (d : DatabaseId)

/-- A key with the prefix of the database. -/
def databaseKey (k : DatabaseKey) (h : k.Valid)
    (h' : (LevelDBKey.databaseMetaData d.databaseId k).InUse) : StoreKey :=
  ⟨.databaseMetaData d.databaseId k, ⟨⟨d.databaseId_pos, d.databaseId_lt⟩, h⟩, h'⟩

def databaseMetaDataKey (metaDataType : DatabaseMetaDataKey.MetaDataType) : StoreKey :=
  d.databaseKey (.databaseMetaData metaDataType) trivial trivial

def objectStoreNamesKey (name : ShortString) : StoreKey :=
  d.databaseKey (.objectStoreNames name.units) name.length_le trivial

variable {d}

/-- Different database keys are different entries. -/
theorem rank_databaseKey_eq_iff :
    rank (d.databaseKey k h hu) = rank (d.databaseKey k' h' hu') ↔ k = k' := by
  refine ⟨fun hr => ?_, fun hk => by subst hk; rfl⟩
  have hsame : d.databaseId = d.databaseId ∧ k = k' := StoreKey.sameFields_of_rank_eq hr
  exact hsame.2

/-- A database key is the only key of its rank. -/
theorem eq_databaseKey_of_rank
    (hr : rank a = rank (d.databaseKey k h hu)) : a = d.databaseKey k h hu := by
  have hsame := StoreKey.sameFields_of_rank_eq hr
  obtain ⟨key, hvalid, hinUse⟩ := a
  cases key with
  | databaseMetaData d' k' =>
    obtain ⟨rfl, rfl⟩ : d' = d.databaseId ∧ k' = k := hsame
    rfl
  | _ => exact hsame.elim

end DatabaseId

/-- For the types of meta-data. -/
scoped instance neZero_seven : NeZero 7 := ⟨by decide⟩

theorem zero_lt_two_pow : 0 < 2 ^ 63 := by decide

namespace StoreId

variable (s : StoreId)

theorem lt : s.objectStoreId < 2 ^ 63 := Nat.lt_of_succ_lt s.objectStoreId_lt

def objectStoreMetaDataKey (metaDataType : Fin 7) : StoreKey :=
  s.databaseKey (.objectStoreMetaData s.objectStoreId metaDataType)
    ⟨s.lt, metaDataType.isLt.trans (by decide)⟩ (Or.inl (Nat.le_of_lt_succ metaDataType.isLt))

/-- `ObjectStoreMetaDataKey::encodeMaxKey`. -/
def objectStoreMetaDataMaxKey : StoreKey :=
  s.databaseKey (.objectStoreMetaData s.objectStoreId INT64_MAX) ⟨s.lt, by decide⟩ (Or.inr rfl)

def indexFreeListKey (indexId : ℕ) (h : indexId < 2 ^ 63) : StoreKey :=
  s.databaseKey (.indexFreeList s.objectStoreId indexId) ⟨s.lt, h⟩ trivial

def indexMetaDataKey (indexId : ℕ) (metaDataType : UInt8) (h : indexId < 2 ^ 63) : StoreKey :=
  s.databaseKey (.indexMetaData s.objectStoreId indexId metaDataType) ⟨s.lt, h⟩ trivial

/-- The prefix in front of every data key of the object store. -/
def keyPrefix : StoreKey :=
  ⟨.keyPrefix s.databaseId s.objectStoreId, ⟨⟨s.databaseId_pos, s.databaseId_lt⟩,
    s.objectStoreId_pos, s.lt⟩, trivial⟩

/-- The prefix behind every data key of the object store. -/
def nextKeyPrefix : StoreKey :=
  ⟨.keyPrefix s.databaseId (s.objectStoreId + 1), ⟨⟨s.databaseId_pos, s.databaseId_lt⟩,
    Nat.succ_pos _, s.objectStoreId_lt⟩, trivial⟩

def objectStoreDataKey (key : BoundKey) : StoreKey :=
  ⟨.objectStoreData s.databaseId s.objectStoreId key.key, ⟨⟨s.databaseId_pos, s.databaseId_lt⟩,
    ⟨s.objectStoreId_pos, s.lt⟩, key.valid, key.noNaN⟩, key.decodable⟩

def existsEntryKey (key : BoundKey) : StoreKey :=
  ⟨.existsEntry s.databaseId s.objectStoreId key.key, ⟨⟨s.databaseId_pos, s.databaseId_lt⟩,
    ⟨s.objectStoreId_pos, s.lt⟩, key.valid, key.noNaN⟩, trivial⟩

def indexDataKey (indexId : IndexId) (key primaryKey : BoundKey) (sequenceNumber : ℕ)
    (h : sequenceNumber < 2 ^ 63) : StoreKey :=
  ⟨.indexData s.databaseId s.objectStoreId indexId.val key.key primaryKey.key sequenceNumber,
    ⟨⟨s.databaseId_pos, s.databaseId_lt⟩, ⟨s.objectStoreId_pos, s.lt⟩,
      ⟨indexId.le_val, indexId.val_lt⟩, ⟨key.valid, key.noNaN⟩,
      ⟨primaryKey.valid, primaryKey.noNaN⟩, h⟩, key.decodable, primaryKey.decodable⟩

variable {s}
variable {p q : BoundKey}

/-- A key with the prefix of the records of a store is the key of a record, or a bound of them. -/
theorem exists_objectStoreDataKey {a : StoreKey}
    (h : a.key.toPrefix = (s.objectStoreDataKey p).key.toPrefix) :
    ∃ q, a = s.objectStoreDataKey q := by
  have hkind := StoreKey.kind_eq_of_toPrefix_eq h
  obtain ⟨key, hvalid, hinUse⟩ := a
  cases key with
  | objectStoreData d os u =>
    obtain ⟨hd, hos⟩ : (d : ℤ) = s.databaseId ∧ (os : ℤ) = s.objectStoreId := by
      simpa [LevelDBKey.toPrefix, objectStoreDataKey] using h
    obtain rfl := Int.natCast_inj.mp hd
    obtain rfl := Int.natCast_inj.mp hos
    exact ⟨⟨u, hvalid.2.2.1, hvalid.2.2.2, hinUse⟩, rfl⟩
  | _ => exact absurd hkind (by simp [LevelDBKey.kind, objectStoreDataKey])

theorem rank_objectStoreDataKey (p : BoundKey) : rank (s.objectStoreDataKey p) =
      [(s.databaseId : ℤ), (s.objectStoreId : ℤ), (kObjectStoreDataIndexId : ℤ)] ++ p.key.rank := rfl

theorem rank_objectStoreDataKey_eq_iff :
    rank (s.objectStoreDataKey p) = rank (s.objectStoreDataKey q) ↔ p.key.rank = q.key.rank :=
  append_right_inj _

theorem rank_objectStoreDataKey_lt_iff :
    rank (s.objectStoreDataKey p) < rank (s.objectStoreDataKey q) ↔ p.key.rank < q.key.rank := by
  have hlex := p.key.lexOf_rank q.key
  rw [rank_objectStoreDataKey, rank_objectStoreDataKey, ((LexOf.refl _).append hlex).lt_iff,
    hlex.lt_iff]
  rfl

/-- The records lie in the order of their keys. -/
theorem rank_toBound_lt_iff {k k' : RecordKey} :
    rank (s.objectStoreDataKey k.toBound) < rank (s.objectStoreDataKey k'.toBound) ↔
      k.key.referenceCompare k'.key = .lt :=
  rank_objectStoreDataKey_lt_iff.trans (k.key.lexOf_rank k'.key).lt_iff

theorem rank_toBound_eq_iff {k k' : RecordKey} :
    rank (s.objectStoreDataKey k.toBound) = rank (s.objectStoreDataKey k'.toBound) ↔
      k.key.referenceCompare k'.key = .eq :=
  rank_objectStoreDataKey_eq_iff.trans (k.key.lexOf_rank k'.key).eq_iff

theorem rank_toBound_le_iff {k k' : RecordKey} :
    rank (s.objectStoreDataKey k.toBound) ≤ rank (s.objectStoreDataKey k'.toBound) ↔
      k.key.referenceCompare k'.key ≠ .gt := by
  rw [le_iff_lt_or_eq, rank_toBound_lt_iff, rank_toBound_eq_iff]
  cases k.key.referenceCompare k'.key <;> simp

/-- Between two keys of records lie only keys of records. -/
theorem exists_of_rank_between {a : StoreKey} (hp : rank (s.objectStoreDataKey p) ≤ rank a)
    (hq : rank a ≤ rank (s.objectStoreDataKey q)) : ∃ r, a = s.objectStoreDataKey r := by
  obtain ⟨y, hy⟩ : ∃ y, rank a =
      [(s.databaseId : ℤ), (s.objectStoreId : ℤ), (kObjectStoreDataIndexId : ℤ)] ++ y := by
    rcases lt_or_eq_of_le hq with hlt | heq
    · obtain ⟨y, hy, -⟩ := append_le_and_lt_append.mp ⟨hp, hlt⟩
      exact ⟨y, hy⟩
    · exact ⟨q.key.rank, heq⟩
  refine exists_objectStoreDataKey (p := p) ?_
  rw [StoreKey.rank_def, LevelDBKey.rank, cons_append, cons_append, cons_append,
    cons_append, cons_append, cons_append, cons_eq_cons, cons_eq_cons,
    cons_eq_cons] at hy
  rw [KeyPrefix.ext_iff]
  exact ⟨hy.1, hy.2.1, hy.2.2.1⟩

@[simp] theorem kind_objectStoreMetaDataKey (m : Fin 7) :
    (s.objectStoreMetaDataKey m).key.kind = .kDatabaseMetaData := rfl

@[simp] theorem kind_objectStoreDataKey (p : BoundKey) :
    (s.objectStoreDataKey p).key.kind = .kObjectStoreData := rfl

@[simp] theorem kind_existsEntryKey (p : BoundKey) :
    (s.existsEntryKey p).key.kind = .kExistsEntry := rfl

@[simp] theorem kind_indexDataKey (i : IndexId) (u p : BoundKey) (n : ℕ) (h : n < 2 ^ 63) :
    (s.indexDataKey i u p n h).key.kind = .kIndexData := rfl

end StoreId

/-- Compares index keys without their primary key and sequence number. -/
def compareIndexKeys (a b : StoreKey) : ℤ := compare a.bytes b.bytes true

theorem compareIndexKeys_of_kind (h : b.key.kind ≠ .kIndexData) :
    compareIndexKeys a b = compareKeys a b :=
  LevelDBKey.compare_indexKeys_of_kind a.valid b.valid h true

theorem toPrefix_eq_of_compareIndexKeys (h : compareIndexKeys a b = 0) :
    a.key.toPrefix = b.key.toPrefix := by
  refine LevelDBKey.eq_of_prefix_compare_eq_zero ?_
  by_contra hne
  exact hne ((LevelDBKey.compare_of_prefix_ne a.valid b.valid hne true).symm.trans h)

/-! ## Reading and writing single values -/

/-- The values are byte strings; a removed key has the empty one. -/
abbrev Transaction := LevelDBTransaction StoreKey Bytes

abbrev Database := SortedMap StoreKey Bytes

variable (t : Transaction) (key : StoreKey)

def getInt : Option ℤ := (t.get key).map decodeInt

def putInt (value : ℕ) : Transaction :=
  (t.put key (encodeInt value)).1

/-- The null string for a key that is not there.  None stands for a CRASH of `decodeString`. -/
def getString : Option (Option UString) :=
  match t.get key with
  | none => some none
  | some value => (decodeString value).map some

def putString (value : UString) : Transaction :=
  (t.put key (encodeString value)).1

/-- A `bool` is stored as an integer and read as the first byte. -/
def encodeBool (b : Bool) : ℕ := if b then 1 else 0

def decodeBool (value : Bytes) : Bool := value.headD 0 ≠ 0

theorem decodeBool_encodeInt_encodeBool (b : Bool) : decodeBool (encodeInt (encodeBool b)) = b := by
  cases b <;> rfl

end IndexedDB
end WebKit
