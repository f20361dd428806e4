import Mathlib
import WebKit.IndexedDB.BackingStore

/-!
# Creating and deleting object stores

`createObjectStore` writes seven meta-data entries and a name entry.  `deleteObjectStore` is to
remove every key of the store, in five ranges and one name; `getObjectStores` parses the meta-data
entries of the committed database.

The range of the meta-data entries ends at the key `encodeMaxKey` returns, with the meta-data type
`INT64_MAX`.  The comparator truncates the difference of two types to an `int` and puts that key
below type 0, so the range is empty and the meta-data stays.
-/

namespace WebKit

open List
namespace IndexedDB

open LevelDB LevelDBTransaction

/-! ## The operations -/

variable (t : Transaction)

/-- The next object store id, if it and its successor fit. -/
def getNewObjectStoreId (d : DatabaseId) : Transaction × Option StoreId :=
  let maxObjectStoreId := (getInt t (d.databaseMetaDataKey .kMaxObjectStoreId)).getD 0
  let objectStoreId := (maxObjectStoreId + 1).toNat
  (putInt t (d.databaseMetaDataKey .kMaxObjectStoreId) objectStoreId,
    if h : 0 < objectStoreId ∧ objectStoreId + 1 < 2 ^ 63 then some ⟨d, objectStoreId, h.1, h.2⟩
    else none)

/-- A key path that is null is written as the empty string. -/
def createObjectStore (d : DatabaseId) (name : ShortString) (keyPath : Option UString)
    (autoIncrement : Bool) : Transaction × Option StoreId :=
  match getNewObjectStoreId t d with
  | (t, none) => (t, none)
  | (t, some s) =>
    let t := putString t (s.objectStoreMetaDataKey 0) name.units
    let t := putString t (s.objectStoreMetaDataKey 1) (keyPath.getD [])
    let t := putInt t (s.objectStoreMetaDataKey 2) (encodeBool autoIncrement)
    let t := putInt t (s.objectStoreMetaDataKey 3) (encodeBool false)
    let t := putInt t (s.objectStoreMetaDataKey 4) 1
    let t := putInt t (s.objectStoreMetaDataKey 5) kMinimumIndexId
    let t := putInt t (s.objectStoreMetaDataKey 6) (encodeBool keyPath.isSome)
    (putInt t (d.objectStoreNamesKey name) s.objectStoreId, some s)

def clearObjectStore (s : StoreId) : Transaction :=
  deleteRange t s.keyPrefix s.nextKeyPrefix

theorem INT64_MAX_lt : INT64_MAX < 2 ^ 63 := by decide

theorem INT64_MAX_inUse : INT64_MAX ≤ 6 ∨ INT64_MAX = INT64_MAX := .inr rfl

/-- The removals of `deleteObjectStore`, once the name has been read. -/
def deleteObjectStoreNamed (s : StoreId) (objectStoreName : ShortString) : Transaction :=
  let t := deleteRange t (s.objectStoreMetaDataKey 0) s.objectStoreMetaDataMaxKey
  let t := (t.remove (s.objectStoreNamesKey objectStoreName)).1
  let t := deleteRange t (s.indexFreeListKey 0 zero_lt_two_pow)
    (s.indexFreeListKey INT64_MAX INT64_MAX_lt)
  let t := deleteRange t (s.indexMetaDataKey 0 0 zero_lt_two_pow)
    (s.indexMetaDataKey INT64_MAX 255 INT64_MAX_lt)
  clearObjectStore t s

/-- The name of a store without one is the null string.  None stands for a CRASH of `getString`. -/
def deleteObjectStore (s : StoreId) : Option Transaction :=
  (getString t (s.objectStoreMetaDataKey 0)).bind fun objectStoreName =>
    if h : (objectStoreName.getD []).length ≤ 2 ^ 30 then
      some (deleteObjectStoreNamed t s ⟨objectStoreName.getD [], h⟩)
    else none

structure ObjectStoreInfo where
  id : ℤ
  name : UString
  keyPath : Option UString
  autoIncrement : Bool
  deriving DecidableEq

def checkObjectStoreAndMetaDataType (it : List (StoreKey × Bytes)) (stopKey : StoreKey)
    (objectStoreId metaDataType : ℤ) : Bool :=
  match it with
  | [] => false
  | e :: _ =>
    if 0 ≤ compareKeys e.1 stopKey then false
    else
      match ObjectStoreMetaDataKey.decode e.1.bytes with
      | none => false
      | some (metaDataKey, _) =>
        metaDataKey.m_objectStoreId = objectStoreId ∧ metaDataKey.m_metaDataType = metaDataType

/-- The value of an entry that must come next, and what follows it. -/
def expectObjectStoreMetaData (stopKey : StoreKey) (objectStoreId metaDataType : ℤ)
    (it : List (StoreKey × Bytes)) : Option (Bytes × List (StoreKey × Bytes)) :=
  if checkObjectStoreAndMetaDataType it stopKey objectStoreId metaDataType then
    some ((it.head?.map Prod.snd).getD [], it.tail)
  else none

/-- The optional last entry: whether the key path is not null. -/
def readHasKeyPath (stopKey : StoreKey) (objectStoreId : ℤ) (keyPath : UString)
    (it : List (StoreKey × Bytes)) : Option (Bool × List (StoreKey × Bytes)) :=
  match expectObjectStoreMetaData stopKey objectStoreId 6 it with
  | none => some (true, it)
  | some (value, it) =>
    if !decodeBool value && !keyPath.isEmpty then none else some (decodeBool value, it)

/-- The entries of one object store; `none` is an internal error, or a CRASH of `decodeString`. -/
def readObjectStore (stopKey : StoreKey) (e : StoreKey × Bytes) (it : List (StoreKey × Bytes)) :
    Option (ObjectStoreInfo × List (StoreKey × Bytes)) := do
  let (metaDataKey, _) ← ObjectStoreMetaDataKey.decode e.1.bytes
  if metaDataKey.m_metaDataType ≠ 0 then none
  else
    let objectStoreId := metaDataKey.m_objectStoreId
    let objectStoreName ← decodeString e.2
    let (keyPathValue, it) ← expectObjectStoreMetaData stopKey objectStoreId 1 it
    let (autoIncrement, it) ← expectObjectStoreMetaData stopKey objectStoreId 2 it
    let (_, it) ← expectObjectStoreMetaData stopKey objectStoreId 3 it
    let (_, it) ← expectObjectStoreMetaData stopKey objectStoreId 4 it
    let (_, it) ← expectObjectStoreMetaData stopKey objectStoreId 5 it
    let keyPath ← decodeString keyPathValue
    let (hasKeyPath, it) ← readHasKeyPath stopKey objectStoreId keyPath it
    some (⟨objectStoreId, objectStoreName, if hasKeyPath then some keyPath else none,
      decodeBool autoIncrement⟩, it)

def getObjectStoresLoop (stopKey : StoreKey) : ℕ → List (StoreKey × Bytes) → List ObjectStoreInfo
  | 0, _ => []
  | _ + 1, [] => []
  | n + 1, e :: it =>
    if compareKeys e.1 stopKey < 0 then
      match readObjectStore stopKey e it with
      | none => []
      | some (info, it) => info :: getObjectStoresLoop stopKey n it
    else []

/-- Every round reads an entry. -/
def getObjectStores (db : Database) (d : DatabaseId) : List ObjectStoreInfo :=
  let startKey := d.databaseKey (.objectStoreMetaData 1 0) ⟨by decide, by decide⟩
    (Or.inl (by decide))
  let stopKey := d.databaseKey (.objectStoreMetaData INT64_MAX INT64_MAX)
    ⟨INT64_MAX_lt, INT64_MAX_lt⟩ INT64_MAX_inUse
  getObjectStoresLoop stopKey (db.entries.length + 1) (db.entriesFrom startKey)

/-! ## The ranges -/

namespace StoreId

variable (s : StoreId) (k : StoreKey)

/-- The end of the meta-data range lies below its start. -/
theorem objectStoreMetaDataRange_empty :
    ¬ (rank (s.objectStoreMetaDataKey 0) ≤ rank k ∧ rank k < rank s.objectStoreMetaDataMaxKey) := by
  have hlt : rank s.objectStoreMetaDataMaxKey < rank (s.objectStoreMetaDataKey 0) := by
    refine compare_neg_iff.mp ?_
    have hcmp := LevelDBKey.compare_objectStoreMetaData s.objectStoreMetaDataMaxKey.valid
      (s.objectStoreMetaDataKey 0).valid
    exact hcmp.trans_lt (by decide)
  exact fun h => absurd (h.1.trans_lt h.2) (not_lt.mpr hlt.le)

theorem mem_indexFreeListRange : rank (s.indexFreeListKey 0 (by decide)) ≤ rank k ∧
        rank k < rank (s.indexFreeListKey INT64_MAX INT64_MAX_lt) ↔
      ∃ i < INT64_MAX,
        k.key = .databaseMetaData s.databaseId (.indexFreeList s.objectStoreId i) := by
  have hstart : rank (s.indexFreeListKey 0 (by decide)) =
    [(s.databaseId : ℤ), 0, 0, 151, s.objectStoreId] ++ [0] := rfl
  have hstop : rank (s.indexFreeListKey INT64_MAX INT64_MAX_lt) =
    [(s.databaseId : ℤ), 0, 0, 151, s.objectStoreId] ++ [(INT64_MAX : ℤ)] := rfl
  rw [hstart, hstop, append_le_and_lt_append]
  constructor
  · rintro ⟨y, hy, -, hlt⟩
    obtain ⟨k', hk, hrank⟩ := StoreKey.exists_databaseKey s.databaseId_pos hy
    obtain ⟨os, i, rfl, hf⟩ := DatabaseKey.exists_indexFreeList hrank
    obtain ⟨hos, rfl⟩ := cons_eq_cons.mp hf
    refine ⟨i, by simpa [cons_lt_cons_iff] using hlt, ?_⟩
    rw [hk, Int.natCast_inj.mp hos]
  · rintro ⟨i, hi, hk⟩
    refine ⟨[(i : ℤ)], ?_, ?_, by simpa [cons_lt_cons_iff] using hi⟩
    · rw [StoreKey.rank_def, hk]
      rfl
    · rw [← not_lt, cons_lt_cons_iff]
      simp

theorem mem_indexMetaDataRange : rank (s.indexMetaDataKey 0 0 (by decide)) ≤ rank k ∧
        rank k < rank (s.indexMetaDataKey INT64_MAX 255 INT64_MAX_lt) ↔
      ∃ (i : ℕ) (m : UInt8), ¬ (i = INT64_MAX ∧ m = 255) ∧
        k.key = .databaseMetaData s.databaseId (.indexMetaData s.objectStoreId i m) := by
  have hstart : rank (s.indexMetaDataKey 0 0 (by decide)) =
    [(s.databaseId : ℤ), 0, 0, 100, s.objectStoreId] ++ [0, 0] := rfl
  have hstop : rank (s.indexMetaDataKey INT64_MAX 255 INT64_MAX_lt) =
    [(s.databaseId : ℤ), 0, 0, 100, s.objectStoreId] ++ [(INT64_MAX : ℤ), 255] := rfl
  rw [hstart, hstop, append_le_and_lt_append]
  constructor
  · rintro ⟨y, hy, -, hlt⟩
    obtain ⟨k', hk, hrank⟩ := StoreKey.exists_databaseKey s.databaseId_pos hy
    obtain ⟨os, i, m, rfl, hf⟩ := DatabaseKey.exists_indexMetaData hrank
    obtain ⟨hos, rfl⟩ := cons_eq_cons.mp hf
    refine ⟨i, m, ?_, by rw [hk, Int.natCast_inj.mp hos]⟩
    rintro ⟨rfl, rfl⟩
    exact absurd hlt (lt_irrefl _)
  · rintro ⟨i, m, hne, hk⟩
    refine ⟨[(i : ℤ), (m.toNat : ℤ)], ?_, ?_, ?_⟩
    · rw [StoreKey.rank_def, hk]
      rfl
    · rw [← not_lt, cons_lt_cons_iff, cons_lt_cons_iff]
      simp
    · have hv := k.valid
      rw [hk] at hv
      have hi : i < 2 ^ 63 := hv.2.2
      have hm := m.toNat_lt
      have hm' : m.toNat = 255 → m = 255 := fun h => UInt8.toNat_inj.mp h
      simp only [cons_lt_cons_iff]
      rw [INT64_MAX] at hne ⊢
      by_cases hmax : i = 2 ^ 63 - 1
      · have hne' : m.toNat ≠ 255 := fun h => hne ⟨hmax, hm' h⟩
        omega
      · omega

/-- The range of `clearObjectStore` is the keys with the prefix of the store. -/
theorem mem_dataRange : rank s.keyPrefix ≤ rank k ∧ rank k < rank s.nextKeyPrefix ↔
      k.key.toPrefix.m_databaseId = s.databaseId ∧
        k.key.toPrefix.m_objectStoreId = s.objectStoreId := by
  have hstart : rank s.keyPrefix = [(s.databaseId : ℤ), (s.objectStoreId : ℤ), 0] := rfl
  have hstop : rank s.nextKeyPrefix = [(s.databaseId : ℤ), (s.objectStoreId + 1 : ℤ), 0] := rfl
  have hindex : 0 ≤ k.key.toPrefix.m_indexId := by
    cases hk : k.key <;> simp [LevelDBKey.toPrefix]
  rw [hstart, hstop, StoreKey.rank_def, LevelDBKey.rank, ← not_lt]
  simp only [cons_append, cons_lt_cons_iff, not_lt_nil, and_false, or_false]
  omega

end StoreId

/-! ## What is reported -/

variable {it it' : List (StoreKey × Bytes)} {stopKey : StoreKey} {info : ObjectStoreInfo}
  {s : StoreId} {t : Transaction}

theorem suffix_of_expectObjectStoreMetaData
    (h : expectObjectStoreMetaData stopKey objectStoreId metaDataType it = some (value, it')) :
    it' <:+ it := by
  rw [expectObjectStoreMetaData] at h
  split at h
  · cases h
    exact tail_suffix it
  · cases h

theorem suffix_of_readHasKeyPath
    (h : readHasKeyPath stopKey objectStoreId keyPath it = some (b, it')) : it' <:+ it := by
  rw [readHasKeyPath] at h
  split at h
  · cases h
    exact suffix_rfl
  · next value it₁ hit =>
    split at h
    · cases h
    · cases h
      exact suffix_of_expectObjectStoreMetaData hit

/-- A store that is read has the id of its first entry. -/
theorem readObjectStore_spec (h : readObjectStore stopKey e it = some (info, it')) :
    (∃ m r, ObjectStoreMetaDataKey.decode e.1.bytes = some (⟨info.id, m⟩, r)) ∧ it' <:+ it := by
  obtain ⟨⟨metaDataKey, r⟩, hdec, h⟩ := Option.bind_eq_some_iff.mp h
  simp only at h
  split at h
  · cases h
  · obtain ⟨name, -, h⟩ := Option.bind_eq_some_iff.mp h
    obtain ⟨⟨v₁, it₁⟩, h₁, h⟩ := Option.bind_eq_some_iff.mp h
    obtain ⟨⟨v₂, it₂⟩, h₂, h⟩ := Option.bind_eq_some_iff.mp h
    obtain ⟨⟨v₃, it₃⟩, h₃, h⟩ := Option.bind_eq_some_iff.mp h
    obtain ⟨⟨v₄, it₄⟩, h₄, h⟩ := Option.bind_eq_some_iff.mp h
    obtain ⟨⟨v₅, it₅⟩, h₅, h⟩ := Option.bind_eq_some_iff.mp h
    obtain ⟨keyPath, -, h⟩ := Option.bind_eq_some_iff.mp h
    obtain ⟨⟨b, it₆⟩, h₆, h⟩ := Option.bind_eq_some_iff.mp h
    cases h
    exact ⟨⟨_, r, hdec⟩, (suffix_of_readHasKeyPath h₆).trans <|
      (suffix_of_expectObjectStoreMetaData h₅).trans <|
      (suffix_of_expectObjectStoreMetaData h₄).trans <|
      (suffix_of_expectObjectStoreMetaData h₃).trans <|
      (suffix_of_expectObjectStoreMetaData h₂).trans (suffix_of_expectObjectStoreMetaData h₁)⟩

theorem exists_of_mem_getObjectStoresLoop (h : info ∈ getObjectStoresLoop stopKey n it) :
    ∃ e ∈ it, compareKeys e.1 stopKey < 0 ∧
      ∃ m r, ObjectStoreMetaDataKey.decode e.1.bytes = some (⟨info.id, m⟩, r) := by
  induction n generalizing it with
  | zero => simp [getObjectStoresLoop] at h
  | succ n ih =>
    cases it with
    | nil => simp [getObjectStoresLoop] at h
    | cons e it =>
      rw [getObjectStoresLoop] at h
      split at h
      · next hstop =>
        split at h
        · simp at h
        · next info' it' hread =>
          obtain ⟨hdec, hsuffix⟩ := readObjectStore_spec hread
          rcases mem_cons.mp h with rfl | h
          · exact ⟨e, mem_cons_self .., hstop, hdec⟩
          · obtain ⟨e', he', hrest⟩ := ih h
            exact ⟨e', mem_cons_of_mem e (hsuffix.mem he'), hrest⟩
      · simp at h

/-- A reported store has a meta-data entry. -/
theorem exists_of_mem_getObjectStores (h : info ∈ getObjectStores db d) :
    ∃ e ∈ db.entries, ∃ os m : ℕ,
      e.1.key = .databaseMetaData d.databaseId (.objectStoreMetaData os m) ∧ info.id = os := by
  obtain ⟨e, he, hstop, m, r, hdec⟩ := exists_of_mem_getObjectStoresLoop h
  obtain ⟨hmem, hstart⟩ := SortedMap.mem_entriesFrom.mp he
  have hrange := append_le_and_lt_append (p := [(d.databaseId : ℤ), 0, 0, 50]) (x := rank e.1)
    |>.mp ⟨hstart, compare_neg_iff.mp hstop⟩
  obtain ⟨y, hy, -⟩ := hrange
  obtain ⟨k', hk, hrank⟩ := StoreKey.exists_databaseKey d.databaseId_pos hy
  obtain ⟨os, m', rfl, -⟩ := DatabaseKey.exists_objectStoreMetaData hrank
  refine ⟨e, hmem, os, m', hk, ?_⟩
  have hv := e.1.valid
  rw [hk] at hv
  rw [StoreKey.bytes, hk] at hdec
  have hdec' := ObjectStoreMetaDataKey.decode_encode hv.1.2 hv.2.1 hv.2.2
  have heq := Option.some_inj.mp (hdec.symm.trans hdec')
  exact congrArg (fun k => k.1.m_objectStoreId) heq

/-! ## Deleting a store -/

namespace StoreId

/-- The keys that belong to an object store with the given name. -/
def Owns (s : StoreId) (name : Option UString) (k : StoreKey) : Prop :=
  match k.key with
  | .databaseMetaData d (.objectStoreMetaData os _) => d = s.databaseId ∧ os = s.objectStoreId
  | .databaseMetaData d (.objectStoreNames n) => d = s.databaseId ∧ name = some n
  | .databaseMetaData d (.indexFreeList os _) => d = s.databaseId ∧ os = s.objectStoreId
  | .databaseMetaData d (.indexMetaData os _ _) => d = s.databaseId ∧ os = s.objectStoreId
  | .keyPrefix d os => d = s.databaseId ∧ os = s.objectStoreId
  | .objectStoreData d os _ => d = s.databaseId ∧ os = s.objectStoreId
  | .existsEntry d os _ => d = s.databaseId ∧ os = s.objectStoreId
  | .indexData d os _ _ _ _ => d = s.databaseId ∧ os = s.objectStoreId
  | _ => False

end StoreId

/-- The meta-data keys of object stores, and the two keys at which the ranges of the index keys
end. -/
def StoreKey.Overlooked (k : StoreKey) : Prop :=
  match k.key with
  | .databaseMetaData _ (.objectStoreMetaData _ _) => True
  | .databaseMetaData _ (.indexFreeList _ i) => i = INT64_MAX
  | .databaseMetaData _ (.indexMetaData _ i m) => i = INT64_MAX ∧ m = 255
  | _ => False

namespace StoreId

variable (s : StoreId) (k : StoreKey)

/-- The keys that one of the steps of `deleteObjectStore` removes. -/
def Removed (name : ShortString) : Prop :=
  rank (s.objectStoreNamesKey name) = rank k ∨
    (∃ i < INT64_MAX, k.key = .databaseMetaData s.databaseId (.indexFreeList s.objectStoreId i)) ∨
    (∃ (i : ℕ) (m : UInt8), ¬ (i = INT64_MAX ∧ m = 255) ∧
      k.key = .databaseMetaData s.databaseId (.indexMetaData s.objectStoreId i m)) ∨
    (k.key.toPrefix.m_databaseId = s.databaseId ∧ k.key.toPrefix.m_objectStoreId = s.objectStoreId)

theorem rank_objectStoreNamesKey_eq_iff (name : ShortString) : rank (s.objectStoreNamesKey name) = rank k ↔
      k.key = .databaseMetaData s.databaseId (.objectStoreNames name.units) := by
  constructor
  · intro h
    have hsame := StoreKey.sameFields_of_rank_eq h
    obtain ⟨key, hvalid, hinUse⟩ := k
    cases key with
    | databaseMetaData d k' =>
      obtain ⟨hd, hk⟩ : s.databaseId = d ∧ DatabaseKey.objectStoreNames name.units = k' := hsame
      rw [hd, hk]
    | _ => exact hsame.elim
  · intro h
    rw [StoreKey.rank_def k, h]
    rfl

/-- What is removed is what belongs to the store and is not overlooked. -/
theorem removed_iff (name : ShortString) :
    s.Removed k name ↔ s.Owns (some name.units) k ∧ ¬ k.Overlooked := by
  have hv := k.valid
  have hos : (0 : ℤ) ≠ s.objectStoreId := by have := s.objectStoreId_pos; omega
  rw [Removed, rank_objectStoreNamesKey_eq_iff, Owns, StoreKey.Overlooked]
  cases hk : k.key with
  | globalMetaData k' => simp [LevelDBKey.toPrefix, hos]
  | databaseMetaData d k' =>
    rw [hk] at hv
    cases k' with
    | indexFreeList os i =>
      have hi : i < 2 ^ 63 := hv.2.2
      simp [LevelDBKey.toPrefix, INT64_MAX]
      omega
    | indexMetaData os i m =>
      simp [LevelDBKey.toPrefix, hos]
      tauto
    | objectStoreNames n =>
      simp [LevelDBKey.toPrefix, hos, eq_comm]
    | _ => simp [LevelDBKey.toPrefix, hos]
  | _ => simp [LevelDBKey.toPrefix]

variable {s k}

theorem Owns.of_none (h : s.Owns none k) (name : Option UString) : s.Owns name k := by
  rw [Owns] at h ⊢
  split <;> simp_all

/-- Only the entry of its name depends on the name of a store. -/
theorem eq_objectStoreNamesKey {hname : name.length ≤ 2 ^ 30} (h : s.Owns (some name) k)
    (h' : ¬ s.Owns none k) :
    k = s.objectStoreNamesKey ⟨name, hname⟩ := by
  obtain ⟨key, hvalid, hinUse⟩ := k
  cases key with
  | databaseMetaData d k' =>
    cases k' with
    | objectStoreNames n =>
      obtain ⟨rfl, hn⟩ := h
      obtain rfl := Option.some_inj.mp hn
      rfl
    | _ => exact absurd h h'
  | _ => exact absurd h h'

end StoreId

/-- What `deleteObjectStoreNamed` leaves. -/
theorem get_deleteObjectStoreNamed (t : Transaction) (s : StoreId) (name : ShortString) (k : StoreKey) :
    (s.Owns (some name.units) k ∧ ¬ k.Overlooked → (deleteObjectStoreNamed t s name).get k = none) ∧
    (¬ (s.Owns (some name.units) k ∧ ¬ k.Overlooked) →
      (deleteObjectStoreNamed t s name).get k = t.get k) := by
  classical
  rw [← s.removed_iff, StoreId.Removed]
  simp only [deleteObjectStoreNamed, clearObjectStore, get_deleteRange, get_remove,
    s.mem_indexFreeListRange, s.mem_indexMetaDataRange, s.mem_dataRange,
    if_neg (s.objectStoreMetaDataRange_empty k)]
  constructor
  · rintro (h | h | h | h)
    · rw [if_pos h, ite_self, ite_self, ite_self]
    · rw [if_pos h, ite_self, ite_self]
    · rw [if_pos h, ite_self]
    · rw [if_pos h]
  · rintro h
    push Not at h
    rw [if_neg (by push Not; exact h.2.2.2), if_neg (by push Not; exact h.2.2.1),
      if_neg (by push Not; exact h.2.1), if_neg h.1]

/-- The name in the meta-data of a store. -/
def storedName (t : Transaction) (s : StoreId) : Option UString :=
  (getString t (s.objectStoreMetaDataKey 0)).join

/-- What the deletion of an object store is to do. -/
structure DeletesObjectStore (t : Transaction) (s : StoreId) (t' : Transaction) : Prop where
  removed : ∀ k : StoreKey, s.Owns (storedName t s) k → t'.get k = none
  unchanged : ∀ k : StoreKey, ¬ s.Owns (storedName t s) k →
    t'.get k = t.get k
  notReported : ∀ info ∈ getObjectStores t'.commit s.toDatabaseId, info.id ≠ s.objectStoreId

theorem getObjectStores_commit_ne (h : ∀ k : StoreKey, s.Owns name k → t.get k = none) :
    ∀ info ∈ getObjectStores t.commit s.toDatabaseId, info.id ≠ s.objectStoreId := by
  intro info hinfo hid
  obtain ⟨e, he, os, m, hk, hos⟩ := exists_of_mem_getObjectStores hinfo
  obtain rfl : os = s.objectStoreId := by omega
  have hget : t.get e.1 = none := h e.1 (by rw [StoreId.Owns, hk]; exact ⟨rfl, rfl⟩)
  rw [← get_create_commit, get_eq_view, view_create, SortedMap.lookup_of_mem he] at hget
  cases hget

theorem length_nil_le : ([] : UString).length ≤ 2 ^ 30 := by decide

/-- No key of the store is overlooked, and no store of the database has the empty name. -/
def NothingOverlooked (t : Transaction) (s : StoreId) : Prop :=
  (∀ k : StoreKey, s.Owns none k → k.Overlooked → t.get k = none) ∧
    t.get (s.objectStoreNamesKey ⟨[], length_nil_le⟩) = none

theorem storedName_of_nothingOverlooked
    (h : ∀ k : StoreKey, s.Owns none k → k.Overlooked → t.get k = none) :
    storedName t s = none := by
  rw [storedName, getString, h (s.objectStoreMetaDataKey 0) ⟨rfl, rfl⟩ trivial]
  rfl

section

variable {name : ShortString} (hname : (storedName t s).getD [] = name.units)
include hname

theorem nothingOverlooked_of_deletes
    (h : DeletesObjectStore t s (deleteObjectStoreNamed t s name)) : NothingOverlooked t s := by
  have hover : ∀ k : StoreKey, s.Owns none k → k.Overlooked → t.get k = none := by
    intro k hown hk
    have hkeep := (get_deleteObjectStoreNamed t s name k).2 fun hc => hc.2 hk
    exact hkeep.symm.trans (h.removed k (hown.of_none _))
  refine ⟨hover, ?_⟩
  -- the store has no name, so the entry of the empty name is removed in its place
  have hnone := storedName_of_nothingOverlooked hover
  rw [hnone] at hname
  have hown : s.Owns (some name.units) (s.objectStoreNamesKey ⟨[], by decide⟩) :=
    ⟨rfl, by rw [← hname]; rfl⟩
  have hremoved := (get_deleteObjectStoreNamed t s name _).1 ⟨hown, id⟩
  have hkeep := h.unchanged (s.objectStoreNamesKey ⟨[], by decide⟩) fun hc => by
    rw [hnone] at hc
    exact absurd hc.2 (by simp)
  exact hkeep.symm.trans hremoved

theorem deletes_of_nothingOverlooked
    (h : NothingOverlooked t s) : DeletesObjectStore t s (deleteObjectStoreNamed t s name) := by
  have hnone := storedName_of_nothingOverlooked h.1
  have hremoved : ∀ k : StoreKey, s.Owns (storedName t s) k →
      (deleteObjectStoreNamed t s name).get k = none := by
    intro k hown
    rw [hnone] at hown
    by_cases hk : k.Overlooked
    · rw [(get_deleteObjectStoreNamed t s name k).2 fun hc => hc.2 hk, h.1 k hown hk]
    · exact (get_deleteObjectStoreNamed t s name k).1 ⟨hown.of_none _, hk⟩
  refine ⟨hremoved, fun k hown => ?_, getObjectStores_commit_ne hremoved⟩
  by_cases hk : s.Owns (some name.units) k ∧ ¬ k.Overlooked
  · rw [(get_deleteObjectStoreNamed t s name k).1 hk]
    rw [hnone] at hname hown
    obtain ⟨units, hlen⟩ := name
    obtain rfl : [] = units := hname
    rw [StoreId.eq_objectStoreNamesKey hk.1 hown]
    exact h.2.symm
  · exact (get_deleteObjectStoreNamed t s name k).2 hk

end

/-- **When a deletion deletes.**  A store is removed with all its keys, and with no others, exactly
when it has no meta-data entry to begin with and no store of the database has the empty name. -/
theorem deletesObjectStore_iff (t : Transaction) (s : StoreId)
    (h : (getString t (s.objectStoreMetaDataKey 0)).isSome) :
    ∃ t', deleteObjectStore t s = some t' ∧
      (DeletesObjectStore t s t' ↔ NothingOverlooked t s) := by
  obtain ⟨name, hname⟩ := Option.isSome_iff_exists.mp h
  have hlength : (name.getD []).length ≤ 2 ^ 30 := by
    cases name with
    | none => exact length_nil_le
    | some units =>
      rw [getString] at hname
      split at hname
      · cases hname
      · obtain ⟨units', hunits, heq⟩ := Option.map_eq_some_iff.mp hname
        cases heq
        exact length_decodeString hunits
  have hstored : (storedName t s).getD [] = name.getD [] := by
    rw [storedName, hname, Option.join_some]
  refine ⟨deleteObjectStoreNamed t s ⟨name.getD [], hlength⟩, ?_,
    nothingOverlooked_of_deletes hstored, deletes_of_nothingOverlooked hstored⟩
  rw [deleteObjectStore, hname, Option.bind_some, dif_pos hlength]

/-- A store without meta-data, in a database with another store, is deleted with its free list. -/
theorem deletesObjectStore_iff_freeList :
    let s : StoreId := ⟨⟨1, by decide, by decide⟩, 1, by decide, by decide⟩
    let other : StoreId := ⟨⟨1, by decide, by decide⟩, 2, by decide, by decide⟩
    let t : Transaction := (((LevelDBTransaction.create SortedMap.empty).put
      (other.objectStoreMetaDataKey 0) (encodeString [97])).1.put
        (s.indexFreeListKey 30 (by decide)) []).1
    NothingOverlooked t s ∧ (t.get (s.indexFreeListKey 30 (by decide))).isSome ∧
      ∃ t', deleteObjectStore t s = some t' ∧ DeletesObjectStore t s t' := by
  intro s other t
  have hget (k : StoreKey) (hfree : k ≠ s.indexFreeListKey 30 (by decide))
      (hname : k ≠ other.objectStoreMetaDataKey 0) : t.get k = none := by
    rw [get_put, if_neg fun h => hfree (DatabaseId.eq_databaseKey_of_rank h.symm), get_put,
      if_neg fun h => hname (DatabaseId.eq_databaseKey_of_rank h.symm)]
    rfl
  have hover : NothingOverlooked t s := by
    refine ⟨fun k hown hk => hget k ?_ ?_, hget _ nofun nofun⟩
    · rintro rfl
      exact absurd (show 30 = INT64_MAX from hk) (by decide)
    · rintro rfl
      exact absurd (show 2 = 1 from hown.2) (by decide)
  have hnone : t.get (s.objectStoreMetaDataKey 0) = none := hget _ nofun nofun
  have hstring : (getString t (s.objectStoreMetaDataKey 0)).isSome = true := by
    rw [getString, hnone]
    rfl
  obtain ⟨t', ht', hiff⟩ := deletesObjectStore_iff t s hstring
  refine ⟨hover, ?_, t', ht', hiff.mpr hover⟩
  rw [get_put, if_pos rfl]
  rfl

/-- A store that has just been created and is deleted is still reported after the commit. -/
theorem not_deletesObjectStore_created :
    let d : DatabaseId := ⟨1, by decide, by decide⟩
    let s : StoreId := ⟨d, 1, by decide, by decide⟩
    let t := createObjectStore (LevelDBTransaction.create SortedMap.empty) d ⟨[115], by decide⟩
      (some [107]) false
    t.2.map StoreId.objectStoreId = some 1 ∧ ∃ t', deleteObjectStore t.1 s = some t' ∧
      getObjectStores t'.commit d = [⟨1, [115], some [107], false⟩] ∧
      ¬ DeletesObjectStore t.1 s t' := by
  intro d s t
  have hreported : (deleteObjectStore t.1 s).map (fun t' => getObjectStores t'.commit d) =
      some [⟨1, [115], some [107], false⟩] := by decide +kernel
  obtain ⟨t', ht', hlist⟩ := Option.map_eq_some_iff.mp hreported
  refine ⟨by decide +kernel, t', ht', hlist, fun h => ?_⟩
  exact h.notReported ⟨1, [115], some [107], false⟩ (by rw [hlist]; exact mem_cons_self ..) rfl

end IndexedDB
end WebKit
