import WebKit.IndexedDB.BackingStore

/-!
# Creating and deleting indexes

`createIndex` writes four meta-data entries for an index, `deleteIndex` removes three of them, and
`getIndexes` parses the meta-data entries of a committed database in the order of their keys.

The entries a sequence of operations leaves are those of an `IndexTable`, which keeps every index
ever created and marks the deleted ones.  A deleted index leaves its multi-entry flag behind, and
the parser stops at it: it reports the indexes in front of the first deleted one.
-/

namespace WebKit

open List Option
namespace IndexedDB

open LevelDB LevelDBTransaction

/-! ## The operations -/

variable (t : Transaction) (s : StoreId)

def getNewIndexId : Transaction × ℤ :=
  let maxIndexId := (getInt t (s.objectStoreMetaDataKey 5)).getD kMinimumIndexId
  let indexId := maxIndexId + 1
  (putInt t (s.objectStoreMetaDataKey 5) indexId.toNat, indexId)

/-- The transaction and the id of the new index, if there is one. -/
def createIndex (name keyPath : ShortString) (isUnique isMultiEntry : Bool) : Transaction × Option ℕ :=
  let (t, indexId) := getNewIndexId t s
  if h : 0 ≤ indexId ∧ indexId.toNat < 2 ^ 63 then
    let t := putString t (s.indexMetaDataKey indexId.toNat 0 h.2) name.units
    let t := putInt t (s.indexMetaDataKey indexId.toNat 1 h.2) (encodeBool isUnique)
    let t := putString t (s.indexMetaDataKey indexId.toNat 2 h.2) keyPath.units
    let t := putInt t (s.indexMetaDataKey indexId.toNat 3 h.2) (encodeBool isMultiEntry)
    (t, some indexId.toNat)
  else (t, none)

theorem IndexId.lt (i : IndexId) : i.val < 2 ^ 63 := i.val_lt.trans (by decide)

def deleteIndex (indexId : IndexId) : Transaction :=
  let t := (t.remove (s.indexMetaDataKey indexId.val 0 indexId.lt)).1
  let t := (t.remove (s.indexMetaDataKey indexId.val 1 indexId.lt)).1
  let t := (t.remove (s.indexMetaDataKey indexId.val 2 indexId.lt)).1
  deleteRange t (s.indexDataKey indexId .min .min 0 (by decide))
    (s.indexDataKey indexId .max .max INT64_MAX (by decide))

structure IndexInfo where
  id : ℤ
  name : UString
  keyPath : UString
  unique : Bool
  multiEntry : Bool
  deriving DecidableEq

def checkIndexAndMetaDataKey (it : List (StoreKey × Bytes)) (stopKey : StoreKey) (indexId : ℤ)
    (metaDataType : UInt8) : Bool :=
  match it with
  | [] => false
  | e :: _ =>
    if 0 ≤ compareKeys e.1 stopKey then false
    else
      match IndexMetaDataKey.decode e.1.bytes with
      | none => false
      | some (metaDataKey, _) =>
        metaDataKey.m_indexId = indexId ∧ metaDataKey.m_metaDataType = metaDataType

/-- The value of an entry that is checked for, and what follows it. -/
def expectIndexMetaData (stopKey : StoreKey) (indexId : ℤ) (metaDataType : UInt8)
    (it : List (StoreKey × Bytes)) : Option (Bytes × List (StoreKey × Bytes)) :=
  if checkIndexAndMetaDataKey it stopKey indexId metaDataType then
    some ((it.head?.map Prod.snd).getD [], it.tail)
  else none

/-- The entries of one index; `none` is an internal error, or a CRASH of `decodeString`.  The type of the first entry is only
asserted to be 0, and the multi-entry flag is optional. -/
def readIndex (stopKey : StoreKey) (e : StoreKey × Bytes) (it : List (StoreKey × Bytes)) :
    Option (IndexInfo × List (StoreKey × Bytes)) := do
  let (metaDataKey, _) ← IndexMetaDataKey.decode e.1.bytes
  let indexId := metaDataKey.m_indexId
  let indexName ← decodeString e.2
  let (indexUnique, it) ← expectIndexMetaData stopKey indexId 1 it
  let (keyPath, it) ← expectIndexMetaData stopKey indexId 2 it
  let keyPath ← decodeString keyPath
  let (indexMultiEntry, it) :=
    match expectIndexMetaData stopKey indexId 3 it with
    | none => (false, it)
    | some (value, it) => (decodeBool value, it)
  some (⟨indexId, indexName, keyPath, decodeBool indexUnique,
    indexMultiEntry⟩, it)

def getIndexesLoop (stopKey : StoreKey) : ℕ → List (StoreKey × Bytes) → List IndexInfo
  | 0, _ => []
  | _ + 1, [] => []
  | n + 1, e :: it =>
    if compareKeys e.1 stopKey < 0 then
      match readIndex stopKey e it with
      | none => []
      | some (info, it) => info :: getIndexesLoop stopKey n it
    else []

/-- The first key behind the index meta-data of the object store. -/
def StoreId.nextIndexMetaDataKey (s : StoreId) : StoreKey :=
  s.databaseKey (.indexMetaData (s.objectStoreId + 1) 0 0) ⟨s.objectStoreId_lt, by decide⟩ trivial

/-- Every round reads an entry. -/
def getIndexes (db : Database) (s : StoreId) : List IndexInfo :=
  getIndexesLoop s.nextIndexMetaDataKey (db.entries.length + 1)
    (db.entriesFrom (s.indexMetaDataKey 0 0 (by decide)))

/-! ## The indexes created and deleted -/

inductive IndexOp where
  | createIndex (name keyPath : ShortString) (isUnique isMultiEntry : Bool)
  | deleteIndex (indexId : IndexId)

/-- An operation on the transaction. -/
def IndexOp.run (s : StoreId) (t : Transaction) : IndexOp → Transaction
  | .createIndex name keyPath isUnique isMultiEntry =>
    (IndexedDB.createIndex t s name keyPath isUnique isMultiEntry).1
  | .deleteIndex indexId => IndexedDB.deleteIndex t s indexId

/-- An index that has been created. -/
structure IndexSlot where
  id : ℕ
  name : ShortString
  keyPath : ShortString
  unique : Bool
  multiEntry : Bool
  deleted : Bool
  id_lt : id < 2 ^ 63

namespace IndexSlot

def info (a : IndexSlot) : IndexInfo := ⟨a.id, a.name.units, a.keyPath.units, a.unique, a.multiEntry⟩

/-- The stored value of a type, if there is one. -/
def entry (a : IndexSlot) (metaDataType : UInt8) : Option Bytes :=
  if metaDataType = 3 then some (encodeInt (encodeBool a.multiEntry))
  else if a.deleted then none
  else if metaDataType = 0 then some (encodeString a.name.units)
  else if metaDataType = 1 then some (encodeInt (encodeBool a.unique))
  else if metaDataType = 2 then some (encodeString a.keyPath.units)
  else none

end IndexSlot

/-- Every index that has been created, in the order of the ids, and the last id given out. -/
structure IndexTable where
  maxIndexId : ℕ
  slots : List IndexSlot

namespace IndexTable

variable (T : IndexTable)

/-- An operation on the table. -/
def apply : IndexOp → IndexTable
  | .createIndex name keyPath isUnique isMultiEntry =>
    if h : T.maxIndexId + 1 < 2 ^ 63 then
      ⟨T.maxIndexId + 1,
        T.slots ++ [⟨T.maxIndexId + 1, name, keyPath, isUnique, isMultiEntry, false, h⟩]⟩
    else T
  | .deleteIndex indexId =>
    ⟨T.maxIndexId,
      T.slots.map fun a => if a.id = indexId.val then { a with deleted := true } else a⟩

/-- The indexes created and not deleted. -/
def live : List IndexInfo :=
  (T.slots.filter fun a => !a.deleted).map IndexSlot.info

/-- The stored value of a key, if there is one. -/
def entry (indexId : ℕ) (metaDataType : UInt8) : Option Bytes :=
  (T.slots.find? fun a => a.id = indexId).bind fun a => a.entry metaDataType

/-- Every deleted index was created after every other one. -/
def DeletedLast : Prop :=
  ∀ a ∈ T.slots, a.deleted = true → ∀ b ∈ T.slots, b.deleted = false → b.id < a.id

instance (T : IndexTable) : Decidable T.DeletedLast :=
  inferInstanceAs (Decidable (∀ a ∈ T.slots, a.deleted = true → ∀ b ∈ T.slots,
    b.deleted = false → b.id < a.id))

end IndexTable

/-! ## The entries of the indexes -/

namespace StoreId

variable {s : StoreId}

theorem rank_indexMetaDataKey_eq_iff :
    rank (s.indexMetaDataKey i m hi) = rank (s.indexMetaDataKey j n hj) ↔ i = j ∧ m = n :=
  DatabaseId.rank_databaseKey_eq_iff.trans (by simp)

variable {a : Fin 7} {j : ℕ} {n : UInt8} {hj : j < 2 ^ 63}

theorem rank_objectStoreMetaDataKey_ne :
    rank (s.objectStoreMetaDataKey a) ≠ rank (s.indexMetaDataKey j n hj) :=
  fun h => absurd (DatabaseId.rank_databaseKey_eq_iff.mp h) (by simp)

theorem rank_indexMetaDataKey_ne :
    rank (s.indexMetaDataKey j n hj) ≠ rank (s.objectStoreMetaDataKey a) :=
  rank_objectStoreMetaDataKey_ne.symm

/-- The data of an index lies behind the keys of the database. -/
theorem databaseKey_notMem_indexDataRange (i : IndexId) {n : ℕ}
    {hn : n < 2 ^ 63} {stop : StoreKey} :
    ¬ (rank (s.indexDataKey i u p n hn) ≤ rank (s.databaseKey k h hu) ∧
      rank (s.databaseKey k h hu) < rank stop) := by
  rintro ⟨hle, -⟩
  refine absurd hle (not_le.mpr ?_)
  have hpos := s.objectStoreId_pos
  change (s.databaseId : ℤ) :: (0 : ℤ) :: _ < (s.databaseId : ℤ) :: (s.objectStoreId : ℤ) :: _
  rw [cons_lt_cons_iff, cons_lt_cons_iff]
  exact Or.inr ⟨rfl, Or.inl (by omega)⟩

end StoreId

/-- The transaction holds the entries of a table, and the table has increasing ids. -/
structure HoldsTable (s : StoreId) (t : Transaction) (T : IndexTable) : Prop where
  counter : (getInt t (s.objectStoreMetaDataKey 5)).getD kMinimumIndexId = T.maxIndexId
  entries : ∀ (i : ℕ) (m : UInt8) (h : i < 2 ^ 63), t.get (s.indexMetaDataKey i m h) = T.entry i m
  sorted : T.slots.Pairwise fun a b => a.id < b.id
  id_le : ∀ a ∈ T.slots, a.id ≤ T.maxIndexId

namespace IndexTable

variable {T : IndexTable}

theorem entry_eq_none_of_lt (h : ∀ a ∈ T.slots, a.id ≤ T.maxIndexId)
    (hi : T.maxIndexId < i) (m : UInt8) : T.entry i m = none := by
  rw [entry, List.find?_eq_none.mpr fun a ha => ?_, bind_none]
  have := h a ha
  simp only [decide_eq_true_eq]
  omega

/-- A new slot adds its entries. -/
theorem entry_append (h : ∀ b ∈ T.slots, b.id ≠ a.id) (i : ℕ) (m : UInt8) :
    entry ⟨n, T.slots ++ [a]⟩ i m = if i = a.id then a.entry m else T.entry i m := by
  rw [entry, entry, List.find?_append]
  split
  · next hi =>
    rw [List.find?_eq_none.mpr fun b hb => by simp [hi, h b hb], List.find?_cons_of_pos (by simp [hi])]
    rfl
  · next hi =>
    rw [List.find?_cons_of_neg (by simpa [eq_comm] using hi), List.find?_nil, or_none]

/-- A deletion hides three of the four entries. -/
theorem entry_delete (n : ℕ) (j i : ℕ) (m : UInt8) :
    entry ⟨n, T.slots.map fun a => if a.id = j then { a with deleted := true } else a⟩ i m =
      if i = j ∧ (m = 0 ∨ m = 1 ∨ m = 2) then none else T.entry i m := by
  have hfind : ∀ l : List IndexSlot,
      (l.map fun a => if a.id = j then { a with deleted := true } else a).find?
          (fun a => a.id = i) =
        (l.find? fun a => a.id = i).map fun a =>
          if a.id = j then { a with deleted := true } else a := by
    intro l
    rw [List.find?_map]
    congr 2
    funext a
    simp only [Function.comp]
    split <;> rfl
  rw [entry, entry, hfind]
  cases hf : T.slots.find? fun a => a.id = i with
  | none => simp
  | some a =>
    have hai : a.id = i := by simpa using List.find?_some hf
    rw [map_some, bind_some, bind_some]
    by_cases hij : i = j
    · rw [if_pos (hai.trans hij)]
      simp only [IndexSlot.entry, if_true]
      by_cases hm : m = 3
      · simp [hm]
      · rw [if_neg hm, if_neg hm]
        split_ifs <;> simp_all
    · rw [if_neg (fun hc => hij (hai.symm.trans hc)), if_neg fun hc => hij hc.1]

end IndexTable

namespace HoldsTable

variable {s : StoreId} {t : Transaction} {T : IndexTable}

theorem createIndex (h : HoldsTable s t T) (hfit : T.maxIndexId + 1 < 2 ^ 63)
    (name keyPath : ShortString) (isUnique isMultiEntry : Bool) :
    HoldsTable s (createIndex t s name keyPath isUnique isMultiEntry).1
      (T.apply (.createIndex name keyPath isUnique isMultiEntry)) := by
  have hid : ((getInt t (s.objectStoreMetaDataKey 5)).getD kMinimumIndexId + 1).toNat =
      T.maxIndexId + 1 := by
    rw [h.counter]
    rfl
  have hnonneg : (0 : ℤ) ≤ (getInt t (s.objectStoreMetaDataKey 5)).getD kMinimumIndexId + 1 := by
    omega
  rw [IndexTable.apply, dif_pos hfit]
  simp only [IndexedDB.createIndex, getNewIndexId, hid]
  rw [dif_pos ⟨hnonneg, hfit⟩]
  refine ⟨?_, fun i m hi => ?_, ?_, ?_⟩
  · simp only [getInt, putInt, putString, get_put, if_neg StoreId.rank_indexMetaDataKey_ne]
    rw [if_pos trivial, map_some, getD_some, decodeInt_encodeInt hfit]
  · rw [IndexTable.entry_append fun b hb => by have := h.id_le b hb; simp only; omega]
    simp only [putInt, putString, get_put, StoreId.rank_indexMetaDataKey_eq_iff,
      if_neg StoreId.rank_objectStoreMetaDataKey_ne, h.entries]
    by_cases hnew : i = T.maxIndexId + 1
    · rw [if_pos hnew, T.entry_eq_none_of_lt h.id_le (by omega)]
      simp only [hnew, true_and, IndexSlot.entry, eq_comm, Bool.false_eq_true, if_false]
      split
      · rfl
      · split_ifs <;> simp_all
    · simp only [if_neg hnew, Ne.symm hnew, false_and, if_false]
  · rw [pairwise_append]
    refine ⟨h.sorted, pairwise_singleton _ _, fun a ha b hb => ?_⟩
    rw [mem_singleton.mp hb]
    exact Nat.lt_succ_of_le (h.id_le a ha)
  · intro a ha
    rcases mem_append.mp ha with ha | ha
    · exact (h.id_le a ha).trans (Nat.le_succ _)
    · rw [mem_singleton.mp ha]

variable (t : Transaction)

theorem get_deleteIndex_databaseKey (i : IndexId) :
    (IndexedDB.deleteIndex t s i).get (s.databaseKey k hk hu) =
      (((t.remove (s.indexMetaDataKey i.val 0 i.lt)).1.remove
        (s.indexMetaDataKey i.val 1 i.lt)).1.remove
        (s.indexMetaDataKey i.val 2 i.lt)).1.get (s.databaseKey k hk hu) := by
  rw [IndexedDB.deleteIndex, get_deleteRange, if_neg (s.databaseKey_notMem_indexDataRange i)]

theorem get_deleteIndex_objectStoreMetaDataKey (i : IndexId) (a : Fin 7) :
    (IndexedDB.deleteIndex t s i).get (s.objectStoreMetaDataKey a) =
      t.get (s.objectStoreMetaDataKey a) := by
  refine (get_deleteIndex_databaseKey t i).trans ?_
  change (LevelDBTransaction.remove _ _).1.get (s.objectStoreMetaDataKey a) = _
  rw [get_remove, if_neg StoreId.rank_indexMetaDataKey_ne, get_remove,
    if_neg StoreId.rank_indexMetaDataKey_ne, get_remove, if_neg StoreId.rank_indexMetaDataKey_ne]

theorem get_deleteIndex_indexMetaDataKey (i : IndexId) (j : ℕ) (m : UInt8) (hj : j < 2 ^ 63) :
    (IndexedDB.deleteIndex t s i).get (s.indexMetaDataKey j m hj) =
      if j = i.val ∧ (m = 0 ∨ m = 1 ∨ m = 2) then none else t.get (s.indexMetaDataKey j m hj) := by
  refine (get_deleteIndex_databaseKey t i).trans ?_
  change (LevelDBTransaction.remove _ _).1.get (s.indexMetaDataKey j m hj) = _
  simp only [get_remove, StoreId.rank_indexMetaDataKey_eq_iff]
  by_cases hij : j = i.val
  · simp only [hij, true_and, eq_comm]
    split_ifs <;> simp_all
  · simp only [hij, Ne.symm hij, false_and, if_false]

variable {t}

theorem deleteIndex (h : HoldsTable s t T) (i : IndexId) :
    HoldsTable s (deleteIndex t s i) (T.apply (.deleteIndex i)) := by
  refine ⟨?_, fun j m hj => ?_, ?_, ?_⟩
  · rw [getInt, get_deleteIndex_objectStoreMetaDataKey]
    exact h.counter
  · rw [get_deleteIndex_indexMetaDataKey, h.entries]
    exact (IndexTable.entry_delete _ i.val j m).symm
  · exact pairwise_map.mpr (h.sorted.imp fun hab => by split <;> split <;> exact hab)
  · intro a ha
    obtain ⟨b, hb, rfl⟩ := mem_map.mp ha
    split <;> exact h.id_le b hb

end HoldsTable

theorem maxIndexId_apply_le (T : IndexTable) (op : IndexOp) :
    (T.apply op).maxIndexId ≤ T.maxIndexId + 1 := by
  cases op with
  | createIndex name keyPath isUnique isMultiEntry =>
    rw [IndexTable.apply]
    split
    · exact le_rfl
    · exact Nat.le_succ _
  | deleteIndex i => exact Nat.le_succ _

/-- A sequence of operations leaves the entries of the table it makes. -/
theorem holdsTable_foldl {T : IndexTable} {s : StoreId} {t : Transaction} (h : HoldsTable s t T)
    (ops : List IndexOp) (hfit : T.maxIndexId + ops.length < 2 ^ 63) :
    HoldsTable s (ops.foldl (IndexOp.run s) t) (ops.foldl IndexTable.apply T) := by
  induction ops generalizing t T with
  | nil => exact h
  | cons op ops ih =>
    rw [length_cons] at hfit
    have hle := maxIndexId_apply_le T op
    refine ih ?_ (by omega)
    cases op with
    | createIndex name keyPath isUnique isMultiEntry =>
      exact h.createIndex (by omega) name keyPath isUnique isMultiEntry
    | deleteIndex i => exact h.deleteIndex i

/-! ## The entries in the order of their keys -/

namespace StoreId

variable {s : StoreId}

theorem rank_indexMetaDataKey_lt_iff (hi : i < 2 ^ 63) (hj : j < 2 ^ 63) :
    rank (s.indexMetaDataKey i m hi) < rank (s.indexMetaDataKey j n hj) ↔
      i < j ∨ i = j ∧ m.toNat < n.toNat := by
  change [(s.databaseId : ℤ), 0, 0, 100, s.objectStoreId, i, m.toNat] <
    [(s.databaseId : ℤ), 0, 0, 100, s.objectStoreId, j, n.toNat] ↔ _
  simp only [cons_lt_cons_iff, lt_irrefl, and_false, or_false, false_or, true_and]
  omega

theorem mem_indexMetaDataRange_iff (s : StoreId) (k : StoreKey) :
    rank (s.indexMetaDataKey 0 0 (by decide)) ≤ rank k ∧ rank k < rank s.nextIndexMetaDataKey ↔
      ∃ (i : ℕ) (m : UInt8) (h : i < 2 ^ 63), k = s.indexMetaDataKey i m h := by
  have hstart : rank (s.indexMetaDataKey 0 0 (by decide)) =
    [(s.databaseId : ℤ), 0, 0, 100] ++ [(s.objectStoreId : ℤ), 0, 0] := rfl
  have hstop : rank s.nextIndexMetaDataKey =
    [(s.databaseId : ℤ), 0, 0, 100] ++ [(s.objectStoreId : ℤ) + 1, 0, 0] := rfl
  rw [hstart, hstop, append_le_and_lt_append]
  constructor
  · rintro ⟨y, hy, hle, hlt⟩
    obtain ⟨k', hk, hrank⟩ := StoreKey.exists_databaseKey s.databaseId_pos hy
    obtain ⟨os, i, m, rfl, hf⟩ := DatabaseKey.exists_indexMetaData hrank
    obtain rfl : y = [(os : ℤ), (i : ℤ), (m.toNat : ℤ)] := hf
    rw [← not_lt] at hle
    simp only [cons_lt_cons_iff, lt_irrefl, and_false, or_false] at hle hlt
    obtain rfl : os = s.objectStoreId := by omega
    have hv := k.valid
    rw [hk] at hv
    exact ⟨i, m, hv.2.2, StoreKey.ext hk⟩
  · rintro ⟨i, m, h, rfl⟩
    refine ⟨[(s.objectStoreId : ℤ), (i : ℤ), (m.toNat : ℤ)], rfl, ?_, ?_⟩
    · rw [← not_lt]
      simp only [cons_lt_cons_iff, lt_irrefl, and_false, or_false, false_or]
      omega
    · simp only [cons_lt_cons_iff]
      omega

end StoreId

namespace IndexSlot

/-- The entries of an index in the order of their keys. -/
def layout (s : StoreId) (a : IndexSlot) : List (StoreKey × Bytes) :=
  let multiEntry := (s.indexMetaDataKey a.id 3 a.id_lt, encodeInt (encodeBool a.multiEntry))
  if a.deleted then [multiEntry]
  else
    [(s.indexMetaDataKey a.id 0 a.id_lt, encodeString a.name.units),
      (s.indexMetaDataKey a.id 1 a.id_lt, encodeInt (encodeBool a.unique)),
      (s.indexMetaDataKey a.id 2 a.id_lt, encodeString a.keyPath.units), multiEntry]

variable {s : StoreId} {a b : IndexSlot}

theorem mem_layout_iff :
    e ∈ a.layout s ↔ ∃ m v, a.entry m = some v ∧ e = (s.indexMetaDataKey a.id m a.id_lt, v) := by
  constructor
  · intro he
    rw [layout] at he
    split at he
    · next hd => exact ⟨3, _, rfl, mem_singleton.mp he⟩
    · next hd =>
      simp only [mem_cons, not_mem_nil, or_false] at he
      rcases he with rfl | rfl | rfl | rfl
      · exact ⟨0, _, by simp [entry, hd], rfl⟩
      · exact ⟨1, _, by simp [entry, hd], rfl⟩
      · exact ⟨2, _, by simp [entry, hd], rfl⟩
      · exact ⟨3, _, rfl, rfl⟩
  · rintro ⟨m, v, hv, rfl⟩
    rw [entry] at hv
    split at hv
    · next hm =>
      subst hm
      rw [layout, ← some_inj.mp hv]
      split <;> simp
    · split at hv
      · cases hv
      · next hd =>
        rw [layout, if_neg hd]
        split_ifs at hv with h0 h1 h2
        · subst h0; rw [← some_inj.mp hv]; simp
        · subst h1; rw [← some_inj.mp hv]; simp
        · subst h2; rw [← some_inj.mp hv]; simp

theorem sorted_layout : (a.layout s).Pairwise fun e e' => rank e.1 < rank e'.1 := by
  rw [layout]
  split
  · exact pairwise_singleton _ _
  · simp [StoreId.rank_indexMetaDataKey_lt_iff]

theorem rank_lt_of_layout (h : a.id < b.id) (he : e ∈ a.layout s)
    (he' : e' ∈ b.layout s) : rank e.1 < rank e'.1 := by
  obtain ⟨m, v, -, rfl⟩ := mem_layout_iff.mp he
  obtain ⟨m', v', -, rfl⟩ := mem_layout_iff.mp he'
  exact (StoreId.rank_indexMetaDataKey_lt_iff a.id_lt b.id_lt).mpr (Or.inl h)

end IndexSlot

/-- The entries of a table in the order of their keys. -/
def IndexTable.layout (s : StoreId) (T : IndexTable) : List (StoreKey × Bytes) :=
  T.slots.flatMap (IndexSlot.layout s)

namespace HoldsTable

variable {s : StoreId} {t : Transaction} {T : IndexTable}

theorem find?_id_of_mem {l : List IndexSlot} (hl : l.Pairwise fun a b => a.id < b.id) (ha : a ∈ l) :
    l.find? (fun b => b.id = a.id) = some a := by
  induction l with
  | nil => simp at ha
  | cons b l ih =>
    rw [pairwise_cons] at hl
    rcases mem_cons.mp ha with rfl | ha
    · exact List.find?_cons_of_pos (by simp)
    · rw [List.find?_cons_of_neg (by simp [(hl.1 a ha).ne]), ih hl.2 ha]

variable (h : HoldsTable s t T)

include h

theorem entry_eq_some_iff {i : ℕ} :
    T.entry i m = some v ↔ ∃ a ∈ T.slots, a.id = i ∧ a.entry m = some v := by
  rw [IndexTable.entry, bind_eq_some_iff]
  constructor
  · rintro ⟨a, ha, hv⟩
    exact ⟨a, mem_of_find?_eq_some ha, by simpa using List.find?_some ha, hv⟩
  · rintro ⟨a, ha, rfl, hv⟩
    exact ⟨a, find?_id_of_mem h.sorted ha, hv⟩

theorem sorted_layout :
    (T.layout s).Pairwise fun e e' => rank e.1 < rank e'.1 := by
  rw [IndexTable.layout, pairwise_flatMap]
  exact ⟨fun a _ => IndexSlot.sorted_layout,
    h.sorted.imp fun hab e he e' he' => IndexSlot.rank_lt_of_layout hab he he'⟩

/-- The entries of the committed database in the range of the index meta-data are those of the
table. -/
theorem mem_layout_iff (e : StoreKey × Bytes) :
    e ∈ T.layout s ↔ e ∈ t.commit.entries ∧ rank (s.indexMetaDataKey 0 0 (by decide)) ≤ rank e.1 ∧
        rank e.1 < rank s.nextIndexMetaDataKey := by
  rw [s.mem_indexMetaDataRange_iff, IndexTable.layout, mem_flatMap]
  constructor
  · rintro ⟨a, ha, he⟩
    obtain ⟨m, v, hv, rfl⟩ := IndexSlot.mem_layout_iff.mp he
    refine ⟨?_, a.id, m, a.id_lt, rfl⟩
    have hget := (h.entries a.id m a.id_lt).trans (h.entry_eq_some_iff.mpr ⟨a, ha, rfl, hv⟩)
    rw [get_eq_view] at hget
    obtain ⟨⟨k, v'⟩, hview, rfl⟩ := map_eq_some_iff.mp hget
    have hk : k = s.indexMetaDataKey a.id m a.id_lt :=
      DatabaseId.eq_databaseKey_of_rank (rank_of_view hview)
    rw [← lookup_commit, hk] at hview
    exact SortedMap.mem_of_lookup hview
  · rintro ⟨he, i, m, hi, hk⟩
    have hget : t.get e.1 = some e.2 := by
      rw [get_eq_view, ← lookup_commit, SortedMap.lookup_of_mem he, map_some]
    rw [hk, h.entries] at hget
    obtain ⟨a, ha, rfl, hv⟩ := h.entry_eq_some_iff.mp hget
    exact ⟨a, ha, IndexSlot.mem_layout_iff.mpr ⟨m, e.2, hv, Prod.ext hk rfl⟩⟩

end HoldsTable

/-! ## Parsing the entries -/

section Parse

variable {s : StoreId}

variable {i : ℕ} {it rest : List (StoreKey × Bytes)} {slots : List IndexSlot}

/-- The entry of a type is found when it comes next. -/
theorem expectIndexMetaData_cons (hi : i < 2 ^ 63) (m : UInt8) (v : Bytes)
    (it : List (StoreKey × Bytes)) :
    expectIndexMetaData s.nextIndexMetaDataKey i m ((s.indexMetaDataKey i m hi, v) :: it) =
      some (v, it) := by
  have hlt := ((s.mem_indexMetaDataRange_iff _).mpr ⟨i, m, hi, rfl⟩).2
  have hcheck : checkIndexAndMetaDataKey ((s.indexMetaDataKey i m hi, v) :: it)
      s.nextIndexMetaDataKey i m = true := by
    rw [checkIndexAndMetaDataKey, if_neg (not_le.mpr (compare_neg_iff.mpr hlt))]
    have hdec : IndexMetaDataKey.decode (s.indexMetaDataKey i m hi).bytes =
        some (⟨s.objectStoreId, i, m⟩, []) :=
      IndexMetaDataKey.decode_encode s.databaseId_lt s.lt hi m
    simp [hdec]
  rw [expectIndexMetaData, if_pos hcheck]
  rfl

/-- Entries behind the range, or of other indexes, are not taken. -/
theorem expectIndexMetaData_eq_none (m : UInt8)
    (h : ∀ e ∈ it.head?, rank s.nextIndexMetaDataKey ≤ rank e.1 ∨
      ∃ (j : ℕ) (n : UInt8) (hj : j < 2 ^ 63), j ≠ i ∧ e.1 = s.indexMetaDataKey j n hj) :
    expectIndexMetaData s.nextIndexMetaDataKey i m it = none := by
  have hcheck : ¬ checkIndexAndMetaDataKey it s.nextIndexMetaDataKey i m = true := by
    cases it with
    | nil => simp [checkIndexAndMetaDataKey]
    | cons e it =>
      rw [checkIndexAndMetaDataKey]
      rcases h e rfl with hstop | ⟨j, n, hj, hne, hk⟩
      · rw [if_pos (compare_nonneg_iff.mpr hstop)]
        simp
      · have hdec : IndexMetaDataKey.decode e.1.bytes = some (⟨s.objectStoreId, j, n⟩, []) := by
          rw [hk]
          exact IndexMetaDataKey.decode_encode s.databaseId_lt s.lt hj n
        split
        · simp
        · simp [hdec, hne]
  rw [expectIndexMetaData, if_neg hcheck]

theorem decode_bytes_indexMetaDataKey (hi : i < 2 ^ 63) (m : UInt8) :
    IndexMetaDataKey.decode (s.indexMetaDataKey i m hi).bytes =
      some (⟨s.objectStoreId, i, m⟩, []) :=
  IndexMetaDataKey.decode_encode s.databaseId_lt s.lt hi m

/-- The four entries of an index give it back. -/
theorem readIndex_layout (a : IndexSlot) (it : List (StoreKey × Bytes)) :
    readIndex s.nextIndexMetaDataKey (s.indexMetaDataKey a.id 0 a.id_lt, encodeString a.name.units)
        ((s.indexMetaDataKey a.id 1 a.id_lt, encodeInt (encodeBool a.unique)) ::
          (s.indexMetaDataKey a.id 2 a.id_lt, encodeString a.keyPath.units) ::
          (s.indexMetaDataKey a.id 3 a.id_lt, encodeInt (encodeBool a.multiEntry)) :: it) =
      some (a.info, it) := by
  rw [readIndex, decode_bytes_indexMetaDataKey]
  simp only [bind_eq_bind, bind_some, expectIndexMetaData_cons,
    decodeBool_encodeInt_encodeBool, decodeString_encodeString, if_pos a.name.length_le,
    if_pos a.keyPath.length_le]
  rfl

/-- The flag a deleted index has left is an error. -/
theorem readIndex_deleted {a : IndexSlot}
    (h : ∀ e ∈ it.head?, rank s.nextIndexMetaDataKey ≤ rank e.1 ∨
      ∃ (j : ℕ) (n : UInt8) (hj : j < 2 ^ 63), j ≠ a.id ∧ e.1 = s.indexMetaDataKey j n hj) :
    readIndex s.nextIndexMetaDataKey (s.indexMetaDataKey a.id 3 a.id_lt, v) it = none := by
  rw [readIndex, decode_bytes_indexMetaDataKey]
  simp only [bind_eq_bind, bind_some, expectIndexMetaData_eq_none _ h, bind_none, bind_fun_none]

/-- What follows the entries of an index are entries of later ones, or none of the range. -/
theorem head?_layout (hlt : ∀ b ∈ slots, i < b.id)
    (hrest : ∀ e ∈ rest, rank s.nextIndexMetaDataKey ≤ rank e.1) :
    ∀ e ∈ (slots.flatMap (IndexSlot.layout s) ++ rest).head?,
      rank s.nextIndexMetaDataKey ≤ rank e.1 ∨
        ∃ (j : ℕ) (n : UInt8) (hj : j < 2 ^ 63), j ≠ i ∧ e.1 = s.indexMetaDataKey j n hj := by
  intro e he
  rcases mem_append.mp (mem_of_mem_head? he) with he | he
  · obtain ⟨b, hb, he⟩ := mem_flatMap.mp he
    obtain ⟨m, v, -, rfl⟩ := IndexSlot.mem_layout_iff.mp he
    exact Or.inr ⟨b.id, m, b.id_lt, (hlt b hb).ne', rfl⟩
  · exact Or.inl (hrest e he)

/-- **The parser reports the indexes in front of the first deleted one.** -/
theorem getIndexesLoop_layout (hsorted : slots.Pairwise fun a b => a.id < b.id)
    (hrest : ∀ e ∈ rest, rank s.nextIndexMetaDataKey ≤ rank e.1)
    (hn : (slots.flatMap (IndexSlot.layout s) ++ rest).length < n) :
    getIndexesLoop s.nextIndexMetaDataKey n (slots.flatMap (IndexSlot.layout s) ++ rest) =
      (slots.takeWhile fun a => !a.deleted).map IndexSlot.info := by
  have hlt : ∀ (a : IndexSlot) (m : UInt8),
      compareKeys (s.indexMetaDataKey a.id m a.id_lt) s.nextIndexMetaDataKey < 0 := fun a m =>
    compare_neg_iff.mpr ((s.mem_indexMetaDataRange_iff _).mpr ⟨a.id, m, a.id_lt, rfl⟩).2
  induction slots generalizing n with
  | nil =>
    cases n with
    | zero => rfl
    | succ n =>
      cases rest with
      | nil => rfl
      | cons e rest =>
        have hstop := compare_nonneg_iff.mpr (hrest e (mem_cons_self ..))
        rw [flatMap_nil, nil_append, getIndexesLoop, if_neg (not_lt.mpr hstop)]
        rfl
  | cons a slots ih =>
    rw [pairwise_cons] at hsorted
    rw [flatMap_cons, append_assoc] at hn ⊢
    cases n with
    | zero => exact absurd hn (Nat.not_lt_zero _)
    | succ n =>
      cases hd : a.deleted with
      | true =>
        rw [takeWhile_cons_of_neg (by simp [hd]), IndexSlot.layout, if_pos hd,
          singleton_append, getIndexesLoop, if_pos (hlt a 3),
          readIndex_deleted (head?_layout hsorted.1 hrest)]
        rfl
      | false =>
        rw [IndexSlot.layout, if_neg (by simp [hd])] at hn ⊢
        simp only [cons_append, nil_append, length_cons] at hn ⊢
        rw [takeWhile_cons_of_pos (by simp [hd]), getIndexesLoop, if_pos (hlt a 0),
          readIndex_layout]
        simp only [map_cons]
        rw [ih hsorted.2 (by omega)]

end Parse

theorem getIndexes_commit {s : StoreId} {t : Transaction} {T : IndexTable} (h : HoldsTable s t T) :
    getIndexes t.commit s = (T.slots.takeWhile fun a => !a.deleted).map IndexSlot.info := by
  obtain ⟨rest, heq, hrest⟩ := SortedMap.entriesFrom_eq_append h.sorted_layout h.mem_layout_iff
  have hlen : (t.commit.entriesFrom (s.indexMetaDataKey 0 0 (by decide))).length <
      t.commit.entries.length + 1 :=
    Nat.lt_succ_of_le (dropWhile_sublist _).length_le
  rw [getIndexes]
  rw [heq] at hlen ⊢
  exact getIndexesLoop_layout h.sorted hrest hlen

/-! ## What is reported -/

theorem takeWhile_map_eq_filter_map_iff {α β : Type*} (p : α → Bool) (f : α → β) (l : List α) :
    (l.takeWhile p).map f = (l.filter p).map f ↔ l.Pairwise fun a b => p b = true → p a = true := by
  induction l with
  | nil => simp
  | cons a l ih =>
    rw [pairwise_cons]
    cases ha : p a with
    | true =>
      rw [takeWhile_cons_of_pos ha, filter_cons_of_pos ha, map_cons, map_cons, cons_eq_cons, ih]
      simp
    | false =>
      rw [takeWhile_cons_of_neg (by simp [ha]), filter_cons_of_neg (by simp [ha]),
        map_nil, eq_comm, map_eq_nil_iff, filter_eq_nil_iff]
      refine ⟨fun h => ⟨fun b hb hpb => absurd hpb (h b hb), ?_⟩, fun h b hb hpb => ?_⟩
      · exact pairwise_iff_forall_sublist.mpr fun hsub hpb =>
          absurd hpb (h _ (hsub.subset (by simp)))
      · exact absurd (h.1 b hb hpb) (by simp)

theorem pairwise_live_iff {l : List IndexSlot} (h : l.Pairwise fun a b => a.id < b.id) :
    (l.Pairwise fun a b => (!b.deleted) = true → (!a.deleted) = true) ↔
      ∀ a ∈ l, a.deleted = true → ∀ b ∈ l, b.deleted = false → b.id < a.id := by
  induction l with
  | nil => simp
  | cons x l ih =>
    rw [pairwise_cons] at h
    rw [pairwise_cons, ih h.2]
    constructor
    · rintro ⟨hx, hl⟩ a ha hdel b hb hlive
      rcases mem_cons.mp ha with rfl | ha'
      · rcases mem_cons.mp hb with rfl | hb'
        · simp [hdel] at hlive
        · have := hx b hb' (by simp [hlive])
          simp [hdel] at this
      · rcases mem_cons.mp hb with rfl | hb'
        · exact h.1 a ha'
        · exact hl a ha' hdel b hb' hlive
    · refine fun hlast => ⟨fun b hb hlive => ?_, fun a ha hdel b hb hlive => ?_⟩
      · by_contra hx
        have hlt := hlast x (mem_cons_self ..) (by simpa using hx) b
          (mem_cons_of_mem x hb) (by simpa using hlive)
        exact absurd hlt (not_lt.mpr (h.1 b hb).le)
      · exact hlast a (mem_cons_of_mem x ha) hdel b (mem_cons_of_mem x hb) hlive

/-- **When the indexes created and not deleted are reported.**  A sequence of operations on a store
without indexes is read back as the indexes it leaves exactly when no deleted index was followed by
one that is left. -/
theorem getIndexes_iff (s : StoreId) (t : Transaction) (maxIndexId : ℕ) (ops : List IndexOp)
    (hcounter : (getInt t (s.objectStoreMetaDataKey 5)).getD kMinimumIndexId = maxIndexId)
    (hempty : ∀ (i : ℕ) (m : UInt8) (h : i < 2 ^ 63), t.get (s.indexMetaDataKey i m h) = none)
    (hfit : maxIndexId + ops.length < 2 ^ 63) :
    let T := ops.foldl IndexTable.apply ⟨maxIndexId, []⟩
    getIndexes (ops.foldl (IndexOp.run s) t).commit s = T.live ↔ T.DeletedLast := by
  intro T
  have h : HoldsTable s (ops.foldl (IndexOp.run s) t) T :=
    holdsTable_foldl ⟨hcounter, hempty, List.Pairwise.nil, by simp⟩ ops hfit
  rw [getIndexes_commit h, IndexTable.live, takeWhile_map_eq_filter_map_iff]
  exact pairwise_live_iff h.sorted

/-- The later of two indexes is deleted. -/
theorem getIndexes_iff_deleteLast :
    let s : StoreId := ⟨⟨1, by decide, by decide⟩, 1, by decide, by decide⟩
    let t : Transaction := LevelDBTransaction.create SortedMap.empty
    let ops : List IndexOp := [.createIndex ⟨[97], by decide⟩ ⟨[98], by decide⟩ true false,
      .createIndex ⟨[99], by decide⟩ ⟨[100], by decide⟩ false true,
      .deleteIndex ⟨32, by decide, by decide⟩]
    (ops.foldl IndexTable.apply ⟨kMinimumIndexId, []⟩).DeletedLast ∧
      getIndexes (ops.foldl (IndexOp.run s) t).commit s = [⟨31, [97], [98], true, false⟩] := by
  intro s t ops
  have hlast : (ops.foldl IndexTable.apply ⟨kMinimumIndexId, []⟩).DeletedLast := by
    decide +kernel
  have hlive : (ops.foldl IndexTable.apply ⟨kMinimumIndexId, []⟩).live =
      [⟨31, [97], [98], true, false⟩] := by decide +kernel
  have h := getIndexes_iff s t kMinimumIndexId ops rfl (fun _ _ _ => rfl) (by decide)
  exact ⟨hlast, hlive ▸ h.mpr hlast⟩

/-- The earlier of two indexes is deleted, and neither is reported. -/
theorem not_getIndexes_deleteFirst :
    let s : StoreId := ⟨⟨1, by decide, by decide⟩, 1, by decide, by decide⟩
    let t : Transaction := LevelDBTransaction.create SortedMap.empty
    let ops : List IndexOp := [.createIndex ⟨[97], by decide⟩ ⟨[98], by decide⟩ true false,
      .createIndex ⟨[99], by decide⟩ ⟨[100], by decide⟩ false true,
      .deleteIndex ⟨31, by decide, by decide⟩]
    (ops.foldl IndexTable.apply ⟨kMinimumIndexId, []⟩).live = [⟨32, [99], [100], false, true⟩] ∧
      getIndexes (ops.foldl (IndexOp.run s) t).commit s = [] := by
  decide +kernel

end IndexedDB
end WebKit
