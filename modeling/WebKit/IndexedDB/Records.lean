import WebKit.IndexedDB.ObjectStores

/-!
# The records of an object store

Every put of a record takes a new version number, which it writes beside the record and in the
exists entry of its key.  An entry of an index carries the version and the primary key of the record
it was made for.  This file has the operations on records, the stores they lead to from one without
data, and what the version numbers say in all of them (`Versioned`).
-/

namespace WebKit

open List
namespace IndexedDB

open LevelDB LevelDBTransaction

/-! ## The operations on records -/

/-- `LevelDBRecordIdentifier`: the primary key is kept encoded. -/
structure RecordIdentifier where
  primaryKey : RecordKey
  version : ℕ

/-- The encoded primary key. -/
def RecordIdentifier.primaryKeyBytes (id : RecordIdentifier) : Bytes :=
  encodeIDBKey id.primaryKey.key

variable (t : Transaction) (s : StoreId)

def getNewVersionNumber : Transaction × ℕ :=
  let lastVersion := (getInt t (s.objectStoreMetaDataKey 4)).getD 0
  let version := (lastVersion + 1).toNat
  (putInt t (s.objectStoreMetaDataKey 4) version, version)

def putObjectStoreRecord (key : RecordKey) (value : ShortString) : Transaction × RecordIdentifier :=
  let (t, version) := getNewVersionNumber t s
  let t := (t.put (s.objectStoreDataKey key.toBound) (encodeVarInt version ++ encodeString value.units)).1
  let t := (t.put (s.existsEntryKey key.toBound) (encodeInt version)).1
  (t, ⟨key, version⟩)

/-- The value of an index entry. -/
def RecordIdentifier.data (id : RecordIdentifier) : Bytes :=
  encodeVarInt id.version ++ id.primaryKeyBytes

def putIndexDataForRecord (indexId : IndexId) (key : RecordKey)
    (recordIdentifier : RecordIdentifier) : Transaction :=
  (t.put (s.indexDataKey indexId key.toBound recordIdentifier.primaryKey.toBound 0 zero_lt_two_pow)
    recordIdentifier.data).1

def deleteObjectStoreRecord (recordIdentifier : RecordIdentifier) : Transaction :=
  let t := (t.remove (s.objectStoreDataKey recordIdentifier.primaryKey.toBound)).1
  (t.remove (s.existsEntryKey recordIdentifier.primaryKey.toBound)).1

/-! ## The stores that can be reached -/

/-- A transaction and the identifiers its puts have returned. -/
structure RecordStore where
  transaction : Transaction
  issued : List RecordIdentifier

/-- One operation.  The new version number is asserted not to overflow, an index entry is put with
an identifier a put returned, and a commit starts the next transaction. -/
inductive RecordStep (s : StoreId) : RecordStore → RecordStore → Prop
  | put (σ : RecordStore) (key : RecordKey) (value : ShortString)
      (h : (putObjectStoreRecord σ.transaction s key value).2.version < 2 ^ 63) :
      RecordStep s σ ⟨(putObjectStoreRecord σ.transaction s key value).1,
        (putObjectStoreRecord σ.transaction s key value).2 :: σ.issued⟩
  | putIndex (σ : RecordStore) (indexId : IndexId) (key : RecordKey) (id : RecordIdentifier)
      (h : id ∈ σ.issued) :
      RecordStep s σ ⟨putIndexDataForRecord σ.transaction s indexId key id, σ.issued⟩
  | delete (σ : RecordStore) (id : RecordIdentifier) :
      RecordStep s σ ⟨deleteObjectStoreRecord σ.transaction s id, σ.issued⟩
  | clear (σ : RecordStore) : RecordStep s σ ⟨clearObjectStore σ.transaction s, σ.issued⟩
  | commit (σ : RecordStore) : RecordStep s σ ⟨LevelDBTransaction.create σ.transaction.commit,
      σ.issued⟩

/-- The first transaction on an object store without data. -/
structure RecordStore.Initial (s : StoreId) (σ : RecordStore) : Prop where
  issued : σ.issued = []
  tree : σ.transaction.m_tree = SortedMap.empty
  noData : ∀ e ∈ σ.transaction.m_db.entries, ¬ (e.1.key.toPrefix.m_databaseId = s.databaseId ∧
    e.1.key.toPrefix.m_objectStoreId = s.objectStoreId)
  counter : 0 ≤ (getInt σ.transaction (s.objectStoreMetaDataKey 4)).getD 0

def RecordStore.Reachable (s : StoreId) (σ : RecordStore) : Prop :=
  ∃ σ₀, RecordStore.Initial s σ₀ ∧ Relation.ReflTransGen (RecordStep s) σ₀ σ

/-- What the version numbers say in every reachable store. -/
structure Versioned (s : StoreId) (σ : RecordStore) : Prop where
  counter : ∃ c : ℕ, (getInt σ.transaction (s.objectStoreMetaDataKey 4)).getD 0 = c ∧
    ∀ id ∈ σ.issued, id.version ≤ c
  version_lt : ∀ id ∈ σ.issued, id.version < 2 ^ 63
  unique : ∀ a ∈ σ.issued, ∀ b ∈ σ.issued, a.version = b.version →
    a.primaryKey.key.rank = b.primaryKey.key.rank
  exists_entry : ∀ (p : BoundKey) (v : Bytes), σ.transaction.get (s.existsEntryKey p) = some v →
    ∃ id ∈ σ.issued, p.key.rank = id.primaryKey.key.rank ∧ v = encodeInt id.version
  index_entry : ∀ (i : IndexId) (u p : BoundKey) (n : ℕ) (hn : n < 2 ^ 63) (v : Bytes),
    σ.transaction.Stored (s.indexDataKey i u p n hn) v →
      n = 0 ∧ ∃ id ∈ σ.issued, p.key.rank = id.primaryKey.key.rank ∧ v = id.data

namespace StoreId

variable {s : StoreId}

theorem rank_existsEntryKey_eq_iff :
    rank (s.existsEntryKey p) = rank (s.existsEntryKey q) ↔ p.key.rank = q.key.rank :=
  append_right_inj [(s.databaseId : ℤ), (s.objectStoreId : ℤ), (kExistsEntryIndexId : ℤ)]

theorem rank_indexDataKey_eq {i j : IndexId} {u p v q : BoundKey} {m n : ℕ} {hm : m < 2 ^ 63}
    {hn : n < 2 ^ 63} (h : rank (s.indexDataKey i u p m hm) = rank (s.indexDataKey j v q n hn)) :
    p.key.rank = q.key.rank ∧ m = n := by
  have hsame := StoreKey.sameFields_of_rank_eq h
  exact ⟨(p.key.lexOf_rank q.key).eq_iff.mpr hsame.2.2.2.2.1, hsame.2.2.2.2.2⟩

theorem objectStoreMetaDataKey_notMem_dataRange (a : Fin 7) :
    ¬ (rank s.keyPrefix ≤ rank (s.objectStoreMetaDataKey a) ∧
      rank (s.objectStoreMetaDataKey a) < rank s.nextKeyPrefix) := by
  rw [s.mem_dataRange]
  rintro ⟨-, h⟩
  have hpos := s.objectStoreId_pos
  replace h : (0 : ℤ) = s.objectStoreId := h
  omega

theorem existsEntryKey_mem_dataRange (p : BoundKey) : rank s.keyPrefix ≤ rank (s.existsEntryKey p) ∧
      rank (s.existsEntryKey p) < rank s.nextKeyPrefix :=
  (s.mem_dataRange _).mpr ⟨rfl, rfl⟩

end StoreId

namespace Versioned

variable {s : StoreId} {σ σ' : RecordStore}

theorem of_initial (h : σ.Initial s) : Versioned s σ := by
  have hget : ∀ key : StoreKey, key.key.toPrefix.m_databaseId = s.databaseId →
      key.key.toPrefix.m_objectStoreId = s.objectStoreId →
      σ.transaction.m_db.lookup (rank key) = none := by
    intro key hd hos
    refine SortedMap.lookup_eq_none_iff.mpr fun e he hr => h.noData e he ?_
    rw [(LevelDBKey.toPrefix_eq_of_rank_eq hr).1]
    exact ⟨hd, hos⟩
  have hnil : ∀ {id : RecordIdentifier}, id ∉ σ.issued := fun hid => by
    rw [h.issued] at hid
    exact absurd hid (not_mem_nil)
  refine ⟨⟨_, (Int.toNat_of_nonneg h.counter).symm, fun _ hid => absurd hid hnil⟩,
    fun _ hid => absurd hid hnil, fun _ hid => absurd hid hnil, fun p v hv => ?_,
    fun i u p n hn v hv => ?_⟩
  · rw [get_eq_view, view, h.tree] at hv
    rw [hget _ rfl rfl] at hv
    cases hv
  · rcases hv with ⟨k, hk⟩ | ⟨k, hk⟩
    · rw [hget _ rfl rfl] at hk
      cases hk
    · rw [h.tree] at hk
      cases hk

theorem put (h : Versioned s σ) (key : RecordKey) (value : ShortString)
    (hfit : (putObjectStoreRecord σ.transaction s key value).2.version < 2 ^ 63) :
    Versioned s ⟨(putObjectStoreRecord σ.transaction s key value).1,
      (putObjectStoreRecord σ.transaction s key value).2 :: σ.issued⟩ := by
  obtain ⟨c, hc, hle⟩ := h.counter
  have hversion : ((getInt σ.transaction (s.objectStoreMetaDataKey 4)).getD 0 + 1).toNat = c + 1 := by
    rw [hc]
    rfl
  simp only [putObjectStoreRecord, getNewVersionNumber, hversion, putInt] at hfit ⊢
  refine ⟨⟨c + 1, ?_, ?_⟩, ?_, ?_, fun p v hv => ?_, fun i u p n hn v hv => ?_⟩
  · have hget : ∀ v w : Bytes, (((σ.transaction.put (s.objectStoreMetaDataKey 4)
        (encodeInt (c + 1))).1.put (s.objectStoreDataKey key.toBound) v).1.put
        (s.existsEntryKey key.toBound) w).1.get (s.objectStoreMetaDataKey 4) =
          some (encodeInt (c + 1)) := fun v w => by
      rw [get_put, if_neg (StoreKey.rank_ne_of_kind (by simp)), get_put,
        if_neg (StoreKey.rank_ne_of_kind (by simp)), get_put, if_pos rfl]
    rw [getInt, hget, Option.map_some, Option.getD_some, decodeInt_encodeInt hfit]
  · intro id hid
    rcases mem_cons.mp hid with rfl | hid
    · exact le_rfl
    · exact (hle id hid).trans (Nat.le_succ c)
  · intro id hid
    rcases mem_cons.mp hid with rfl | hid
    · exact hfit
    · exact h.version_lt id hid
  · intro a ha b hb hab
    rcases mem_cons.mp ha with rfl | ha
    · rcases mem_cons.mp hb with rfl | hb
      · rfl
      · exact absurd (hle b hb) (by rw [← hab]; exact Nat.not_succ_le_self c)
    · rcases mem_cons.mp hb with rfl | hb
      · exact absurd (hle a ha) (by rw [hab]; exact Nat.not_succ_le_self c)
      · exact h.unique a ha b hb hab
  · rw [get_put] at hv
    split at hv
    · next hr =>
      exact ⟨⟨key, c + 1⟩, mem_cons_self .., (StoreId.rank_existsEntryKey_eq_iff.mp hr).symm,
        (Option.some_inj.mp hv).symm⟩
    · rw [get_put, if_neg (StoreKey.rank_ne_of_kind (by simp)), get_put,
        if_neg (StoreKey.rank_ne_of_kind (by simp))] at hv
      obtain ⟨id, hid, hrest⟩ := h.exists_entry p v hv
      exact ⟨id, mem_cons_of_mem _ hid, hrest⟩
  · have hold : σ.transaction.Stored (s.indexDataKey i u p n hn) v := by
      refine stored_put_of_ne ?_ (stored_put_of_ne ?_ (stored_put_of_ne ?_ hv)) <;>
        exact StoreKey.rank_ne_of_kind (by simp)
    obtain ⟨hn0, id, hid, hrest⟩ := h.index_entry i u p n hn v hold
    exact ⟨hn0, id, mem_cons_of_mem _ hid, hrest⟩

section

variable (h : Versioned s σ)
include h

theorem putIndex (i : IndexId) (key : RecordKey) {id : RecordIdentifier} (hid : id ∈ σ.issued) :
    Versioned s ⟨putIndexDataForRecord σ.transaction s i key id, σ.issued⟩ := by
  have hget : ∀ a : StoreKey, a.key.kind ≠ .kIndexData →
      (putIndexDataForRecord σ.transaction s i key id).get a = σ.transaction.get a := fun a ha => by
    rw [putIndexDataForRecord, get_put, if_neg (StoreKey.rank_ne_of_kind (by simpa using ha.symm))]
  refine ⟨?_, h.version_lt, h.unique, fun p v hv => ?_, fun j u p n hn v hv => ?_⟩
  · simp only [getInt, hget (s.objectStoreMetaDataKey 4) (by simp)]
    exact h.counter
  · rw [hget _ (by simp)] at hv
    exact h.exists_entry p v hv
  · rcases stored_set hv with hold | ⟨hr, -, rfl⟩
    · exact h.index_entry j u p n hn v hold
    · obtain ⟨hp, rfl⟩ := StoreId.rank_indexDataKey_eq hr
      exact ⟨rfl, id, hid, hp.symm, rfl⟩

/-- An operation that only removes keys of data, or commits. -/
theorem of_le {t : Transaction}
    (hcounter : t.get (s.objectStoreMetaDataKey 4) = σ.transaction.get (s.objectStoreMetaDataKey 4))
    (hget : ∀ (p : BoundKey) (v : Bytes), t.get (s.existsEntryKey p) = some v →
      σ.transaction.get (s.existsEntryKey p) = some v)
    (hstored : ∀ (k : StoreKey) (v : Bytes), t.Stored k v → σ.transaction.Stored k v) :
    Versioned s ⟨t, σ.issued⟩ := by
  refine ⟨?_, h.version_lt, h.unique, fun p v hv => h.exists_entry p v (hget p v hv),
    fun i u p n hn v hv => h.index_entry i u p n hn v (hstored _ v hv)⟩
  rw [getInt, hcounter]
  exact h.counter

theorem delete (id : RecordIdentifier) :
    Versioned s ⟨deleteObjectStoreRecord σ.transaction s id, σ.issued⟩ := by
  refine h.of_le ?_ (fun p v hv => ?_) fun k v hv => stored_remove (stored_remove hv)
  · rw [deleteObjectStoreRecord, get_remove, if_neg (StoreKey.rank_ne_of_kind (by simp)),
      get_remove, if_neg (StoreKey.rank_ne_of_kind (by simp))]
  · rw [deleteObjectStoreRecord, get_remove] at hv
    split at hv
    · cases hv
    · rwa [get_remove, if_neg (StoreKey.rank_ne_of_kind (by simp))] at hv

theorem clear : Versioned s ⟨clearObjectStore σ.transaction s, σ.issued⟩ := by
  refine h.of_le ?_ (fun p v hv => ?_) fun k v hv => stored_deleteRange hv
  · rw [clearObjectStore, get_deleteRange,
      if_neg (StoreId.objectStoreMetaDataKey_notMem_dataRange 4)]
  · rw [clearObjectStore, get_deleteRange, if_pos (StoreId.existsEntryKey_mem_dataRange p)] at hv
    cases hv

end

theorem commit (h : Versioned s σ) :
    Versioned s ⟨LevelDBTransaction.create σ.transaction.commit, σ.issued⟩ :=
  h.of_le (get_create_commit _ _) (fun _ _ hv => (get_create_commit _ _).symm.trans hv)
    fun _ _ hv => stored_create_commit hv

theorem step (h : Versioned s σ) (hs : RecordStep s σ σ') : Versioned s σ' := by
  cases hs with
  | put key value hfit => exact h.put key value hfit
  | putIndex i key id hid => exact h.putIndex i key hid
  | delete id => exact h.delete id
  | clear => exact h.clear
  | commit => exact h.commit

theorem of_reachable (h : σ.Reachable s) : Versioned s σ := by
  obtain ⟨σ₀, h₀, hrun⟩ := h
  induction hrun with
  | refl => exact of_initial h₀
  | tail _ hs ih => exact ih.step hs

end Versioned

/-- A bound that compares equal to the key of a record is one. -/
theorem BoundKey.eq_toBound {key : RecordKey} (h : p.key.rank = key.key.rank) :
    ∃ key' : RecordKey, p = key'.toBound := by
  obtain ⟨a, ha, ha', hk⟩ := UserKey.rank_key_eq_cons key.key
  rw [UserKey.rank] at hk
  rw [hk] at h
  obtain ⟨k, hvalid, hnoNaN, hdecodable⟩ := p
  cases k with
  | min =>
    have : (0 : ℤ) = a := (cons_eq_cons.mp h).1
    omega
  | key k => exact ⟨⟨k, hvalid, hnoNaN, hdecodable⟩, rfl⟩
  | max =>
    have : (6 : ℤ) = a := (cons_eq_cons.mp h).1
    omega

/-- What is stored under the key of a record, deleted or not, is what a put has written. -/
def Readable (s : StoreId) (t : Transaction) : Prop :=
  ∀ (p : BoundKey) (v : Bytes), t.Stored (s.objectStoreDataKey p) v →
    ∃ (key : RecordKey) (version : ℕ) (value : ShortString), p = key.toBound ∧ version < 2 ^ 63 ∧
      v = encodeVarInt version ++ encodeString value.units

namespace Readable

variable {s : StoreId} {t : Transaction} {σ σ' : RecordStore}

theorem of_initial (h : σ.Initial s) : Readable s σ.transaction := by
  rintro p v (⟨k, hk⟩ | ⟨k, hk⟩)
  · rw [SortedMap.lookup_eq_none_iff.mpr fun e he hr => h.noData e he ?_] at hk
    · cases hk
    · rw [(LevelDBKey.toPrefix_eq_of_rank_eq hr).1]
      exact ⟨rfl, rfl⟩
  · rw [h.tree] at hk
    cases hk

theorem put (h : Readable s t) (key : RecordKey) (value : ShortString)
    (hfit : (putObjectStoreRecord t s key value).2.version < 2 ^ 63) :
    Readable s (putObjectStoreRecord t s key value).1 := by
  intro p v hv
  have hv' := stored_put_of_ne (StoreKey.rank_ne_of_kind (by simp)) hv
  rcases stored_set hv' with hold | ⟨hr, -, rfl⟩
  · exact h p v (stored_put_of_ne (StoreKey.rank_ne_of_kind (by simp)) hold)
  · obtain ⟨key', rfl⟩ := BoundKey.eq_toBound (StoreId.rank_objectStoreDataKey_eq_iff.mp hr).symm
    exact ⟨key', _, value, rfl, hfit, rfl⟩

theorem putIndex (h : Readable s t) (i : IndexId) (key : RecordKey) (id : RecordIdentifier) :
    Readable s (putIndexDataForRecord t s i key id) := fun p v hv =>
  h p v (stored_put_of_ne (StoreKey.rank_ne_of_kind (by simp)) hv)

theorem step (h : Readable s σ.transaction) (hs : RecordStep s σ σ') :
    Readable s σ'.transaction := by
  cases hs with
  | put key value hfit => exact h.put key value hfit
  | putIndex i key id hid => exact h.putIndex i key id
  | delete id => exact fun p v hv => h p v (stored_remove (stored_remove hv))
  | clear => exact fun p v hv => h p v (stored_deleteRange hv)
  | commit => exact fun p v hv => h p v (stored_create_commit hv)

theorem of_reachable (h : σ.Reachable s) : Readable s σ.transaction := by
  obtain ⟨σ₀, h₀, hrun⟩ := h
  induction hrun with
  | refl => exact of_initial h₀
  | tail _ hs ih => exact ih.step hs

end Readable

/-! ## An example store -/

/-- The object store 1 of the database 1. -/
def exampleStore : StoreId := ⟨⟨1, by decide, by decide⟩, 1, by decide, by decide⟩

def exampleIndex : IndexId := ⟨30, by decide, by decide⟩

/-- The key that is a string of one code unit. -/
def exampleKey (u : UInt16) : RecordKey :=
  ⟨.string [u], show [u].length < 2 ^ 32 by simp, trivial, show [u].length ≤ 2 ^ 30 by simp⟩

/-- The value of one code unit. -/
def exampleValue (u : UInt16) : ShortString := ⟨[u], show [u].length ≤ 2 ^ 30 by simp⟩

end IndexedDB
end WebKit
