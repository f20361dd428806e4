import WebKit.IndexedDB.Records

/-!
# Looking up an index key

An entry of an index is live as long as the version it carries is the current one of its record;
stale entries are left until a lookup meets them.

`findKeyInIndex` walks over the entries of an index key, removes the stale ones and returns the
primary key of the first live one.  It collects the primary keys of the entries it has met in one
vector, and only the first of them is ever decoded.
-/

namespace WebKit

open List
namespace IndexedDB

open LevelDB LevelDBTransaction

/-! ## The lookup -/

/-- `LevelDBTransaction::get` for bytes that need not be a key of the store. -/
def getSlice (t : Transaction) (slice : Bytes) : Option Bytes :=
  match t.m_tree.entries.find? fun e => compare e.1.bytes slice false = 0 with
  | some node => if node.2.deleted then none else some node.2.value
  | none => (t.m_db.entries.find? fun e => compare e.1.bytes slice false = 0).map Prod.snd

variable (t : Transaction) (s : StoreId)

def versionExists (version : ℤ) (encodedPrimaryKey : Bytes) : Bool :=
  match getSlice t (ExistsEntryKey.encode s.databaseId s.objectStoreId encodedPrimaryKey) with
  | none => false
  | some data => decodeInt data = version

/-- The loop of `findKeyInIndex`; the result is the transaction, whether a key was found, and
`foundEncodedPrimaryKey`. -/
def findKeyInIndexLoop (s : StoreId) (leveldbKey : StoreKey) :
    ℕ → Session StoreKey Bytes → Bytes → Transaction × Bool × Bytes
  | 0, session, found => (session.transaction, false, found)
  | n + 1, session, found =>
    match (session.iterator.key session.transaction).1,
      (session.iterator.value session.transaction).1 with
    | some key, some value =>
      if compareIndexKeys key leveldbKey > 0 then (session.transaction, false, found)
      else
        match decodeVarInt value with
        | none => (session.transaction, false, found)
        | some (version, p) =>
          let found := found ++ p
          if versionExists session.transaction s version found then
            (session.transaction, true, found)
          else
            findKeyInIndexLoop s leveldbKey n
              ([Action.read, Action.remove key, Action.move .next].foldl Action.run session) found
    | _, _ => (session.transaction, false, found)

def findKeyInIndex (indexId : IndexId) (key : RecordKey) : Transaction × Bool × Bytes :=
  let leveldbKey := s.indexDataKey indexId key.toBound .min 0 zero_lt_two_pow
  findKeyInIndexLoop s leveldbKey (t.m_db.entries.length + t.m_tree.entries.length + 1)
    ⟨t, TransactionIterator.create.seek t leveldbKey⟩ []

def getPrimaryKeyViaIndex (indexId : IndexId) (key : RecordKey) : Transaction × Option IDBKey :=
  match findKeyInIndex t s indexId key with
  | (t, true, found) => (t, (decodeIDBKey found).map Prod.fst)
  | (t, false, _) => (t, none)

/-! ## Keys with bytes behind them -/

/-- What follows the user key of an exists entry key does not change how it compares. -/
theorem compare_existsEntry_append (k : StoreKey) (s : StoreId) (p : BoundKey) (r : Bytes) :
    compare k.bytes (ExistsEntryKey.encode s.databaseId s.objectStoreId (p.key.encode ++ r)) false =
      compare k.bytes (s.existsEntryKey p).bytes false := by
  have hprefix : ∀ w : Bytes,
      KeyPrefix.decode (ExistsEntryKey.encode s.databaseId s.objectStoreId w) =
        some (⟨s.databaseId, s.objectStoreId, kExistsEntryIndexId⟩, w) := fun w =>
    KeyPrefix.decode_encode s.databaseId_lt s.lt (by decide) w
  have hdec : ∀ r : Bytes, ExistsEntryKey.decode
      (ExistsEntryKey.encode s.databaseId s.objectStoreId (p.key.encode ++ r)) =
        some (⟨p.key.encode⟩, r) := fun r => by
    rw [ExistsEntryKey.encode, ← append_assoc]
    exact ExistsEntryKey.decode_encode s.databaseId_lt s.lt p.valid r
  have hbytes : (s.existsEntryKey p).bytes =
      ExistsEntryKey.encode s.databaseId s.objectStoreId (p.key.encode ++ []) := by
    rw [append_nil]
    rfl
  obtain ⟨w, hw⟩ := LevelDBKey.decode_encode k.valid
  rw [hbytes, StoreKey.bytes, compare, compare, hw, hprefix, hprefix]
  simp only
  split
  · rfl
  · next h =>
    -- with the same prefix the other key is an exists entry key too
    have heq := LevelDBKey.eq_of_prefix_compare_eq_zero (not_not.mp h)
    have htype : (KeyPrefix.mk s.databaseId s.objectStoreId kExistsEntryIndexId).type =
        .kExistsEntry := LevelDBKey.type_toPrefix (s.existsEntryKey p).valid
    rw [heq, htype]
    have hcmp : ∀ r : Bytes, decodeAndCompare ExistsEntryKey.decode ExistsEntryKey.compare
        k.key.encode (ExistsEntryKey.encode s.databaseId s.objectStoreId (p.key.encode ++ r)) =
          (ExistsEntryKey.decode k.key.encode).elim 0 (·.1.compare ⟨p.key.encode⟩) := fun r => by
      rw [decodeAndCompare, hdec]
      cases ExistsEntryKey.decode k.key.encode <;> rfl
    simp only [hcmp, compareDataKeys]
    simp [UserKey.encode_ne_nil]

theorem getSlice_existsEntry (p : BoundKey) (r : Bytes) :
    getSlice t (ExistsEntryKey.encode s.databaseId s.objectStoreId (p.key.encode ++ r)) =
      t.get (s.existsEntryKey p) := by
  simp only [getSlice, compare_existsEntry_append]
  rw [LevelDBTransaction.get]
  change (match t.m_tree.find? (s.existsEntryKey p) with
    | some node => if node.2.deleted then none else some node.2.value
    | none => (t.m_db.find? (s.existsEntryKey p)).map Prod.snd) = _
  cases t.m_tree.find? (s.existsEntryKey p) <;> rfl

/-- Only the first of the collected primary keys counts. -/
theorem versionExists_append (version : ℤ) (p : RecordKey) (r : Bytes) :
    versionExists t s version (encodeIDBKey p.key ++ r) = true ↔
      getInt t (s.existsEntryKey p.toBound) = some version := by
  have hslice := getSlice_existsEntry t s p.toBound r
  rw [versionExists, getInt]
  change getSlice t (ExistsEntryKey.encode _ _ (encodeIDBKey p.key ++ r)) = _ at hslice
  rw [hslice]
  cases t.get (s.existsEntryKey p.toBound) <;> simp

/-! ## The entries of an index key -/

/-- A word not below a continuation of `w` that does not continue `w` is above all of them. -/
theorem append_lt_of_not_isPrefix {α : Type*} [LinearOrder α] {w a x : List α} (h : w ++ a ≤ x)
    (hno : ¬ w <+: x) (y : List α) : w ++ y < x := by
  induction w generalizing x with
  | nil => exact absurd nil_prefix hno
  | cons c w ih =>
    cases x with
    | nil => exact absurd h (not_le.mpr (nil_lt_cons _ _))
    | cons d x =>
      rw [cons_append, le_iff_lt_or_eq, cons_lt_cons_iff, cons_eq_cons] at h
      rw [cons_append, cons_lt_cons_iff]
      rcases h with (h | ⟨rfl, h⟩) | ⟨rfl, h⟩
      · exact Or.inl h
      all_goals exact Or.inr ⟨rfl, ih h.le fun hc => hno (cons_prefix_cons.mpr ⟨rfl, hc⟩)⟩

namespace StoreId

variable (s : StoreId) (i : IndexId) (k : RecordKey)

/-- The beginning of the words of all entries of an index key. -/
def indexWord : List ℤ :=
  [(s.databaseId : ℤ), (s.objectStoreId : ℤ), (i.val : ℤ)] ++ k.key.rank

variable {s i k}

theorem rank_indexDataKey (u p : BoundKey) (n : ℕ) (hn : n < 2 ^ 63) :
    rank (s.indexDataKey i u p n hn) = [(s.databaseId : ℤ), (s.objectStoreId : ℤ), (i.val : ℤ)] ++
        (u.key.rank ++ (p.key.rank ++ [(n : ℤ)])) := rfl

theorem rank_indexDataKey_toBound (p : BoundKey) (n : ℕ) (hn : n < 2 ^ 63) :
    rank (s.indexDataKey i k.toBound p n hn) = s.indexWord i k ++ (p.key.rank ++ [(n : ℤ)]) := by
  rfl

variable {a : StoreKey}

/-- A key with the prefix of an index is an entry of the index. -/
theorem exists_of_toPrefix (h : a.key.toPrefix = ⟨s.databaseId, s.objectStoreId, i.val⟩) :
    ∃ (u p : BoundKey) (n : ℕ) (hn : n < 2 ^ 63), a = s.indexDataKey i u p n hn := by
  have hkind : a.key.kind = .kIndexData := by
    rw [← LevelDBKey.type_toPrefix a.valid, h]
    exact LevelDBKey.type_toPrefix (s.indexDataKey i .min .min 0 (by decide)).valid
  obtain ⟨key, hvalid, hinUse⟩ := a
  cases key with
  | indexData d os j u p n =>
    obtain ⟨hd, hos, hj⟩ : (d : ℤ) = s.databaseId ∧ (os : ℤ) = s.objectStoreId ∧
        (j : ℤ) = i.val := by simpa [LevelDBKey.toPrefix] using h
    obtain rfl := Int.natCast_inj.mp hd
    obtain rfl := Int.natCast_inj.mp hos
    obtain rfl := Int.natCast_inj.mp hj
    exact ⟨⟨u, hvalid.2.2.2.1.1, hvalid.2.2.2.1.2, hinUse.1⟩,
      ⟨p, hvalid.2.2.2.2.1.1, hvalid.2.2.2.2.1.2, hinUse.2⟩, n, hvalid.2.2.2.2.2, rfl⟩
  | _ => exact absurd hkind (by simp [LevelDBKey.kind])

/-- A key whose word has that beginning is an entry of the index key. -/
theorem exists_of_indexWord_isPrefix (h : s.indexWord i k <+: rank a) :
    ∃ (u p : BoundKey) (n : ℕ) (hn : n < 2 ^ 63), a = s.indexDataKey i u p n hn ∧
      u.key.rank = k.key.rank := by
  obtain ⟨y, hy⟩ := h
  rw [indexWord, append_assoc, StoreKey.rank_def, LevelDBKey.rank] at hy
  have hprefix : a.key.toPrefix = ⟨s.databaseId, s.objectStoreId, i.val⟩ := by
    simp only [cons_append, List.cons.injEq] at hy
    rw [KeyPrefix.ext_iff]
    exact ⟨hy.1.symm, hy.2.1.symm, hy.2.2.1.symm⟩
  obtain ⟨u, p, n, hn, rfl⟩ := exists_of_toPrefix hprefix
  refine ⟨u, p, n, hn, rfl, ?_⟩
  have hlex := u.key.lexOf_rank (.key k.key)
  have htail : u.key.rank ++ (p.key.rank ++ [(n : ℤ)]) = k.key.rank ++ y :=
    (append_cancel_left hy).symm
  exact hlex.eq_iff.mpr ((hlex.eq_append_iff _ _).mp htail).1

/-- The key with which a lookup starts, before every entry of the index key. -/
def indexStart (s : StoreId) (i : IndexId) (k : RecordKey) : StoreKey :=
  s.indexDataKey i k.toBound .min 0 zero_lt_two_pow

theorem rank_indexStart : rank (s.indexStart i k) = s.indexWord i k ++ [0, 0] :=
  rank_indexDataKey_toBound ..

theorem rank_indexStart_lt (p : RecordKey) :
    rank (s.indexStart i k) < s.indexWord i k ++ (p.key.rank ++ [0]) := by
  obtain ⟨a, ha, -, hp⟩ := UserKey.rank_key_eq_cons p.key
  replace hp : p.key.rank = a :: p.key.rank.tail := hp
  rw [rank_indexStart, hp]
  exact append_left_lt (cons_lt_cons_iff.mpr (Or.inl ha))

theorem compareIndexKeys_indexDataKey (u p : BoundKey) (n : ℕ) (hn : n < 2 ^ 63) :
    compareIndexKeys (s.indexDataKey i u p n hn) (s.indexStart i k) =
      compareEncodedIDBKeys u.key.encode (encodeIDBKey k.key) := by
  have h := LevelDBKey.compare_indexData (s.indexDataKey i u p n hn).valid (s.indexStart i k).valid
    true
  refine h.trans ?_
  simp only [if_true, ite_not]
  split
  · next hx => exact hx.symm
  · rfl

theorem compareIndexKeys_of_isPrefix (h : s.indexWord i k <+: rank a) :
    compareIndexKeys a (s.indexStart i k) = 0 := by
  obtain ⟨u, p, n, hn, rfl, hu⟩ := exists_of_indexWord_isPrefix h
  rw [compareIndexKeys_indexDataKey]
  have hlex := LevelDBKey.lexOf_userKey ⟨u.valid, u.noNaN⟩ ⟨k.toBound.valid, k.toBound.noNaN⟩
  exact orderingOfInt_eq_eq.mp (hlex.eq_iff.mp hu)

/-- The walk of a lookup stops at the first key that is no entry of the index key. -/
theorem compareIndexKeys_pos_iff (h : rank (s.indexStart i k) ≤ rank a) :
    0 < compareIndexKeys a (s.indexStart i k) ↔ ¬ s.indexWord i k <+: rank a := by
  refine ⟨fun hpos hpre => absurd (compareIndexKeys_of_isPrefix hpre) hpos.ne', fun hno => ?_⟩
  have hlt : rank (s.indexStart i k) < rank a := by
    rw [rank_indexStart] at h ⊢
    exact append_lt_of_not_isPrefix h hno _
  have hpos : 0 < compare a.bytes (s.indexStart i k).bytes false := compare_pos_iff.mpr hlt
  by_cases hp : a.key.toPrefix.compare (s.indexStart i k).key.toPrefix = 0
  · -- an entry of the index with a greater user key
    have heq := LevelDBKey.eq_of_prefix_compare_eq_zero hp
    obtain ⟨u, p, n, hn, rfl⟩ := exists_of_toPrefix heq
    have hx : compareEncodedIDBKeys u.key.encode (encodeIDBKey k.key) ≠ 0 := fun h0 => hno <| by
      have hlex := LevelDBKey.lexOf_userKey ⟨u.valid, u.noNaN⟩
        ⟨k.toBound.valid, k.toBound.noNaN⟩
      have hu : u.key.rank = k.key.rank := hlex.eq_iff.mpr (orderingOfInt_eq_eq.mpr h0)
      rw [rank_indexDataKey, hu]
      exact prefix_append _ _
    have hfalse := LevelDBKey.compare_indexData (s.indexDataKey i u p n hn).valid
      (s.indexStart i k).valid false
    rw [compareIndexKeys_indexDataKey]
    exact hpos.trans_eq (hfalse.trans (if_pos hx))
  · have htrue := LevelDBKey.compare_of_prefix_ne a.valid (s.indexStart i k).valid hp true
    have hfalse := LevelDBKey.compare_of_prefix_ne a.valid (s.indexStart i k).valid hp false
    exact hpos.trans_eq (hfalse.trans htrue.symm)

end StoreId

/-! ## The walk over the entries -/

section Walk

variable {s : StoreId} {i : IndexId} {k : RecordKey} {σ : RecordStore}

/-- A transaction from which a lookup has removed entries of the index key. -/
structure RemovedFrom (s : StoreId) (i : IndexId) (k : RecordKey) (t t' : Transaction) : Prop where
  db : t'.m_db = t.m_db
  view : ∀ o, t'.view o = t.view o ∨ s.indexWord i k <+: o ∧ t'.view o = none

namespace RemovedFrom

variable {t t' : Transaction}

theorem refl (t : Transaction) : RemovedFrom s i k t t := ⟨rfl, fun _ => Or.inl rfl⟩

variable (h : RemovedFrom s i k t t')

include h

theorem remove {a : StoreKey} (ha : s.indexWord i k <+: rank a) :
    RemovedFrom s i k t (t'.remove a).1 := by
  refine ⟨(set_m_db ..).trans h.db, fun o => ?_⟩
  rw [view_remove]
  split
  · next hr => exact Or.inr ⟨hr ▸ ha, rfl⟩
  · exact h.view o

theorem get_existsEntryKey (p : BoundKey) :
    t'.get (s.existsEntryKey p) = t.get (s.existsEntryKey p) := by
  rw [get_eq_view, get_eq_view]
  rcases h.view (rank (s.existsEntryKey p)) with hv | ⟨hw, -⟩
  · rw [hv]
  · obtain ⟨u, q, n, hn, heq, -⟩ := StoreId.exists_of_indexWord_isPrefix hw
    have hkind := congrArg (fun a : StoreKey => a.key.kind) heq
    exact absurd hkind (by simp)

/-- What the iterator reads was stored before. -/
theorem stored {a : StoreKey} {v : Bytes} (hv : t'.view (rank a) = some (a, v) ∨
      t'.view (rank a) = none ∧ t'.m_db.lookup (rank a) = some (a, v)) : t.Stored a v := by
  rcases hv with hv | ⟨-, hv⟩
  · rcases h.view (rank a) with heq | ⟨-, hnone⟩
    · exact stored_of_view (heq.symm.trans hv)
    · rw [hnone] at hv
      cases hv
  · exact Or.inl ⟨a, h.db ▸ hv⟩

end RemovedFrom

/-- What the walk reads at an entry of the index key. -/
theorem Versioned.exists_data (h : Versioned s σ) {a : StoreKey} {v : Bytes}
    (ha : s.indexWord i k <+: rank a) (hv : σ.transaction.Stored a v) :
    ∃ id ∈ σ.issued, rank a = s.indexWord i k ++ (id.primaryKey.key.rank ++ [0]) ∧
      decodeVarInt v = some ((id.version : ℤ), encodeIDBKey id.primaryKey.key) := by
  obtain ⟨u, p, n, hn, rfl, hu⟩ := StoreId.exists_of_indexWord_isPrefix ha
  obtain ⟨rfl, id, hid, hp, rfl⟩ := h.index_entry i u p n hn v hv
  refine ⟨id, hid, ?_, decodeVarInt_encodeVarInt (h.version_lt id hid) _⟩
  rw [StoreId.rank_indexDataKey, hu, hp]
  rfl

/-- No version belongs to two primary keys. -/
theorem Versioned.rank_eq_of_getInt (h : Versioned s σ) {p : RecordKey} {id : RecordIdentifier}
    (hid : id ∈ σ.issued)
    (hv : getInt σ.transaction (s.existsEntryKey p.toBound) = some (id.version : ℤ)) :
    p.key.rank = id.primaryKey.key.rank := by
  obtain ⟨v, hget, hdec⟩ := Option.map_eq_some_iff.mp hv
  obtain ⟨id', hid', hp, rfl⟩ := h.exists_entry p.toBound v hget
  rw [decodeInt_encodeInt (h.version_lt id' hid'), Int.natCast_inj] at hdec
  exact hp.trans (h.unique id' hid' id hid hdec)

/-- Once a stale entry has been met, every later one is taken for stale and removed. -/
theorem findKeyInIndexLoop_stale (h : Versioned s σ) (p : RecordKey) (n : ℕ)
    {session : Session StoreKey Bytes} (hsweep : Sweeping session.transaction session.iterator)
    (hshown : Shown session.transaction session.iterator)
    (hremoved : RemovedFrom s i k σ.transaction session.transaction)
    (hpos : ∀ a, session.iterator.currentKey = some a →
      s.indexWord i k ++ (p.key.rank ++ [0]) < rank a)
    (hn : ahead session < n) (r : Bytes) :
    (findKeyInIndexLoop s (s.indexStart i k) n session (encodeIDBKey p.key ++ r)).2.1 = false ∧
      ∀ o, (findKeyInIndexLoop s (s.indexStart i k) n session (encodeIDBKey p.key ++ r)).1.view o =
        if position .forward session.iterator.currentKey ≤
            (Direction.forward.ofRank o : Direction.forward.Rank (List ℤ)) ∧
          s.indexWord i k <+: o then none else session.transaction.view o := by
  induction n generalizing session r with
  | zero => exact absurd hn (Nat.not_lt_zero _)
  | succ n ih =>
    have hkey : (session.iterator.key session.transaction).1 = session.iterator.currentKey :=
      hsweep.coherent.currentKey_refresh
    rw [findKeyInIndexLoop, hkey]
    cases hk : session.iterator.currentKey with
    | none => exact ⟨rfl, fun o => by rw [if_neg (by simp [position])]⟩
    | some a =>
      obtain ⟨v, hvalue, hv⟩ := hshown a hk
      have hlt := hpos a hk
      have hstart : rank (s.indexStart i k) ≤ rank a :=
        (StoreId.rank_indexStart_lt p).le.trans hlt.le
      rw [hvalue]
      simp only [position_some_le_iff, StoreId.compareIndexKeys_pos_iff hstart]
      by_cases hw : s.indexWord i k <+: rank a
      · obtain ⟨id, hid, hrank, hdec⟩ := h.exists_data hw (hremoved.stored hv)
        have hstale : ¬ versionExists session.transaction s (id.version : ℤ)
            (encodeIDBKey p.key ++ (r ++ encodeIDBKey id.primaryKey.key)) = true := by
          rw [versionExists_append, getInt, hremoved.get_existsEntryKey]
          intro hc
          rw [hrank, h.rank_eq_of_getInt hid hc] at hlt
          exact lt_irrefl _ hlt
        rw [if_neg (not_not.mpr hw), hdec]
        simp only [append_assoc]
        rw [if_neg hstale]
        obtain ⟨hs', hshown', ht', hn', hlt', hle'⟩ := sweeping_removeNext hsweep hk rfl
        have ih' := ih hs' hshown' (by rw [ht']; exact hremoved.remove hw) (fun b hb => ?_)
          (by omega) (r ++ encodeIDBKey id.primaryKey.key)
        · refine ⟨ih'.1, fun o => ?_⟩
          rw [ih'.2 o]
          exact ite_view_remove (P := fun o => s.indexWord i k <+: o) hw hlt' hle' o
        · rw [hb] at hlt'
          exact hlt.trans (WithTop.coe_lt_coe.mp hlt')
      · rw [if_pos hw]
        refine ⟨rfl, fun o => ?_⟩
        rw [if_neg]
        rintro ⟨hle, y, rfl⟩
        rw [StoreId.rank_indexStart] at hstart
        exact absurd (append_lt_of_not_isPrefix hstart hw y) (not_lt.mpr hle)

end Walk

/-! ## What a lookup finds -/

/-- The version of the current record of a primary key. -/
def recordVersion (t : Transaction) (s : StoreId) (p : RecordKey) : Option ℤ :=
  getInt t (s.existsEntryKey p.toBound)

variable (t : Transaction) (s : StoreId) (i : IndexId)

/-- The version an index entry carries. -/
def indexVersion (k p : RecordKey) : Option ℤ :=
  (t.get (s.indexDataKey i k.toBound p.toBound 0 zero_lt_two_pow)).bind fun data =>
    (decodeVarInt data).map Prod.fst

/-- There is an entry, and it carries the version of the current record. -/
def LiveEntry (k p : RecordKey) : Prop :=
  ∃ version, indexVersion t s i k p = some version ∧ recordVersion t s p = some version

/-- There is an entry, and it carries another version. -/
def StaleEntry (k p : RecordKey) : Prop :=
  ∃ version, indexVersion t s i k p = some version ∧ recordVersion t s p ≠ some version

/-- What a lookup is to do. -/
structure FindsLive (t : Transaction) (s : StoreId) (i : IndexId) (k : RecordKey)
    (result : Transaction × Option IDBKey) : Prop where
  found : ∀ q, result.2 = some q → ∃ p : RecordKey, p.key = q ∧ LiveEntry t s i k p ∧
    ∀ p', LiveEntry t s i k p' → p'.key.referenceCompare q ≠ .lt
  notFound : result.2 = none ↔ ∀ p, ¬ LiveEntry t s i k p
  removed : ∀ a : StoreKey, result.1.get a = t.get a ∨ result.1.get a = none ∧
    ∃ p, rank a = rank (s.indexDataKey i k.toBound p.toBound 0 (by decide)) ∧ StaleEntry t s i k p

/-- If an entry of the index key is live, the first one is. -/
def FirstEntryLive (k : RecordKey) : Prop :=
  (∃ p, LiveEntry t s i k p) → ∃ p, LiveEntry t s i k p ∧
    ∀ p', (indexVersion t s i k p').isSome → p'.key.referenceCompare p.key ≠ .lt

section Find

variable {s : StoreId} {i : IndexId} {k : RecordKey} {σ : RecordStore}

theorem rank_indexDataKey_record (p : RecordKey) :
    rank (s.indexDataKey i k.toBound p.toBound 0 (by decide)) =
      s.indexWord i k ++ (p.key.rank ++ [0]) :=
  StoreId.rank_indexDataKey_toBound ..

variable {p q : RecordKey} {t : Transaction}

theorem rank_record_lt_iff :
    s.indexWord i k ++ (p.key.rank ++ [0]) < s.indexWord i k ++ (q.key.rank ++ [0]) ↔
      p.key.referenceCompare q.key = .lt := by
  rw [(LexOf.refl (s.indexWord i k)).lt_append_iff, (p.key.lexOf_rank q.key).lt_append_iff]
  simp

/-- Equal keys have the same versions. -/
theorem indexVersion_congr (h : p.key.rank = q.key.rank) :
    indexVersion t s i k p = indexVersion t s i k q := by
  rw [indexVersion, indexVersion, get_eq_view, get_eq_view, rank_indexDataKey_record,
    rank_indexDataKey_record, h]

theorem recordVersion_congr (h : p.key.rank = q.key.rank) :
    recordVersion t s p = recordVersion t s q := by
  have hr : rank (s.existsEntryKey p.toBound) = rank (s.existsEntryKey q.toBound) :=
    StoreId.rank_existsEntryKey_eq_iff.mpr h
  rw [recordVersion, recordVersion, getInt, getInt, get_eq_view, get_eq_view, hr]

/-- The entries of an index key are those of its records. -/
theorem Versioned.exists_entry_of_view (h : Versioned s σ) {o : List ℤ}
    (ho : s.indexWord i k <+: o) {e : StoreKey × Bytes} (he : σ.transaction.view o = some e) :
    ∃ id ∈ σ.issued, o = s.indexWord i k ++ (id.primaryKey.key.rank ++ [0]) ∧
      decodeVarInt e.2 = some ((id.version : ℤ), encodeIDBKey id.primaryKey.key) ∧
      indexVersion σ.transaction s i k id.primaryKey = some (id.version : ℤ) := by
  obtain rfl := rank_of_view he
  obtain ⟨id, hid, hrank, hdec⟩ := h.exists_data ho (stored_of_view he)
  refine ⟨id, hid, hrank, hdec, ?_⟩
  rw [indexVersion, get_eq_view, rank_indexDataKey_record, ← hrank, he]
  simp [hdec]

theorem isSome_view_of_indexVersion (h : (indexVersion t s i k p).isSome) :
    (t.view (s.indexWord i k ++ (p.key.rank ++ [0]))).isSome := by
  rw [indexVersion, get_eq_view, rank_indexDataKey_record] at h
  cases hv : t.view (s.indexWord i k ++ (p.key.rank ++ [0])) with
  | none => simp [hv] at h
  | some e => rfl

/-- The three outcomes of a lookup. -/
inductive LookupOutcome (s : StoreId) (i : IndexId) (k : RecordKey) (t : Transaction) :
    Transaction × Option IDBKey → Prop
  | empty (h : ∀ o, s.indexWord i k <+: o → t.view o = none) : LookupOutcome s i k t (t, none)
  | live (p : RecordKey)
      (first : ∀ o, s.indexWord i k <+: o → (t.view o).isSome →
        s.indexWord i k ++ (p.key.rank ++ [0]) ≤ o)
      (live : LiveEntry t s i k p) : LookupOutcome s i k t (t, some p.key)
  | stale (t' : Transaction) (p : RecordKey)
      (first : ∀ o, s.indexWord i k <+: o → (t.view o).isSome →
        s.indexWord i k ++ (p.key.rank ++ [0]) ≤ o)
      (stale : StaleEntry t s i k p)
      (removed : ∀ o, s.indexWord i k <+: o → t'.view o = none)
      (kept : ∀ o, ¬ s.indexWord i k <+: o → t'.view o = t.view o) :
      LookupOutcome s i k t (t', none)

theorem Versioned.lookupOutcome (h : Versioned s σ) (i : IndexId) (k : RecordKey) :
    LookupOutcome s i k σ.transaction (getPrimaryKeyViaIndex σ.transaction s i k) := by
  let start := TransactionIterator.create.seek σ.transaction (s.indexStart i k)
  have hfirst : IsFirst {x | x ∈ (σ.transaction.overlay .forward).view ∧
      Direction.forward.ofRank (rank (s.indexStart i k)) ≤ x}
      (position .forward start.currentKey) :=
    TransactionIterator.isFirst_seek_currentKey σ.transaction _ _
  have hsweep : Sweeping σ.transaction start := Sweeping.seek ..
  have hshown : Shown σ.transaction start := Sweeping.shown_seek _ _ _
  have hkey : (start.key σ.transaction).1 = start.currentKey := hsweep.coherent.currentKey_refresh
  -- the entries of the index key lie behind the start
  have hle : ∀ o, s.indexWord i k <+: o → (σ.transaction.view o).isSome →
      position .forward start.currentKey ≤
        (Direction.forward.ofRank o : Direction.forward.Rank (List ℤ)) := by
    intro o ho hsome
    obtain ⟨e, he⟩ := Option.isSome_iff_exists.mp hsome
    obtain ⟨id, -, rfl, -⟩ := h.exists_entry_of_view ho he
    exact hfirst.le _ ⟨mem_view_iff.mpr hsome, (StoreId.rank_indexStart_lt _).le⟩
  change LookupOutcome s i k σ.transaction
    (match findKeyInIndexLoop s (s.indexStart i k) _ ⟨σ.transaction, start⟩ [] with
    | (t, true, found) => (t, (decodeIDBKey found).map Prod.fst)
    | (t, false, _) => (t, none))
  rw [findKeyInIndexLoop, hkey]
  cases hk : start.currentKey with
  | none =>
    refine .empty fun o ho => ?_
    by_contra hne
    have := hle o ho (Option.isSome_iff_ne_none.mpr hne)
    rw [hk] at this
    exact absurd this (by simp)
  | some a =>
    obtain ⟨hmem, hstart⟩ := hfirst.mem (Direction.forward.ofRank (rank a)) (by rw [hk]; rfl)
    obtain ⟨v, hvalue, hv⟩ := hshown a hk
    simp only [hk, position_some_le_iff] at hle
    rw [hvalue]
    simp only [StoreId.compareIndexKeys_pos_iff hstart, nil_append]
    by_cases hw : s.indexWord i k <+: rank a
    · have hview : σ.transaction.view (rank a) = some (a, v) := by
        rcases hv with hv | ⟨hnone, -⟩
        · exact hv
        · have hsome : (σ.transaction.view (rank a)).isSome := mem_view_iff.mp hmem
          rw [hnone] at hsome
          cases hsome
      obtain ⟨id, hid, hrank, hdec, hindex⟩ := h.exists_entry_of_view hw hview
      have hexists := versionExists_append σ.transaction s id.version id.primaryKey []
      rw [append_nil] at hexists
      rw [if_neg (not_not.mpr hw), hdec]
      simp only
      by_cases hlive : versionExists σ.transaction s (id.version : ℤ)
          (encodeIDBKey id.primaryKey.key) = true
      · rw [if_pos hlive]
        have hdec' := decodeIDBKey_encodeIDBKey id.primaryKey.valid id.primaryKey.decodable []
        rw [append_nil] at hdec'
        simp only [hdec']
        exact .live _ (fun o ho hsome => hrank ▸ hle o ho hsome) ⟨_, hindex, hexists.mp hlive⟩
      · rw [if_neg hlive]
        obtain ⟨hs', hshown', ht', hn', hlt', hle'⟩ :=
          sweeping_removeNext (s := ⟨σ.transaction, start⟩) hsweep hk rfl
        have hahead : ahead ⟨σ.transaction, start⟩ ≤
            σ.transaction.m_db.entries.length + σ.transaction.m_tree.entries.length :=
          Nat.add_le_add countP_le_length countP_le_length
        obtain ⟨hfalse, hview'⟩ := findKeyInIndexLoop_stale h id.primaryKey _ hs' hshown'
          (by rw [ht']; exact (RemovedFrom.refl _).remove hw)
          (fun b hb => by rw [hb] at hlt'; rw [← hrank]; exact WithTop.coe_lt_coe.mp hlt')
          (hn'.trans_le hahead) []
        rw [append_nil] at hfalse hview'
        have hremoved : ∀ o, (findKeyInIndexLoop s (s.indexStart i k) _
            ([Action.read, Action.remove a, Action.move .next].foldl Action.run
              ⟨σ.transaction, start⟩) (encodeIDBKey id.primaryKey.key)).1.view o =
              if rank a ≤ o ∧ s.indexWord i k <+: o then none else σ.transaction.view o :=
          fun o => by
            rw [hview' o]
            exact ite_view_remove (P := fun o => s.indexWord i k <+: o) hw hlt' hle' o
        generalize findKeyInIndexLoop s (s.indexStart i k) _ _ _ = result at hfalse hremoved
        obtain ⟨t', b, found⟩ := result
        obtain rfl : b = false := hfalse
        refine .stale t' id.primaryKey (fun o ho hsome => hrank ▸ hle o ho hsome)
          ⟨_, hindex, fun hc => hlive (hexists.mpr hc)⟩ (fun o ho => ?_) fun o ho => ?_
        · rw [hremoved]
          split
          · rfl
          · next hno =>
            by_contra hne
            exact hno ⟨hle o ho (Option.isSome_iff_ne_none.mpr hne), ho⟩
        · rw [hremoved, if_neg fun hc => ho hc.2]
    · rw [if_pos hw]
      refine .empty fun o ho => ?_
      by_contra hne
      obtain ⟨y, rfl⟩ := ho
      rw [StoreId.rank_indexStart] at hstart
      exact absurd (append_lt_of_not_isPrefix hstart hw y)
        (not_lt.mpr (hle _ (prefix_append _ _) (Option.isSome_iff_ne_none.mpr hne)))

theorem LiveEntry.isSome_view (h : LiveEntry t s i k p) :
    (t.view (s.indexWord i k ++ (p.key.rank ++ [0]))).isSome := by
  obtain ⟨version, hindex, -⟩ := h
  exact isSome_view_of_indexVersion (by rw [hindex]; rfl)

theorem LiveEntry.not_stale (h : LiveEntry t s i k p) (hpq : p.key.rank = q.key.rank) :
    ¬ StaleEntry t s i k q := by
  obtain ⟨version, hindex, hrecord⟩ := h
  rintro ⟨version', hindex', hrecord'⟩
  rw [indexVersion_congr hpq, hindex'] at hindex
  rw [recordVersion_congr hpq, ← hindex] at hrecord
  exact hrecord' hrecord

/-- An entry that is not live is stale. -/
theorem Versioned.removed_stale (h : Versioned s σ) (hnone : ∀ p, ¬ LiveEntry σ.transaction s i k p)
    {t' : Transaction} (hremoved : ∀ o, s.indexWord i k <+: o → t'.view o = none)
    (hkept : ∀ o, ¬ s.indexWord i k <+: o → t'.view o = σ.transaction.view o) (a : StoreKey) :
    t'.get a = σ.transaction.get a ∨ t'.get a = none ∧
      ∃ p, rank a = rank (s.indexDataKey i k.toBound p.toBound 0 (by decide)) ∧
        StaleEntry σ.transaction s i k p := by
  rw [get_eq_view, get_eq_view]
  by_cases hw : s.indexWord i k <+: rank a
  · rw [hremoved _ hw]
    cases hv : σ.transaction.view (rank a) with
    | none => exact Or.inl rfl
    | some e =>
      obtain ⟨id, -, hrank, -, hindex⟩ := h.exists_entry_of_view hw hv
      refine Or.inr ⟨rfl, id.primaryKey, ?_, _, hindex, fun hrecord => ?_⟩
      · rw [rank_indexDataKey_record, hrank]
      · exact hnone id.primaryKey ⟨_, hindex, hrecord⟩
  · rw [hkept _ hw]
    exact Or.inl rfl

end Find

/-- **When a lookup finds the live entry.**  In every reachable store a lookup returns the smallest
primary key with a live entry, and removes only stale entries, exactly when no stale entry of the
index key comes before the first live one. -/
theorem findsLive_iff (s : StoreId) (σ : RecordStore) (hσ : σ.Reachable s) (i : IndexId)
    (k : RecordKey) :
    FindsLive σ.transaction s i k (getPrimaryKeyViaIndex σ.transaction s i k) ↔
      FirstEntryLive σ.transaction s i k := by
  have h := Versioned.of_reachable hσ
  have houtcome := h.lookupOutcome i k
  generalize getPrimaryKeyViaIndex σ.transaction s i k = result at houtcome ⊢
  cases houtcome with
  | empty hempty =>
    have hnone : ∀ p, ¬ LiveEntry σ.transaction s i k p := fun p hp => by
      have hsome := hp.isSome_view
      rw [hempty _ (prefix_append _ _)] at hsome
      cases hsome
    exact ⟨fun _ hex => absurd hex (not_exists.mpr hnone), fun _ =>
      ⟨nofun, ⟨fun _ => hnone, fun _ => rfl⟩, fun _ => Or.inl rfl⟩⟩
  | live p first live =>
    have hmin : ∀ p' : RecordKey, (σ.transaction.view (s.indexWord i k ++ (p'.key.rank ++ [0]))).isSome →
        p'.key.referenceCompare p.key ≠ .lt := fun p' hsome hlt =>
      absurd (first _ (prefix_append _ _) hsome) (not_le.mpr (rank_record_lt_iff.mpr hlt))
    refine ⟨fun _ _ => ⟨p, live, fun p' hp' => hmin p' (isSome_view_of_indexVersion hp')⟩,
      fun _ => ⟨?_, ⟨nofun, fun hnone => absurd live (hnone p)⟩, fun _ => Or.inl rfl⟩⟩
    rintro q hq
    obtain rfl := Option.some_inj.mp hq
    exact ⟨p, rfl, live, fun p' hp' => hmin p' hp'.isSome_view⟩
  | stale t' p first stale removed kept =>
    by_cases hex : ∃ p₀, LiveEntry σ.transaction s i k p₀
    · -- both sides fail: nothing is returned, and the first entry is stale
      refine iff_of_false (fun hfinds => ?_) fun hfirst => ?_
      · exact hex.elim (hfinds.notFound.mp rfl)
      · obtain ⟨p₁, hlive, hmin⟩ := hfirst hex
        obtain ⟨version, hindex, hrecord⟩ := stale
        have hle := first _ (prefix_append _ _) hlive.isSome_view
        have hge := hmin p (by rw [hindex]; rfl)
        have heq : s.indexWord i k ++ (p.key.rank ++ [0]) =
            s.indexWord i k ++ (p₁.key.rank ++ [0]) :=
          hle.antisymm (not_lt.mp fun hc => hge (rank_record_lt_iff.mp hc))
        have hrank := append_cancel_right (append_cancel_left heq)
        exact hlive.not_stale hrank.symm ⟨version, hindex, hrecord⟩
    · have hnone := not_exists.mp hex
      exact ⟨fun _ h' => absurd h' hex, fun _ =>
        ⟨nofun, ⟨fun _ => hnone, fun _ => rfl⟩, h.removed_stale hnone removed kept⟩⟩

section Example

/-- Two records, with the keys 1 and 2, under the index key 9. -/
def exampleRecords : RecordStore :=
  let t : Transaction := LevelDBTransaction.create SortedMap.empty
  let put₁ := putObjectStoreRecord t exampleStore (exampleKey 1) (exampleValue 7)
  let put₂ := putObjectStoreRecord put₁.1 exampleStore (exampleKey 2) (exampleValue 8)
  let t := putIndexDataForRecord put₂.1 exampleStore exampleIndex (exampleKey 9) put₁.2
  ⟨putIndexDataForRecord t exampleStore exampleIndex (exampleKey 9) put₂.2, [put₂.2, put₁.2]⟩

theorem reachable_exampleRecords : exampleRecords.Reachable exampleStore := by
  refine ⟨⟨LevelDBTransaction.create SortedMap.empty, []⟩, ⟨rfl, rfl, ?_, by decide +kernel⟩, ?_⟩
  · simp [LevelDBTransaction.create, SortedMap.empty]
  · refine .tail (.tail (.tail (.tail .refl (.put _ (exampleKey 1) (exampleValue 7) (by decide +kernel)))
      (.put _ (exampleKey 2) (exampleValue 8) (by decide +kernel)))
      (.putIndex _ exampleIndex (exampleKey 9) _ (mem_cons_of_mem _ (mem_cons_self ..))))
      (.putIndex _ exampleIndex (exampleKey 9) _ (mem_cons_self ..))

theorem firstEntryLive_exampleRecords :
    FirstEntryLive exampleRecords.transaction exampleStore exampleIndex (exampleKey 9) := by
  refine fun _ => ⟨exampleKey 1, ⟨1, by decide +kernel, by decide +kernel⟩, fun p hp hlt => ?_⟩
  obtain ⟨e, he⟩ := Option.isSome_iff_exists.mp (isSome_view_of_indexVersion hp)
  obtain ⟨id, hid, hrank, -⟩ := (Versioned.of_reachable reachable_exampleRecords).exists_entry_of_view
    (prefix_append _ _) he
  have hp' := append_cancel_right (append_cancel_left hrank)
  have hlt' : id.primaryKey.key.rank < (exampleKey 1).key.rank :=
    hp' ▸ (p.key.lexOf_rank (exampleKey 1).key).lt_iff.mpr hlt
  rcases mem_cons.mp hid with rfl | hid
  · exact absurd hlt' (by decide +kernel)
  · rw [mem_singleton.mp hid] at hlt'
    exact absurd hlt' (lt_irrefl _)

/-- The first of the two records is found. -/
theorem findsLive_iff_exampleRecords :
    FirstEntryLive exampleRecords.transaction exampleStore exampleIndex (exampleKey 9) ∧
      FindsLive exampleRecords.transaction exampleStore exampleIndex (exampleKey 9)
        (getPrimaryKeyViaIndex exampleRecords.transaction exampleStore exampleIndex
          (exampleKey 9)) :=
  ⟨firstEntryLive_exampleRecords,
    (findsLive_iff exampleStore exampleRecords reachable_exampleRecords exampleIndex
      (exampleKey 9)).mpr firstEntryLive_exampleRecords⟩

/-- When the first record is deleted, the second is not found any more. -/
theorem not_findsLive_deletedFirst :
    let t := deleteObjectStoreRecord exampleRecords.transaction exampleStore ⟨exampleKey 1, 1⟩
    RecordStore.Reachable exampleStore ⟨t, exampleRecords.issued⟩ ∧
      LiveEntry t exampleStore exampleIndex (exampleKey 9) (exampleKey 2) ∧
      (getPrimaryKeyViaIndex t exampleStore exampleIndex (exampleKey 9)).2 = none ∧
      ¬ FindsLive t exampleStore exampleIndex (exampleKey 9)
        (getPrimaryKeyViaIndex t exampleStore exampleIndex (exampleKey 9)) := by
  intro t
  have hlive : LiveEntry t exampleStore exampleIndex (exampleKey 9) (exampleKey 2) :=
    ⟨2, by decide +kernel, by decide +kernel⟩
  have hnone : (getPrimaryKeyViaIndex t exampleStore exampleIndex (exampleKey 9)).2 = none :=
    Option.isNone_iff_eq_none.mp (by decide +kernel)
  obtain ⟨σ₀, h₀, hrun⟩ := reachable_exampleRecords
  refine ⟨⟨σ₀, h₀, hrun.tail (.delete _ _)⟩, hlive, hnone, fun h => ?_⟩
  exact h.notFound.mp hnone _ hlive

end Example

end IndexedDB
end WebKit
