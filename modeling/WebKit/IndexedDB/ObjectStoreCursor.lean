import WebKit.IndexedDB.Records
import WebKit.LevelDB.Walk

/-!
# The cursor over an object store

`openObjectStoreCursor` turns a key range into two keys of the store, places an iterator on the
first record of the range, and `continueFunction` moves it on.  `continueFunction` asks the
transaction for every key it comes to; `firstSeek` does not, and relies on the iterator to skip the
records that are deleted.

A reverse cursor starts at a key that exists, which `findGreatestKeyLessThanOrEqual` looks for; it
need not be one of the object store.
-/

namespace WebKit

open Direction
namespace IndexedDB

open LevelDB LevelDBTransaction

/-! ## The cursor -/

/-- `IDBCursor::Direction`. -/
inductive CursorDirection where
  | NEXT
  | NEXT_NO_DUPLICATE
  | PREV
  | PREV_NO_DUPLICATE
  deriving DecidableEq

namespace CursorDirection

def forward (direction : CursorDirection) : Bool :=
  direction = .NEXT_NO_DUPLICATE ∨ direction = .NEXT

def unique (direction : CursorDirection) : Bool :=
  direction = .NEXT_NO_DUPLICATE ∨ direction = .PREV_NO_DUPLICATE

end CursorDirection

structure IDBKeyRange where
  lower : Option RecordKey
  upper : Option RecordKey
  lowerOpen : Bool
  upperOpen : Bool

/-- The lower bound of a range that may be null, with whether it is open. -/
def lowerBound (range : Option IDBKeyRange) : Option (RecordKey × Bool) :=
  range.bind fun r => r.lower.map fun key => (key, r.lowerOpen)

def upperBound (range : Option IDBKeyRange) : Option (RecordKey × Bool) :=
  range.bind fun r => r.upper.map fun key => (key, r.upperOpen)

structure CursorOptions where
  lowKey : StoreKey
  lowOpen : Bool
  highKey : StoreKey
  highOpen : Bool
  forward : Bool
  unique : Bool

/-- The first loop of `findGreatestKeyLessThanOrEqual`. -/
def prevWhileGreater (t : Transaction) (target : StoreKey) :
    ℕ → TransactionIterator StoreKey → Option (TransactionIterator StoreKey)
  | 0, _ => none
  | n + 1, it =>
    match (it.key t).1 with
    | none => none
    | some key =>
      if compareIndexKeys key target > 0 then prevWhileGreater t target n (it.prev t) else some it

/-- The second loop; without a target the keys are compared with the one found. -/
def lastEqualKey (t : Transaction) (target : Option StoreKey) :
    ℕ → TransactionIterator StoreKey → Option StoreKey
  | 0, _ => none
  | n + 1, it =>
    match (it.key t).1 with
    | none => none
    | some foundKey =>
      match ((it.next t).key t).1 with
      | none => some foundKey
      | some key =>
        if compareIndexKeys key (target.getD foundKey) = 0 then lastEqualKey t target n (it.next t)
        else some foundKey

/-- One caller passes the same vector as `target` and as `foundKey`, which the second loop writes
before it reads. -/
def findGreatestKeyLessThanOrEqual (t : Transaction) (target : StoreKey) (shared : Bool) :
    Option StoreKey :=
  let it := TransactionIterator.create.seek t target
  let it := if it.isValid then it else it.seekToLast t
  (prevWhileGreater t target (t.keyCount + 1) it).bind
    (lastEqualKey t (if shared then none else some target) (t.keyCount + 1))

/-- What a cursor has loaded. -/
structure ObjectStoreRow where
  m_currentKey : IDBKey
  m_identifier : Bytes × ℤ
  m_currentValue : UString

/-- A key that cannot be decoded would be dereferenced as a null pointer; `decodeString` may CRASH. -/
def loadCurrentRow (t : Transaction) (it : TransactionIterator StoreKey) : Option ObjectStoreRow :=
  match (it.key t).1, (it.value t).1 with
  | some key, some value =>
    match ObjectStoreDataKey.decode key.bytes with
    | none => none
    | some (objectStoreDataKey, _) =>
      match objectStoreDataKey.userKey, decodeVarInt value with
      | some currentKey, some (version, q) =>
        (decodeString q).map fun currentValue =>
          ⟨currentKey, (encodeIDBKey currentKey, version), currentValue⟩
      | _, _ => none
  | _, _ => none

namespace CursorOptions

def direction (o : CursorOptions) : Direction := if o.forward then .forward else .reverse

/-- The checks at the far bound, which both functions make. -/
def past (o : CursorOptions) (key : StoreKey) : Bool :=
  if o.forward then
    if o.highOpen then compareIndexKeys key o.highKey ≥ 0 else compareIndexKeys key o.highKey > 0
  else
    if o.lowOpen then compareIndexKeys key o.lowKey ≤ 0 else compareIndexKeys key o.lowKey < 0

/-- The check of `firstSeek` at an open near bound. -/
def before (o : CursorOptions) (key : StoreKey) : Bool :=
  if o.forward then o.lowOpen && compareIndexKeys key o.lowKey ≤ 0
  else o.highOpen && compareIndexKeys key o.highKey ≥ 0

end CursorOptions

/-- An iterator and the row it was loaded from. -/
structure ObjectStoreCursorImpl where
  m_cursorOptions : CursorOptions
  m_iterator : TransactionIterator StoreKey
  row : ObjectStoreRow

def firstSeekLoop (t : Transaction) (o : CursorOptions) :
    ℕ → TransactionIterator StoreKey → Option ObjectStoreCursorImpl
  | 0, _ => none
  | n + 1, it =>
    match (it.key t).1 with
    | none => none
    | some key =>
      if o.past key then none
      else if o.before key then firstSeekLoop t o n (it.move o.direction t)
      else
        match loadCurrentRow t it with
        | none => firstSeekLoop t o n (it.move o.direction t)
        | some row => some ⟨o, it, row⟩

def firstSeek (t : Transaction) (o : CursorOptions) : Option ObjectStoreCursorImpl :=
  firstSeekLoop t o (t.keyCount + 1)
    (TransactionIterator.create.seek t (if o.forward then o.lowKey else o.highKey))

variable (t : Transaction) (s : StoreId) (range : Option IDBKeyRange) (direction : CursorDirection)

/-- The options of the cursor, or none if no key exists from which a reverse cursor could start. -/
def objectStoreCursorOptions : Option CursorOptions :=
  let (lowKey, lowOpen) :=
    match lowerBound range with
    | none => (s.objectStoreDataKey .min, true)
    | some (lower, lowerOpen) => (s.objectStoreDataKey lower.toBound, lowerOpen)
  match upperBound range with
  | none =>
    let highKey := s.objectStoreDataKey .max
    if direction.forward then some ⟨lowKey, lowOpen, highKey, true, true, direction.unique⟩
    else
      (findGreatestKeyLessThanOrEqual t highKey true).map fun foundKey =>
        ⟨lowKey, lowOpen, foundKey, false, false, direction.unique⟩
  | some (upper, upperOpen) =>
    let highKey := s.objectStoreDataKey upper.toBound
    if direction.forward then some ⟨lowKey, lowOpen, highKey, upperOpen, true, direction.unique⟩
    else
      (findGreatestKeyLessThanOrEqual t highKey false).map fun foundHighKey =>
        -- a smaller key is included even if the bound is not
        ⟨lowKey, lowOpen, foundHighKey,
          upperOpen && !decide (compareIndexKeys foundHighKey highKey < 0), false,
          direction.unique⟩

def openObjectStoreCursor : Option ObjectStoreCursorImpl :=
  (objectStoreCursorOptions t s range direction).bind (firstSeek t)

section Continue

-- `IDBKey::isEqual` and `IDBKey::isLessThan`
variable (isEqual isLessThan : IDBKey → IDBKey → Bool)

def continueLoop (t : Transaction) (o : CursorOptions) (key : Option IDBKey)
    (previousKey : IDBKey) : ℕ → TransactionIterator StoreKey → Option ObjectStoreCursorImpl
  | 0, _ => none
  | n + 1, it =>
    let it := it.move o.direction t
    match (it.key t).1 with
    | none => none
    | some k =>
      if (t.get k).isNone then continueLoop t o key previousKey n it
      else if o.past k then none
      else
        match loadCurrentRow t it with
        | none => continueLoop t o key previousKey n it
        | some row =>
          if key.any fun key =>
              if o.forward then isLessThan row.m_currentKey key
              else isLessThan key row.m_currentKey then
            continueLoop t o key previousKey n it
          else if o.unique && isEqual row.m_currentKey previousKey then
            continueLoop t o key previousKey n it
          else some ⟨o, it, row⟩

def continueFunction (t : Transaction) (cursor : ObjectStoreCursorImpl) (key : Option IDBKey) :
    Option ObjectStoreCursorImpl :=
  continueLoop isEqual isLessThan t cursor.m_cursorOptions key cursor.row.m_currentKey
    (t.keyCount + 1) cursor.m_iterator

/-- The rows of a cursor that is continued without a key until that returns false. -/
def rowsLoop (t : Transaction) : ℕ → ObjectStoreCursorImpl → List ObjectStoreRow
  | 0, _ => []
  | n + 1, cursor =>
    cursor.row ::
      match continueFunction isEqual isLessThan t cursor none with
      | none => []
      | some cursor => rowsLoop t n cursor

/-- A cursor meets no key twice. -/
def rowsOf (t : Transaction) : Option ObjectStoreCursorImpl → List ObjectStoreRow
  | none => []
  | some cursor => rowsLoop isEqual isLessThan t (t.keyCount + 1) cursor

/-- What opening and continuing a cursor delivers. -/
def cursorRows (t : Transaction) (s : StoreId) (range : Option IDBKeyRange)
    (direction : CursorDirection) : List ObjectStoreRow :=
  rowsOf isEqual isLessThan t (openObjectStoreCursor t s range direction)

end Continue

/-! ## The greatest key at or below a bound -/

section Greatest

variable {t : Transaction} {s : StoreId} {p : BoundKey} {it : TransactionIterator StoreKey}

theorem compareIndexKeys_objectStoreDataKey (a : StoreKey) :
    compareIndexKeys a (s.objectStoreDataKey p) = compareKeys a (s.objectStoreDataKey p) :=
  compareIndexKeys_of_kind (by simp)

/-- A key behind a bound of the records compares unequal to the keys in front of it, even as an index
key. -/
theorem compareIndexKeys_ne_zero_of_between
    (ha : rank a ≤ rank (s.objectStoreDataKey p)) (hb : rank (s.objectStoreDataKey p) < rank b) :
    compareIndexKeys b a ≠ 0 := by
  intro h
  have hprefix := toPrefix_eq_of_compareIndexKeys h
  -- the bound has the prefix that both keys share
  have hword : rank b = [a.key.toPrefix.m_databaseId, a.key.toPrefix.m_objectStoreId,
      a.key.toPrefix.m_indexId] ++ b.key.tailRank StoreKey.typeBase := by
    rw [← hprefix]
    rfl
  obtain ⟨y, hy, -⟩ := append_le_and_lt_append.mp ⟨ha, hb.trans_eq hword⟩
  have hprefix' : a.key.toPrefix = (s.objectStoreDataKey p).key.toPrefix := by
    rw [StoreKey.rank_def, LevelDBKey.rank] at hy
    simp only [List.cons_append, List.cons_eq_cons] at hy
    rw [KeyPrefix.ext_iff]
    exact ⟨hy.1.symm, hy.2.1.symm, hy.2.2.1.symm⟩
  have hkind : a.key.kind ≠ .kIndexData := by
    rw [StoreKey.kind_eq_of_toPrefix_eq hprefix']
    simp
  rw [compareIndexKeys_of_kind hkind, compare_eq_zero_iff (O := List ℤ)] at h
  exact absurd (ha.trans_lt hb) (h ▸ lt_irrefl _)

/-- The iterator stands on the greatest entry at or below the target, and the next key it shows lies
above the target. -/
structure Greatest (t : Transaction) (target : StoreKey) (it : TransactionIterator StoreKey) :
    Prop where
  quiet : Quiet t it
  valid : it.currentKey ≠ none
  first : IsFirst {x | x ∈ (t.overlay .reverse).view ∧ reverse.ofRank (rank target) ≤ x}
    (position .reverse it.currentKey)
  next : ∀ k, (it.next t).currentKey = some k → rank target < rank k

/-- After a turn the next key is one of the view. -/
theorem Greatest.of_reverse (hq : Quiet t it) (hk : it.currentKey = some k)
    (hd : it.m_direction = .reverse) (hfirst : IsFirst {x | x ∈ (t.overlay .reverse).view ∧
      reverse.ofRank (rank target) ≤ x} (position .reverse it.currentKey)) :
    Greatest t target it := by
  refine ⟨hq, by rw [hk]; simp, hfirst, fun a ha => ?_⟩
  have hnext := hq.isFirst_move hk (d := .forward) fun hs => by
    rw [hs.1] at hd
    cases hd
  obtain ⟨hmem, hlt⟩ := hnext.mem (Direction.forward.ofRank (rank a)) (by
    rw [TransactionIterator.next] at ha
    rw [ha]
    rfl)
  by_contra hle
  have hrev := hfirst.le (reverse.ofRank (rank a)) ⟨hmem, not_lt.mp hle⟩
  rw [hk] at hrev
  have hak : reverse.ofRank (rank k) ≤ reverse.ofRank (rank a) :=
    WithTop.coe_le_coe.mp hrev
  exact absurd hlt (not_lt.mpr hak)

theorem prevWhileGreater_spec (t : Transaction) (s : StoreId) (p : BoundKey) :
    let it := TransactionIterator.create.seek t (s.objectStoreDataKey p)
    let it := if it.isValid then it else it.seekToLast t
    match prevWhileGreater t (s.objectStoreDataKey p) (t.keyCount + 1) it with
    | none => ∀ x ∈ (t.overlay .reverse).view, ¬ reverse.ofRank (rank (s.objectStoreDataKey p)) ≤ x
    | some it => Greatest t (s.objectStoreDataKey p) it := by
  intro it it'
  have hq : Quiet t it := quiet_seek t _
  have hfirst := TransactionIterator.isFirst_seek_currentKey t .create (s.objectStoreDataKey p)
  cases hk : it.currentKey with
  | none =>
    -- every entry lies below the target, and the last one is the greatest
    have hv : it.isValid = false := by rw [← hq.coherent.currentKey_isSome, hk]; rfl
    have hit' : it' = it.seekToLast t := if_neg (by simp [hv])
    have hq' : Quiet t it' := hit' ▸ hq.seekToLast
    have hlast : IsFirst (t.overlay .reverse).view (position .reverse it'.currentKey) :=
      hit' ▸ isFirst_seekToLast_currentKey t it
    rw [hk, position_none, IsFirst.top_iff] at hfirst
    have hbelow : ∀ x ∈ (t.overlay .reverse).view,
        reverse.ofRank (rank (s.objectStoreDataKey p)) ≤ x := fun x hx =>
      le_of_not_ge fun hc => hfirst x ⟨hx, hc⟩
    rw [prevWhileGreater, hq'.key_eq]
    cases hk' : it'.currentKey with
    | none =>
      rw [hk', position_none, IsFirst.top_iff] at hlast
      exact fun x hx => absurd hx (hlast x)
    | some k =>
      have hmem := hlast.mem (reverse.ofRank (rank k)) (by rw [hk']; rfl)
      have hle : rank k ≤ rank (s.objectStoreDataKey p) := hbelow _ hmem
      simp only [compareIndexKeys_objectStoreDataKey, compare_pos_iff, not_lt.mpr hle]
      refine Greatest.of_reverse hq' hk' ?_ (hlast.congr fun x =>
        ⟨fun hx => ⟨hx, hbelow x hx⟩, And.left⟩)
      rw [hit']
      exact (TransactionIterator.ready_seekToLast (O := List ℤ) t it).direction_settle
  | some k =>
    have hit' : it' = it := if_pos (hq.isValid_of_currentKey hk)
    rw [hk, position_some, IsFirst.coe_iff] at hfirst
    obtain ⟨⟨hmem, hle⟩, hmin⟩ := hfirst
    replace hle : rank (s.objectStoreDataKey p) ≤ rank k := hle
    rw [hit', prevWhileGreater, hq.key_eq, hk]
    simp only [compareIndexKeys_objectStoreDataKey, compare_pos_iff]
    rcases lt_or_eq_of_le hle with hlt | heq
    · -- the entry before it is the greatest
      rw [if_pos hlt]
      have hq' : Quiet t (it.prev t) := hq.move .reverse
      have hs : ¬ it.Straight .reverse := fun hs => by
        have hd := (TransactionIterator.ready_seek (O := List ℤ) t .create
          (s.objectStoreDataKey p)).direction_settle
        exact absurd (hs.1.symm.trans hd) (by simp)
      have hprev : IsFirst {x | x ∈ (t.overlay .reverse).view ∧
          reverse.ofRank (rank (s.objectStoreDataKey p)) ≤ x}
          (position .reverse (it.prev t).currentKey) := by
        refine (hq.isFirst_move hk hs).congr fun x => and_congr_right fun hx => ⟨fun hxk => ?_, ?_⟩
        · refine le_of_not_gt fun hc => absurd (hmin x ⟨hx, le_of_lt hc⟩) (not_le.mpr hxk)
        · intro hxp
          have : (OrderDual.ofDual x : List ℤ) < rank k := lt_of_le_of_lt hxp hlt
          exact this
      have hcount := (hq.unread_move_lt hk .reverse).trans_le (unread_le_keyCount .reverse t it)
      obtain ⟨n, hn⟩ : ∃ n, t.keyCount = n + 1 := ⟨t.keyCount - 1, by omega⟩
      rw [hn, prevWhileGreater, hq'.key_eq]
      cases hk' : (it.prev t).currentKey with
      | none =>
        rw [hk', position_none, IsFirst.top_iff] at hprev
        exact fun x hx hc => hprev x ⟨hx, hc⟩
      | some k' =>
        have hle' : rank k' ≤ rank (s.objectStoreDataKey p) :=
          (hprev.mem (reverse.ofRank (rank k')) (by rw [hk']; rfl)).2
        simp only [compareIndexKeys_objectStoreDataKey, compare_pos_iff, not_lt.mpr hle']
        exact Greatest.of_reverse hq' hk' (direction_move hq (hq.isValid_of_currentKey hk) .reverse)
          hprev
    · rw [if_neg (heq ▸ lt_irrefl _)]
      refine ⟨hq, by rw [hk]; simp, ?_, fun a ha => ?_⟩
      · rw [hk, position_some, ← heq]
        refine IsFirst.coe_iff.mpr ⟨⟨?_, le_rfl⟩, fun y hy => hy.2⟩
        rw [heq]
        exact hmem
      · have hlt := (hq.passes_move hk .forward).1
        rw [TransactionIterator.next] at ha
        rw [ha] at hlt
        rw [heq]
        exact WithTop.coe_lt_coe.mp hlt

theorem Greatest.lastEqualKey (h : Greatest t (s.objectStoreDataKey p) it) (shared : Bool) (n : ℕ) :
    IndexedDB.lastEqualKey t (if shared then none else some (s.objectStoreDataKey p)) (n + 1) it =
      it.currentKey := by
  obtain ⟨k, hk⟩ := Option.ne_none_iff_exists'.mp h.valid
  have hq' : Quiet t (it.next t) := h.quiet.move .forward
  rw [IndexedDB.lastEqualKey, h.quiet.key_eq, hk, hq'.key_eq]
  cases hk' : (it.next t).currentKey with
  | none => rfl
  | some k' =>
    have hlt := h.next k' hk'
    have hle : rank k ≤ rank (s.objectStoreDataKey p) :=
      (h.first.mem (reverse.ofRank (rank k)) (by rw [hk]; rfl)).2
    have hne : compareIndexKeys k'
        ((if shared then none else some (s.objectStoreDataKey p)).getD k) ≠ 0 := by
      cases shared with
      | true => exact compareIndexKeys_ne_zero_of_between hle hlt
      | false => exact compareIndexKeys_ne_zero_of_between le_rfl hlt
    simp only
    rw [if_neg hne]

/-- The search finds the greatest entry at or below a bound of the records, whatever entry that
is. -/
theorem isFirst_findGreatestKeyLessThanOrEqual (t : Transaction) (s : StoreId) (p : BoundKey)
    (shared : Bool) :
    IsFirst {x | x ∈ (t.overlay .reverse).view ∧ reverse.ofRank (rank (s.objectStoreDataKey p)) ≤ x}
      (position .reverse (findGreatestKeyLessThanOrEqual t (s.objectStoreDataKey p) shared)) := by
  have hspec := prevWhileGreater_spec t s p
  rw [findGreatestKeyLessThanOrEqual]
  simp only at hspec ⊢
  generalize prevWhileGreater t (s.objectStoreDataKey p) _ _ = r at hspec
  cases r with
  | none =>
    rw [Option.bind_none, position_none, IsFirst.top_iff]
    exact fun x hx => hspec x hx.1 hx.2
  | some it =>
    rw [Option.bind_some, Greatest.lastEqualKey hspec]
    exact hspec.first

end Greatest

end IndexedDB
end WebKit
