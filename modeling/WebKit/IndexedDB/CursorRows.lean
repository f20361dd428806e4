import WebKit.IndexedDB.ObjectStoreCursor

/-!
# The rows of a cursor

A cursor should deliver the live records of its range, in the order of its direction.  A reverse
cursor does: it starts at an entry of the view, and its first step turns.  A forward cursor does,
except from an open lower bound: there `firstSeek` takes a straight step without asking the
transaction whether the record it comes to is still there (`StartsOnDeleted`).

The walk is described by two sets of positions in the order of the direction, the keys a cursor
starts from and the keys it stops at (`Spans`); a forward and a reverse cursor differ only in these
and in how they reach the first entry.
-/

namespace WebKit

open List Direction Option
namespace IndexedDB

open LevelDB LevelDBTransaction

/-! ## What a cursor should deliver -/

/-- The keys in a range; no range has all of them. -/
def InRange (range : Option IDBKeyRange) (key : IDBKey) : Prop :=
  (∀ b ∈ lowerBound range, if b.2 then b.1.key.referenceCompare key = .lt
    else b.1.key.referenceCompare key ≠ .gt) ∧
  ∀ b ∈ upperBound range, if b.2 then key.referenceCompare b.1.key = .lt
    else key.referenceCompare b.1.key ≠ .gt

/-- The row of the record with a key, a version and a value. -/
def ObjectStoreRow.ofRecord (key : IDBKey) (version : ℕ) (value : UString) : ObjectStoreRow :=
  ⟨key, (encodeIDBKey key, version), value⟩

/-- Exactly the records of the transaction in the range, in the order of the direction. -/
structure Delivers (t : Transaction) (s : StoreId) (range : Option IDBKeyRange)
    (direction : CursorDirection) (rows : List ObjectStoreRow) : Prop where
  ordered : rows.Pairwise fun a b =>
    a.m_currentKey.referenceCompare b.m_currentKey = if direction.forward then .lt else .gt
  live : ∀ row ∈ rows, ∃ (key : RecordKey) (version : ℕ) (value : UString),
    row = .ofRecord key.key version value ∧ InRange range key.key ∧
      t.get (s.objectStoreDataKey key.toBound) = some (encodeVarInt version ++ encodeString value)
  complete : ∀ key : RecordKey, InRange range key.key →
    (t.get (s.objectStoreDataKey key.toBound)).isSome →
      ∃ row ∈ rows, row.m_currentKey.referenceCompare key.key = .eq

/-- A forward cursor with an open lower bound: the bound is a record the transaction has not touched,
and the next record of the database is in the range, but has been deleted, and no record has been put
between them. -/
def StartsOnDeleted (t : Transaction) (s : StoreId) (range : Option IDBKeyRange)
    (direction : CursorDirection) : Prop :=
  direction.forward = true ∧ ∃ lower deleted : RecordKey, lowerBound range = some (lower, true) ∧
    InRange range deleted.key ∧ Resurfaces t (rank (s.objectStoreDataKey lower.toBound))
      (rank (s.objectStoreDataKey deleted.toBound))

/-! ## Rows -/

section Rows

variable {t : Transaction} {s : StoreId} {it : TransactionIterator StoreKey}

/-- The row of the record at a rank. -/
def RowAt (t : Transaction) (s : StoreId) (o : List ℤ) (row : ObjectStoreRow) : Prop :=
  ∃ (key : RecordKey) (version : ℕ) (value : UString),
    row = .ofRecord key.key version value ∧ rank (s.objectStoreDataKey key.toBound) = o ∧
      t.get (s.objectStoreDataKey key.toBound) = some (encodeVarInt version ++ encodeString value)

theorem RowAt.unique (h : RowAt t s o row) (h' : RowAt t s o' row) : o = o' := by
  obtain ⟨key, version, value, rfl, rfl, -⟩ := h
  obtain ⟨key', version', value', heq, rfl, -⟩ := h'
  have hkey : key.key = key'.key := congrArg ObjectStoreRow.m_currentKey heq
  rw [StoreId.rank_toBound_eq_iff, hkey, IDBKey.referenceCompare_self]

/-- On the key of a record the row is loaded, also if the record is deleted. -/
theorem exists_loadCurrentRow (hr : Readable s t) (hq : Quiet t it) (hshown : Shown t it)
    (hk : it.currentKey = some (s.objectStoreDataKey p)) :
    ∃ (key : RecordKey) (row : ObjectStoreRow), p = key.toBound ∧
      loadCurrentRow t it = some row ∧ row.m_currentKey = key.key ∧
      ((t.view (rank (s.objectStoreDataKey p))).isSome →
        RowAt t s (rank (s.objectStoreDataKey p)) row) := by
  obtain ⟨v, hvalue, hv⟩ := hshown _ hk
  have hstored : t.Stored (s.objectStoreDataKey p) v := by
    rcases hv with hv | ⟨-, hv⟩
    · exact stored_of_view hv
    · exact Or.inl ⟨_, hv⟩
  obtain ⟨key, version, value, rfl, hversion, rfl⟩ := hr p v hstored
  have hdec : ObjectStoreDataKey.decode (s.objectStoreDataKey key.toBound).bytes =
      some (⟨encodeIDBKey key.key⟩, []) := by
    have := ObjectStoreDataKey.decode_encode s.databaseId_lt s.lt key.toBound.valid []
    rw [append_nil] at this
    exact this
  have huser : (ObjectStoreDataKey.mk (encodeIDBKey key.key)).userKey = some key.key := by
    have := decodeIDBKey_encodeIDBKey key.valid key.decodable []
    rw [append_nil] at this
    rw [ObjectStoreDataKey.userKey, this]
    rfl
  refine ⟨key, .ofRecord key.key version value.units, rfl, ?_, rfl, fun hsome =>
    ⟨key, version, value.units, rfl, rfl, ?_⟩⟩
  · rw [loadCurrentRow, hq.key_eq, hk, hvalue]
    simp only [hdec, huser, decodeVarInt_encodeVarInt hversion, decodeString_encodeString,
      if_pos value.length_le]
    rfl
  · rcases hv with hv | ⟨hnone, -⟩
    · rw [get_eq_view, hv]
      rfl
    · rw [hnone] at hsome
      cases hsome

end Rows

/-! ## The loops -/

/-- A cursor walks over the keys of `start` in front of `stop`, in the order of its direction. -/
structure Spans (s : StoreId) (o : CursorOptions) (d : Direction)
    (start stop : Set (d.Rank (List ℤ))) : Prop where
  direction : o.direction = d
  start_upper : IsUpperSet start
  stop_upper : IsUpperSet stop
  past_iff : ∀ a : StoreKey, o.past a = true ↔ d.ofRank (rank a) ∈ stop
  data : ∀ a : StoreKey, d.ofRank (rank a) ∈ start → d.ofRank (rank a) ∉ stop →
    ∃ p, a = s.objectStoreDataKey p

/-- The cursor has loaded the entry at a position. -/
structure AtRow (t : Transaction) (s : StoreId) (d : Direction) (cursor : ObjectStoreCursorImpl)
    (x : d.Rank (List ℤ)) : Prop where
  quiet : Quiet t cursor.m_iterator
  position_eq : position d cursor.m_iterator.currentKey = x
  mem : x ∈ (t.overlay d).view
  row : RowAt t s (d.toRank x) cursor.row

/-- A cursor that is sent to a position loads the entry there, unless it is past the range. -/
def Reaches (t : Transaction) (s : StoreId) (o : CursorOptions) (d : Direction)
    (stop : Set (d.Rank (List ℤ))) (p : WithTop (d.Rank (List ℤ))) :
    Option ObjectStoreCursorImpl → Prop
  | none => ∀ x : d.Rank (List ℤ), p = x → x ∈ stop
  | some cursor => cursor.m_cursorOptions = o ∧
      ∃ x : d.Rank (List ℤ), p = x ∧ x ∉ stop ∧ AtRow t s d cursor x

section Loops

variable {t : Transaction} {s : StoreId} {o : CursorOptions} {d : Direction}
  {start stop : Set (d.Rank (List ℤ))} {it : TransactionIterator StoreKey}

theorem atRow_of_shown (h : Spans s o d start stop) (hr : Readable s t) (hq : Quiet t it)
    (hshown : Shown t it) (hk : it.currentKey = some k)
    (hstart : d.ofRank (rank k) ∈ start) (hstop : d.ofRank (rank k) ∉ stop) :
    ∃ (key : RecordKey) (row : ObjectStoreRow), k = s.objectStoreDataKey key.toBound ∧
      loadCurrentRow t it = some row ∧ row.m_currentKey = key.key ∧
      (d.ofRank (rank k) ∈ (t.overlay d).view → AtRow t s d ⟨o, it, row⟩ (d.ofRank (rank k))) := by
  obtain ⟨p, rfl⟩ := h.data k hstart hstop
  obtain ⟨key, row, rfl, hload, hcur, hrow⟩ := exists_loadCurrentRow hr hq hshown hk
  refine ⟨key, row, rfl, hload, hcur, fun hmem => ⟨hq, ?_, hmem, ?_⟩⟩
  · rw [hk, position_some]
  · rw [mem_view_iff, toRank_ofRank] at hmem
    rw [toRank_ofRank]
    exact hrow hmem

variable (isEqual isLessThan : IDBKey → IDBKey → Bool)

/-- A continued cursor goes to the next entry of the view. -/
theorem reaches_continueLoop (h : Spans s o d start stop) (hr : Readable s t)
    (n : ℕ) (hq : Quiet t it) (hk : it.currentKey = some k) (hstart : d.ofRank (rank k) ∈ start)
    (hprev : ∀ key : RecordKey,
      d.ofRank (rank k) < d.ofRank (rank (s.objectStoreDataKey key.toBound)) →
        isEqual key.key previousKey = false) (hn : unread d t it ≤ n)
    (hp : IsFirst {x | x ∈ (t.overlay d).view ∧ d.ofRank (rank k) < x} p) :
    Reaches t s o d stop p (continueLoop isEqual isLessThan t o none previousKey n it) := by
  induction n generalizing it k with
  | zero => exact absurd (hq.unread_move_lt hk d) (by omega)
  | succ n ih =>
    have hq' := hq.move d
    obtain ⟨hlt, hle⟩ := hq.passes_move hk d
    have hunread := hq.unread_move_lt hk d
    simp only [continueLoop, h.direction, hq'.key_eq]
    cases hk' : (it.move d t).currentKey with
    | none =>
      intro x hx
      obtain ⟨hmem, hkx⟩ := hp.mem x hx
      have := hle x hmem hkx
      rw [hk'] at this
      exact absurd this (by simp)
    | some k' =>
      rw [hk'] at hlt hle
      have hkk' := WithTop.coe_lt_coe.mp hlt
      have hstart' := h.start_upper hkk'.le hstart
      have hget : (t.get k').isNone = true ↔ d.ofRank (rank k') ∉ (t.overlay d).view := by
        rw [mem_view_iff, get_eq_view]
        simp
      simp only
      by_cases hmem : d.ofRank (rank k') ∈ (t.overlay d).view
      · have hfirst := hq.isFirst_move_of_mem hk (by rw [hk', position_some]) hmem
        obtain rfl := hp.unique hfirst
        rw [if_neg fun hc => hget.mp hc hmem]
        by_cases hstop : d.ofRank (rank k') ∈ stop
        · rw [if_pos ((h.past_iff k').mpr hstop)]
          intro x hx
          rw [← WithTop.coe_injective hx]
          exact hstop
        · rw [if_neg fun hc => hstop ((h.past_iff k').mp hc)]
          obtain ⟨key, row, rfl, hload, hcur, hrow⟩ :=
            atRow_of_shown h hr hq' (hq.shown_move hk d) hk' hstart' hstop
          simp only [hload, hcur, hprev key hkk', Bool.and_false]
          exact ⟨rfl, _, rfl, hstop, hrow hmem⟩
      · rw [if_pos (hget.mpr hmem)]
        exact ih hq' hk' hstart' (fun key hkey => hprev key (hkk'.trans hkey)) (by omega)
          (isFirst_of_passed (fun y hy hky => WithTop.coe_le_coe.mp (hle y hy hky)) hkk' hmem hp)

/-- The rows list the entries of a set in the order of the direction. -/
structure Lists (t : Transaction) (s : StoreId) (d : Direction) (S : Set (d.Rank (List ℤ)))
    (rows : List ObjectStoreRow) : Prop where
  sorted : rows.Pairwise fun a b => ∀ x y : d.Rank (List ℤ), RowAt t s (d.toRank x) a →
    RowAt t s (d.toRank y) b → x < y
  live : ∀ row ∈ rows, ∃ x ∈ (t.overlay d).view, x ∈ S ∧ RowAt t s (d.toRank x) row
  complete : ∀ x ∈ (t.overlay d).view, x ∈ S → ∃ row ∈ rows, RowAt t s (d.toRank x) row

section

variable (h : Spans s o d start stop) (hr : Readable s t)
  (hequal : ∀ a b, isEqual a b = true ↔ a.referenceCompare b = .eq)
include h hequal hr

/-- From a loaded entry on, the rows list the entries up to the end of the range. -/
theorem lists_rowsLoop (n : ℕ) (ho : cursor.m_cursorOptions = o)
    (hx : AtRow t s d cursor x) (hstart : x ∈ start) (hstop : x ∉ stop)
    (hn : unread d t cursor.m_iterator ≤ n) :
    Lists t s d {y | x ≤ y ∧ y ∉ stop} (rowsLoop isEqual isLessThan t n cursor) := by
  induction n generalizing cursor x with
  | zero =>
    obtain ⟨k, hk, -⟩ := position_eq_coe_iff.mp hx.position_eq
    exact absurd (hx.quiet.unread_move_lt hk d) (by omega)
  | succ n ih =>
    obtain ⟨k, hk, rfl⟩ := position_eq_coe_iff.mp hx.position_eq
    obtain ⟨p, hp⟩ := exists_isFirst_view t d {y | d.ofRank (rank k) < y}
    have hreach : Reaches t s o d stop p (continueFunction isEqual isLessThan t cursor none) := by
      rw [continueFunction, ho]
      refine reaches_continueLoop isEqual isLessThan h hr _ hx.quiet hk hstart (fun key hkey => ?_)
        ((unread_le_keyCount d t _).trans (Nat.le_succ _)) hp
      -- a later record has another key
      obtain ⟨key', version, value, hrow, hrank, -⟩ := hx.row
      rw [Bool.eq_false_iff, Ne, hequal, hrow]
      intro heq
      rw [toRank_ofRank] at hrank
      rw [← hrank, StoreId.rank_toBound_eq_iff.mpr heq] at hkey
      exact absurd hkey (lt_irrefl _)
    rw [rowsLoop]
    cases hc : continueFunction isEqual isLessThan t cursor none with
    | none =>
      rw [hc] at hreach
      refine ⟨pairwise_singleton _ _, fun row hrow => ?_, fun y hy hys => ?_⟩
      · rw [mem_singleton.mp hrow]
        exact ⟨_, hx.mem, ⟨le_rfl, hstop⟩, hx.row⟩
      · rcases eq_or_lt_of_le hys.1 with rfl | hlt
        · exact ⟨_, mem_singleton_self _, hx.row⟩
        · -- the next entry is past the range, and so is `y`
          have hpy := hp.le y ⟨hy, hlt⟩
          cases p with
          | top => exact absurd hpy (by simp)
          | coe z => exact absurd (h.stop_upper (WithTop.coe_le_coe.mp hpy) (hreach z rfl)) hys.2
    | some cursor' =>
      rw [hc] at hreach
      obtain ⟨ho', z, rfl, hzs, hz⟩ := hreach
      obtain ⟨⟨hzv, hkz⟩, hmin⟩ := IsFirst.coe_iff.mp hp
      have hunread : unread d t cursor'.m_iterator < unread d t cursor.m_iterator :=
        unread_lt_of_position_lt hx.quiet.coherent hk (by
          rw [hz.position_eq]
          exact WithTop.coe_lt_coe.mpr hkz)
      have hrest := ih ho' hz (h.start_upper hkz.le hstart) hzs (by omega)
      refine ⟨pairwise_cons.mpr ⟨fun b hb x' y' ha' hb' => ?_, hrest.sorted⟩,
        forall_mem_cons.mpr ⟨⟨_, hx.mem, ⟨le_rfl, hstop⟩, hx.row⟩, fun row hrow => ?_⟩,
        fun y hy hys => ?_⟩
      · obtain ⟨y, -, ⟨hzy, -⟩, hrow⟩ := hrest.live b hb
        rw [toRank_injective (ha'.unique hx.row), toRank_injective (hb'.unique hrow)]
        exact hkz.trans_le hzy
      · obtain ⟨y, hy, hys, hyrow⟩ := hrest.live row hrow
        exact ⟨y, hy, ⟨hkz.le.trans hys.1, hys.2⟩, hyrow⟩
      · rcases eq_or_lt_of_le hys.1 with rfl | hlt
        · exact ⟨_, mem_cons_self .., hx.row⟩
        · obtain ⟨row, hrow, hyrow⟩ := hrest.complete y hy ⟨hmin y ⟨hy, hlt⟩, hys.2⟩
          exact ⟨row, mem_cons_of_mem _ hrow, hyrow⟩

/-- The rows of a cursor that has reached the first entry of the range list the whole range. -/
theorem lists_of_reaches (hp : IsFirst {x | x ∈ (t.overlay d).view ∧ x ∈ start} p)
    (hreach : Reaches t s o d stop p result) :
    Lists t s d {y | y ∈ start ∧ y ∉ stop} (rowsOf isEqual isLessThan t result) := by
  cases result with
  | none =>
    refine ⟨.nil, fun _ hrow => absurd hrow not_mem_nil, fun y hy hys => ?_⟩
    have hpy := hp.le y ⟨hy, hys.1⟩
    cases p with
    | top => exact absurd hpy (by simp)
    | coe z => exact absurd (h.stop_upper (WithTop.coe_le_coe.mp hpy) (hreach z rfl)) hys.2
  | some cursor =>
    obtain ⟨ho, x, rfl, hxs, hx⟩ := hreach
    obtain ⟨⟨hxv, hxstart⟩, hmin⟩ := IsFirst.coe_iff.mp hp
    have hrows := lists_rowsLoop isEqual isLessThan h hr hequal (t.keyCount + 1) ho hx hxstart hxs
      ((unread_le_keyCount d t _).trans (Nat.le_succ _))
    refine ⟨hrows.sorted, fun row hrow => ?_, fun y hy hys => ?_⟩
    · obtain ⟨y, hy, hys, hyrow⟩ := hrows.live row hrow
      exact ⟨y, hy, ⟨h.start_upper hys.1 hxstart, hys.2⟩, hyrow⟩
    · exact hrows.complete y hy ⟨hmin y ⟨hy, hys.1⟩, hys.2⟩

end

end Loops

/-! ## The first row -/

/-- The bounds as keys of the store are built of them, with whether they are open. -/
def lowBound (range : Option IDBKeyRange) : BoundKey × Bool :=
  match lowerBound range with
  | none => (.min, true)
  | some (lower, lowerOpen) => (lower.toBound, lowerOpen)

def highBound (range : Option IDBKeyRange) : BoundKey × Bool :=
  match upperBound range with
  | none => (.max, true)
  | some (upper, upperOpen) => (upper.toBound, upperOpen)

def AboveLow (s : StoreId) (low : BoundKey × Bool) (x : List ℤ) : Prop :=
  if low.2 then rank (s.objectStoreDataKey low.1) < x else rank (s.objectStoreDataKey low.1) ≤ x

def BelowHigh (s : StoreId) (high : BoundKey × Bool) (x : List ℤ) : Prop :=
  if high.2 then x < rank (s.objectStoreDataKey high.1) else x ≤ rank (s.objectStoreDataKey high.1)

section FirstSeek

variable {t : Transaction} {s : StoreId} {low high : BoundKey × Bool} {x y : List ℤ}

theorem AboveLow.mono (h : AboveLow s low x) (hxy : x ≤ y) : AboveLow s low y := by
  unfold AboveLow at h ⊢
  split
  · next hopen =>
    rw [if_pos hopen] at h
    exact h.trans_le hxy
  · next hopen =>
    rw [if_neg hopen] at h
    exact h.trans hxy

theorem BelowHigh.mono (h : BelowHigh s high y) (hxy : x ≤ y) : BelowHigh s high x := by
  unfold BelowHigh at h ⊢
  split
  · next hopen =>
    rw [if_pos hopen] at h
    exact hxy.trans_lt h
  · next hopen =>
    rw [if_neg hopen] at h
    exact hxy.trans h

theorem AboveLow.le (h : AboveLow s low x) : rank (s.objectStoreDataKey low.1) ≤ x := by
  unfold AboveLow at h
  split at h
  · exact h.le
  · exact h

theorem BelowHigh.le (h : BelowHigh s high x) : x ≤ rank (s.objectStoreDataKey high.1) := by
  unfold BelowHigh at h
  split at h
  · exact h.le
  · exact h

theorem UserKey.rank_min_lt (k : IDBKey) : UserKey.min.rank < k.rank := by
  obtain ⟨a, ha, -, hk⟩ := UserKey.rank_key_eq_cons k
  rw [UserKey.rank] at hk
  rw [hk]
  exact cons_lt_cons_iff.mpr (Or.inl ha)

theorem UserKey.rank_lt_max (k : IDBKey) : k.rank < UserKey.max.rank := by
  obtain ⟨a, -, ha, hk⟩ := UserKey.rank_key_eq_cons k
  rw [UserKey.rank] at hk
  rw [hk]
  exact cons_lt_cons_iff.mpr (Or.inl ha)

theorem inRange_iff (s : StoreId) (range : Option IDBKeyRange) (key : RecordKey) :
    InRange range key.key ↔ AboveLow s (lowBound range) (rank (s.objectStoreDataKey key.toBound)) ∧
        BelowHigh s (highBound range) (rank (s.objectStoreDataKey key.toBound)) := by
  refine and_congr ?_ ?_
  · rw [AboveLow, lowBound]
    cases lowerBound range with
    | none =>
      refine iff_of_true (by simp) ?_
      rw [StoreId.rank_objectStoreDataKey_lt_iff]
      exact UserKey.rank_min_lt key.key
    | some b =>
      simp only [mem_def, Option.some.injEq, forall_eq', StoreId.rank_toBound_lt_iff,
        StoreId.rank_toBound_le_iff]
  · rw [BelowHigh, highBound]
    cases upperBound range with
    | none =>
      refine iff_of_true (by simp) ?_
      rw [StoreId.rank_objectStoreDataKey_lt_iff]
      exact UserKey.rank_lt_max key.key
    | some b =>
      simp only [mem_def, Option.some.injEq, forall_eq', StoreId.rank_toBound_lt_iff,
        StoreId.rank_toBound_le_iff]

/-- The options of a forward cursor. -/
def forwardOptions (s : StoreId) (low high : BoundKey × Bool) (unique : Bool) : CursorOptions :=
  ⟨s.objectStoreDataKey low.1, low.2, s.objectStoreDataKey high.1, high.2, true, unique⟩

theorem spans_forward (s : StoreId) (low high : BoundKey × Bool) (unique : Bool) :
    Spans s (forwardOptions s low high unique) .forward {x | AboveLow s low x}
      {x | ¬ BelowHigh s high x} where
  direction := rfl
  start_upper := fun _ _ hxy hx => AboveLow.mono hx hxy
  stop_upper := fun _ _ hxy hx hy => hx (BelowHigh.mono hy hxy)
  past_iff := fun a => by
    simp only [CursorOptions.past, forwardOptions, if_true, compareIndexKeys_objectStoreDataKey]
    change _ ↔ ¬ BelowHigh s high (rank a)
    rw [BelowHigh]
    split
    · rw [decide_eq_true_iff, ge_iff_le, compare_nonneg_iff, not_lt]
    · rw [decide_eq_true_iff, gt_iff_lt, compare_pos_iff, not_le]
  data := fun a hlow hhigh =>
    StoreId.exists_of_rank_between (AboveLow.le hlow) (BelowHigh.le (not_not.mp hhigh))

/-- The options of a reverse cursor that starts at a key that was found. -/
def reverseOptions (s : StoreId) (low : BoundKey × Bool) (found : StoreKey) (highOpen unique : Bool) :
    CursorOptions :=
  ⟨s.objectStoreDataKey low.1, low.2, found, highOpen, false, unique⟩

theorem spans_reverse (s : StoreId) (low high : BoundKey × Bool) (found : StoreKey)
    (highOpen unique : Bool) :
    Spans s (reverseOptions s low found highOpen unique) .reverse
      {x | BelowHigh s high (reverse.toRank x)}
      {x | ¬ AboveLow s low (reverse.toRank x)} where
  direction := rfl
  start_upper := fun _ _ hxy hx => BelowHigh.mono hx hxy
  stop_upper := fun _ _ hxy hx hy => hx (AboveLow.mono hy hxy)
  past_iff := fun a => by
    simp only [CursorOptions.past, reverseOptions, Bool.false_eq_true, if_false,
      compareIndexKeys_objectStoreDataKey]
    change _ ↔ ¬ AboveLow s low (rank a)
    rw [AboveLow]
    split
    · rw [decide_eq_true_iff, ← not_lt, compare_pos_iff]
    · rw [decide_eq_true_iff, compare_neg_iff, not_le]
  data := fun a hhigh hlow =>
    StoreId.exists_of_rank_between (AboveLow.le (not_not.mp hlow)) (BelowHigh.le hhigh)

/-- At the first entry of the range the row is loaded. -/
theorem reaches_firstSeekLoop (h : Spans s o d start stop) (hr : Readable s t) (n : ℕ)
    (hq : Quiet t it) (hshown : Shown t it)
    (hfirst : IsFirst {x | x ∈ (t.overlay d).view ∧ x ∈ start} (position d it.currentKey))
    (hbefore : ∀ k, it.currentKey = some k → o.before k = false) :
    Reaches t s o d stop (position d it.currentKey) (firstSeekLoop t o (n + 1) it) := by
  rw [firstSeekLoop, hq.key_eq]
  cases hk : it.currentKey with
  | none => exact fun x hx => absurd hx (by simp)
  | some k =>
    rw [hk, position_some, IsFirst.coe_iff] at hfirst
    simp only [hbefore k hk]
    by_cases hstop : d.ofRank (rank k) ∈ stop
    · rw [if_pos ((h.past_iff k).mpr hstop)]
      intro x hx
      rw [← WithTop.coe_injective hx]
      exact hstop
    · rw [if_neg fun hc => hstop ((h.past_iff k).mp hc)]
      obtain ⟨key, row, -, hload, -, hrow⟩ := atRow_of_shown h hr hq hshown hk hfirst.1.2 hstop
      rw [hload]
      exact ⟨rfl, _, rfl, hstop, hrow hfirst.1.1⟩

theorem before_forwardOptions (a : StoreKey) (unique : Bool) :
    (forwardOptions s low high unique).before a = true ↔
      low.2 = true ∧ rank a ≤ rank (s.objectStoreDataKey low.1) := by
  simp only [CursorOptions.before, forwardOptions, if_true, compareIndexKeys_objectStoreDataKey,
    Bool.and_eq_true, decide_eq_true_iff]
  rw [← not_lt, compare_pos_iff, not_lt]

theorem before_forwardOptions_of_aboveLow (h : AboveLow s low (rank a))
    (unique : Bool) : (forwardOptions s low high unique).before a = false := by
  rw [Bool.eq_false_iff, Ne, before_forwardOptions]
  rintro ⟨hopen, hle⟩
  rw [AboveLow, if_pos hopen] at h
  exact absurd h (not_lt.mpr hle)

/-- A forward cursor reaches the first entry of the range, unless the next key after an open bound is
a deleted record of the range. -/
theorem reaches_firstSeek_forward (hr : Readable s t) (unique : Bool)
    (hno : low.2 = true → ∀ b, Resurfaces t (rank (s.objectStoreDataKey low.1)) b →
      ¬ BelowHigh s high b)
    (hp : IsFirst {x | x ∈ (t.overlay .forward).view ∧ AboveLow s low x} p) :
    Reaches t s (forwardOptions s low high unique) .forward {x | ¬ BelowHigh s high x} p
      (firstSeek t (forwardOptions s low high unique)) := by
  have hspans := spans_forward s low high unique
  have hq := quiet_seek t (s.objectStoreDataKey low.1)
  have hshown := Sweeping.shown_seek t .create (s.objectStoreDataKey low.1)
  have hfirst := TransactionIterator.isFirst_seek_currentKey t .create (s.objectStoreDataKey low.1)
  rw [firstSeek]
  simp only [forwardOptions, if_true]
  change Reaches t s (forwardOptions s low high unique) _ _ _
    (firstSeekLoop t (forwardOptions s low high unique) _ _)
  generalize hit : TransactionIterator.create.seek t (s.objectStoreDataKey low.1) = it at *
  by_cases hat : low.2 = true ∧ ∃ k, it.currentKey = some k ∧
      rank k = rank (s.objectStoreDataKey low.1)
  · -- the iterator stands on the open bound
    obtain ⟨hopen, k, hk, hrank⟩ := hat
    have hq' : Quiet t (it.next t) := hq.move .forward
    obtain ⟨hlt, hle⟩ := hq.passes_move hk .forward
    have hcount := (hq.unread_move_lt hk .forward).trans_le (unread_le_keyCount .forward t it)
    obtain ⟨n, hn⟩ : ∃ n, t.keyCount = n + 1 := ⟨t.keyCount - 1, by omega⟩
    have hstart : ∀ x : List ℤ, AboveLow s low x ↔ rank k < x := fun x => by
      rw [AboveLow, if_pos hopen, hrank]
    rw [hn, firstSeekLoop, hq.key_eq, hk]
    simp only [(before_forwardOptions k unique).mpr ⟨hopen, hrank.le⟩]
    by_cases hstop : BelowHigh s high (rank k)
    · rw [if_neg fun hc => (hspans.past_iff k).mp hc hstop]
      change Reaches t s _ _ _ p (firstSeekLoop t _ (n + 1) (it.next t))
      by_cases hb : ∃ b, Resurfaces t (rank (s.objectStoreDataKey low.1)) b
      · -- the deleted record lies past the range, and so does everything behind it
        obtain ⟨b, hb⟩ := hb
        have hpos := position_next_of_resurfaces (s.objectStoreDataKey low.1) (hit ▸ hk)
          (hrank ▸ hb)
        rw [hit] at hpos
        obtain ⟨k', hk', hr'⟩ := position_eq_coe_iff.mp hpos
        rw [firstSeekLoop, hq'.key_eq, hk']
        have hstop' : ¬ BelowHigh s high (rank k') := ofRank_inj.mp hr' ▸ hno hopen b hb
        simp only [(hspans.past_iff k').mpr hstop']
        intro x hx hcon
        obtain ⟨hmem, hlow⟩ := hp.mem x hx
        have hbx := hle x hmem ((hstart x).mp hlow)
        rw [TransactionIterator.next] at hpos
        rw [hpos] at hbx
        exact hno hopen b hb (hcon.mono (WithTop.coe_le_coe.mp hbx))
      · have hnext : IsFirst {x | x ∈ (t.overlay .forward).view ∧ AboveLow s low x}
            (position .forward (it.next t).currentKey) := by
          have := isFirst_next_of_seek (s.objectStoreDataKey low.1) (hit ▸ hk)
            fun b hc => hb ⟨b, hrank ▸ hc⟩
          rw [hit] at this
          exact this.congr fun x => and_congr_right fun _ => (hstart x).symm
        rw [hp.unique hnext]
        exact reaches_firstSeekLoop hspans hr n hq' (hq.shown_move hk .forward) hnext fun a ha =>
          before_forwardOptions_of_aboveLow (hnext.mem (rank a) (by rw [ha]; rfl)).2 unique
    · rw [if_pos ((hspans.past_iff k).mpr hstop)]
      intro x hx hcon
      exact hstop (hcon.mono ((hstart x).mp (hp.mem x hx).2).le)
  · -- the iterator stands on the first entry of the range
    have hstart : ∀ x ∈ (t.overlay .forward).view,
        rank (s.objectStoreDataKey low.1) ≤ x ↔ AboveLow s low x := fun x hx => by
      refine ⟨fun hle => ?_, AboveLow.le⟩
      unfold AboveLow
      split
      · next hopen =>
        refine lt_of_le_of_ne hle fun hc => hat ⟨hopen, ?_⟩
        have hpos : position .forward it.currentKey = (x : WithTop (forward.Rank _)) :=
          hfirst.unique (IsFirst.coe_iff.mpr ⟨⟨hx, hle⟩, fun y hy => hc ▸ hy.2⟩)
        obtain ⟨k, hk, hr'⟩ := position_eq_coe_iff.mp hpos
        exact ⟨k, hk, hr'.trans hc.symm⟩
      · exact hle
    have hfirst' : IsFirst {x | x ∈ (t.overlay .forward).view ∧ AboveLow s low x}
        (position .forward it.currentKey) :=
      hfirst.congr fun x => and_congr_right fun hx => hstart x hx
    rw [hp.unique hfirst']
    exact reaches_firstSeekLoop hspans hr _ hq hshown hfirst' fun a ha =>
      before_forwardOptions_of_aboveLow (hfirst'.mem (rank a) (by rw [ha]; rfl)).2 unique

/-- A deleted record that resurfaces in the range is delivered. -/
theorem firstSeek_of_resurfaces (hr : Readable s t) (low high : BoundKey × Bool) (unique : Bool)
    (hopen : low.2 = true) (hb : Resurfaces t (rank (s.objectStoreDataKey low.1)) b)
    (hhigh : BelowHigh s high b) :
    ∃ (cursor : ObjectStoreCursorImpl) (key : RecordKey),
      firstSeek t (forwardOptions s low high unique) = some cursor ∧
        cursor.row.m_currentKey = key.key ∧ rank (s.objectStoreDataKey key.toBound) = b := by
  have hspans := spans_forward s low high unique
  have hq := quiet_seek t (s.objectStoreDataKey low.1)
  obtain ⟨k, hk, hrank⟩ := currentKey_seek_of_isSome (t := t) (s.objectStoreDataKey low.1)
    (by
      obtain ⟨hdb, htree⟩ := hb.untouched
      rw [view, htree]
      exact hdb)
  have hpos := position_next_of_resurfaces _ hk (hrank ▸ hb)
  rw [firstSeek]
  simp only [forwardOptions, if_true]
  change ∃ cursor key, firstSeekLoop t (forwardOptions s low high unique) _ _ = _ ∧ _
  generalize TransactionIterator.create.seek t (s.objectStoreDataKey low.1) = it at *
  have hq' : Quiet t (it.next t) := hq.move .forward
  have hcount := (hq.unread_move_lt hk .forward).trans_le (unread_le_keyCount .forward t it)
  obtain ⟨n, hn⟩ : ∃ n, t.keyCount = n + 1 := ⟨t.keyCount - 1, by omega⟩
  obtain ⟨k', hk', hr'⟩ := position_eq_coe_iff.mp hpos
  obtain rfl : rank k' = b := ofRank_inj.mp hr'
  have hlow : AboveLow s low (rank k') := by
    rw [AboveLow, if_pos hopen]
    exact hb.lt
  obtain ⟨key, row, rfl, hload, hcur, -⟩ := atRow_of_shown hspans hr hq'
    (hq.shown_move hk .forward) hk' hlow (not_not.mpr hhigh)
  refine ⟨⟨forwardOptions s low high unique, it.next t, row⟩, key, ?_, hcur, rfl⟩
  have hbelow : BelowHigh s high (rank k) := hhigh.mono (hrank ▸ hb.lt.le)
  rw [hn, firstSeekLoop, hq.key_eq, hk]
  simp only [(before_forwardOptions k unique).mpr ⟨hopen, hrank.le⟩]
  rw [if_neg fun hc => (hspans.past_iff k).mp hc hbelow]
  change firstSeekLoop t _ (n + 1) (it.next t) = _
  rw [firstSeekLoop, hq'.key_eq, hk']
  simp only [before_forwardOptions_of_aboveLow hlow unique, Bool.false_eq_true, if_false, hload]
  rw [if_neg fun hc => (hspans.past_iff _).mp hc hhigh]

/-- A reverse cursor reaches the first entry of the range from the key that was found for it. -/
theorem reaches_firstSeek_reverse (hr : Readable s t) (low : BoundKey × Bool)
    (highOpen unique : Bool) (hfound : IsFirst {x | x ∈ (t.overlay .reverse).view ∧
      reverse.ofRank (rank (s.objectStoreDataKey high.1)) ≤ x} (position .reverse (some found)))
    (hopen : highOpen = true ↔ high.2 = true ∧ rank found = rank (s.objectStoreDataKey high.1))
    (hp : IsFirst {x | x ∈ (t.overlay .reverse).view ∧ BelowHigh s high (reverse.toRank x)} p) :
    Reaches t s (reverseOptions s low found highOpen unique) .reverse
      {x | ¬ AboveLow s low (reverse.toRank x)} p
      (firstSeek t (reverseOptions s low found highOpen unique)) := by
  have hspans := spans_reverse s low high found highOpen unique
  have hq := quiet_seek t found
  have hshown := Sweeping.shown_seek t .create found
  rw [position_some, IsFirst.coe_iff] at hfound
  obtain ⟨⟨hmem, hle⟩, hmax⟩ := hfound
  have hbelow : ∀ x : reverse.Rank (List ℤ), x ∈ (t.overlay .reverse).view →
      BelowHigh s high (reverse.toRank x) → reverse.toRank x ≤ rank found :=
    fun x hx hb => hmax x ⟨hx, hb.le⟩
  obtain ⟨k, hk, hrank⟩ := currentKey_seek_of_isSome found (mem_view_iff.mp hmem)
  have hs : ¬ (TransactionIterator.create.seek t found).Straight .reverse := fun hs => by
    have hd := (TransactionIterator.ready_seek (O := List ℤ) t .create found).direction_settle
    exact absurd (hs.1.symm.trans hd) (by simp)
  rw [firstSeek]
  simp only [reverseOptions, Bool.false_eq_true, if_false]
  change Reaches t s (reverseOptions s low found highOpen unique) _ _ _
    (firstSeekLoop t (reverseOptions s low found highOpen unique) _ _)
  generalize TransactionIterator.create.seek t found = it at *
  by_cases hho : highOpen = true
  · -- the key found is the open bound
    obtain ⟨hopen', heq⟩ := hopen.mp hho
    have hbefore : ∀ a : StoreKey, (reverseOptions s low found highOpen unique).before a = true ↔
        rank found ≤ rank a := fun a => by
      have hkind : found.key.kind ≠ .kIndexData := by
        rw [StoreKey.kind_eq_of_rank_eq heq]
        simp
      simp only [CursorOptions.before, reverseOptions, Bool.false_eq_true, if_false, hho,
        Bool.true_and, decide_eq_true_iff, compareIndexKeys_of_kind hkind, compare_nonneg_iff]
    have hstart : ∀ x : List ℤ, BelowHigh s high x ↔ x < rank k := fun x => by
      rw [BelowHigh, if_pos hopen', hrank, heq]
    have hq' : Quiet t (it.prev t) := hq.move .reverse
    have hprev : IsFirst {x | x ∈ (t.overlay .reverse).view ∧
        BelowHigh s high (reverse.toRank x)} (position .reverse (it.prev t).currentKey) :=
      (hq.isFirst_move hk hs).congr fun x => and_congr_right fun _ => (hstart _).symm
    have hcount := (hq.unread_move_lt hk .reverse).trans_le (unread_le_keyCount .reverse t it)
    obtain ⟨n, hn⟩ : ∃ n, t.keyCount = n + 1 := ⟨t.keyCount - 1, by omega⟩
    rw [hn, firstSeekLoop, hq.key_eq, hk]
    simp only [(hbefore k).mpr hrank.ge]
    by_cases hstop : AboveLow s low (rank k)
    · rw [if_neg fun hc => (hspans.past_iff k).mp hc hstop, hp.unique hprev]
      refine reaches_firstSeekLoop hspans hr n hq' (hq.shown_move hk .reverse) hprev fun a ha => ?_
      have hlt : rank a < rank k := (hstart _).mp
        (hprev.mem (reverse.ofRank (rank a)) (by rw [ha]; rfl)).2
      rw [Bool.eq_false_iff, Ne, hbefore, not_le]
      exact hrank ▸ hlt
    · rw [if_pos ((hspans.past_iff k).mpr hstop)]
      intro x hx hcon
      exact hstop (hcon.mono ((hstart _).mp (hp.mem x hx).2).le)
  · -- the key found is the first of the range
    have hfirst : IsFirst {x | x ∈ (t.overlay .reverse).view ∧
        BelowHigh s high (reverse.toRank x)} (position .reverse it.currentKey) := by
      rw [hk, position_some, IsFirst.coe_iff, hrank]
      refine ⟨⟨hmem, ?_⟩, fun y hy => hbelow y hy.1 hy.2⟩
      rw [BelowHigh]
      split
      · next hopen' => exact lt_of_le_of_ne hle fun hc => hho (hopen.mpr ⟨hopen', hc⟩)
      · exact hle
    rw [hp.unique hfirst]
    refine reaches_firstSeekLoop hspans hr _ hq hshown hfirst fun a _ => ?_
    simp only [CursorOptions.before, reverseOptions, Bool.false_eq_true, if_false,
      Bool.eq_false_iff.mpr hho, Bool.false_and]

end FirstSeek

/-! ## The whole run -/

section Run

variable {t : Transaction} {s : StoreId} {range : Option IDBKeyRange} {direction : CursorDirection}

theorem objectStoreCursorOptions_forward (h : direction.forward = true) :
    objectStoreCursorOptions t s range direction =
      some (forwardOptions s (lowBound range) (highBound range) direction.unique) := by
  unfold objectStoreCursorOptions lowBound highBound
  cases lowerBound range <;> cases upperBound range <;> simp only [h] <;> rfl

/-- The bound behind all records is no entry. -/
theorem Readable.view_max (hr : Readable s t) : t.view
    (rank (s.objectStoreDataKey .max)) = none := by
  by_contra hne
  obtain ⟨e, he⟩ := ne_none_iff_exists'.mp hne
  obtain ⟨key, -, -, hkey, -⟩ := hr .max e.2 (stored_of_view he)
  exact absurd (congrArg BoundKey.key hkey) (by simp [BoundKey.max, RecordKey.toBound])

theorem objectStoreCursorOptions_reverse (hr : Readable s t) (range : Option IDBKeyRange)
    (h : direction.forward = false) :
    ∃ (shared : Bool) (highOpen : StoreKey → Bool), objectStoreCursorOptions t s range direction =
        (findGreatestKeyLessThanOrEqual t (s.objectStoreDataKey (highBound range).1) shared).map
          (fun found => reverseOptions s (lowBound range) found (highOpen found) direction.unique) ∧
      ∀ found, findGreatestKeyLessThanOrEqual t (s.objectStoreDataKey (highBound range).1) shared =
          some found → (highOpen found = true ↔ (highBound range).2 = true ∧
            rank found = rank (s.objectStoreDataKey (highBound range).1)) := by
  have hfirst : ∀ (p : BoundKey) (shared : Bool) (found : StoreKey),
      findGreatestKeyLessThanOrEqual t (s.objectStoreDataKey p) shared = some found →
        (t.view (rank found)).isSome ∧ rank found ≤ rank (s.objectStoreDataKey p) := by
    intro p shared found hfound
    have := (isFirst_findGreatestKeyLessThanOrEqual t s p shared).mem
      (reverse.ofRank (rank found)) (by rw [hfound]; rfl)
    exact ⟨mem_view_iff.mp this.1, this.2⟩
  unfold objectStoreCursorOptions highBound
  cases hu : upperBound range with
  | none =>
    refine ⟨true, fun _ => false, ?_, fun found hfound => ?_⟩
    · unfold lowBound
      cases lowerBound range <;> simp only [h] <;> rfl
    · refine iff_of_false (by simp) fun hc => ?_
      have hsome := (hfirst _ _ _ hfound).1
      rw [hc.2] at hsome
      exact absurd hsome (by rw [hr.view_max]; simp)
  | some b =>
    obtain ⟨upper, upperOpen⟩ := b
    refine ⟨false, fun found => upperOpen &&
      !decide (compareIndexKeys found (s.objectStoreDataKey upper.toBound) < 0), ?_,
      fun found hfound => ?_⟩
    · unfold lowBound
      cases lowerBound range <;> simp only [h] <;> rfl
    · have hle := (hfirst _ _ _ hfound).2
      simp only [Bool.and_eq_true, Bool.not_eq_true', decide_eq_false_iff_not,
        compareIndexKeys_objectStoreDataKey, compare_neg_iff, not_lt]
      exact and_congr_right fun _ => ⟨hle.antisymm, Eq.ge⟩

/-- The entries of the range. -/
def rangeSet (s : StoreId) (range : Option IDBKeyRange) (d : Direction) : Set (d.Rank (List ℤ)) :=
  {x | AboveLow s (lowBound range) (d.toRank x) ∧ BelowHigh s (highBound range) (d.toRank x)}

variable (isEqual isLessThan : IDBKey → IDBKey → Bool)

section

variable (hr : Readable s t) (hequal : ∀ a b, isEqual a b = true ↔ a.referenceCompare b = .eq)
include hequal hr

theorem lists_cursorRows_forward (hd : direction.forward = true)
    (hno : (lowBound range).2 = true → ∀ b,
      Resurfaces t (rank (s.objectStoreDataKey (lowBound range).1)) b →
        ¬ BelowHigh s (highBound range) b) :
    Lists t s .forward (rangeSet s range .forward)
      (cursorRows isEqual isLessThan t s range direction) := by
  obtain ⟨p, hp⟩ := exists_isFirst_view t .forward {x | AboveLow s (lowBound range) x}
  have hreach := reaches_firstSeek_forward hr direction.unique hno hp
  have hlists := lists_of_reaches isEqual isLessThan (spans_forward s _ _ _) hr hequal hp hreach
  rw [cursorRows, openObjectStoreCursor, objectStoreCursorOptions_forward hd, bind_some]
  refine ⟨hlists.sorted, fun row hrow => ?_, fun x hx hxs => ?_⟩
  · obtain ⟨x, hx, hxs, hxrow⟩ := hlists.live row hrow
    exact ⟨x, hx, ⟨hxs.1, not_not.mp hxs.2⟩, hxrow⟩
  · exact hlists.complete x hx ⟨hxs.1, not_not.mpr hxs.2⟩

theorem lists_cursorRows_reverse (hd : direction.forward = false) :
    Lists t s .reverse (rangeSet s range .reverse)
      (cursorRows isEqual isLessThan t s range direction) := by
  obtain ⟨shared, highOpen, hoptions, hopen⟩ := objectStoreCursorOptions_reverse hr range hd
  have hfound := isFirst_findGreatestKeyLessThanOrEqual t s (highBound range).1 shared
  rw [cursorRows, openObjectStoreCursor, hoptions]
  cases hf : findGreatestKeyLessThanOrEqual t (s.objectStoreDataKey (highBound range).1) shared with
  | none =>
    rw [hf, position_none, IsFirst.top_iff] at hfound
    exact ⟨.nil, fun _ hrow => absurd hrow not_mem_nil,
      fun x hx hxs => absurd ⟨hx, BelowHigh.le hxs.2⟩ (hfound x)⟩
  | some found =>
    rw [hf] at hfound
    obtain ⟨p, hp⟩ := exists_isFirst_view t .reverse
      {x | BelowHigh s (highBound range) (reverse.toRank x)}
    have hreach := reaches_firstSeek_reverse hr (lowBound range) (highOpen found)
      direction.unique hfound (hopen found hf) hp
    have hlists := lists_of_reaches isEqual isLessThan (spans_reverse s _ _ _ _ _) hr hequal hp
      hreach
    rw [map_some, bind_some]
    refine ⟨hlists.sorted, fun row hrow => ?_, fun x hx hxs => ?_⟩
    · obtain ⟨x, hx, hxs, hxrow⟩ := hlists.live row hrow
      exact ⟨x, hx, ⟨not_not.mp hxs.2, hxs.1⟩, hxrow⟩
    · exact hlists.complete x hx ⟨hxs.2, not_not.mpr hxs.1⟩

end

/-- The rows of the range, in the terms of the keys. -/
theorem delivers_of_lists (hd : direction.forward = true ↔ d = .forward)
    (h : Lists t s d (rangeSet s range d) rows) :
    Delivers t s range direction rows := by
  have hlive : ∀ row ∈ rows, ∃ (key : RecordKey) (version : ℕ) (value : UString),
      row = .ofRecord key.key version value ∧ InRange range key.key ∧
        t.get (s.objectStoreDataKey key.toBound) =
          some (encodeVarInt version ++ encodeString value) := by
    intro row hrow
    obtain ⟨x, -, hxs, key, version, value, rfl, hrank, hget⟩ := h.live row hrow
    refine ⟨key, version, value, rfl, (inRange_iff s range key).mpr ?_, hget⟩
    rw [hrank]
    exact hxs
  refine ⟨?_, hlive, fun key hkey hsome => ?_⟩
  · refine h.sorted.imp_of_mem fun {a b} ha hb hab => ?_
    obtain ⟨key, version, value, rfl, -, hget⟩ := hlive a ha
    obtain ⟨key', version', value', rfl, -, hget'⟩ := hlive b hb
    have hlt := hab (d.ofRank (rank (s.objectStoreDataKey key.toBound)))
      (d.ofRank (rank (s.objectStoreDataKey key'.toBound)))
      ⟨key, version, value, rfl, (d.toRank_ofRank _).symm, hget⟩
      ⟨key', version', value', rfl, (d.toRank_ofRank _).symm, hget'⟩
    cases d with
    | forward =>
      rw [if_pos (hd.mpr rfl)]
      exact StoreId.rank_toBound_lt_iff.mp hlt
    | reverse =>
      rw [if_neg fun hc => absurd (hd.mp hc) (by simp)]
      have hlt' : rank (s.objectStoreDataKey key'.toBound) <
          rank (s.objectStoreDataKey key.toBound) := hlt
      by_contra hne
      exact absurd (StoreId.rank_toBound_le_iff.mpr hne) (not_le.mpr hlt')
  · obtain ⟨row, hrow, key', version, value, rfl, hrank, -⟩ :=
      h.complete (d.ofRank (rank (s.objectStoreDataKey key.toBound)))
        (mem_view_iff.mpr (by
          rw [toRank_ofRank]
          rwa [get_eq_view, isSome_map] at hsome))
        (by
          have := (inRange_iff s range key).mp hkey
          rw [rangeSet, Set.mem_ofPred_eq, toRank_ofRank]
          exact this)
    refine ⟨_, hrow, ?_⟩
    rw [toRank_ofRank] at hrank
    exact StoreId.rank_toBound_eq_iff.mp hrank

/-- A key that resurfaces in the range makes the cursor start on a deleted record. -/
theorem startsOnDeleted_of_resurfaces (hr : Readable s t) (hd : direction.forward = true)
    (hopen : (lowBound range).2 = true)
    (hb : Resurfaces t (rank (s.objectStoreDataKey (lowBound range).1)) b)
    (hhigh : BelowHigh s (highBound range) b) : StartsOnDeleted t s range direction := by
  -- the bound is stored, so it is the key of a record
  have hstored : ∀ p : BoundKey, (t.m_db.lookup (rank (s.objectStoreDataKey p))).isSome →
      ∃ key : RecordKey, p = key.toBound := fun p hsome => by
    obtain ⟨⟨k, v⟩, hkv⟩ := isSome_iff_exists.mp hsome
    obtain ⟨key, -, -, hkey, -⟩ := hr p v (Or.inl ⟨k, hkv⟩)
    exact ⟨key, hkey⟩
  obtain ⟨lower, hlower⟩ := hstored _ hb.untouched.1
  obtain ⟨⟨k, v⟩, hkv⟩ := isSome_iff_exists.mp hb.deleted.1
  have hlow : AboveLow s (lowBound range) b := by
    rw [AboveLow, if_pos hopen]
    exact hb.lt
  obtain rfl : rank k = b := SortedMap.rank_of_lookup hkv
  obtain ⟨q, rfl⟩ := StoreId.exists_of_rank_between hlow.le hhigh.le
  obtain ⟨deleted, rfl⟩ := hstored q hb.deleted.1
  refine ⟨hd, lower, deleted, ?_, (inRange_iff s range deleted).mpr ⟨hlow, hhigh⟩, hlower ▸ hb⟩
  unfold lowBound at hlower hopen
  cases hl : lowerBound range with
  | none =>
    rw [hl] at hlower
    exact absurd (congrArg BoundKey.key hlower) (by simp [BoundKey.min, RecordKey.toBound])
  | some bound =>
    rw [hl] at hlower hopen
    obtain ⟨key, lowerOpen⟩ := bound
    have hkey : key.key = lower.key := by
      have := congrArg BoundKey.key hlower
      simpa [RecordKey.toBound] using this
    obtain ⟨kk, hv, hn⟩ := key
    obtain ⟨kl, hv', hn'⟩ := lower
    obtain rfl : kk = kl := hkey
    obtain rfl : lowerOpen = true := hopen
    rfl

end Run

/-- **When a cursor delivers the records of its range.**  In every reachable store a cursor over an
object store delivers exactly the live records of its range, each once and in the order of its
direction, unless it goes forward from an open lower bound and the next key of the database is a
deleted record of the range. -/
theorem delivers_iff (isEqual isLessThan : IDBKey → IDBKey → Bool)
    (hequal : ∀ a b, isEqual a b = true ↔ a.referenceCompare b = .eq) (s : StoreId)
    (σ : RecordStore) (hσ : σ.Reachable s) (range : Option IDBKeyRange)
    (direction : CursorDirection) :
    Delivers σ.transaction s range direction
        (cursorRows isEqual isLessThan σ.transaction s range direction) ↔
      ¬ StartsOnDeleted σ.transaction s range direction := by
  have hr := Readable.of_reachable hσ
  refine ⟨?_, fun hno => ?_⟩
  · rintro h ⟨hd, lower, deleted, hlower, hin, hb⟩
    have hlow : lowBound range = (lower.toBound, true) := by rw [lowBound, hlower]
    obtain ⟨cursor, key, hcursor, hkey, hrank⟩ := firstSeek_of_resurfaces hr (lowBound range)
      (highBound range) direction.unique (by rw [hlow]) (by rw [hlow]; exact hb)
      ((inRange_iff s range deleted).mp hin).2
    have hmem : cursor.row ∈ cursorRows isEqual isLessThan σ.transaction s range direction := by
      rw [cursorRows, openObjectStoreCursor, objectStoreCursorOptions_forward hd, bind_some,
        hcursor]
      exact mem_cons_self ..
    -- the row is the one of the deleted record, which the transaction does not have
    obtain ⟨key', version, value, hrow, -, hget⟩ := h.live _ hmem
    have hkey' : key.key = key'.key := by rw [← hkey, hrow]; rfl
    have hrank' : rank (s.objectStoreDataKey key'.toBound) =
        rank (s.objectStoreDataKey deleted.toBound) := by
      rw [← hrank, StoreId.rank_toBound_eq_iff, hkey', IDBKey.referenceCompare_self]
    rw [get_eq_view, hrank', hb.deleted.2] at hget
    cases hget
  · cases hd : direction.forward with
    | true =>
      refine delivers_of_lists (d := .forward) (by simp [hd])
        (lists_cursorRows_forward isEqual isLessThan hr hequal hd fun hopen b hb hhigh => ?_)
      exact hno (startsOnDeleted_of_resurfaces hr hd hopen hb hhigh)
    | false =>
      exact delivers_of_lists (d := .reverse) (by simp [hd])
        (lists_cursorRows_reverse isEqual isLessThan hr hequal hd)

section Example

/-- The comparisons of keys, as `IDBKey` has them. -/
def exampleIsEqual (a b : IDBKey) : Bool := a.referenceCompare b = .eq

def exampleIsLessThan (a b : IDBKey) : Bool := a.referenceCompare b = .lt

theorem exampleIsEqual_iff (a b : IDBKey) :
    exampleIsEqual a b = true ↔ a.referenceCompare b = .eq := decide_eq_true_iff

/-- The records 1, 2 and 3 are committed, and the next transaction has deleted 2. -/
def deletedSecond : RecordStore :=
  let t : Transaction := LevelDBTransaction.create SortedMap.empty
  let put₁ := putObjectStoreRecord t exampleStore (exampleKey 1) (exampleValue 7)
  let put₂ := putObjectStoreRecord put₁.1 exampleStore (exampleKey 2) (exampleValue 8)
  let put₃ := putObjectStoreRecord put₂.1 exampleStore (exampleKey 3) (exampleValue 9)
  ⟨deleteObjectStoreRecord (LevelDBTransaction.create put₃.1.commit) exampleStore put₂.2,
    [put₃.2, put₂.2, put₁.2]⟩

theorem reachable_deletedSecond : deletedSecond.Reachable exampleStore := by
  refine ⟨⟨LevelDBTransaction.create SortedMap.empty, []⟩, ⟨rfl, rfl, ?_, by decide +kernel⟩, ?_⟩
  · simp [LevelDBTransaction.create, SortedMap.empty]
  · exact .tail (.tail (.tail (.tail (.tail .refl (.put _ (exampleKey 1) _ (by decide +kernel)))
      (.put _ (exampleKey 2) _ (by decide +kernel)))
      (.put _ (exampleKey 3) _ (by decide +kernel))) (.commit _)) (.delete _ _)

/-- From the closed bound 1 the cursor delivers 1 and 3. -/
theorem delivers_iff_closedBound : ¬ StartsOnDeleted deletedSecond.transaction exampleStore
        (some ⟨some (exampleKey 1), none, false, false⟩) .NEXT ∧
      Delivers deletedSecond.transaction exampleStore
        (some ⟨some (exampleKey 1), none, false, false⟩) .NEXT
        (cursorRows exampleIsEqual exampleIsLessThan deletedSecond.transaction exampleStore
          (some ⟨some (exampleKey 1), none, false, false⟩) .NEXT) := by
  have hno : ¬ StartsOnDeleted deletedSecond.transaction exampleStore
      (some ⟨some (exampleKey 1), none, false, false⟩) .NEXT := by
    rintro ⟨-, lower, -, hlower, -⟩
    exact absurd (congrArg Prod.snd (some_inj.mp hlower)) (by simp)
  exact ⟨hno, (delivers_iff exampleIsEqual exampleIsLessThan exampleIsEqual_iff exampleStore
    deletedSecond reachable_deletedSecond _ _).mpr hno⟩

/-- From the open bound 1 it delivers the deleted record 2. -/
theorem not_delivers_openBound :
    let rows := cursorRows exampleIsEqual exampleIsLessThan deletedSecond.transaction exampleStore
      (some ⟨some (exampleKey 1), none, true, false⟩) .NEXT
    deletedSecond.Reachable exampleStore ∧ rows.map (fun row => row.m_identifier) =
        [(encodeIDBKey (exampleKey 2).key, 2), (encodeIDBKey (exampleKey 3).key, 3)] ∧
      deletedSecond.transaction.get (exampleStore.objectStoreDataKey (exampleKey 2).toBound) = none ∧
      ¬ Delivers deletedSecond.transaction exampleStore
        (some ⟨some (exampleKey 1), none, true, false⟩) .NEXT rows := by
  intro rows
  have hrows : rows.map (fun row => row.m_identifier) =
      [(encodeIDBKey (exampleKey 2).key, 2), (encodeIDBKey (exampleKey 3).key, 3)] := by
    decide +kernel
  have hget : deletedSecond.transaction.get
      (exampleStore.objectStoreDataKey (exampleKey 2).toBound) = none := by decide +kernel
  refine ⟨reachable_deletedSecond, hrows, hget, fun h => ?_⟩
  obtain ⟨row, hrow, hid⟩ := mem_map.mp
    (hrows ▸ mem_cons_self .. : (encodeIDBKey (exampleKey 2).key, (2 : ℤ)) ∈
      rows.map fun row => row.m_identifier)
  obtain ⟨key, version, value, rfl, -, hlive⟩ := h.live row hrow
  -- the encoding determines the key
  have hencode : encodeIDBKey key.key = encodeIDBKey (exampleKey 2).key := congrArg Prod.fst hid
  have hkey : key.key = (exampleKey 2).key :=
    eq_of_encodeIDBKey_eq key.valid (exampleKey 2).valid key.decodable (exampleKey 2).decodable
      hencode
  have hrank : rank (exampleStore.objectStoreDataKey key.toBound) =
      rank (exampleStore.objectStoreDataKey (exampleKey 2).toBound) := by
    rw [StoreId.rank_toBound_eq_iff, hkey, IDBKey.referenceCompare_self]
  rw [get_eq_view, hrank, ← get_eq_view, hget] at hlive
  cases hlive

end Example

end IndexedDB
end WebKit
