import WebKit.IndexedDB.BackingStore

/-!
# The databases of an origin

`getDatabaseNames` reads the keys from the origin with the empty name up to the origin with U+0001
appended.  An origin in between begins with the one asked for and goes on with U+0000; as no origin
has that character, there is only the one asked for.  The comparator decodes every key, and so no
string may be longer than `decodeString` gets through.
-/

namespace WebKit

open List
namespace IndexedDB

/-! ## The keys -/

/-- An origin to which another character can be appended. -/
structure Origin where
  units : UString
  length_lt : units.length < 2 ^ 30

def databaseNameKey (origin name : ShortString) : StoreKey :=
  ⟨.globalMetaData (.databaseName origin.units name.units), ⟨origin.length_le, name.length_le⟩,
    trivial⟩

namespace Origin

variable (o : Origin)

def toShort : ShortString := ⟨o.units, o.length_lt.le⟩

/-- The origin with U+0001 appended. -/
def next : ShortString := ⟨o.units ++ [1], (length_append.trans rfl).le.trans o.length_lt⟩

/-- `DatabaseNameKey::encodeMinKeyForOrigin`. -/
def minKey : StoreKey := databaseNameKey o.toShort ⟨[], Nat.zero_le _⟩

/-- `DatabaseNameKey::encodeStopKeyForOrigin`. -/
def stopKey : StoreKey := databaseNameKey o.next ⟨[], Nat.zero_le _⟩

end Origin

/-! ## The scan -/

/-- The iteration from what the iterator still has to show.  A key that is not decoded fails an
assertion. -/
def getDatabaseNamesLoop (stopKey : StoreKey) : List (StoreKey × Bytes) → Option (List UString)
  | [] => some []
  | e :: it =>
    if compareKeys e.1 stopKey < 0 then
      match DatabaseNameKey.decode e.1.bytes with
      | none => none
      | some (databaseNameKey, _) =>
        (getDatabaseNamesLoop stopKey it).map (databaseNameKey.m_databaseName :: ·)
    else some []

def getDatabaseNames (db : Database) (m_identifier : Origin) : Option (List UString) :=
  getDatabaseNamesLoop m_identifier.stopKey (db.entriesFrom m_identifier.minKey)

/-! ## The keys between the bounds -/

/-- The word of a string as far as the end mark. -/
def unitRanks (s : UString) : List ℤ := s.map fun u => (u.toNat : ℤ) + 1

theorem rankString_cons (u : UInt16) (s : UString) :
    rankString (u :: s) = ((u.toNat : ℤ) + 1) :: rankString s := rfl

/-- A string whose word begins with the units of another begins with it. -/
theorem exists_append_of_rankString {p s : UString} {x y : List ℤ}
    (h : rankString s ++ x = unitRanks p ++ y) : ∃ t, s = p ++ t ∧ y = rankString t ++ x := by
  induction p generalizing s with
  | nil => exact ⟨s, rfl, h.symm⟩
  | cons v p ih =>
    cases s with
    | nil =>
      -- the end mark is below every unit
      have hhead : (0 : ℤ) = (v.toNat : ℤ) + 1 := (cons_eq_cons.mp h).1
      omega
    | cons u s =>
      obtain ⟨hhead, hrest⟩ := cons_eq_cons.mp h
      have hunit : u.toNat = v.toNat := Int.natCast_inj.mp (add_right_cancel hhead)
      obtain ⟨t, rfl, hy⟩ := ih hrest
      exact ⟨t, congrArg (· :: _) (UInt16.toNat_inj.mp hunit), hy⟩

theorem le_rankString_append (s : UString) {x y : List ℤ} (h : x ≤ y) :
    0 :: x ≤ rankString s ++ y := by
  cases s with
  | nil => exact cons_le_cons 0 h
  | cons u s =>
    rw [rankString_cons]
    refine le_of_lt (cons_lt_cons_iff.mpr (.inl ?_))
    omega

theorem zero_le_rankString (s : UString) : [0] ≤ rankString s := by
  have hle := le_rankString_append s (le_refl ([] : List ℤ))
  rwa [append_nil] at hle

/-- A global key with the type byte of names is a name. -/
theorem exists_databaseName {k : StoreKey}
    (h : rank k = [0, 0, 0, (kDatabaseNameTypeByte.toNat : ℤ)] ++ y) :
    ∃ origin name, k.key = .globalMetaData (.databaseName origin name) ∧
      y = rankString origin ++ rankString name := by
  obtain ⟨key, hvalid, hinUse⟩ := k
  have hrank : key.rank StoreKey.typeBase = 0 :: 0 :: 0 :: (kDatabaseNameTypeByte.toNat : ℤ) :: y := h
  have hdatabase := (cons_eq_cons.mp hrank).1
  cases key with
  | globalMetaData k =>
    have hfields := (cons_eq_cons.mp (cons_eq_cons.mp (cons_eq_cons.mp
      hrank).2).2).2
    obtain ⟨htype, hrest⟩ := cons_eq_cons.mp hfields
    have hbyte : k.typeByte = kDatabaseNameTypeByte := UInt8.toNat_inj.mp (Int.natCast_inj.mp htype)
    cases k with
    | databaseName origin name => exact ⟨origin, name, rfl, hrest.symm⟩
    | _ => exact absurd hbyte (by simp only [GlobalKey.typeByte]; decide)
  | databaseMetaData d k =>
    exact absurd (Int.natCast_inj.mp hdatabase) hvalid.1.1.ne'
  | _ => exact absurd (Int.natCast_inj.mp hdatabase) hvalid.1.1.ne'

section Range

variable {o : Origin} {k : StoreKey}

/-- No origin among the names has a null character. -/
def NoNullInOrigin (k : StoreKey) : Prop :=
  ∀ origin name, k.key = .globalMetaData (.databaseName origin name) → (0 : UInt16) ∉ origin

theorem rank_minKey (o : Origin) : rank o.minKey =
    ([0, 0, 0, (kDatabaseNameTypeByte.toNat : ℤ)] ++ unitRanks o.units) ++ [0, 0] := by
  change [0, 0, 0, (kDatabaseNameTypeByte.toNat : ℤ)] ++ (unitRanks o.units ++ [0] ++ [0]) = _
  rw [append_assoc]
  rfl

theorem rank_stopKey (o : Origin) : rank o.stopKey =
    ([0, 0, 0, (kDatabaseNameTypeByte.toNat : ℤ)] ++ unitRanks o.units) ++ [2, 0, 0] := by
  change [0, 0, 0, (kDatabaseNameTypeByte.toNat : ℤ)]
    ++ (unitRanks (o.units ++ [1]) ++ [0] ++ [0]) = _
  rw [unitRanks, map_append, append_assoc, append_assoc]
  rfl

/-- Between the bounds lie the names of the origin. -/
theorem mem_range_iff (h : NoNullInOrigin k) : rank o.minKey ≤ rank k ∧ rank k < rank o.stopKey ↔
      ∃ name, k.key = .globalMetaData (.databaseName o.units name) := by
  rw [rank_minKey, rank_stopKey, append_le_and_lt_append]
  constructor
  · rintro ⟨y, hy, -, hlt⟩
    obtain ⟨origin, name, hkey, hwords⟩ := exists_databaseName hy
    obtain ⟨t, rfl, rfl⟩ := exists_append_of_rankString hwords.symm
    cases t with
    | nil => exact ⟨name, by rw [hkey, append_nil]⟩
    | cons u t =>
      rw [rankString_cons, cons_append, cons_lt_cons_iff] at hlt
      rcases hlt with hlt | ⟨-, hlt⟩
      · -- the origin goes on with a null character
        have hzero : u = 0 := UInt16.toNat_inj.mp (by
          have hnat : (0 : UInt16).toNat = 0 := rfl
          omega)
        refine absurd ?_ (h _ _ hkey)
        rw [hzero]
        exact mem_append_right _ mem_cons_self
      · exact absurd hlt (not_lt.mpr (le_rankString_append t (zero_le_rankString name)))
  · rintro ⟨name, hkey⟩
    refine ⟨0 :: rankString name, ?_, cons_le_cons 0 (zero_le_rankString name), ?_⟩
    · rw [StoreKey.rank_def, hkey]
      change [0, 0, 0, (kDatabaseNameTypeByte.toNat : ℤ)]
        ++ (unitRanks o.units ++ [0] ++ rankString name) = _
      rw [append_assoc]
      rfl
    · exact cons_lt_cons_iff.mpr (.inl (by decide))

end Range

/-! ## The names of an origin -/

/-- The name in the key, if the key is one of names. -/
def databaseNameOf (k : StoreKey) : UString :=
  match k.key with
  | .globalMetaData (.databaseName _ name) => name
  | _ => []

theorem getDatabaseNamesLoop_append (hl : ∀ e ∈ l, compareKeys e.1 stopKey < 0 ∧
      ∃ origin name, e.1.key = .globalMetaData (.databaseName origin name))
    (hrest : ∀ e ∈ rest, ¬ compareKeys e.1 stopKey < 0) :
    getDatabaseNamesLoop stopKey (l ++ rest) = some (l.map fun e => databaseNameOf e.1) := by
  induction l with
  | nil =>
    cases rest with
    | nil => rfl
    | cons e rest => exact if_neg (hrest e mem_cons_self)
  | cons e l ih =>
    obtain ⟨hlt, origin, name, hkey⟩ := hl e mem_cons_self
    have hvalid := e.1.valid
    rw [hkey] at hvalid
    have hdecode : DatabaseNameKey.decode e.1.bytes = some (⟨origin, name⟩, []) := by
      rw [StoreKey.bytes, hkey]
      exact DatabaseNameKey.decode_encode hvalid.1 hvalid.2
    have hname : databaseNameOf e.1 = name := by
      rw [databaseNameOf, hkey]
    rw [cons_append, getDatabaseNamesLoop, if_pos hlt, hdecode,
      ih fun e he => hl e (mem_cons_of_mem _ he), map_cons, hname]
    rfl

/-- What the scan finds are the names of the origin, each once. -/
structure ListsNames (db : Database) (o : Origin) (names : List UString) : Prop where
  found : getDatabaseNames db o = some names
  nodup : names.Nodup
  mem : ∀ name, name ∈ names ↔
    ∃ e ∈ db.entries, e.1.key = .globalMetaData (.databaseName o.units name)

/-- The comparator gets through the key of a name and the two bounds, and the key is between them just
when it is one of the origin. -/
structure FindsOrigin (o o' name : UString) : Prop where
  decoded : ∀ key ∈ [DatabaseNameKey.encode o' name, DatabaseNameKey.encodeMinKeyForOrigin o,
    DatabaseNameKey.encodeStopKeyForOrigin o], (DatabaseNameKey.decode key).isSome = true
  mem_iff : 0 ≤ compare (DatabaseNameKey.encode o' name)
        (DatabaseNameKey.encodeMinKeyForOrigin o) false ∧
      compare (DatabaseNameKey.encode o' name)
        (DatabaseNameKey.encodeStopKeyForOrigin o) false < 0 ↔ o' = o

/-- The names that the scan of an origin finds. -/
theorem exists_listsNames (db : Database) (o : Origin)
    (h : ∀ e ∈ db.entries, NoNullInOrigin e.1) : ∃ names, ListsNames db o names := by
  let range := db.entries.filter fun e =>
    decide (rank o.minKey ≤ rank e.1) && decide (rank e.1 < rank o.stopKey)
  have hrange : ∀ e, e ∈ range ↔
      e ∈ db.entries ∧ rank o.minKey ≤ rank e.1 ∧ rank e.1 < rank o.stopKey := by
    intro e
    rw [mem_filter, Bool.and_eq_true, decide_eq_true_eq, decide_eq_true_eq]
  have hsorted : range.Pairwise fun a b => rank a.1 < rank b.1 :=
    (SortedMap.rank_lt_of_sorted db.sorted).filter _
  have hname : ∀ e ∈ range, ∃ name, e.1.key = .globalMetaData (.databaseName o.units name) := by
    intro e he
    obtain ⟨hmem, hbetween⟩ := (hrange e).mp he
    exact (mem_range_iff (h e hmem)).mp hbetween
  obtain ⟨rest, hscan, hrest⟩ := SortedMap.entriesFrom_eq_append hsorted hrange
  refine ⟨range.map fun e => databaseNameOf e.1, ?_, ?_, fun name => ?_⟩
  · rw [getDatabaseNames, hscan]
    refine getDatabaseNamesLoop_append (fun e he => ?_) fun e he => ?_
    · obtain ⟨name, hkey⟩ := hname e he
      exact ⟨compare_neg_iff.mpr ((hrange e).mp he).2.2, o.units, name, hkey⟩
    · exact not_lt.mpr (compare_nonneg_iff.mpr (hrest e he))
  · -- keys of one origin with one name are one key
    refine List.Pairwise.map _ (fun a b hab => hab) ?_
    refine hsorted.imp_of_mem fun {a b} ha hb hlt heq => ?_
    obtain ⟨m, hm⟩ := hname a ha
    obtain ⟨n, hn⟩ := hname b hb
    rw [databaseNameOf, databaseNameOf, hm, hn] at heq
    have hmn : m = n := heq
    rw [StoreKey.rank_def, StoreKey.rank_def, hm, hn, hmn] at hlt
    exact lt_irrefl _ hlt
  · rw [mem_map]
    constructor
    · rintro ⟨e, he, rfl⟩
      obtain ⟨name, hkey⟩ := hname e he
      refine ⟨e, ((hrange e).mp he).1, ?_⟩
      rw [databaseNameOf, hkey]
    · rintro ⟨e, he, hkey⟩
      refine ⟨e, (hrange e).mpr ⟨he, (mem_range_iff (h e he)).mpr ⟨name, hkey⟩⟩, ?_⟩
      rw [databaseNameOf, hkey]

theorem findsOrigin (o : Origin) (o' name : ShortString) (hnull : (0 : UInt16) ∉ o'.units) :
    FindsOrigin o.units o'.units name.units := by
  refine ⟨fun key hkey => ?_, ?_⟩
  · have hdecode : ∀ origin name : ShortString, (DatabaseNameKey.decode
        (DatabaseNameKey.encode origin.units name.units)).isSome = true := fun origin name => by
      rw [DatabaseNameKey.decode_encode origin.length_le name.length_le]
      rfl
    simp only [mem_cons, not_mem_nil, or_false] at hkey
    rcases hkey with rfl | rfl | rfl
    · exact hdecode o' name
    · exact hdecode o.toShort ⟨[], Nat.zero_le _⟩
    · exact hdecode o.next ⟨[], Nat.zero_le _⟩
  · have hnoNull : NoNullInOrigin (databaseNameKey o' name) := by
      rintro origin name' hkey
      obtain ⟨rfl, -⟩ := GlobalKey.databaseName.inj (LevelDBKey.globalMetaData.inj hkey)
      exact hnull
    have hcompare : 0 ≤ compareKeys (databaseNameKey o' name) o.minKey ∧
        compareKeys (databaseNameKey o' name) o.stopKey < 0 ↔
          ∃ n, (databaseNameKey o' name).key = .globalMetaData (.databaseName o.units n) := by
      rw [compare_nonneg_iff, compare_neg_iff]
      exact mem_range_iff hnoNull
    refine hcompare.trans ⟨?_, fun heq => ⟨name.units, ?_⟩⟩
    · rintro ⟨n, hkey⟩
      exact (GlobalKey.databaseName.inj (LevelDBKey.globalMetaData.inj hkey)).1
    · rw [← heq]
      rfl

/-- Longer strings are not decoded. -/
theorem length_le_of_decode {origin name : UString} (horigin : origin.length < 2 ^ 32)
    (hname : name.length < 2 ^ 32)
    (h : (DatabaseNameKey.decode (DatabaseNameKey.encode origin name)).isSome = true) :
    origin.length ≤ 2 ^ 30 ∧ name.length ≤ 2 ^ 30 := by
  rw [DatabaseNameKey.decode, DatabaseNameKey.encode, append_assoc,
    decodeMetaData_encodeMetaData (by omega), Option.bind_some,
    decodeStringWithLength_encodeStringWithLength horigin] at h
  by_cases hshort : origin.length ≤ 2 ^ 30
  · rw [if_pos hshort, Option.bind_some, ← append_nil (encodeStringWithLength name),
      decodeStringWithLength_encodeStringWithLength hname] at h
    refine ⟨hshort, by_contra fun hlong => ?_⟩
    rw [if_neg hlong] at h
    exact Bool.false_ne_true h
  · rw [if_neg hshort] at h
    exact absurd h Bool.false_ne_true

/-- **The scan finds the databases of the origin.**  When no origin in the store has a null
character, `getDatabaseNames` lists the names of the databases stored for the origin and no others,
since the keys between the bounds are those of the origin, exactly as far as the comparator gets
through them. -/
theorem getDatabaseNames_exact (o : UString) (ho : o.length + 1 < 2 ^ 32) :
    (∀ (db : Database) (hshort : o.length < 2 ^ 30), (∀ e ∈ db.entries, NoNullInOrigin e.1) →
      ∃ names, ListsNames db ⟨o, hshort⟩ names) ∧
    ∀ o' name : UString, o'.length < 2 ^ 32 → name.length < 2 ^ 32 → (0 : UInt16) ∉ o' →
      (FindsOrigin o o' name ↔
        o.length < 2 ^ 30 ∧ o'.length ≤ 2 ^ 30 ∧ name.length ≤ 2 ^ 30) := by
  refine ⟨fun db hshort => exists_listsNames db ⟨o, hshort⟩,
    fun o' name ho' hname hnull => ⟨fun h => ?_, ?_⟩⟩
  · have hstop : (o ++ [1]).length < 2 ^ 32 := by
      rw [length_append]
      exact ho
    have hnext : (o ++ [1]).length ≤ 2 ^ 30 := (length_le_of_decode hstop (by decide)
      (h.decoded _ (mem_cons_of_mem _ (mem_cons_of_mem _ mem_cons_self)))).1
    rw [length_append] at hnext
    exact ⟨hnext, length_le_of_decode ho' hname (h.decoded _ mem_cons_self)⟩
  · rintro ⟨hshort, hshort', hname⟩
    exact findsOrigin ⟨o, hshort⟩ ⟨o', hshort'⟩ ⟨name, hname⟩ hnull

/-- A name of `2 ^ 30 + 1` characters. -/
theorem not_findsOrigin_long : ¬FindsOrigin [97] [97] (List.replicate (2 ^ 30 + 1) 120) := by
  intro h
  have hlength : (List.replicate (2 ^ 30 + 1) (120 : UInt16)).length = 2 ^ 30 + 1 :=
    length_replicate
  have hname := (length_le_of_decode (by decide) (by rw [hlength]; decide)
    (h.decoded _ mem_cons_self)).2
  rw [hlength] at hname
  exact absurd hname (by decide)

/-! ## Two origins -/

/-- The origin "a". -/
def shortOrigin : Origin := ⟨[97], by decide⟩

/-- The origin that ends with the character of the stop key. -/
def longOrigin : Origin := ⟨[97, 1], by decide⟩

/-- A database named "x" of each origin. -/
def twoOrigins : Database where
  entries := [(databaseNameKey shortOrigin.toShort ⟨[120], Nat.one_le_two_pow⟩, []),
    (databaseNameKey longOrigin.toShort ⟨[120], Nat.one_le_two_pow⟩, [])]
  sorted := pairwise_pair.mpr (by decide +kernel)

theorem getDatabaseNames_twoOrigins : (∃ names, ListsNames twoOrigins shortOrigin names) ∧
    FindsOrigin shortOrigin.units longOrigin.units [120] := by
  have hnoNull : ∀ e ∈ twoOrigins.entries, NoNullInOrigin e.1 := by
    intro e he origin name hkey
    rcases mem_pair.mp he with rfl | rfl
    all_goals
      obtain ⟨rfl, -⟩ := GlobalKey.databaseName.inj (LevelDBKey.globalMetaData.inj hkey)
      decide
  obtain ⟨hnames, hfinds⟩ := getDatabaseNames_exact shortOrigin.units (by decide)
  refine ⟨hnames twoOrigins shortOrigin.length_lt hnoNull, ?_⟩
  exact (hfinds _ _ (by decide) (by decide) (by decide)).mpr (by decide)

end IndexedDB
end WebKit
