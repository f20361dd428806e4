import WebKit.IndexedDB.CursorRows
import WebKit.LevelDB.Scan

/-!
# The next auto-increment number

`nextAutoIncrementNumber` scans the records of an object store for the greatest number.  It converts
each number to an `int64_t` and keeps the greatest in an `int`, so the result has the low 32 bits of
the greatest number and one more.

A conversion that does not fit an `int64_t` gives the least one, as on x86.
-/

namespace WebKit

open Direction
namespace IndexedDB

open LevelDB LevelDBTransaction

/-! ## The scan -/

/-- `static_cast<int64_t>`: the value without its fraction. -/
def Double.castInt64 (d : Double) : ℤ :=
  let n := d.value.tdiv (2 ^ 1074)
  if d.isNaN ∨ n < -2 ^ 63 ∨ 2 ^ 63 ≤ n then -2 ^ 63 else n

/-- The loop; a key that is not decoded fails an assertion or is read through a null pointer. -/
def maxNumericKeyLoop (t : Transaction) (stopKey : StoreKey) :
    ℕ → TransactionIterator StoreKey → ℤ → Option ℤ
  | 0, _, _ => none
  | fuel + 1, it, maxNumericKey =>
    match (it.key t).1 with
    | none => some maxNumericKey
    | some key =>
      if compareKeys key stopKey < 0 then
        match ObjectStoreDataKey.decode key.bytes with
        | none => none
        | some (dataKey, _) =>
          match dataKey.userKey with
          | none => none
          | some (.number d) =>
            let n := d.castInt64
            maxNumericKeyLoop t stopKey fuel (it.next t)
              (if n > maxNumericKey then toInt32 n else maxNumericKey)
          | some _ => maxNumericKeyLoop t stopKey fuel (it.next t) maxNumericKey
      else some maxNumericKey

/-- The `int` is returned as a double, which holds it exactly. -/
def nextAutoIncrementNumber (t : Transaction) (s : StoreId) : Option ℤ :=
  let startKey := s.objectStoreDataKey .min
  let stopKey := s.objectStoreDataKey .max
  (maxNumericKeyLoop t stopKey (t.keyCount + 1) (TransactionIterator.create.seek t startKey) 0).map
    fun maxNumericKey => toInt32 (maxNumericKey + 1)

/-! ## Numbers -/

namespace Double

/-- A conversion that fits is not less than one of a smaller number. -/
theorem castInt64_mono {d e : Double} (hde : d.value ≤ e.value) :
    d.castInt64 ≤ e.castInt64 ∨ e.castInt64 = -2 ^ 63 := by
  have hmono : d.value.tdiv (2 ^ 1074) ≤ e.value.tdiv (2 ^ 1074) :=
    Int.tdiv_le_tdiv (by positivity) hde
  unfold castInt64
  dsimp only
  split <;> split <;> omega

/-- The conversion reads the value. -/
theorem castInt64_congr {d e : Double} (hvalue : d.value = e.value) (hd : d.isNaN = false)
    (he : e.isNaN = false) : d.castInt64 = e.castInt64 := by
  unfold castInt64
  rw [hvalue, hd, he]

end Double

theorem toInt32_le (h : 0 ≤ n) : toInt32 n ≤ n := by
  rw [toInt32, Int.bmod_def]
  split <;> omega

theorem neg_le_toInt32 (n : ℤ) : -2 ^ 31 ≤ toInt32 n := by
  rw [toInt32, Int.bmod_def]
  split <;> omega

/-- One step of the loop keeps the low bits of the greatest number. -/
theorem toInt32_max (hN : 0 ≤ N) (h : N = 0 ∨ N ≤ n ∨ n = -2 ^ 63) :
    (if n > toInt32 N then toInt32 n else toInt32 N) = toInt32 (max N n) := by
  have hle := toInt32_le hN
  have hlow := neg_le_toInt32 N
  rcases h with rfl | h | rfl
  · have hzero : toInt32 0 = 0 := rfl
    rw [hzero]
    split
    · rename_i hlt
      rw [max_eq_right (le_of_lt hlt)]
    · rename_i hge
      rw [max_eq_left (not_lt.mp hge), hzero]
  · rw [max_eq_right h]
    split
    · rfl
    · -- nothing was cut off so far
      rw [show N = n by omega]
  · rw [if_neg (by omega), max_eq_left (by omega)]

/-- The result is positive when the low bits are those of an `int` that is not the greatest. -/
theorem toInt32_succ (N : ℤ) : toInt32 (toInt32 N + 1) =
    if N % 2 ^ 32 < 2 ^ 31 - 1 then N % 2 ^ 32 + 1 else N % 2 ^ 32 + 1 - 2 ^ 32 := by
  rw [toInt32, toInt32, Int.bmod_def, Int.bmod_def]
  split <;> split <;> split <;> omega

/-! ## The numbers a scan meets -/

/-- A number as the key of a record. -/
def numberKey (d : Double) (h : d.isNaN = false) : RecordKey := ⟨.number d, trivial, h, trivial⟩

variable (t : Transaction) (s : StoreId)

/-- What the scan meets of the records: those of the store and the deleted ones that reappear. -/
def metRecords : Set (forward.Rank (List ℤ)) :=
  (t.overlay .forward).met (onward (List ℤ) (s.objectStoreDataKey .min))

/-- The rank of a number in the direction of the scan. -/
def numberRank (d : Double) (h : d.isNaN = false) :
    forward.Rank (List ℤ) :=
  forward.ofRank (rank (s.objectStoreDataKey (numberKey d h).toBound))

/-- The numbers among the records, as they are converted, and 0. -/
def metNumbers : Set ℤ :=
  insert 0 {n | ∃ d h, numberRank s d h ∈ metRecords t s ∧ d.castInt64 = n}

/-- The numbers met in front of a position. -/
def numbersBefore (p : WithTop (forward.Rank (List ℤ))) : Set ℤ :=
  insert 0 {n | ∃ d h, (numberRank s d h ∈ metRecords t s ∧ (numberRank s d h : WithTop _) < p) ∧
    d.castInt64 = n}

section Numbers

variable {t : Transaction} {s : StoreId}
variable {d : Double} {p : WithTop (forward.Rank (List ℤ))}

theorem numberRank_lt_iff (hd : d.isNaN = false) (he : e.isNaN = false) :
    numberRank s d hd < numberRank s e he ↔ d.value < e.value := by
  refine (@StoreId.rank_toBound_lt_iff s (numberKey d hd) (numberKey e he)).trans ?_
  exact compare_lt_iff_lt

theorem value_eq_of_numberRank {e : Double} {hd : d.isNaN = false} {he : e.isNaN = false}
    (h : numberRank s d hd = numberRank s e he) : d.value = e.value := by
  have hnot := (numberRank_lt_iff (s := s) hd he).not.mp (not_lt.mpr h.ge)
  have hnot' := (numberRank_lt_iff (s := s) he hd).not.mp (not_lt.mpr h.le)
  omega

variable {h : d.isNaN = false} {it : TransactionIterator StoreKey}

/-- The key of a record at the rank of a number is a number. -/
theorem exists_number_of_rank (hrank : numberRank s d h =
      forward.ofRank (rank (s.objectStoreDataKey key.toBound))) :
    ∃ e he, key = numberKey e he := by
  have heq := (@StoreId.rank_toBound_eq_iff s (numberKey d h) key).mp hrank
  obtain ⟨k, hvalid, hnoNaN⟩ := key
  cases k with
  | number e => exact ⟨e, hnoNaN, rfl⟩
  | _ => cases heq

theorem zero_mem_numbersBefore (p : WithTop (forward.Rank (List ℤ))) :
    (0 : ℤ) ∈ numbersBefore t s p := Set.mem_insert 0 _

/-- Behind a number the numbers in front of the next position are one more. -/
theorem numbersBefore_number (hmet : numberRank s d h ∈ metRecords t s)
    (hp : IsFirst {x | x ∈ metRecords t s ∧ numberRank s d h < x} p) :
    numbersBefore t s p = insert d.castInt64 (numbersBefore t s (numberRank s d h)) := by
  ext n
  constructor
  · rintro (rfl | ⟨e, he, ⟨hmem, hlt⟩, rfl⟩)
    · exact .inr (.inl rfl)
    · rcases lt_trichotomy (numberRank s e he) (numberRank s d h) with hlt' | heq | hgt
      · exact .inr (.inr ⟨e, he, ⟨hmem, WithTop.coe_lt_coe.mpr hlt'⟩, rfl⟩)
      · exact .inl (Double.castInt64_congr (value_eq_of_numberRank heq) he h)
      · exact absurd (hp.le _ ⟨hmem, hgt⟩) (not_le.mpr hlt)
  · have hlt : (numberRank s d h : WithTop _) < p := by
      cases hc : p with
      | top => exact WithTop.coe_lt_top _
      | coe x => exact WithTop.coe_lt_coe.mpr (hp.mem x hc).2
    rintro (rfl | rfl | ⟨e, he, ⟨hmem, hlt'⟩, rfl⟩)
    · exact .inr ⟨d, h, ⟨hmet, hlt⟩, rfl⟩
    · exact .inl rfl
    · exact .inr ⟨e, he, ⟨hmem, hlt'.trans hlt⟩, rfl⟩

/-- Behind a key that is not a number they are the same. -/
theorem numbersBefore_other
    (hother : ∀ d h, numberRank s d h ≠ x) (hp : IsFirst {y | y ∈ metRecords t s ∧ x < y} p) :
    numbersBefore t s p = numbersBefore t s x := by
  have hxp : (x : WithTop _) < p := by
    cases hc : p with
    | top => exact WithTop.coe_lt_top _
    | coe y => exact WithTop.coe_lt_coe.mpr (hp.mem y hc).2
  ext n
  constructor
  · rintro (rfl | ⟨e, he, ⟨hmem, hlt⟩, rfl⟩)
    · exact .inl rfl
    · rcases lt_trichotomy (numberRank s e he) x with hlt' | heq | hgt
      · exact .inr ⟨e, he, ⟨hmem, WithTop.coe_lt_coe.mpr hlt'⟩, rfl⟩
      · exact absurd heq (hother e he)
      · exact absurd (hp.le _ ⟨hmem, hgt⟩) (not_le.mpr hlt)
  · rintro (rfl | ⟨e, he, ⟨hmem, hlt⟩, rfl⟩)
    · exact .inl rfl
    · exact .inr ⟨e, he, ⟨hmem, hlt.trans hxp⟩, rfl⟩

/-- The greatest of the numbers before another one is 0, not above it, or the other did not fit. -/
theorem isGreatest_numbersBefore (hN : IsGreatest (numbersBefore t s (numberRank s d h)) N) :
    N = 0 ∨ N ≤ d.castInt64 ∨ d.castInt64 = -2 ^ 63 := by
  rcases Set.mem_insert_iff.mp hN.1 with hzero | ⟨e, he, ⟨-, hlt⟩, rfl⟩
  · exact .inl hzero
  · have hvalue := (numberRank_lt_iff he h).mp (WithTop.coe_lt_coe.mp hlt)
    exact .inr (Double.castInt64_mono hvalue.le)

/-- At the end of the records all numbers have been met. -/
theorem numbersBefore_end (hp : ((forward.ofRank (rank (s.objectStoreDataKey .max)) :
      forward.Rank (List ℤ)) : WithTop (forward.Rank (List ℤ))) ≤ p) :
    numbersBefore t s p = metNumbers t s := by
  have hlt : ∀ d h, (numberRank s d h : WithTop (forward.Rank (List ℤ))) < p := by
    intro d h
    refine lt_of_lt_of_le (WithTop.coe_lt_coe.mpr ?_) hp
    exact StoreId.rank_objectStoreDataKey_lt_iff.mpr (UserKey.rank_lt_max (.number d))
  simp only [numbersBefore, metNumbers, hlt, and_true]

/-! ## The loop -/

/-- On the key of a record its user key is decoded. -/
theorem exists_userKey (hr : Readable s t) (hshown : Shown t it) (hk : it.currentKey = some key)
    (hstart : rank (s.objectStoreDataKey .min) ≤ rank key)
    (hstop : rank key < rank (s.objectStoreDataKey .max)) :
    ∃ k : RecordKey, key = s.objectStoreDataKey k.toBound ∧ ∃ dataKey,
      ObjectStoreDataKey.decode key.bytes = some (dataKey, []) ∧ dataKey.userKey = some k.key := by
  obtain ⟨p, rfl⟩ := StoreId.exists_of_rank_between hstart hstop.le
  obtain ⟨v, -, hv⟩ := hshown _ hk
  have hstored : t.Stored (s.objectStoreDataKey p) v := by
    rcases hv with hv | ⟨-, hv⟩
    · exact stored_of_view hv
    · exact Or.inl ⟨_, hv⟩
  obtain ⟨k, -, -, rfl, -, -⟩ := hr p v hstored
  refine ⟨k, rfl, ⟨encodeIDBKey k.key⟩, ?_, ?_⟩
  · have hdecode := ObjectStoreDataKey.decode_encode s.databaseId_lt s.lt k.toBound.valid []
    rw [List.append_nil] at hdecode
    exact hdecode
  · have hdecode := decodeIDBKey_encodeIDBKey k.valid k.decodable []
    rw [List.append_nil] at hdecode
    rw [ObjectStoreDataKey.userKey, hdecode]
    rfl

/-- The loop ends with the low bits of the greatest number met. -/
theorem maxNumericKeyLoop_spec (hr : Readable s t) (fuel : ℕ)
    (hscan : Scanning t (onward (List ℤ) (s.objectStoreDataKey .min)) it)
    (hshown : Shown t it) (hfuel : unread (O := List ℤ) .forward t it < fuel)
    (hN : IsGreatest (numbersBefore t s (position .forward it.currentKey)) N) :
    ∃ M, IsGreatest (metNumbers t s) M ∧
      maxNumericKeyLoop t (s.objectStoreDataKey .max) fuel it (toInt32 N) = some (toInt32 M) := by
  induction fuel generalizing it N with
  | zero => exact absurd hfuel (Nat.not_lt_zero _)
  | succ fuel ih =>
    rw [maxNumericKeyLoop, hscan.quiet.key_eq]
    cases hk : it.currentKey with
    | none =>
      rw [hk, position_none, numbersBefore_end le_top] at hN
      exact ⟨N, hN, rfl⟩
    | some key =>
      rw [hk, position_some] at hN
      by_cases hstop : compareKeys key (s.objectStoreDataKey .max) < 0
      · have hmet := hscan.met key hk
        have hstart : rank (s.objectStoreDataKey .min) ≤ rank key :=
          (Overlay.met_subset (isUpperSet_onward _) hmet).1
        obtain ⟨k, rfl, dataKey, hdecode, huser⟩ :=
          exists_userKey hr hshown hk hstart (compare_neg_iff.mp hstop)
        obtain ⟨hscan', hfirst⟩ := hscan.next (isUpperSet_onward _) hk
        have hshown' := hscan.quiet.shown_move hk .forward
        have hfuel' : unread (O := List ℤ) .forward t (it.next t) < fuel :=
          Nat.lt_of_lt_of_le (hscan.quiet.unread_move_lt hk .forward) (Nat.le_of_lt_succ hfuel)
        simp only [if_pos hstop, hdecode, huser]
        by_cases hnumber : ∃ d h, k = numberKey d h
        · obtain ⟨d, h, rfl⟩ := hnumber
          have hbefore := numbersBefore_number (d := d) (h := h) hmet hfirst
          have hzero : 0 ≤ N := hN.2 (zero_mem_numbersBefore _)
          have hgreatest : IsGreatest (numbersBefore t s (position .forward (it.next t).currentKey))
              (max N d.castInt64) := by
            rw [hbefore, max_comm]
            exact hN.insert _
          have hstep := toInt32_max hzero (isGreatest_numbersBefore (d := d) (h := h) hN)
          obtain ⟨M, hM, hloop⟩ := ih hscan' hshown' hfuel' hgreatest
          refine ⟨M, hM, ?_⟩
          change maxNumericKeyLoop t _ fuel (it.next t)
            (if d.castInt64 > toInt32 N then toInt32 d.castInt64 else toInt32 N) = _
          rw [hstep, hloop]
        · have hother : ∀ d h, numberRank s d h ≠
              forward.ofRank (rank (s.objectStoreDataKey k.toBound)) :=
            fun d h hrank => hnumber (exists_number_of_rank hrank)
          have hgreatest := hN
          rw [← numbersBefore_other hother hfirst] at hgreatest
          obtain ⟨M, hM, hloop⟩ := ih hscan' hshown' hfuel' hgreatest
          refine ⟨M, hM, ?_⟩
          obtain ⟨key, hvalid, hnoNaN⟩ := k
          cases key with
          | number d => exact absurd ⟨d, hnoNaN, rfl⟩ hnumber
          | _ => exact hloop
      · have hend := numbersBefore_end (t := t) (s := s)
          (p := (forward.ofRank (rank key) : forward.Rank (List ℤ)))
          (WithTop.coe_le_coe.mpr
            (compare_nonneg_iff.mp (not_lt.mp hstop)))
        rw [hend] at hN
        exact ⟨N, hN, if_neg hstop⟩

/-- The result is one more than what the low bits of the greatest number say. -/
theorem exists_nextAutoIncrementNumber (hr : Readable s t) : ∃ M, IsGreatest (metNumbers t s) M ∧
      nextAutoIncrementNumber t s = some (toInt32 (toInt32 M + 1)) := by
  have hscan := scanning_seek (O := List ℤ) t (s.objectStoreDataKey .min)
  have hfirst := isFirst_seek_met (O := List ℤ) t (s.objectStoreDataKey .min)
  have hbefore : numbersBefore t s (position .forward
      (TransactionIterator.create.seek t (s.objectStoreDataKey .min)).currentKey) = {0} := by
    ext n
    refine or_iff_left ?_
    rintro ⟨d, h, ⟨hmem, hlt⟩, -⟩
    exact absurd (hfirst.le _ hmem) (not_le.mpr hlt)
  have hgreatest : IsGreatest (numbersBefore t s (position .forward
      (TransactionIterator.create.seek t (s.objectStoreDataKey .min)).currentKey)) 0 := by
    rw [hbefore]
    exact isGreatest_singleton
  obtain ⟨M, hM, hloop⟩ := maxNumericKeyLoop_spec hr (t.keyCount + 1) hscan
    (Sweeping.shown_seek t .create _)
    (Nat.lt_succ_of_le (unread_le_keyCount (O := List ℤ) .forward t _)) hgreatest
  refine ⟨M, hM, ?_⟩
  have hzero : toInt32 0 = 0 := rfl
  rw [hzero] at hloop
  rw [nextAutoIncrementNumber, hloop]
  rfl

end Numbers

/-! ## Being beyond the integers of the store -/

variable (t : Transaction) (s : StoreId)

/-- The store has a record whose key is an integer below `2 ^ 53` in absolute value. -/
def HasInteger (k : ℤ) : Prop :=
  |k| < 2 ^ 53 ∧ ∃ d h, d.value = k * 2 ^ 1074 ∧
    (t.get (s.objectStoreDataKey (numberKey d h).toBound)).isSome

/-- The number returned is at least 1 and beyond all integers of the store. -/
def IsBeyondIntegers : Prop :=
  ∃ r, nextAutoIncrementNumber t s = some r ∧ 1 ≤ r ∧ ∀ k, HasInteger t s k → k < r

/-- **When the next number is beyond the integers of the store.**  It is, exactly when the low 32
bits of the greatest number the scan meets are below `2 ^ 31 - 1` and no integer of the store is
above them. -/
theorem isBeyondIntegers_iff (hr : Readable s t) :
    IsBeyondIntegers t s ↔ ∃ N, IsGreatest (metNumbers t s) N ∧ N % 2 ^ 32 < 2 ^ 31 - 1 ∧
      ∀ k, HasInteger t s k → k ≤ N % 2 ^ 32 := by
  obtain ⟨M, hM, hresult⟩ := exists_nextAutoIncrementNumber hr
  rw [toInt32_succ] at hresult
  constructor
  · rintro ⟨r, hr, hpos, hbeyond⟩
    obtain rfl := Option.some.inj (hresult.symm.trans hr)
    by_cases hlow : M % 2 ^ 32 < 2 ^ 31 - 1
    · refine ⟨M, hM, hlow, fun k hk => ?_⟩
      have hlt := hbeyond k hk
      rw [if_pos hlow] at hlt
      omega
    · omega
  · rintro ⟨N, hN, hlow, hle⟩
    obtain rfl := hM.unique hN
    rw [if_pos hlow] at hresult
    refine ⟨_, hresult, ?_, fun k hk => ?_⟩
    · omega
    · have hk' := hle k hk
      omega

/-! ## A key that is the greatest int -/

/-- A record is put under a number. -/
def storeOf (d : Double) (h : d.isNaN = false) : Transaction :=
  (putObjectStoreRecord (LevelDBTransaction.create SortedMap.empty) exampleStore (numberKey d h)
    ⟨[], by decide⟩).1

theorem readable_storeOf (d : Double) (h : d.isNaN = false)
    (hfit : (putObjectStoreRecord (LevelDBTransaction.create SortedMap.empty) exampleStore
      (numberKey d h) ⟨[], by decide⟩).2.version < 2 ^ 63) : Readable exampleStore (storeOf d h) := by
  refine Readable.put (fun p v hv => ?_) (numberKey d h) ⟨[], by decide⟩ hfit
  rcases hv with ⟨k, hk⟩ | ⟨k, hk⟩ <;> cases hk

/-- The number 5. -/
def five : Double := ⟨0x4014000000000000⟩

/-- The number `2 ^ 31 - 1`. -/
def greatestInt : Double := ⟨0x41dfffffffc00000⟩

theorem isBeyondIntegers_five : IsBeyondIntegers (storeOf five (by decide)) exampleStore ↔
    ∃ N, IsGreatest (metNumbers (storeOf five (by decide)) exampleStore) N ∧
      N % 2 ^ 32 < 2 ^ 31 - 1 ∧
        ∀ k, HasInteger (storeOf five (by decide)) exampleStore k → k ≤ N % 2 ^ 32 :=
  isBeyondIntegers_iff _ _ (readable_storeOf five (by decide) (by decide +kernel))

/-- With the greatest `int` in the store the next number is the least one. -/
theorem not_isBeyondIntegers_greatestInt :
    nextAutoIncrementNumber (storeOf greatestInt (by decide)) exampleStore = some (-2 ^ 31) ∧
      HasInteger (storeOf greatestInt (by decide)) exampleStore (2 ^ 31 - 1) ∧
      ¬ IsBeyondIntegers (storeOf greatestInt (by decide)) exampleStore := by
  have hresult : nextAutoIncrementNumber (storeOf greatestInt (by decide)) exampleStore =
      some (-2 ^ 31) := by decide +kernel
  refine ⟨hresult, ⟨by decide, greatestInt, by decide, by decide +kernel, by decide +kernel⟩, ?_⟩
  rintro ⟨r, hr, hpos, -⟩
  obtain rfl := Option.some.inj (hresult.symm.trans hr)
  revert hpos
  decide

end IndexedDB
end WebKit
