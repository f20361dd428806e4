import WebKit.IndexedDB.IDBKey
import WebKit.Library.LexOrder

/-!
# The order of encoded IndexedDB keys

`compareEncodedIDBKeys` compares two encodings without decoding them: it walks both byte strings
in lockstep, with in/out pointers, and recurses into arrays.  `IDBKey.referenceCompare` is the
order IndexedDB prescribes for the keys themselves.  The walk computes it, and when it finds a tie
it has consumed both encodings exactly, whatever bytes follow them; this is what keeps the next
elements of two arrays aligned.

The last section writes every key as a word of integers, `IDBKey.rank`, whose lexicographic order
is the reference order.
-/

namespace WebKit

open List LexOf
namespace IndexedDB

/-! ## The comparison of the source -/

/-- `IDBKey::Type`. -/
inductive IDBKeyType where
  | InvalidType
  | ArrayType
  | StringType
  | DateType
  | NumberType
  | MinType
  deriving DecidableEq

/-- The value of the enumerator. -/
def IDBKeyType.toInt : IDBKeyType → ℤ
  | .InvalidType => 0
  | .ArrayType => 1
  | .StringType => 2
  | .DateType => 3
  | .NumberType => 4
  | .MinType => 5

def compareTypes (a b : IDBKeyType) : ℤ := b.toInt - a.toInt

def keyTypeByteToKeyType (type : UInt8) : IDBKeyType :=
  if type = kIDBKeyNullTypeByte then .InvalidType
  else if type = kIDBKeyArrayTypeByte then .ArrayType
  else if type = kIDBKeyStringTypeByte then .StringType
  else if type = kIDBKeyDateTypeByte then .DateType
  else if type = kIDBKeyNumberTypeByte then .NumberType
  else if type = kIDBKeyMinKeyTypeByte then .MinType
  else .InvalidType

/-- The sign of the first difference among the first `n` bytes. -/
def memcmp : Bytes → Bytes → ℕ → ℤ
  | a :: p, b :: q, n + 1 => if a = b then memcmp p q n else if a < b then -1 else 1
  | _, _, _ => 0

/-- The result and the two advanced pointers; `none` when a pointer has become null. -/
def compareEncodedStringsWithLength (p q : Bytes) : ℤ × Option (Bytes × Bytes) :=
  match decodeVarInt p, decodeVarInt q with
  | some (lenP, startP), some (lenQ, startQ) =>
    let p := startP.drop (2 * lenP.toNat)
    let q := startQ.drop (2 * lenQ.toNat)
    if startP.length < 2 * lenP.toNat ∨ startQ.length < 2 * lenQ.toNat then (0, some (p, q))
    else
      let lmin := (if lenP < lenQ then lenP else lenQ).toNat
      let x := memcmp startP startQ (lmin * 2)
      if x ≠ 0 then (x, some (p, q))
      else if lenP = lenQ then (0, some (p, q))
      else (if lenP > lenQ then 1 else -1, some (p, q))
  | _, _ => (0, none)

/-- Compare `n` pairs of keys, stopping at the first difference. -/
def compareMany (cmp : Bytes → Bytes → ℤ × Option (Bytes × Bytes)) :
    ℕ → Bytes → Bytes → ℤ × Option (Bytes × Bytes)
  | 0, p, q => (0, some (p, q))
  | n + 1, p, q =>
    match cmp p q with
    | (0, some (p, q)) => compareMany cmp n p q
    | r => r

/-- The recursive form, with its in/out pointers.  The first argument bounds the nesting. -/
def compareEncodedIDBKeysLoop : ℕ → Bytes → Bytes → ℤ × Option (Bytes × Bytes)
  | depth + 1, typeA :: p, typeB :: q =>
    let x := compareTypes (keyTypeByteToKeyType typeA) (keyTypeByteToKeyType typeB)
    if x ≠ 0 then (x, some (p, q))
    else if typeA = kIDBKeyNullTypeByte ∨ typeA = kIDBKeyMinKeyTypeByte then (0, some (p, q))
    else if typeA = kIDBKeyArrayTypeByte then
      match decodeVarInt p, decodeVarInt q with
      | some (lengthA, p), some (lengthB, q) =>
        if lengthA < 0 ∨ lengthB < 0 then (0, some (p, q))
        else
          match compareMany (compareEncodedIDBKeysLoop depth) (min lengthA lengthB).toNat p q with
          | (0, some (p, q)) =>
            (if lengthA < lengthB then -1 else if lengthA > lengthB then 1 else 0, some (p, q))
          | r => r
      | _, _ => (0, none)
    else if typeA = kIDBKeyStringTypeByte then compareEncodedStringsWithLength p q
    else if typeA = kIDBKeyDateTypeByte ∨ typeA = kIDBKeyNumberTypeByte then
      match decodeDouble p, decodeDouble q with
      | some (d, p), some (e, q) =>
        (if d.lt e then -1 else if e.lt d then 1 else 0, some (p, q))
      | _, _ => (0, none)
    else (0, some (p, q))
  | _, _, _ => (0, none)

/-- The recursive form on two buffers. -/
def compareEncodedIDBKeysPtr (p q : Bytes) : ℤ × Option (Bytes × Bytes) :=
  compareEncodedIDBKeysLoop (min p.length q.length) p q

def compareEncodedIDBKeys (keyA keyB : Bytes) : ℤ := (compareEncodedIDBKeysPtr keyA keyB).1

/-! ## The reference order -/

/-- Strings by UTF-16 code unit, a proper prefix first. -/
def compareCodeUnits (s t : UString) : Ordering :=
  s.compareLex (fun u v => compare u.toNat v.toNat) t

namespace IDBKey

/-- Number < Date < String < Array. -/
def typeOrder : IDBKey → ℕ
  | .number _ => 0
  | .date _ => 1
  | .string _ => 2
  | .array _ => 3
  | .invalid => 4

mutual

/-- By type, numbers and dates by value, strings by code unit, arrays element by element. -/
def referenceCompare : IDBKey → IDBKey → Ordering
  | .array xs, .array ys => referenceCompareMany xs ys
  | .string s, .string t => compareCodeUnits s t
  | .date d, .date e => compare d.value e.value
  | .number d, .number e => compare d.value e.value
  | a, b => compare a.typeOrder b.typeOrder

/-- Element by element, a proper prefix first. -/
def referenceCompareMany : List IDBKey → List IDBKey → Ordering
  | [], [] => .eq
  | [], _ :: _ => .lt
  | _ :: _, [] => .gt
  | x :: xs, y :: ys => (referenceCompare x y).then (referenceCompareMany xs ys)

end

/-- Keys of different types are ordered by type. -/
theorem referenceCompare_of_ne {a b : IDBKey} (h : a.typeOrder ≠ b.typeOrder) :
    a.referenceCompare b = compare a.typeOrder b.typeOrder := by
  cases a <;> cases b <;> simp_all [referenceCompare, typeOrder]

/-- Two keys of one type. -/
inductive SameType : IDBKey → IDBKey → Prop
  | invalid : SameType .invalid .invalid
  | array (xs ys) : SameType (.array xs) (.array ys)
  | string (s t) : SameType (.string s) (.string t)
  | date (d e) : SameType (.date d) (.date e)
  | number (d e) : SameType (.number d) (.number e)

theorem typeOrder_ne_or_sameType (a b : IDBKey) : a.typeOrder ≠ b.typeOrder ∨ SameType a b := by
  cases a <;> cases b <;> first | exact .inr (by constructor) | exact .inl (by simp [typeOrder])

end IDBKey

/-- The outcome of a walk over two encodings followed by `r` and `s`: the sign of the result is
`o`, and on a tie the pointers stand at `r` and `s`. -/
structure Walk (result : ℤ × Option (Bytes × Bytes)) (o : Ordering) (r s : Bytes) : Prop where
  ordering : orderingOfInt result.1 = o
  pointers : result.1 = 0 → result.2 = some (r, s)

theorem Walk.of_eq {result : ℤ × Option (Bytes × Bytes)} {c : ℤ} {o : Ordering} {r s : Bytes}
    (h : result = (c, some (r, s))) (ho : orderingOfInt c = o) : Walk result o r s :=
  ⟨by rw [h]; exact ho, fun _ => by rw [h]⟩

/-! ## Strings -/

/-- The bytes of a code unit compare as the code unit. -/
theorem memcmp_unit (u v : UInt16) (p q : Bytes) (n : ℕ) :
    memcmp (UInt8.ofNat (u.toNat >>> 8) :: UInt8.ofNat u.toNat :: p)
      (UInt8.ofNat (v.toNat >>> 8) :: UInt8.ofNat v.toNat :: q) (n + 2) =
      if u.toNat = v.toNat then memcmp p q n else if u.toNat < v.toNat then -1 else 1 := by
  have hu : u.toNat < 65536 := u.toNat_lt
  have hv : v.toNat < 65536 := v.toNat_lt
  have heq : ∀ a b : ℕ, UInt8.ofNat a = UInt8.ofNat b ↔ a % 256 = b % 256 := fun a b => by
    rw [← UInt8.toNat_inj, UInt8.toNat_ofNat', UInt8.toNat_ofNat']
  have hlt : ∀ a b : ℕ, UInt8.ofNat a < UInt8.ofNat b ↔ a % 256 < b % 256 := fun a b => by
    rw [UInt8.lt_iff_toNat_lt, UInt8.toNat_ofNat', UInt8.toNat_ofNat']
  simp only [memcmp, heq, hlt]
  split_ifs <;> first | rfl | omega

/-- The byte comparison of two encoded strings over their common length, followed by the
comparison of the lengths, is the comparison by code units. -/
theorem compareCodeUnits_eq (s t : UString) (r r' : Bytes) : orderingOfInt
      (let x := memcmp (encodeString s ++ r) (encodeString t ++ r') (min s.length t.length * 2)
       if x ≠ 0 then x
       else if s.length = t.length then 0 else if s.length > t.length then 1 else -1) =
      compareCodeUnits s t := by
  induction s generalizing t with
  | nil =>
    cases t with
    | _ => simp [memcmp]; rfl
  | cons u s ih =>
    cases t with
    | nil => simp [memcmp]; rfl
    | cons v t =>
      have hmin : min (u :: s).length (v :: t).length * 2 = min s.length t.length * 2 + 2 := by
        simp only [length_cons]
        omega
      have hcons : compareCodeUnits (u :: s) (v :: t) =
          (compare u.toNat v.toNat).then (compareCodeUnits s t) := by
        rw [compareCodeUnits, List.compareLex_cons_cons]
        rfl
      rw [hmin, encodeString_cons, encodeString_cons, cons_append, cons_append,
        cons_append, cons_append, memcmp_unit, hcons]
      rcases lt_trichotomy u.toNat v.toNat with h | h | h
      · simp [h, h.ne, compare_lt_iff_lt.mpr h]
      · rw [if_pos h, compare_eq_iff_eq.mpr h, ← ih t]
        simp
      · simp [h.ne', h.not_gt, compare_gt_iff_gt.mpr h]

theorem compareEncodedStringsWithLength_encode {s t : UString} (hs : s.length < 2 ^ 32)
    (ht : t.length < 2 ^ 32) (r r' : Bytes) :
    Walk (compareEncodedStringsWithLength (encodeStringWithLength s ++ r)
      (encodeStringWithLength t ++ r')) (compareCodeUnits s t) r r' := by
  refine Walk.of_eq ?_ (compareCodeUnits_eq s t r r')
  have hmin : (if (s.length : ℤ) < t.length then (s.length : ℤ) else t.length).toNat =
      min s.length t.length := by
    split_ifs <;> omega
  rw [compareEncodedStringsWithLength, encodeStringWithLength, encodeStringWithLength,
    append_assoc, append_assoc, decodeVarInt_encodeVarInt (by omega),
    decodeVarInt_encodeVarInt (by omega)]
  simp only [Int.toNat_natCast, ← length_encodeString s, ← length_encodeString t, drop_left]
  rw [if_neg (by simp only [length_append]; omega)]
  simp only [hmin]
  simp only [Nat.cast_inj, Nat.cast_lt]
  split_ifs <;> rfl

/-! ## Arrays -/

/-- The array case of the walk: the common elements, then the lengths. -/
def compareArrays (cmp : Bytes → Bytes → ℤ × Option (Bytes × Bytes)) (lengthA lengthB : ℤ)
    (p q : Bytes) : ℤ × Option (Bytes × Bytes) :=
  match compareMany cmp (min lengthA lengthB).toNat p q with
  | (0, some (p, q)) =>
    (if lengthA < lengthB then -1 else if lengthA > lengthB then 1 else 0, some (p, q))
  | r => r

variable {m n : ℕ} {a b : IDBKey}

variable (cmp : Bytes → Bytes → ℤ × Option (Bytes × Bytes))

/-- Once an array is exhausted the lengths decide. -/
theorem compareArrays_of_min_eq_zero (h : min m n = 0) (p q : Bytes) : compareArrays cmp m n p q =
      (if (m : ℤ) < n then -1 else if (m : ℤ) > n then 1 else 0, some (p, q)) := by
  have hmin : (min (m : ℤ) (n : ℤ)).toNat = 0 := by omega
  rw [compareArrays, hmin]
  rfl

theorem compareArrays_of_ne {cmp : Bytes → Bytes → ℤ × Option (Bytes × Bytes)} {p q : Bytes}
    (h : (cmp p q).1 ≠ 0) : compareArrays cmp (m + 1 : ℕ) (n + 1 : ℕ) p q = cmp p q := by
  have hmin : (min ((m + 1 : ℕ) : ℤ) ((n + 1 : ℕ) : ℤ)).toNat = min m n + 1 := by omega
  have hmany : compareMany cmp (min m n + 1) p q = cmp p q := by
    rw [compareMany]
    split
    · next heq => rw [heq] at h; exact absurd rfl h
    · rfl
  rw [compareArrays, hmin, hmany]
  split
  · next heq => rw [heq] at h; exact absurd rfl h
  · rfl

theorem compareArrays_of_eq {cmp : Bytes → Bytes → ℤ × Option (Bytes × Bytes)} {p q p' q' : Bytes}
    (h : cmp p q = (0, some (p', q'))) :
    compareArrays cmp (m + 1 : ℕ) (n + 1 : ℕ) p q = compareArrays cmp m n p' q' := by
  have hmin : (min ((m + 1 : ℕ) : ℤ) ((n + 1 : ℕ) : ℤ)).toNat = min m n + 1 := by omega
  have hmin' : (min (m : ℤ) (n : ℤ)).toNat = min m n := by omega
  rw [compareArrays, compareArrays, hmin, hmin', compareMany, h]
  simp only [Nat.cast_lt, Nat.succ_lt_succ_iff]

theorem compareArrays_encodeIDBKeys (xs ys : List IDBKey)
    (h : ∀ x ∈ xs, ∀ y ∈ ys, ∀ r s,
      Walk (cmp (encodeIDBKey x ++ r) (encodeIDBKey y ++ s)) (x.referenceCompare y) r s)
    (r s : Bytes) :
    Walk (compareArrays cmp xs.length ys.length (encodeIDBKeys xs ++ r) (encodeIDBKeys ys ++ s))
      (IDBKey.referenceCompareMany xs ys) r s := by
  induction xs generalizing ys with
  | nil =>
    cases ys with
    | nil => exact Walk.of_eq (c := 0) rfl rfl
    | cons y ys =>
      have hlt : (([] : List IDBKey).length : ℤ) < (y :: ys).length := by simp
      rw [compareArrays_of_min_eq_zero cmp (by simp), if_pos hlt]
      exact ⟨rfl, fun h0 => absurd h0 (by simp)⟩
  | cons x xs ih =>
    cases ys with
    | nil =>
      have hgt : ((x :: xs).length : ℤ) > ([] : List IDBKey).length := by simp
      rw [compareArrays_of_min_eq_zero cmp (by simp), if_neg (by omega), if_pos hgt]
      exact ⟨rfl, fun h0 => absurd h0 (by simp)⟩
    | cons y ys =>
      have hxy := h x (mem_cons_self ..) y (mem_cons_self ..)
        (encodeIDBKeys xs ++ r) (encodeIDBKeys ys ++ s)
      rw [length_cons, length_cons, encodeIDBKeys, encodeIDBKeys, append_assoc,
        append_assoc, IDBKey.referenceCompareMany, ← hxy.ordering]
      by_cases hc : (cmp (encodeIDBKey x ++ (encodeIDBKeys xs ++ r))
          (encodeIDBKey y ++ (encodeIDBKeys ys ++ s))).1 = 0
      · -- the elements tie, so the walk stands at the next pair
        rw [hc, compareArrays_of_eq (Prod.ext hc (hxy.pointers hc))]
        exact ih ys fun x' hx' y' hy' => h x' (mem_cons_of_mem _ hx') y'
          (mem_cons_of_mem _ hy')
      · rw [compareArrays_of_ne hc]
        refine ⟨?_, fun h0 => absurd h0 hc⟩
        rcases lt_or_gt_of_ne hc with hlt | hgt
        · rw [orderingOfInt_eq_lt.mpr hlt]
          rfl
        · rw [orderingOfInt_eq_gt.mpr hgt]
          rfl

/-! ## Keys -/

theorem orderingOfInt_double {d e : Double} (hd : d.isNaN = false) (he : e.isNaN = false) :
    orderingOfInt (if d.lt e then -1 else if e.lt d then 1 else 0) = compare d.value e.value := by
  simp only [Double.lt, hd, he, Bool.not_false, Bool.true_and, decide_eq_true_eq]
  rcases lt_trichotomy d.value e.value with h | h | h
  · rw [if_pos h, compare_lt_iff_lt.mpr h, orderingOfInt_neg_one]
  · rw [if_neg h.not_lt, if_neg h.not_gt, compare_eq_iff_eq.mpr h, orderingOfInt_zero]
  · rw [if_neg h.not_gt, if_pos h, compare_gt_iff_gt.mpr h, orderingOfInt_one]

/-- The type byte of an encoding. -/
def IDBKey.typeByte : IDBKey → UInt8
  | .invalid => kIDBKeyNullTypeByte
  | .array _ => kIDBKeyArrayTypeByte
  | .string _ => kIDBKeyStringTypeByte
  | .date _ => kIDBKeyDateTypeByte
  | .number _ => kIDBKeyNumberTypeByte

theorem encodeIDBKey_eq_cons (k : IDBKey) :
    encodeIDBKey k = k.typeByte :: (encodeIDBKey k).tail := by
  cases k <;> simp [encodeIDBKey, encodeByte, IDBKey.typeByte]

/-- Different types decide, by the value of the enumerators. -/
theorem compareTypes_typeByte (h : a.typeOrder ≠ b.typeOrder) :
    orderingOfInt (compareTypes (keyTypeByteToKeyType a.typeByte)
      (keyTypeByteToKeyType b.typeByte)) = a.referenceCompare b ∧
    compareTypes (keyTypeByteToKeyType a.typeByte) (keyTypeByteToKeyType b.typeByte) ≠ 0 := by
  have hord : orderingOfInt (compareTypes (keyTypeByteToKeyType a.typeByte)
      (keyTypeByteToKeyType b.typeByte)) = compare a.typeOrder b.typeOrder := by
    cases a <;> cases b <;> rfl
  refine ⟨by rw [IDBKey.referenceCompare_of_ne h, hord], fun h0 => h ?_⟩
  rw [h0] at hord
  exact compare_eq_iff_eq.mp hord.symm

theorem compareEncodedIDBKeysLoop_of_ne (h : a.typeOrder ≠ b.typeOrder) (depth : ℕ) (r s : Bytes) :
    Walk (compareEncodedIDBKeysLoop (depth + 1) (encodeIDBKey a ++ r) (encodeIDBKey b ++ s))
      (a.referenceCompare b) r s := by
  obtain ⟨hord, hne⟩ := compareTypes_typeByte h
  rw [encodeIDBKey_eq_cons a, encodeIDBKey_eq_cons b, cons_append, cons_append,
    compareEncodedIDBKeysLoop]
  rw [if_pos hne]
  exact ⟨hord, fun h0 => absurd h0 hne⟩

/-- A bound for the nesting of two encodings is positive. -/
theorem exists_depth {depth : ℕ} (h : min (encodeIDBKey a).length (encodeIDBKey b).length ≤ depth) :
    ∃ d, depth = d + 1 := by
  have h1 := length_pos_of_ne_nil (encodeIDBKey_ne_nil a)
  have h2 := length_pos_of_ne_nil (encodeIDBKey_ne_nil b)
  exact ⟨depth - 1, by omega⟩

theorem compareEncodedIDBKeysLoop_encodeIDBKey :
    ∀ {b : IDBKey}, a.Valid → b.Valid → a.NoNaN → b.NoNaN → ∀ {depth : ℕ},
      min (encodeIDBKey a).length (encodeIDBKey b).length ≤ depth → ∀ r s : Bytes,
        Walk (compareEncodedIDBKeysLoop depth (encodeIDBKey a ++ r) (encodeIDBKey b ++ s))
          (a.referenceCompare b) r s := by
  induction a using IDBKey.induction with
  | invalid => exact fun ha => absurd ha IDBKey.not_valid_invalid
  | array xs ih => ?_
  | string u => ?_
  | date d | number d => ?_
  all_goals
    intro b ha hb hna hnb depth hdepth r s
    obtain ⟨depth, rfl⟩ := exists_depth hdepth
    rcases IDBKey.typeOrder_ne_or_sameType _ b with hty | hty
    · exact compareEncodedIDBKeysLoop_of_ne hty depth r s
    cases hty
    simp only [encodeIDBKey, encodeByte, append_assoc, cons_append, nil_append,
      compareEncodedIDBKeysLoop]
    rw [if_neg (by decide), if_neg (by decide)]
  · rename_i ys
    obtain ⟨hlx, hx⟩ := IDBKey.valid_array.mp ha
    obtain ⟨hly, hy⟩ := IDBKey.valid_array.mp hb
    have hnx := IDBKey.noNaN_array.mp hna
    have hny := IDBKey.noNaN_array.mp hnb
    have hwalk := compareArrays_encodeIDBKeys (compareEncodedIDBKeysLoop depth) xs ys
      (fun x hmx y hmy r s => by
        have h1 := length_encodeIDBKeys_of_mem hmx
        have h2 := length_encodeIDBKeys_of_mem hmy
        simp only [encodeIDBKey, encodeByte, length_append, length_singleton] at hdepth
        exact ih x hmx (hx x hmx) (hy y hmy) (hnx x hmx) (hny y hmy) (by omega) r s) r s
    rw [decodeVarInt_encodeVarInt hlx, decodeVarInt_encodeVarInt hly]
    exact hwalk
  · rw [if_neg (by decide), if_pos trivial]
    exact compareEncodedStringsWithLength_encode ha hb r s
  all_goals
    rw [decodeDouble_encodeDouble, decodeDouble_encodeDouble]
    exact Walk.of_eq rfl (orderingOfInt_double hna hnb)

theorem compareEncodedIDBKeysPtr_encodeIDBKey (ha : a.Valid) (hb : b.Valid) (hna : a.NoNaN)
    (hnb : b.NoNaN) (r s : Bytes) :
    Walk (compareEncodedIDBKeysPtr (encodeIDBKey a ++ r) (encodeIDBKey b ++ s))
      (a.referenceCompare b) r s :=
  compareEncodedIDBKeysLoop_encodeIDBKey ha hb hna hnb
    (by rw [length_append, length_append]; omega) r s

/-! ## The sentinels

A key range starts or ends at `minIDBKey()` or `maxIDBKey()`, one type byte without payload. -/

/-- What stands where an encoded key is expected. -/
inductive UserKey where
  | min
  | key (k : IDBKey)
  | max

namespace UserKey

def encode : UserKey → Bytes
  | .min => minIDBKey
  | .key k => encodeIDBKey k
  | .max => maxIDBKey

def Decodable : UserKey → Prop
  | .key k => k.Decodable
  | _ => True

def Valid : UserKey → Prop
  | .key k => k.Valid
  | _ => True

def NoNaN : UserKey → Prop
  | .key k => k.NoNaN
  | _ => True

/-- The keys by their order, the sentinels around them. -/
def referenceCompare : UserKey → UserKey → Ordering
  | .key a, .key b => a.referenceCompare b
  | .min, .min => .eq
  | .min, _ => .lt
  | _, .min => .gt
  | .max, .max => .eq
  | .max, _ => .gt
  | _, .max => .lt

def typeByte : UserKey → UInt8
  | .min => kIDBKeyMinKeyTypeByte
  | .key k => k.typeByte
  | .max => kIDBKeyNullTypeByte

theorem encode_eq_cons (k : UserKey) : k.encode = k.typeByte :: k.encode.tail := by
  cases k with
  | min => rfl
  | key k => exact encodeIDBKey_eq_cons k
  | max => rfl

theorem encode_ne_nil (k : UserKey) : k.encode ≠ [] := by
  rw [encode_eq_cons]
  exact cons_ne_nil _ _

theorem extractEncodedIDBKey_encode {k : UserKey} (hk : k.Valid) (r : Bytes) :
    extractEncodedIDBKey (k.encode ++ r) = some (k.encode, r) := by
  cases k with
  | min => rfl
  | key k => exact extractEncodedIDBKey_encodeIDBKey hk r
  | max => rfl

/-- The type bytes put the sentinels around every key. -/
theorem orderingOfInt_compareTypes {a b : UserKey} (ha : a.Valid) (hb : b.Valid)
    (h : ∀ k k', ¬ (a = .key k ∧ b = .key k')) :
    orderingOfInt (compareTypes (keyTypeByteToKeyType a.typeByte)
      (keyTypeByteToKeyType b.typeByte)) = a.referenceCompare b := by
  rcases a with _ | k | _ <;> rcases b with _ | k' | _
  · rfl
  · cases k' <;> rfl
  · rfl
  · cases k <;> rfl
  · exact absurd ⟨rfl, rfl⟩ (h k k')
  · cases k <;> first | rfl | exact absurd ha IDBKey.not_valid_invalid
  · rfl
  · cases k' <;> first | rfl | exact absurd hb IDBKey.not_valid_invalid
  · rfl

end UserKey

/-- The walk over two encodings, sentinels included. -/
theorem compareEncodedIDBKeysPtr_encode {a b : UserKey} (ha : a.Valid) (hb : b.Valid)
    (hna : a.NoNaN) (hnb : b.NoNaN) (r s : Bytes) :
    Walk (compareEncodedIDBKeysPtr (a.encode ++ r) (b.encode ++ s)) (a.referenceCompare b) r s := by
  by_cases hkeys : ∃ k k', a = .key k ∧ b = .key k'
  · obtain ⟨k, k', rfl, rfl⟩ := hkeys
    exact compareEncodedIDBKeysPtr_encodeIDBKey ha hb hna hnb r s
  · have hord := UserKey.orderingOfInt_compareTypes ha hb fun k k' h => hkeys ⟨k, k', h⟩
    have hmin : min (a.encode ++ r).length (b.encode ++ s).length =
        min (a.encode.tail ++ r).length (b.encode.tail ++ s).length + 1 := by
      rw [UserKey.encode_eq_cons a, UserKey.encode_eq_cons b]
      simp only [cons_append, length_cons, tail_cons]
      omega
    rw [compareEncodedIDBKeysPtr, hmin]
    by_cases h0 : compareTypes (keyTypeByteToKeyType a.typeByte)
        (keyTypeByteToKeyType b.typeByte) = 0
    · -- only equal sentinels tie, and they have no payload
      rw [h0] at hord
      cases a with
      | min =>
        cases b with
        | min => exact Walk.of_eq (c := 0) rfl rfl
        | _ => cases hord
      | key k =>
        cases b with
        | key k' => exact absurd ⟨k, k', rfl, rfl⟩ hkeys
        | _ => cases hord
      | max =>
        cases b with
        | max => exact Walk.of_eq (c := 0) rfl rfl
        | _ => cases hord
    · rw [UserKey.encode_eq_cons a, UserKey.encode_eq_cons b, cons_append, cons_append,
        compareEncodedIDBKeysLoop]
      rw [if_pos h0]
      exact ⟨hord, fun h => absurd h h0⟩

theorem orderingOfInt_compareEncodedIDBKeys {a b : UserKey} (ha : a.Valid) (hb : b.Valid)
    (hna : a.NoNaN) (hnb : b.NoNaN) :
    orderingOfInt (compareEncodedIDBKeys a.encode b.encode) = a.referenceCompare b := by
  have h := (compareEncodedIDBKeysPtr_encode ha hb hna hnb [] []).ordering
  rwa [append_nil, append_nil] at h

/-- **Encoded keys compare as the keys do.**  The sign is the reference order, `minIDBKey()` lies
strictly below and `maxIDBKey()` strictly above every key, and a tie leaves both pointers exactly
behind the two encodings, whatever bytes follow. -/
theorem compareEncodedIDBKeys_reference (a b : IDBKey) (ha : a.Valid) (hb : b.Valid)
    (hna : a.NoNaN) (hnb : b.NoNaN) :
    orderingOfInt (compareEncodedIDBKeys (encodeIDBKey a) (encodeIDBKey b)) = a.referenceCompare b ∧
      compareEncodedIDBKeys minIDBKey (encodeIDBKey a) < 0 ∧
      0 < compareEncodedIDBKeys (encodeIDBKey a) minIDBKey ∧
      compareEncodedIDBKeys (encodeIDBKey a) maxIDBKey < 0 ∧
      0 < compareEncodedIDBKeys maxIDBKey (encodeIDBKey a) ∧
      ∀ r s : Bytes,
        orderingOfInt (compareEncodedIDBKeysPtr (encodeIDBKey a ++ r) (encodeIDBKey b ++ s)).1 =
            a.referenceCompare b ∧
          ((compareEncodedIDBKeysPtr (encodeIDBKey a ++ r) (encodeIDBKey b ++ s)).1 = 0 →
            (compareEncodedIDBKeysPtr (encodeIDBKey a ++ r) (encodeIDBKey b ++ s)).2 =
              some (r, s)) := by
  have hmin := @orderingOfInt_compareEncodedIDBKeys .min (.key a) trivial ha trivial hna
  have hmin' := @orderingOfInt_compareEncodedIDBKeys (.key a) .min ha trivial hna trivial
  have hmax := @orderingOfInt_compareEncodedIDBKeys (.key a) .max ha trivial hna trivial
  have hmax' := @orderingOfInt_compareEncodedIDBKeys .max (.key a) trivial ha trivial hna
  refine ⟨@orderingOfInt_compareEncodedIDBKeys (.key a) (.key b) ha hb hna hnb,
    orderingOfInt_eq_lt.mp hmin, orderingOfInt_eq_gt.mp hmin', orderingOfInt_eq_lt.mp hmax,
    orderingOfInt_eq_gt.mp hmax', fun r s => ?_⟩
  have hwalk := compareEncodedIDBKeysPtr_encodeIDBKey ha hb hna hnb r s
  exact ⟨hwalk.ordering, hwalk.pointers⟩

/-- The array `[1.0, "a"]` is below `[1.0, "ab"]`. -/
theorem compareEncodedIDBKeys_reference_arrays : compareEncodedIDBKeys
        (encodeIDBKey (.array [.number ⟨0x3ff0000000000000⟩, .string [97]]))
        (encodeIDBKey (.array [.number ⟨0x3ff0000000000000⟩, .string [97, 98]])) < 0 := by
  have h := compareEncodedIDBKeys_reference
    (.array [.number ⟨0x3ff0000000000000⟩, .string [97]])
    (.array [.number ⟨0x3ff0000000000000⟩, .string [97, 98]])
    (by simp [IDBKey.Valid, IDBKey.All, IDBKey.AllMem, IDBKey.ValidNode])
    (by simp [IDBKey.Valid, IDBKey.All, IDBKey.AllMem, IDBKey.ValidNode])
    (by simp only [IDBKey.NoNaN, IDBKey.All, IDBKey.AllMem, IDBKey.NumberNode]; decide)
    (by simp only [IDBKey.NoNaN, IDBKey.All, IDBKey.AllMem, IDBKey.NumberNode]; decide)
  exact orderingOfInt_eq_lt.mp (h.1.trans (by decide +kernel))

/-! ## Keys as words -/

namespace IDBKey

mutual

/-- A word whose lexicographic order is the order of the keys: a letter for the type, then the
value, the code units or the elements; a string and an array end with the least letter. -/
def rank : IDBKey → List ℤ
  | .number d => [1, d.value]
  | .date d => [2, d.value]
  | .string s => 3 :: (s.map (fun u => (u.toNat : ℤ) + 1) ++ [0])
  | .array keys => 4 :: rankMany keys
  | .invalid => [5]

def rankMany : List IDBKey → List ℤ
  | [] => [0]
  | k :: keys => rank k ++ rankMany keys

end

theorem rank_eq_cons (k : IDBKey) : k.rank = (k.typeOrder + 1 : ℤ) :: k.rank.tail := by
  cases k <;> rfl

theorem lexOf_codeUnits (s t : UString) :
    LexOf (compareCodeUnits s t) (s.map (fun u => (u.toNat : ℤ) + 1) ++ [0])
      (t.map (fun u => (u.toNat : ℤ) + 1) ++ [0]) := by
  induction s generalizing t with
  | nil =>
    cases t with
    | nil => exact nil.cons_self
    | cons v t => exact of_lt (show (0 : ℤ) < v.toNat + 1 by omega)
  | cons u s ih =>
    cases t with
    | nil => exact of_gt (show (0 : ℤ) < u.toNat + 1 by omega)
    | cons v t =>
      have hcons : compareCodeUnits (u :: s) (v :: t) =
          (compare ((u.toNat : ℤ) + 1) ((v.toNat : ℤ) + 1)).then (compareCodeUnits s t) := by
        rw [compareCodeUnits, List.compareLex_cons_cons]
        rcases lt_trichotomy u.toNat v.toNat with h | h | h
        · rw [compare_lt_iff_lt.mpr h, compare_lt_iff_lt.mpr (by omega)]
          rfl
        · rw [compare_eq_iff_eq.mpr h, compare_eq_iff_eq.mpr (by omega)]
          rfl
        · rw [compare_gt_iff_gt.mpr h, compare_gt_iff_gt.mpr (by omega)]
          rfl
      rw [hcons]
      exact (ih t).cons

theorem lexOf_of_typeOrder_ne (h : a.typeOrder ≠ b.typeOrder) :
    LexOf (a.referenceCompare b) a.rank b.rank := by
  have hcmp : compare a.typeOrder b.typeOrder =
      compare ((a.typeOrder : ℤ) + 1) ((b.typeOrder : ℤ) + 1) := by
    rcases lt_or_gt_of_ne h with h' | h'
    · rw [compare_lt_iff_lt.mpr h', compare_lt_iff_lt.mpr (by omega)]
    · rw [compare_gt_iff_gt.mpr h', compare_gt_iff_gt.mpr (by omega)]
  rw [referenceCompare_of_ne h, rank_eq_cons a, rank_eq_cons b, hcmp]
  exact of_ne (by omega)

theorem lexOf_rankMany
    (h : ∀ x ∈ xs, ∀ y, LexOf (x.referenceCompare y) x.rank y.rank) (ys : List IDBKey) :
    LexOf (referenceCompareMany xs ys) (rankMany xs) (rankMany ys) := by
  induction xs generalizing ys with
  | nil =>
    cases ys with
    | nil => exact nil.cons_self
    | cons y ys =>
      rw [rankMany, rankMany, rank_eq_cons y]
      exact of_lt (show (0 : ℤ) < y.typeOrder + 1 by omega)
  | cons x xs ih =>
    cases ys with
    | nil =>
      rw [rankMany, rankMany, rank_eq_cons x]
      exact of_gt (show (0 : ℤ) < x.typeOrder + 1 by omega)
    | cons y ys =>
      exact (h x (mem_cons_self ..) y).append
        (ih (fun x' hx' => h x' (mem_cons_of_mem _ hx')) ys)

/-- The reference order is the lexicographic order of the words. -/
theorem lexOf_rank (a : IDBKey) : ∀ b : IDBKey, LexOf (a.referenceCompare b) a.rank b.rank := by
  induction a using IDBKey.induction with
  | invalid | array xs ih | string s | date d | number d => ?_
  all_goals
    intro b
    rcases typeOrder_ne_or_sameType _ b with hty | hty
    · exact lexOf_of_typeOrder_ne hty
    cases hty
  · exact nil.cons_self
  · exact (lexOf_rankMany ih _).cons_self
  · exact (lexOf_codeUnits s _).cons_self
  all_goals exact (singleton _ _).cons_self

@[simp] theorem referenceCompare_self (k : IDBKey) : k.referenceCompare k = .eq :=
  (k.lexOf_rank k).eq_iff.mp rfl

end IDBKey

namespace UserKey

open List LexOf

/-- The word of a key, and words below and above those of all keys. -/
def rank : UserKey → List ℤ
  | .min => [0]
  | .key k => k.rank
  | .max => [6]

theorem rank_key_eq_cons (k : IDBKey) :
    ∃ a : ℤ, 0 < a ∧ a < 6 ∧ (UserKey.key k).rank = a :: k.rank.tail :=
  ⟨k.typeOrder + 1, by omega, by cases k <;> simp [IDBKey.typeOrder], k.rank_eq_cons⟩

theorem lexOf_rank (a b : UserKey) : LexOf (a.referenceCompare b) a.rank b.rank := by
  cases a with
  | min =>
    cases b with
    | min => exact nil.cons_self
    | key k =>
      obtain ⟨a, ha, -, hk⟩ := rank_key_eq_cons k
      rw [hk]
      exact of_lt ha
    | max => exact of_lt (by omega)
  | key k =>
    obtain ⟨a, ha, ha', hk⟩ := rank_key_eq_cons k
    cases b with
    | min =>
      rw [hk]
      exact of_gt ha
    | key k' => exact k.lexOf_rank k'
    | max =>
      rw [hk]
      exact of_lt ha'
  | max =>
    cases b with
    | min => exact of_gt (by omega)
    | key k =>
      obtain ⟨a, -, ha, hk⟩ := rank_key_eq_cons k
      rw [hk]
      exact of_gt ha
    | max => exact nil.cons_self

end UserKey

end IndexedDB
end WebKit
