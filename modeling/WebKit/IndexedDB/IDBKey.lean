import WebKit.IndexedDB.Coding

/-!
# Encoded IndexedDB keys

An `IDBKey` is a string, a date, a number or an array of keys.  Its encoding starts with a type
byte and delimits itself: an array writes its length and then its elements, a string its length
and then its code units, a double eight bytes.  Two recursive parsers walk the encoding,
`decodeIDBKey` building the key back and `extractEncodedIDBKey` copying its bytes; both stop
exactly where the encoding ends, whatever follows it, so no encoding is a proper prefix of another.

The parsers recurse into arrays.  The first argument of `decodeIDBKeyLoop` and of
`extractEncodedIDBKeyLoop` bounds the nesting; every level consumes a type byte, so the length of
the input is bound enough.
-/

namespace WebKit

open List
namespace IndexedDB

/-- The keys `IDBKey::createInvalid`, `createArray`, `createString`, `createDate` and
`createNumber` make. -/
inductive IDBKey where
  | invalid
  | array (keys : List IDBKey)
  | string (s : UString)
  | date (d : Double)
  | number (d : Double)

namespace IDBKey

/-- Induction over a key and the elements of its arrays. -/
theorem induction {P : IDBKey → Prop} (invalid : P .invalid)
    (array : ∀ keys, (∀ k ∈ keys, P k) → P (.array keys)) (string : ∀ s, P (.string s))
    (date : ∀ d, P (.date d)) (number : ∀ d, P (.number d)) (k : IDBKey) : P k :=
  @IDBKey.rec P (fun keys => ∀ k ∈ keys, P k) invalid array string date
    number (by simp) (fun _ _ hk hks => forall_mem_cons.mpr ⟨hk, hks⟩) k

mutual

/-- `p` holds of a key and of every key inside it. -/
def All (p : IDBKey → Prop) : IDBKey → Prop
  | .array keys => p (.array keys) ∧ AllMem p keys
  | .invalid => p .invalid
  | .string s => p (.string s)
  | .date d => p (.date d)
  | .number d => p (.number d)

def AllMem (p : IDBKey → Prop) : List IDBKey → Prop
  | [] => True
  | k :: keys => All p k ∧ AllMem p keys

end

variable {keys : List IDBKey}

theorem allMem_iff : AllMem p keys ↔ ∀ k ∈ keys, All p k := by
  induction keys with
  | nil => simp [AllMem]
  | cons k keys ih => rw [AllMem, ih, forall_mem_cons]

/-- What a key checks at its own node: it is not the invalid key, and its length fits the
`unsigned` of a string or the `int64_t` of an array. -/
def ValidNode : IDBKey → Prop
  | .invalid => False
  | .array keys => keys.length < 2 ^ 63
  | .string s => s.length < 2 ^ 32
  | .date _ => True
  | .number _ => True

def NumberNode : IDBKey → Prop
  | .date d => d.isNaN = false
  | .number d => d.isNaN = false
  | _ => True

/-- Built from strings, dates, numbers and nested arrays. -/
def Valid : IDBKey → Prop := All ValidNode

def DecodableNode : IDBKey → Prop
  | .string s => s.length ≤ 2 ^ 30
  | _ => True

/-- The strings of the key are such as `decodeString` gets through. -/
def Decodable : IDBKey → Prop := All DecodableNode

/-- No date and no number of the key is a NaN. -/
def NoNaN : IDBKey → Prop := All NumberNode

@[simp] theorem not_valid_invalid : ¬ Valid .invalid := fun h => h

theorem valid_array : Valid (.array keys) ↔ keys.length < 2 ^ 63 ∧ ∀ k ∈ keys, Valid k :=
  and_congr_right' allMem_iff

theorem decodable_array : Decodable (.array keys) ↔ ∀ k ∈ keys, Decodable k := by
  rw [Decodable, All, allMem_iff]
  simp [DecodableNode]

theorem noNaN_array : NoNaN (.array keys) ↔ ∀ k ∈ keys, NoNaN k := by
  rw [NoNaN, All, allMem_iff]
  simp [NumberNode]

end IDBKey

mutual

def encodeIDBKey : IDBKey → Bytes
  | .invalid => encodeByte kIDBKeyNullTypeByte
  | .array keys =>
    encodeByte kIDBKeyArrayTypeByte ++ encodeVarInt keys.length ++ encodeIDBKeys keys
  | .string s => encodeByte kIDBKeyStringTypeByte ++ encodeStringWithLength s
  | .date d => encodeByte kIDBKeyDateTypeByte ++ encodeDouble d
  | .number d => encodeByte kIDBKeyNumberTypeByte ++ encodeDouble d

/-- The elements of an array, one after the other. -/
def encodeIDBKeys : List IDBKey → Bytes
  | [] => []
  | k :: keys => encodeIDBKey k ++ encodeIDBKeys keys

end

theorem encodeIDBKey_ne_nil (k : IDBKey) : encodeIDBKey k ≠ [] := by
  cases k <;> simp [encodeIDBKey, encodeByte]

variable {k : IDBKey}

theorem length_encodeIDBKeys_of_mem {keys : List IDBKey} (h : k ∈ keys) :
    (encodeIDBKey k).length ≤ (encodeIDBKeys keys).length := by
  induction keys with
  | nil => simp at h
  | cons a keys ih =>
    rw [encodeIDBKeys, length_append]
    rcases mem_cons.mp h with rfl | h
    · omega
    · have := ih h
      omega

/-! ## The decoder -/

/-- Read `n` keys with a given reader. -/
def decodeMany (decode : Bytes → Option (IDBKey × Bytes)) : ℕ → Bytes → Option (List IDBKey × Bytes)
  | 0, p => some ([], p)
  | n + 1, p =>
    match decode p with
    | none => none
    | some (key, p) =>
      match decodeMany decode n p with
      | none => none
      | some (array, p) => some (key :: array, p)

def decodeIDBKeyLoop : ℕ → Bytes → Option (IDBKey × Bytes)
  | 0, _ => none
  | _ + 1, [] => none
  | depth + 1, type :: p =>
    if type = kIDBKeyNullTypeByte then some (.invalid, p)
    else if type = kIDBKeyArrayTypeByte then
      match decodeVarInt p with
      | none => none
      | some (length, p) =>
        if length < 0 then none
        else (decodeMany (decodeIDBKeyLoop depth) length.toNat p).map fun r => (.array r.1, r.2)
    else if type = kIDBKeyStringTypeByte then
      (decodeStringWithLength p).map fun r => (.string r.1, r.2)
    else if type = kIDBKeyDateTypeByte then (decodeDouble p).map fun r => (.date r.1, r.2)
    else if type = kIDBKeyNumberTypeByte then (decodeDouble p).map fun r => (.number r.1, r.2)
    else none

/-- The key and the pointer past it; `none` is the null pointer, or a CRASH of `decodeString`. -/
def decodeIDBKey (p : Bytes) : Option (IDBKey × Bytes) := decodeIDBKeyLoop p.length p

open Classical in
theorem decodeMany_encodeIDBKeys (decode : Bytes → Option (IDBKey × Bytes)) (keys : List IDBKey)
    (h : ∀ k ∈ keys, ∀ r, decode (encodeIDBKey k ++ r) = if k.Decodable then some (k, r) else none)
    (r : Bytes) : decodeMany decode keys.length (encodeIDBKeys keys ++ r) =
      if ∀ k ∈ keys, k.Decodable then some (keys, r) else none := by
  induction keys with
  | nil => exact (if_pos (forall_mem_nil _)).symm
  | cons k keys ih =>
    rw [length_cons, decodeMany, encodeIDBKeys, append_assoc, h k (mem_cons_self ..)]
    by_cases hk : k.Decodable
    · rw [if_pos hk]
      simp only [ih fun k' hk' => h k' (mem_cons_of_mem _ hk'), forall_mem_cons, hk, true_and]
      by_cases hall : ∀ k ∈ keys, k.Decodable
      · rw [if_pos hall, if_pos hall]
      · rw [if_neg hall, if_neg hall]
    · rw [if_neg hk, if_neg fun hall => hk (hall k mem_cons_self)]

open Classical in
/-- A key is read back, unless a string in it is too long. -/
theorem decodeIDBKeyLoop_encodeIDBKey (hk : k.Valid) :
    ∀ {depth : ℕ}, (encodeIDBKey k).length ≤ depth → ∀ r : Bytes,
      decodeIDBKeyLoop depth (encodeIDBKey k ++ r) =
        if k.Decodable then some (k, r) else none := by
  induction k using IDBKey.induction with
  | invalid => exact absurd hk IDBKey.not_valid_invalid
  | array keys ih => ?_
  | string s => ?_
  | date d => ?_
  | number d => ?_
  all_goals
    intro depth hdepth r
    simp only [encodeIDBKey, encodeByte, length_append, length_singleton] at hdepth ⊢
    obtain ⟨depth, rfl⟩ : ∃ d, depth = d + 1 := ⟨depth - 1, by omega⟩
    simp only [cons_append, nil_append, append_assoc, decodeIDBKeyLoop]
  · obtain ⟨hlen, hkeys⟩ := IDBKey.valid_array.mp hk
    -- every element is read with one level of nesting less
    have hmany := decodeMany_encodeIDBKeys (decodeIDBKeyLoop depth) keys (fun k hmem r => by
      have := length_encodeIDBKeys_of_mem hmem
      exact ih k hmem (hkeys k hmem) (show (encodeIDBKey k).length ≤ depth by omega) r) r
    rw [decodeVarInt_encodeVarInt hlen]
    simp only [Int.toNat_natCast, hmany, IDBKey.decodable_array]
    by_cases hall : ∀ k ∈ keys, k.Decodable
    · rw [if_pos hall, if_pos hall]
      rfl
    · rw [if_neg hall, if_neg hall]
      rfl
  · rw [decodeStringWithLength_encodeStringWithLength hk]
    by_cases hshort : s.length ≤ 2 ^ 30
    · rw [if_pos hshort, if_pos (show IDBKey.Decodable (.string s) from hshort)]
      rfl
    · rw [if_neg hshort, if_neg (show ¬IDBKey.Decodable (.string s) from hshort)]
      rfl
  · rw [decodeDouble_encodeDouble, if_pos (show IDBKey.Decodable (.date d) from trivial)]
    rfl
  · rw [decodeDouble_encodeDouble, if_pos (show IDBKey.Decodable (.number d) from trivial)]
    rfl

/-- The decoder returns the key and stops where its encoding ends. -/
theorem decodeIDBKey_encodeIDBKey (hk : k.Valid) (hshort : k.Decodable) (r : Bytes) :
    decodeIDBKey (encodeIDBKey k ++ r) = some (k, r) :=
  (decodeIDBKeyLoop_encodeIDBKey hk (by rw [length_append]; omega) r).trans (if_pos hshort)

theorem decodable_of_decodeIDBKey (hk : k.Valid)
    (h : decodeIDBKey (encodeIDBKey k ++ r) = some (k, r)) : k.Decodable := by
  by_contra hlong
  rw [decodeIDBKey, decodeIDBKeyLoop_encodeIDBKey hk (by rw [length_append]; omega),
    if_neg hlong] at h
  cases h

/-! ## The extractor -/

/-- Copy `n` keys with a given extractor. -/
def extractMany (extract : Bytes → Option (Bytes × Bytes)) : ℕ → Bytes → Option (Bytes × Bytes)
  | 0, p => some ([], p)
  | n + 1, p =>
    match extract p with
    | none => none
    | some (subkey, p) =>
      match extractMany extract n p with
      | none => none
      | some (result, p) => some (subkey ++ result, p)

def extractEncodedIDBKeyLoop : ℕ → Bytes → Option (Bytes × Bytes)
  | 0, _ => none
  | _ + 1, [] => none
  | depth + 1, type :: p =>
    let start := type :: p
    if type = kIDBKeyNullTypeByte ∨ type = kIDBKeyMinKeyTypeByte then some (encodeByte type, p)
    else if type = kIDBKeyArrayTypeByte then
      match decodeVarInt p with
      | none => none
      | some (length, p) =>
        if length < 0 then none
        else (extractMany (extractEncodedIDBKeyLoop depth) length.toNat p).map fun r =>
          (start.take (start.length - p.length) ++ r.1, r.2)
    else if type = kIDBKeyStringTypeByte then
      match decodeVarInt p with
      | none => none
      | some (length, p) =>
        if length < 0 ∨ (p.length : ℤ) < 2 * length then none
        else some (start.take (start.length - p.length + 2 * length.toNat),
          p.drop (2 * length.toNat))
    else if type = kIDBKeyDateTypeByte ∨ type = kIDBKeyNumberTypeByte then
      if p.length < 8 then none else some (start.take (1 + 8), p.drop 8)
    else none

/-- The bytes of the key and the pointer past them; `none` is the null pointer. -/
def extractEncodedIDBKey (start : Bytes) : Option (Bytes × Bytes) :=
  extractEncodedIDBKeyLoop start.length start

theorem extractMany_encodeIDBKeys (extract : Bytes → Option (Bytes × Bytes)) (keys : List IDBKey)
    (h : ∀ k ∈ keys, ∀ r, extract (encodeIDBKey k ++ r) = some (encodeIDBKey k, r)) (r : Bytes) :
    extractMany extract keys.length (encodeIDBKeys keys ++ r) = some (encodeIDBKeys keys, r) := by
  induction keys with
  | nil => rfl
  | cons k keys ih =>
    rw [length_cons, extractMany, encodeIDBKeys, append_assoc, h k (mem_cons_self ..)]
    simp only [ih fun k' hk' => h k' (mem_cons_of_mem _ hk')]

/-- The bytes consumed so far, by pointer difference. -/
theorem take_length_sub_length (a b : Bytes) : (a ++ b).take ((a ++ b).length - b.length) = a := by
  rw [length_append, Nat.add_sub_cancel, take_left]

theorem extractEncodedIDBKeyLoop_encodeIDBKey (hk : k.Valid) :
    ∀ {depth : ℕ}, (encodeIDBKey k).length ≤ depth → ∀ r : Bytes,
      extractEncodedIDBKeyLoop depth (encodeIDBKey k ++ r) = some (encodeIDBKey k, r) := by
  induction k using IDBKey.induction with
  | invalid => exact absurd hk IDBKey.not_valid_invalid
  | array keys ih => ?_
  | string s => ?_
  | date d | number d => ?_
  all_goals
    intro depth hdepth r
    simp only [encodeIDBKey, encodeByte, length_append, length_singleton] at hdepth ⊢
    obtain ⟨depth, rfl⟩ : ∃ d, depth = d + 1 := ⟨depth - 1, by omega⟩
    simp only [cons_append, nil_append, append_assoc, extractEncodedIDBKeyLoop]
  · obtain ⟨hlen, hkeys⟩ := IDBKey.valid_array.mp hk
    have hmany := extractMany_encodeIDBKeys (extractEncodedIDBKeyLoop depth) keys (fun k hmem r => by
      have := length_encodeIDBKeys_of_mem hmem
      exact ih k hmem (hkeys k hmem) (show (encodeIDBKey k).length ≤ depth by omega) r) r
    have hhead := take_length_sub_length
      (kIDBKeyArrayTypeByte :: encodeVarInt keys.length) (encodeIDBKeys keys ++ r)
    simp only [cons_append] at hhead
    rw [decodeVarInt_encodeVarInt hlen]
    simp only [Int.toNat_natCast, hmany, hhead]
    rfl
  · have hs : s.length < 2 ^ 32 := hk
    have hhead : ∀ q : Bytes,
        (kIDBKeyStringTypeByte :: (encodeVarInt s.length ++ (encodeString s ++ q))).take
          ((kIDBKeyStringTypeByte :: (encodeVarInt s.length ++ (encodeString s ++ q))).length -
            (encodeString s ++ q).length + 2 * s.length) =
          kIDBKeyStringTypeByte :: (encodeVarInt s.length ++ encodeString s) := by
      intro q
      have hn : (kIDBKeyStringTypeByte :: (encodeVarInt s.length ++ (encodeString s ++ q))).length -
          (encodeString s ++ q).length + 2 * s.length =
          (kIDBKeyStringTypeByte :: (encodeVarInt s.length ++ encodeString s)).length := by
        simp only [length_cons, length_append, length_encodeString]
        omega
      have hq : kIDBKeyStringTypeByte :: (encodeVarInt s.length ++ (encodeString s ++ q)) =
          (kIDBKeyStringTypeByte :: (encodeVarInt s.length ++ encodeString s)) ++ q := by
        rw [cons_append, append_assoc]
      rw [hn, hq, take_left]
    rw [if_neg (by decide), if_neg (by decide), if_pos trivial, encodeStringWithLength, append_assoc,
      decodeVarInt_encodeVarInt (by omega)]
    simp only [Int.toNat_natCast, hhead]
    rw [if_neg (by rw [length_append, length_encodeString]; omega),
      ← length_encodeString s, drop_left]
  all_goals
    have hlen : (encodeDouble d).length = 8 := length_encodeDouble d
    rw [if_neg (by decide), if_neg (by decide), if_neg (by decide), if_pos (by decide),
      if_neg (by rw [length_append]; omega), Nat.add_comm 1 8, take_succ_cons, ← hlen,
      take_left, drop_left]

/-- The extractor returns the encoding and stops where it ends. -/
theorem extractEncodedIDBKey_encodeIDBKey (hk : k.Valid) (r : Bytes) :
    extractEncodedIDBKey (encodeIDBKey k ++ r) = some (encodeIDBKey k, r) :=
  extractEncodedIDBKeyLoop_encodeIDBKey hk (by rw [length_append]; omega) r

/-- The encoding determines the key. -/
theorem eq_of_encodeIDBKey_eq (hk : k.Valid) (hk' : k'.Valid) (hshort : k.Decodable)
    (hshort' : k'.Decodable) (h : encodeIDBKey k = encodeIDBKey k') : k = k' := by
  have hdec := decodeIDBKey_encodeIDBKey hk hshort []
  rw [h, decodeIDBKey_encodeIDBKey hk' hshort' []] at hdec
  exact (congrArg Prod.fst (Option.some_inj.mp hdec)).symm

/-- An encoding that starts another one is that one. -/
theorem encodeIDBKey_eq_of_isPrefix (hk : k.Valid) (hk' : k'.Valid)
    (h : encodeIDBKey k <+: encodeIDBKey k') : encodeIDBKey k = encodeIDBKey k' := by
  obtain ⟨r, hr⟩ := h
  have hext := extractEncodedIDBKey_encodeIDBKey hk r
  have hext' := extractEncodedIDBKey_encodeIDBKey hk' []
  rw [append_nil, ← hr, hext] at hext'
  rw [← hr]
  exact congrArg Prod.fst (Option.some_inj.mp hext')

end IndexedDB
end WebKit
