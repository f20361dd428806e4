import WebKit.IndexedDB.IDBKey

/-!
# Reading keys through pointers

The decoders are called with a pointer into a buffer and the end of the buffer, and what they read
may be anything.  Here pointers are addresses and their arithmetic wraps around, so that a decoder can
be seen to leave the buffer.

The length of a string is an `int64_t` that is doubled and added to a pointer before the sum is
compared with the end of the buffer.  A reading keeps the lengths that this check lets through.
-/

namespace WebKit

open List
namespace IndexedDB

/-! ## Buffers -/

/-- The bytes between two pointers.  The difference of pointers into a buffer is a `ptrdiff_t`, and no
buffer ends with the last bytes of the address space. -/
structure Buffer where
  start : ℕ
  bytes : Bytes
  length_lt : bytes.length < 2 ^ 63
  fits : start + bytes.length + 8 < 2 ^ 64

/-- What a decoder comes to. -/
inductive Result (α : Type) where
  | null
  | pointer (value : α) (p : ℕ)
  /-- A byte outside of the buffer is read. -/
  | stray
  /-- Memory is allocated that there is not. -/
  | crash
  deriving DecidableEq

/-- A result with the lengths of strings that passed the check, and the pointers they passed at. -/
structure Reading (α : Type) where
  result : Result α
  accepted : List (ℤ × ℕ) := []
  deriving DecidableEq

namespace Reading

variable {α β : Type}

def bind (r : Reading α) (f : α → ℕ → Reading β) : Reading β :=
  match r.result with
  | .null => ⟨.null, r.accepted⟩
  | .pointer value p =>
    let r' := f value p
    ⟨r'.result, r.accepted ++ r'.accepted⟩
  | .stray => ⟨.stray, r.accepted⟩
  | .crash => ⟨.crash, r.accepted⟩

def map (f : α → β) (r : Reading α) : Reading β := r.bind fun value p => ⟨.pointer (f value) p, []⟩

end Reading

namespace Buffer

variable (b : Buffer)

def limit : ℕ := b.start + b.bytes.length

def read (p : ℕ) : Option UInt8 := if b.start ≤ p then b.bytes[p - b.start]? else none

/-- The buffer has the `n` bytes from an address on. -/
def Holds (p n : ℕ) : Prop := n = 0 ∨ b.start ≤ p ∧ p + n ≤ b.limit

instance (p n : ℕ) : Decidable (b.Holds p n) :=
  inferInstanceAs (Decidable (n = 0 ∨ b.start ≤ p ∧ p + n ≤ b.limit))

def slice (p n : ℕ) : Bytes := (b.bytes.drop (p - b.start)).take n

/-- The address `p + n`. -/
def add (p : ℕ) (n : ℤ) : ℕ := (((p : ℤ) + n) % 2 ^ 64).toNat

/-! ## Scalars -/

section Scalars

-- what a shift by 64 bits or more gives, which the language leaves open
variable (wide : ℕ → ℕ → ℕ)

/-- `static_cast<int64_t>(x) << shift`, as the 64 bits. -/
def shiftLeft (x shift : ℕ) : ℕ :=
  (if shift < 64 then x <<< shift else wide x shift) % 2 ^ 64

/-- The loop, with the number of bytes up to `limit`. -/
def decodeVarIntLoop : ℕ → ℕ → ℕ → ℕ → Result ℤ
  | 0, _, _, _ => .null
  | n + 1, p, shift, foundInt =>
    match b.read p with
    | none => .stray
    | some c =>
      let foundInt := foundInt ||| shiftLeft wide (c &&& 0x7f).toNat shift
      if c &&& 0x80 = 0 then .pointer (toInt64 foundInt) (p + 1)
      else decodeVarIntLoop n (p + 1) (shift + 7) foundInt

def decodeVarInt (p : ℕ) : Result ℤ := b.decodeVarIntLoop wide (b.limit - p) p 0 0

end Scalars

/-- The number of code units is a `size_t` computed from the difference of the pointers.  The CRASH of
the builder for a long string, after which nothing is read, is left out. -/
def decodeString (p stop : ℕ) : Result UString :=
  let difference := Int.bmod ((stop : ℤ) - p) (2 ^ 64)
  let len := (difference.tdiv 2 % 2 ^ 64).toNat
  if b.Holds p (2 * len) then .pointer (decodeUnits (b.slice p (2 * len))) stop
  else .stray

def decodeDouble (p : ℕ) : Result Double :=
  if add p 8 > b.limit then .null
  else if b.Holds p 8 then
    .pointer ⟨UInt64.ofNat (LittleEndian.value (b.slice p 8))⟩ (add p 8)
  else .stray

section Strings

variable (wide : ℕ → ℕ → ℕ)

def decodeStringWithLength (p : ℕ) : Reading UString :=
  Reading.bind ⟨b.decodeVarInt wide p, []⟩ fun len p =>
    if add p (len * 2) > b.limit then ⟨.null, []⟩
    else ⟨b.decodeString p (add p (len * 2)), [(len, p)]⟩

/-- The case of `extractEncodedIDBKey` for strings; the allocation of half of the address space
fails. -/
def extractString (start p : ℕ) : Reading Bytes :=
  Reading.bind ⟨b.decodeVarInt wide p, []⟩ fun length p =>
    if add p (length * 2) > b.limit then ⟨.null, []⟩
    else
      let size := add p (length * 2 - start)
      ⟨if 2 ^ 63 ≤ size then .crash
        else if b.Holds start size then .pointer (b.slice start size) (add p (length * 2))
        else .stray, [(length, p)]⟩

end Strings

/-! ## Keys -/

/-- What the two functions that walk over a key do with its parts; `start` is the pointer to the type
byte and `p` the one behind it. -/
structure KeyReader (α : Type) where
  isNull : UInt8 → Bool
  null : UInt8 → α
  array : (start p : ℕ) → List α → α
  string : (start p : ℕ) → Reading α
  double : (type : UInt8) → (start p : ℕ) → Reading α

/-- Read `n` keys with a given reader. -/
def readMany {α : Type} (read : ℕ → Reading α) : ℕ → ℕ → Reading (List α)
  | 0, p => ⟨.pointer [] p, []⟩
  | n + 1, p => (read p).bind fun key p => (readMany read n p).map (key :: ·)

section Keys

variable (wide : ℕ → ℕ → ℕ)

/-- The switch over the type byte, with a bound on the number of bytes up to `limit`. -/
def readKey {α : Type} (r : KeyReader α) : ℕ → ℕ → Reading α
  | 0, _ => ⟨.null, []⟩
  | n + 1, start =>
    if start ≥ b.limit then ⟨.null, []⟩
    else
      match b.read start with
      | none => ⟨.stray, []⟩
      | some type =>
        let p := start + 1
        if r.isNull type then ⟨.pointer (r.null type) p, []⟩
        else if type = kIDBKeyArrayTypeByte then
          Reading.bind ⟨b.decodeVarInt wide p, []⟩ fun length p =>
            if length < 0 then ⟨.null, []⟩
            else (readMany (readKey r n) length.toNat p).map (r.array start p)
        else if type = kIDBKeyStringTypeByte then r.string start p
        else if type = kIDBKeyDateTypeByte ∨ type = kIDBKeyNumberTypeByte then
          r.double type start p
        else ⟨.null, []⟩

/-- What `decodeIDBKey` does with the parts. -/
def keyDecoder : KeyReader IDBKey where
  isNull type := type = kIDBKeyNullTypeByte
  null _ := .invalid
  array _ _ array := .array array
  string _ p := (b.decodeStringWithLength wide p).map .string
  double type _ p :=
    Reading.map (if type = kIDBKeyDateTypeByte then .date else .number) ⟨b.decodeDouble p, []⟩

def decodeIDBKey (p : ℕ) : Reading IDBKey :=
  b.readKey wide (b.keyDecoder wide) (b.limit - p) p

/-- What `extractEncodedIDBKey` does with the parts. -/
def keyExtractor : KeyReader Bytes where
  isNull type := type = kIDBKeyNullTypeByte ∨ type = kIDBKeyMinKeyTypeByte
  null := encodeByte
  array start p subkeys := b.slice start (p - start) ++ subkeys.flatten
  string start p := b.extractString wide start p
  double _ start p :=
    ⟨if add p 8 > b.limit then .null
      else if b.Holds start 9 then .pointer (b.slice start 9) (add p 8)
      else .stray, []⟩

def extractEncodedIDBKey (start : ℕ) : Reading Bytes :=
  b.readKey wide (b.keyExtractor wide) (b.limit - start) start

end Keys

/-! ## Pointers into the buffer -/

/-- The bytes from the pointer to the end of the buffer. -/
structure At (p : ℕ) (l : Bytes) : Prop where
  suffix : l <:+ b.bytes
  limit : p + l.length = b.limit

variable {b} {p : ℕ} {l : Bytes}

theorem At.le (h : b.At p l) : b.start ≤ p := by
  have hlimit := h.limit
  have hle := h.suffix.length_le
  unfold Buffer.limit at hlimit
  omega

theorem At.drop_eq (h : b.At p l) : b.bytes.drop (p - b.start) = l := by
  have hlimit := h.limit
  have hn : p - b.start = b.bytes.length - l.length := by
    unfold Buffer.limit at hlimit
    omega
  rw [hn]
  exact suffix_iff_eq_drop.mp h.suffix |>.symm

theorem At.read_nil (h : b.At p []) : p = b.limit := h.limit

theorem At.read_cons {c : UInt8} (h : b.At p (c :: l)) : b.read p = some c ∧ b.At (p + 1) l := by
  refine ⟨?_, (suffix_cons c l).trans h.suffix, ?_⟩
  · have hdrop := h.drop_eq
    rw [read, if_pos h.le, ← List.head?_drop, hdrop]
    rfl
  · have hlimit := h.limit
    rw [length_cons] at hlimit
    omega

variable {n : ℕ}

theorem At.drop (h : b.At p l) (hn : n ≤ l.length) : b.At (p + n) (l.drop n) := by
  refine ⟨(drop_suffix n l).trans h.suffix, ?_⟩
  have hlimit := h.limit
  rw [length_drop]
  omega

theorem at_start (b : Buffer) : b.At b.start b.bytes := ⟨suffix_rfl, rfl⟩

theorem At.length_eq (h : b.At p l) : b.limit - p = l.length := by
  have hlimit := h.limit
  omega

theorem At.holds (h : b.At p l) (hn : n ≤ l.length) : b.Holds p n := by
  have hlimit := h.limit
  exact .inr ⟨h.le, by omega⟩

/-- Sums with small numbers do not wrap around. -/
theorem add_eq {n : ℤ} (h : 0 ≤ (p : ℤ) + n) (hlt : (p : ℤ) + n < 2 ^ 64) :
    (add p n : ℤ) = p + n := by
  rw [add, Int.emod_eq_of_lt h hlt, Int.toNat_of_nonneg h]

theorem At.add_eq (h : b.At p l) (hn : n ≤ l.length + 8) : add p n = p + n := by
  have hlimit := h.limit
  have hfits := b.fits
  unfold Buffer.limit at hlimit
  have hadd := Buffer.add_eq (p := p) (n := n) (by omega) (by omega)
  omega

end Buffer

/-! ## What the bytes are -/

/-- What a walk over the bytes of a key finds. -/
inductive Shape where
  | key (rest : Bytes)
  /-- The string of this length does not fit in what follows. -/
  | misfit (len : ℤ) (rest : Bytes)
  | malformed

/-- The walk goes on behind a key. -/
def Shape.andThen (s : Shape) (f : Bytes → Shape) : Shape :=
  match s with
  | .key rest => f rest
  | .misfit len rest => .misfit len rest
  | .malformed => .malformed

/-- A length that the bytes behind it hold. -/
def Fits (len : ℤ) (rest : Bytes) : Prop := 0 ≤ len ∧ 2 * len ≤ rest.length

instance (len : ℤ) (rest : Bytes) : Decidable (Fits len rest) :=
  inferInstanceAs (Decidable (0 ≤ len ∧ 2 * len ≤ rest.length))

section Shapes

variable (wide : ℕ → ℕ → ℕ)

/-- The integer at the head of the bytes, and what follows it. -/
def varIntLoop : Bytes → ℕ → ℕ → Option (ℤ × Bytes)
  | [], _, _ => none
  | c :: l, shift, foundInt =>
    let foundInt := foundInt ||| Buffer.shiftLeft wide (c &&& 0x7f).toNat shift
    if c &&& 0x80 = 0 then some (toInt64 foundInt, l) else varIntLoop l (shift + 7) foundInt

def varInt (l : Bytes) : Option (ℤ × Bytes) := varIntLoop wide l 0 0

def stringShape (l : Bytes) : Shape :=
  match varInt wide l with
  | none => .malformed
  | some (len, rest) =>
    if Fits len rest then .key (rest.drop (2 * len).toNat) else .misfit len rest

/-- `n` keys in a row. -/
def manyShape (shape : Bytes → Shape) : ℕ → Bytes → Shape
  | 0, l => .key l
  | n + 1, l => (shape l).andThen (manyShape shape n)

/-- A key, with a bound on its depth. -/
def keyShape (isNull : UInt8 → Bool) : ℕ → Bytes → Shape
  | 0, _ => .malformed
  | _ + 1, [] => .malformed
  | n + 1, type :: l =>
    if isNull type then .key l
    else if type = kIDBKeyArrayTypeByte then
      match varInt wide l with
      | none => .malformed
      | some (length, rest) =>
        if length < 0 then .malformed else manyShape (keyShape isNull n) length.toNat rest
    else if type = kIDBKeyStringTypeByte then stringShape wide l
    else if type = kIDBKeyDateTypeByte ∨ type = kIDBKeyNumberTypeByte then
      if l.length < 8 then .malformed else .key (l.drop 8)
    else .malformed

end Shapes

namespace Buffer

variable {b : Buffer} {p : ℕ} {l : Bytes}

/-! ## Readings and shapes -/

/-- All lengths that passed the check belong to strings inside of the buffer. -/
def AllFit (b : Buffer) (accepted : List (ℤ × ℕ)) : Prop :=
  ∀ a ∈ accepted, 0 ≤ a.1 ∧ a.2 + 2 * a.1 ≤ b.limit

/-- The check on a string of this length with this behind it fails. -/
def Rejects (b : Buffer) (len : ℤ) (rest : Bytes) : Prop :=
  b.limit < add (b.limit - rest.length) (len * 2)

/-- The reading goes as the shape of the bytes says; a misfit that is not rejected is let through. -/
def Agrees {α : Type} (b : Buffer) (low : ℕ) (r : Reading α) : Shape → Prop
  | .key rest => (∃ value q, r.result = .pointer value q ∧ b.At q rest ∧ low ≤ q) ∧
      b.AllFit r.accepted
  | .misfit len rest => (b.Rejects len rest → r.result = .null ∧ b.AllFit r.accepted) ∧
      (¬ b.Rejects len rest → ¬ b.AllFit r.accepted)
  | .malformed => r.result = .null ∧ b.AllFit r.accepted

theorem allFit_nil : b.AllFit [] := fun _ h => absurd h not_mem_nil

theorem allFit_append {l : List (ℤ × ℕ)} : b.AllFit (k ++ l) ↔ b.AllFit k ∧ b.AllFit l :=
  forall_mem_append

theorem allFit_singleton {len : ℤ} (h : b.At p l) : b.AllFit [(len, p)] ↔ Fits len l := by
  have hlimit := h.limit
  rw [AllFit, forall_mem_singleton, Fits]
  omega

theorem At.rejects_iff (h : b.At p l) {len : ℤ} : b.Rejects len l ↔ b.limit < add p (len * 2) := by
  have hlimit := h.limit
  rw [Rejects, show b.limit - l.length = p by omega]

section Agrees

variable {α β : Type} {low : ℕ} {r : Reading α}

theorem agrees_null : b.Agrees low (⟨.null, []⟩ : Reading α) .malformed := ⟨rfl, allFit_nil⟩

theorem agrees_pointer {value : α} {q : ℕ} (h : b.At q l) (hlow : low ≤ q) :
    b.Agrees low ⟨.pointer value q, []⟩ (.key l) := ⟨⟨value, q, rfl, h, hlow⟩, allFit_nil⟩

variable {s : Shape}

variable (h : b.Agrees low r s)

include h

theorem Agrees.bind {low' : ℕ} {f : α → ℕ → Reading β}
    (hf : ∀ value q rest, b.At q rest → low ≤ q → b.Agrees low' (f value q) (g rest)) :
    b.Agrees low' (r.bind f) (Shape.andThen s g) := by
  cases s with
  | key rest =>
    obtain ⟨⟨value, q, hresult, hat, hlow⟩, hfit⟩ := h
    have hnext := hf value q rest hat hlow
    have hbind : r.bind f = ⟨(f value q).result, r.accepted ++ (f value q).accepted⟩ := by
      rw [Reading.bind, hresult]
    rw [hbind]
    change b.Agrees low' _ (g rest)
    cases hg : g rest with
    | key rest' =>
      rw [hg] at hnext
      exact ⟨hnext.1, allFit_append.mpr ⟨hfit, hnext.2⟩⟩
    | misfit len rest' =>
      rw [hg] at hnext
      refine ⟨fun hreject => ?_, fun hpass hall => hnext.2 hpass (allFit_append.mp hall).2⟩
      obtain ⟨hnull, hrest⟩ := hnext.1 hreject
      exact ⟨hnull, allFit_append.mpr ⟨hfit, hrest⟩⟩
    | malformed =>
      rw [hg] at hnext
      exact ⟨hnext.1, allFit_append.mpr ⟨hfit, hnext.2⟩⟩
  | misfit len rest =>
    refine ⟨fun hreject => ?_, fun hpass hall => h.2 hpass ?_⟩
    · obtain ⟨hnull, hfit⟩ := h.1 hreject
      rw [Reading.bind, hnull]
      exact ⟨rfl, hfit⟩
    · -- what passed so far stays in the list
      revert hall
      unfold Reading.bind
      split
      · exact id
      · exact fun hall => (allFit_append.mp hall).1
      all_goals exact id
  | malformed =>
    obtain ⟨hnull, hfit⟩ := h
    rw [Reading.bind, hnull]
    exact ⟨rfl, hfit⟩

theorem Agrees.map (f : α → β) : b.Agrees low (r.map f) s := by
  have hbind : b.Agrees low (r.bind fun value p => ⟨.pointer (f value) p, []⟩)
      (Shape.andThen s .key) :=
    h.bind fun value q rest hat hlow => agrees_pointer hat hlow
  cases s <;> exact hbind

theorem Agrees.mono {low' : ℕ} (hle : low' ≤ low) : b.Agrees low' r s := by
  cases s with
  | key rest =>
    obtain ⟨⟨value, q, hresult, hat, hlow⟩, hfit⟩ := h
    exact ⟨⟨value, q, hresult, hat, hle.trans hlow⟩, hfit⟩
  | _ => exact h

end Agrees

/-! ## The parts of a key -/

section Parts

variable {wide : ℕ → ℕ → ℕ}

variable (wide) in
theorem decodeVarIntLoop_spec (h : b.At p l) (shift foundInt : ℕ) :
    match varIntLoop wide l shift foundInt with
    | none => b.decodeVarIntLoop wide l.length p shift foundInt = .null
    | some (v, rest) => ∃ q, b.decodeVarIntLoop wide l.length p shift foundInt = .pointer v q ∧
        b.At q rest ∧ p < q := by
  induction l generalizing p shift foundInt with
  | nil => rfl
  | cons c l ih =>
    obtain ⟨hread, hnext⟩ := h.read_cons
    simp only [varIntLoop, length_cons, decodeVarIntLoop, hread]
    by_cases hlast : c &&& 0x80 = 0
    · simp only [if_pos hlast]
      exact ⟨p + 1, rfl, hnext, Nat.lt_succ_self p⟩
    · simp only [if_neg hlast]
      have hrest := ih hnext (shift + 7)
        (foundInt ||| shiftLeft wide (c &&& 0x7f).toNat shift)
      split at hrest
      · exact hrest
      · obtain ⟨q, hq, hat, hlt⟩ := hrest
        exact ⟨q, hq, hat, Nat.lt_of_succ_lt hlt⟩

variable (wide) in
/-- An integer is read as the bytes say. -/
theorem decodeVarInt_cases (h : b.At p l) : (varInt wide l = none ∧ b.decodeVarInt wide p = .null) ∨
      ∃ v rest q, varInt wide l = some (v, rest) ∧ b.decodeVarInt wide p = .pointer v q ∧
        b.At q rest ∧ p < q := by
  have hspec := decodeVarIntLoop_spec wide h 0 0
  rw [decodeVarInt, h.length_eq]
  unfold varInt
  cases hv : varIntLoop wide l 0 0 with
  | none =>
    rw [hv] at hspec
    exact .inl ⟨rfl, hspec⟩
  | some r =>
    obtain ⟨v, rest⟩ := r
    rw [hv] at hspec
    obtain ⟨q, hq, hat, hlt⟩ := hspec
    exact .inr ⟨v, rest, q, rfl, hq, hat, hlt⟩

variable {len : ℤ}

/-- The end of a string that fits. -/
theorem At.string (h : b.At p l) (hfits : Fits len l) :
    ∃ n : ℕ, len = n ∧ 2 * n ≤ l.length ∧ add p (len * 2) = p + 2 * n ∧ ¬ b.Rejects len l ∧
      b.At (p + 2 * n) (l.drop (2 * len).toNat) := by
  obtain ⟨hnonneg, hle⟩ := hfits
  obtain ⟨n, rfl⟩ := Int.eq_ofNat_of_zero_le hnonneg
  have hle' : 2 * n ≤ l.length := by omega
  have hadd : add p ((n : ℤ) * 2) = p + 2 * n := by
    have heq := h.add_eq (n := 2 * n) (by omega)
    rwa [show ((2 * n : ℕ) : ℤ) = (n : ℤ) * 2 by push_cast; ring] at heq
  have hat := h.drop hle'
  refine ⟨n, rfl, hle', hadd, ?_, ?_⟩
  · rw [h.rejects_iff]
    have hlimit := h.limit
    omega
  · rwa [show (2 * (n : ℤ)).toNat = 2 * n by omega]

/-- A check on a string lets it through or not, whatever is then done with it. -/
theorem agrees_checked {α : Type} (h : b.At p l) {result : Result α}
    (hresult : Fits len l → ∃ value, result = .pointer value (add p (len * 2))) :
    b.Agrees p (if add p (len * 2) > b.limit then ⟨.null, []⟩ else ⟨result, [(len, p)]⟩)
      (if Fits len l then .key (l.drop (2 * len).toNat) else .misfit len l) := by
  by_cases hfits : Fits len l
  · obtain ⟨n, hn, -, hadd, hpass, hat⟩ := h.string hfits
    obtain ⟨value, hvalue⟩ := hresult hfits
    rw [h.rejects_iff] at hpass
    rw [if_neg hpass, if_pos hfits]
    refine ⟨⟨value, p + 2 * n, ?_, hat, Nat.le_add_right _ _⟩, (allFit_singleton h).mpr hfits⟩
    rw [hvalue, hadd]
  · rw [if_neg hfits]
    refine ⟨fun hreject => ?_, fun hpass hall => ?_⟩
    · rw [h.rejects_iff] at hreject
      rw [if_pos hreject]
      exact ⟨rfl, allFit_nil⟩
    · rw [h.rejects_iff] at hpass
      rw [if_neg hpass] at hall
      exact hfits ((allFit_singleton h).mp hall)

/-- The difference of the pointers around a string that fits is what was added. -/
theorem decodeString_spec (h : b.At p l) (hfits : Fits len l) :
    ∃ value, b.decodeString p (add p (len * 2)) = .pointer value (add p (len * 2)) := by
  obtain ⟨n, -, hle, hadd, -, -⟩ := h.string hfits
  have hlength := h.suffix.length_le.trans_lt b.length_lt
  have hdifference : Int.bmod (((p + 2 * n : ℕ) : ℤ) - p) (2 ^ 64) = 2 * n := by
    rw [show ((p + 2 * n : ℕ) : ℤ) - p = 2 * n by push_cast; ring]
    exact Int.bmod_eq_of_le (by omega) (by omega)
  have hlen : ((2 * (n : ℤ)).tdiv 2 % 2 ^ 64).toNat = n := by
    rw [Int.mul_tdiv_cancel_left _ (by decide), Int.emod_eq_of_lt (by omega) (by omega),
      Int.toNat_natCast]
  rw [decodeString, hadd]
  simp only [hdifference, hlen]
  rw [if_pos (h.holds hle)]
  exact ⟨_, rfl⟩

theorem agrees_decodeStringWithLength (h : b.At p l) :
    b.Agrees (p + 1) (b.decodeStringWithLength wide p) (stringShape wide l) := by
  rcases decodeVarInt_cases wide h with ⟨hnone, hnull⟩ |
    ⟨len, rest, q, hsome, hpointer, hat, hlt⟩
  · rw [decodeStringWithLength, stringShape, hnone, hnull]
    exact agrees_null
  · rw [decodeStringWithLength, stringShape, hsome, hpointer]
    have hchecked := (agrees_checked hat (fun hfits : Fits len rest => decodeString_spec hat hfits)).mono hlt
    exact hchecked

/-- A vector takes the bytes of a string that fits. -/
theorem agrees_extractString {type : UInt8} (h : b.At p (type :: l)) :
    b.Agrees (p + 1) (b.extractString wide p (p + 1)) (stringShape wide l) := by
  rcases decodeVarInt_cases wide h.read_cons.2 with ⟨hnone, hnull⟩ |
    ⟨len, rest, q, hsome, hpointer, hat, hlt⟩
  · rw [extractString, stringShape, hnone, hnull]
    exact agrees_null
  · rw [extractString, stringShape, hsome, hpointer]
    have hsize : ∀ hfits : Fits len rest, ∃ value,
        (if 2 ^ 63 ≤ add q (len * 2 - p) then Result.crash
          else if b.Holds p (add q (len * 2 - p)) then
            .pointer (b.slice p (add q (len * 2 - p))) (add q (len * 2))
          else .stray) = .pointer value (add q (len * 2)) := by
      intro hfits
      obtain ⟨n, rfl, hle, hadd, -, hend⟩ := hat.string hfits
      have hlength := h.suffix.length_le.trans_lt b.length_lt
      have hlimit := h.limit
      have hlimit' := hat.limit
      have hsize : add q ((n : ℤ) * 2 - p) = q + 2 * n - p := by
        have heq := Buffer.add_eq (p := q) (n := (n : ℤ) * 2 - p) (by omega) (by omega)
        omega
      rw [if_neg (by omega), if_pos (h.holds (by omega))]
      exact ⟨_, rfl⟩
    have hle : p + 1 ≤ q := by omega
    have hchecked := (agrees_checked hat hsize).mono hle
    exact hchecked

theorem agrees_double {α : Type} {result : Result α} (h : b.At p (type :: l))
    (hresult : 8 ≤ l.length → ∃ value, result = .pointer value (p + 9)) :
    b.Agrees (p + 1) ⟨if add (p + 1) 8 > b.limit then .null else result, []⟩
      (if l.length < 8 then .malformed else .key (l.drop 8)) := by
  have hnext := h.read_cons.2
  have hlimit := hnext.limit
  have hadd : add (p + 1) 8 = p + 9 := hnext.add_eq (n := 8) (by omega)
  by_cases hshort : l.length < 8
  · rw [if_pos hshort, if_pos (by omega)]
    exact agrees_null
  · obtain ⟨value, hvalue⟩ := hresult (not_lt.mp hshort)
    rw [if_neg hshort, if_neg (by omega), hvalue]
    exact agrees_pointer (hnext.drop (not_lt.mp hshort)) (by omega)

/-- What a reader of keys does with strings and doubles goes as the bytes say. -/
structure Reads {α : Type} (b : Buffer) (wide : ℕ → ℕ → ℕ) (r : KeyReader α) : Prop where
  string : ∀ {p type l}, b.At p (type :: l) →
    b.Agrees (p + 1) (r.string p (p + 1)) (stringShape wide l)
  double : ∀ {p type l}, b.At p (type :: l) →
    b.Agrees (p + 1) (r.double type p (p + 1)) (if l.length < 8 then .malformed else .key (l.drop 8))

theorem agrees_readMany {α : Type} {read : ℕ → Reading α}
    (h : ∀ {p l}, b.At p l → low ≤ p → b.Agrees p (read p) (shape l)) (n : ℕ) (hat : b.At p l)
    (hlow : low ≤ p) : b.Agrees p (readMany read n p) (manyShape shape n l) := by
  induction n generalizing p l with
  | zero => exact agrees_pointer hat le_rfl
  | succ n ih =>
    refine (h hat hlow).bind fun value q rest hq hle => ?_
    exact ((ih hq (hlow.trans hle)).map _).mono hle

theorem agrees_readKey {α : Type} {r : KeyReader α} (hr : b.Reads wide r) (n : ℕ)
    (hat : b.At p l) (hn : l.length ≤ n) :
    b.Agrees (p + 1) (b.readKey wide r n p) (keyShape wide r.isNull n l) := by
  induction n generalizing p l with
  | zero => exact agrees_null
  | succ n ih =>
    cases l with
    | nil =>
      rw [readKey, if_pos (le_of_eq hat.read_nil.symm)]
      exact agrees_null
    | cons type l =>
      obtain ⟨hread, hnext⟩ := hat.read_cons
      have hlimit := hat.limit
      rw [length_cons] at hlimit hn
      rw [readKey, if_neg (by omega), hread]
      simp only [keyShape]
      split
      · exact agrees_pointer hnext le_rfl
      split
      · -- an array
        rcases decodeVarInt_cases wide hnext with ⟨hnone, hnull⟩ |
          ⟨length, rest, q, hsome, hpointer, hq, hlt⟩
        · rw [hnone, hnull]
          exact agrees_null
        · rw [hsome, hpointer]
          simp only [Reading.bind]
          split
          · exact agrees_null
          · have hmany := agrees_readMany (fun {p' l'} hat' (hlow : p + 1 ≤ p') =>
              (ih hat' (by
                have hlimit' := hat'.limit
                omega)).mono (Nat.le_succ p')) length.toNat hq hlt.le
            exact (hmany.map _).mono hlt.le
      split
      · exact hr.string hat
      split
      · exact hr.double hat
      · exact agrees_null

theorem reads_keyDecoder (b : Buffer) (wide : ℕ → ℕ → ℕ) : b.Reads wide (b.keyDecoder wide) where
  string h := ((agrees_decodeStringWithLength h.read_cons.2).mono (Nat.le_succ _)).map _
  double {p type l} h := by
    refine Agrees.map (r := ⟨b.decodeDouble (p + 1), []⟩) ?_ _
    refine agrees_double h fun hle => ?_
    have hadd : add (p + 1) 8 = p + 9 := h.read_cons.2.add_eq (n := 8) (by omega)
    rw [if_pos (h.read_cons.2.holds hle), hadd]
    exact ⟨_, rfl⟩

theorem reads_keyExtractor (b : Buffer) (wide : ℕ → ℕ → ℕ) :
    b.Reads wide (b.keyExtractor wide) where
  string h := agrees_extractString h
  double {p type l} h := by
    refine agrees_double h fun hle => ?_
    have hadd : add (p + 1) 8 = p + 9 := h.read_cons.2.add_eq (n := 8) (by omega)
    have hholds : b.Holds p 9 := h.holds (by
      rw [length_cons]
      omega)
    rw [if_pos hholds, hadd]
    exact ⟨_, rfl⟩

end Parts

/-! ## Staying in the buffer -/

/-- The reading fails or ends further on in the buffer, without having left it, and the check has let
no length through whose string does not fit. -/
structure Safe {α : Type} (b : Buffer) (r : Reading α) : Prop where
  result : r.result = .null ∨ ∃ value p, r.result = .pointer value p ∧ b.start < p ∧ p ≤ b.limit
  check : b.AllFit r.accepted

/-- A string that does not fit, if the walk over the bytes comes to one, fails the check. -/
def RejectsMisfit (b : Buffer) (s : Shape) : Prop :=
  ∀ len rest, s = .misfit len rest → b.Rejects len rest

theorem Agrees.safe_iff {α : Type} {r : Reading α} {s : Shape}
    (h : b.Agrees (b.start + 1) r s) : b.Safe r ↔ b.RejectsMisfit s := by
  cases s with
  | key rest =>
    obtain ⟨⟨value, q, hresult, hat, hlow⟩, hfit⟩ := h
    refine iff_of_true ⟨.inr ⟨value, q, hresult, hlow, ?_⟩, hfit⟩ nofun
    rw [← hat.limit]
    exact Nat.le_add_right _ _
  | misfit len rest =>
    constructor
    · intro hsafe len' rest' heq
      obtain ⟨rfl, rfl⟩ := Shape.misfit.inj heq
      by_contra hpass
      exact h.2 hpass hsafe.check
    · intro hreject
      obtain ⟨hnull, hfit⟩ := h.1 (hreject len rest rfl)
      exact ⟨.inl hnull, hfit⟩
  | malformed => exact iff_of_true ⟨.inl h.1, h.2⟩ nofun

/-- **When the decoders stay in the buffer.**  A decoder fails or ends further on, reads only bytes of
the buffer and lets no string through that does not fit, exactly when the first string that does
not fit, if there is one, is rejected by the comparison of pointers. -/
theorem safe_iff_rejectsMisfit (b : Buffer) (wide : ℕ → ℕ → ℕ) :
    (b.Safe (b.decodeStringWithLength wide b.start) ↔ b.RejectsMisfit (stringShape wide b.bytes)) ∧
      (b.Safe (b.decodeIDBKey wide b.start) ↔
        b.RejectsMisfit (keyShape wide (b.keyDecoder wide).isNull b.bytes.length b.bytes)) ∧
      (b.Safe (b.extractEncodedIDBKey wide b.start) ↔ b.RejectsMisfit
          (keyShape wide (b.keyExtractor wide).isNull b.bytes.length b.bytes)) := by
  have hlength : b.limit - b.start = b.bytes.length := Nat.add_sub_cancel_left _ _
  refine ⟨(agrees_decodeStringWithLength b.at_start).safe_iff, ?_, ?_⟩
  · rw [decodeIDBKey, hlength]
    exact (agrees_readKey (reads_keyDecoder b wide) _ b.at_start le_rfl).safe_iff
  · rw [extractEncodedIDBKey, hlength]
    exact (agrees_readKey (reads_keyExtractor b wide) _ b.at_start le_rfl).safe_iff

/-! ## Negative lengths -/

/-- A string key with the length -1. -/
def negativeLength : Buffer where
  start := 4096
  bytes := [1, 255, 255, 255, 255, 255, 255, 255, 255, 255, 1]
  length_lt := by decide
  fits := by decide

/-- A string key with the least length, which is 0 when it is doubled. -/
def leastLength : Buffer where
  start := 4096
  bytes := [1, 128, 128, 128, 128, 128, 128, 128, 128, 128, 1]
  length_lt := by decide
  fits := by decide

/-- The decoder of keys leaves the buffer, and a length that does not fit passes in both functions. -/
theorem not_safe_negativeLength :
    negativeLength.decodeIDBKey (fun _ _ => 0) 4096 = ⟨.stray, [(-1, 4107)]⟩ ∧
      leastLength.decodeIDBKey (fun _ _ => 0) 4096 =
        ⟨.pointer (.string []) 4107, [(-2 ^ 63, 4107)]⟩ ∧
      ¬ negativeLength.Safe (negativeLength.decodeIDBKey (fun _ _ => 0) negativeLength.start) ∧
      ¬ negativeLength.Safe
        (negativeLength.extractEncodedIDBKey (fun _ _ => 0) negativeLength.start) ∧
      ¬ leastLength.Safe (leastLength.decodeIDBKey (fun _ _ => 0) leastLength.start) := by
  have hnegative : negativeLength.decodeIDBKey (fun _ _ => 0) 4096 = ⟨.stray, [(-1, 4107)]⟩ := by
    have hlength : negativeLength.decodeStringWithLength (fun _ _ => 0) 4097 =
        ⟨.stray, [(-1, 4107)]⟩ := by decide +kernel
    change (negativeLength.decodeStringWithLength (fun _ _ => 0) 4097).map IDBKey.string = _
    rw [hlength]
    rfl
  have hleast : leastLength.decodeIDBKey (fun _ _ => 0) 4096 =
      ⟨.pointer (.string []) 4107, [(-2 ^ 63, 4107)]⟩ := by
    have hlength : leastLength.decodeStringWithLength (fun _ _ => 0) 4097 =
        ⟨.pointer [] 4107, [(-2 ^ 63, 4107)]⟩ := by decide +kernel
    change (leastLength.decodeStringWithLength (fun _ _ => 0) 4097).map IDBKey.string = _
    rw [hlength]
    rfl
  have hextract : negativeLength.extractEncodedIDBKey (fun _ _ => 0) 4096 =
      ⟨.pointer [1, 255, 255, 255, 255, 255, 255, 255, 255] 4105, [(-1, 4107)]⟩ := by
    decide +kernel
  refine ⟨hnegative, hleast, fun h => ?_, fun h => ?_, fun h => ?_⟩
  · have hcheck := h.check
    rw [show negativeLength.start = 4096 from rfl, hnegative] at hcheck
    exact absurd (hcheck _ mem_cons_self).1 (by decide)
  · have hcheck := h.check
    rw [show negativeLength.start = 4096 from rfl, hextract] at hcheck
    exact absurd (hcheck _ mem_cons_self).1 (by decide)
  · have hcheck := h.check
    rw [show leastLength.start = 4096 from rfl, hleast] at hcheck
    exact absurd (hcheck _ mem_cons_self).1 (by decide)

end Buffer

end IndexedDB
end WebKit
