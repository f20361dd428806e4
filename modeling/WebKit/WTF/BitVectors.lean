import Mathlib.Algebra.Group.Nat.Even

/-!
# Bit vectors

`wtf/BitVector.h` and `wtf/BitVector.cpp`.  A vector is a word, or a pointer to words that a
resize allocates.  From the word, `resizeOutOfLine` writes the first of the new words alone; the
others hold what the memory held.  The number of bits is rounded up by a mask of 32 bits.

* `get_run`: where that memory holds zeros and the mask loses nothing, the vectors are what the
  calls make of them.
-/

open Function

namespace WebKit.WTF

abbrev Word := BitVec 64

/-- The words behind a pointer. -/
structure OutOfLineBits where
  numBits : ℕ
  bits : ℕ → Word

namespace OutOfLineBits

def numWords (block : OutOfLineBits) : ℕ := (block.numBits + 63) / 64

/-- The most bits that `create` rounds up to themselves. -/
def maxBits : ℕ := 2 ^ 32 - 64

/-- `fresh` is what the new memory holds.  `~(bitsInPointer() - 1)` is an `unsigned`, so the mask
drops what lies above 32 bits. -/
def create (numBits : ℕ) (fresh : ℕ → Word) : OutOfLineBits :=
  ⟨(numBits + 63) / 64 * 64 % 2 ^ 32, fresh⟩

def get (block : OutOfLineBits) (bit : ℕ) : Bool :=
  if bit ≥ block.numBits then false else (block.bits (bit / 64)).getLsbD (bit % 64)

/-- Blocks have whole words. -/
def IsWhole (block : OutOfLineBits) : Prop :=
  block.numBits % 64 = 0 ∧ 63 < block.numBits ∧ block.numBits ≤ maxBits

theorem create_numBits {numBits : ℕ} (hle : numBits ≤ maxBits) (fresh : ℕ → Word) :
    (create numBits fresh).numBits = (numBits + 63) / 64 * 64 := by
  unfold maxBits at hle
  exact Nat.mod_eq_of_lt (by omega)

end OutOfLineBits

/-- `m_bitsOrPointer`, whose highest bit tells the two apart. -/
inductive BitVector
  | inline (word : Word)
  | outOfLine (pointer : ℕ)

def maxInlineBits : ℕ := 63

def tagBit : Word := 1#64 <<< maxInlineBits

def makeInlineBits (bits : Word) : BitVector := .inline (bits ||| tagBit)

/-- The vectors by name, and the heap with the number of its allocations. -/
structure Memory where
  vectors : ℕ → BitVector
  heap : ℕ → OutOfLineBits
  next : ℕ

namespace Memory

variable (m : Memory) (i j bit numBits : ℕ) (fresh : ℕ → Word)

def create : Memory := ⟨fun _ => makeInlineBits 0, fun _ => ⟨0, fun _ => 0⟩, 0⟩

/-- The `size()` and the `bits()` of a vector. -/
def block : OutOfLineBits :=
  match m.vectors i with
  | .inline word => ⟨maxInlineBits, fun _ => word⟩
  | .outOfLine p => m.heap p

def get : Bool := (m.block i).get bit

def setVector (vector : BitVector) : Memory :=
  { m with vectors := update m.vectors i vector }

/-- A vector is made to be some words that were just allocated. -/
def pointTo (block : OutOfLineBits) : Memory :=
  ⟨update m.vectors i (.outOfLine m.next), update m.heap m.next block, m.next + 1⟩

/-- The words that `resizeOutOfLine` writes. -/
def resized : OutOfLineBits :=
  let created := OutOfLineBits.create numBits fresh
  { created with bits := match m.vectors i with
    | .inline word => update fresh 0 (word &&& ~~~tagBit)
    | .outOfLine p => fun k =>
      if numBits > (m.heap p).numBits then
        if k < (m.heap p).numWords then (m.heap p).bits k
        else if k < created.numWords then 0 else fresh k
      else if k < created.numWords then (m.heap p).bits k else fresh k }

def resizeOutOfLine : Memory := m.pointTo i (m.resized i numBits fresh)

def ensureSize : Memory :=
  if numBits ≤ (m.block i).numBits then m else m.resizeOutOfLine i numBits fresh

def resize : Memory :=
  if numBits ≤ maxInlineBits then
    match m.vectors i with
    | .inline _ => m
    | .outOfLine p => m.setVector i (makeInlineBits ((m.heap p).bits 0))
  else m.resizeOutOfLine i numBits fresh

/-- The words of a vector are changed. -/
def setBits (change : (ℕ → Word) → ℕ → Word) : Memory :=
  match m.vectors i with
  | .inline word => m.setVector i (.inline (change (fun _ => word) 0))
  | .outOfLine p => { m with
      heap := update m.heap p { m.heap p with bits := change (m.heap p).bits } }

def quickSet : Memory := m.setBits i fun bits =>
  update bits (bit / 64) (bits (bit / 64) ||| 1#64 <<< (bit % 64))

def quickClear : Memory := m.setBits i fun bits =>
  update bits (bit / 64) (bits (bit / 64) &&& ~~~(1#64 <<< (bit % 64)))

def set : Memory := (m.ensureSize i (bit + 1) fresh).quickSet i bit

def clear : Memory := if bit ≥ (m.block i).numBits then m else m.quickClear i bit

/-- `memset` writes `byteCount(size())` bytes. -/
def clearAll : Memory :=
  match m.vectors i with
  | .inline _ => m.setVector i (makeInlineBits 0)
  | .outOfLine p => m.setBits i fun bits k =>
      if k < ((m.heap p).numBits + 7) / 8 / 8 then 0 else bits k

/-- `operator=`, which copies the words of another vector by `setSlow`. -/
def assign : Memory :=
  match m.vectors j with
  | .inline word => m.setVector i (.inline word)
  | .outOfLine p => m.pointTo i { OutOfLineBits.create (m.heap p).numBits fresh with
      bits := fun k => if k < ((m.heap p).numBits + 7) / 8 / 8 then (m.heap p).bits k else fresh k }

/-! ## Calls -/

inductive Call
  | set (i bit : ℕ)
  | clear (i bit : ℕ)
  | quickSet (i bit : ℕ)
  | quickClear (i bit : ℕ)
  | ensureSize (i numBits : ℕ)
  | resize (i numBits : ℕ)
  | clearAll (i : ℕ)
  | assign (i j : ℕ)

def step (fresh : ℕ → Word) : Call → Memory
  | .set i bit => m.set i bit fresh
  | .clear i bit => m.clear i bit
  | .quickSet i bit => m.quickSet i bit
  | .quickClear i bit => m.quickClear i bit
  | .ensureSize i numBits => m.ensureSize i numBits fresh
  | .resize i numBits => m.resize i numBits fresh
  | .clearAll i => m.clearAll i
  | .assign i j => m.assign i j fresh

/-- The bits that are set after a call. -/
def Call.apply (sets : ℕ → ℕ → Bool) : Call → ℕ → ℕ → Bool
  | .set i bit | .quickSet i bit => update sets i (update (sets i) bit true)
  | .clear i bit | .quickClear i bit => update sets i (update (sets i) bit false)
  | .ensureSize _ _ | .resize _ _ => sets
  | .clearAll i => update sets i fun _ => false
  | .assign i j => update sets i (sets j)

/-- The words behind the first are zero where a vector goes out of line. -/
def Zeroed : Prop :=
  ∀ word, m.vectors i = .inline word → ∀ k, 0 < k → k * 64 < numBits → fresh k = 0

/-- The bits are in range, a resize grows, to `maxBits` at most, and the memory is as `Zeroed`
says. -/
def Exact : Call → Prop
  | .set i bit => bit < OutOfLineBits.maxBits ∧ m.Zeroed i (bit + 1) fresh
  | .quickSet i bit | .quickClear i bit => bit < (m.block i).numBits
  | .ensureSize i numBits => numBits ≤ OutOfLineBits.maxBits ∧ m.Zeroed i numBits fresh
  | .resize i numBits => (m.block i).numBits ≤ numBits ∧ numBits ≤ OutOfLineBits.maxBits ∧
      m.Zeroed i numBits fresh
  | .clear _ _ | .clearAll _ | .assign _ _ => True

/-- Calls, each with what the memory holds that it may be given. -/
def run : Memory → List (Call × (ℕ → Word)) → Memory :=
  List.foldl fun m call => m.step call.2 call.1

/-- Every call is exact where it is made. -/
def AllExact : Memory → List (Call × (ℕ → Word)) → Prop
  | _, [] => True
  | m, call :: calls => m.Exact call.2 call.1 ∧ AllExact (m.step call.2 call.1) calls

/-! ## What the vectors hold -/

structure Holds (m : Memory) (sets : ℕ → ℕ → Bool) : Prop where
  get_eq : ∀ i, (m.block i).get = sets i
  pointer_lt : ∀ {i p}, m.vectors i = .outOfLine p → p < m.next
  pointer_inj : ∀ {i j p}, m.vectors i = .outOfLine p → m.vectors j = .outOfLine p → i = j
  numBits : ∀ {i p}, m.vectors i = .outOfLine p → (m.heap p).IsWhole
  tagged : ∀ {i word}, m.vectors i = .inline word → word.getLsbD maxInlineBits = true

variable {m i j bit numBits fresh} {sets : ℕ → ℕ → Bool}

theorem getLsbD_or_shiftLeft (word : Word) {n : ℕ} (hn : n < 64) (k : ℕ) :
    (word ||| 1#64 <<< n).getLsbD k = if k = n then true else word.getLsbD k := by
  rw [← BitVec.twoPow_eq, BitVec.getLsbD_or, BitVec.getLsbD_twoPow, decide_eq_true hn]
  split <;> simp_all [eq_comm]

theorem getLsbD_and_not_shiftLeft (word : Word) {n k : ℕ} (hk : k < 64) :
    (word &&& ~~~(1#64 <<< n)).getLsbD k = if k = n then false else word.getLsbD k := by
  rw [← BitVec.twoPow_eq, BitVec.getLsbD_and, BitVec.getLsbD_not, BitVec.getLsbD_twoPow]
  split <;> simp_all [eq_comm]

theorem block_inline {word : Word} (h : m.vectors i = .inline word) :
    m.block i = ⟨maxInlineBits, fun _ => word⟩ := by
  rw [block, h]

theorem block_outOfLine {p : ℕ} (h : m.vectors i = .outOfLine p) : m.block i = m.heap p := by
  rw [block, h]

theorem block_pointTo (block : OutOfLineBits) : (m.pointTo i block).block i = block := by
  simp [Memory.block, pointTo]

theorem get_tagBit : (⟨maxInlineBits, fun _ => 0 ||| tagBit⟩ : OutOfLineBits).get =
    fun _ => false := by
  funext bit
  dsimp only [OutOfLineBits.get, maxInlineBits]
  rw [tagBit, getLsbD_or_shiftLeft _ (by decide), maxInlineBits]
  split_ifs <;> first | rfl | omega | exact BitVec.getLsbD_zero

variable (h : Holds m sets)

include h

/-- A vector is changed to a word. -/
theorem Holds.setVector {word : Word}
    (htag : word.getLsbD maxInlineBits = true) : Holds (m.setVector i (.inline word))
    (update sets i (⟨maxInlineBits, fun _ => word⟩ : OutOfLineBits).get) := by
  obtain ⟨hget, hlt, hinj, hbits, htagged⟩ := h
  constructor <;> simp only [block, Memory.setVector, update_apply] at * <;> grind

/-- A vector is changed to some words that were just allocated. -/
theorem Holds.pointTo {block : OutOfLineBits} (hwhole : block.IsWhole) :
    Holds (m.pointTo i block) (update sets i block.get) := by
  obtain ⟨hget, hlt, hinj, hbits, htagged⟩ := h
  constructor <;> simp only [Memory.block, Memory.pointTo, update_apply] at * <;> grind

/-- The words of a vector are changed. -/
theorem Holds.setBits {change : (ℕ → Word) → ℕ → Word} (htag : ∀ word,
    m.vectors i = .inline word → (change (fun _ => word) 0).getLsbD maxInlineBits = true) :
    Holds (m.setBits i change) (update sets i
      (OutOfLineBits.mk (m.block i).numBits (change (m.block i).bits)).get) := by
  rw [Memory.setBits]
  cases hi : m.vectors i with
  | inline word =>
    convert h.setVector (htag word hi) using 2
    funext bit
    rw [block_inline hi]
    dsimp only [OutOfLineBits.get, maxInlineBits]
    split
    · rfl
    · rw [show bit / 64 = 0 by omega]
  | outOfLine p =>
    rw [block_outOfLine hi]
    obtain ⟨hget, hlt, hinj, hbits, htagged⟩ := h
    constructor <;> simp only [block, update_apply] at * <;> grind [OutOfLineBits.IsWhole]

variable (hbit : bit < (m.block i).numBits)

include hbit

/-- A bit of a vector is changed. -/
theorem Holds.setBit {change : Word → Word} {value : Bool} (hchange : ∀ word : Word, ∀ k < 64,
      (change word).getLsbD k = if k = bit % 64 then value else word.getLsbD k) :
    Holds (m.setBits i fun bits => update bits (bit / 64) (change (bits (bit / 64))))
      (update sets i (update (sets i) bit value)) := by
  convert h.setBits ?_ using 2
  · funext c
    rw [update_apply (sets i), ← h.get_eq]
    dsimp only [OutOfLineBits.get]
    by_cases hword : c / 64 = bit / 64
    · rw [hword, update_self, hchange _ _ (Nat.mod_lt _ (by decide))]
      grind
    · have hne : c ≠ bit := fun heq => hword (heq ▸ rfl)
      rw [update_of_ne hword, if_neg hne]
  · intro word hi
    rw [block_inline hi] at hbit
    change bit < 63 at hbit
    rw [show bit / 64 = 0 by omega, update_self, hchange _ maxInlineBits (by decide),
      if_neg (by unfold maxInlineBits; omega)]
    exact h.tagged hi

theorem Holds.quickSet :
    Holds (m.quickSet i bit) (update sets i (update (sets i) bit true)) :=
  h.setBit hbit fun word k _ => getLsbD_or_shiftLeft word (Nat.mod_lt _ (by decide)) k

theorem Holds.quickClear :
    Holds (m.quickClear i bit) (update sets i (update (sets i) bit false)) :=
  h.setBit hbit fun word _ hk => getLsbD_and_not_shiftLeft word hk

omit hbit

theorem Holds.get_resized (hlarge : maxInlineBits < numBits)
    (hgrows : (m.block i).numBits ≤ numBits) (hle : numBits ≤ OutOfLineBits.maxBits)
    (hzeroed : m.Zeroed i numBits fresh) :
    (m.resized i numBits fresh).get = sets i := by
  rw [← h.get_eq]
  funext bit
  unfold maxInlineBits at hlarge
  have hsize : (m.resized i numBits fresh).numBits = (numBits + 63) / 64 * 64 :=
    OutOfLineBits.create_numBits hle fresh
  have hnew : (OutOfLineBits.create numBits fresh).numWords = (numBits + 63) / 64 := by
    rw [OutOfLineBits.numWords, OutOfLineBits.create_numBits hle]
    omega
  rw [OutOfLineBits.get, hsize]
  cases hi : m.vectors i with
  | inline word =>
    rw [block_inline hi]
    dsimp only [OutOfLineBits.get, resized, maxInlineBits]
    rw [hi]
    dsimp only
    by_cases hfirst : bit / 64 = 0
    · rw [hfirst, update_self, tagBit,
        getLsbD_and_not_shiftLeft _ (Nat.mod_lt _ (by decide)), maxInlineBits]
      split_ifs <;> first | rfl | omega
    · rw [update_of_ne hfirst, if_pos (by omega : bit ≥ 63)]
      split
      · rfl
      · rw [hzeroed word hi (bit / 64) (by omega) (by omega)]
        exact BitVec.getLsbD_zero
  | outOfLine p =>
    have hwhole := h.numBits hi
    rw [block_outOfLine hi] at hgrows ⊢
    dsimp only [OutOfLineBits.get, resized]
    rw [hi]
    dsimp only
    rw [hnew, OutOfLineBits.numWords]
    unfold OutOfLineBits.IsWhole at hwhole
    split_ifs <;> first | rfl | omega | exact BitVec.getLsbD_zero

theorem Holds.resizeOutOfLine (hlarge : maxInlineBits < numBits)
    (hgrows : (m.block i).numBits ≤ numBits) (hle : numBits ≤ OutOfLineBits.maxBits)
    (hzeroed : m.Zeroed i numBits fresh) :
    Holds (m.resizeOutOfLine i numBits fresh) sets := by
  have hwhole : (m.resized i numBits fresh).IsWhole := by
    have hsize : (m.resized i numBits fresh).numBits = (numBits + 63) / 64 * 64 :=
      OutOfLineBits.create_numBits hle fresh
    rw [OutOfLineBits.IsWhole, hsize]
    unfold maxInlineBits at hlarge
    unfold OutOfLineBits.maxBits at hle ⊢
    omega
  have hpoint := @Holds.pointTo m i sets h _ hwhole
  rwa [h.get_resized hlarge hgrows hle hzeroed, update_eq_self] at hpoint

theorem Holds.ensureSize (hle : numBits ≤ OutOfLineBits.maxBits)
    (hzeroed : m.Zeroed i numBits fresh) :
    Holds (m.ensureSize i numBits fresh) sets ∧
      numBits ≤ ((m.ensureSize i numBits fresh).block i).numBits := by
  rw [Memory.ensureSize]
  split
  · next hsized => exact ⟨h, hsized⟩
  · next hlt =>
    have hlarge : maxInlineBits ≤ (m.block i).numBits := by
      cases hi : m.vectors i with
      | inline => exact Nat.le_of_eq (congrArg OutOfLineBits.numBits (block_inline hi)).symm
      | outOfLine p =>
        rw [block_outOfLine hi]
        exact Nat.le_of_lt (h.numBits hi).2.1
    refine ⟨h.resizeOutOfLine (by omega) (by omega) hle hzeroed, ?_⟩
    have hsize : (m.resized i numBits fresh).numBits = (numBits + 63) / 64 * 64 :=
      OutOfLineBits.create_numBits hle fresh
    rw [Memory.resizeOutOfLine, block_pointTo, hsize]
    omega

theorem Holds.clearAll :
    Holds (m.clearAll i) (update sets i fun _ => false) := by
  rw [Memory.clearAll]
  cases hi : m.vectors i with
  | inline => exact get_tagBit ▸ h.setVector (by decide)
  | outOfLine p =>
    have hwhole := (h.numBits hi).1
    convert h.setBits (fun _ hi' => nomatch hi.symm.trans hi') using 2
    funext bit
    rw [block_outOfLine hi]
    dsimp only [OutOfLineBits.get]
    split_ifs <;> first | rfl | omega | exact BitVec.getLsbD_zero.symm

/-- A copy has words of its own. -/
theorem Holds.assign :
    Holds (m.assign i j fresh) (update sets i (sets j)) := by
  rw [Memory.assign, ← h.get_eq j]
  cases hj : m.vectors j with
  | inline word => exact block_inline hj ▸ h.setVector (h.tagged hj)
  | outOfLine p =>
    have hwhole := h.numBits hj
    have hpoint := @Holds.pointTo m i sets h
    have hsize : (OutOfLineBits.create (m.heap p).numBits fresh).numBits = (m.heap p).numBits := by
      rw [OutOfLineBits.create_numBits hwhole.2.2]
      have := hwhole.1
      omega
    unfold OutOfLineBits.IsWhole at hwhole hpoint
    convert @hpoint _ _ using 2
    · funext bit
      rw [block_outOfLine hj]
      dsimp only [OutOfLineBits.get]
      rw [hsize]
      split_ifs <;> first | rfl | omega
    · dsimp only
      rwa [hsize]

theorem Holds.step {call : Call} (hexact : m.Exact fresh call) :
    Holds (m.step fresh call) (call.apply sets) := by
  cases call with
  | set i bit =>
    obtain ⟨hsized, hbit⟩ := h.ensureSize hexact.1 hexact.2
    exact hsized.quickSet hbit
  | clear i bit =>
    change Holds (m.clear i bit) (update sets i (update (sets i) bit false))
    rw [Memory.clear]
    split
    · next hge =>
      have hrow : update (sets i) bit false = sets i := by
        rw [update_eq_self_iff, ← h.get_eq]
        exact (if_pos hge).symm
      rw [hrow, update_eq_self]
      exact h
    · next hlt => exact h.quickClear (Nat.not_le.mp hlt)
  | quickSet => exact h.quickSet hexact
  | quickClear => exact h.quickClear hexact
  | ensureSize => exact (h.ensureSize hexact.1 hexact.2).1
  | resize i numBits =>
    obtain ⟨hgrows, hmax, hzeroed⟩ := hexact
    change Holds (m.resize i numBits fresh) sets
    rw [Memory.resize]
    split
    · next hle =>
      cases hi : m.vectors i with
      | inline => exact h
      | outOfLine p =>
        rw [block_outOfLine hi] at hgrows
        exact absurd (h.numBits hi).2.1 (Nat.not_lt.mpr (Nat.le_trans hgrows hle))
    · next hlt => exact h.resizeOutOfLine (Nat.not_le.mp hlt) hgrows hmax hzeroed
  | clearAll => exact h.clearAll
  | assign => exact h.assign

omit h

theorem Holds.run (h : Holds m sets) {calls : List (Call × (ℕ → Word))}
    (hexact : m.AllExact calls) :
    Holds (m.run calls) (calls.foldl (fun sets call => call.1.apply sets) sets) := by
  induction calls generalizing m sets with
  | nil => exact h
  | cons call calls ih => exact ih (h.step hexact.1) hexact.2

theorem create_holds : Holds create fun _ _ => false :=
  ⟨fun _ => get_tagBit, nofun, nofun, nofun, by rintro - - ⟨⟩; decide⟩

/-- After calls that are exact, a vector has the bits that the calls set and no others. -/
theorem get_run (calls : List (Call × (ℕ → Word))) (hexact : create.AllExact calls) (i bit : ℕ) :
    (create.run calls).get i bit =
      calls.foldl (fun sets call => call.1.apply sets) (fun _ _ => false) i bit :=
  congrFun ((create_holds.run hexact).get_eq i) bit

/-- The new memory holds ones. -/
def ones : ℕ → Word := fun _ => BitVec.allOnes 64

theorem get_run_set : (create.run [(.set 0 1, ones), (.assign 1 0, ones)]).get 1 1 = true :=
  get_run [(.set 0 1, ones), (.assign 1 0, ones)]
    ⟨⟨by decide, fun _ _ k hpos hlt => absurd hlt (by omega)⟩, trivial, trivial⟩ 1 1

/-- A vector that grows to two words has bits that nobody set. -/
example : (create.run [(.ensureSize 0 128, ones)]).get 0 64 = true ∧
    Call.apply (fun _ _ => false) (.ensureSize 0 128) 0 64 = false := by
  decide

end Memory
end WebKit.WTF
