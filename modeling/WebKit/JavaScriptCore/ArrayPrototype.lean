import WebKit.JavaScriptCore.ArrayObject

/-!
# shift, unshift and splice

`Array.prototype.shift`, `unshift` and `splice` move all values of an array by some indices.  For any
object they do so with a loop of gets, puts and deletions; for a `JSArray`, and for `splice` at index
0, they call `shiftCount` or `unshiftCount`, which move the vector inside its allocation.  Both are
here for a `JSArray`: the argument `isJSArray` says which of the two is taken.

The fast functions move the vector and leave the map alone.  So they agree with the loops on an array
whose map has no entry, and otherwise leave values at their old indices.  `unshiftCount` also may
fail for want of storage, in which case the caller goes on to write the arguments over the values it
did not move.
-/

namespace WebKit

open List
namespace JavaScriptCore
namespace JSArray

variable {V : Type*} (a : JSArray V)

/-! ## The fast functions -/

/-- The loop over the holes, which fills those that the prototype chain has a property for.  The put
at `i` finds `heaps i` of the heap. -/
def fillHoles (heaps : ℕ → Heap) (prototype : ℕ → Option V) : List ℕ → JSArray V → JSArray V
  | [], a => a
  | i :: is, a =>
    fillHoles heaps prototype is
      (if (a.slot i).isNone then
        match prototype i with
        | some v => (a.putByIndex (heaps i) i (some v)).array
        | none => a
      else a)

variable (heaps : ℕ → Heap) (prototype : ℕ → Option V)

def shiftCount (count : ℕ) : JSArray V :=
  let oldLength := a.length
  if oldLength = 0 then a
  else
    let a :=
      if oldLength ≠ a.numValuesInVector then
        let a := fillHoles heaps prototype (List.range' count (oldLength - count)) a
        { a with numValuesInVector := a.numValuesInVector - Slots.filled (a.vector.take count) }
      else { a with numValuesInVector := a.numValuesInVector - count }
    let a := { a with length := a.length - count }
    let count := min a.vectorLength count
    -- A vector of length 0 is not moved, so the bias keeps its value.
    { a with
      vector := a.vector.drop count
      indexBias := if a.vectorLength - count = 0 then a.indexBias else a.indexBias + count }

/-- Makes room for `count` slots at the front; what they hold is cleared by `unshiftCount`. -/
def unshiftCountSlowCase (heap : Heap) (count : ℕ) : Option (JSArray V) :=
  let usedVectorLength := min a.vectorLength a.length
  if maxStorageVectorLength - usedVectorLength < count then none
  else
    let requiredVectorLength := usedVectorLength + count
    let currentCapacity := a.vectorLength + a.indexBias
    let desiredCapacity := min maxStorageVectorLength (max baseVectorLen requiredVectorLength * 2)
    let reuse :=
      decide (desiredCapacity < currentCapacity)
        && isDenseEnoughForVector currentCapacity requiredVectorLength
    if !reuse && !heap.allocates then none
    else
      let newStorageCapacity := if reuse then currentCapacity else desiredCapacity
      let postCapacity :=
        if a.length < a.vectorLength then
          min ((a.vectorLength - a.length) / 2) (newStorageCapacity - requiredVectorLength)
        else 0
      -- In the old allocation the slots behind the values are those that were there.
      some { a with
        vector := List.replicate count none ++ a.vector.take usedVectorLength
          ++ if reuse then a.vector.drop (a.vectorLength - postCapacity)
            else List.replicate postCapacity none
        indexBias := newStorageCapacity - (requiredVectorLength + postCapacity) }

def unshiftCount (heap : Heap) (count : ℕ) : JSArray V × Option JSError :=
  let a :=
    if a.length ≠ a.numValuesInVector then fillHoles heaps prototype (List.range a.length) a else a
  if count ≤ a.indexBias then
    ({ a with
        vector := List.replicate count none ++ a.vector
        indexBias := a.indexBias - count }, none)
  else
    match a.unshiftCountSlowCase heap count with
    | none => (a, some .outOfMemory)
    | some a => (a, none)

/-! ## The loops -/

/-- A number as an `unsigned`. -/
def toUnsigned (n : ℕ) : ℕ := n % 4294967296

/-- The value of an own property or of one of the prototype chain.  Outside sparse mode no index has
an accessor. -/
def getProperty [Inhabited V] (prototype : ℕ → Option V) (i : ℕ) : Option V :=
  match a.getOwnPropertySlotByIndex i with
  | some (.value v) => v
  | some (.getter _) => none
  | none => prototype i

/-- One turn of a loop: what `source` has goes to `target`. -/
def moveProperty [Inhabited V] (prototype : ℕ → Option V) (heap : Heap) (source target : ℕ) :
    JSArray V :=
  match a.getProperty prototype source with
  | some v => (a.putByIndex heap target (some v)).array
  | none => (a.deletePropertyByIndex target).array

/-- `for (k = begin; k < begin + n; k++)`. -/
def loopUp (body : JSArray V → ℕ → JSArray V) (begin : ℕ) : ℕ → JSArray V → JSArray V
  | 0, a => a
  | n + 1, a => loopUp body (begin + 1) n (body a begin)

/-- `for (k = n; k > 0; --k)`. -/
def loopDown (body : JSArray V → ℕ → JSArray V) : ℕ → JSArray V → JSArray V
  | 0, a => a
  | n + 1, a => loopDown body n (body a (n + 1))

/-- `for (k = 0; k < args; ++k)`, the arguments put from index 0 on. -/
def putArguments (heaps : ℕ → Heap) : ℕ → List V → JSArray V → JSArray V
  | _, [], a => a
  | k, v :: args, a => putArguments heaps (k + 1) args (a.putByIndex (heaps k) k (some v)).array

/-- `putProperty` of a new length. -/
def putLength (n : ℕ) : JSArray V := (a.setLength (toUnsigned n) false).array

/-! ## The functions of the prototype -/

/-- What the heap grants in the course of one function: to the loops that move values, to
`unshiftCount`, and to the puts of the arguments. -/
structure Grants where
  moves : ℕ → Heap
  unshift : Heap
  arguments : ℕ → Heap

section Functions

variable [Inhabited V]

variable (isJSArray : Bool) (grants : Grants) (prototype : ℕ → Option V)

def arrayProtoFuncShift : JSArray V :=
  let length := a.length
  if length = 0 then a.putLength length
  else
    let a :=
      if isJSArray then a.shiftCount grants.moves prototype 1
      else
        let a := loopUp (fun a k => a.moveProperty prototype (grants.moves k) k (k - 1)) 1
          (length - 1) a
        (a.deletePropertyByIndex (length - 1)).array
    a.putLength (length - 1)

def arrayProtoFuncUnShift (args : List V) : JSArray V :=
  let length := a.length
  let nrArgs := args.length
  let a :=
    if nrArgs ≠ 0 ∧ length ≠ 0 then
      if isJSArray then (a.unshiftCount grants.moves prototype grants.unshift nrArgs).1
      else
        loopDown (fun a k => a.moveProperty prototype (grants.moves k) (k - 1)
          (toUnsigned (k + nrArgs - 1))) length a
    else a
  (putArguments grants.arguments 0 args a).putLength (length + nrArgs)

/-- The number of values that `splice` removes, with `toInteger` of its second argument if it has
one. -/
def spliceDeleteCount (length : ℕ) : Option ℤ → ℕ
  | none => length
  | some deleteDouble =>
    if deleteDouble < 0 then 0
    else if (length : ℤ) < deleteDouble then length
    else deleteDouble.toNat

/-- `splice` with a `begin` of 0 and the arguments from the third on as `args`. -/
def arrayProtoFuncSplice (deleteArgument : Option ℤ) (args : List V) : JSArray V :=
  let length := a.length
  let deleteCount := spliceDeleteCount length deleteArgument
  -- The array of the removed values is made first, and has to fit into a vector.
  if maxStorageVectorLength < deleteCount then a
  else
    let additionalArgs := args.length
    let a :=
      if additionalArgs < deleteCount then
        if isJSArray then a.shiftCount grants.moves prototype (deleteCount - additionalArgs)
        else
          let a := loopUp (fun a k => a.moveProperty prototype (grants.moves k) (k + deleteCount)
            (k + additionalArgs)) 0 (length - deleteCount) a
          loopDown (fun a k =>
              (a.deletePropertyByIndex (length - deleteCount + additionalArgs + k - 1)).array)
            (deleteCount - additionalArgs) a
      else if deleteCount < additionalArgs then
        if isJSArray then
          (a.unshiftCount grants.moves prototype grants.unshift (additionalArgs - deleteCount)).1
        else
          loopDown (fun a k => a.moveProperty prototype (grants.moves k) (k + deleteCount - 1)
            (toUnsigned (k + additionalArgs - 1))) (length - deleteCount) a
      else a
    (putArguments grants.arguments 0 args a).putLength (length - deleteCount + additionalArgs)

end Functions

/-! ## What the fast functions do -/

variable {a}

/-- The map of the array, if there is one, has no entry. -/
def NoEntries (a : JSArray V) : Prop := ∀ i, a.sparseValueMap.bind (·.find i) = none

theorem NoEntries.contents_eq (h : NoEntries a) (i : ℕ) : a.contents i = a.slot i := by
  unfold contents
  split
  · rfl
  · next hi =>
    rw [h i]
    exact (Slots.get_of_length_le (not_lt.mp hi)).symm

/-- An empty map lies behind every vector. -/
theorem NoEntries.fits (h : NoEntries a) (ha : a.Placed) (lo hi : ℕ) :
    ∀ m, a.sparseValueMap = some m → m.Fits lo hi := by
  intro m hm
  have hfits := ha.fits m hm
  refine ⟨hfits.sparseMode, hfits.lengthIsReadOnly, ?_⟩
  intro i e he
  have hnone := h i
  rw [hm] at hnone
  exact absurd (hnone.symm.trans he) (by simp)

theorem fillHoles_none (heaps : ℕ → Heap) (is : List ℕ) (a : JSArray V) :
    fillHoles heaps (fun _ => none) is a = a := by
  induction is generalizing a with
  | nil => rfl
  | cons i is ih =>
    unfold fillHoles
    rw [ih]
    split <;> rfl

theorem shiftCount_eq (a : JSArray V) (heaps : ℕ → Heap) (count : ℕ) (hzero : a.length ≠ 0) :
    ∃ num, a.shiftCount heaps (fun _ => none) count = { a with
      length := a.length - count
      numValuesInVector := num
      vector := a.vector.drop (min a.vectorLength count)
      indexBias := if a.vectorLength - min a.vectorLength count = 0 then a.indexBias
        else a.indexBias + min a.vectorLength count } := by
  unfold shiftCount
  rw [if_neg hzero]
  simp only [fillHoles_none]
  split <;> exact ⟨_, rfl⟩

/-- `shiftCount` on an array without a map moves every value down. -/
theorem shiftCount_spec (ha : a.Placed) (hno : NoEntries a) (heaps : ℕ → Heap) (count : ℕ)
    (hcount : count ≤ a.length) :
    (a.shiftCount heaps (fun _ => none) count).Placed
      ∧ ∀ i, (a.shiftCount heaps (fun _ => none) count).contents i = a.contents (i + count) := by
  by_cases hzero : a.length = 0
  · obtain rfl : count = 0 := by omega
    unfold shiftCount
    rw [if_pos hzero]
    exact ⟨ha, fun _ => rfl⟩
  · obtain ⟨num, hshape⟩ := shiftCount_eq a heaps count hzero
    rw [hshape]
    have hlen : (a.vector.drop (min a.vectorLength count)).length
        = a.vectorLength - min a.vectorLength count := length_drop ..
    constructor
    · refine ⟨ha.isExtensible, ?_, ?_, hno.fits ha _ _⟩
      · have := ha.length_le
        show a.length - count ≤ _
        omega
      · have := ha.capacity_le
        show List.length (List.drop _ _) + _ ≤ _
        rw [hlen]
        split
        · show a.vectorLength - min a.vectorLength count + a.indexBias ≤ _
          omega
        · show a.vectorLength - min a.vectorLength count + (a.indexBias + min a.vectorLength count) ≤ _
          omega
    · intro i
      rw [NoEntries.contents_eq hno, NoEntries.contents_eq (a := { a with
        length := a.length - count
        numValuesInVector := num
        vector := a.vector.drop (min a.vectorLength count)
        indexBias := _ }) hno]
      show (a.vector.drop (min a.vectorLength count))[i]?.join = a.vector[i + count]?.join
      rw [List.getElem?_drop]
      by_cases hle : count ≤ a.vectorLength
      · rw [min_eq_right hle, Nat.add_comm]
      · have h1 : a.vector.length ≤ min a.vectorLength count + i := by
          show a.vectorLength ≤ _
          omega
        have h2 : a.vector.length ≤ i + count := by
          omega
        rw [List.getElem?_eq_none h1, List.getElem?_eq_none h2]

/-- `unshiftCount` gets the slots it asks for: from the slots in front of the vector, by moving the
vector in its allocation, or from the heap. -/
def HasRoom (a : JSArray V) (heap : Heap) (count : ℕ) : Prop :=
  count ≤ a.indexBias ∨ (count ≤ maxStorageVectorLength - min a.vectorLength a.length ∧
      (heap.allocates = true ∨
        min maxStorageVectorLength (max baseVectorLen (min a.vectorLength a.length + count) * 2)
            < a.vectorLength + a.indexBias
          ∧ isDenseEnoughForVector (a.vectorLength + a.indexBias)
            (min a.vectorLength a.length + count) = true))

/-- Slots put in front of a vector, and empty ones behind. -/
theorem contents_unshift (hno : NoEntries a) (count k : ℕ) {vector : List (Option V)}
    (hvector : ∀ i, Slots.get vector i = a.slot i) (bias : ℕ) (i : ℕ) :
    contents { a with
        vector := List.replicate count none ++ vector ++ List.replicate k none
        indexBias := bias } i
      = if i < count then none else a.contents (i - count) := by
  rw [hno.contents_eq]
  refine (NoEntries.contents_eq ?_ i).trans ?_
  · exact hno
  show Slots.get (List.replicate count none ++ vector ++ List.replicate k none) i = _
  rw [Slots.get_append_replicate]
  unfold Slots.get
  split
  · next hi =>
    rw [List.getElem?_append_left (by rw [length_replicate]; exact hi),
      List.getElem?_replicate, if_pos hi]
    rfl
  · next hi =>
    rw [List.getElem?_append_right (by rw [length_replicate]; exact Nat.le_of_not_lt hi),
      length_replicate]
    exact hvector (i - count)

variable (ha : a.Consistent)

include ha

/-- The part of the vector below the length has all its values. -/
theorem Consistent.get_take_used (i : ℕ) :
    Slots.get (a.vector.take (min a.vectorLength a.length)) i = a.slot i := by
  unfold Slots.get
  rw [List.getElem?_take]
  split
  · rfl
  · next hi =>
    by_contra hne
    have h1 := ha.slot_lt i (Ne.symm hne)
    have h2 : i < a.vectorLength := Slots.lt_length_of_get (Ne.symm hne)
    omega

/-- The slots behind the length are empty. -/
theorem Consistent.drop_eq_replicate {n : ℕ} (hn : a.length ≤ n) :
    a.vector.drop n = List.replicate (a.vectorLength - n) none := by
  refine eq_replicate_iff.mpr ⟨length_drop .., ?_⟩
  intro o ho
  obtain ⟨j, hj⟩ := mem_iff_getElem?.mp ho
  rw [List.getElem?_drop] at hj
  by_contra hne
  have hslot : a.slot (n + j) ≠ none := by
    unfold slot Slots.get
    rw [hj]
    exact hne
  have := ha.slot_lt _ hslot
  omega

theorem unshiftCountSlowCase_eq {count : ℕ}
    (hroom : HasRoom a heap count) (hbias : ¬count ≤ a.indexBias) :
    ∃ k bias, a.unshiftCountSlowCase heap count = some { a with
        vector := List.replicate count none ++ a.vector.take (min a.vectorLength a.length)
          ++ List.replicate k none
        indexBias := bias }
      ∧ count + min a.vectorLength a.length + k + bias ≤ maxStorageVectorLength := by
  rcases hroom with hle | ⟨hcount, hroom⟩
  · exact absurd hle hbias
  have hcap := ha.capacity_le
  -- Behind the values there are only empty slots, in the old allocation as in a new one.
  have hdrop : ∀ p, (a.length < a.vectorLength → p ≤ a.vectorLength - a.length) →
      (¬a.length < a.vectorLength → p = 0) →
      a.vector.drop (a.vectorLength - p) = List.replicate p none := by
    intro p hp hzero
    by_cases hlt : a.length < a.vectorLength
    · rw [Consistent.drop_eq_replicate ha (by omega)]
      congr 1
      omega
    · rw [hzero hlt]
      exact drop_length
  unfold unshiftCountSlowCase
  simp only
  rw [if_neg (not_lt.mpr hcount)]
  generalize hreuse : (decide (min maxStorageVectorLength
      (max baseVectorLen (min a.vectorLength a.length + count) * 2) < a.vectorLength + a.indexBias)
    && isDenseEnoughForVector (a.vectorLength + a.indexBias)
      (min a.vectorLength a.length + count)) = reuse
  have hgranted : (!reuse && !heap.allocates) = false := by
    rcases hroom with halloc | ⟨hlarge, hdense⟩
    · rw [halloc]
      cases reuse <;> rfl
    · rw [← hreuse, hdense, decide_eq_true hlarge]
      rfl
  rw [hgranted]
  simp only [Bool.false_eq_true, if_false]
  generalize hstorage : (if reuse = true then a.vectorLength + a.indexBias else min
    maxStorageVectorLength (max baseVectorLen (min a.vectorLength a.length + count) * 2)) = storage
  have hsize : min a.vectorLength a.length + count ≤ storage ∧ storage ≤ maxStorageVectorLength := by
    cases hr : reuse with
    | true =>
      rw [hr] at hreuse hstorage
      rw [Bool.and_eq_true, decide_eq_true_iff] at hreuse
      rw [if_pos rfl] at hstorage
      omega
    | false =>
      rw [hr, if_neg Bool.false_ne_true] at hstorage
      omega
  generalize hpost : (if a.length < a.vectorLength then min ((a.vectorLength - a.length) / 2)
    (storage - (min a.vectorLength a.length + count)) else 0) = post
  have hle : post ≤ storage - (min a.vectorLength a.length + count) := by
    split at hpost <;> omega
  have htail : a.vector.drop (a.vectorLength - post) = List.replicate post none := by
    refine hdrop post ?_ ?_
    · intro hlt
      rw [if_pos hlt] at hpost
      omega
    · intro hlt
      rw [if_neg hlt] at hpost
      exact hpost.symm
  refine ⟨post, storage - (min a.vectorLength a.length + count + post), ?_, ?_⟩
  · rw [htail, ite_self]
  · omega

/-- With room for them, `unshiftCount` on an array without a map puts empty slots in front and moves
every value up. -/
theorem unshiftCount_spec (hno : NoEntries a) (heaps : ℕ → Heap)
    {count : ℕ} (hroom : HasRoom a heap count) :
    (a.unshiftCount heaps (fun _ => none) heap count).1.Placed
      ∧ (a.unshiftCount heaps (fun _ => none) heap count).1.length = a.length
      ∧ ∀ i, (a.unshiftCount heaps (fun _ => none) heap count).1.contents i
        = if i < count then none else a.contents (i - count) := by
  have hcap := ha.capacity_le
  have hlen : ∀ (vector : List (Option V)) (k : ℕ),
      (List.replicate count none ++ vector ++ List.replicate k none : List (Option V)).length
        = count + vector.length + k := by
    intro vector k
    rw [length_append, length_append, length_replicate, length_replicate]
  unfold unshiftCount
  simp only [fillHoles_none, ite_self]
  by_cases hbias : count ≤ a.indexBias
  · rw [if_pos hbias]
    have hcontents := contents_unshift hno count 0 (fun i => (rfl : Slots.get a.vector i = a.slot i))
      (a.indexBias - count)
    rw [replicate_zero, append_nil] at hcontents
    refine ⟨⟨ha.isExtensible, ha.length_le, ?_, hno.fits ha.toPlaced _ _⟩, rfl, hcontents⟩
    show List.length (_ ++ _) + (a.indexBias - count) ≤ _
    have := hlen a.vector 0
    rw [replicate_zero, append_nil] at this
    rw [this]
    show count + a.vectorLength + 0 + _ ≤ _
    omega
  · rw [if_neg hbias]
    obtain ⟨k, bias, heq, hle⟩ := unshiftCountSlowCase_eq ha hroom hbias
    rw [heq]
    refine ⟨⟨ha.isExtensible, ha.length_le, ?_, hno.fits ha.toPlaced _ _⟩, rfl, ?_⟩
    · show List.length (_ ++ _) + bias ≤ _
      rw [hlen, length_take]
      omega
    · exact contents_unshift hno _ _ (Consistent.get_take_used ha) bias

omit ha

/-! ## What the loops do -/

/-- The array is still placed, has not become shorter, and has the contents `f`. -/
structure Reaches (a b : JSArray V) (f : ℕ → Option V) : Prop where
  placed : b.Placed
  length_le : a.length ≤ b.length
  contents_eq : b.contents = f

theorem Reaches.refl (h : a.Placed) : Reaches a a a.contents := ⟨h, le_rfl, rfl⟩

theorem Reaches.trans {b c : JSArray V} {f g : ℕ → Option V} (h : Reaches a b f)
    (h' : Reaches b c g) : Reaches a c g :=
  ⟨h'.placed, h.length_le.trans h'.length_le, h'.contents_eq⟩

theorem reaches_putByIndex (h : a.Placed) (heap : Heap) (hi : i ≤ maxArrayIndex) (v : V) :
    Reaches a (a.putByIndex heap i (some v)).array (Function.update a.contents i (some v)) := by
  have hb := (h.putByIndex heap hi v).becomes
  refine ⟨hb.placed, ?_, hb.contents_funext⟩
  rw [hb.length_eq]
  exact le_max_left _ _

theorem reaches_deletePropertyByIndex (h : a.Placed) (hi : i ≤ maxArrayIndex) :
    Reaches a (a.deletePropertyByIndex i).array (Function.update a.contents i none) := by
  have hb := (h.deletePropertyByIndex hi).becomes
  exact ⟨hb.placed, hb.length_eq.ge, hb.contents_funext⟩

/-- The arguments land at the indices from `k` on. -/
theorem reaches_putArguments (h : a.Placed) (heaps : ℕ → Heap) (k : ℕ) (args : List V)
    (hlen : k + args.length ≤ maxArrayIndex + 1) :
    Reaches a (putArguments heaps k args a)
      (fun i => if k ≤ i ∧ i < k + args.length then args[i - k]? else a.contents i) := by
  induction args generalizing k a with
  | nil =>
    refine ⟨h, le_rfl, ?_⟩
    funext i
    rw [if_neg (by simp only [length_nil]; omega)]
    rfl
  | cons v args ih =>
    rw [length_cons] at hlen
    have hput := reaches_putByIndex h (heaps k) (i := k) (by omega) v
    have hrest := ih hput.placed (k + 1) (by omega)
    refine ⟨hrest.placed, hput.length_le.trans hrest.length_le, ?_⟩
    show (putArguments heaps (k + 1) args _).contents = _
    rw [hrest.contents_eq, hput.contents_eq]
    funext i
    rw [length_cons, Function.update_apply]
    by_cases hi : i = k
    · subst hi
      simp
    · by_cases hin : k ≤ i ∧ i < k + (args.length + 1)
      · have hsub : i - k = i - (k + 1) + 1 := by omega
        rw [if_pos (by omega), if_pos hin, hsub, List.getElem?_cons_succ]
      · rw [if_neg (by omega), if_neg hi, if_neg hin]

section Loops

variable [Inhabited V]

theorem getProperty_eq (h : a.Placed) (hi : i < a.length) :
    a.getProperty (fun _ => none) i = a.contents i := by
  have hmax : i ≤ maxArrayIndex := by
    have := h.length_le
    unfold maxArrayIndex
    omega
  unfold getProperty
  rw [h.getOwnPropertySlotByIndex_eq hmax, if_pos hi]
  cases a.contents i <;> rfl

/-- One turn of a loop writes to `target` what is at `source`. -/
theorem reaches_moveProperty (h : a.Placed) (heap : Heap) (source target : ℕ)
    (hsource : source < a.length) (htarget : target ≤ maxArrayIndex) :
    Reaches a (a.moveProperty (fun _ => none) heap source target)
      (Function.update a.contents target (a.contents source)) := by
  unfold moveProperty
  rw [getProperty_eq h hsource]
  cases hv : a.contents source with
  | none => exact reaches_deletePropertyByIndex h htarget
  | some v => exact reaches_putByIndex h heap htarget v

/-- A turn with any target leaves the array placed. -/
theorem placed_moveProperty (h : a.Placed) (heap : Heap) (prototype : ℕ → Option V)
    (source target : ℕ) : (a.moveProperty prototype heap source target).Placed := by
  have hproperty : ∀ p : Option V, Placed { a with property := p } := fun p => { h with }
  unfold moveProperty
  by_cases htarget : target ≤ maxArrayIndex
  · split
    · exact (h.putByIndex heap htarget _).becomes.placed
    · exact (h.deletePropertyByIndex htarget).becomes.placed
  · have hvec : ¬target < a.vectorLength := by
      have := h.capacity_le
      unfold maxStorageVectorLength at this
      unfold maxArrayIndex at htarget
      omega
    split
    · unfold putByIndex putProperty
      rw [if_neg hvec, if_pos (not_le.mp htarget)]
      split
      · exact hproperty _
      · exact h
    · unfold deletePropertyByIndex
      rw [if_pos (not_le.mp htarget)]
      exact hproperty none

/-- A loop upwards that moves values from `k + del` down to `k + add`. -/
theorem reaches_loopUp (heaps : ℕ → Heap) (add del : ℕ) (hlt : add < del) (n begin : ℕ)
    (h : a.Placed) (hlen : begin + n + del ≤ a.length) :
    Reaches a
      (loopUp (fun a k => a.moveProperty (fun _ => none) (heaps k) (k + del) (k + add)) begin n a)
      (fun i => if begin + add ≤ i ∧ i < begin + add + n then a.contents (i - add + del)
        else a.contents i) := by
  induction n generalizing begin a with
  | zero =>
    refine ⟨h, le_rfl, ?_⟩
    funext i
    rw [if_neg (by omega)]
    rfl
  | succ n ih =>
    have hmax : begin + add ≤ maxArrayIndex := by
      have := h.length_le
      unfold maxArrayIndex
      omega
    have hmove := reaches_moveProperty h (heaps begin) (begin + del) _ (by omega) hmax
    have hrest := ih (begin + 1) hmove.placed (by have := hmove.length_le; omega)
    refine ⟨hrest.placed, hmove.length_le.trans hrest.length_le, ?_⟩
    show (loopUp _ (begin + 1) n _).contents = _
    rw [hrest.contents_eq, hmove.contents_eq]
    funext i
    simp only [Function.update_apply]
    by_cases hi : i = begin + add
    · rw [if_neg (by omega), if_pos hi, if_pos (by omega)]
      congr 1
      omega
    · by_cases hin : begin + add ≤ i ∧ i < begin + add + (n + 1)
      · rw [if_pos (by omega), if_neg (by omega), if_pos hin]
      · rw [if_neg (by omega), if_neg hi, if_neg hin]

/-- A loop downwards that moves values from `k + del - 1` up to `k + add - 1`. -/
theorem reaches_loopDown (heaps : ℕ → Heap) (add del : ℕ) (hlt : del < add) (n : ℕ) (h : a.Placed)
    (hlen : n + del ≤ a.length) (hmax : n + add ≤ maxArrayIndex + 1) :
    Reaches a
      (loopDown (fun a k => a.moveProperty (fun _ => none) (heaps k) (k + del - 1)
        (toUnsigned (k + add - 1))) n a)
      (fun i => if add ≤ i ∧ i < add + n then a.contents (i - add + del) else a.contents i) := by
  induction n generalizing a with
  | zero =>
    refine ⟨h, le_rfl, ?_⟩
    funext i
    rw [if_neg (by omega)]
    rfl
  | succ n ih =>
    have htarget : toUnsigned (n + 1 + add - 1) = n + add := by
      unfold toUnsigned
      unfold maxArrayIndex at hmax
      omega
    have hmove := reaches_moveProperty h (heaps (n + 1)) (n + 1 + del - 1)
      (toUnsigned (n + 1 + add - 1)) (by omega) (by rw [htarget]; omega)
    have hrest := ih hmove.placed (by have := hmove.length_le; omega) (by omega)
    refine ⟨hrest.placed, hmove.length_le.trans hrest.length_le, ?_⟩
    show (loopDown _ n _).contents = _
    rw [hrest.contents_eq, hmove.contents_eq, htarget]
    funext i
    simp only [Function.update_apply]
    by_cases hi : i = n + add
    · rw [if_neg (by omega), if_pos hi, if_pos (by omega)]
      congr 1
      omega
    · by_cases hin : add ≤ i ∧ i < add + (n + 1)
      · rw [if_pos (by omega), if_neg (by omega), if_pos hin]
      · rw [if_neg (by omega), if_neg hi, if_neg hin]

end Loops

theorem placed_loopDown
    (hbody : ∀ (a : JSArray V) (k : ℕ), a.Placed → (body a k).Placed) (n : ℕ) (h : a.Placed) :
    (loopDown body n a).Placed := by
  induction n generalizing a with
  | zero => exact h
  | succ n ih => exact ih (hbody a (n + 1) h)

/-- A loop of deletions leaves what lies below it. -/
theorem reaches_deletions (base n : ℕ) (h : a.Placed) (hmax : base + n ≤ maxArrayIndex + 1) :
    ∃ f, Reaches a (loopDown (fun a k => (a.deletePropertyByIndex (base + k - 1)).array) n a) f
      ∧ ∀ i < base, f i = a.contents i := by
  induction n generalizing a with
  | zero => exact ⟨a.contents, .refl h, fun _ _ => rfl⟩
  | succ n ih =>
    have hdelete := reaches_deletePropertyByIndex h (i := base + (n + 1) - 1) (by omega)
    obtain ⟨f, hrest, hf⟩ := ih hdelete.placed (by omega)
    refine ⟨f, hdelete.trans hrest, ?_⟩
    intro i hi
    rw [hf i hi, hdelete.contents_eq, Function.update_apply, if_neg (by omega)]

theorem loopUp_succ (body : JSArray V → ℕ → JSArray V) (begin n : ℕ) (a : JSArray V) :
    loopUp body (begin + 1) n a = loopUp (fun a k => body a (k + 1)) begin n a := by
  induction n generalizing begin a with
  | zero => rfl
  | succ n ih => exact ih (begin + 1) (body a (begin + 1))

/-! ## Both paths -/

/-- The same length, and the same own property at every index. -/
def SameArray [Inhabited V] (a b : JSArray V) : Prop :=
  a.length = b.length
    ∧ ∀ i ≤ maxArrayIndex, a.getOwnPropertySlotByIndex i = b.getOwnPropertySlotByIndex i

/-- The arguments of a call; their number is an `int`. -/
abbrev Arguments (V : Type*) := { args : List V // args.length < 2 ^ 31 }

theorem shiftCount_map (a : JSArray V) (heaps : ℕ → Heap) (count : ℕ) :
    (a.shiftCount heaps (fun _ => none) count).sparseValueMap = a.sparseValueMap := by
  by_cases hzero : a.length = 0
  · unfold shiftCount
    rw [if_pos hzero]
  · obtain ⟨num, hshape⟩ := shiftCount_eq a heaps count hzero
    rw [hshape]

/-- An array outside sparse mode takes any length. -/
theorem length_putLength (hm : a.sparseValueMap = some m)
    (hs : m.sparseMode = false) (hr : m.lengthIsReadOnly = false) (n : ℕ) :
    (a.putLength n).length = toUnsigned n := by
  unfold putLength setLength
  rw [hm]
  simp only [hs, hr, Bool.false_eq_true, if_false]
  split <;> rfl

section Paths

variable [Inhabited V] {b c : JSArray V}

theorem toUnsigned_le (n : ℕ) : toUnsigned n ≤ 0xFFFFFFFF := by
  unfold toUnsigned
  omega

/-- After the arguments and the length are put, two arrays are the same that agree between them. -/
theorem same_putLength (hb : b.Placed) (hc : c.Placed) (args : Arguments V)
    (heaps heaps' : ℕ → Heap)
    (n : ℕ) (h : ∀ i, args.1.length ≤ i → i < toUnsigned n → b.contents i = c.contents i) :
    SameArray ((putArguments heaps 0 args.1 b).putLength n)
      ((putArguments heaps' 0 args.1 c).putLength n) := by
  have hargs : 0 + args.1.length ≤ maxArrayIndex + 1 := by
    unfold maxArrayIndex
    omega
  have hb' := reaches_putArguments hb heaps 0 args.1 hargs
  have hc' := reaches_putArguments hc heaps' 0 args.1 hargs
  obtain ⟨hbcut, -⟩ := hb'.placed.setLength (toUnsigned_le n) false
  obtain ⟨hccut, -⟩ := hc'.placed.setLength (toUnsigned_le n) false
  refine ⟨hbcut.length_eq.trans hccut.length_eq.symm, ?_⟩
  intro i hi
  show JSArray.getOwnPropertySlotByIndex (JSArray.setLength _ _ _).array i
    = JSArray.getOwnPropertySlotByIndex (JSArray.setLength _ _ _).array i
  rw [hbcut.placed.getOwnPropertySlotByIndex_eq hi, hccut.placed.getOwnPropertySlotByIndex_eq hi,
    hbcut.length_eq, hccut.length_eq]
  split
  · next hlt =>
    rw [hbcut.contents_eq i hlt, hccut.contents_eq i hlt, hb'.contents_eq, hc'.contents_eq]
    simp only
    split
    · rfl
    · next hout => rw [h i (by omega) hlt]
  · rfl

theorem SameArray.refl (a : JSArray V) : SameArray a a := ⟨rfl, fun _ _ => rfl⟩

/-- Without arguments nothing but the length is put. -/
theorem same_putLength_nil (hb : b.Placed) (hc : c.Placed) (n : ℕ)
    (h : ∀ i < toUnsigned n, b.contents i = c.contents i) :
    SameArray (b.putLength n) (c.putLength n) :=
  same_putLength hb hc ⟨[], by simp⟩ (fun _ => ⟨true, 0⟩) (fun _ => ⟨true, 0⟩) n fun i _ hi => h i hi

/-- The loop of `shift` moves every value down. -/
theorem shiftLoop_spec (ha : a.Placed) (hzero : a.length ≠ 0) (heaps : ℕ → Heap) :
    ((loopUp (fun a k => a.moveProperty (fun _ => none) (heaps k) k (k - 1)) 1 (a.length - 1)
        a).deletePropertyByIndex (a.length - 1)).array.Placed
      ∧ ∀ i < a.length - 1,
        ((loopUp (fun a k => a.moveProperty (fun _ => none) (heaps k) k (k - 1)) 1 (a.length - 1)
          a).deletePropertyByIndex (a.length - 1)).array.contents i = a.contents (i + 1) := by
  have hle := ha.length_le
  have hloop := reaches_loopUp (fun k => heaps (k + 1)) 0 1 (by omega)
    (a.length - 1) 0 ha (by omega)
  rw [loopUp_succ]
  have hdelete := reaches_deletePropertyByIndex hloop.placed (i := a.length - 1)
    (by unfold maxArrayIndex; omega)
  refine ⟨hdelete.placed, ?_⟩
  intro i hi
  refine (congrFun hdelete.contents_eq i).trans ?_
  rw [Function.update_apply, if_neg (by omega), hloop.contents_eq]
  simp only
  rw [if_pos (by omega)]
  rfl

theorem shift_same (ha : a.Placed) (hno : a.length = 0 ∨ NoEntries a) (grants grants' : Grants) :
    SameArray (a.arrayProtoFuncShift true grants (fun _ => none))
      (a.arrayProtoFuncShift false grants' (fun _ => none)) := by
  unfold arrayProtoFuncShift
  by_cases hzero : a.length = 0
  · simp only [if_pos hzero]
    exact .refl _
  · simp only [if_neg hzero]
    obtain ⟨hfast, hvalues⟩ := shiftCount_spec ha (hno.resolve_left hzero) grants.moves 1
      (by omega)
    obtain ⟨hloop, hmoved⟩ := shiftLoop_spec ha hzero grants'.moves
    refine same_putLength_nil hfast hloop _ ?_
    intro i hi
    have hi : i < a.length - 1 := by
      unfold toUnsigned at hi
      omega
    exact (hvalues i).trans (hmoved i hi).symm

/-- What `shift` finds at an index after its loop. -/
theorem shiftLoop_lookup (ha : a.Placed) (grants : Grants) (hi : i + 1 < a.length) :
    (a.arrayProtoFuncShift false grants (fun _ => none)).getOwnPropertySlotByIndex i
      = (a.contents (i + 1)).map fun v => .value (some v) := by
  have hzero : a.length ≠ 0 := by omega
  have hle := ha.length_le
  obtain ⟨hplaced, hmoved⟩ := shiftLoop_spec ha hzero grants.moves
  obtain ⟨hcuts, -⟩ := hplaced.setLength (toUnsigned_le (a.length - 1)) false
  unfold arrayProtoFuncShift
  simp only [if_neg hzero]
  refine (hcuts.placed.getOwnPropertySlotByIndex_eq (by unfold maxArrayIndex; omega)).trans ?_
  have hlt : i < toUnsigned (a.length - 1) := by
    unfold toUnsigned
    omega
  rw [hcuts.length_eq, if_pos hlt, hcuts.contents_eq _ hlt, hmoved i (by omega)]

/-- `shiftCount` leaves an entry of the map at its index. -/
theorem shiftFast_lookup (ha : a.Placed)
    (hm : a.sparseValueMap = some m) (grants : Grants) (hvec : a.vectorLength ≤ i)
    (hi : i + 1 < a.length) :
    (a.arrayProtoFuncShift true grants (fun _ => none)).getOwnPropertySlotByIndex i
      = (m.find i).map (·.get) := by
  have hzero : a.length ≠ 0 := by omega
  have hle := ha.length_le
  have hfits := ha.fits m hm
  obtain ⟨num, hshape⟩ := shiftCount_eq a grants.moves 1 hzero
  have hlen : toUnsigned (a.length - 1) = a.length - 1 := by
    unfold toUnsigned
    omega
  have hdrop : ¬i < (a.vector.drop (min a.vectorLength 1)).length := by
    rw [length_drop]
    show ¬i < a.vectorLength - _
    omega
  unfold arrayProtoFuncShift putLength setLength getOwnPropertySlotByIndex
  simp only [if_neg hzero, if_true, hlen, hshape, hm, hfits.lengthIsReadOnly, Bool.false_eq_true,
    if_false, lt_irrefl]
  rw [if_neg (by omega)]
  exact if_neg hdrop

theorem unshift_same (ha : a.Consistent) (grants grants' : Grants) (args : Arguments V)
    (hfast : args.1.length = 0 ∨ a.length = 0
      ∨ (NoEntries a ∧ HasRoom a grants.unshift args.1.length)) :
    SameArray (a.arrayProtoFuncUnShift true grants (fun _ => none) args.1)
      (a.arrayProtoFuncUnShift false grants' (fun _ => none) args.1) := by
  unfold arrayProtoFuncUnShift
  simp only [Bool.false_eq_true]
  by_cases hmove : args.1.length ≠ 0 ∧ a.length ≠ 0
  · obtain ⟨hno, hroom⟩ := (hfast.resolve_left hmove.1).resolve_left hmove.2
    rw [if_pos hmove, if_pos hmove]
    obtain ⟨hplaced, hlength, hvalues⟩ := unshiftCount_spec ha hno grants.moves hroom
    have hle := ha.length_le
    by_cases hwrap : a.length + args.1.length ≤ 0xFFFFFFFF
    · have hloop := reaches_loopDown grants'.moves args.1.length 0 (by omega)
        a.length ha.toPlaced (by omega) (by unfold maxArrayIndex; omega)
      refine same_putLength hplaced hloop.placed args _ _ _ ?_
      intro i hargs hi
      have hi : i < a.length + args.1.length := by
        unfold toUnsigned at hi
        omega
      rw [hvalues, if_neg (by omega), hloop.contents_eq]
      simp only
      rw [if_pos (by omega)]
      rfl
    · -- The new length wraps around and leaves nothing but arguments.
      refine same_putLength hplaced (placed_loopDown (fun a k ha => ?_) _ ha.toPlaced) args _ _ _ ?_
      · exact placed_moveProperty ha _ _ _ _
      · intro i hargs hi
        unfold toUnsigned at hi
        omega
  · rw [if_neg hmove, if_neg hmove]
    exact same_putLength ha.toPlaced ha.toPlaced args _ _ _ fun _ _ _ => rfl

theorem spliceDeleteCount_le (length : ℕ) (deleteArgument : Option ℤ) :
    spliceDeleteCount length deleteArgument ≤ length := by
  unfold spliceDeleteCount
  split
  · exact le_rfl
  · split
    · exact Nat.zero_le _
    · split
      · exact le_rfl
      · omega

theorem same_of_length_eq_zero (hb : b.length = 0) (hc : c.length = 0) : SameArray b c := by
  refine ⟨hb.trans hc.symm, ?_⟩
  intro i hi
  unfold getOwnPropertySlotByIndex
  rw [hb, hc, if_pos (Nat.zero_le i), if_pos (Nat.zero_le i), if_neg (not_lt.mpr hi),
    if_neg (not_lt.mpr hi)]

section

variable (ha : a.Consistent) (grants grants' : Grants) {deleteCount : ℕ}
  (hle : deleteCount ≤ a.length) (args : Arguments V)
include ha hle

theorem splice_shrink_same (hlt : args.1.length < deleteCount)
    (hfast : NoEntries a ∨ deleteCount = a.length ∧ args.1.length = 0) :
    SameArray
      ((putArguments grants.arguments 0 args.1
          (a.shiftCount grants.moves (fun _ => none) (deleteCount - args.1.length))).putLength
        (a.length - deleteCount + args.1.length))
      ((putArguments grants'.arguments 0 args.1
          (loopDown (fun b k => (b.deletePropertyByIndex
              (a.length - deleteCount + args.1.length + k - 1)).array)
            (deleteCount - args.1.length)
            (loopUp (fun b k => b.moveProperty (fun _ => none) (grants'.moves k) (k + deleteCount)
              (k + args.1.length)) 0 (a.length - deleteCount) a))).putLength
        (a.length - deleteCount + args.1.length)) := by
  have hmax := ha.length_le
  have hloop := reaches_loopUp grants'.moves _ _ hlt (a.length - deleteCount) 0 ha.toPlaced (by omega)
  obtain ⟨f, hdeletions, hf⟩ := reaches_deletions (a.length - deleteCount + args.1.length)
    (deleteCount - args.1.length) hloop.placed (by unfold maxArrayIndex; omega)
  by_cases hno : NoEntries a
  · obtain ⟨hplaced, hvalues⟩ := shiftCount_spec ha.toPlaced hno grants.moves
      (deleteCount - args.1.length) (by omega)
    refine same_putLength hplaced hdeletions.placed args _ _ _ ?_
    intro i hargs hi
    have hi : i < a.length - deleteCount + args.1.length := by
      unfold toUnsigned at hi
      omega
    rw [hvalues, hdeletions.contents_eq, hf i hi, hloop.contents_eq]
    simp only
    rw [if_pos (by omega)]
    congr 1
    omega
  · -- Nothing of the array is left, and so nothing of what was in the map.
    obtain ⟨hall, hnil⟩ := hfast.resolve_left hno
    obtain ⟨args, hbound⟩ := args
    obtain rfl : args = [] := eq_nil_of_length_eq_zero hnil
    have hzero : toUnsigned (a.length - deleteCount + 0) = 0 := by
      rw [hall, Nat.sub_self]
      rfl
    cases hm : a.sparseValueMap with
    | none =>
      refine absurd (fun i => ?_) hno
      rw [hm]
      rfl
    | some m =>
      have hfits := ha.fits m hm
      refine same_of_length_eq_zero ?_ ?_
      · refine (length_putLength (m := m) ?_ hfits.sparseMode hfits.lengthIsReadOnly _).trans hzero
        exact (shiftCount_map ..).trans hm
      · exact (hdeletions.placed.setLength (toUnsigned_le _) false).1.length_eq.trans hzero

theorem splice_grow_same (hlt : deleteCount < args.1.length)
    (hno : NoEntries a) (hroom : HasRoom a grants.unshift (args.1.length - deleteCount)) :
    SameArray
      ((putArguments grants.arguments 0 args.1
          (a.unshiftCount grants.moves (fun _ => none) grants.unshift
            (args.1.length - deleteCount)).1).putLength
        (a.length - deleteCount + args.1.length))
      ((putArguments grants'.arguments 0 args.1
          (loopDown (fun b k => b.moveProperty (fun _ => none) (grants'.moves k)
            (k + deleteCount - 1) (toUnsigned (k + args.1.length - 1)))
            (a.length - deleteCount) a)).putLength
        (a.length - deleteCount + args.1.length)) := by
  obtain ⟨hplaced, hlength, hvalues⟩ := unshiftCount_spec ha hno grants.moves hroom
  have hmax := ha.length_le
  by_cases hwrap : a.length - deleteCount + args.1.length ≤ 0xFFFFFFFF
  · have hloop := reaches_loopDown grants'.moves _ _ hlt (a.length - deleteCount) ha.toPlaced
      (by omega) (by unfold maxArrayIndex; omega)
    refine same_putLength hplaced hloop.placed args _ _ _ ?_
    intro i hargs hi
    have hi : i < a.length - deleteCount + args.1.length := by
      unfold toUnsigned at hi
      omega
    rw [hvalues, if_neg (by omega), hloop.contents_eq]
    simp only
    rw [if_pos (by omega)]
    congr 1
    omega
  · -- The new length wraps around and leaves nothing but arguments.
    refine same_putLength hplaced (placed_loopDown (fun b k hb => ?_) _ ha.toPlaced) args _ _ _ ?_
    · exact placed_moveProperty hb _ _ _ _
    · intro i hargs hi
      unfold toUnsigned at hi
      omega

end

end Paths

/-! ## Calls on an array that can be reached -/

inductive PrototypeCall (V : Type*) where
  | shift
  | unshift (args : Arguments V)
  | splice (deleteArgument : Option ℤ) (args : Arguments V)

variable [Inhabited V]

def callPrototype (a : JSArray V) (isJSArray : Bool) (grants : Grants) (prototype : ℕ → Option V) :
    PrototypeCall V → JSArray V
  | .shift => a.arrayProtoFuncShift isJSArray grants prototype
  | .unshift args => a.arrayProtoFuncUnShift isJSArray grants prototype args.1
  | .splice deleteArgument args =>
    a.arrayProtoFuncSplice isJSArray grants prototype deleteArgument args.1

/-- A fast function is not called, or it has no map entries to move and all the slots it needs, or
nothing of the array is left after the call. -/
def FastMovesAll (a : JSArray V) (heap : Heap) : PrototypeCall V → Prop
  | .shift => a.length = 0 ∨ NoEntries a
  | .unshift args =>
    args.1.length = 0 ∨ a.length = 0 ∨ (NoEntries a ∧ HasRoom a heap args.1.length)
  | .splice deleteArgument args =>
    let deleteCount := spliceDeleteCount a.length deleteArgument
    maxStorageVectorLength < deleteCount ∨ args.1.length = deleteCount
      ∨ (args.1.length < deleteCount
          ∧ (NoEntries a ∨ deleteCount = a.length ∧ args.1.length = 0))
      ∨ (deleteCount < args.1.length ∧ NoEntries a
          ∧ HasRoom a heap (args.1.length - deleteCount))

theorem splice_same (ha : a.Consistent) (grants grants' : Grants) (deleteArgument : Option ℤ)
    (args : Arguments V) (hfast : FastMovesAll a grants.unshift (.splice deleteArgument args)) :
    SameArray (a.arrayProtoFuncSplice true grants (fun _ => none) deleteArgument args.1)
      (a.arrayProtoFuncSplice false grants' (fun _ => none) deleteArgument args.1) := by
  have hle := spliceDeleteCount_le a.length deleteArgument
  unfold arrayProtoFuncSplice
  unfold FastMovesAll at hfast
  simp only at hfast ⊢
  generalize spliceDeleteCount a.length deleteArgument = deleteCount at hfast hle ⊢
  by_cases hlarge : maxStorageVectorLength < deleteCount
  · rw [if_pos hlarge, if_pos hlarge]
    exact .refl a
  · rw [if_neg hlarge, if_neg hlarge]
    have hfast := hfast.resolve_left hlarge
    simp only [if_true, if_false]
    rcases lt_trichotomy args.1.length deleteCount with hlt | heq | hgt
    · simp only [if_pos hlt]
      refine splice_shrink_same ha grants grants' hle args hlt ?_
      rcases hfast with h | h | h
      · omega
      · exact h.2
      · omega
    · simp only [heq, lt_irrefl]
      exact same_putLength ha.toPlaced ha.toPlaced args _ _ _ fun _ _ _ => rfl
    · simp only [if_neg (not_lt.mpr hgt.le), if_pos hgt]
      rcases hfast with h | h | h
      · omega
      · omega
      · exact splice_grow_same ha grants grants' hle args hgt h.2.1 h.2.2

/-- An array that calls lead to is consistent. -/
theorem Created.consistent_run {a : JSArray V} (h : Created a s)
    (calls : List (Heap × ArrayCall V)) : (a.run calls).1.Consistent := by
  have hundisturbed : ∀ (calls : List (ArrayCall V)) (s : ArrayObject V),
      Undisturbed (fun _ => none) s calls := by
    intro calls
    induction calls with
    | nil => exact fun _ => trivial
    | cons c calls ih =>
      intro s
      refine ⟨?_, ih _⟩
      cases c with
      | pop => exact .inr (.inr rfl)
      | push v => exact .inl rfl
      | _ => trivial
  have key : ∀ (calls : List (Heap × ArrayCall V)) (a : JSArray V) (s : ArrayObject V),
      Represents a s → (a.run calls).1.Consistent := by
    intro calls
    induction calls with
    | nil => exact fun a s h => h.consistent
    | cons call calls ih =>
      intro a s h
      exact ih _ _ (exec_represents h call.1 (hundisturbed [call.2] s).1)
  exact key calls a s h.represents

/-- **The fast functions agree with the loops on an array whose map has no entry.**  On any array
that puts, deletions, new lengths, pushes and pops lead to, with a prototype chain without indices,
`shift`, `unshift` and `splice` at index 0 leave the same array whether they take the fast path or
the loop, if the map has no entry and `unshiftCount` gets the slots it needs. -/
theorem callPrototype_same {a : JSArray V} {s : ArrayObject V} (hcreated : Created a s)
    (calls : List (Heap × ArrayCall V)) (grants grants' : Grants) (c : PrototypeCall V)
    (hfast : FastMovesAll (a.run calls).1 grants.unshift c) :
    SameArray ((a.run calls).1.callPrototype true grants (fun _ => none) c)
      ((a.run calls).1.callPrototype false grants' (fun _ => none) c) := by
  have ha := hcreated.consistent_run calls
  cases c with
  | shift => exact shift_same ha.toPlaced hfast grants grants'
  | unshift args => exact unshift_same ha grants grants' args hfast
  | splice deleteArgument args => exact splice_same ha grants grants' deleteArgument args hfast

/-- Two of three values, one a hole, give way to one. -/
theorem callPrototype_same_splice :
    let calls : List (Heap × ArrayCall (Option ℕ)) := [(⟨true, 0⟩, .deletePropertyByIndex ⟨1, by decide⟩)]
    let grants : Grants := ⟨fun _ => ⟨true, 0⟩, ⟨true, 0⟩, fun _ => ⟨true, 0⟩⟩
    let a := ((createInitialized [some 1, some 2, some 3]).run calls).1
    SameArray (a.callPrototype true grants (fun _ => none) (.splice (some 2) ⟨[some 9], by decide⟩))
      (a.callPrototype false grants (fun _ => none) (.splice (some 2) ⟨[some 9], by decide⟩)) := by
  intro calls grants a
  refine callPrototype_same (.initialized _ (by decide)) calls grants grants _ ?_
  exact .inr (.inr (.inl ⟨by decide, .inl fun _ => rfl⟩))

/-- After `a[20000] = 7` on an empty array the value is in the map, and `shift` loses it. -/
theorem not_same_shift :
    let a := ((create 0).run [(⟨true, 0⟩, ArrayCall.putByIndex ⟨20000, by decide⟩ (some 7))]).1
    let grants : Grants := ⟨fun _ => ⟨true, 0⟩, ⟨true, 0⟩, fun _ => ⟨true, 0⟩⟩
    ¬SameArray (a.callPrototype true grants (fun _ => none) .shift)
      (a.callPrototype false grants (fun _ => none) .shift) := by
  intro a grants hsame
  have ha : a.Consistent := (Created.create (V := Option ℕ) 0).consistent_run _
  have hlen : a.length = 20001 := rfl
  have hfast : (a.callPrototype true grants (fun _ => none) .shift).getOwnPropertySlotByIndex 19999
      = none :=
    (shiftFast_lookup ha.toPlaced rfl grants (show (4 : ℕ) ≤ 19999 by decide)
      (by rw [hlen]; decide)).trans rfl
  have hloop : (a.callPrototype false grants (fun _ => none) .shift).getOwnPropertySlotByIndex 19999
      = (a.contents 20000).map fun v => .value (some v) :=
    shiftLoop_lookup ha.toPlaced grants (by rw [hlen]; decide)
  have hneq := hsame.2 19999 (by decide)
  rw [hfast, hloop] at hneq
  cases hneq

end JSArray
end JavaScriptCore
end WebKit
