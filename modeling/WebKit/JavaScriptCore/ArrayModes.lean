import WebKit.JavaScriptCore.ArrayStorage
import WebKit.JavaScriptCore.DefineOwnProperty

/-!
# The modes of an array

An array whose length is read-only is in sparse mode, and an array in sparse mode has no vector:
`Moded`.  No operation but a definition or `preventExtensions` changes a mode (`KeepsMode`).

Script may run in the middle of a `pop`, when it calls a getter, and of a definition of the length,
when it converts a value.  The calls on an array are therefore steps of a machine with a stack of
unfinished operations.
-/

namespace WebKit
namespace JavaScriptCore

open Attributes

variable {V : Type*}

namespace SparseArrayValueMap

variable (m : SparseArrayValueMap V) (i : ℕ)

@[simp] theorem sparseMode_add : (m.add i).1.sparseMode = m.sparseMode := by
  unfold add
  split <;> rfl

@[simp] theorem lengthIsReadOnly_add : (m.add i).1.lengthIsReadOnly = m.lengthIsReadOnly := by
  unfold add
  split <;> rfl

section

variable (value : Option V)

/-- What `put` does to the map: it adds the entry, and it may write it. -/
theorem put_fst_eq :
    (m.put i value).1 = (m.add i).1 ∨ ∃ e, (m.put i value).1 = (m.add i).1.set i e := by
  unfold put
  simp only
  split
  · split
    · exact .inl rfl
    · exact .inr ⟨_, rfl⟩
  · split <;> exact .inl rfl

@[simp] theorem sparseMode_put : (m.put i value).1.sparseMode = m.sparseMode := by
  rcases m.put_fst_eq i value with h | ⟨e, h⟩ <;> rw [h] <;> exact m.sparseMode_add i

@[simp] theorem lengthIsReadOnly_put : (m.put i value).1.lengthIsReadOnly = m.lengthIsReadOnly := by
  rcases m.put_fst_eq i value with h | ⟨e, h⟩ <;> rw [h] <;> exact m.lengthIsReadOnly_add i

/-- After `put` the map has the keys it had, and `i`. -/
theorem isSome_find_put (j : ℕ) :
    ((m.put i value).1.find j).isSome ↔ j = i ∨ (m.find j).isSome := by
  have hadd : ((m.add i).1.find j).isSome ↔ j = i ∨ (m.find j).isSome := by
    rw [find_add]
    split <;> simp [*]
  rcases m.put_fst_eq i value with h | ⟨e, h⟩ <;> rw [h]
  · exact hadd
  · rw [find_set]
    split
    · simp [*]
    · exact hadd

end

end SparseArrayValueMap

namespace JSArray

variable {a b : JSArray V}

/-! ## Modes -/

/-- In sparse mode there is no vector, and only there the length can be read-only. -/
structure Moded (a : JSArray V) : Prop where
  vector_eq : a.inSparseMode = true → a.vector = []
  sparse_of_readOnly : a.isLengthWritable = false → a.inSparseMode = true

/-- An operation that changes neither the mode nor the flag of the length. -/
structure KeepsMode (a b : JSArray V) : Prop where
  sparse : a.inSparseMode = true → b.inSparseMode = true
    ∧ b.isLengthWritable = a.isLengthWritable ∧ (a.vector = [] → b.vector = [])
  normal : a.inSparseMode = false → b.inSparseMode = false
    ∧ (a.isLengthWritable = true → b.isLengthWritable = true)

theorem KeepsMode.refl (a : JSArray V) : KeepsMode a a where
  sparse := fun h => ⟨h, rfl, id⟩
  normal := fun h => ⟨h, id⟩

theorem Moded.keep (ha : Moded a) (h : KeepsMode a b) : Moded b where
  vector_eq := by
    intro hb
    cases hs : a.inSparseMode with
    | true => exact (h.sparse hs).2.2 (ha.vector_eq hs)
    | false => exact absurd ((h.normal hs).1.symm.trans hb) (by decide)
  sparse_of_readOnly := by
    intro hb
    cases hs : a.inSparseMode with
    | true => exact (h.sparse hs).1
    | false =>
      have hw : a.isLengthWritable = true := by
        by_contra hw
        exact absurd (ha.sparse_of_readOnly (by simpa using hw)) (by rw [hs]; decide)
      exact absurd (((h.normal hs).2 hw).symm.trans hb) (by decide)

/-- The map is replaced by one with the same flags, or by none or a fresh one outside sparse mode. -/
theorem keepsMode_of_map (hvec : a.vector = [] → b.vector = [])
    (hmap : (b.sparseValueMap.map fun m => (m.sparseMode, m.lengthIsReadOnly))
        = a.sparseValueMap.map fun m => (m.sparseMode, m.lengthIsReadOnly)) : KeepsMode a b := by
  have hsparse : b.inSparseMode = a.inSparseMode := by
    unfold inSparseMode
    cases ha : a.sparseValueMap <;> cases hb : b.sparseValueMap <;> simp_all
  have hwritable : b.isLengthWritable = a.isLengthWritable := by
    unfold isLengthWritable
    cases ha : a.sparseValueMap <;> cases hb : b.sparseValueMap <;> simp_all
  exact ⟨fun h => ⟨hsparse.trans h, hwritable, hvec⟩,
    fun h => ⟨hsparse.trans h, fun hw => hwritable.trans hw⟩⟩

theorem keepsMode_of_normal (ha : a.inSparseMode = false)
    (hb : ∀ m, b.sparseValueMap = some m → m.sparseMode = false ∧ m.lengthIsReadOnly = false) :
    KeepsMode a b := by
  refine ⟨fun h => absurd (ha.symm.trans h) (by decide), fun _ => ⟨?_, fun _ => ?_⟩⟩
  · unfold inSparseMode
    cases hm : b.sparseValueMap with
    | none => rfl
    | some m => exact (hb m hm).1
  · unfold isLengthWritable
    cases hm : b.sparseValueMap with
    | none => rfl
    | some m => simp [(hb m hm).2]

theorem inSparseMode_of_none (h : a.sparseValueMap = none) : a.inSparseMode = false := by
  unfold inSparseMode
  rw [h]
  rfl

theorem inSparseMode_of_some {m : SparseArrayValueMap V} (h : a.sparseValueMap = some m) :
    a.inSparseMode = m.sparseMode := by
  unfold inSparseMode
  rw [h]
  rfl

theorem increaseVectorLength_map {heap : Heap} (h : a.increaseVectorLength heap n = some b) :
    b.sparseValueMap = a.sparseValueMap := by
  unfold increaseVectorLength at h
  split at h
  · cases h
  · split at h
    · cases h
    · split at h <;> cases h <;> rfl

theorem keepsMode_putByIndexBeyondVectorLength (heap : Heap) (i : ℕ) (value : Option V) :
    KeepsMode a (a.putByIndexBeyondVectorLength heap i value).array := by
  unfold putByIndexBeyondVectorLength
  split
  · next hm =>
    simp only
    split
    · next b hgrown =>
      split at hgrown
      · refine keepsMode_of_normal (inSparseMode_of_none hm) ?_
        intro m hm'
        have hb : b.sparseValueMap = none := (increaseVectorLength_map hgrown).trans hm
        exact absurd (hm'.symm.trans hb) (by simp)
      · cases hgrown
    · refine keepsMode_of_normal (inSparseMode_of_none hm) ?_
      rintro m ⟨⟩
      exact ⟨SparseArrayValueMap.sparseMode_put .., SparseArrayValueMap.lengthIsReadOnly_put ..⟩
  · next map hm =>
    split
    · exact .refl a
    · simp only [length_put_eq]
      split
      · exact keepsMode_of_map id (by simp [hm])
      · next b hgrown =>
        split at hgrown
        · cases hgrown
        · next hmode =>
          refine keepsMode_of_normal ?_ (by rintro m ⟨⟩)
          rw [inSparseMode_of_some hm]
          simp only [Bool.or_eq_true, not_or, Bool.not_eq_true] at hmode
          exact hmode.1

theorem keepsMode_putByIndex (heap : Heap) (i : ℕ) (value : Option V) :
    KeepsMode a (a.putByIndex heap i value).array := by
  unfold putByIndex
  split
  · exact keepsMode_of_map (fun h => by simp [h]) rfl
  · split
    · unfold putProperty
      split
      · exact keepsMode_of_map id rfl
      · exact .refl a
    · exact keepsMode_putByIndexBeyondVectorLength heap i value

theorem keepsMode_push (heap : Heap) (value : Option V) :
    KeepsMode a (a.push heap value).array := by
  unfold push
  split
  · exact keepsMode_of_map (fun h => by simp [h]) rfl
  · split
    · exact keepsMode_putByIndex heap a.length value
    · exact keepsMode_putByIndexBeyondVectorLength heap a.length value

theorem keepsMode_deletePropertyByIndex (i : ℕ) :
    KeepsMode a (a.deletePropertyByIndex i).array := by
  unfold deletePropertyByIndex
  split
  · exact keepsMode_of_map id rfl
  · split
    · split
      · exact keepsMode_of_map (fun h => by simp [h]) rfl
      · exact .refl a
    · split
      · exact .refl a
      · next m hm =>
        split
        · exact .refl a
        · split
          · exact .refl a
          · exact keepsMode_of_map id (by rw [hm]; rfl)

@[simp] theorem removeKeys_flags (keys : List ℕ) (m : SparseArrayValueMap V) :
    (removeKeys m keys).1.sparseMode = m.sparseMode
      ∧ (removeKeys m keys).1.lengthIsReadOnly = m.lengthIsReadOnly := by
  induction keys generalizing m with
  | nil => exact ⟨rfl, rfl⟩
  | cons k keys ih =>
    unfold removeKeys
    split
    · exact ⟨rfl, rfl⟩
    · exact ih (m.remove k)

theorem foldl_remove_flags (keys : List ℕ) (m : SparseArrayValueMap V) :
    (keys.foldl (·.remove ·) m).sparseMode = m.sparseMode
      ∧ (keys.foldl (·.remove ·) m).lengthIsReadOnly = m.lengthIsReadOnly := by
  induction keys generalizing m with
  | nil => exact ⟨rfl, rfl⟩
  | cons k keys ih => exact ih (m.remove k)

theorem keepsMode_setLength (n : ℕ) (throwException : Bool) :
    KeepsMode a (a.setLength n throwException).array := by
  have hclear : a.vector = [] → Slots.clear a.vector n (min a.length a.vectorLength) = [] := by
    intro h
    rw [h]
    rfl
  unfold setLength
  split
  · split
    · exact keepsMode_of_map hclear rfl
    · exact keepsMode_of_map id rfl
  · next m hm =>
    split
    · exact .refl a
    · next hwritable =>
      split
      · simp only
        split
        · next hsparse =>
          split
          · next m' index hkeys =>
            have hflags : m'.sparseMode = m.sparseMode ∧ m'.lengthIsReadOnly = m.lengthIsReadOnly := by
              have := removeKeys_flags ((keysFrom m n a.length).insertionSort (· ≤ ·)).reverse m
              rw [hkeys] at this
              exact this
            exact keepsMode_of_map id (by simp [reject, hm, hflags.1, hflags.2])
          · next m' hkeys =>
            have hflags : m'.sparseMode = m.sparseMode ∧ m'.lengthIsReadOnly = m.lengthIsReadOnly := by
              have := removeKeys_flags ((keysFrom m n a.length).insertionSort (· ≤ ·)).reverse m
              rw [hkeys] at this
              exact this
            exact keepsMode_of_map hclear (by simp [truncateVector, hm, hflags.1, hflags.2])
        · next hsparse =>
          have hnormal : a.inSparseMode = false := by
            rw [inSparseMode_of_some hm]
            simpa using hsparse
          have hflags := foldl_remove_flags (keysFrom m n a.length) m
          refine keepsMode_of_normal hnormal ?_
          intro m' hm'
          split at hm'
          · cases hm'
          · cases hm'
            rw [hflags.1, hflags.2]
            exact ⟨by simpa using hsparse, by simpa using hwritable⟩
      · exact keepsMode_of_map id rfl

theorem keepsMode_popEnd [Inhabited V] (length : ℕ) (attributes : Attributes) (result : Option V)
    (e : Option JSError) : KeepsMode a (a.popEnd length attributes result e).array := by
  unfold popEnd
  split
  · exact .refl a
  · split
    · exact .refl a
    · cases hm : a.sparseValueMap with
      | none => exact keepsMode_of_map id (by rw [hm]; rfl)
      | some m =>
        have hfilter : ((some (m.remove length)).filter fun m => !(m.isEmpty && !m.sparseMode))
            = if !((m.remove length).isEmpty && !m.sparseMode) then some (m.remove length)
              else none := rfl
        cases hdrop : !((m.remove length).isEmpty && !m.sparseMode) with
        | true =>
          rw [hdrop] at hfilter
          refine keepsMode_of_map id ?_
          exact (congrArg (Option.map _) hfilter).trans (by rw [hm]; rfl)
        | false =>
          refine keepsMode_of_normal ?_ ?_
          · rw [inSparseMode_of_some hm]
            simp only [Bool.not_eq_false', Bool.and_eq_true, Bool.not_eq_true'] at hdrop
            exact hdrop.2
          · intro m' hm'
            change ((some (m.remove length)).filter fun m => !(m.isEmpty && !m.sparseMode)) = some m'
              at hm'
            rw [hfilter, hdrop] at hm'
            cases hm'

theorem keepsMode_pop [Inhabited V] (h : a.pop = .returns c) :
    KeepsMode a c.array := by
  unfold pop at h
  split at h
  · cases h
    exact .refl a
  · simp only at h
    split at h
    · split at h <;> cases h
      · exact keepsMode_of_map (fun h => by simp [h]) rfl
      · exact keepsMode_of_map id rfl
    · split at h
      · cases h
        exact keepsMode_of_map id rfl
      · split at h
        · cases h
        · cases h
          exact keepsMode_popEnd ..

/-! ## Entering sparse mode -/

theorem addSlots_flags (a : JSArray V) (used : ℕ) (m : SparseArrayValueMap V) :
    (a.addSlots used m).sparseMode = m.sparseMode
      ∧ (a.addSlots used m).lengthIsReadOnly = m.lengthIsReadOnly := by
  unfold addSlots
  generalize List.range used = is
  induction is generalizing m with
  | nil => exact ⟨rfl, rfl⟩
  | cons i is ih =>
    rw [List.foldl_cons]
    split
    · exact ih _
    · exact ih m

theorem moded_enterDictionaryMode (ha : Moded a) : Moded a.enterDictionaryMode := by
  unfold enterDictionaryMode
  simp only
  split
  · exact ha
  · refine ⟨fun _ => rfl, fun _ => ?_⟩
    exact (inSparseMode_of_some rfl).trans (addSlots_flags ..).1

theorem inSparseMode_enterDictionaryMode (a : JSArray V) :
    a.enterDictionaryMode.inSparseMode = true := by
  unfold enterDictionaryMode
  simp only
  split
  · next h =>
    cases hm : a.sparseValueMap with
    | none =>
      rw [hm] at h
      exact absurd h Bool.false_ne_true
    | some m =>
      rw [hm] at h
      rw [inSparseMode_of_some hm]
      exact h
  · exact (inSparseMode_of_some rfl).trans (addSlots_flags ..).1

theorem enterDictionaryMode_of_sparse (h : a.inSparseMode = true) : a.enterDictionaryMode = a := by
  unfold enterDictionaryMode
  cases hm : a.sparseValueMap with
  | none => exact absurd ((inSparseMode_of_none hm).symm.trans h) (by decide)
  | some m =>
    rw [inSparseMode_of_some hm] at h
    simp [h]

theorem isLengthWritable_enterDictionaryMode (a : JSArray V) :
    a.enterDictionaryMode.isLengthWritable = a.isLengthWritable := by
  unfold enterDictionaryMode
  simp only
  split
  · rfl
  · unfold isLengthWritable
    simp only [Option.all_some, (addSlots_flags ..).2]
    cases a.sparseValueMap <;> rfl

@[simp] theorem length_enterDictionaryMode (a : JSArray V) :
    a.enterDictionaryMode.length = a.length := by
  unfold enterDictionaryMode
  simp only
  split <;> rfl

theorem moded_preventExtensions (ha : Moded a) : Moded a.preventExtensions :=
  ⟨(moded_enterDictionaryMode ha).vector_eq, (moded_enterDictionaryMode ha).sparse_of_readOnly⟩

theorem moded_setLengthWritable (ha : Moded a) (writable : Bool) :
    Moded (a.setLengthWritable writable) := by
  have hsparse := inSparseMode_enterDictionaryMode a
  unfold setLengthWritable
  split
  · exact ha
  · cases hm : a.enterDictionaryMode.sparseValueMap with
    | none => exact absurd ((inSparseMode_of_none hm).symm.trans hsparse) (by decide)
    | some m =>
      have hs : m.sparseMode = true := (inSparseMode_of_some hm).symm.trans hsparse
      refine ⟨fun _ => (moded_enterDictionaryMode ha).vector_eq hsparse, fun _ => ?_⟩
      exact (inSparseMode_of_some (m := { m with lengthIsReadOnly := true })
        (by simp only [hm, Option.map_some])).trans hs

theorem setLengthWritable_of_readOnly (h : a.isLengthWritable = false) (writable : Bool) :
    a.setLengthWritable writable = a := by
  unfold setLengthWritable
  rw [h]
  rfl

/-! ## Definitions -/

variable (descriptor : PropertyDescriptor V)

theorem moded_finishLength (ha : Moded a) :
    Moded (a.finishLength descriptor) := by
  unfold finishLength
  split
  · exact moded_setLengthWritable ha _
  · exact ha

theorem finishLength_of_readOnly (h : a.isLengthWritable = false) : a.finishLength descriptor = a := by
  unfold finishLength
  split
  · exact setLengthWritable_of_readOnly h _
  · rfl

theorem moded_defineLength {descriptor : PropertyDescriptor V} {throwException : Bool}
    (ha : Moded a)
    (h : a.defineLength descriptor throwException = some c) : Moded c.array := by
  unfold defineLength at h
  repeat' split at h
  all_goals cases h
  all_goals first | exact ha | exact moded_finishLength _ ha

theorem moded_defineLengthEnd (ha : Moded a) (throwException : Bool) (newLen : ℕ) (isSame : Bool) :
    Moded (a.defineLengthEnd descriptor throwException newLen isSame).array := by
  unfold defineLengthEnd
  split
  · exact ha
  · split
    · exact moded_finishLength _ ha
    · split
      · exact ha
      · exact moded_finishLength _ (ha.keep (keepsMode_setLength ..))

section Define

variable [Inhabited V] [DecidableEq V]

theorem keepsMode_defineOwnNumericProperty (h : a.inSparseMode = true) (heap : Heap) (index : ℕ) (throwException : Bool) :
    KeepsMode a (a.defineOwnNumericProperty heap index descriptor throwException).array := by
  have hset : ∀ (n : ℕ) (e : SparseArrayEntry V), KeepsMode a { a with
      length := n
      sparseValueMap := some ((a.sparseValueMap.getD {}).set index e) } := by
    intro n e
    refine keepsMode_of_map id ?_
    cases hm : a.sparseValueMap with
    | none => exact absurd ((inSparseMode_of_none hm).symm.trans h) (by decide)
    | some m => rfl
  unfold defineOwnNumericProperty
  rw [h]
  simp only [Bool.not_true, Bool.false_and, Bool.false_eq_true, if_false, if_true]
  split
  · split
    · exact .refl a
    · exact hset _ _
  · split
    · exact .refl a
    · split
      · exact .refl a
      · exact hset _ _

/-- Unless it is a plain put, a definition is made in sparse mode. -/
theorem defineOwnNumericProperty_eq (heap : Heap) (index : ℕ)
    (throwException : Bool) (h : (!a.inSparseMode && descriptor.attributes == 0#32) = false) :
    a.defineOwnNumericProperty heap index descriptor throwException
      = a.enterDictionaryMode.defineOwnNumericProperty heap index descriptor throwException := by
  have henter : (if a.inSparseMode then a else a.enterDictionaryMode) = a.enterDictionaryMode := by
    split
    · next hs => exact (enterDictionaryMode_of_sparse hs).symm
    · rfl
  unfold defineOwnNumericProperty
  rw [h, inSparseMode_enterDictionaryMode]
  simp only [henter, Bool.not_true, Bool.false_and, Bool.false_eq_true, if_false, if_true]

variable {descriptor}

section

variable (ha : Moded a) (heap : Heap) (index : ℕ) (descriptor : PropertyDescriptor V)
  (throwException : Bool)
include ha

theorem moded_defineOwnNumericProperty :
    Moded (a.defineOwnNumericProperty heap index descriptor throwException).array := by
  cases hput : !a.inSparseMode && descriptor.attributes == 0#32 with
  | true =>
    unfold defineOwnNumericProperty
    rw [hput]
    exact ha.keep (keepsMode_putByIndex ..)
  | false =>
    rw [defineOwnNumericProperty_eq _ _ _ _ hput]
    exact (moded_enterDictionaryMode ha).keep
      (keepsMode_defineOwnNumericProperty _ (inSparseMode_enterDictionaryMode a) ..)

theorem moded_defineIndex : Moded (a.defineIndex heap index descriptor throwException).array := by
  unfold defineIndex
  split
  · exact ha
  · exact moded_defineOwnNumericProperty ha ..

end

end Define

/-! ## Calls and script that runs in between -/

end JSArray

/-- An operation that waits for script: a `pop` for a getter, or a definition of the length for the
conversion of its value. -/
inductive Pending (V : Type*) where
  | pop (length : ℕ) (attributes : Attributes)
  | defineLength (descriptor : PropertyDescriptor V) (throwException : Bool)

/-- An array with the operations on it that wait, the innermost first. -/
structure Machine (V : Type*) where
  array : JSArray V
  pending : List (Pending V)

/-- What can happen next: script calls an operation, or the script that the innermost operation
waits for returns.  A definition of a name that is neither `length` nor an index reaches the
property map of `JSObject` only. -/
inductive Event (V : Type*) where
  | putByIndex (i : UInt32) (value : Option V)
  | push (value : Option V)
  | pop
  | setLength (n : UInt32) (throwException : Bool)
  | deletePropertyByIndex (i : UInt32)
  | defineLength (descriptor : PropertyDescriptor V) (throwException : Bool)
  | defineIndex (i : ArrayIndex) (descriptor : PropertyDescriptor V) (throwException : Bool)
  | defineOther (property : Option V)
  | preventExtensions
  | getterReturns (result : Option V) (exception : Option JSError)
  | conversionReturns (newLen : UInt32) (isSame : Bool)

namespace Machine

open JSArray

variable [Inhabited V] [DecidableEq V]

def step (m : Machine V) (heap : Heap) : Event V → Machine V
  | .putByIndex i value => { m with array := (m.array.putByIndex heap i.toNat value).array }
  | .push value => { m with array := (m.array.push heap value).array }
  | .pop =>
    match m.array.pop with
    | .returns c => { m with array := c.array }
    | .callsGetter _ length attributes => { m with pending := .pop length attributes :: m.pending }
  | .setLength n throwException =>
    { m with array := (m.array.setLength n.toNat throwException).array }
  | .deletePropertyByIndex i => { m with array := (m.array.deletePropertyByIndex i.toNat).array }
  | .defineLength descriptor throwException =>
    match m.array.defineLength descriptor throwException with
    | some c => { m with array := c.array }
    | none => { m with pending := .defineLength descriptor throwException :: m.pending }
  | .defineIndex i descriptor throwException =>
    { m with array := (m.array.defineIndex heap i descriptor throwException).array }
  | .defineOther property => { m with array := { m.array with property := property } }
  | .preventExtensions => { m with array := m.array.preventExtensions }
  | .getterReturns result exception =>
    match m.pending with
    | .pop length attributes :: pending =>
      { array := (m.array.popEnd length attributes result exception).array, pending := pending }
    | _ => m
  | .conversionReturns newLen isSame =>
    match m.pending with
    | .defineLength descriptor throwException :: pending =>
      { array := (m.array.defineLengthEnd descriptor throwException newLen.toNat isSame).array
        pending := pending }
    | _ => m

def run (m : Machine V) : List (Heap × Event V) → Machine V
  | [] => m
  | (heap, e) :: es => (m.step heap e).run es

/-- What can come of a new array. -/
inductive Reachable : Machine V → Prop
  | create (n : UInt32) : Reachable ⟨create n.toNat, []⟩
  | initialized (values : List V) (h : values.length ≤ maxStorageVectorLength) :
      Reachable ⟨createInitialized values, []⟩
  | step {m : Machine V} (heap : Heap) (e : Event V) : Reachable m → Reachable (m.step heap e)

variable {m : Machine V}

theorem moded_step (hm : Moded m.array) (heap : Heap) (e : Event V) :
    Moded (m.step heap e).array := by
  cases e with
  | putByIndex i value => exact hm.keep (keepsMode_putByIndex ..)
  | push value => exact hm.keep (keepsMode_push ..)
  | pop =>
    unfold step
    simp only
    split
    · next c hc => exact hm.keep (keepsMode_pop hc)
    · exact hm
  | setLength n throwException => exact hm.keep (keepsMode_setLength ..)
  | deletePropertyByIndex i => exact hm.keep (keepsMode_deletePropertyByIndex _)
  | defineLength descriptor throwException =>
    unfold step
    simp only
    split
    · next c hc => exact moded_defineLength hm hc
    · exact hm
  | defineIndex i descriptor throwException => exact moded_defineIndex hm ..
  | defineOther property => exact ⟨hm.vector_eq, hm.sparse_of_readOnly⟩
  | preventExtensions => exact moded_preventExtensions hm
  | getterReturns result exception =>
    unfold step
    simp only
    split
    · exact hm.keep (keepsMode_popEnd ..)
    · exact hm
  | conversionReturns newLen isSame =>
    unfold step
    simp only
    split
    · exact moded_defineLengthEnd _ hm ..
    · exact hm

theorem Reachable.moded (h : Reachable m) : Moded m.array := by
  induction h with
  | create | initialized => exact ⟨by rintro ⟨⟩, by rintro ⟨⟩⟩
  | step heap e _ ih => exact moded_step ih heap e

end Machine

end JavaScriptCore
end WebKit
