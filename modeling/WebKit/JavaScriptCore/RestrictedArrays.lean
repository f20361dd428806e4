import WebKit.JavaScriptCore.ArrayModes

/-!
# Arrays that script has restricted

An array whose length is read-only, or that is not extensible, is in sparse mode: what its map says
is all there is.  Every mutator asks for the read-only flag except `pop`, and a run keeps a read-only
length as long as no `pop` gets to its end (`KeepsLength`).  A put at or behind the length and every
definition ask whether the array is extensible; a put at a hole below the length does not, so a run
adds no property as long as it has no such put (`AddsNothing`).
-/

namespace WebKit

open List
namespace JavaScriptCore

open Attributes

variable {V : Type*}

/-! ## Operations in sparse mode -/

namespace JSArray

variable {a : JSArray V}

/-- In sparse mode an array is its map, its length and two flags. -/
theorem Moded.exists_map (ha : Moded a) (h : a.inSparseMode = true) :
    ∃ m, a.sparseValueMap = some m ∧ m.sparseMode = true ∧ a.vector = [] := by
  cases hm : a.sparseValueMap with
  | none => exact absurd ((inSparseMode_of_none hm).symm.trans h) (by decide)
  | some m => exact ⟨m, rfl, (inSparseMode_of_some hm).symm.trans h, ha.vector_eq h⟩

section Sparse

variable {m : SparseArrayValueMap V} (hm : a.sparseValueMap = some m) (hs : m.sparseMode = true)
  (hv : a.vector = [])

include hm hs

theorem putByIndexBeyondVectorLength_of_sparse (heap : Heap) (i : ℕ) (value : Option V) :
    (a.putByIndexBeyondVectorLength heap i value).array
      = if a.length ≤ i ∧ (m.lengthIsReadOnly || !a.isExtensible) then a
        else { a with length := max a.length (i + 1), sparseValueMap := some (m.put i value).1 } := by
  unfold putByIndexBeyondVectorLength
  rw [hm]
  simp only [hs, length_put_eq, Bool.true_or, if_true]
  split <;> rfl

include hv

theorem putByIndex_of_sparse (heap : Heap) (i : ℕ) (value : Option V) :
    (a.putByIndex heap i value).array
      = if maxArrayIndex < i then a.putProperty value
        else if a.length ≤ i ∧ (m.lengthIsReadOnly || !a.isExtensible) then a
        else { a with length := max a.length (i + 1), sparseValueMap := some (m.put i value).1 } := by
  have hvec : ¬i < a.vectorLength := by
    unfold vectorLength
    rw [hv]
    exact Nat.not_lt_zero i
  unfold putByIndex
  rw [if_neg hvec]
  split
  · rfl
  · exact putByIndexBeyondVectorLength_of_sparse hm hs heap i value

theorem push_of_sparse (heap : Heap) (value : Option V) : (a.push heap value).array
      = if a.length = 0xFFFFFFFF then a.putProperty value
        else if m.lengthIsReadOnly || !a.isExtensible then a
        else { a with length := a.length + 1, sparseValueMap := some (m.put a.length value).1 } := by
  have hvec : ¬a.length < a.vectorLength := by
    unfold vectorLength
    rw [hv]
    exact Nat.not_lt_zero _
  unfold push
  rw [if_neg hvec]
  split
  · next hfull =>
    have hidx : maxArrayIndex < a.length := by
      rw [hfull]
      decide
    rw [putByIndex_of_sparse hm hs hv, if_pos hidx]
  · rw [putByIndexBeyondVectorLength_of_sparse hm hs]
    simp

end Sparse

@[simp] theorem length_putProperty (a : JSArray V) (value : Option V) :
    (a.putProperty value).length = a.length := by
  unfold putProperty
  split <;> rfl

/-! ## A read-only length -/

@[simp] theorem length_deletePropertyByIndex (a : JSArray V) (i : ℕ) :
    (a.deletePropertyByIndex i).array.length = a.length := by
  unfold deletePropertyByIndex
  repeat' split
  all_goals rfl

section ReadOnly

variable (ha : Moded a) (h : a.isLengthWritable = false)

include ha h

theorem exists_readOnly_map :
    ∃ m, a.sparseValueMap = some m ∧ m.sparseMode = true ∧ m.lengthIsReadOnly = true
      ∧ a.vector = [] := by
  obtain ⟨m, hm, hs, hv⟩ := ha.exists_map (ha.sparse_of_readOnly h)
  refine ⟨m, hm, hs, ?_, hv⟩
  unfold isLengthWritable at h
  rw [hm] at h
  simpa using h

theorem length_putByIndex_of_readOnly (heap : Heap) (i : ℕ) (value : Option V) :
    (a.putByIndex heap i value).array.length = a.length := by
  obtain ⟨m, hm, hs, hr, hv⟩ := exists_readOnly_map ha h
  rw [putByIndex_of_sparse hm hs hv, hr]
  split
  · exact length_putProperty a value
  · split
    · rfl
    · next hlt =>
      show max a.length (i + 1) = a.length
      simp only [Bool.true_or, and_true] at hlt
      omega

theorem length_push_of_readOnly (heap : Heap) (value : Option V) :
    (a.push heap value).array.length = a.length := by
  obtain ⟨m, hm, hs, hr, hv⟩ := exists_readOnly_map ha h
  rw [push_of_sparse hm hs hv, hr]
  split
  · exact length_putProperty a value
  · rfl

theorem setLength_of_readOnly (n : ℕ) (throwException : Bool) :
    (a.setLength n throwException).array = a := by
  obtain ⟨m, hm, -, hr, -⟩ := exists_readOnly_map ha h
  unfold setLength
  rw [hm]
  simp only [hr]
  rfl

variable [Inhabited V] [DecidableEq V]

theorem length_defineIndex_of_readOnly (heap : Heap) (i : ℕ) (descriptor : PropertyDescriptor V)
    (throwException : Bool) :
    (a.defineIndex heap i descriptor throwException).array.length = a.length := by
  have hsparse := ha.sparse_of_readOnly h
  unfold defineIndex defineOwnNumericProperty
  rw [h, hsparse]
  split
  · rfl
  · next hlt =>
    simp only [Bool.not_false, and_true] at hlt
    simp only [Bool.not_true, Bool.false_and, Bool.false_eq_true, if_false, if_true]
    repeat' split
    all_goals first | rfl | omega

end ReadOnly

/-- A `pop` keeps the length of an array when there is nothing to pop, when it has to call a getter
first, and when the last entry cannot be deleted. -/
def PopKeepsLength [Inhabited V] (a : JSArray V) : Prop :=
  a.length = 0 ∨ ∃ e, a.sparseValueMap.bind (·.find (a.length - 1)) = some e
    ∧ ((∃ g, e.get = .getter g) ∨ e.attributes.has dontDelete = true)

end JSArray

namespace Machine

open JSArray

variable [Inhabited V] {m : Machine V}

/-- The event leaves the length as it is, if the length is read-only. -/
def KeepsLength (m : Machine V) : Event V → Prop
  | .pop => PopKeepsLength m.array
  | .getterReturns _ exception => ∀ length attributes pending,
      m.pending = .pop length attributes :: pending →
      exception.isSome = true ∨ attributes.has dontDelete = true ∨ length = m.array.length
  | _ => True

theorem length_popEnd_iff (a : JSArray V) (length : ℕ) (attributes : Attributes) (result : Option V)
    (exception : Option JSError) :
    (a.popEnd length attributes result exception).array.length = a.length
      ↔ exception.isSome = true ∨ attributes.has dontDelete = true ∨ length = a.length := by
  unfold popEnd
  cases exception with
  | some e => simp
  | none =>
    cases hattr : attributes.has dontDelete <;> simp

variable [DecidableEq V]

section

variable (hm : Moded m.array) (h : m.array.isLengthWritable = false) (heap : Heap)
include h hm

theorem length_pop_iff :
    (m.step heap .pop).array.length = m.array.length ↔ PopKeepsLength m.array := by
  obtain ⟨map, hmap, -, -, hv⟩ := exists_readOnly_map hm h
  have hvec : ¬m.array.length - 1 < m.array.vectorLength := by
    unfold vectorLength
    rw [hv]
    exact Nat.not_lt_zero _
  unfold step PopKeepsLength
  by_cases hzero : m.array.length = 0
  · have hpop : m.array.pop = .returns
        { array := m.array
          result := some jsUndefined
          exception := some (.typeError strictModeReadonlyPropertyWriteError) } := by
      unfold pop
      rw [if_pos hzero, h]
      rfl
    rw [hpop]
    simp [hzero]
  · unfold pop
    simp only [if_neg hzero, if_neg hvec, hmap, Option.bind_some]
    cases he : map.find (m.array.length - 1) with
    | none =>
      simp only [reduceCtorEq, false_and, exists_false, or_false]
      refine iff_of_false ?_ hzero
      omega
    | some e =>
      simp only [Option.some.injEq, exists_eq_left', hzero]
      cases hget : e.get with
      | getter g => simp
      | value v =>
        simp only [reduceCtorEq, exists_false]
        refine (length_popEnd_iff m.array _ e.attributes v none).trans ?_
        simp only [Option.isSome_none, Bool.false_eq_true, false_or]
        refine or_iff_left ?_
        omega

/-- One event keeps a read-only length exactly if it is not a `pop` that gets to its end. -/
theorem length_step_iff
    (e : Event V) : (m.step heap e).array.length = m.array.length ↔ m.KeepsLength e := by
  cases e with
  | putByIndex i value => exact iff_of_true (length_putByIndex_of_readOnly hm h ..) trivial
  | push value => exact iff_of_true (length_push_of_readOnly hm h ..) trivial
  | pop => exact length_pop_iff hm h heap
  | setLength n throwException =>
    exact iff_of_true (congrArg JSArray.length (setLength_of_readOnly hm h ..)) trivial
  | deletePropertyByIndex i => exact iff_of_true (length_deletePropertyByIndex ..) trivial
  | defineLength descriptor throwException =>
    refine iff_of_true ?_ trivial
    unfold step
    simp only
    split
    · next c hc =>
      unfold JSArray.defineLength at hc
      repeat' split at hc
      all_goals cases hc
      all_goals first | rfl | exact congrArg JSArray.length (finishLength_of_readOnly _ h)
    · rfl
  | defineIndex i descriptor throwException =>
    exact iff_of_true (length_defineIndex_of_readOnly hm h ..) trivial
  | defineOther property => exact iff_of_true rfl trivial
  | preventExtensions => exact iff_of_true (length_enterDictionaryMode _) trivial
  | getterReturns result exception =>
    unfold step KeepsLength
    simp only
    split
    · next length attributes pending hp =>
      rw [hp]
      refine (length_popEnd_iff ..).trans ?_
      constructor
      · rintro hkeep _ _ _ ⟨⟩
        exact hkeep
      · intro hkeep
        exact hkeep _ _ _ rfl
    · next hother =>
      refine iff_of_true rfl ?_
      intro length attributes pending hp
      exact absurd hp (hother length attributes pending)
  | conversionReturns newLen isSame =>
    refine iff_of_true ?_ trivial
    unfold step
    simp only
    split
    · unfold defineLengthEnd
      rw [h]
      repeat' split
      all_goals first
        | rfl
        | exact congrArg JSArray.length (finishLength_of_readOnly _ h)
        | exact absurd rfl ‹_›
    · rfl

/-- A read-only length stays read-only. -/
theorem isLengthWritable_step (e : Event V) : (m.step heap e).array.isLengthWritable = false := by
  have hsparse := hm.sparse_of_readOnly h
  have keep : ∀ {b : JSArray V}, KeepsMode m.array b → b.isLengthWritable = false :=
    fun hb => (hb.sparse hsparse).2.1.trans h
  cases e with
  | putByIndex i value => exact keep (keepsMode_putByIndex ..)
  | push value => exact keep (keepsMode_push ..)
  | pop =>
    unfold step
    simp only
    split
    · next c hc => exact keep (keepsMode_pop hc)
    · exact h
  | setLength n throwException => exact keep (keepsMode_setLength ..)
  | deletePropertyByIndex i => exact keep (keepsMode_deletePropertyByIndex _)
  | defineLength descriptor throwException =>
    unfold step
    simp only
    split
    · next c hc =>
      unfold JSArray.defineLength at hc
      repeat' split at hc
      all_goals cases hc
      all_goals first
        | exact h
        | exact (congrArg isLengthWritable (finishLength_of_readOnly _ h)).trans h
    · exact h
  | defineIndex i descriptor throwException =>
    unfold step
    simp only
    unfold defineIndex
    split
    · exact h
    · exact keep (keepsMode_defineOwnNumericProperty _ hsparse ..)
  | defineOther property => exact h
  | preventExtensions => exact (isLengthWritable_enterDictionaryMode _).trans h
  | getterReturns result exception =>
    unfold step
    simp only
    split
    · exact keep (keepsMode_popEnd ..)
    · exact h
  | conversionReturns newLen isSame =>
    unfold step
    simp only
    split
    · unfold defineLengthEnd
      rw [h]
      repeat' split
      all_goals first
        | exact h
        | exact (congrArg isLengthWritable (finishLength_of_readOnly _ h)).trans h
        | exact absurd rfl ‹_›
    · exact h

end

/-- No event of the run changes a read-only length. -/
def RunKeepsLength (m : Machine V) : List (Heap × Event V) → Prop
  | [] => True
  | (heap, e) :: es => m.KeepsLength e ∧ (m.step heap e).RunKeepsLength es

/-- **A read-only length is kept exactly while no `pop` gets to its end.**  From any state that can be
reached and has a read-only length, a run leaves the length as it is in every state it comes through
if and only if each `pop` of the run finds the array empty or its last entry undeletable, or has its
getter throw. -/
theorem run_length_eq_iff (hm : Reachable m) (h : m.array.isLengthWritable = false)
    (events : List (Heap × Event V)) :
    (∀ k, (m.run (events.take k)).array.length = m.array.length) ↔ m.RunKeepsLength events := by
  have key : ∀ (events : List (Heap × Event V)) (m : Machine V), Moded m.array →
      m.array.isLengthWritable = false →
      ((∀ k, (m.run (events.take k)).array.length = m.array.length) ↔ m.RunKeepsLength events) := by
    intro events
    induction events with
    | nil =>
      intro m _ _
      refine iff_of_true ?_ trivial
      intro k
      rw [take_nil]
      rfl
    | cons event events ih =>
      intro m hm h
      obtain ⟨heap, e⟩ := event
      have hrest := ih (m.step heap e) (moded_step hm heap e) (isLengthWritable_step hm h heap e)
      show _ ↔ (m.KeepsLength e ∧ _)
      rw [← hrest, ← length_step_iff hm h heap e]
      constructor
      · intro hall
        have hone : (m.step heap e).array.length = m.array.length := hall 1
        refine ⟨hone, fun k => ?_⟩
        rw [hone]
        exact hall (k + 1)
      · rintro ⟨hone, hall⟩ k
        cases k with
        | zero => rfl
        | succ k => exact (hall k).trans hone
  exact key events m hm.moded h

/-- An array of length 1 whose length has been made read-only. -/
def readOnlyExample : Machine (Option ℕ) :=
  step ⟨create 1, []⟩ ⟨true, 0⟩ (.defineLength { writablePresent := true } false)

theorem reachable_readOnlyExample : Reachable readOnlyExample := .step _ _ (.create 1)

/-- A put behind the end, a `push` and a new length are all refused. -/
theorem run_length_eq_puts :
    let events : List (Heap × Event (Option ℕ)) := [(⟨true, 0⟩, .putByIndex 5 (some none)),
      (⟨true, 0⟩, .push (some none)), (⟨true, 0⟩, .setLength 0 false)]
    (readOnlyExample.run events).array.length = readOnlyExample.array.length := by
  intro events
  have hkeeps : readOnlyExample.RunKeepsLength events := ⟨trivial, trivial, trivial, trivial⟩
  exact (run_length_eq_iff reachable_readOnlyExample (by decide) events).mpr hkeeps 3

/-- `pop` of a hole takes one off a read-only length. -/
theorem length_pop_ne :
    readOnlyExample.array.isLengthWritable = false ∧ readOnlyExample.array.length = 1
      ∧ (readOnlyExample.run [(⟨true, 0⟩, .pop)]).array.length = 0 := by
  decide

end Machine

/-! ## An array that is not extensible -/

namespace JSArray

variable {a : JSArray V}

/-- `i` is an own property. -/
def HasOwn [Inhabited V] (a : JSArray V) (i : ℕ) : Prop := (a.getOwnPropertySlotByIndex i).isSome

/-- An array that `preventExtensions` has been called on. -/
structure NotExtensible (a : JSArray V) : Prop where
  moded : Moded a
  inSparseMode : a.inSparseMode = true
  isExtensible : a.isExtensible = false

theorem notExtensible_preventExtensions (ha : Moded a) : NotExtensible a.preventExtensions where
  moded := moded_preventExtensions ha
  inSparseMode := inSparseMode_enterDictionaryMode a
  isExtensible := rfl

/-- The array as its map has it. -/
theorem NotExtensible.exists_map (h : NotExtensible a) :
    ∃ m, a.sparseValueMap = some m ∧ m.sparseMode = true ∧ a.vector = [] :=
  h.moded.exists_map h.inSparseMode

theorem NotExtensible.keep (h : NotExtensible a) (hb : KeepsMode a b)
    (hext : b.isExtensible = a.isExtensible) : NotExtensible b where
  moded := h.moded.keep hb
  inSparseMode := (hb.sparse h.inSparseMode).1
  isExtensible := hext.trans h.isExtensible

theorem isExtensible_putProperty (a : JSArray V) (value : Option V) :
    (a.putProperty value).isExtensible = a.isExtensible := by
  unfold putProperty
  split <;> rfl

theorem isExtensible_setLength (a : JSArray V) (n : ℕ) (throwException : Bool) :
    (a.setLength n throwException).array.isExtensible = a.isExtensible := by
  unfold setLength
  repeat' split
  all_goals first | rfl | (simp only; split <;> rfl)

theorem isExtensible_deletePropertyByIndex (a : JSArray V) (i : ℕ) :
    (a.deletePropertyByIndex i).array.isExtensible = a.isExtensible := by
  unfold deletePropertyByIndex
  repeat' split
  all_goals rfl

theorem hasOwn_iff [Inhabited V] (hm : a.sparseValueMap = some m)
    (hv : a.vector = []) (hi : i ≤ maxArrayIndex) :
    HasOwn a i ↔ i < a.length ∧ (m.find i).isSome := by
  have hvec : ¬i < a.vectorLength := by
    unfold vectorLength
    rw [hv]
    exact Nat.not_lt_zero i
  unfold HasOwn getOwnPropertySlotByIndex
  rw [if_neg (not_lt.mpr hi), hm]
  split
  · next hlen => simp [hlen]
  · next hlen => simp [Nat.lt_of_not_le hlen]

/-- No index is an own property of `b` that is none of `a`. -/
def NoNewOwn [Inhabited V] (a b : JSArray V) : Prop := ∀ i ≤ maxArrayIndex, HasOwn b i → HasOwn a i

theorem NotExtensible.noNewOwn_putProperty [Inhabited V] (h : NotExtensible a) (value : Option V) :
    NoNewOwn a (a.putProperty value) := by
  obtain ⟨m, hm, hs, hv⟩ := h.exists_map
  intro j hj hown
  unfold putProperty at hown
  split at hown
  · exact (hasOwn_iff hm hv hj).mpr
      ((hasOwn_iff (a := { a with property := value }) (m := m) hm hv hj).mp hown)
  · exact hown

theorem find_removeKeys (keys : List ℕ) (m : SparseArrayValueMap V) (i : ℕ) :
    ((removeKeys m keys).1.find i).isSome → (m.find i).isSome := by
  induction keys generalizing m with
  | nil => exact id
  | cons k keys ih =>
    unfold removeKeys
    split
    · exact id
    · intro h
      have h := ih _ h
      rw [SparseArrayValueMap.find_remove] at h
      split at h
      · cases h
      · exact h

theorem removeKeys_blocked (keys : List ℕ) (m m' : SparseArrayValueMap V)
    (h : removeKeys m keys = (m', some index)) : index ∈ keys := by
  induction keys generalizing m with
  | nil => cases h
  | cons k keys ih =>
    unfold removeKeys at h
    split at h
    · cases h
      exact mem_cons_self
    · exact mem_cons_of_mem _ (ih _ h)

end JSArray

/-- The calls that may write the properties of an array. -/
inductive PropertyCall (V : Type*) where
  | putByIndex (i : UInt32) (value : Option V)
  | push (value : Option V)
  | setLength (n : UInt32) (throwException : Bool)
  | defineOwnNumericProperty (i : ArrayIndex) (descriptor : PropertyDescriptor V)
      (throwException : Bool)
  | deletePropertyByIndex (i : UInt32)

namespace JSArray

variable [Inhabited V] [DecidableEq V] {a : JSArray V}

def callProperty (a : JSArray V) (heap : Heap) : PropertyCall V → JSArray V
  | .putByIndex i value => (a.putByIndex heap i.toNat value).array
  | .push value => (a.push heap value).array
  | .setLength n throwException => (a.setLength n.toNat throwException).array
  | .defineOwnNumericProperty i descriptor throwException =>
    (a.defineOwnNumericProperty heap i descriptor throwException).array
  | .deletePropertyByIndex i => (a.deletePropertyByIndex i.toNat).array

def callProperties (a : JSArray V) : List (Heap × PropertyCall V) → JSArray V
  | [] => a
  | (heap, c) :: cs => (a.callProperty heap c).callProperties cs

/-- A put does not go to a hole below the length, and a new length uncovers no entry of the map. -/
def AddsNothing (a : JSArray V) : PropertyCall V → Prop
  | .putByIndex i _ => i.toNat ≤ maxArrayIndex → i.toNat < a.length → HasOwn a i.toNat
  | .setLength n _ => a.isLengthWritable = false
      ∨ ∀ i, a.length ≤ i → i < n.toNat → a.sparseValueMap.bind (·.find i) = none
  | _ => True

/-! ## One call to an array that is not extensible -/

namespace NotExtensible

theorem callProperty (h : NotExtensible a) (heap : Heap) (c : PropertyCall V) :
    NotExtensible (a.callProperty heap c) := by
  obtain ⟨m, hm, hs, hv⟩ := h.exists_map
  cases c with
  | putByIndex i value =>
    refine h.keep (keepsMode_putByIndex ..) ?_
    show (a.putByIndex heap i.toNat value).array.isExtensible = _
    rw [putByIndex_of_sparse hm hs hv]
    repeat' split
    all_goals first | rfl | exact isExtensible_putProperty a value
  | push value =>
    refine h.keep (keepsMode_push ..) ?_
    show (a.push heap value).array.isExtensible = _
    rw [push_of_sparse hm hs hv]
    repeat' split
    all_goals first | rfl | exact isExtensible_putProperty a value
  | setLength n throwException =>
    exact h.keep (keepsMode_setLength ..) (isExtensible_setLength ..)
  | defineOwnNumericProperty i descriptor throwException =>
    refine h.keep (keepsMode_defineOwnNumericProperty _ h.inSparseMode ..) ?_
    unfold JSArray.callProperty JSArray.defineOwnNumericProperty
    simp only [h.inSparseMode, Bool.not_true, Bool.false_and, Bool.false_eq_true, if_false, if_true]
    repeat' split
    all_goals rfl
  | deletePropertyByIndex i =>
    exact h.keep (keepsMode_deletePropertyByIndex _) (isExtensible_deletePropertyByIndex ..)

section

variable (h : NotExtensible a) (heap : Heap)
include h

/-- A definition changes an entry that exists or nothing. -/
theorem noNewOwn_defineOwnNumericProperty (i : ArrayIndex)
    (descriptor : PropertyDescriptor V) (throwException : Bool) :
    NoNewOwn a (a.callProperty heap (.defineOwnNumericProperty i descriptor throwException)) := by
  obtain ⟨m, hm, hs, hv⟩ := h.exists_map
  have hset : ∀ (e e' : SparseArrayEntry V), m.find i = some e →
      NoNewOwn a { a with sparseValueMap := some (m.set i e') } := by
    intro e e' he j hj hown
    obtain ⟨hlt, hfound⟩ := (hasOwn_iff (m := m.set i e') (by rfl) (by exact hv) hj).mp hown
    refine (hasOwn_iff hm hv hj).mpr ⟨hlt, ?_⟩
    rw [SparseArrayValueMap.find_set] at hfound
    split at hfound
    · next hji =>
      rw [hji, he]
      rfl
    · exact hfound
  have hmap : a.sparseValueMap.getD {} = m := by
    rw [hm]
    rfl
  have hext : (!a.isExtensible) = true := by
    rw [h.isExtensible]
    rfl
  unfold JSArray.callProperty JSArray.defineOwnNumericProperty
  simp only [h.inSparseMode, hext, hmap, Bool.not_true, Bool.false_and, Bool.false_eq_true,
    if_false, if_true]
  split
  · exact fun j _ hown => hown
  · next e he =>
    split
    · exact fun j _ hown => hown
    · split
      · exact fun j _ hown => hown
      · exact hset e _ he

theorem noNewOwn_deletePropertyByIndex (i : UInt32) :
    NoNewOwn a (a.callProperty heap (.deletePropertyByIndex i)) := by
  obtain ⟨m, hm, hs, hv⟩ := h.exists_map
  have hvec : ¬i.toNat < a.vectorLength := by
    unfold vectorLength
    rw [hv]
    exact Nat.not_lt_zero _
  intro j hj hown
  unfold JSArray.callProperty JSArray.deletePropertyByIndex at hown
  simp only [if_neg hvec] at hown
  split at hown
  · exact (hasOwn_iff hm hv hj).mpr
      ((hasOwn_iff (a := { a with property := none }) (m := m) hm hv hj).mp hown)
  · simp only [hm] at hown
    split at hown
    · exact hown
    · split at hown
      · exact hown
      · obtain ⟨hlt, hfound⟩ := (hasOwn_iff (m := m.remove i.toNat) (by rfl) (by exact hv) hj).mp hown
        refine (hasOwn_iff hm hv hj).mpr ⟨hlt, ?_⟩
        rw [SparseArrayValueMap.find_remove] at hfound
        split at hfound
        · cases hfound
        · exact hfound

theorem noNewOwn_push (value : Option V) : NoNewOwn a (a.callProperty heap (.push value)) := by
  obtain ⟨m, hm, hs, hv⟩ := h.exists_map
  show NoNewOwn a (a.push heap value).array
  rw [push_of_sparse hm hs hv, h.isExtensible]
  split
  · exact h.noNewOwn_putProperty value
  · simp only [Bool.not_false, Bool.or_true]
    exact fun j _ hown => hown

/-- A put makes a new own property exactly of a hole below the length. -/
theorem noNewOwn_putByIndex_iff (i : UInt32) (value : Option V) :
    NoNewOwn a (a.callProperty heap (.putByIndex i value)) ↔ AddsNothing a (.putByIndex i value) := by
  obtain ⟨m, hm, hs, hv⟩ := h.exists_map
  show NoNewOwn a (a.putByIndex heap i.toNat value).array
    ↔ (i.toNat ≤ maxArrayIndex → i.toNat < a.length → HasOwn a i.toNat)
  rw [putByIndex_of_sparse hm hs hv, h.isExtensible]
  simp only [Bool.not_false, Bool.or_true, and_true]
  split
  · next hmax =>
    exact iff_of_true (h.noNewOwn_putProperty value) fun hle => absurd hmax (not_lt.mpr hle)
  · next hmax =>
    have hidx : i.toNat ≤ maxArrayIndex := Nat.le_of_not_lt hmax
    split
    · next hlen =>
      exact iff_of_true (fun j _ hown => hown) fun _ hlt => absurd hlen (not_le.mpr hlt)
    · next hlen =>
      have hlt : i.toNat < a.length := Nat.lt_of_not_le hlen
      constructor
      · intro hnew _ _
        refine hnew _ hidx ?_
        refine (hasOwn_iff (m := (m.put i.toNat value).1) (by rfl) (by exact hv) hidx).mpr ⟨?_, ?_⟩
        · show i.toNat < max a.length _
          omega
        · exact (m.isSome_find_put ..).mpr (.inl rfl)
      · intro hput j hj hown
        obtain ⟨hjlt, hfound⟩ :=
          (hasOwn_iff (m := (m.put i.toNat value).1) (by rfl) (by exact hv) hj).mp hown
        rcases (m.isSome_find_put ..).mp hfound with rfl | hfound
        · exact hput hidx hlt
        · refine (hasOwn_iff hm hv hj).mpr ⟨?_, hfound⟩
          have hjlt : j < max a.length (i.toNat + 1) := hjlt
          omega

/-- A new length makes an own property exactly of an entry that lies behind the old length. -/
theorem noNewOwn_setLength_iff (n : UInt32) (throwException : Bool) :
    NoNewOwn a (a.callProperty heap (.setLength n throwException))
      ↔ AddsNothing a (.setLength n throwException) := by
  obtain ⟨m, hm, hs, hv⟩ := h.exists_map
  have hn := n.toNat_lt
  show NoNewOwn a (a.setLength n.toNat throwException).array
    ↔ (a.isLengthWritable = false ∨ ∀ i, a.length ≤ i → i < n.toNat → a.sparseValueMap.bind (·.find i) = none)
  have hwritable : a.isLengthWritable = !m.lengthIsReadOnly := by
    unfold isLengthWritable
    rw [hm]
    rfl
  rw [hwritable]
  unfold setLength
  rw [hm]
  simp only [hs, Option.bind_some]
  cases hr : m.lengthIsReadOnly with
  | true => exact iff_of_true (fun j _ hown => hown) (.inl rfl)
  | false =>
    simp only [if_false, Bool.not_false, reduceCtorEq, false_or, if_true]
    split
    · next hlt =>
      refine iff_of_true ?_ (fun i hi hin => absurd (hin.trans hlt) (not_lt.mpr hi))
      have hkeys := find_removeKeys ((keysFrom m n.toNat a.length).insertionSort (· ≤ ·)).reverse m
      split
      · next m' index hblocked =>
        rw [hblocked] at hkeys
        have hindex : index < a.length := by
          have hmem := removeKeys_blocked _ _ _ hblocked
          rw [mem_reverse, mem_insertionSort] at hmem
          exact (mem_keysFrom.mp hmem).2.1
        intro j hj hown
        obtain ⟨hjlt, hfound⟩ := (hasOwn_iff (m := m') (by rfl) (by exact hv) hj).mp hown
        refine (hasOwn_iff hm hv hj).mpr ⟨?_, hkeys j hfound⟩
        have hjlt : j < index + 1 := hjlt
        omega
      · next m' hnone =>
        rw [hnone] at hkeys
        intro j hj hown
        obtain ⟨hjlt, hfound⟩ := (hasOwn_iff (m := m') (by rfl)
          (by simp [truncateVector, hv, Slots.clear]) hj).mp hown
        exact (hasOwn_iff hm hv hj).mpr ⟨lt_trans hjlt hlt, hkeys j hfound⟩
    · next hle =>
      constructor
      · intro hnew i hi hin
        by_contra hfound
        have hidx : i ≤ maxArrayIndex := by
          unfold maxArrayIndex
          omega
        have hown := hnew i hidx ((hasOwn_iff (m := m) (by rfl) (by exact hv) hidx).mpr
          ⟨hin, Option.isSome_iff_ne_none.mpr hfound⟩)
        have := ((hasOwn_iff hm hv hidx).mp hown).1
        omega
      · intro hnone j hj hown
        obtain ⟨hjlt, hfound⟩ := (hasOwn_iff (m := m) (by rfl) (by exact hv) hj).mp hown
        refine (hasOwn_iff hm hv hj).mpr ⟨?_, hfound⟩
        by_contra hge
        rw [hnone j (not_lt.mp hge) hjlt] at hfound
        cases hfound

/-- One call makes no new own property exactly if it is no put to a hole and uncovers no entry. -/
theorem noNewOwn_callProperty_iff (c : PropertyCall V) :
    NoNewOwn a (a.callProperty heap c) ↔ AddsNothing a c := by
  cases c with
  | putByIndex i value => exact h.noNewOwn_putByIndex_iff heap i value
  | push value => exact iff_of_true (h.noNewOwn_push heap value) trivial
  | setLength n throwException => exact h.noNewOwn_setLength_iff heap n throwException
  | defineOwnNumericProperty i descriptor throwException =>
    exact iff_of_true (h.noNewOwn_defineOwnNumericProperty heap i descriptor throwException) trivial
  | deletePropertyByIndex i => exact iff_of_true (h.noNewOwn_deletePropertyByIndex heap i) trivial

end

end NotExtensible

/-! ## Runs of calls -/

/-- No call of the sequence puts to a hole or uncovers an entry. -/
def RunAddsNothing (a : JSArray V) : List (Heap × PropertyCall V) → Prop
  | [] => True
  | (heap, c) :: cs => AddsNothing a c ∧ RunAddsNothing (a.callProperty heap c) cs

theorem NotExtensible.noNewOwn_run_iff (h : NotExtensible a)
    (calls : List (Heap × PropertyCall V)) :
    (∀ k, NoNewOwn (a.callProperties (calls.take k)) (a.callProperties (calls.take (k + 1))))
      ↔ RunAddsNothing a calls := by
  induction calls generalizing a with
  | nil =>
    refine iff_of_true ?_ trivial
    intro k j _ hown
    rw [take_nil] at hown ⊢
    exact hown
  | cons call calls ih =>
    obtain ⟨heap, c⟩ := call
    show _ ↔ (AddsNothing a c ∧ _)
    rw [← ih (h.callProperty heap c), ← h.noNewOwn_callProperty_iff heap c]
    constructor
    · intro hall
      exact ⟨hall 0, fun k => hall (k + 1)⟩
    · rintro ⟨hone, hall⟩ k
      cases k with
      | zero => exact hone
      | succ k => exact hall k

/-- **A non-extensible array gets no new own property exactly while no put goes to a hole.**  From
any array that can be reached and has been made non-extensible, no step of a sequence of calls makes
an index an own property if and only if no `putByIndex` of it goes to a hole below the length and no
`setLength` reaches over an entry that lies behind the length. -/
theorem noNewOwn_iff {m : Machine V} (hm : Machine.Reachable m)
    (calls : List (Heap × PropertyCall V)) :
    (∀ k, NoNewOwn (m.array.preventExtensions.callProperties (calls.take k))
        (m.array.preventExtensions.callProperties (calls.take (k + 1))))
      ↔ RunAddsNothing m.array.preventExtensions calls :=
  (notExtensible_preventExtensions hm.moded).noNewOwn_run_iff calls

/-- `push`, a put behind the end and a definition are refused by an array of one hole. -/
theorem noNewOwn_push_put :
    let calls : List (Heap × PropertyCall (Option ℕ)) := [(⟨true, 0⟩, .push (some none)),
      (⟨true, 0⟩, .putByIndex 4 (some none)),
      (⟨true, 0⟩, .defineOwnNumericProperty ⟨0, by decide⟩ {} false)]
    NoNewOwn (preventExtensions (create 1)) ((preventExtensions (create 1)).callProperties calls) := by
  intro calls
  have hadds : RunAddsNothing (preventExtensions (create 1)) calls :=
    ⟨trivial, fun _ h => absurd h (by decide), trivial, trivial⟩
  have hall := (noNewOwn_iff (.create 1) calls).mpr hadds
  intro j hj hown
  exact hall 0 j hj (hall 1 j hj (hall 2 j hj hown))

/-- A put at the hole of a non-extensible array of length 1 makes `0` an own property. -/
theorem not_noNewOwn_put : (preventExtensions (create (V := Option ℕ) 1)).isExtensible = false
      ∧ ¬HasOwn (preventExtensions (create (V := Option ℕ) 1)) 0
      ∧ HasOwn ((preventExtensions (create 1)).callProperties
          [(⟨true, 0⟩, .putByIndex 0 (some (some 7)))]) 0 := by
  unfold HasOwn
  decide

end JSArray

end JavaScriptCore
end WebKit
