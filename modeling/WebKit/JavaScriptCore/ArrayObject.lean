import WebKit.JavaScriptCore.ArrayStorage

/-!
# Arrays as ES5.1 has them

To the specification an array is a length and a finite map from indices to values.  `ArrayObject` is
that, with the operations of chapter 15.4: `[[Put]]`, `[[Delete]]`, a new length, and `push` and
`pop`, which are written there in terms of `[[Get]]` and `[[Put]]` and so see the prototype chain.

A `JSArray` outside sparse mode is compared with it call by call.  The storage does what the
specification says at every put, deletion and new length, whatever the heap grants.  `push` and `pop`
take a short cut: they never ask the prototype chain, which the functions of `ArrayPrototype` do for
any other object.  So a run agrees with the specification as long as no `pop` meets a hole that the
chain fills and no `push` an index that the chain keeps from being written (`Undisturbed`).
-/

namespace WebKit

open List
namespace JavaScriptCore

open JSArray

variable {V : Type*}

/-! ## The specification -/

/-- A property that the prototype chain has at an index. -/
inductive Inherited (V : Type*) where
  | data (value : V) (writable : Bool)
  | accessor (getter setter : Option V)

/-- What a call answers: it returns, it returns what a function of script returns, or it throws. -/
inductive Reply (V : Type*) where
  | done (result : Bool)
  | newLength (n : ℕ)
  | value (v : Option V)
  | calls (f : V)
  | throws (e : JSError)
  deriving DecidableEq

/-- The length of an array and its values, all below the length.  `property` is the property named
`4294967295`, which is not an array index. -/
structure ArrayObject (V : Type*) where
  length : ℕ
  value : ℕ → Option V
  lt_length : ∀ i, value i ≠ none → i < length
  property : Option V

namespace ArrayObject

variable (s : ArrayObject V)

/-- An array without values. -/
def empty (n : ℕ) : ArrayObject V where
  length := n
  value := fun _ => none
  lt_length := fun _ h => absurd rfl h
  property := none

/-- The array with the values of a list. -/
def ofList (values : List V) : ArrayObject V where
  length := values.length
  value := fun i => values[i]?
  lt_length := by
    intro i hi
    by_contra hlt
    exact hi (List.getElem?_eq_none (not_lt.mp hlt))
  property := none

def put (i : ℕ) (v : V) : ArrayObject V where
  length := max s.length (i + 1)
  value := Function.update s.value i (some v)
  lt_length := by
    intro j hj
    rw [Function.update_apply] at hj
    split at hj
    · omega
    · have := s.lt_length j hj
      omega
  property := s.property

def delete (i : ℕ) : ArrayObject V where
  length := s.length
  value := Function.update s.value i none
  lt_length := by
    intro j hj
    rw [Function.update_apply] at hj
    split at hj
    · exact absurd rfl hj
    · exact s.lt_length j hj
  property := s.property

def setLength (n : ℕ) : ArrayObject V where
  length := n
  value := below s.value n
  lt_length := by
    intro j hj
    by_contra hlt
    exact hj (if_neg hlt)
  property := s.property

/-- `[[Get]]` on the prototype chain. -/
def getInherited [Inhabited V] : Option (Inherited V) → Reply V
  | none => .value (some jsUndefined)
  | some (.data v _) => .value (some v)
  | some (.accessor none _) => .value (some jsUndefined)
  | some (.accessor (some g) _) => .calls g

/-- `[[Get]]`, 8.12.3. -/
def get [Inhabited V] (proto : ℕ → Option (Inherited V)) (i : ℕ) : Reply V :=
  match s.value i with
  | some v => .value (some v)
  | none => getInherited (proto i)

/-- 15.4.4.6. -/
def pop [Inhabited V] (proto : ℕ → Option (Inherited V)) : ArrayObject V × Reply V :=
  if s.length = 0 then (s, .value (some jsUndefined))
  else ((s.delete (s.length - 1)).setLength (s.length - 1), s.get proto (s.length - 1))

/-- 15.4.4.7 for one value, with `[[CanPut]]` of 8.12.4. -/
def push (proto : ℕ → Option (Inherited V)) (v : V) : ArrayObject V × Reply V :=
  match proto s.length with
  | some (.data _ false) | some (.accessor _ none) =>
    (s, .throws (.typeError strictModeReadonlyPropertyWriteError))
  | some (.accessor _ (some f)) => (s.setLength (s.length + 1), .calls f)
  | _ =>
    if s.length = 0xFFFFFFFF then
      ({ s with property := some v }, .throws (.rangeError "Invalid array length"))
    else (s.put s.length v, .newLength (s.length + 1))

end ArrayObject

inductive ArrayCall (V : Type*) where
  | putByIndex (i : ArrayIndex) (v : V)
  | deletePropertyByIndex (i : ArrayIndex)
  | setLength (n : UInt32)
  | push (v : V)
  | pop

/-- A call on the specification's side. -/
def ArrayObject.exec [Inhabited V] (proto : ℕ → Option (Inherited V)) (s : ArrayObject V) :
    ArrayCall V → ArrayObject V × Reply V
  | .putByIndex i v => (s.put i v, .done true)
  | .deletePropertyByIndex i => (s.delete i, .done true)
  | .setLength n => (s.setLength n.toNat, .done true)
  | .push v => s.push proto v
  | .pop => s.pop proto

def ArrayObject.run [Inhabited V] (proto : ℕ → Option (Inherited V)) (s : ArrayObject V) :
    List (ArrayCall V) → ArrayObject V × List (Reply V)
  | [] => (s, [])
  | c :: cs =>
    let (s, reply) := s.exec proto c
    let (s, replies) := s.run proto cs
    (s, reply :: replies)

@[simp] theorem ArrayObject.run_cons [Inhabited V] (proto : ℕ → Option (Inherited V))
    (s : ArrayObject V) (c : ArrayCall V) (cs : List (ArrayCall V)) :
    s.run proto (c :: cs) = (((s.exec proto c).1.run proto cs).1,
      (s.exec proto c).2 :: ((s.exec proto c).1.run proto cs).2) := rfl

/-! ## The same calls on the storage -/

/-- The answer of an operation that returns `reply` if it neither throws nor calls a setter. -/
def Completion.reply {R : Type*} (c : Completion V R) (reply : Reply V) : Reply V :=
  match c.exception, c.call with
  | some e, _ => .throws e
  | none, some call => .calls call.setter
  | none, none => reply

namespace JSArray

/-- A call as script makes it; `arrayProtoFuncPush` returns the length after `push`. -/
def exec [Inhabited V] (a : JSArray V) (heap : Heap) : ArrayCall V → JSArray V × Reply V
  | .putByIndex i v =>
    let c := a.putByIndex heap i (some v)
    (c.array, c.reply (.done true))
  | .deletePropertyByIndex i =>
    let c := a.deletePropertyByIndex i
    (c.array, c.reply (.done c.result))
  | .setLength n =>
    let c := a.setLength n.toNat false
    (c.array, c.reply (.done c.result))
  | .push v =>
    let c := a.push heap (some v)
    (c.array, c.reply (.newLength c.array.length))
  | .pop =>
    match a.pop with
    | .returns c => (c.array, c.reply (.value c.result))
    | .callsGetter g _ _ => (a, .calls g)

/-- A sequence of calls, each with what it finds of the heap. -/
def run [Inhabited V] (a : JSArray V) : List (Heap × ArrayCall V) → JSArray V × List (Reply V)
  | [] => (a, [])
  | (heap, c) :: cs =>
    let (a, reply) := a.exec heap c
    let (a, replies) := a.run cs
    (a, reply :: replies)

@[simp] theorem run_cons [Inhabited V] (a : JSArray V) (heap : Heap) (c : ArrayCall V)
    (cs : List (Heap × ArrayCall V)) :
    a.run ((heap, c) :: cs) = (((a.exec heap c).1.run cs).1,
      (a.exec heap c).2 :: ((a.exec heap c).1.run cs).2) := rfl

/-- A new array, and what it is to the specification. -/
inductive Created : JSArray V → ArrayObject V → Prop
  | create (n : UInt32) : Created (create n.toNat) (ArrayObject.empty n.toNat)
  | initialized (values : List V) (h : values.length ≤ maxStorageVectorLength) :
      Created (createInitialized values) (ArrayObject.ofList values)

/-! ## The refinement -/

/-- The array has the length and the values of `s`, and keeps each value at one place. -/
structure Refines [Inhabited V] (a : JSArray V) (s : ArrayObject V) : Prop where
  consistent : a.Consistent
  length_eq : a.length = s.length
  getOwnPropertySlotByIndex_eq : ∀ i ≤ maxArrayIndex,
    a.getOwnPropertySlotByIndex i = (s.value i).map fun v => .value (some v)
  property_eq : a.property = s.property
  in_vector_or_map : ∀ i, (s.value i).isSome →
    ((a.slot i).isSome ∧ (a.sparseValueMap.bind (·.find i)) = none)
      ∨ (a.slot i = none ∧ (a.sparseValueMap.bind (·.find i)).isSome)

/-- The relation that one call keeps. -/
structure Represents (a : JSArray V) (s : ArrayObject V) : Prop where
  consistent : a.Consistent
  length_eq : a.length = s.length
  contents_eq : a.contents = s.value
  property_eq : a.property = s.property

variable {a : JSArray V} {s : ArrayObject V}

theorem Represents.refines [Inhabited V] (h : Represents a s) : Refines a s where
  consistent := h.consistent
  length_eq := h.length_eq
  getOwnPropertySlotByIndex_eq := by
    intro i hi
    rw [h.consistent.getOwnPropertySlotByIndex_eq hi, h.contents_eq]
  property_eq := h.property_eq
  in_vector_or_map := by
    intro i hi
    rw [← h.contents_eq] at hi
    unfold contents at hi
    split at hi
    · next hvec =>
      refine .inl ⟨hi, ?_⟩
      by_contra hne
      obtain ⟨e, he⟩ := Option.ne_none_iff_exists'.mp hne
      obtain ⟨m, hm, he⟩ := Option.bind_eq_some_iff.mp he
      have := ((h.consistent.fits m hm).plain i e he).1
      omega
    · next hvec =>
      refine .inr ⟨Slots.get_of_length_le (not_lt.mp hvec), ?_⟩
      cases hb : a.sparseValueMap.bind (·.find i) with
      | none =>
        rw [hb] at hi
        exact hi
      | some e => rfl

theorem Represents.of_becomes {b : JSArray V} {n : ℕ} {f : ℕ → Option V} {t : ArrayObject V}
    (h : Represents a s) (hb : Becomes a b n f) (hn : n = t.length) (hf : f = t.value)
    (hp : s.property = t.property) : Represents b t where
  consistent := hb.consistent h.consistent
  length_eq := hb.length_eq.trans hn
  contents_eq := hb.contents_funext.trans hf
  property_eq := (hb.property_eq.trans h.property_eq).trans hp

theorem consistent_create (hn : n ≤ 0xFFFFFFFF) : (create n : JSArray V).Consistent where
  isExtensible := rfl
  length_le := hn
  capacity_le := by
    show baseVectorLen + 0 ≤ maxStorageVectorLength
    decide
  numValues := rfl
  slot_lt := by
    intro i hi
    have hnone : Slots.get ([] ++ List.replicate baseVectorLen (none : Option V)) i = none := by
      rw [Slots.get_append_replicate]
      rfl
    exact absurd hnone hi
  fits := by rintro m ⟨⟩

theorem slot_createInitialized (values : List V) (i : ℕ) :
    (createInitialized values).slot i = values[i]? := by
  show Slots.get (_ ++ _) i = _
  rw [Slots.get_append_replicate]
  unfold Slots.get
  rw [List.getElem?_map]
  cases values[i]? <;> rfl

theorem consistent_createInitialized {values : List V}
    (h : values.length ≤ maxStorageVectorLength) : (createInitialized values).Consistent where
  isExtensible := rfl
  length_le := by
    unfold maxStorageVectorLength at h
    show values.length ≤ _
    omega
  capacity_le := by
    show (_ ++ _ : List (Option V)).length + 0 ≤ _
    rw [length_append, length_map, length_replicate]
    unfold baseVectorLen maxStorageVectorLength at *
    omega
  numValues := by
    show values.length = Slots.filled (_ ++ _)
    rw [Slots.filled_append_replicate]
    unfold Slots.filled
    rw [countP_map]
    exact (countP_eq_length.mpr fun _ _ => rfl).symm
  slot_lt := by
    intro i hi
    rw [slot_createInitialized] at hi
    by_contra hlt
    exact hi (List.getElem?_eq_none (not_lt.mp hlt))
  fits := by rintro m ⟨⟩

theorem Created.represents (h : Created a s) : Represents a s := by
  cases h with
  | create n =>
    have hn : n.toNat ≤ 0xFFFFFFFF := by
      have := n.toNat_lt
      omega
    refine ⟨consistent_create hn, rfl, ?_, rfl⟩
    funext i
    by_contra hne
    rw [contents_of_none rfl] at hne
    have hnone : Slots.get ([] ++ List.replicate baseVectorLen (none : Option V)) i = none := by
      rw [Slots.get_append_replicate]
      rfl
    exact hne hnone
  | initialized values hle =>
    refine ⟨consistent_createInitialized hle, rfl, ?_, rfl⟩
    funext i
    rw [contents_of_none rfl, slot_createInitialized]
    rfl

/-! ## One call -/

theorem Returns.reply_eq {R : Type*} {c : Completion V R} {n : ℕ} {f : ℕ → Option V} {r : R}
    (h : Returns a c n f r) (reply : Reply V) : c.reply reply = reply := by
  unfold Completion.reply
  rw [h.exception_eq, h.call_eq]

end JSArray

/-- The prototype chain does not show in the call: a `pop` finds a value of the array, or a hole
that reads as `undefined`, and a `push` an index that may be written. -/
def ArrayCall.Undisturbed [Inhabited V] (proto : ℕ → Option (Inherited V)) (s : ArrayObject V) :
    ArrayCall V → Prop
  | .pop => s.length = 0 ∨ (s.value (s.length - 1)).isSome
      ∨ ArrayObject.getInherited (proto (s.length - 1)) = .value (some jsUndefined)
  | .push _ => proto s.length = none ∨ ∃ v, proto s.length = some (.data v true)
  | _ => True

/-- No call of the sequence is disturbed. -/
def Undisturbed [Inhabited V] (proto : ℕ → Option (Inherited V)) :
    ArrayObject V → List (ArrayCall V) → Prop
  | _, [] => True
  | s, c :: cs => c.Undisturbed proto s ∧ Undisturbed proto (s.exec proto c).1 cs

namespace JSArray

variable {a : JSArray V} {s : ArrayObject V}

variable (h : Represents a s)

include h

/-- The answer of a `pop` to an array with values is the value read at the last index, without the
prototype chain. -/
theorem exec_pop [Inhabited V] (heap : Heap) :
    Represents (a.exec heap .pop).1 (if s.length = 0 then s else
        (s.delete (s.length - 1)).setLength (s.length - 1))
      ∧ (a.exec heap .pop).2 = .value (some (if s.length = 0 then jsUndefined
        else (s.value (s.length - 1)).getD jsUndefined)) := by
  unfold exec
  by_cases hzero : s.length = 0
  · have hlen : a.length = 0 := h.length_eq.trans hzero
    have hwritable : a.isLengthWritable = true := by
      unfold isLengthWritable
      cases hm : a.sparseValueMap with
      | none => rfl
      | some m => simp [(h.consistent.fits m hm).lengthIsReadOnly]
    have hpop : a.pop = .returns { array := a, result := some jsUndefined } := by
      unfold JSArray.pop
      rw [if_pos hlen, hwritable]
      rfl
    simp only [hpop, if_pos hzero]
    exact ⟨h, rfl⟩
  · have hlen : a.length ≠ 0 := by
      rw [h.length_eq]
      exact hzero
    obtain ⟨c, hpop, hret⟩ := h.consistent.pop hlen
    simp only [hpop, if_neg hzero]
    refine ⟨h.of_becomes hret.becomes ?_ ?_ rfl, ?_⟩
    · rw [h.length_eq]
      rfl
    · rw [h.length_eq, h.contents_eq]
      refine (below_of_le ?_).symm
      intro i hi
      rw [Function.update_apply] at hi
      split at hi
      · exact absurd rfl hi
      · have := s.lt_length i hi
        omega
    · rw [hret.reply_eq, hret.result_eq, h.length_eq, h.contents_eq]

/-- `push` stores at the length, without the prototype chain. -/
theorem exec_push [Inhabited V] (heap : Heap) (v : V) :
    Represents (a.exec heap (.push v)).1 (if s.length = 0xFFFFFFFF then { s with property := some v }
        else s.put s.length v)
      ∧ (a.exec heap (.push v)).2 = if s.length = 0xFFFFFFFF then
          .throws (.rangeError "Invalid array length") else .newLength (s.length + 1) := by
  unfold exec
  simp only
  by_cases hfull : s.length = 0xFFFFFFFF
  · have hlen : a.length = 0xFFFFFFFF := h.length_eq.trans hfull
    rw [h.consistent.push_of_full heap hlen, if_pos hfull, if_pos hfull]
    exact ⟨⟨{ h.consistent with }, h.length_eq, h.contents_eq, rfl⟩, rfl⟩
  · have hlen : a.length ≤ maxArrayIndex := by
      have := h.consistent.length_le
      rw [h.length_eq] at this ⊢
      unfold maxArrayIndex
      omega
    have hret := h.consistent.push heap hlen v
    rw [if_neg hfull, if_neg hfull, hret.reply_eq, hret.becomes.length_eq, h.length_eq]
    refine ⟨h.of_becomes hret.becomes ?_ ?_ rfl, rfl⟩
    · rw [h.length_eq]
      exact (max_eq_right (Nat.le_succ _)).symm
    · rw [h.length_eq, h.contents_eq]
      rfl

variable [Inhabited V] {proto : ℕ → Option (Inherited V)}

/-- A call that the prototype chain does not disturb leaves array and specification in step. -/
theorem exec_represents (heap : Heap)
    (hc : c.Undisturbed proto s) : Represents (a.exec heap c).1 (s.exec proto c).1 := by
  cases c with
  | putByIndex i v =>
    refine h.of_becomes (h.consistent.putByIndex heap i.2 v).becomes ?_ ?_ rfl
    · rw [h.length_eq]
      rfl
    · rw [h.contents_eq]
      rfl
  | deletePropertyByIndex i =>
    refine h.of_becomes (h.consistent.deletePropertyByIndex i.2).becomes h.length_eq ?_ rfl
    rw [h.contents_eq]
    rfl
  | setLength n =>
    have hn : n.toNat ≤ 0xFFFFFFFF := by
      have := n.toNat_lt
      omega
    refine h.of_becomes (h.consistent.setLength hn false).becomes rfl ?_ rfl
    rw [h.contents_eq]
    rfl
  | push v =>
    have hspec : (s.exec proto (.push v)).1 = if s.length = 0xFFFFFFFF then
        { s with property := some v } else s.put s.length v := by
      show (s.push proto v).1 = _
      unfold ArrayObject.push
      rcases hc with hnone | ⟨w, hdata⟩
      · simp only [hnone]
        split <;> rfl
      · simp only [hdata]
        split <;> rfl
    rw [hspec]
    exact (exec_push h heap v).1
  | pop =>
    have hspec : (s.exec proto .pop).1 = if s.length = 0 then s else
        (s.delete (s.length - 1)).setLength (s.length - 1) := by
      show (s.pop proto).1 = _
      unfold ArrayObject.pop
      split <;> rfl
    rw [hspec]
    exact (exec_pop h heap).1

/-- The two sides answer the same exactly when the prototype chain does not disturb the call. -/
theorem exec_reply_iff (heap : Heap) (c : ArrayCall V) :
    (a.exec heap c).2 = (s.exec proto c).2 ↔ c.Undisturbed proto s := by
  cases c with
  | putByIndex i v =>
    refine iff_of_true ?_ trivial
    exact (h.consistent.putByIndex heap i.2 v).reply_eq _
  | deletePropertyByIndex i =>
    refine iff_of_true ?_ trivial
    have hret := h.consistent.deletePropertyByIndex i.2
    exact (hret.reply_eq _).trans (congrArg Reply.done hret.result_eq)
  | setLength n =>
    have hn : n.toNat ≤ 0xFFFFFFFF := by
      have := n.toNat_lt
      omega
    refine iff_of_true ?_ trivial
    have hret := h.consistent.setLength hn false
    exact (hret.reply_eq _).trans (congrArg Reply.done hret.result_eq)
  | push v =>
    rw [(exec_push h heap v).2]
    show _ = (s.push proto v).2 ↔ (proto s.length = none ∨ ∃ v, proto s.length = some (.data v true))
    unfold ArrayObject.push
    rcases hp : proto s.length with _ | ⟨w, _ | _⟩ | ⟨g, _ | f⟩
    all_goals by_cases hfull : s.length = 0xFFFFFFFF <;> simp [hfull]
  | pop =>
    rw [(exec_pop h heap).2]
    show _ = (s.pop proto).2 ↔ (s.length = 0 ∨ _ ∨ _)
    unfold ArrayObject.pop ArrayObject.get
    by_cases hzero : s.length = 0
    · simp [hzero]
    · simp only [hzero]
      cases hv : s.value (s.length - 1) with
      | none => simp [eq_comm]
      | some v => simp

omit h

/-! ## Runs -/

/-- **An array is what the specification says exactly while the prototype chain does not show.**
For a sequence of calls on a new array, with any grants and refusals of the heap, the answers and
the array reached are those of the specification if and only if no `pop` of the sequence meets a
hole that the chain fills and no `push` an index that the chain keeps from being written. -/
theorem run_refines_iff (hcreated : Created a s) (calls : List (Heap × ArrayCall V)) :
    ((a.run calls).2 = (s.run proto (calls.map Prod.snd)).2
        ∧ Refines (a.run calls).1 (s.run proto (calls.map Prod.snd)).1)
      ↔ Undisturbed proto s (calls.map Prod.snd) := by
  have key : ∀ (calls : List (Heap × ArrayCall V)) (a : JSArray V) (s : ArrayObject V),
      Represents a s →
      (((a.run calls).2 = (s.run proto (calls.map Prod.snd)).2
        ∧ Refines (a.run calls).1 (s.run proto (calls.map Prod.snd)).1)
      ↔ Undisturbed proto s (calls.map Prod.snd)) := by
    intro calls
    induction calls with
    | nil =>
      intro a s h
      exact iff_of_true ⟨rfl, h.refines⟩ trivial
    | cons call calls ih =>
      intro a s h
      obtain ⟨heap, c⟩ := call
      rw [map_cons, run_cons, ArrayObject.run_cons]
      rw [List.cons.injEq, exec_reply_iff h heap c, and_assoc]
      refine and_congr_right fun hc => ?_
      exact ih _ _ (exec_represents h heap hc)
  exact key calls a s hcreated.represents

/-- A put far behind the vector, for which the heap has no room, and a `pop` that takes it back. -/
theorem run_refines_put_pop :
    let calls : List (Heap × ArrayCall (Option ℕ)) :=
      [(⟨false, 0⟩, .putByIndex ⟨20000, by decide⟩ (some 1)), (⟨true, 0⟩, .pop), (⟨true, 0⟩, .setLength 2)]
    ((create 3).run calls).2 = [.done true, .value (some (some 1)), .done true]
      ∧ Refines ((create 3).run calls).1
          ((ArrayObject.empty 3).run (fun _ => none) (calls.map Prod.snd)).1 := by
  intro calls
  have hcalls : Undisturbed (fun _ => none) (ArrayObject.empty 3) (calls.map Prod.snd) :=
    ⟨trivial, .inr (.inl rfl), trivial, trivial⟩
  have h := (run_refines_iff (Created.create 3) calls).mpr hcalls
  exact ⟨h.1.trans rfl, h.2⟩

/-- With `Array.prototype[0] = 7`, `pop` of an array of one hole has to return `7`; it returns
`undefined`. -/
theorem run_ne_of_inherited : ((create 1).run [(⟨true, 0⟩, ArrayCall.pop (V := Option ℕ))]).2
      ≠ ((ArrayObject.empty 1).run (fun i => if i = 0 then some (.data (some 7) true) else none)
          [ArrayCall.pop]).2 := by
  decide

end JSArray

end JavaScriptCore
end WebKit
