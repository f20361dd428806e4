import WebKit.JavaScriptCore.ArrayModes

/-!
# A shorter length in sparse mode

`setLength` removes the entries behind the new length from the last one down, and stops at the first
one that cannot be deleted.

* `removeKeys_eq_none`, `removeKeys_eq_some`: the loop over the keys.
* `InSparseMode`: an array in sparse mode, as `checkConsistency` has it.
* `Truncates`: what a shorter length is to do to an array, in terms of its entries.
* `setLength_truncates`: `setLength` does it.
-/

namespace WebKit
namespace JavaScriptCore

open Attributes

variable {V : Type*}

namespace SparseArrayValueMap

variable (m : SparseArrayValueMap V)

/-- The entry at an index cannot be deleted. -/
def DontDelete (i : ℕ) : Prop := (m.find i).any (·.attributes.has dontDelete) = true

instance (i : ℕ) : Decidable (m.DontDelete i) := inferInstanceAs (Decidable (_ = _))

end SparseArrayValueMap

namespace JSArray

open SparseArrayValueMap

section RemoveKeys

variable {m m' : SparseArrayValueMap V} {keys : List ℕ}

theorem dontDelete_remove_of_ne (h : j ≠ i) :
    (m.remove i).DontDelete j ↔ m.DontDelete j := by
  rw [SparseArrayValueMap.DontDelete, find_remove, if_neg h]
  rfl

/-- The keys are removed if all of them can be. -/
theorem removeKeys_eq_none (hnodup : keys.Nodup) (h : removeKeys m keys = (m', none)) :
    (∀ i ∈ keys, ¬m.DontDelete i) ∧ ∀ i, m'.find i = if i ∈ keys then none else m.find i := by
  induction keys generalizing m with
  | nil =>
    obtain ⟨rfl, -⟩ := Prod.mk.inj h
    exact ⟨fun i hi => absurd hi List.not_mem_nil, fun i => (if_neg List.not_mem_nil).symm⟩
  | cons index keys ih =>
    rw [List.nodup_cons] at hnodup
    rw [removeKeys] at h
    split at h
    · exact absurd (Prod.mk.inj h).2 (Option.some_ne_none index)
    · rename_i hindex
      obtain ⟨hdelete, hfind⟩ := ih hnodup.2 h
      constructor
      · intro i hi
        rcases List.mem_cons.mp hi with rfl | hrest
        · exact hindex
        · have hne : i ≠ index := by
            rintro rfl
            exact hnodup.1 hrest
          rw [← dontDelete_remove_of_ne hne]
          exact hdelete i hrest
      · intro i
        rw [hfind, find_remove]
        by_cases hi : i = index
        · subst hi
          rw [if_pos rfl, ite_self, if_pos List.mem_cons_self]
        · rw [if_neg hi]
          refine if_congr ?_ rfl rfl
          rw [List.mem_cons, or_iff_right hi]

/-- The keys are removed from the largest down to the first one that cannot be. -/
theorem removeKeys_eq_some {d : ℕ} (hsorted : keys.Pairwise (· > ·))
    (h : removeKeys m keys = (m', some d)) :
    d ∈ keys ∧ m.DontDelete d ∧ (∀ i ∈ keys, d < i → ¬m.DontDelete i) ∧
      ∀ i, m'.find i = if i ∈ keys ∧ d < i then none else m.find i := by
  induction keys generalizing m with
  | nil => exact absurd (Prod.mk.inj h).2.symm (Option.some_ne_none d)
  | cons index keys ih =>
    rw [List.pairwise_cons] at hsorted
    rw [removeKeys] at h
    split at h
    · rename_i hindex
      obtain ⟨rfl, hd⟩ := Prod.mk.inj h
      obtain rfl := Option.some_inj.mp hd
      have hlast : ∀ i ∈ index :: keys, ¬index < i := by
        intro i hi
        rcases List.mem_cons.mp hi with rfl | hrest
        · exact Nat.lt_irrefl i
        · exact Nat.lt_asymm (hsorted.1 i hrest)
      exact ⟨List.mem_cons_self, hindex, fun i hi hlt => absurd hlt (hlast i hi),
        fun i => (if_neg fun hi => hlast i hi.1 hi.2).symm⟩
    · rename_i hindex
      obtain ⟨hmem, hd, hdelete, hfind⟩ := ih hsorted.2 h
      have hlt : d < index := hsorted.1 d hmem
      refine ⟨List.mem_cons_of_mem index hmem, ?_, ?_, ?_⟩
      · exact (dontDelete_remove_of_ne hlt.ne).mp hd
      · intro i hi hdi
        rcases List.mem_cons.mp hi with rfl | hrest
        · exact hindex
        · rw [← dontDelete_remove_of_ne (hsorted.1 i hrest).ne]
          exact hdelete i hrest hdi
      · intro i
        rw [hfind, find_remove]
        by_cases hi : i = index
        · subst hi
          rw [if_pos rfl, ite_self, if_pos ⟨List.mem_cons_self, hlt⟩]
        · rw [if_neg hi]
          refine if_congr ?_ rfl rfl
          rw [List.mem_cons, or_iff_right hi]

end RemoveKeys

/-- The keys in descending order. -/
theorem pairwise_sortedKeys (m : SparseArrayValueMap V) (newLength length : ℕ) :
    ((keysFrom m newLength length).insertionSort (· ≤ ·)).reverse.Pairwise (· > ·) := by
  have hnodup : ((keysFrom m newLength length).insertionSort (· ≤ ·)).Nodup :=
    (List.perm_insertionSort (· ≤ ·) _).nodup_iff.mpr (m.map.keys_nodup.filter _)
  have hsorted := List.pairwise_insertionSort (· ≤ ·) (keysFrom m newLength length)
  rw [List.pairwise_reverse]
  exact (hsorted.and hnodup).imp fun h => h.1.lt_of_ne h.2

theorem mem_sortedKeys {m : SparseArrayValueMap V} {length : ℕ} :
    i ∈ ((keysFrom m newLength length).insertionSort (· ≤ ·)).reverse ↔
      (m.find i).isSome ∧ newLength ≤ i ∧ i < length := by
  rw [List.mem_reverse, List.mem_insertionSort, keysFrom, List.mem_filter, mem_keys_iff,
    Bool.and_eq_true, decide_eq_true_iff, decide_eq_true_iff, @and_comm (i < length)]

variable {a : JSArray V}

/-- An array in sparse mode with its map: there is no vector, and the keys are below the length. -/
structure InSparseMode (a : JSArray V) (m : SparseArrayValueMap V) : Prop where
  sparseValueMap : a.sparseValueMap = some m
  sparseMode : m.sparseMode = true
  vector : a.vector = []
  lt_length : ∀ i, (m.find i).isSome → i < a.length

/-- Nothing behind the new length is in the way: it is removed, and the length is set. -/
structure Shortened (a : JSArray V) (m : SparseArrayValueMap V) (newLength : ℕ)
    (c : Completion V Bool) : Prop where
  result : c.result = true
  exception : c.exception = none
  length : c.array.length = newLength
  map : ∃ m', InSparseMode c.array m' ∧ m'.lengthIsReadOnly = m.lengthIsReadOnly ∧
    ∀ i, m'.find i = if newLength ≤ i then none else m.find i

/-- An index that cannot be deleted stops the removal: what is behind it is removed. -/
structure Stopped (a : JSArray V) (m : SparseArrayValueMap V) (d : ℕ) (throwException : Bool)
    (c : Completion V Bool) : Prop where
  result : c.result = false
  exception : c.exception =
    if throwException then some (.typeError "Unable to delete property.") else none
  length : c.array.length = d + 1
  map : ∃ m', InSparseMode c.array m' ∧ m'.lengthIsReadOnly = m.lengthIsReadOnly ∧
    ∀ i, m'.find i = if d < i then none else m.find i

/-- What a shorter length does to an array in sparse mode. -/
structure Truncates (a : JSArray V) (m : SparseArrayValueMap V) (newLength : ℕ)
    (throwException : Bool) (c : Completion V Bool) : Prop where
  shortened : (∀ i, newLength ≤ i → ¬m.DontDelete i) → Shortened a m newLength c
  stopped : ∀ d, newLength ≤ d → m.DontDelete d → (∀ i, d < i → ¬m.DontDelete i) →
    Stopped a m d throwException c
  call : c.call = none
  isExtensible : c.array.isExtensible = a.isExtensible
  property : c.array.property = a.property

section SetLength

variable {m : SparseArrayValueMap V} {newLength : ℕ}

theorem setLength_of_sparse (h : InSparseMode a m) (hwritable : m.lengthIsReadOnly = false)
    (hlt : newLength < a.length) (throwException : Bool) :
    a.setLength newLength throwException =
      match removeKeys m ((keysFrom m newLength a.length).insertionSort (· ≤ ·)).reverse with
      | (map, some index) =>
        { a with length := index + 1, sparseValueMap := some map }.reject throwException
          "Unable to delete property."
      | (map, none) =>
        let a := { a with sparseValueMap := some map }.truncateVector newLength
        { array := { a with length := newLength }, result := true } := by
  rw [setLength, h.sparseValueMap]
  dsimp only
  rw [hwritable, h.sparseMode, if_neg Bool.false_ne_true, if_pos hlt]
  exact if_pos rfl

theorem isSome_of_dontDelete {i : ℕ} (h : m.DontDelete i) : (m.find i).isSome := by
  rw [SparseArrayValueMap.DontDelete] at h
  cases hfind : m.find i with
  | none =>
    rw [hfind] at h
    exact absurd h Bool.false_ne_true
  | some e => rfl

/-- Removing the keys from a length on is removing every index from there on. -/
theorem find_sortedKeys (h : InSparseMode a m) {i : ℕ} (p : Prop) [Decidable p] :
    (if i ∈ ((keysFrom m newLength a.length).insertionSort (· ≤ ·)).reverse ∧ p then none
      else m.find i) = if newLength ≤ i ∧ p then none else m.find i := by
  rw [ite_congr (propext (and_congr_left' mem_sortedKeys)) (fun _ => rfl) fun _ => rfl]
  cases hfind : m.find i with
  | none => rw [ite_self, ite_self]
  | some e =>
    have hlt : i < a.length := h.lt_length i (by rw [hfind]; rfl)
    refine if_congr (and_congr_left fun _ => ?_) rfl rfl
    exact ⟨fun hi => hi.2.1, fun hi => ⟨rfl, hi, hlt⟩⟩

theorem vector_truncateVector (h : a.vector = []) : (a.truncateVector newLength).vector = [] := by
  rw [truncateVector, h]
  rfl

/-- `setLength` of an array in sparse mode whose length is writable, to a shorter length: if no index
from there on is protected from deletion all of them go, and else the last protected one stays with
what is before it. -/
theorem setLength_truncates (h : InSparseMode a m) (hwritable : m.lengthIsReadOnly = false)
    (hlt : newLength < a.length) (throwException : Bool) :
    Truncates a m newLength throwException (a.setLength newLength throwException) := by
  rw [setLength_of_sparse h hwritable hlt]
  have hsorted := pairwise_sortedKeys m newLength a.length
  have hflags := removeKeys_flags
    ((keysFrom m newLength a.length).insertionSort (· ≤ ·)).reverse m
  cases hkeys : removeKeys m ((keysFrom m newLength a.length).insertionSort (· ≤ ·)).reverse with
  | mk m' stop =>
    rw [hkeys] at hflags
    cases stop with
    | none =>
      obtain ⟨hdelete, hfind⟩ := removeKeys_eq_none (hsorted.imp fun hgt => Nat.ne_of_gt hgt) hkeys
      have hfind' : ∀ i, m'.find i = if newLength ≤ i then none else m.find i := by
        intro i
        have hkeep := @find_sortedKeys _ a m newLength h i True _
        simp only [and_true] at hkeep
        rw [hfind, hkeep]
      refine ⟨fun _ => ⟨rfl, rfl, rfl, m', ⟨rfl, hflags.1.trans h.sparseMode, ?_, ?_⟩, hflags.2,
        hfind'⟩, ?_, rfl, rfl, rfl⟩
      · exact vector_truncateVector h.vector
      · intro i hi
        rw [hfind'] at hi
        split at hi
        · exact absurd hi Bool.false_ne_true
        · rename_i hle
          exact Nat.lt_of_not_le hle
      · intro d hle hd
        have hsome := isSome_of_dontDelete hd
        exact absurd hd (hdelete d (mem_sortedKeys.mpr ⟨hsome, hle, h.lt_length d hsome⟩))
    | some d =>
      obtain ⟨hmem, hd, hdelete, hfind⟩ := removeKeys_eq_some hsorted hkeys
      have hle : newLength ≤ d := (mem_sortedKeys.mp hmem).2.1
      have hfind' : ∀ i, m'.find i = if d < i then none else m.find i := by
        intro i
        rw [hfind, find_sortedKeys h]
        refine if_congr (and_iff_right_of_imp fun hi => ?_) rfl rfl
        exact hle.trans hi.le
      refine ⟨fun hall => absurd hd (hall d hle), fun d' hle' hd' hlast => ?_, rfl, rfl, rfl⟩
      have heq : d' = d := by
        rcases Nat.lt_trichotomy d' d with hless | heq | hmore
        · exact absurd hd (hlast d hless)
        · exact heq
        · have hsome := isSome_of_dontDelete hd'
          exact absurd hd' (hdelete d' (mem_sortedKeys.mpr ⟨hsome, hle', h.lt_length d' hsome⟩)
            hmore)
      subst heq
      refine ⟨rfl, rfl, rfl, m', ⟨rfl, hflags.1.trans h.sparseMode, h.vector, ?_⟩, hflags.2, hfind'⟩
      intro i hi
      rw [hfind'] at hi
      split at hi
      · exact absurd hi Bool.false_ne_true
      · rename_i hnot
        exact Nat.lt_succ_of_le (not_lt.mp hnot)

/-- Three entries, the middle one protected from deletion. -/
def exampleMap : SparseArrayValueMap ℕ :=
  ((({ sparseMode := true } : SparseArrayValueMap ℕ).set 1 (.plain 10)).set 3
    { value := some (.value 30), attributes := dontDelete }).set 5 (.plain 50)

def exampleSparse : JSArray ℕ :=
  { JSArray.create 6 with vector := [], sparseValueMap := some exampleMap }

theorem inSparseMode_example : InSparseMode exampleSparse exampleMap := by
  refine ⟨rfl, rfl, rfl, fun i hi => ?_⟩
  rw [exampleMap, find_set, find_set, find_set] at hi
  change i < 6
  split at hi
  · omega
  · split at hi
    · omega
    · split at hi
      · omega
      · exact absurd hi Bool.false_ne_true

theorem setLength_truncates_example :
    Truncates exampleSparse exampleMap 2 true (exampleSparse.setLength 2 true) :=
  setLength_truncates inSparseMode_example rfl (by decide) true

end SetLength

end JSArray

end JavaScriptCore
end WebKit
