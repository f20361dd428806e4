import WebKit.JavaScriptCore.JSArray

/-!
# The storage of an array outside sparse mode

`checkConsistency` of the source says what an array keeps between two operations: the counter of the
values in the vector is right, no value lies at or behind the length, and the keys of the map lie
behind the vector.  Here that is `Consistent`, with what the asserts of the single functions add: the
map has neither flag set and plain entries only, and vector and bias fit into one allocation.

The vector and the map together are one function from indices to values, `contents`.  Every
operation is described by what it does to the length and to the contents, which `Becomes` says
together with the promise that a consistent array stays consistent.  Most of that needs only that the
map lies behind the vector (`Placed`), so it also serves the functions that leave the counter or the
length behind for a while.
-/

namespace WebKit

open List Slots Function
namespace JavaScriptCore

open Attributes

variable {V : Type*}

/-! ## Entries and the map -/

/-- A value with default attributes. -/
def SparseArrayEntry.plain (v : V) : SparseArrayEntry V := { value := some (.value v) }

namespace SparseArrayValueMap

variable {m : SparseArrayValueMap V} {i j : ℕ}

theorem find_set (e : SparseArrayEntry V) :
    (m.set i e).find j = if j = i then some e else m.find j := by
  unfold find set
  by_cases h : j = i
  · subst h
    rw [if_pos rfl, AList.lookup_insert]
  · rw [if_neg h, AList.lookup_insert_ne h]

theorem find_remove : (m.remove i).find j = if j = i then none else m.find j := by
  unfold find remove
  by_cases h : j = i
  · subst h
    rw [if_pos rfl, AList.lookup_erase]
  · rw [if_neg h, AList.lookup_erase_ne h]

theorem find_add : (m.add i).1.find j = if j = i then some ((m.find i).getD {}) else m.find j := by
  unfold add
  by_cases hi : (m.find i).isSome
  · rw [if_pos hi]
    obtain ⟨e, he⟩ := Option.isSome_iff_exists.mp hi
    by_cases h : j = i
    · subst h
      rw [if_pos rfl, he]
      rfl
    · rw [if_neg h]
  · have hnone : m.find i = none := by simpa using hi
    rw [hnone]
    exact find_set (m := m) (i := i) (j := j) {}

theorem mem_keys_iff : i ∈ m.map.keys ↔ (m.find i).isSome := by
  unfold find
  rw [AList.lookup_isSome, AList.mem_keys]

theorem find_of_mem_entries (h : ⟨i, e⟩ ∈ m.map.entries) :
    m.find i = some e := AList.mem_lookup_iff.mpr h

theorem isEmpty_iff : m.isEmpty ↔ ∀ i, m.find i = none := by
  unfold isEmpty size
  rw [beq_iff_eq, length_eq_zero_iff, eq_nil_iff_forall_not_mem]
  simp only [mem_keys_iff, Option.not_isSome_iff_eq_none]

/-- What the map of a consistent array is: no flag is set, and the entries are plain and have their
keys from `lo` up to `hi`. -/
structure Fits (m : SparseArrayValueMap V) (lo hi : ℕ) : Prop where
  sparseMode : m.sparseMode = false
  lengthIsReadOnly : m.lengthIsReadOnly = false
  plain : ∀ i e, m.find i = some e → lo ≤ i ∧ i < hi ∧ ∃ v, e = SparseArrayEntry.plain v

theorem fits_empty (lo hi : ℕ) : Fits (V := V) {} lo hi where
  sparseMode := rfl
  lengthIsReadOnly := rfl
  plain := by
    intro i e he
    exact absurd he (by simp [find])

variable {lo hi : ℕ}

theorem Fits.mono (h : m.Fits lo hi) (hle : hi ≤ hi') : m.Fits lo hi' where
  sparseMode := h.sparseMode
  lengthIsReadOnly := h.lengthIsReadOnly
  plain := by
    intro i e he
    obtain ⟨h1, h2, h3⟩ := h.plain i e he
    exact ⟨h1, h2.trans_le hle, h3⟩

theorem Fits.remove (h : m.Fits lo hi) (i : ℕ) : (m.remove i).Fits lo hi where
  sparseMode := h.sparseMode
  lengthIsReadOnly := h.lengthIsReadOnly
  plain := by
    intro j e he
    rw [find_remove] at he
    split at he
    · cases he
    · exact h.plain j e he

/-- In a map of plain entries, `put` stores the value and calls nothing. -/
theorem Fits.put_eq (h : m.Fits lo hi) (i : ℕ) (v : V) :
    m.put i (some v) = (((m.add i).1).set i (.plain v), none) := by
  have hentry : ((m.add i).1.find i).getD {} = (m.find i).getD {} := by
    rw [find_add, if_pos rfl]
    rfl
  have hattr : ((m.find i).getD {}).attributes = 0#32 := by
    cases he : m.find i with
    | none => rfl
    | some e =>
      obtain ⟨-, -, w, rfl⟩ := h.plain i e he
      rfl
  simp only [put, hentry, hattr]
  rfl

theorem Fits.find_put (h : m.Fits lo hi) (i : ℕ) (v : V) (j : ℕ) :
    (m.put i (some v)).1.find j = if j = i then some (.plain v) else m.find j := by
  rw [h.put_eq, find_set]
  by_cases hj : j = i
  · rw [if_pos hj, if_pos hj]
  · rw [if_neg hj, if_neg hj, find_add, if_neg hj]

theorem Fits.put (h : m.Fits lo hi) (hlo : lo ≤ i) (hhi : i < hi) (v : V) :
    (m.put i (some v)).1.Fits lo hi where
  sparseMode := by
    rw [h.put_eq]
    unfold add
    split <;> exact h.sparseMode
  lengthIsReadOnly := by
    rw [h.put_eq]
    unfold add
    split <;> exact h.lengthIsReadOnly
  plain := by
    intro j e he
    rw [h.find_put] at he
    split at he
    · next hj =>
      subst hj
      cases he
      exact ⟨hlo, hhi, v, rfl⟩
    · exact h.plain j e he

/-- Removing keys one after the other removes them all. -/
theorem find_foldl_remove (keys : List ℕ) (m : SparseArrayValueMap V) (j : ℕ) :
    (keys.foldl (·.remove ·) m).find j = if j ∈ keys then none else m.find j := by
  induction keys generalizing m with
  | nil => simp
  | cons k keys ih =>
    rw [foldl_cons, ih, find_remove]
    by_cases hk : j = k <;> simp [hk]

theorem Fits.foldl_remove (keys : List ℕ) (h : m.Fits lo hi) :
    (keys.foldl (·.remove ·) m).Fits lo hi := by
  induction keys generalizing m with
  | nil => exact h
  | cons k keys ih => exact ih (h.remove k)

end SparseArrayValueMap

namespace JSArray

variable {a : JSArray V}

/-! ## Contents and consistency -/

/-- The value at an index, wherever it is kept. -/
def contents (a : JSArray V) (i : ℕ) : Option V :=
  if i < a.vectorLength then a.slot i
  else (a.sparseValueMap.bind (·.find i)).bind (·.getNonSparseMode)

/-- The map lies behind the vector and below the length, and the vector fits into an allocation. -/
structure Placed (a : JSArray V) : Prop where
  isExtensible : a.isExtensible = true
  length_le : a.length ≤ 0xFFFFFFFF
  capacity_le : a.vectorLength + a.indexBias ≤ maxStorageVectorLength
  fits : ∀ m, a.sparseValueMap = some m → m.Fits a.vectorLength a.length

/-- `checkConsistency`: also the counter is right, and no value is at or behind the length. -/
structure Consistent (a : JSArray V) : Prop extends Placed a where
  numValues : a.numValuesInVector = filled a.vector
  slot_lt : ∀ i, a.slot i ≠ none → i < a.length

variable {i n : ℕ} {m : SparseArrayValueMap V} {b : JSArray V} {f : ℕ → Option V}

theorem contents_of_lt (h : i < a.vectorLength) : a.contents i = a.slot i := if_pos h

theorem contents_of_map (hm : a.sparseValueMap = some m) (h : a.vectorLength ≤ i) :
    a.contents i = (m.find i).bind (·.getNonSparseMode) := by
  unfold contents
  rw [if_neg (not_lt.mpr h), hm]
  rfl

/-- Without a map, only the vector has values. -/
theorem contents_of_none (hm : a.sparseValueMap = none) (i : ℕ) : a.contents i = a.slot i := by
  unfold contents
  split
  · rfl
  · next h =>
    rw [hm]
    exact (get_of_length_le (not_lt.mp h)).symm

/-- A lookup of an array index reads the contents below the length. -/
theorem Placed.getOwnPropertySlotByIndex_eq [Inhabited V] (h : a.Placed) (hi : i ≤ maxArrayIndex) :
    a.getOwnPropertySlotByIndex i
      = if i < a.length then (a.contents i).map fun v => .value (some v) else none := by
  unfold getOwnPropertySlotByIndex
  by_cases hlen : a.length ≤ i
  · rw [if_pos hlen, if_neg (not_lt.mpr hi), if_neg (not_lt.mpr hlen)]
  · rw [if_neg hlen, if_pos (not_le.mp hlen)]
    unfold contents
    split
    · rfl
    · cases hm : a.sparseValueMap with
      | none => rfl
      | some m =>
        cases he : m.find i with
        | none => simp [he]
        | some e =>
          obtain ⟨-, -, v, rfl⟩ := (h.fits m hm).plain i e he
          simp [he, SparseArrayEntry.plain, SparseArrayEntry.get, SparseArrayEntry.getNonSparseMode]

namespace Consistent

/-- A value lies below the length. -/
theorem lt_length (h : a.Consistent) (hi : a.contents i ≠ none) : i < a.length := by
  unfold contents at hi
  split at hi
  · exact h.slot_lt i hi
  · cases hm : a.sparseValueMap with
    | none => exact absurd (by rw [hm]; rfl) hi
    | some m =>
      rw [hm] at hi
      cases he : m.find i with
      | none => exact absurd (by simp [he]) hi
      | some e => exact ((h.fits m hm).plain i e he).2.1

/-- Every lookup of an array index reads the contents. -/
theorem getOwnPropertySlotByIndex_eq [Inhabited V] (h : a.Consistent)
    (hi : i ≤ maxArrayIndex) :
    a.getOwnPropertySlotByIndex i = (a.contents i).map fun v => .value (some v) := by
  rw [h.toPlaced.getOwnPropertySlotByIndex_eq hi]
  split
  · rfl
  · next hlen =>
    have hnone : a.contents i = none := by
      by_contra hne
      exact hlen (h.lt_length hne)
    rw [hnone]
    rfl

end Consistent

/-- What an operation makes of an array: one of the given length and contents, which is consistent
if the array was. -/
structure Becomes (a b : JSArray V) (length : ℕ) (contents : ℕ → Option V) : Prop where
  placed : b.Placed
  consistent : a.Consistent → b.Consistent
  length_eq : b.length = length
  contents_eq : ∀ i, b.contents i = contents i
  property_eq : b.property = a.property

/-! ## Growing the vector -/

theorem le_getNewVectorLength (a : JSArray V) (last : ℕ) (hn : n ≤ maxStorageVectorLength) :
    n ≤ a.getNewVectorLength last n := by
  refine le_min ?_ hn
  split
  · next h => exact h.le
  · split
    · exact le_max_left _ _
    · omega

/-- A vector that grows gets empty slots at its end, and at least as many as were asked for. -/
theorem increaseVectorLength_spec (h : a.increaseVectorLength heap n = some b)
    (hn : a.vectorLength < n) :
    n ≤ b.vectorLength ∧ b.vectorLength + b.indexBias ≤ maxStorageVectorLength
      ∧ ∃ k bias, b = { a with vector := a.vector ++ List.replicate k none, indexBias := bias } := by
  unfold increaseVectorLength at h
  split at h
  · cases h
  next hmax =>
  have hle := a.le_getNewVectorLength heap.lastArraySize (not_lt.mp hmax)
  have hnew : a.getNewVectorLength heap.lastArraySize n ≤ maxStorageVectorLength := min_le_right _ _
  generalize a.getNewVectorLength heap.lastArraySize n = newLength at h hle hnew
  have hlen : (a.vector ++ List.replicate (newLength - a.vectorLength) none).length = newLength := by
    rw [length_append, length_replicate]
    show a.vectorLength + (newLength - a.vectorLength) = newLength
    omega
  split at h
  · cases h
  · split at h
    · next hbias =>
      cases h
      refine ⟨?_, ?_, _, a.indexBias, rfl⟩
      · show n ≤ List.length _
        rw [hlen]
        exact hle
      · show List.length _ + a.indexBias ≤ _
        rw [hlen, hbias]
        exact hnew
    · cases h
      refine ⟨?_, ?_, _, _, rfl⟩
      · show n ≤ List.length _
        rw [hlen]
        exact hle
      · show List.length _ + min _ _ ≤ _
        rw [hlen]
        omega

/-! ## Moving the map into the vector -/

theorem find?_entries (l : List (Sigma fun _ : ℕ => SparseArrayEntry V)) (i : ℕ) :
    ((l.map fun e => (e.1, e.2.getNonSparseMode)).find? fun e => e.1 = i).map Prod.snd
      = (l.dlookup i).map (·.getNonSparseMode) := by
  induction l with
  | nil => rfl
  | cons e l ih =>
    obtain ⟨k, e⟩ := e
    rw [map_cons]
    by_cases h : k = i
    · subst h
      rw [List.find?_cons_of_pos (by simp), dlookup_cons_eq]
      rfl
    · rw [List.find?_cons_of_neg (by simpa using h), dlookup_cons_ne _ _ (Ne.symm h), ih]

section Copy

variable {m : SparseArrayValueMap V} {lo hi : ℕ} {vector : List (Option V)}

theorem map_fst_entries (m : SparseArrayValueMap V) :
    (m.map.entries.map fun e => (e.1, e.2.getNonSparseMode)).map Prod.fst = m.map.keys := by
  rw [map_map]
  rfl

section

variable (hm : m.Fits lo hi) (hhi : hi ≤ vector.length)
include hhi hm

theorem lt_of_mem_entries :
    ∀ e ∈ m.map.entries.map (fun e => (e.1, e.2.getNonSparseMode)), e.1 < vector.length := by
  intro e he
  obtain ⟨⟨k, e⟩, hmem, rfl⟩ := mem_map.mp he
  exact (hm.plain k e (SparseArrayValueMap.find_of_mem_entries hmem)).2.1.trans_le hhi

theorem get_copyEntries (i : ℕ) : get (copyEntries m vector) i
      = ((m.find i).map (·.getNonSparseMode)).getD (get vector i) := by
  have hnd : ((m.map.entries.map fun e => (e.1, e.2.getNonSparseMode)).map Prod.fst).Nodup := by
    rw [map_fst_entries]
    exact m.map.keys_nodup
  unfold copyEntries
  rw [get_writes hnd (lt_of_mem_entries hm hhi), find?_entries]
  rfl

theorem filled_copyEntries (hempty : ∀ i, lo ≤ i → get vector i = none) :
    filled (copyEntries m vector) = filled vector + m.size := by
  have hnd : ((m.map.entries.map fun e => (e.1, e.2.getNonSparseMode)).map Prod.fst).Nodup := by
    rw [map_fst_entries]
    exact m.map.keys_nodup
  unfold copyEntries
  rw [filled_writes hnd (lt_of_mem_entries hm hhi)]
  · rw [SparseArrayValueMap.size, ← map_fst_entries, length_map, length_map, length_map]
  · intro e he
    obtain ⟨⟨k, e⟩, hmem, rfl⟩ := mem_map.mp he
    exact hempty k (hm.plain k e (SparseArrayValueMap.find_of_mem_entries hmem)).1
  · intro e he
    obtain ⟨⟨k, e⟩, hmem, rfl⟩ := mem_map.mp he
    obtain ⟨-, -, v, rfl⟩ := hm.plain k e (SparseArrayValueMap.find_of_mem_entries hmem)
    simp [SparseArrayEntry.plain, SparseArrayEntry.getNonSparseMode]

end

end Copy

/-! ## Puts -/

/-- The length after a put at `i`. -/
theorem length_put_eq (n i : ℕ) : (if n ≤ i then i + 1 else n) = max n (i + 1) := by
  split <;> omega

variable (h : a.Placed)

include h

/-- The array made longer, with nothing stored. -/
theorem Placed.extend (hn : a.length ≤ n) (hmax : n ≤ 0xFFFFFFFF) :
    Becomes a { a with length := n } n a.contents := by
  have hplaced : Placed { a with length := n } :=
    ⟨h.isExtensible, hmax, h.capacity_le, fun m hm => (h.fits m hm).mono hn⟩
  refine ⟨hplaced, fun hc => ⟨hplaced, hc.numValues, ?_⟩, rfl, fun _ => rfl, rfl⟩
  exact fun i hi => (hc.slot_lt i hi).trans_le hn

/-- The vector made longer by empty slots, in an array without a map. -/
theorem Placed.grow (hm : a.sparseValueMap = none) (k bias : ℕ)
    (hcap : a.vectorLength + k + bias ≤ maxStorageVectorLength) :
    Becomes a { a with vector := a.vector ++ List.replicate k none, indexBias := bias } a.length
      a.contents := by
  have hplaced : Placed { a with vector := a.vector ++ List.replicate k none, indexBias := bias } := by
    refine ⟨h.isExtensible, h.length_le, ?_, ?_⟩
    · show List.length (_ ++ _) + bias ≤ _
      rw [length_append, length_replicate]
      exact hcap
    · intro m hm'
      exact absurd (hm'.symm.trans hm) (by simp)
  refine ⟨hplaced, fun hc => ⟨hplaced, ?_, ?_⟩, rfl, ?_, rfl⟩
  · rw [filled_append_replicate]
    exact hc.numValues
  · intro i hi
    refine hc.slot_lt i ?_
    unfold slot
    rw [← get_append_replicate a.vector k i]
    exact hi
  · intro i
    rw [contents_of_none hm]
    refine (contents_of_none ?_ i).trans (get_append_replicate a.vector k i)
    exact hm

omit h in
/-- The contents after a slot of the vector is written. -/
theorem contents_set (i : ℕ) (hi : i < a.vectorLength) (o : Option V) (n num : ℕ) (j : ℕ) :
    contents { a with length := n, numValuesInVector := num, vector := a.vector.set i o } j
      = update a.contents i o j := by
  have hlen : (a.vector.set i o).length = a.vectorLength := length_set ..
  rw [update_apply]
  unfold contents vectorLength
  rw [hlen]
  by_cases hj : j < a.vectorLength
  · rw [if_pos hj]
    show get (a.vector.set i o) j = _
    rw [get_set hi]
    split
    · rfl
    · rw [if_pos (show j < a.vector.length from hj)]
      rfl
  · have hne : j ≠ i := by omega
    rw [if_neg hj, if_neg hne, if_neg (show ¬j < a.vector.length from hj)]

/-- A value stored in the vector, with the counter set to `num`. -/
theorem Placed.store (hi : i ≤ maxArrayIndex) (hvec : i < a.vectorLength) (v : V)
    (num : ℕ) (hnum : a.Consistent →
      num = if (a.slot i).isNone then a.numValuesInVector + 1 else a.numValuesInVector) :
    Becomes a
      { a with
        length := max a.length (i + 1)
        numValuesInVector := num
        vector := a.vector.set i (some v) }
      (max a.length (i + 1)) (update a.contents i (some v)) := by
  have hplaced : Placed { a with
      length := max a.length (i + 1)
      numValuesInVector := num
      vector := a.vector.set i (some v) } := by
    refine ⟨h.isExtensible, ?_, ?_, ?_⟩
    · have := h.length_le
      show max a.length (i + 1) ≤ _
      unfold maxArrayIndex at hi
      omega
    · show List.length (List.set _ _ _) + _ ≤ _
      rw [length_set]
      exact h.capacity_le
    · intro m hm
      show m.Fits (List.length (List.set _ _ _)) _
      rw [length_set]
      exact (h.fits m hm).mono (le_max_left _ _)
  refine ⟨hplaced, fun hc => ⟨hplaced, ?_, ?_⟩, rfl, contents_set i hvec _ _ _, rfl⟩
  · have hcount := filled_set hvec (some v)
    rw [hnum hc, hc.numValues]
    unfold slot
    cases hs : get a.vector i <;> simp [hs] at hcount ⊢ <;> omega
  · intro j hj
    show j < max a.length (i + 1)
    change get (a.vector.set i (some v)) j ≠ none at hj
    rw [get_set hvec] at hj
    split at hj
    · omega
    · have := hc.slot_lt j hj
      omega

/-- A value stored in the map. -/
theorem Placed.putMap (hi : i < a.length) (hvec : a.vectorLength ≤ i)
    (hm : m.Fits a.vectorLength a.length)
    (hfind : ∀ j, m.find j = a.sparseValueMap.bind (·.find j)) (v : V) :
    Becomes a { a with sparseValueMap := some (m.put i (some v)).1 } a.length
      (update a.contents i (some v)) := by
  have hplaced : Placed { a with sparseValueMap := some (m.put i (some v)).1 } := by
    refine ⟨h.isExtensible, h.length_le, h.capacity_le, ?_⟩
    intro m' hm'
    cases hm'
    exact hm.put hvec hi v
  refine ⟨hplaced, fun hc => ⟨hplaced, hc.numValues, hc.slot_lt⟩, rfl, ?_, rfl⟩
  intro j
  rw [update_apply]
  unfold contents
  by_cases hj : j < a.vectorLength
  · have hne : j ≠ i := by omega
    rw [if_neg hne, if_pos hj]
    exact if_pos hj
  · refine (if_neg hj).trans ?_
    show ((m.put i (some v)).1.find j).bind _ = _
    rw [hm.find_put]
    split
    · rfl
    · rw [hfind]

/-- The map moved into a vector that has room for all indices below the length. -/
theorem Placed.migrate (hm : a.sparseValueMap = some m) (k bias : ℕ)
    (hcap : a.vectorLength + k + bias ≤ maxStorageVectorLength)
    (hlen : a.length ≤ a.vectorLength + k) :
    Becomes a
      { a with
        vector := copyEntries m (a.vector ++ List.replicate k none)
        numValuesInVector := a.numValuesInVector + m.size
        indexBias := bias
        sparseValueMap := none } a.length a.contents := by
  have hfits := h.fits m hm
  have hhi : a.length ≤ (a.vector ++ List.replicate k none).length := by
    rw [length_append, length_replicate]
    exact hlen
  have hget : ∀ i, Slots.get (copyEntries m (a.vector ++ List.replicate k none)) i = a.contents i := by
    intro i
    rw [get_copyEntries hfits hhi, Slots.get_append_replicate]
    cases he : m.find i with
    | none =>
      unfold contents
      rw [hm]
      simp only [Option.bind_some, he]
      split
      · rfl
      · next hi => exact Slots.get_of_length_le (not_lt.mp hi)
    | some e =>
      rw [contents_of_map hm (hfits.plain i e he).1, he]
      rfl
  have hplaced : Placed { a with
      vector := copyEntries m (a.vector ++ List.replicate k none)
      numValuesInVector := a.numValuesInVector + m.size
      indexBias := bias
      sparseValueMap := none } := by
    refine ⟨h.isExtensible, h.length_le, ?_, by rintro m' ⟨⟩⟩
    show List.length (copyEntries _ _) + bias ≤ _
    unfold copyEntries
    rw [Slots.length_writes, length_append, length_replicate]
    exact hcap
  refine ⟨hplaced, fun hc => ⟨hplaced, ?_, ?_⟩, rfl, ?_, rfl⟩
  · rw [filled_copyEntries hfits hhi, Slots.filled_append_replicate]
    · exact congrArg (· + m.size) hc.numValues
    · intro i hi
      rw [Slots.get_append_replicate]
      exact Slots.get_of_length_le hi
  · intro i hi
    refine hc.lt_length ?_
    rw [← hget]
    exact hi
  · intro i
    rw [contents_of_none rfl]
    exact hget i

omit h in
theorem Becomes.trans (h : Becomes a b n f) (h' : Becomes b c n' g) : Becomes a c n' g :=
  ⟨h'.placed, fun hc => h'.consistent (h.consistent hc), h'.length_eq, h'.contents_eq,
    h'.property_eq.trans h.property_eq⟩

omit h in
theorem Becomes.contents_funext (h : Becomes a b n f) : b.contents = f := funext h.contents_eq

/-- An operation that returns `r` with the array changed to the given length and contents. -/
structure Returns {R : Type*} (a : JSArray V) (c : Completion V R) (length : ℕ)
    (contents : ℕ → Option V) (r : R) : Prop where
  becomes : Becomes a c.array length contents
  result_eq : c.result = r
  exception_eq : c.exception = none
  call_eq : c.call = none

theorem Placed.putByIndexBeyondVectorLength (heap : Heap) (hi : i ≤ maxArrayIndex)
    (hvec : a.vectorLength ≤ i) (v : V) :
    Returns a (a.putByIndexBeyondVectorLength heap i (some v)) (max a.length (i + 1))
      (update a.contents i (some v)) () := by
  have hmax : max a.length (i + 1) ≤ 0xFFFFFFFF := by
    have := h.length_le
    unfold maxArrayIndex at hi
    omega
  have hext := h.extend (le_max_left a.length (i + 1)) hmax
  have hlt : i < max a.length (i + 1) := by omega
  unfold JSArray.putByIndexBeyondVectorLength
  simp only [length_put_eq]
  split
  · next hm =>
    -- Without a map the vector grows to hold the index, or a first map is made for it.
    split
    · next b hgrown =>
      split at hgrown
      · obtain ⟨hle, hcap, k, bias, rfl⟩ :=
          increaseVectorLength_spec hgrown (Nat.lt_succ_of_le hvec)
        change i + 1 ≤ (a.vector ++ List.replicate k none).length at hle
        change (a.vector ++ List.replicate k none).length + bias ≤ _ at hcap
        rw [length_append, length_replicate] at hle hcap
        have hgrow := hext.placed.grow hm k bias hcap
        have hslot : get (a.vector ++ List.replicate k none) i = none := by
          rw [get_append_replicate]
          exact get_of_length_le hvec
        have hroom : i < (a.vector ++ List.replicate k none).length := by
          rw [length_append, length_replicate]
          omega
        have hstore := hgrow.placed.store hi hroom v (a.numValuesInVector + 1)
          (fun _ => by simp [slot, hslot])
        refine ⟨?_, rfl, rfl, rfl⟩
        have hall := (hext.trans hgrow).trans hstore
        rw [hgrow.contents_funext] at hall
        simp only [le_max_right, max_eq_left] at hall
        exact hall
      · cases hgrown
    · refine ⟨?_, rfl, rfl, (SparseArrayValueMap.fits_empty 0 0).put_eq i v ▸ rfl⟩
      have hput := hext.placed.putMap hlt hvec (SparseArrayValueMap.fits_empty _ _)
        (m := {}) (fun j => by simp [hm, SparseArrayValueMap.find]) v
      have hall := hext.trans hput
      exact hall
  · next m hm =>
    have hfits := h.fits m hm
    have hwritable : ¬(a.length ≤ i ∧ (m.lengthIsReadOnly || !a.isExtensible) = true) := by
      rw [hfits.lengthIsReadOnly, h.isExtensible]
      simp
    rw [if_neg hwritable]
    split
    · refine ⟨?_, rfl, rfl, ?_⟩
      · have hput := hext.placed.putMap hlt hvec (hext.placed.fits m hm)
          (fun j => by simp [hm]) v
        have hall := hext.trans hput
        exact hall
      · rw [hfits.put_eq]
    · next b hgrown =>
      split at hgrown
      · cases hgrown
      -- With a map the vector grows to the length, so that every key of the map has a slot in it.
      · obtain ⟨hle, hcap, k, bias, rfl⟩ :=
          increaseVectorLength_spec hgrown (by show a.vectorLength < max a.length (i + 1); omega)
        change max a.length (i + 1) ≤ (a.vector ++ List.replicate k none).length at hle
        change (a.vector ++ List.replicate k none).length + bias ≤ _ at hcap
        rw [length_append, length_replicate] at hle hcap
        have hmig := hext.placed.migrate hm k bias hcap hle
        have hroom : i < (copyEntries m (a.vector ++ List.replicate k none)).length := by
          unfold copyEntries
          rw [length_writes, length_append, length_replicate]
          exact hlt.trans_le hle
        have hstore := hmig.placed.store hi hroom v _ fun _ => rfl
        refine ⟨?_, rfl, rfl, rfl⟩
        have hall := (hext.trans hmig).trans hstore
        rw [hmig.contents_funext] at hall
        simp only [le_max_right, max_eq_left] at hall
        exact hall

theorem Placed.putByIndex (heap : Heap) (hi : i ≤ maxArrayIndex) (v : V) :
    Returns a (a.putByIndex heap i (some v)) (max a.length (i + 1))
      (update a.contents i (some v)) () := by
  unfold JSArray.putByIndex
  by_cases hvec : i < a.vectorLength
  · rw [if_pos hvec, length_put_eq]
    refine ⟨h.store hi hvec v _ fun hc => ?_, rfl, rfl, rfl⟩
    -- A slot at or behind the length is empty, so the two ways to count a new value agree.
    by_cases hlen : a.length ≤ i
    · have hnone : a.slot i = none := by
        by_contra hne
        exact absurd (hc.slot_lt i hne) (not_lt.mpr hlen)
      simp [hnone]
    · rw [if_neg hlen]
  · rw [if_neg hvec, if_neg (not_lt.mpr hi)]
    exact h.putByIndexBeyondVectorLength heap hi (not_lt.mp hvec) v

/-- `push`, while there is an index left. -/
theorem Placed.push (heap : Heap) (hlen : a.length ≤ maxArrayIndex) (v : V) :
    Returns a (a.push heap (some v)) (a.length + 1)
      (update a.contents a.length (some v)) () := by
  unfold JSArray.push
  by_cases hvec : a.length < a.vectorLength
  · rw [if_pos hvec]
    refine ⟨?_, rfl, rfl, rfl⟩
    have hstore := h.store hlen hvec v (a.numValuesInVector + 1) fun hc => by
      have hnone : a.slot a.length = none := by
        by_contra hne
        exact absurd (hc.slot_lt _ hne) (lt_irrefl _)
      rw [hnone]
      rfl
    simp only [Nat.le_succ, max_eq_right] at hstore
    exact hstore
  · have hne : a.length ≠ 0xFFFFFFFF := by
      unfold maxArrayIndex at hlen
      omega
    rw [if_neg hvec, if_neg hne]
    have hput := h.putByIndexBeyondVectorLength heap hlen (not_lt.mp hvec) v
    rw [max_eq_right (Nat.le_succ a.length)] at hput
    exact hput

/-- `push` on an array of the greatest length stores an ordinary property and throws. -/
theorem Placed.push_of_full (heap : Heap) (hlen : a.length = 0xFFFFFFFF) (v : V) :
    a.push heap (some v)
      = { array := { a with property := some v }
          result := ()
          exception := some (.rangeError "Invalid array length") } := by
  have hvec : ¬a.length < a.vectorLength := by
    have := h.capacity_le
    unfold maxStorageVectorLength at this
    omega
  have hidx : maxArrayIndex < a.length := by
    rw [hlen]
    decide
  unfold JSArray.push JSArray.putByIndex
  rw [if_neg hvec, if_pos hlen, if_neg hvec, if_pos hidx]
  simp [putProperty, h.isExtensible]

/-! ## Deletions -/

/-- A slot of the vector emptied. -/
theorem Placed.clearSlot (hvec : i < a.vectorLength) (hsome : (a.slot i).isSome) :
    Becomes a { a with
        vector := a.vector.set i none
        numValuesInVector := a.numValuesInVector - 1 }
      a.length (update a.contents i none) := by
  have hplaced : Placed { a with
      vector := a.vector.set i none
      numValuesInVector := a.numValuesInVector - 1 } := by
    refine ⟨h.isExtensible, h.length_le, ?_, ?_⟩
    · show List.length (List.set _ _ _) + _ ≤ _
      rw [length_set]
      exact h.capacity_le
    · intro m hm
      show m.Fits (List.length (List.set _ _ _)) _
      rw [length_set]
      exact h.fits m hm
  refine ⟨hplaced, fun hc => ⟨hplaced, ?_, ?_⟩, rfl, contents_set i hvec _ _ _, rfl⟩
  · have hcount := filled_set hvec (none : Option V)
    obtain ⟨v, hv⟩ := Option.isSome_iff_exists.mp hsome
    unfold slot at hv
    rw [hv] at hcount
    show a.numValuesInVector - 1 = filled (List.set _ _ _)
    rw [hc.numValues]
    simp only [Option.toList_some, Option.toList_none, length_singleton, length_nil]
      at hcount
    omega
  · intro j hj
    change get (a.vector.set i none) j ≠ none at hj
    rw [get_set hvec] at hj
    split at hj
    · exact absurd rfl hj
    · exact hc.slot_lt j hj

/-- An entry of the map removed, and perhaps the map with it. -/
theorem Placed.removeEntry (hm : a.sparseValueMap = some m) (hi : a.vectorLength ≤ i)
    (hfits : ∀ m', o = some m' → m'.Fits a.vectorLength a.length)
    (hfind : ∀ j, o.bind (·.find j) = if j = i then none else m.find j) :
    Becomes a { a with sparseValueMap := o } a.length (update a.contents i none) := by
  have hplaced : Placed { a with sparseValueMap := o } :=
    ⟨h.isExtensible, h.length_le, h.capacity_le, hfits⟩
  refine ⟨hplaced, fun hc => ⟨hplaced, hc.numValues, hc.slot_lt⟩, rfl, ?_, rfl⟩
  intro j
  rw [update_apply]
  unfold contents
  by_cases hj : j < a.vectorLength
  · have hne : j ≠ i := by omega
    rw [if_neg hne, if_pos hj]
    exact if_pos hj
  · refine (if_neg hj).trans ?_
    rw [hfind, hm]
    split <;> rfl

omit h in
theorem update_none_of_none (h : f i = none) : update f i none = f := by
  rw [← h, update_eq_self]

theorem Placed.deletePropertyByIndex (hi : i ≤ maxArrayIndex) :
    Returns a (a.deletePropertyByIndex i) a.length (update a.contents i none) true := by
  have hself : a.contents i = none → Becomes a a a.length (update a.contents i none) := by
    intro hnone
    rw [update_none_of_none hnone]
    exact ⟨h, id, rfl, fun _ => rfl, rfl⟩
  unfold JSArray.deletePropertyByIndex
  rw [if_neg (not_lt.mpr hi)]
  split
  · next hvec =>
    split
    · next hsome => exact ⟨h.clearSlot hvec hsome, rfl, rfl, rfl⟩
    · next hnone =>
      refine ⟨hself ?_, rfl, rfl, rfl⟩
      rw [contents_of_lt hvec]
      simpa using hnone
  · next hvec =>
    have hvec := Nat.le_of_not_lt hvec
    split
    · next hm =>
      refine ⟨hself ?_, rfl, rfl, rfl⟩
      rw [contents_of_none hm]
      exact get_of_length_le hvec
    · next m hm =>
      split
      · next hfind =>
        refine ⟨hself ?_, rfl, rfl, rfl⟩
        rw [contents_of_map hm hvec, hfind]
        rfl
      · next e hfind =>
        obtain ⟨-, -, v, rfl⟩ := (h.fits m hm).plain i e hfind
        rw [show (SparseArrayEntry.plain v).attributes.has dontDelete = false from has_zero _]
        refine ⟨h.removeEntry hm hvec ?_ ?_, rfl, rfl, rfl⟩
        · rintro m' ⟨⟩
          exact (h.fits m hm).remove i
        · intro j
          exact SparseArrayValueMap.find_remove

omit h

/-! ## The length -/

/-- What is left of the contents below `n`. -/
def below (f : ℕ → Option V) (n : ℕ) (i : ℕ) : Option V := if i < n then f i else none

theorem below_of_le (h : ∀ i, f i ≠ none → i < n) : below f n = f := by
  funext i
  unfold below
  split
  · rfl
  · next hi =>
    by_contra hne
    exact hi (h i (Ne.symm hne))

/-- The array made `n` long: below `n` it is what it was. -/
structure Cuts (a b : JSArray V) (n : ℕ) : Prop where
  placed : b.Placed
  consistent : a.Consistent → b.Consistent
  length_eq : b.length = n
  contents_eq : ∀ i < n, b.contents i = a.contents i
  property_eq : b.property = a.property

/-- In a consistent array nothing is left from `n` on. -/
theorem Cuts.becomes (h : Cuts a b n) (ha : a.Consistent) : Becomes a b n (below a.contents n) where
  placed := h.placed
  consistent := h.consistent
  length_eq := h.length_eq
  contents_eq := by
    intro i
    unfold below
    split
    · next hi => exact h.contents_eq i hi
    · next hi =>
      by_contra hne
      exact hi (h.length_eq ▸ (h.consistent ha).lt_length hne)
  property_eq := h.property_eq

/-- The vector cut off at `n`, with a map that has no key from `n` on. -/
theorem Placed.truncate (h : a.Placed) (hn : n ≤ a.length) {o : Option (SparseArrayValueMap V)}
    (hfits : ∀ m, o = some m → m.Fits a.vectorLength n)
    (hfind : ∀ j < n, o.bind (·.find j) = a.sparseValueMap.bind (·.find j)) :
    Cuts a { ({ a with sparseValueMap := o }.truncateVector n) with length := n } n := by
  have hslot : ∀ j, Slots.get (Slots.clear a.vector n (min a.length a.vectorLength)) j
      = if n ≤ j ∧ j < min a.length a.vectorLength then none else a.slot j := fun j =>
    get_clear ..
  have hplaced : Placed { ({ a with sparseValueMap := o }.truncateVector n) with length := n } := by
    refine ⟨h.isExtensible, hn.trans h.length_le, ?_, ?_⟩
    · show List.length (clear _ _ _) + _ ≤ _
      rw [length_clear]
      exact h.capacity_le
    · intro m hm
      show m.Fits (List.length (clear _ _ _)) _
      rw [length_clear]
      exact hfits m hm
  refine ⟨hplaced, fun hc => ⟨hplaced, ?_, ?_⟩, rfl, ?_, rfl⟩
  · have hcount := filled_clear a.vector n (min a.length a.vectorLength)
    show a.numValuesInVector - filled _ = filled (clear _ _ _)
    rw [hc.numValues]
    change _ - filled ((a.vector.take (min a.length a.vectorLength)).drop n)
      = filled (clear a.vector n (min a.length a.vectorLength))
    omega
  · intro j hj
    show j < n
    change get (clear a.vector n (min a.length a.vectorLength)) j ≠ none at hj
    rw [hslot] at hj
    split at hj
    · exact absurd rfl hj
    · next hout =>
      have h1 := hc.slot_lt j hj
      have h2 : j < a.vectorLength := lt_length_of_get hj
      omega
  · intro j hj
    show (if j < List.length (clear _ _ _) then get (clear _ _ _) j
      else (o.bind fun m => m.find j).bind _) = _
    rw [length_clear, hfind j hj]
    unfold contents
    change (if j < a.vectorLength then
      get (clear a.vector n (min a.length a.vectorLength)) j else _) = _
    have hin : ¬(n ≤ j ∧ j < min a.length a.vectorLength) := by omega
    rw [hslot, if_neg hin]

theorem mem_keysFrom {length : ℕ} :
    i ∈ keysFrom m n length ↔ (m.find i).isSome ∧ i < length ∧ n ≤ i := by
  unfold keysFrom
  rw [mem_filter, SparseArrayValueMap.mem_keys_iff]
  simp

theorem Placed.setLength (h : a.Placed) (hn : n ≤ 0xFFFFFFFF) (throwException : Bool) :
    Cuts a (a.setLength n throwException).array n
      ∧ (a.setLength n throwException).result = true
      ∧ (a.setLength n throwException).exception = none
      ∧ (a.setLength n throwException).call = none := by
  have hext : a.length ≤ n → Cuts a { a with length := n } n := by
    intro hle
    have hb := h.extend hle hn
    exact ⟨hb.placed, hb.consistent, rfl, fun i _ => hb.contents_eq i, rfl⟩
  unfold JSArray.setLength
  split
  · next hm =>
    refine ⟨?_, rfl, rfl, rfl⟩
    split
    · next hlt =>
      have := h.truncate hlt.le (o := none) (by rintro m ⟨⟩) (by intro j _; rw [hm])
      rw [← hm] at this
      exact this
    · next hlt => exact hext (not_lt.mp hlt)
  · next m hm =>
    have hfits := h.fits m hm
    rw [hfits.lengthIsReadOnly, hfits.sparseMode]
    simp only [Bool.false_eq_true, if_false]
    split
    · next hlt =>
      refine ⟨h.truncate hlt.le ?_ ?_, rfl, rfl, rfl⟩
      · intro m' hm'
        split at hm'
        · cases hm'
        · cases hm'
          refine ⟨(hfits.foldl_remove _).sparseMode, (hfits.foldl_remove _).lengthIsReadOnly, ?_⟩
          intro i e he
          rw [SparseArrayValueMap.find_foldl_remove] at he
          split at he
          · cases he
          · next hkey =>
            obtain ⟨h1, h2, h3⟩ := hfits.plain i e he
            refine ⟨h1, ?_, h3⟩
            by_contra hge
            exact hkey (mem_keysFrom.mpr ⟨by rw [he]; rfl, h2, Nat.le_of_not_lt hge⟩)
      · intro j hj
        -- An emptied map and no map are the same to a lookup.
        have hdrop : (if ((keysFrom m n a.length).foldl (·.remove ·) m).isEmpty then none
            else some ((keysFrom m n a.length).foldl (·.remove ·) m)).bind (·.find j)
            = ((keysFrom m n a.length).foldl (·.remove ·) m).find j := by
          split
          · next hempty => exact (SparseArrayValueMap.isEmpty_iff.mp hempty j).symm
          · rfl
        rw [hdrop, SparseArrayValueMap.find_foldl_remove, hm,
          if_neg (fun hk => absurd (mem_keysFrom.mp hk).2.2 (not_le.mpr hj))]
        rfl
    · next hlt => exact ⟨hext (not_lt.mp hlt), rfl, rfl, rfl⟩

theorem Consistent.setLength (h : a.Consistent) (hn : n ≤ 0xFFFFFFFF) (throwException : Bool) :
    Returns a (a.setLength n throwException) n (below a.contents n) true := by
  obtain ⟨hcuts, hresult, hexception, hcall⟩ := h.toPlaced.setLength hn throwException
  exact ⟨hcuts.becomes h, hresult, hexception, hcall⟩

/-- An array whose last index is a hole, made shorter by one. -/
theorem Consistent.shrink (h : a.Consistent) (hlast : a.contents (a.length - 1) = none) :
    Becomes a { a with length := a.length - 1 } (a.length - 1) a.contents := by
  have hlt : ∀ i, a.contents i ≠ none → i < a.length - 1 := by
    intro i hi
    have := h.lt_length hi
    have hne : i ≠ a.length - 1 := by
      rintro rfl
      exact hi hlast
    omega
  have hplaced : Placed { a with length := a.length - 1 } := by
    refine ⟨h.isExtensible, ?_, h.capacity_le, ?_⟩
    · have := h.length_le
      show a.length - 1 ≤ _
      omega
    · intro m hm
      change a.sparseValueMap = some m at hm
      have hfits := h.fits m hm
      refine ⟨hfits.sparseMode, hfits.lengthIsReadOnly, ?_⟩
      intro i e he
      obtain ⟨h1, -, v, rfl⟩ := hfits.plain i e he
      refine ⟨h1, hlt i ?_, v, rfl⟩
      rw [contents_of_map hm h1, he]
      exact Option.some_ne_none v
  refine ⟨hplaced, fun _ => ⟨hplaced, h.numValues, ?_⟩, rfl, fun _ => rfl, rfl⟩
  intro i hi
  change a.slot i ≠ none at hi
  refine hlt i ?_
  rw [contents_of_lt (lt_length_of_get hi)]
  exact hi

/-- An index deleted and then given up. -/
theorem Consistent.shrink_of_becomes (ha : a.Consistent)
    (h : Becomes a b a.length (update a.contents (a.length - 1) none)) :
    Becomes a { b with length := a.length - 1 } (a.length - 1)
      (update a.contents (a.length - 1) none) := by
  have hlast : b.contents (b.length - 1) = none := by
    rw [h.contents_eq, h.length_eq, update_self]
  have hshrink := (h.consistent ha).shrink hlast
  rw [h.contents_funext] at hshrink
  have hall := h.trans hshrink
  rw [h.length_eq] at hall
  exact hall

/-- `pop` of an array that is not empty returns the last value, or `undefined` for a hole, and
gives up its index. -/
theorem Consistent.pop [Inhabited V] (h : a.Consistent) (hpos : a.length ≠ 0) :
    ∃ c, a.pop = .returns c
      ∧ Returns a c (a.length - 1) (update a.contents (a.length - 1) none)
        (some ((a.contents (a.length - 1)).getD jsUndefined)) := by
  have hhole : a.contents (a.length - 1) = none →
      Becomes a { a with length := a.length - 1 } (a.length - 1)
        (update a.contents (a.length - 1) none) := by
    intro hnone
    rw [update_none_of_none hnone]
    exact h.shrink hnone
  unfold JSArray.pop
  rw [if_neg hpos]
  simp only
  split
  · next hvec =>
    rw [contents_of_lt hvec]
    split
    · next hsome =>
      obtain ⟨v, hv⟩ := Option.isSome_iff_exists.mp hsome
      refine ⟨_, rfl, h.shrink_of_becomes (h.clearSlot hvec hsome), ?_, rfl, rfl⟩
      rw [hv]
      rfl
    · next hnone =>
      have hnone : a.slot (a.length - 1) = none := by simpa using hnone
      refine ⟨_, rfl, hhole ((contents_of_lt hvec).trans hnone), ?_, rfl, rfl⟩
      rw [hnone]
      rfl
  · next hvec =>
    have hvec := Nat.le_of_not_lt hvec
    split
    · next hnone =>
      have hnone : a.contents (a.length - 1) = none := by
        unfold contents
        rw [if_neg (not_lt.mpr hvec), hnone]
        rfl
      refine ⟨_, rfl, hhole hnone, ?_, rfl, rfl⟩
      rw [hnone]
      rfl
    · next e hsome =>
      obtain ⟨m, hm, he⟩ := Option.bind_eq_some_iff.mp hsome
      have hfits := h.fits m hm
      obtain ⟨-, -, v, rfl⟩ := hfits.plain _ e he
      refine ⟨_, rfl, ?_, ?_, ?_, ?_⟩
      all_goals
        simp only [show (SparseArrayEntry.plain v).attributes = 0#32 from rfl]
      · refine h.shrink_of_becomes (h.removeEntry hm hvec
          (o := (a.sparseValueMap.map (·.remove (a.length - 1))).filter
            fun m => !(m.isEmpty && !m.sparseMode)) ?_ ?_)
        · intro m' hm'
          rw [hm] at hm'
          obtain ⟨hm', -⟩ := Option.filter_eq_some_iff.mp hm'
          cases hm'
          exact hfits.remove _
        · intro j
          rw [hm, ← SparseArrayValueMap.find_remove]
          simp only [Option.map_some, Option.filter]
          split
          · rfl
          · next hempty =>
            have hempty : (m.remove (a.length - 1)).isEmpty := by
              cases hc : (m.remove (a.length - 1)).isEmpty <;> simp_all
            exact (SparseArrayValueMap.isEmpty_iff.mp hempty j).symm
      · rw [contents_of_map hm hvec, he]
        rfl
      all_goals rfl

end JSArray

end JavaScriptCore
end WebKit
