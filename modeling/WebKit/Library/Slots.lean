import Mathlib.Data.List.Nodup

/-!
# Vectors of slots

A vector of slots is a list of optional values: a slot is filled or empty.  Reading behind the end
gives an empty slot, so that a vector can be compared with the function it stands for.  The file has
what the operations on slots do to a reading and to the number of filled slots.
-/

namespace WebKit

open List
namespace Slots

variable {α : Type*}

variable (l : List (Option α))

/-- The slot at `i`, empty behind the end. -/
def get (i : ℕ) : Option α := l[i]?.join

/-- The number of filled slots. -/
def filled : ℕ := l.countP Option.isSome

/-- The slots from `m` up to `n` are emptied. -/
def clear (m n : ℕ) : List (Option α) :=
  l.mapIdx fun i o => if m ≤ i ∧ i < n then none else o

/-- Values written one after the other, each to its index. -/
def writes (es : List (ℕ × Option α)) : List (Option α) :=
  es.foldl (fun l e => l.set e.1 e.2) l

/-! ## Readings -/

variable {i : ℕ} {l : List (Option α)}

theorem get_of_length_le (h : l.length ≤ i) : get l i = none := by
  unfold get
  rw [List.getElem?_eq_none h]
  rfl

theorem lt_length_of_get (h : get l i ≠ none) : i < l.length := by
  by_contra hi
  exact h (get_of_length_le (Nat.le_of_not_lt hi))

theorem get_set (hi : i < l.length) (o : Option α) (j : ℕ) :
    get (l.set i o) j = if j = i then o else get l j := by
  unfold get
  rw [List.getElem?_set]
  by_cases h : i = j
  · subst h
    simp [hi]
  · rw [if_neg h, if_neg (Ne.symm h)]

theorem get_append_replicate (l : List (Option α)) (n i : ℕ) :
    get (l ++ List.replicate n none) i = get l i := by
  unfold get
  by_cases hi : i < l.length
  · rw [List.getElem?_append_left hi]
  · rw [List.getElem?_append_right (Nat.le_of_not_lt hi), List.getElem?_eq_none (Nat.le_of_not_lt hi),
      List.getElem?_replicate]
    split <;> rfl

theorem get_clear (l : List (Option α)) (m n i : ℕ) :
    get (clear l m n) i = if m ≤ i ∧ i < n then none else get l i := by
  unfold get clear
  rw [List.getElem?_mapIdx]
  cases l[i]? with
  | _ => simp

@[simp] theorem length_clear (l : List (Option α)) (m n : ℕ) : (clear l m n).length = l.length := by
  simp [clear]

@[simp] theorem length_writes (es : List (ℕ × Option α)) (l : List (Option α)) :
    (writes l es).length = l.length := by
  induction es generalizing l with
  | nil => rfl
  | cons e es ih =>
    show (writes (l.set e.1 e.2) es).length = _
    rw [ih, length_set]

/-- After writes to distinct indices, a slot that was written has its value and any other is as it
was. -/
theorem get_writes (hnd : (es.map Prod.fst).Nodup) (hl : ∀ e ∈ es, e.1 < l.length) (i : ℕ) :
    get (writes l es) i = ((es.find? fun e => e.1 = i).map Prod.snd).getD (get l i) := by
  induction es generalizing l with
  | nil => rfl
  | cons e es ih =>
    rw [map_cons, nodup_cons] at hnd
    have he : e.1 < l.length := hl e mem_cons_self
    have hes : ∀ f ∈ es, f.1 < (l.set e.1 e.2).length := by
      intro f hf
      rw [length_set]
      exact hl f (mem_cons_of_mem _ hf)
    show get (writes (l.set e.1 e.2) es) i = _
    rw [ih hnd.2 hes, get_set he]
    by_cases hi : e.1 = i
    · have hnone : es.find? (fun f => f.1 = i) = none := by
        rw [List.find?_eq_none]
        intro f hf hfi
        have hfi' : f.1 = i := by simpa using hfi
        exact hnd.1 (mem_map.mpr ⟨f, hf, hfi'.trans hi.symm⟩)
      rw [hnone, List.find?_cons_of_pos (by simpa using hi), if_pos hi.symm]
      rfl
    · rw [List.find?_cons_of_neg (by simpa using hi), if_neg (Ne.symm hi)]

/-! ## Counting -/

theorem filled_set (hi : i < l.length) (o : Option α) :
    filled (l.set i o) + (get l i).toList.length = filled l + o.toList.length := by
  induction l generalizing i with
  | nil => exact absurd hi (Nat.not_lt_zero i)
  | cons x l ih =>
    cases i with
    | zero => cases x <;> cases o <;> simp [filled, get]
    | succ i =>
      have h := ih (Nat.lt_of_succ_lt_succ hi)
      cases x <;> simp only [filled, get, set_cons_succ, List.getElem?_cons_succ,
        countP_cons] at h ⊢ <;> omega

theorem filled_append_replicate (l : List (Option α)) (n : ℕ) :
    filled (l ++ List.replicate n none) = filled l := by
  simp [filled, countP_replicate]

theorem clear_cons (x : Option α) (l : List (Option α)) (m n : ℕ) : clear (x :: l) m n
      = (if m ≤ 0 ∧ 0 < n then none else x) :: clear l (m - 1) (n - 1) := by
  unfold clear
  rw [mapIdx_cons]
  congr 2
  funext i o
  have h : (m ≤ i + 1 ∧ i + 1 < n) ↔ (m - 1 ≤ i ∧ i < n - 1) := by omega
  simp only [h]

theorem filled_clear (l : List (Option α)) (m n : ℕ) :
    filled (clear l m n) + filled ((l.take n).drop m) = filled l := by
  induction l generalizing m n with
  | nil => simp [clear, filled]
  | cons x l ih =>
    rw [clear_cons]
    cases n with
    | zero =>
      have h := ih (m - 1) 0
      have hm : ¬(m ≤ 0 ∧ 0 < 0) := by omega
      simp only [take_zero, drop_nil, Nat.zero_sub] at h ⊢
      simp only [filled, countP_cons, if_neg hm] at h ⊢
      omega
    | succ n =>
      have h := ih (m - 1) n
      cases m with
      | zero =>
        simp only [drop_zero, Nat.zero_sub] at h ⊢
        simp only [filled] at h ⊢
        cases x <;> simp <;> omega
      | succ m =>
        have hm : ¬(m + 1 ≤ 0 ∧ 0 < n + 1) := by omega
        simp only [take_succ_cons, drop_succ_cons, Nat.add_sub_cancel] at h ⊢
        simp only [filled, countP_cons, if_neg hm] at h ⊢
        omega

/-- Values written to distinct empty slots fill as many. -/
theorem filled_writes (hnd : (es.map Prod.fst).Nodup)
    (hl : ∀ e ∈ es, e.1 < l.length) (hempty : ∀ e ∈ es, get l e.1 = none)
    (hsome : ∀ e ∈ es, e.2 ≠ none) : filled (writes l es) = filled l + es.length := by
  induction es generalizing l with
  | nil => rfl
  | cons e es ih =>
    rw [map_cons, nodup_cons] at hnd
    have he : e.1 < l.length := hl e mem_cons_self
    have hset := filled_set he e.2
    rw [hempty e mem_cons_self] at hset
    obtain ⟨v, hv⟩ := Option.ne_none_iff_exists'.mp (hsome e mem_cons_self)
    rw [hv] at hset
    have hlater : ∀ f ∈ es, get (l.set e.1 e.2) f.1 = none := by
      intro f hf
      have hne : f.1 ≠ e.1 := fun h => hnd.1 (mem_map.mpr ⟨f, hf, h⟩)
      rw [get_set he, if_neg hne]
      exact hempty f (mem_cons_of_mem _ hf)
    have hrest := ih hnd.2 (fun f hf => by
        rw [length_set]
        exact hl f (mem_cons_of_mem _ hf)) hlater
      (fun f hf => hsome f (mem_cons_of_mem _ hf))
    show filled (writes (l.set e.1 e.2) es) = _
    rw [hrest, length_cons, hv]
    simp only [Option.toList_none, Option.toList_some, length_nil, length_singleton] at hset
    omega

end Slots
end WebKit
