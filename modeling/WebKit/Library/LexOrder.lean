import Mathlib.Algebra.Order.Group.Int
import Mathlib.Data.List.Lex

/-!
# Lexicographic comparison by delimited words

A three-way comparison of structured values is often a chain: compare the first components, and
go on only when they tie.  Writing every value as a word over a linear order turns the chain into
the lexicographic order of words, provided the words of two tied components have been read to the
same place.  `LexOf o x y` says just that: comparing any continuation of `x` with any continuation
of `y` gives `o`, and on a tie gives the comparison of the continuations.

* `LexOf.append`: chained comparisons are compared by concatenated words;
* `LexOf.lt_iff`, `LexOf.eq_iff`: a comparison described by words is a total preorder, the one of
  the words in the lexicographic order.
-/

namespace WebKit

open List

variable {α : Type*} [LinearOrder α]

/-- Comparing words that start with `x` and `y` gives `o`, and on a tie goes on behind them. -/
structure LexOf (o : Ordering) (x y : List α) : Prop where
  lt_append_iff : ∀ r s : List α, x ++ r < y ++ s ↔ o = .lt ∨ o = .eq ∧ r < s
  eq_append_iff : ∀ r s : List α, x ++ r = y ++ s ↔ o = .eq ∧ r = s

namespace LexOf

variable {o o' : Ordering} {x y x' y' : List α}

variable (h : LexOf o x y)

include h

theorem lt_iff : x < y ↔ o = .lt := by
  have := h.lt_append_iff [] []
  simpa using this

theorem eq_iff : x = y ↔ o = .eq := by
  have := h.eq_append_iff [] []
  simpa using this

omit h in
theorem nil : LexOf .eq ([] : List α) [] where
  lt_append_iff r s := by simp
  eq_append_iff r s := by simp

omit h in
/-- One letter is compared in the order of the letters. -/
theorem singleton (a b : α) : LexOf (compare a b) [a] [b] where
  lt_append_iff r s := by
    rw [singleton_append, singleton_append, cons_lt_cons_iff, compare_lt_iff_lt, compare_eq_iff_eq]
  eq_append_iff r s := by
    rw [singleton_append, singleton_append, cons_eq_cons, compare_eq_iff_eq]

/-- A tie goes on with the next component, which is compared only then. -/
theorem append_of_eq (h' : o = .eq → LexOf o' x' y') :
    LexOf (o.then o') (x ++ x') (y ++ y') := by
  cases ho : o with
  | lt =>
    constructor <;> intro r s
    · simp [h.lt_append_iff, ho]
    · simp [h.eq_append_iff, ho]
  | eq =>
    have h'' := h' ho
    constructor <;> intro r s
    · simp [h.lt_append_iff, h''.lt_append_iff, ho]
    · simp [h.eq_append_iff, h''.eq_append_iff, ho]
  | gt =>
    constructor <;> intro r s
    · simp [h.lt_append_iff, ho]
    · simp [h.eq_append_iff, ho]

/-- A tie goes on with the next component. -/
theorem append (h' : LexOf o' x' y') : LexOf (o.then o') (x ++ x') (y ++ y') :=
  h.append_of_eq fun _ => h'

theorem cons : LexOf ((compare a b).then o) (a :: x) (b :: y) :=
  (singleton a b).append h

/-- A common letter in front changes nothing. -/
theorem cons_self : LexOf o (a :: x) (a :: y) := by
  have := h.cons (a := a) (b := a)
  rwa [compare_eq_iff_eq.mpr rfl] at this

omit h

theorem refl (x : List α) : LexOf .eq x x := by
  induction x with
  | nil => exact nil
  | cons a x ih => exact ih.cons_self

/-- Different first letters decide. -/
theorem of_ne (h : a ≠ b) : LexOf (compare a b) (a :: x) (b :: y) := by
  have hne : compare a b ≠ .eq := fun he => h (compare_eq_iff_eq.mp he)
  constructor
  · intro r s
    rw [cons_append, cons_append, cons_lt_cons_iff, compare_lt_iff_lt]
    tauto
  · intro r s
    rw [cons_append, cons_append, cons_eq_cons]
    tauto

theorem of_lt (h : a < b) : LexOf .lt (a :: x) (b :: y) := by
  rw [← compare_lt_iff_lt.mpr h]
  exact of_ne h.ne

theorem of_gt (h : b < a) : LexOf .gt (a :: x) (b :: y) := by
  rw [← compare_gt_iff_gt.mpr h]
  exact of_ne h.ne'

end LexOf

/-! ## The sign of an integer -/

/-- The ordering an `int` result of a comparison function stands for. -/
def orderingOfInt (c : ℤ) : Ordering := compare c 0

theorem orderingOfInt_eq_lt : orderingOfInt c = .lt ↔ c < 0 := compare_lt_iff_lt

theorem orderingOfInt_eq_eq : orderingOfInt c = .eq ↔ c = 0 := compare_eq_iff_eq

theorem orderingOfInt_eq_gt : orderingOfInt c = .gt ↔ 0 < c := compare_gt_iff_gt

@[simp] theorem orderingOfInt_zero : orderingOfInt 0 = .eq := rfl

@[simp] theorem orderingOfInt_one : orderingOfInt 1 = .gt := rfl

@[simp] theorem orderingOfInt_neg_one : orderingOfInt (-1) = .lt := rfl

/-- A difference has the sign of the comparison. -/
theorem orderingOfInt_sub (a b : ℤ) : orderingOfInt (a - b) = compare a b := by
  rcases lt_trichotomy a b with h | h | h
  · rw [compare_lt_iff_lt.mpr h, orderingOfInt_eq_lt]
    omega
  · rw [compare_eq_iff_eq.mpr h, orderingOfInt_eq_eq]
    omega
  · rw [compare_gt_iff_gt.mpr h, orderingOfInt_eq_gt]
    omega

/-- The C idiom `if (int x = first) return x; return second;`. -/
theorem orderingOfInt_ite (c d : ℤ) :
    orderingOfInt (if c ≠ 0 then c else d) = (orderingOfInt c).then (orderingOfInt d) := by
  by_cases hc : c = 0
  · rw [if_neg (not_not.mpr hc), hc, orderingOfInt_zero, Ordering.then]
  · rw [if_pos hc]
    rcases lt_or_gt_of_ne hc with h | h
    · rw [orderingOfInt_eq_lt.mpr h]
      rfl
    · rw [orderingOfInt_eq_gt.mpr h]
      rfl

end WebKit
