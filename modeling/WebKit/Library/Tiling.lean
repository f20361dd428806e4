import Mathlib.Algebra.Order.BigOperators.Group.Finset
import Mathlib.Order.Interval.Finset.Nat

/-!
# Intervals that tile

Collections of intervals of natural numbers are compared by how many intervals contain a number.  One
collection tiles another when both contain the same numbers and none more than once.  Cutting an
interval in two or joining two neighbours changes nothing of that.
-/

namespace WebKit

open Finset
namespace Tiling

structure Extent where
  start : ℕ
  size : ℕ
  deriving DecidableEq

namespace Extent

variable (I J : Extent)

/-- The first number behind the interval. -/
def stop : ℕ := I.start + I.size

def Contains (x : ℕ) : Prop := I.start ≤ x ∧ x < I.stop

instance (x : ℕ) : Decidable (I.Contains x) := inferInstanceAs (Decidable (_ ∧ _))

/-- An interval and what follows it. -/
def join : Extent where
  start := I.start
  size := I.size + J.size

@[simp] theorem start_join : (I.join J).start = I.start := rfl

variable (h : I.stop = J.start)

include h

theorem stop_join : (I.join J).stop = J.stop := by
  unfold stop at h ⊢
  unfold join
  simp only
  omega

theorem contains_join (x : ℕ) :
    (I.join J).Contains x ↔ I.Contains x ∨ J.Contains x := by
  unfold Contains
  rw [I.stop_join J h, I.start_join J]
  unfold stop at h ⊢
  omega

theorem not_contains_both (x : ℕ) : ¬ (I.Contains x ∧ J.Contains x) := by
  unfold Contains
  omega

omit h

theorem contains_start (h : 0 < I.size) : I.Contains I.start := by
  unfold Contains stop
  omega

theorem contains_stop_sub_one (h : 0 < I.size) : I.Contains (I.stop - 1) := by
  unfold Contains stop
  omega

end Extent

/-- How many of the intervals contain a number. -/
def coverage (M : Multiset Extent) (x : ℕ) : ℕ := M.countP (·.Contains x)

def totalSize (M : Multiset Extent) : ℕ := (M.map (·.size)).sum

section Coverage

variable {M N : Multiset Extent} {I J : Extent}

theorem coverage_cons (I : Extent) (M : Multiset Extent) (x : ℕ) :
    coverage (I ::ₘ M) x = coverage M x + if I.Contains x then 1 else 0 :=
  Multiset.countP_cons _ I M

theorem coverage_add (M N : Multiset Extent) (x : ℕ) :
    coverage (M + N) x = coverage M x + coverage N x := Multiset.countP_add _ M N

/-- Joining two neighbours leaves every number as often contained as it was. -/
theorem coverage_join (h : I.stop = J.start) (M : Multiset Extent) (x : ℕ) :
    coverage (I.join J ::ₘ M) x = coverage (I ::ₘ J ::ₘ M) x := by
  have hor := I.contains_join J h x
  have hboth := I.not_contains_both J h x
  rw [coverage_cons, coverage_cons, coverage_cons]
  by_cases hI : I.Contains x
  · have hJ : ¬ J.Contains x := fun hJ => hboth ⟨hI, hJ⟩
    rw [if_pos (hor.mpr (.inl hI)), if_pos hI, if_neg hJ]
  · rw [if_neg hI, Nat.add_zero]
    exact congrArg _ (if_congr (hor.trans (or_iff_right hI)) rfl rfl)

/-- An empty interval contains nothing. -/
theorem coverage_empty (h : I.size = 0) (M : Multiset Extent) (x : ℕ) :
    coverage (I ::ₘ M) x = coverage M x := by
  have hnot : ¬ I.Contains x := by
    unfold Extent.Contains Extent.stop
    omega
  rw [coverage_cons, if_neg hnot, Nat.add_zero]

theorem coverage_pos_of_mem (hI : I ∈ M) (hx : I.Contains x) : 0 < coverage M x :=
  Multiset.countP_pos.mpr ⟨I, hI, hx⟩

theorem exists_of_coverage_pos (h : 0 < coverage M x) : ∃ I ∈ M, I.Contains x :=
  Multiset.countP_pos.mp h

theorem totalSize_cons (I : Extent) (M : Multiset Extent) :
    totalSize (I ::ₘ M) = I.size + totalSize M := by
  unfold totalSize
  rw [Multiset.map_cons, Multiset.sum_cons]

section

variable (h : ∀ x, coverage (I ::ₘ M) x ≤ 1) (hJ : J ∈ M) (hpos : 0 < J.size)
include h hJ hpos

/-- Of intervals that no number is in twice, none starts in another. -/
theorem not_contains_start : ¬ I.Contains J.start := by
  intro hI
  have hle := h J.start
  have hcovered := coverage_pos_of_mem hJ (J.contains_start hpos)
  rw [coverage_cons, if_pos hI] at hle
  omega

/-- Nor does one end in another. -/
theorem not_contains_stop : ¬ I.Contains (J.stop - 1) := by
  intro hI
  have hle := h (J.stop - 1)
  have hcovered := coverage_pos_of_mem hJ (J.contains_stop_sub_one hpos)
  rw [coverage_cons, if_pos hI] at hle
  omega

end

section

variable {bound : ℕ} (h : ∀ I ∈ M, 0 < I.size → I.stop ≤ bound)
include h

/-- Below a bound that no nonempty interval passes, the sizes count the numbers as often as they are
contained. -/
theorem totalSize_eq_sum : totalSize M = ∑ x ∈ Finset.range bound, coverage M x := by
  induction M using Multiset.induction_on with
  | empty => exact sum_const_zero.symm
  | cons I M ih =>
    have hone : ∑ x ∈ Finset.range bound, (if I.Contains x then 1 else 0) = I.size := by
      rw [← sum_filter, ← card_eq_sum_ones]
      have hfilter : (Finset.range bound).filter I.Contains = Finset.Ico I.start I.stop := by
        ext x
        rw [mem_filter, mem_range, mem_Ico]
        refine ⟨fun hx => hx.2, fun hx => ⟨?_, hx⟩⟩
        have hle := h I (Multiset.mem_cons_self I M)
        unfold Extent.stop at hx hle
        omega
      rw [hfilter, Nat.card_Ico]
      exact Nat.add_sub_cancel_left ..
    rw [totalSize_cons, ih fun J hJ => h J (Multiset.mem_cons_of_mem hJ), ← hone, ← sum_add_distrib]
    refine sum_congr rfl fun x _ => ?_
    rw [coverage_cons, Nat.add_comm]

/-- Disjoint intervals below a bound are together no longer than the bound. -/
theorem totalSize_le (hdisjoint : ∀ x, coverage M x ≤ 1) : totalSize M ≤ bound := by
  rw [totalSize_eq_sum h]
  refine (sum_le_sum fun x _ => hdisjoint x).trans_eq ?_
  rw [← card_eq_sum_ones, card_range]

end

theorem totalSize_add (M N : Multiset Extent) : totalSize (M + N) = totalSize M + totalSize N := by
  unfold totalSize
  rw [Multiset.map_add, Multiset.sum_add]

end Coverage

/-- The intervals of `M` are those of `N`, cut in other places. -/
structure Recuts (M N : Multiset Extent) : Prop where
  coverage_eq : ∀ x, coverage M x = coverage N x
  totalSize_eq : totalSize M = totalSize N

namespace Recuts

variable {L M N : Multiset Extent} {I J : Extent}

theorem refl (M : Multiset Extent) : Recuts M M := ⟨fun _ => rfl, rfl⟩

theorem symm (h : Recuts M N) : Recuts N M :=
  ⟨fun x => (h.coverage_eq x).symm, h.totalSize_eq.symm⟩

theorem trans (h : Recuts L M) (h' : Recuts M N) : Recuts L N :=
  ⟨fun x => (h.coverage_eq x).trans (h'.coverage_eq x), h.totalSize_eq.trans h'.totalSize_eq⟩

theorem cons (h : Recuts M N) (I : Extent) : Recuts (I ::ₘ M) (I ::ₘ N) where
  coverage_eq x := by rw [coverage_cons, coverage_cons, h.coverage_eq]
  totalSize_eq := by rw [totalSize_cons, totalSize_cons, h.totalSize_eq]

/-- Two neighbours are joined. -/
theorem join (h : I.stop = J.start) (M : Multiset Extent) :
    Recuts (I.join J ::ₘ M) (I ::ₘ J ::ₘ M) where
  coverage_eq := coverage_join h M
  totalSize_eq := by
    rw [totalSize_cons, totalSize_cons, totalSize_cons, ← Nat.add_assoc]
    rfl

/-- An interval is cut in two. -/
theorem cut (h : k ≤ I.size) (M : Multiset Extent) :
    Recuts (⟨I.start, k⟩ ::ₘ ⟨I.start + k, I.size - k⟩ ::ₘ M) (I ::ₘ M) := by
  have hjoin : Extent.join ⟨I.start, k⟩ ⟨I.start + k, I.size - k⟩ = I := by
    unfold Extent.join
    rw [Nat.add_sub_cancel' h]
  have hrecuts := (join (I := ⟨I.start, k⟩) (J := ⟨I.start + k, I.size - k⟩) rfl M).symm
  rwa [hjoin] at hrecuts

end Recuts

/-- The intervals of `M` are disjoint and contain what those of `N` contain. -/
structure Tiles (M N : Multiset Extent) : Prop where
  disjoint : ∀ x, coverage M x ≤ 1
  covers : ∀ x, coverage M x = coverage N x

namespace Tiles

variable {M M' N : Multiset Extent} {I : Extent}

/-- A nonempty interval is inside what is tiled. -/
theorem exists_contains (h : Tiles M N) (hI : I ∈ M) (hx : I.Contains x) :
    ∃ J ∈ N, J.Contains x := by
  refine exists_of_coverage_pos ?_
  rw [← h.covers]
  exact coverage_pos_of_mem hI hx

theorem zero : Tiles 0 0 := ⟨fun _ => Nat.zero_le _, fun _ => rfl⟩

/-- What tiles regions below a bound is no longer than the bound. -/
theorem totalSize_le (h : Tiles M N) (hN : ∀ J ∈ N, J.stop ≤ bound) :
    totalSize M ≤ bound := by
  refine Tiling.totalSize_le (fun I hI hpos => ?_) h.disjoint
  obtain ⟨J, hJ, hx⟩ := h.exists_contains hI (I.contains_stop_sub_one hpos)
  have hle := hN J hJ
  unfold Extent.Contains at hx
  omega

/-- Only how often a number is contained matters. -/
theorem congr (h : Tiles M N) (hM : ∀ x, coverage M' x = coverage M x) : Tiles M' N where
  disjoint x := (hM x).trans_le (h.disjoint x)
  covers x := (hM x).trans (h.covers x)

/-- A new interval that meets none of the old ones is added on both sides. -/
theorem cons (h : Tiles M N) (hnew : ∀ x, I.Contains x → coverage N x = 0) :
    Tiles (I ::ₘ M) (I ::ₘ N) where
  disjoint x := by
    have hle := h.disjoint x
    rw [coverage_cons]
    split
    · rename_i hx
      rw [h.covers, hnew x hx]
    · exact hle
  covers x := by rw [coverage_cons, coverage_cons, h.covers]

end Tiles

end Tiling
end WebKit
