import Mathlib.Order.MinMax
import Mathlib.Data.List.Pairwise
import Mathlib.Tactic.Common

/-!
# Separated lists of intervals

A list of closed intervals, each ending strictly before the next begins.  Such a list is determined
by what it was merged from: `eq_of_within` says so for two lists that contain each other's
intervals, and `Chained` is the reason why merging gives such lists.  When no interval is a single
point, the list is determined by the points it has as well (`eq_of_meets_iff`).

An interval is anything with a lower and an upper end.
-/

namespace WebKit

open List
namespace SeparatedIntervals

variable {α ι : Type*} [LinearOrder α] (lo hi : ι → α)

/-- Every interval ends strictly before the next begins. -/
structure Separated (l : List ι) : Prop where
  le : ∀ i ∈ l, lo i ≤ hi i
  apart : l.Pairwise fun i j => hi i < lo j

/-- What overlapping and touching intervals of `S` are together. -/
inductive Chained (S : ι → Prop) : α → α → Prop
  | one {i : ι} : S i → Chained S (lo i) (hi i)
  | join {a b c d : α} : Chained S a b → Chained S c d → a ≤ d → c ≤ b →
      Chained S (min a c) (max b d)

/-- Every interval of `S` is inside of one of the list. -/
def Within (S : ι → Prop) (l : List ι) : Prop :=
  ∀ i, S i → ∃ j ∈ l, lo j ≤ lo i ∧ hi i ≤ hi j

/-- The point is in one of the intervals, each without its upper end. -/
def Meets (l : List ι) (t : α) : Prop := ∃ i ∈ l, lo i ≤ t ∧ t < hi i

variable {lo hi}

namespace Chained

/-- What is merged from merged intervals is merged from the intervals these were. -/
theorem of_chained (hST : ∀ i, S i → Chained lo hi T (lo i) (hi i))
    (h : Chained lo hi S a b) : Chained lo hi T a b := by
  induction h with
  | one hi => exact hST _ hi
  | join _ _ hac hca h₁ h₂ => exact .join h₁ h₂ hac hca

theorem mono (hST : ∀ i, S i → T i) (h : Chained lo hi S a b) :
    Chained lo hi T a b :=
  h.of_chained fun i hi => .one (hST i hi)

end Chained

namespace Separated

variable {l l' : List ι} {i j : ι}

variable (h : Separated lo hi l)

include h

/-- Two intervals of a separated list that meet are the same one. -/
theorem eq_of_touch (hi' : i ∈ l) (hj : j ∈ l) (hij : lo i ≤ hi j) (hji : lo j ≤ hi i) : i = j := by
  by_contra hne
  have happart : hi i < lo j ∨ hi j < lo i := by
    have heither : l.Pairwise fun a b => hi a < lo b ∨ hi b < lo a :=
      h.apart.imp fun hab => Or.inl hab
    have : Std.Symm fun a b => hi a < lo b ∨ hi b < lo a := ⟨fun _ _ hab => hab.symm⟩
    exact heither.forall hi' hj hne
  rcases happart with hlt | hlt
  · exact absurd hji (not_le.mpr hlt)
  · exact absurd hij (not_le.mpr hlt)

/-- What is merged from intervals inside of a separated list is inside of one of its intervals. -/
theorem exists_of_chained (hin : Within lo hi S l) (hab : Chained lo hi S a b) :
    ∃ j ∈ l, lo j ≤ a ∧ b ≤ hi j := by
  induction hab with
  | one hi => exact hin _ hi
  | @join a b c d h₁ h₂ had hcb ih₁ ih₂ =>
    obtain ⟨j, hj, hja, hbj⟩ := ih₁
    obtain ⟨k, hk, hkc, hdk⟩ := ih₂
    have hjk : j = k := h.eq_of_touch hj hk (hja.trans (had.trans hdk)) (hkc.trans (hcb.trans hbj))
    subst hjk
    exact ⟨j, hj, le_min hja hkc, max_le hbj hdk⟩

/-- Lists whose intervals are ordered and the same are the same. -/
theorem eq_of_mem_iff (h' : Separated lo hi l') (hmem : ∀ i, i ∈ l ↔ i ∈ l') : l = l' := by
  induction l generalizing l' with
  | nil =>
    cases l' with
    | nil => rfl
    | cons j l' => exact absurd ((hmem j).mpr mem_cons_self) not_mem_nil
  | cons i l ih =>
    cases l' with
    | nil => exact absurd ((hmem i).mp mem_cons_self) not_mem_nil
    | cons j l' =>
      obtain ⟨hil, hl⟩ := pairwise_cons.mp h.apart
      obtain ⟨hjl, hl'⟩ := pairwise_cons.mp h'.apart
      have hi' := h.le i mem_cons_self
      have hj' := h'.le j mem_cons_self
      -- the first interval of each list is before all others of the other
      have hij : i = j := by
        rcases mem_cons.mp ((hmem i).mp mem_cons_self) with heq | hmi
        · exact heq
        · rcases mem_cons.mp ((hmem j).mpr mem_cons_self) with heq | hmj
          · exact heq.symm
          · have h₁ := hjl i hmi
            have h₂ := hil j hmj
            exact absurd (h₁.trans_le (hi'.trans (h₂.le.trans hj'))) (lt_irrefl _)
      subst hij
      have hnot : ∀ {m : List ι}, (∀ k ∈ m, hi i < lo k) → i ∉ m := fun hm him =>
        absurd (hm i him) (not_lt.mpr hi')
      have htails : ∀ k, k ∈ l ↔ k ∈ l' := by
        intro k
        have hk := hmem k
        rw [mem_cons, mem_cons] at hk
        constructor
        · intro hkl
          rcases hk.mp (Or.inr hkl) with heq | hkl'
          · exact absurd (heq ▸ hkl) (hnot hil)
          · exact hkl'
        · intro hkl'
          rcases hk.mpr (Or.inr hkl') with heq | hkl
          · exact absurd (heq ▸ hkl') (hnot hjl)
          · exact hkl
      rw [ih ⟨fun k hk => h.le k (mem_cons_of_mem _ hk), hl⟩
        ⟨fun k hk => h'.le k (mem_cons_of_mem _ hk), hl'⟩ htails]

omit h

section

variable (hext : ∀ i j : ι, lo i = lo j → hi i = hi j → i = j) (h : Separated lo hi l)
  (h' : Separated lo hi l')
include h h' hext

/-- Separated lists whose intervals are inside of each other's are the same. -/
theorem eq_of_within (hin : Within lo hi (· ∈ l) l') (hin' : Within lo hi (· ∈ l') l) : l = l' := by
  have key : ∀ {m m' : List ι}, Separated lo hi m → Within lo hi (· ∈ m) m' →
      Within lo hi (· ∈ m') m → ∀ i ∈ m, i ∈ m' := by
    intro m m' hm hmm' hm'm i hi'
    obtain ⟨j, hj, hji, hij⟩ := hmm' i hi'
    obtain ⟨k, hk, hkj, hjk⟩ := hm'm j hj
    have hle := hm.le i hi'
    have hik : i = k := hm.eq_of_touch hi' hk (hle.trans (hij.trans hjk)) ((hkj.trans hji).trans hle)
    subst hik
    have : i = j := hext i j (le_antisymm hkj hji) (le_antisymm hij hjk)
    exact this ▸ hj
  exact h.eq_of_mem_iff h' fun i => ⟨key h hin hin' i, key h' hin' hin i⟩

/-- Separated lists without single points that have the same points are the same. -/
theorem eq_of_meets_iff (hlt : ∀ i ∈ l, lo i < hi i)
    (hlt' : ∀ i ∈ l', lo i < hi i) (hmeets : ∀ t, Meets lo hi l t ↔ Meets lo hi l' t) : l = l' := by
  -- an interval of the one is inside of the one of the other that has its lower end, since that one's
  -- upper end is in no interval of its own list
  have key : ∀ {m m' : List ι}, Separated lo hi m' → (∀ i ∈ m, lo i < hi i) →
      (∀ t, Meets lo hi m t ↔ Meets lo hi m' t) → Within lo hi (· ∈ m) m' := by
    intro m m' hm' hmlt hmm i hi'
    obtain ⟨j, hj, hji, hij⟩ := (hmm (lo i)).mp ⟨i, hi', le_rfl, hmlt i hi'⟩
    refine ⟨j, hj, hji, ?_⟩
    by_contra hcon
    obtain ⟨k, hk, hkj, hjk⟩ := (hmm (hi j)).mp ⟨i, hi', hij.le, not_le.mp hcon⟩
    have heq : k = j := hm'.eq_of_touch hk hj hkj ((hji.trans hij.le).trans hjk.le)
    exact absurd (heq ▸ hjk) (lt_irrefl _)
  exact h.eq_of_within hext h' (key h' hlt hmeets) (key h hlt' fun t => (hmeets t).symm)

end

end Separated

end SeparatedIntervals
end WebKit
