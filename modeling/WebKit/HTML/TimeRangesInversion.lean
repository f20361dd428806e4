import Mathlib
import WebKit.HTML.TimeRangesMerging

/-!
# Inverting and intersecting time ranges

`invert` means to add the gap before the first range and the gap behind the last one, but reads the
float 1 in place of their ends.  So what it leaves is given by `times_invert`: the gaps between the
ranges as they should be, all times before 1 when the first range has a beginning, and all times from
1 on when the last range has an end.  When this is the complement, when `intersectWith` (which inverts
the union of two lists that nobody inverted) gives the times in both, and when inverting twice gives
the list back is read off this formula.

A range is half-open here, as the source says of it, so that lists without a shared time may share an
end.
-/

namespace WebKit

open List
namespace TimeRanges

open SeparatedIntervals

section Times

variable {α : Type*} [LinearOrder α]

/-- The time is in one of the ranges, each without its end. -/
abbrev Times (l : List (Range α)) (t : α) : Prop := Meets Range.m_start Range.m_end l t

theorem times_nil (t : α) : ¬ Times ([] : List (Range α)) t := by
  rintro ⟨r, hr, -⟩
  exact absurd hr not_mem_nil

theorem times_cons (r : Range α) (l : List (Range α)) (t : α) :
    Times (r :: l) t ↔ (r.m_start ≤ t ∧ t < r.m_end) ∨ Times l t := by
  simp [Meets]

theorem times_append (l l' : List (Range α)) (t : α) :
    Times (l ++ l') t ↔ Times l t ∨ Times l' t := by
  simp only [Meets, mem_append, or_and_right, exists_or]

/-- No range is a single point. -/
def Proper (l : List (Range α)) : Prop := ∀ r ∈ l, r.m_start < r.m_end

variable {l : List (Range α)}

theorem Proper.le (h : Proper l) : ∀ r ∈ l, r.m_start ≤ r.m_end :=
  fun r hr => (h r hr).le

theorem Proper.append (h : Proper l) (h' : Proper l') : Proper (l ++ l') := by
  intro r hr
  rcases mem_append.mp hr with hr | hr
  · exact h r hr
  · exact h' r hr

/-- Merging adds no time, without the ends as well. -/
theorem exists_of_chained_lt {t : α}
    (h : Chained Range.m_start Range.m_end S a b) (hat : a ≤ t) (htb : t < b) :
    ∃ r, S r ∧ r.m_start ≤ t ∧ t < r.m_end := by
  induction h with
  | @one r hr => exact ⟨r, hr, hat, htb⟩
  | @join a b c d h₁ h₂ had hcb ih₁ ih₂ =>
    rcases min_le_iff.mp hat with hat | hct
    · rcases lt_or_ge t b with htb' | hbt
      · exact ih₁ hat htb'
      · exact ih₂ (hcb.trans hbt) ((lt_max_iff.mp htb).resolve_left (not_lt.mpr hbt))
    · rcases lt_or_ge t d with htd | hdt
      · exact ih₂ hct htd
      · exact ih₁ (had.trans hdt) ((lt_max_iff.mp htb).resolve_right (not_lt.mpr hdt))

theorem MergedFrom.times_iff (h : MergedFrom adds l) (t : α) :
    Times l t ↔ Times adds t := by
  constructor
  · rintro ⟨r, hr, hrt, htr⟩
    exact exists_of_chained_lt (h.chained r hr) hrt htr
  · rintro ⟨r, hr, hrt, htr⟩
    obtain ⟨j, hj, hjr, hrj⟩ := h.within r hr
    exact ⟨j, hj, hjr.trans hrt, htr.trans_le hrj⟩

theorem MergedFrom.proper (h : MergedFrom adds l) (hadds : Proper adds) :
    Proper l := by
  intro r hr
  have hlt : ∀ {a b : α}, Chained Range.m_start Range.m_end (· ∈ adds) a b → a < b := by
    intro a b hab
    induction hab with
    | one hi => exact hadds _ hi
    | join _ _ _ _ ih _ => exact (min_le_left _ _).trans_lt (ih.trans_le (le_max_left _ _))
  exact hlt (h.chained r hr)

/-- Lists with the same times are the same. -/
theorem eq_of_times_iff (h : Apart l) (h' : Apart l') (hl : Proper l)
    (hl' : Proper l') (htimes : ∀ t, Times l t ↔ Times l' t) : l = l' :=
  h.eq_of_meets_iff range_eq_of_ends h' hl hl' htimes

/-! ## From the first range to the last -/

/-- The times are from the start of the first range, which is one of them, up to the end of the last,
before which they have no gap. -/
structure Spans (M : α → Prop) (first last : α) : Prop where
  within : ∀ t, M t → first ≤ t ∧ t < last
  first : M first
  last : ∃ s, s < last ∧ ∀ t, s ≤ t → t < last → M t

/-- There is a time of it behind any time before the last. -/
theorem Spans.exists_ge {first last : α} (h : Spans M first last) (ht : t < last) :
    ∃ u, t ≤ u ∧ u < last ∧ M u := by
  obtain ⟨s, hs, hM⟩ := h.last
  exact ⟨max t s, le_max_left _ _, max_lt ht hs, hM _ (le_max_right _ _) (max_lt ht hs)⟩

theorem spans (r : Range α) (l : List (Range α)) (h : Apart (r :: l)) (hl : Proper (r :: l)) :
    Spans (Times (r :: l)) r.m_start ((r :: l).getLast (cons_ne_nil r l)).m_end := by
  have hr := hl r mem_cons_self
  induction l generalizing r with
  | nil =>
    refine ⟨fun t ht => ?_, ⟨r, mem_cons_self, le_rfl, hr⟩, r.m_start, hr, fun t hs ht => ?_⟩
    · rcases (times_cons _ _ _).mp ht with ht | ht
      · exact ht
      · exact absurd ht (times_nil t)
    · exact ⟨r, mem_cons_self, hs, ht⟩
  | cons r' l ih =>
    obtain ⟨hbefore, hpairs⟩ := pairwise_cons.mp h.apart
    have h' : Apart (r' :: l) := ⟨fun i hi => h.le i (mem_cons_of_mem _ hi), hpairs⟩
    have hl' : Proper (r' :: l) := fun i hi => hl i (mem_cons_of_mem _ hi)
    have hspans := ih r' h' hl' (hl' r' mem_cons_self)
    have hrr' : r.m_end < r'.m_start := hbefore r' mem_cons_self
    have hlast := (hspans.within _ hspans.first).2
    refine ⟨fun t ht => ?_, ⟨r, mem_cons_self, le_rfl, hr⟩, ?_⟩
    · rcases (times_cons _ _ _).mp ht with ht | ht
      · exact ⟨ht.1, ht.2.trans (hrr'.trans hlast)⟩
      · obtain ⟨h₁, h₂⟩ := hspans.within t ht
        exact ⟨hr.le.trans (hrr'.le.trans h₁), h₂⟩
    · obtain ⟨s, hs, hM⟩ := hspans.last
      exact ⟨s, hs, fun t hst ht => (times_cons _ _ _).mpr (Or.inr (hM t hst ht))⟩

/-- The times in the gaps are those between the first range and the last that are in no range. -/
theorem times_gaps (r : Range α) (l : List (Range α)) (h : Apart (r :: l)) (hl : Proper (r :: l))
    (t : α) :
    Times (gaps (r :: l)) t ↔ r.m_start ≤ t ∧
      t < ((r :: l).getLast (cons_ne_nil r l)).m_end ∧ ¬ Times (r :: l) t := by
  have hr := hl r mem_cons_self
  induction l generalizing r with
  | nil =>
    have hno : ¬ Times (gaps [r]) t := times_nil t
    refine ⟨fun ht => absurd ht hno, fun ht => absurd ?_ ht.2.2⟩
    exact ⟨r, mem_cons_self, ht.1, ht.2.1⟩
  | cons r' l ih =>
    obtain ⟨hbefore, hpairs⟩ := pairwise_cons.mp h.apart
    have h' : Apart (r' :: l) := ⟨fun i hi => h.le i (mem_cons_of_mem _ hi), hpairs⟩
    have hl' : Proper (r' :: l) := fun i hi => hl i (mem_cons_of_mem _ hi)
    have hspans := spans r' l h' hl'
    have hrr' : r.m_end < r'.m_start := hbefore r' mem_cons_self
    have hgaps : Times (gaps (r' :: l)) t ↔ _ := ih r' h' hl' (hl' r' mem_cons_self)
    rw [gaps, times_cons, hgaps, times_cons r]
    constructor
    · rintro (⟨h₁, h₂⟩ | ⟨h₁, h₂, h₃⟩)
      · refine ⟨hr.le.trans h₁, h₂.trans (hspans.within _ hspans.first).2, ?_⟩
        rintro (ht | ht)
        · exact absurd h₁ (not_le.mpr ht.2)
        · exact absurd (hspans.within t ht).1 (not_le.mpr h₂)
      · refine ⟨hr.le.trans (hrr'.le.trans h₁), h₂, ?_⟩
        rintro (ht | ht)
        · exact absurd (hrr'.le.trans h₁) (not_le.mpr ht.2)
        · exact h₃ ht
    · rintro ⟨h₁, h₂, h₃⟩
      rw [not_or, not_and, not_lt] at h₃
      rcases lt_or_ge t r'.m_start with hlt | hge
      · exact Or.inl ⟨h₃.1 h₁, hlt⟩
      · exact Or.inr ⟨hge, h₂, h₃.2⟩

theorem proper_gaps : ∀ l : List (Range α), Apart l → Proper (gaps l)
  | [], _ => by simp [gaps, Proper]
  | [r], _ => by simp [gaps, Proper]
  | r :: r' :: l, h => by
    obtain ⟨hbefore, hpairs⟩ := pairwise_cons.mp h.apart
    have ih := proper_gaps (r' :: l) ⟨fun i hi => h.le i (mem_cons_of_mem _ hi), hpairs⟩
    intro i hi
    rcases mem_cons.mp hi with rfl | hi
    · exact hbefore r' mem_cons_self
    · exact ih i hi

end Times

/-! ## Inversion -/

section Inversion

variable {α : Type*} [LinearOrder α] [BoundedOrder α] [One α]

omit [BoundedOrder α] [One α] in
theorem addAll_append (l adds adds' : List (Range α)) :
    addAll l (adds ++ adds') = addAll (addAll l adds) adds' :=
  foldl_append

/-- The ranges that `invert` adds. -/
def inversionParts (first last : α) (l : List (Range α)) : List (Range α) :=
  (if first ≠ ⊥ then [⟨⊥, 1⟩] else []) ++ gaps l ++ (if last ≠ ⊤ then [⟨1, ⊤⟩] else [])

theorem invert_cons (r : Range α) (l : List (Range α)) :
    invert (r :: l) = addAll [] (inversionParts r.m_start
      ((r :: l).getLast (cons_ne_nil r l)).m_end (r :: l)) := by
  have hunfold : invert (r :: l) = addAll (addAll (if r.m_start ≠ ⊥ then add [] ⟨⊥, 1⟩ else [])
      (gaps (r :: l))) (if ((r :: l).getLast (cons_ne_nil r l)).m_end ≠ ⊤ then [⟨1, ⊤⟩]
        else []) := by
    by_cases he : ((r :: l).getLast (cons_ne_nil r l)).m_end ≠ ⊤
    · rw [if_pos he]
      exact if_pos he
    · rw [if_neg he]
      exact if_neg he
  rw [hunfold, inversionParts, addAll_append]
  by_cases hf : r.m_start ≠ ⊥
  · rw [if_pos hf, if_pos hf]
    rfl
  · rw [if_neg hf, if_neg hf]
    rfl

theorem invert_nil : invert ([] : List (Range α)) = [⟨⊥, ⊤⟩] := by
  unfold invert add addScan
  simp

variable (hbot : (⊥ : α) < 1) (htop : (1 : α) < ⊤)

include hbot htop

variable {l l' : List (Range α)}

theorem proper_inversionParts (h : Apart l) :
    Proper (inversionParts first last l) := by
  refine Proper.append (Proper.append ?_ (proper_gaps l h)) ?_
  · split
    · intro i hi
      exact mem_singleton.mp hi ▸ hbot
    · simp [Proper]
  · split
    · intro i hi
      exact mem_singleton.mp hi ▸ htop
    · simp [Proper]

theorem mergedFrom_invert (r : Range α) (l : List (Range α)) (h : Apart (r :: l)) :
    MergedFrom (inversionParts r.m_start ((r :: l).getLast (cons_ne_nil r l)).m_end (r :: l))
      (invert (r :: l)) := by
  rw [invert_cons]
  exact mergedFrom_addAll _ (proper_inversionParts hbot htop h).le

theorem apart_invert (l : List (Range α)) (h : Apart l) : Apart (invert l) ∧ Proper (invert l) := by
  cases l with
  | nil =>
    rw [invert_nil]
    refine ⟨⟨fun i hi => ?_, pairwise_singleton _ _⟩, fun i hi => ?_⟩
    · exact mem_singleton.mp hi ▸ bot_le
    · exact mem_singleton.mp hi ▸ hbot.trans htop
  | cons r l =>
    have hm := mergedFrom_invert hbot htop r l h
    exact ⟨hm.apart, hm.proper (proper_inversionParts hbot htop h)⟩

/-- The times that `invert` leaves. -/
theorem times_invert (r : Range α) (l : List (Range α)) (h : Apart (r :: l)) (hl : Proper (r :: l))
    (t : α) :
    Times (invert (r :: l)) t ↔ (r.m_start ≠ ⊥ ∧ t < 1) ∨
      (r.m_start ≤ t ∧ t < ((r :: l).getLast (cons_ne_nil r l)).m_end ∧ ¬ Times (r :: l) t) ∨
      (((r :: l).getLast (cons_ne_nil r l)).m_end ≠ ⊤ ∧ 1 ≤ t ∧ t < ⊤) := by
  rw [(mergedFrom_invert hbot htop r l h).times_iff, inversionParts, times_append, times_append,
    times_gaps r l h hl, or_assoc]
  refine or_congr ?_ (or_congr Iff.rfl ?_)
  all_goals
    split <;> rename_i hne
    · rw [times_cons]
      simp [hne, times_nil]
    · simp [times_nil, not_not.mp hne]

omit hbot htop

/-- Exactly the times in none of the ranges. -/
def IsComplement (l l' : List (Range α)) : Prop := ∀ t, t < ⊤ → (Times l t ↔ ¬ Times l' t)

/-- When the formula gives the complement. -/
theorem complement_iff {N : α → Prop} (hM : Spans M first last)
    (hN : ∀ t, N t ↔ (first ≠ ⊥ ∧ t < 1) ∨ (first ≤ t ∧ t < last ∧ ¬ M t) ∨
      (last ≠ ⊤ ∧ 1 ≤ t ∧ t < ⊤)) :
    (∀ t, t < ⊤ → (N t ↔ ¬ M t)) ↔ (first = ⊥ ∨ first = 1) ∧ (last = ⊤ ∨ last = 1) := by
  have hfirst := (hM.within _ hM.first).2
  constructor
  · intro h
    have hnot : ∀ t, t < ⊤ → M t → ¬ N t := fun t ht hMt hNt => (h t ht).mp hNt hMt
    have hlate : last ≠ ⊤ → ∀ t, 1 ≤ t → t < ⊤ → ¬ M t := fun hne t h1 ht hMt =>
      hnot t ht hMt ((hN t).mpr (Or.inr (Or.inr ⟨hne, h1, ht⟩)))
    have hfirst' : first = ⊥ ∨ first = 1 := by
      by_contra hcon
      rw [not_or] at hcon
      rcases lt_or_gt_of_ne hcon.2 with hlt | hgt
      · -- the first range starts before 1, and the gap before it goes beyond its start
        exact hnot first (hfirst.trans_le le_top) hM.first ((hN _).mpr (Or.inl ⟨hcon.1, hlt⟩))
      · -- the first range starts behind 1, and the gap before it stops there
        have h1 : N 1 := (h 1 (hgt.trans (hfirst.trans_le le_top))).mpr fun hM1 =>
          absurd (hM.within 1 hM1).1 (not_le.mpr hgt)
        rcases (hN 1).mp h1 with h1 | h1 | h1
        · exact absurd h1.2 (lt_irrefl _)
        · exact absurd h1.1 (not_le.mpr hgt)
        · exact hlate h1.1 first hgt.le (hfirst.trans_le le_top) hM.first
    refine ⟨hfirst', ?_⟩
    by_contra hcon
    rw [not_or] at hcon
    have hlast : last < ⊤ := lt_top_iff_ne_top.mpr hcon.1
    rcases lt_or_gt_of_ne hcon.2 with hlt | hgt
    · have hend : N last := (h last hlast).mpr fun hMe =>
        absurd (hM.within last hMe).2 (lt_irrefl _)
      rcases (hN last).mp hend with he | he | he
      · exact hnot first (hfirst.trans hlast) hM.first
          ((hN _).mpr (Or.inl ⟨he.1, hfirst.trans hlt⟩))
      · exact absurd he.2.1 (lt_irrefl _)
      · exact absurd he.2.1 (not_le.mpr hlt)
    · obtain ⟨u, h1u, hu, hMu⟩ := hM.exists_ge hgt
      exact hlate hcon.1 u h1u (hu.trans hlast) hMu
  · rintro ⟨hf, hl⟩ t ht
    rw [hN t]
    constructor
    · rintro (⟨hne, h1⟩ | ⟨-, -, hMt⟩ | ⟨hne, h1, -⟩) hMt'
      · rw [hf.resolve_left hne] at hM
        exact absurd (hM.within t hMt').1 (not_le.mpr h1)
      · exact hMt hMt'
      · rw [hl.resolve_left hne] at hM
        exact absurd (hM.within t hMt').2 (not_lt.mpr h1)
    · intro hMt
      rcases lt_or_ge t first with hlt | hge
      · have hne : first ≠ ⊥ := fun heq => absurd (heq ▸ hlt) not_lt_bot
        exact Or.inl ⟨hne, (hf.resolve_left hne) ▸ hlt⟩
      · rcases lt_or_ge t last with hlt' | hge'
        · exact Or.inr (Or.inl ⟨hge, hlt', hMt⟩)
        · have hne : last ≠ ⊤ := fun heq => absurd ht (not_lt.mpr (heq ▸ hge'))
          exact Or.inr (Or.inr ⟨hne, (hl.resolve_left hne) ▸ hge', ht⟩)

/-- `invert` gives the complement exactly when the ends at which it uses 1 are infinite or 1. -/
theorem isComplement_invert_iff (hbot : (⊥ : α) < 1) (htop : (1 : α) < ⊤) (h : Apart l)
    (hl : Proper l) :
    IsComplement (invert l) l ↔ l = [] ∨ ∃ first last, l.head? = some first ∧
      l.getLast? = some last ∧ (first.m_start = ⊥ ∨ first.m_start = 1) ∧
      (last.m_end = ⊤ ∨ last.m_end = 1) := by
  cases l with
  | nil =>
    refine ⟨fun _ => Or.inl rfl, fun _ t ht => ⟨fun _ => times_nil t, fun _ => ?_⟩⟩
    rw [invert_nil, times_cons]
    exact Or.inl ⟨bot_le, ht⟩
  | cons r l =>
    have hlast : (r :: l).getLast? = some ((r :: l).getLast (cons_ne_nil r l)) :=
      List.getLast?_eq_some_getLast _
    rw [IsComplement, complement_iff (spans r l h hl) (times_invert hbot htop r l h hl)]
    constructor
    · rintro ⟨hf, he⟩
      exact Or.inr ⟨r, _, rfl, hlast, hf, he⟩
    · rintro (heq | ⟨first, last, hfirst, hlast', hf, he⟩)
      · exact absurd heq (cons_ne_nil r l)
      · obtain rfl : r = first := Option.some.inj hfirst
        obtain rfl := Option.some.inj (hlast.symm.trans hlast')
        exact ⟨hf, he⟩

/-! ## Intersection -/

omit [BoundedOrder α] [One α] in
/-- The union of two lists that were copied is merged from both. -/
theorem mergedFrom_unionWith (h : Apart l) (h' : Apart l') :
    MergedFrom (l ++ l') (unionWith (copy l) (copy l')) := by
  have hcopy : ∀ {m : List (Range α)}, Apart m → copy m = m := fun hm =>
    (mergedFrom_addAll _ hm.le).eq_of_apart hm
  have heq : unionWith (copy l) (copy l') = addAll [] (l ++ l') := by
    rw [unionWith, hcopy h, hcopy h', copy, addAll_append]
  rw [heq]
  refine mergedFrom_addAll _ fun r hr => ?_
  rcases mem_append.mp hr with hr | hr
  · exact h.le r hr
  · exact h'.le r hr

theorem intersectWith_comm (h : Apart l) (h' : Apart l') :
    intersectWith l l' = intersectWith l' l := by
  have hunion : unionWith (copy l) (copy l') = unionWith (copy l') (copy l) := by
    refine (mergedFrom_unionWith h h').unique ((mergedFrom_unionWith h' h).congr fun r => ?_)
    rw [mem_append, mem_append, or_comm]
  rw [intersectWith, intersectWith, hunion]

/-- Exactly the times in both lists. -/
def IsIntersection (l l₁ l₂ : List (Range α)) : Prop :=
  ∀ t, t < ⊤ → (Times l t ↔ Times l₁ t ∧ Times l₂ t)

/-- `intersectWith` gives the times in both lists exactly when each time is in one of them only, so
that there is none. -/
theorem isIntersection_iff (hbot : (⊥ : α) < 1) (htop : (1 : α) < ⊤) (h : Apart l) (h' : Apart l')
    (hl : Proper l) (hl' : Proper l') :
    IsIntersection (intersectWith l l') l l' ↔ ∀ t, t < ⊤ → (Times l t ↔ ¬ Times l' t) := by
  have hm := mergedFrom_unionWith h h'
  have htimes : ∀ t, Times (unionWith (copy l) (copy l')) t ↔ Times l t ∨ Times l' t := fun t => by
    rw [hm.times_iff, times_append]
  have hproper := hm.proper (hl.append hl')
  rw [intersectWith]
  generalize hu : unionWith (copy l) (copy l') = u at hm htimes hproper
  have hbot' : (⊥ : α) < ⊤ := hbot.trans htop
  cases u with
  | nil =>
    -- two empty lists have no time, and are said to have all of them
    have hno : ¬ Times l ⊥ ∧ ¬ Times l' ⊥ := not_or.mp fun ht => times_nil ⊥ ((htimes ⊥).mpr ht)
    constructor
    · intro hint
      refine absurd ((hint ⊥ hbot').mp ?_).1 hno.1
      rw [invert_nil, times_cons]
      exact Or.inl ⟨le_rfl, hbot'⟩
    · exact fun hxor => absurd ((hxor ⊥ hbot').mpr hno.2) hno.1
  | cons r u =>
    have hspans := spans r u hm.apart hproper
    have hinvert := times_invert hbot htop r u hm.apart hproper
    generalize ((r :: u).getLast (cons_ne_nil r u)).m_end = last at hspans hinvert
    constructor
    · intro hint
      have hboth : ∀ t, t < ⊤ → Times (invert (r :: u)) t → Times (r :: u) t := fun t ht hN =>
        (htimes t).mpr (Or.inl ((hint t ht).mp hN).1)
      have hfirst : r.m_start = ⊥ := by
        by_contra hne
        have hM := hboth ⊥ hbot' ((hinvert ⊥).mpr (Or.inl ⟨hne, hbot⟩))
        exact hne (le_bot_iff.mp (hspans.within ⊥ hM).1)
      have hlast : last = ⊤ := by
        by_contra hne
        have hlt := max_lt htop (lt_top_iff_ne_top.mpr hne)
        have hM := hboth (max 1 last) hlt
          ((hinvert _).mpr (Or.inr (Or.inr ⟨hne, le_max_left _ _, hlt⟩)))
        exact absurd (hspans.within _ hM).2 (not_lt.mpr (le_max_right _ _))
      have hall : ∀ t, t < ⊤ → Times (r :: u) t := by
        intro t ht
        by_contra hM
        refine hM (hboth t ht ((hinvert t).mpr (Or.inr (Or.inl ⟨?_, ?_, hM⟩))))
        · exact hfirst ▸ bot_le
        · exact hlast ▸ ht
      intro t ht
      constructor
      · intro h₁ h₂
        rcases (hinvert t).mp ((hint t ht).mpr ⟨h₁, h₂⟩) with hcase | hcase | hcase
        · exact hcase.1 hfirst
        · exact hcase.2.2 (hall t ht)
        · exact hcase.1 hlast
      · intro h₂
        exact ((htimes t).mp (hall t ht)).resolve_right h₂
    · intro hxor t ht
      have hall : ∀ t, t < ⊤ → Times (r :: u) t := fun t ht =>
        (htimes t).mpr (or_iff_not_imp_right.mpr (hxor t ht).mpr)
      have hN : ¬ Times (invert (r :: u)) t := by
        rw [hinvert]
        rintro (hcase | hcase | hcase)
        · exact hcase.1 (le_bot_iff.mp (hspans.within ⊥ (hall ⊥ hbot')).1)
        · exact hcase.2.2 (hall t ht)
        · have hlast := (hspans.within _ (hall last (lt_top_iff_ne_top.mpr hcase.1))).2
          exact absurd hlast (lt_irrefl _)
      exact ⟨fun hcase => absurd hcase hN, fun hboth => absurd hboth.2 ((hxor t ht).mp hboth.1)⟩

/-! ## Inverting twice -/

omit [BoundedOrder α] [One α] in
theorem eq_singleton (h : Apart l) (hl : Proper l) {a b : α} (hab : a < b)
    (htimes : ∀ t, Times l t ↔ a ≤ t ∧ t < b) : l = [⟨a, b⟩] := by
  refine eq_of_times_iff h ⟨?_, pairwise_singleton _ _⟩ hl ?_ fun t => ?_
  · exact fun i hi => mem_singleton.mp hi ▸ hab.le
  · exact fun i hi => mem_singleton.mp hi ▸ hab
  · rw [htimes, times_cons]
    simp [times_nil]

omit [BoundedOrder α] [One α] in
theorem times_singleton (r : Range α) (t : α) : Times [r] t ↔ r.m_start ≤ t ∧ t < r.m_end := by
  simp [times_cons, times_nil]

theorem invert_singleton (r : Range α) :
    invert [r] = (if r.m_end ≠ ⊤ then add (if r.m_start ≠ ⊥ then [⟨⊥, 1⟩] else []) ⟨1, ⊤⟩
      else if r.m_start ≠ ⊥ then [⟨⊥, 1⟩] else []) := by
  unfold invert
  simp only [List.head?_cons, List.getLast?_singleton, add_empty, gaps, addAll, foldl_nil]

/-- Inverting twice gives the list back for four lists only. -/
theorem invert_invert_iff (hbot : (⊥ : α) < 1) (htop : (1 : α) < ⊤) (h : Apart l) (hl : Proper l) :
    invert (invert l) = l ↔ l = [] ∨ l = [⟨⊥, ⊤⟩] ∨ l = [⟨⊥, 1⟩] ∨ l = [⟨1, ⊤⟩] := by
  have hbot' : (⊥ : α) < ⊤ := hbot.trans htop
  constructor
  swap
  · rintro (rfl | rfl | rfl | rfl)
    · simp [invert_nil, invert_singleton]
    · simp [invert_nil, invert_singleton]
    all_goals simp [invert_singleton, htop.ne, hbot.ne']
  intro hll
  cases l with
  | nil => exact Or.inl rfl
  | cons r l =>
    have hspans := spans r l h hl
    have hN := times_invert hbot htop r l h hl
    have hM : ∀ {t : α}, Times (invert (invert (r :: l))) t ↔ Times (r :: l) t := by rw [hll]
    have happart := apart_invert hbot htop (r :: l) h
    generalize hfirst : r.m_start = first at hspans hN
    generalize ((r :: l).getLast (cons_ne_nil r l)).m_end = last at hspans hN
    rcases hv : invert (r :: l) with _ | ⟨r', l'⟩
    · rw [hv, invert_nil] at hll
      exact Or.inr (Or.inl hll.symm)
    rw [hv] at hN happart hM
    have hspans' := spans r' l' happart.1 happart.2
    have hNN := times_invert hbot htop r' l' happart.1 happart.2
    generalize hfirst' : r'.m_start = first' at hspans' hNN
    generalize ((r' :: l').getLast (cons_ne_nil r' l')).m_end = last' at hspans' hNN
    replace hNN := fun t => hM.symm.trans (hNN t)
    obtain ⟨s, hs, hsM⟩ := hspans.last
    by_cases hf : first = ⊥ <;> by_cases he : last = ⊤
    · -- gaps only: inverted again they give all times
      have hN' : ∀ t, Times (r' :: l') t → ¬ Times (r :: l) t := by
        intro t ht
        rcases (hN t).mp ht with hcase | hcase | hcase
        · exact absurd hf hcase.1
        · exact hcase.2.2
        · exact absurd he hcase.1
      have hf' : first' ≠ ⊥ := fun hf' =>
        hN' ⊥ (hf' ▸ hspans'.first) (hf ▸ hspans.first)
      have he' : last' ≠ ⊤ := by
        intro he'
        obtain ⟨u, hu, hul, hNu⟩ := hspans'.exists_ge (he'.symm ▸ (he ▸ hs : s < ⊤))
        exact hN' u hNu (hsM u hu (he.symm ▸ (he' ▸ hul)))
      refine Or.inr (Or.inl (eq_singleton h hl hbot' fun t => ?_))
      constructor
      · exact fun ht => ⟨bot_le, he ▸ (hspans.within t ht).2⟩
      · rintro ⟨-, ht⟩
        rcases lt_or_ge t 1 with hlt | hge
        · exact (hNN t).mpr (Or.inl ⟨hf', hlt⟩)
        · exact (hNN t).mpr (Or.inr (Or.inr ⟨he', hge, ht⟩))
    · -- all times from 1 on, and gaps: the first list is what is before 1
      have hge : ∀ t, 1 ≤ t → t < ⊤ → Times (r' :: l') t := fun t h1 ht =>
        (hN t).mpr (Or.inr (Or.inr ⟨he, h1, ht⟩))
      have hf' : first' ≠ ⊥ := by
        intro hf'
        rcases (hN ⊥).mp (hf' ▸ hspans'.first) with hcase | hcase | hcase
        · exact hcase.1 hf
        · exact hcase.2.2 (hf ▸ hspans.first)
        · exact absurd hcase.2.1 (not_le.mpr hbot)
      have he' : last' = ⊤ := by
        by_contra hne
        have hlt := max_lt htop (lt_top_iff_ne_top.mpr hne)
        exact absurd (hspans'.within _ (hge (max 1 last') (le_max_left _ _) hlt)).2
          (not_lt.mpr (le_max_right _ _))
      refine Or.inr (Or.inr (Or.inl (eq_singleton h hl hbot fun t => ?_)))
      constructor
      · intro ht
        refine ⟨bot_le, not_le.mp fun h1 => ?_⟩
        have htop' : t < ⊤ := (hspans.within t ht).2.trans_le le_top
        rcases (hNN t).mp ht with hcase | hcase | hcase
        · exact absurd h1 (not_le.mpr hcase.2)
        · exact hcase.2.2 (hge t h1 htop')
        · exact hcase.1 he'
      · exact fun ht => (hNN t).mpr (Or.inl ⟨hf', ht.2⟩)
    · -- all times before 1, and gaps: the first list is what is from 1 on
      have hlt : ∀ t, t < 1 → Times (r' :: l') t := fun t h1 => (hN t).mpr (Or.inl ⟨hf, h1⟩)
      have hf' : first' = ⊥ := le_bot_iff.mp (hspans'.within ⊥ (hlt ⊥ hbot)).1
      have he' : last' ≠ ⊤ := by
        intro he'
        obtain ⟨u, hu, hul, hNu⟩ :=
          hspans'.exists_ge (he'.symm ▸ (max_lt htop (he ▸ hs) : max 1 s < ⊤))
        rcases (hN u).mp hNu with hcase | hcase | hcase
        · exact absurd ((le_max_left _ _).trans hu) (not_le.mpr hcase.2)
        · exact hcase.2.2 (hsM u ((le_max_right _ _).trans hu) hcase.2.1)
        · exact hcase.1 he
      refine Or.inr (Or.inr (Or.inr (eq_singleton h hl htop fun t => ?_)))
      constructor
      · intro ht
        refine ⟨not_lt.mp fun h1 => ?_, (hspans.within t ht).2.trans_le le_top⟩
        rcases (hNN t).mp ht with hcase | hcase | hcase
        · exact hcase.1 hf'
        · exact hcase.2.2 (hlt t h1)
        · exact absurd hcase.2.1 (not_le.mpr h1)
      · exact fun ht => (hNN t).mpr (Or.inr (Or.inr ⟨he', ht.1, ht.2⟩))
    · -- all times: inverted again they give none
      have hall : ∀ t, t < ⊤ → Times (r' :: l') t := by
        intro t ht
        rcases lt_or_ge t 1 with hlt | hge
        · exact (hN t).mpr (Or.inl ⟨hf, hlt⟩)
        · exact (hN t).mpr (Or.inr (Or.inr ⟨he, hge, ht⟩))
      have hlast : first < ⊤ := (hspans.within _ hspans.first).2.trans_le le_top
      rcases (hNN first).mp hspans.first with hcase | hcase | hcase
      · exact absurd (le_bot_iff.mp (hspans'.within ⊥ (hall ⊥ hbot')).1) hcase.1
      · exact absurd (hall first hlast) hcase.2.2
      · have hlt := lt_top_iff_ne_top.mpr hcase.1
        exact absurd (hspans'.within _ (hall last' hlt)).2 (lt_irrefl _)

end Inversion

/-! ## Lists built by `add` -/

section Infinite

variable {β : Type*} [LinearOrder β] [One β]

theorem bot_lt_one : (⊥ : WithBot (WithTop β)) < 1 := WithBot.bot_lt_coe _

theorem one_lt_top : (1 : WithBot (WithTop β)) < ⊤ := WithBot.coe_lt_coe.mpr (WithTop.coe_lt_top 1)

/-- What `invert` and `intersectWith` do on lists built by `add`: the ranges are in order and apart
always, and the order of the two lists does not matter.  Each of the three other laws holds exactly
under the condition given for it. -/
theorem invert_intersectWith_exact (adds others : List (Range (WithBot (WithTop β))))
    (hadds : ∀ r ∈ adds, r.m_start < r.m_end) (hothers : ∀ r ∈ others, r.m_start < r.m_end) :
    let l := addAll [] adds
    let other := addAll [] others
    (invert l).Pairwise (fun r r' => r.m_end < r'.m_start) ∧
    (intersectWith l other).Pairwise (fun r r' => r.m_end < r'.m_start) ∧
    intersectWith l other = intersectWith other l ∧
    (IsComplement (invert l) l ↔ l = [] ∨ ∃ first last, l.head? = some first ∧
      l.getLast? = some last ∧ (first.m_start = ⊥ ∨ first.m_start = 1) ∧
      (last.m_end = ⊤ ∨ last.m_end = 1)) ∧
    (IsIntersection (intersectWith l other) l other ↔ ∀ t, t < ⊤ → (Times l t ↔ ¬ Times other t)) ∧
    (invert (invert l) = l ↔ l = [] ∨ l = [⟨⊥, ⊤⟩] ∨ l = [⟨⊥, 1⟩] ∨ l = [⟨1, ⊤⟩]) := by
  intro l other
  have h := mergedFrom_addAll adds (Proper.le hadds)
  have h' := mergedFrom_addAll others (Proper.le hothers)
  have hl : Proper l := h.proper hadds
  have hother : Proper other := h'.proper hothers
  have hunion := mergedFrom_unionWith h.apart h'.apart
  exact ⟨(apart_invert bot_lt_one one_lt_top l h.apart).1.apart,
    (apart_invert bot_lt_one one_lt_top _ hunion.apart).1.apart,
    intersectWith_comm h.apart h'.apart,
    isComplement_invert_iff bot_lt_one one_lt_top h.apart hl,
    isIntersection_iff bot_lt_one one_lt_top h.apart h'.apart hl hother,
    invert_invert_iff bot_lt_one one_lt_top h.apart hl⟩

end Infinite

/-- The range from 2 to 3 and the times around it. -/
theorem invert_intersectWith_exact_around :
    let l := addAll [] [(⟨2, 3⟩ : Range (WithBot (WithTop ℤ)))]
    let other := addAll [] [(⟨3, ⊤⟩ : Range (WithBot (WithTop ℤ))), ⟨⊥, 2⟩]
    intersectWith l other = intersectWith other l ∧
      (IsIntersection (intersectWith l other) l other ↔
        ∀ t, t < ⊤ → (Times l t ↔ ¬ Times other t)) := by
  have h := invert_intersectWith_exact [(⟨2, 3⟩ : Range (WithBot (WithTop ℤ)))]
    [⟨3, ⊤⟩, ⟨⊥, 2⟩] (by decide) (by decide)
  exact ⟨h.2.2.1, h.2.2.2.2.1⟩

/-- The range from 2 to 3 and the same range again: the first inverts to all times, and the two have
no time in common by `intersectWith`. -/
theorem invert_intersectWith_two_three :
    let l := addAll [] [(⟨2, 3⟩ : Range (WithBot (WithTop ℤ)))]
    invert l = [⟨⊥, ⊤⟩] ∧ ¬ IsComplement (invert l) l ∧ ¬ IsIntersection (intersectWith l l) l l ∧
      invert (invert l) ≠ l := by
  intro l
  have hl : l = [⟨2, 3⟩] := by simp [l, addAll]
  have h2 : (2 : WithBot (WithTop ℤ)) ≠ ⊥ := by decide
  have h3 : (3 : WithBot (WithTop ℤ)) ≠ ⊤ := by decide
  have hinvert : invert l = [⟨⊥, ⊤⟩] := by
    rw [hl, invert_singleton, if_pos h3, if_pos h2]
    simp [add, addScan, Range.isContiguousWithRange, Range.unionWithOverlappingOrContiguousRange]
  have htwo : Times l 2 := hl ▸ (times_singleton _ _).mpr (by decide)
  have hlt : (2 : WithBot (WithTop ℤ)) < ⊤ := by decide
  have happart : Apart l := (mergedFrom_addAll _ (by decide)).apart
  have hproper : Proper l :=
    (mergedFrom_addAll _ (by decide)).proper fun r hr => mem_singleton.mp hr ▸ by decide
  refine ⟨hinvert, fun hcon => ?_, fun hcon => ?_, ?_⟩
  · refine (hcon 2 hlt).mp ?_ htwo
    rw [hinvert, times_singleton]
    exact ⟨bot_le, hlt⟩
  · have hxor := (isIntersection_iff bot_lt_one one_lt_top happart happart hproper hproper).mp hcon
    exact (hxor 2 hlt).mp htwo htwo
  · rw [hinvert, hl, invert_singleton]
    simp

end TimeRanges
end WebKit
