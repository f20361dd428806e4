import WebKit.HTML.TimeRanges

/-!
# Adding time ranges

`add` keeps the ranges separated: each ends strictly before the next begins.  What it does is the
same for every place at which its scan stops, and said once in `Merged`: the ranges wholly before the
added one and those wholly after it stay, and everything between is merged with it.  That the order
of the calls does not matter follows from this, since the ranges left at the end and the added ones
are inside of each other.
-/

namespace WebKit

open List
namespace TimeRanges

open SeparatedIntervals

variable {α : Type*} [LinearOrder α]

/-- The ranges are in order and apart. -/
abbrev Apart (l : List (Range α)) : Prop := Separated Range.m_start Range.m_end l

omit [LinearOrder α] in
theorem range_eq_of_ends (r r' : Range α) (hs : r.m_start = r'.m_start) (he : r.m_end = r'.m_end) :
    r = r' :=
  Range.ext hs he

/-! ## The tests of the scan -/

variable {r added : Range α} {before after l adds : List (Range α)}

section

variable {a : Range α} (ha : a.m_start ≤ a.m_end) (hr : r.m_start ≤ r.m_end)
include ha hr

/-- The first test of the scan: as closed ranges, the two have a time in common. -/
theorem touches_iff : (a.isOverlappingRange r || a.isContiguousWithRange r) = true ↔
      a.m_start ≤ r.m_end ∧ r.m_start ≤ a.m_end := by
  simp only [Range.isOverlappingRange, Range.isContiguousWithRange, Range.isPointInRange,
    Bool.or_eq_true, Bool.and_eq_true, decide_eq_true_eq, beq_iff_eq]
  constructor
  · rintro (((⟨h₁, h₂⟩ | ⟨h₁, h₂⟩) | ⟨h₁, h₂⟩) | h | h)
    · exact ⟨h₁.trans hr, h₂.le⟩
    · exact ⟨h₁, hr.trans h₂.le⟩
    · exact ⟨h₂.le, h₁.trans ha⟩
    · exact ⟨(ha.trans h.ge).trans hr, h.le⟩
    · exact ⟨h.ge, (hr.trans h.le).trans ha⟩
  · rintro ⟨h₁, h₂⟩
    rcases le_or_gt r.m_start a.m_start with hle | hlt
    · rcases h₁.lt_or_eq with hlt' | heq
      · exact Or.inl (Or.inr ⟨hle, hlt'⟩)
      · exact Or.inr (Or.inr heq.symm)
    · rcases h₂.lt_or_eq with hlt' | heq
      · exact Or.inl (Or.inl (Or.inl ⟨hlt.le, hlt'⟩))
      · exact Or.inr (Or.inl heq)

/-- Ranges that do not touch are apart, one way or the other. -/
theorem apart_of_not_touches (h : ¬ (a.isOverlappingRange r || a.isContiguousWithRange r) = true) :
    (a.isBeforeRange r = true ∧ a.m_end < r.m_start) ∨
      (¬ a.isBeforeRange r = true ∧ r.m_end < a.m_start) := by
  rw [touches_iff ha hr, not_and_or, not_le, not_le] at h
  simp only [Range.isBeforeRange, decide_eq_true_eq]
  rcases h with h | h
  · exact Or.inr ⟨not_le.mpr (hr.trans_lt (h.trans_le ha)), h⟩
  · exact Or.inl ⟨h.le, h⟩

end

/-! ## The scan -/

/-- What the scan of the list finds for the added range: the ranges before and after it that stay,
and what it has been merged to. -/
structure Merged (l : List (Range α)) (added : Range α) (before after : List (Range α))
    (merged : Range α) : Prop where
  sublist : (before ++ after).Sublist l
  before_lt : ∀ r ∈ before, r.m_end < merged.m_start
  lt_after : ∀ r ∈ after, merged.m_end < r.m_start
  chained : Chained Range.m_start Range.m_end (fun r => r = added ∨ r ∈ l) merged.m_start merged.m_end
  start_le : merged.m_start ≤ added.m_start
  le_end : added.m_end ≤ merged.m_end
  stays_or_within : ∀ r ∈ l, r ∈ before ++ after ∨
    merged.m_start ≤ r.m_start ∧ r.m_end ≤ merged.m_end

/-- Nothing of the list touches the added range. -/
theorem Merged.of_apart (hbefore : ∀ r ∈ before, r.m_end < added.m_start)
    (hafter : ∀ r ∈ after, added.m_end < r.m_start) :
    Merged (before ++ after) added before after added where
  sublist := List.Sublist.refl _
  before_lt := hbefore
  lt_after := hafter
  chained := .one (Or.inl rfl)
  start_le := le_rfl
  le_end := le_rfl
  stays_or_within _ hr := Or.inl hr

/-- A range that touches the added one is merged with it. -/
theorem Merged.of_touches {range : Range α}
    (h : Merged (pre ++ suf) (added.unionWithOverlappingOrContiguousRange range) before after merged)
    (h₁ : added.m_start ≤ range.m_end) (h₂ : range.m_start ≤ added.m_end) :
    Merged (pre ++ range :: suf) added before after merged where
  sublist := h.sublist.trans (List.Sublist.append_left (sublist_cons_self _ _) _)
  before_lt := h.before_lt
  lt_after := h.lt_after
  chained := by
    refine h.chained.of_chained fun r hr => ?_
    rcases hr with rfl | hr
    · exact .join (.one (Or.inl rfl))
        (.one (Or.inr (mem_append_right _ mem_cons_self))) h₁ h₂
    · refine .one (Or.inr ?_)
      exact (List.Sublist.append_left (sublist_cons_self _ _) _).subset hr
  start_le := h.start_le.trans (min_le_left _ _)
  le_end := (le_max_left _ _).trans h.le_end
  stays_or_within r hr := by
    rcases mem_append.mp hr with hr | hr
    · exact h.stays_or_within r (mem_append_left _ hr)
    · rcases mem_cons.mp hr with rfl | hr
      · exact Or.inr ⟨h.start_le.trans (min_le_right _ _), (le_max_right _ _).trans h.le_end⟩
      · exact h.stays_or_within r (mem_append_right _ hr)

/-- The scan from an index before which all ranges are before the added one. -/
theorem addScan_spec (suf : List (Range α)) : ∀ (pre : List (Range α)) (added : Range α),
    Apart (pre ++ suf) → added.m_start ≤ added.m_end → (∀ r ∈ pre, r.m_end < added.m_start) →
    ∃ before after merged, Merged (pre ++ suf) added before after merged ∧
      addScan (pre ++ suf) pre.length added = (before ++ after, before.length, merged) := by
  induction suf with
  | nil =>
    intro pre added _ _ hpre
    refine ⟨pre, [], added, Merged.of_apart hpre (by simp), ?_⟩
    rw [addScan, dif_neg (by simp)]
  | cons range suf ih =>
    intro pre added hl hadded hpre
    have hlt : pre.length < (pre ++ range :: suf).length := by simp
    have hget : (pre ++ range :: suf)[pre.length] = range := by simp
    have hrange : range.m_start ≤ range.m_end := hl.le range (by simp)
    -- the scan goes on behind the range, when this one is before the added range
    have hgoOn : range.m_end < added.m_start → ∃ before after merged,
        Merged (pre ++ range :: suf) added before after merged ∧
          addScan (pre ++ range :: suf) (pre.length + 1) added =
            (before ++ after, before.length, merged) := by
      intro hbefore
      have hcons : pre ++ range :: suf = (pre ++ [range]) ++ suf := by simp
      have hlen : pre.length + 1 = (pre ++ [range]).length := by simp
      rw [hcons, hlen]
      refine ih (pre ++ [range]) added (hcons ▸ hl) hadded fun r hr => ?_
      rcases mem_append.mp hr with hr | hr
      · exact hpre r hr
      · exact mem_singleton.mp hr ▸ hbefore
    -- the scan stops at the range, when the added one is before it
    have hstop : added.m_end < range.m_start →
        Merged (pre ++ range :: suf) added pre (range :: suf) added := by
      intro hafter
      refine Merged.of_apart hpre fun r hr => ?_
      rcases mem_cons.mp hr with rfl | hr
      · exact hafter
      · have happart := (pairwise_append.mp hl.apart).2.1
        exact hafter.trans_le (hrange.trans ((pairwise_cons.mp happart).1 r hr).le)
    rw [addScan, dif_pos hlt]
    simp only [hget]
    by_cases htouch : (added.isOverlappingRange range || added.isContiguousWithRange range) = true
    · rw [if_pos htouch]
      obtain ⟨h₁, h₂⟩ := (touches_iff hadded hrange).mp htouch
      have herase : (pre ++ range :: suf).eraseIdx pre.length = pre ++ suf := by
        rw [eraseIdx_append_of_length_le le_rfl]
        simp
      rw [herase]
      have hl' : Apart (pre ++ suf) := by
        have hsub : (pre ++ suf).Sublist (pre ++ range :: suf) :=
          List.Sublist.append_left (sublist_cons_self _ _) _
        exact ⟨fun r hr => hl.le r (hsub.subset hr), hl.apart.sublist hsub⟩
      have hpre' : ∀ r ∈ pre, r.m_end < min added.m_start range.m_start := by
        intro r hr
        have happart := (pairwise_append.mp hl.apart).2.2 r hr range mem_cons_self
        exact lt_min (hpre r hr) happart
      obtain ⟨before, after, merged, hmerged, hscan⟩ :=
        ih pre (added.unionWithOverlappingOrContiguousRange range) hl'
          ((min_le_left _ _).trans (hadded.trans (le_max_left _ _))) hpre'
      exact ⟨before, after, merged, hmerged.of_touches h₁ h₂, hscan⟩
    · rw [if_neg htouch]
      rcases apart_of_not_touches hadded hrange htouch with ⟨hbefore, hlt'⟩ | ⟨hbefore, hlt'⟩
      · -- both insertion conditions hold, the second because of what the scan has passed
        refine ⟨pre, range :: suf, added, hstop hlt', ?_⟩
        by_cases hzero : pre.length = 0
        · rw [if_pos hzero, if_pos hbefore]
        · have hprev : ((pre ++ range :: suf)[pre.length - 1]).isBeforeRange added = true := by
            have hmem : (pre ++ range :: suf)[pre.length - 1] ∈ pre := by
              rw [getElem_append_left (by omega)]
              exact getElem_mem _
            exact decide_eq_true (hpre _ hmem).le
          rw [if_neg hzero, if_pos (by rw [hprev, hbefore]; rfl)]
      · obtain ⟨before, after, merged, hmerged, hscan⟩ := hgoOn hlt'
        refine ⟨before, after, merged, hmerged, ?_⟩
        by_cases hzero : pre.length = 0
        · rw [if_pos hzero, if_neg hbefore, hscan]
        · rw [if_neg hzero, if_neg (by rw [Bool.and_eq_true]; exact fun h => hbefore h.2), hscan]

theorem insertIdx_length_append {ι : Type*} (l l' : List ι) (a : ι) :
    (l ++ l').insertIdx l.length a = l ++ a :: l' := by
  induction l with
  | nil => rfl
  | cons b l ih => rw [cons_append, length_cons, insertIdx_succ_cons, ih]; rfl

/-- What one call of `add` does. -/
theorem add_spec (hl : Apart l) (hadded : added.m_start ≤ added.m_end) :
    ∃ before after merged, Merged l added before after merged ∧
      add l added = before ++ merged :: after := by
  obtain ⟨before, after, merged, hmerged, hscan⟩ := addScan_spec l [] added hl hadded (by simp)
  refine ⟨before, after, merged, hmerged, ?_⟩
  have hscan' : addScan l 0 added = (before ++ after, before.length, merged) := hscan
  rw [add, hscan']
  exact insertIdx_length_append before after merged

theorem Merged.start_le_end (h : Merged l added before after merged)
    (hadded : added.m_start ≤ added.m_end) : merged.m_start ≤ merged.m_end :=
  h.start_le.trans (hadded.trans h.le_end)

@[simp] theorem add_empty (r : Range α) : add [] r = [r] := by
  simp [add, addScan]

section

variable (hl : Apart l) (hadded : added.m_start ≤ added.m_end)
include hadded hl

/-- `add` keeps the ranges apart. -/
theorem apart_add : Apart (add l added) := by
  obtain ⟨before, after, merged, hmerged, heq⟩ := add_spec hl hadded
  rw [heq]
  constructor
  · intro r hr
    rcases mem_append.mp hr with hr | hr
    · exact hl.le r (hmerged.sublist.subset (mem_append_left _ hr))
    · rcases mem_cons.mp hr with rfl | hr
      · exact hmerged.start_le_end hadded
      · exact hl.le r (hmerged.sublist.subset (mem_append_right _ hr))
  · obtain ⟨hbefore, hafter, hacross⟩ := pairwise_append.mp (hl.apart.sublist hmerged.sublist)
    refine pairwise_append.mpr ⟨hbefore, pairwise_cons.mpr ⟨hmerged.lt_after, hafter⟩, ?_⟩
    intro r hr r' hr'
    rcases mem_cons.mp hr' with rfl | hr'
    · exact hmerged.before_lt r hr
    · exact hacross r hr r' hr'

/-- Every range of the list and the added one are inside of the ranges left. -/
theorem within_add :
    Within Range.m_start Range.m_end (fun r => r = added ∨ r ∈ l) (add l added) := by
  obtain ⟨before, after, merged, hmerged, heq⟩ := add_spec hl hadded
  rw [heq]
  rintro r (rfl | hr)
  · exact ⟨merged, by simp, hmerged.start_le, hmerged.le_end⟩
  · rcases hmerged.stays_or_within r hr with hstays | hin
    · refine ⟨r, ?_, le_rfl, le_rfl⟩
      rcases mem_append.mp hstays with hr | hr
      · exact mem_append_left _ hr
      · exact mem_append_right _ (mem_cons_of_mem _ hr)
    · exact ⟨merged, by simp, hin⟩

/-- Every range left is merged from the ranges of the list and the added one. -/
theorem chained_add (hr : r ∈ add l added) :
    Chained Range.m_start Range.m_end (fun r => r = added ∨ r ∈ l) r.m_start r.m_end := by
  obtain ⟨before, after, merged, hmerged, heq⟩ := add_spec hl hadded
  rw [heq] at hr
  rcases mem_append.mp hr with hr | hr
  · exact .one (Or.inr (hmerged.sublist.subset (mem_append_left _ hr)))
  · rcases mem_cons.mp hr with rfl | hr
    · exact hmerged.chained
    · exact .one (Or.inr (hmerged.sublist.subset (mem_append_right _ hr)))

end

/-! ## Runs of additions -/

/-- What a list of ranges is to the ranges that were added: apart, merged from them, and with each of
them inside of one. -/
structure MergedFrom (adds l : List (Range α)) : Prop where
  apart : Apart l
  within : Within Range.m_start Range.m_end (· ∈ adds) l
  chained : ∀ r ∈ l, Chained Range.m_start Range.m_end (· ∈ adds) r.m_start r.m_end

theorem MergedFrom.nil : MergedFrom ([] : List (Range α)) [] where
  apart := ⟨by simp, List.Pairwise.nil⟩
  within r hr := absurd hr not_mem_nil
  chained r hr := absurd hr not_mem_nil

variable (h : MergedFrom adds l)

include h

/-- One call of `add`. -/
theorem MergedFrom.add (hadded : added.m_start ≤ added.m_end) :
    MergedFrom (added :: adds) (add l added) where
  apart := apart_add h.apart hadded
  within r hr := by
    have hwithin := within_add h.apart hadded
    rcases mem_cons.mp hr with rfl | hr
    · exact hwithin r (Or.inl rfl)
    · obtain ⟨j, hj, hjr, hrj⟩ := h.within r hr
      obtain ⟨k, hk, hkj, hjk⟩ := hwithin j (Or.inr hj)
      exact ⟨k, hk, hkj.trans hjr, hrj.trans hjk⟩
  chained r hr := by
    refine (chained_add h.apart hadded hr).of_chained fun i hi => ?_
    rcases hi with rfl | hi
    · exact .one mem_cons_self
    · exact (h.chained i hi).mono fun _ hj => mem_cons_of_mem _ hj

/-- Calls of `add` one after the other. -/
theorem MergedFrom.addAll (more : List (Range α)) (hmore : ∀ r ∈ more, r.m_start ≤ r.m_end) :
    MergedFrom (more.reverse ++ adds) (addAll l more) := by
  induction more generalizing adds l with
  | nil => exact h
  | cons r more ih =>
    have hr := h.add (hmore r mem_cons_self)
    have htail := ih hr fun r' hr' => hmore r' (mem_cons_of_mem _ hr')
    rw [reverse_cons, append_assoc]
    exact htail

/-- What is added matters as a set only. -/
theorem MergedFrom.congr (hmem : ∀ r, r ∈ adds ↔ r ∈ adds') : MergedFrom adds' l where
  apart := h.apart
  within r hr := h.within r ((hmem r).mpr hr)
  chained r hr := (h.chained r hr).mono fun i hi => (hmem i).mp hi

omit h in
theorem mergedFrom_addAll (adds : List (Range α)) (hadds : ∀ r ∈ adds, r.m_start ≤ r.m_end) :
    MergedFrom adds (addAll [] adds) := by
  refine (MergedFrom.nil.addAll adds hadds).congr fun r => ?_
  simp

/-- There is one list only that is merged from what was added. -/
theorem MergedFrom.unique (h' : MergedFrom adds l') :
    l = l' := by
  refine h.apart.eq_of_within range_eq_of_ends h'.apart ?_ ?_
  · exact fun r hr => h'.apart.exists_of_chained h'.within (h.chained r hr)
  · exact fun r hr => h.apart.exists_of_chained h.within (h'.chained r hr)

/-- What was merged from apart ranges is these ranges. -/
theorem MergedFrom.eq_of_apart (hadds : Apart adds) : l = adds := by
  refine h.unique ⟨hadds, fun r hr => ⟨r, hr, le_rfl, le_rfl⟩, fun r hr => .one hr⟩

/-! ## The times covered -/

omit h in
theorem contain_iff (l : List (Range α)) (t : α) :
    contain l t = true ↔ ∃ r ∈ l, r.m_start ≤ t ∧ t ≤ r.m_end := by
  simp [contain]

omit h in
/-- Merging adds no time. -/
theorem exists_of_chained {t : α}
    (h : Chained Range.m_start Range.m_end S a b) (hat : a ≤ t) (htb : t ≤ b) :
    ∃ r, S r ∧ r.m_start ≤ t ∧ t ≤ r.m_end := by
  induction h with
  | @one r hr => exact ⟨r, hr, hat, htb⟩
  | @join a b c d h₁ h₂ had hcb ih₁ ih₂ =>
    rcases min_le_iff.mp hat with hat | hct
    · rcases le_or_gt t b with htb' | hbt
      · exact ih₁ hat htb'
      · exact ih₂ (hcb.trans hbt.le) ((le_max_iff.mp htb).resolve_left (not_le.mpr hbt))
    · rcases le_or_gt t d with htd | hdt
      · exact ih₂ hct htd
      · exact ih₁ (had.trans hdt.le) ((le_max_iff.mp htb).resolve_right (not_le.mpr hdt))

theorem MergedFrom.contain_iff (t : α) :
    contain l t = true ↔ ∃ r ∈ adds, r.m_start ≤ t ∧ t ≤ r.m_end := by
  rw [TimeRanges.contain_iff]
  constructor
  · rintro ⟨r, hr, hrt, htr⟩
    exact exists_of_chained (h.chained r hr) hrt htr
  · rintro ⟨r, hr, hrt, htr⟩
    obtain ⟨j, hj, hjr, hrj⟩ := h.within r hr
    exact ⟨j, hj, hjr.trans hrt, htr.trans hrj⟩

omit h

/-- After calls of `add` in any order, the ranges are in order and each ends strictly before the next
begins, they cover the times of the added ranges, and any other order of the calls gives the same
list. -/
theorem addAll_merges (adds : List (Range α)) (hadds : ∀ r ∈ adds, r.m_start ≤ r.m_end) :
    (addAll [] adds).Pairwise (fun r r' => r.m_end < r'.m_start) ∧
      (∀ r ∈ addAll [] adds, r.m_start ≤ r.m_end) ∧
      (∀ t, contain (addAll [] adds) t = true ↔ ∃ r ∈ adds, r.m_start ≤ t ∧ t ≤ r.m_end) ∧
      ∀ adds' : List (Range α), adds'.Perm adds → addAll [] adds' = addAll [] adds := by
  have h := mergedFrom_addAll adds hadds
  refine ⟨h.apart.apart, h.apart.le, h.contain_iff, ?_⟩
  intro adds' hperm
  have h' := mergedFrom_addAll adds' fun r hr => hadds r (hperm.mem_iff.mp hr)
  exact (h'.congr fun r => hperm.mem_iff).unique h

/-- The additions of three ranges, in an order in which the last one closes the gap. -/
theorem addAll_merges_three :
    addAll [] [(⟨0, 2⟩ : Range ℕ), ⟨5, 5⟩, ⟨2, 5⟩] = addAll [] [⟨2, 5⟩, ⟨5, 5⟩, ⟨0, 2⟩] :=
  (addAll_merges [⟨2, 5⟩, ⟨5, 5⟩, ⟨0, 2⟩] (by decide)).2.2.2 _ (by decide)

end TimeRanges
end WebKit
