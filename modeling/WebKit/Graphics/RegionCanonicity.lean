import WebKit.Graphics.RegionAlgebra

/-!
# The canonical form of a region

The rows of a built region are canonical, so its rectangles are disjoint and cover it exactly, and
the shape is determined by its points.  `operator==` also compares the bounds, and `contains` is
computed with it.  Both decide what they should as long as no empty region has been moved:
`translate` moves the bounds of an empty region too, after which it differs from the other empty
regions and is contained in none (`decidesPoints_iff`).
-/

namespace WebKit.Graphics

open Library.StepFunction
open List IntRect

/-! ## The rectangles of a region -/

/-- The rectangles of the rows. -/
def rowRects : List Row → List IntRect
  | (y, segments) :: (y', segments') :: rows =>
    Shape.spanRects y (y' - y) segments ++ rowRects ((y', segments') :: rows)
  | _ => []

theorem rectsLoop_rowSpans {shape : Shape} :
    ∀ {rows : List Row} {before d : List ℤ}, shape.segments = before ++ rowSegments rows →
      limit d rows = [] → shape.rectsLoop (rowSpans before.length rows) = rowRects rows
  | [], _, _, _, _ => rfl
  | [_], _, _, _, _ => rfl
  | (y, segments) :: (y', segments') :: rows, before, _, hs, hend => by
    have hat := segmentsAt_rowSpans segments y hs hend
    have hs' : shape.segments = (before ++ segments) ++ rowSegments ((y', segments') :: rows) := by
      rw [hs, append_assoc, rowSegments_cons]
    have hrest := rectsLoop_rowSpans (d := segments) hs' hend
    rw [length_append, rowSpans_cons] at hrest
    rw [rowSpans_cons, rowSpans_cons] at hat ⊢
    rw [Shape.rectsLoop, hat, hrest]
    rfl

theorem isInside_pair (x x' : ℤ) (rest : List ℤ) (z : ℤ) : isInside (x :: x' :: rest) z =
      if x ≤ z then (if x' ≤ z then isInside rest z else true) else false := rfl

theorem IsSegments.tail_pair {x : ℤ} (h : IsSegments (x :: x' :: rest)) :
    IsSegments rest := by
  constructor
  · exact (pairwise_cons.mp (pairwise_cons.mp h.increasing).2).2
  · have heven := h.even
    rw [length_cons, length_cons] at heven
    omega

/-- The rectangles of a span cover the inside of its lines. -/
theorem exists_spanRects_contains (y height : ℤ) (p : IntPoint) :
    ∀ {segments : List ℤ}, IsSegments segments →
      ((∃ r ∈ Shape.spanRects y height segments, r.contains p = true) ↔
        isInside segments p.x = true ∧ y ≤ p.y ∧ p.y < y + height)
  | [], _ => by simp [Shape.spanRects]
  | [x], h => absurd h.even (by simp)
  | x :: x' :: rest, h => by
    have ih := exists_spanRects_contains y height p h.tail_pair
    have hlt : x < x' := (pairwise_cons.mp h.increasing).1 x' mem_cons_self
    have hnext : isInside rest p.x = true → x' ≤ p.x := by
      cases rest with
      | nil => intro hin; cases hin
      | cons z rest =>
        intro hin
        have hz := (pairwise_cons.mp (pairwise_cons.mp h.increasing).2).1 z
          mem_cons_self
        exact hz.le.trans (IsSegments.head_le hin)
    rw [Shape.spanRects]
    simp only [mem_cons, exists_eq_or_imp]
    rw [ih, contains_iff, mk4_x, mk4_y, mk4_maxX, mk4_maxY, isInside_pair]
    split_ifs with h1 h2
    · constructor
      · rintro (hp | hp)
        · omega
        · exact hp
      · exact Or.inr
    · constructor
      · rintro (hp | hp)
        · exact ⟨rfl, hp.2.2⟩
        · exact ⟨rfl, hp.2⟩
      · rintro ⟨-, hp⟩
        exact Or.inl (by omega)
    · constructor
      · rintro (hp | hp)
        · omega
        · have := hnext hp.1
          omega
      · rintro ⟨hp, -⟩
        cases hp

/-- Two rectangles without a common point. -/
def Apart (r r' : IntRect) : Prop := ∀ p, r.contains p = true → r'.contains p = false

theorem apart_spanRects {y : ℤ} :
    ∀ {segments : List ℤ}, IsSegments segments → (Shape.spanRects y height segments).Pairwise Apart
  | [], _ => List.Pairwise.nil
  | [_], _ => List.Pairwise.nil
  | x :: x' :: rest, h => by
    refine pairwise_cons.mpr ⟨fun r hr p hp => ?_, apart_spanRects h.tail_pair⟩
    rw [contains_iff, mk4_maxX] at hp
    by_contra hc
    have hin := ((exists_spanRects_contains y height p h.tail_pair).mp
      ⟨r, hr, by simpa using hc⟩).1
    cases rest with
    | nil => cases hin
    | cons z rest =>
      have hz := (pairwise_cons.mp (pairwise_cons.mp h.increasing).2).1 z
        mem_cons_self
      have hle := IsSegments.head_le hin
      omega

/-- The rectangles of the rows cover the points of the rows. -/
theorem exists_rowRects_contains :
    ∀ {y : ℤ} {segments : List ℤ} {rows : List Row}, Sorted ((y, segments) :: rows) →
      (∀ row ∈ (y, segments) :: rows, IsSegments row.2) → limit segments rows = [] →
      ((∃ r ∈ rowRects ((y, segments) :: rows), r.contains p = true) ↔
        y ≤ p.y ∧ isInside (valueAt segments rows p.y) p.x = true)
  | y, segments, [], _, _, hend => by
    have hnil : segments = [] := hend
    subst hnil
    simp [rowRects]
  | y, segments, (y', segments') :: rows, hsorted, hseg, hend => by
    have hlt : y < y' := (sorted_cons.mp hsorted).1 _ mem_cons_self
    have ih := exists_rowRects_contains (p := p) (sorted_cons.mp hsorted).2
      (fun row hrow => hseg row (mem_cons_of_mem _ hrow)) hend
    have hspan := exists_spanRects_contains y (y' - y) p
      (hseg _ mem_cons_self)
    rw [rowRects]
    simp only [mem_append, or_and_right, exists_or]
    rw [hspan, ih]
    rcases le_or_gt y' p.y with hy | hy
    · rw [valueAt_cons_of_le hy]
      constructor
      · rintro (hp | hp)
        · omega
        · exact ⟨by omega, hp.2⟩
      · rintro ⟨-, hp⟩
        exact Or.inr ⟨hy, hp⟩
    · rw [valueAt_cons_of_lt hy]
      constructor
      · rintro (hp | hp)
        · exact ⟨hp.2.1, hp.1⟩
        · omega
      · rintro ⟨hp, hin⟩
        exact Or.inl ⟨hin, hp, by omega⟩

theorem apart_rowRects :
    ∀ {y : ℤ} {segments : List ℤ} {rows : List Row}, Sorted ((y, segments) :: rows) →
      (∀ row ∈ (y, segments) :: rows, IsSegments row.2) → limit segments rows = [] →
      (rowRects ((y, segments) :: rows)).Pairwise Apart
  | _, _, [], _, _, _ => List.Pairwise.nil
  | y, segments, (y', segments') :: rows, hsorted, hseg, hend => by
    have hseg' : ∀ row ∈ (y', segments') :: rows, IsSegments row.2 := fun row hrow =>
      hseg row (mem_cons_of_mem _ hrow)
    have hrest := (sorted_cons.mp hsorted).2
    refine pairwise_append.mpr ⟨apart_spanRects (hseg _ mem_cons_self),
      apart_rowRects hrest hseg' hend, fun r hr r' hr' p hp => ?_⟩
    -- the rectangles of a row end where those of the next rows begin
    by_contra hc
    have hspan := (exists_spanRects_contains y (y' - y) p (hseg _ mem_cons_self)).mp
      ⟨r, hr, hp⟩
    have hlater := (exists_rowRects_contains hrest hseg' hend).mp ⟨r', hr', by simpa using hc⟩
    omega

/-! ## The canonical form -/

/-- The form of a region: spans that go down, differ from the one before and end with an empty
one, segments that increase and are even in number, and rectangles that are disjoint and cover
the points. -/
structure CanonicalForm (a : Region) : Prop where
  increasing : a.shape.spans.Pairwise fun span span' => span.y < span'.y
  changes : a.shape.rows.IsChain fun row row' => row.2 ≠ row'.2
  segments : ∀ row ∈ a.shape.rows, IsSegments row.2
  ends : ∀ row ∈ a.shape.rows.getLast?, row.2 = []
  rects_apart : a.rects.Pairwise Apart
  rects_cover : ∀ p, p ∈ a.points ↔ ∃ r ∈ a.rects, r.contains p = true

theorem positions_rowSpans : ∀ (n : ℕ) (rows : List Row),
    (rowSpans n rows).map Span.y = rows.map Prod.fst
  | _, [] => rfl
  | n, (y, segments) :: rows => by
    rw [rowSpans_cons, map_cons, positions_rowSpans _ rows, map_cons]

theorem isChain_of_canonical :
    ∀ {d : List ℤ} {rows : List Row}, Canonical d rows → rows.IsChain fun row row' => row.2 ≠ row'.2
  | _, [], _ => List.IsChain.nil
  | _, [_], _ => List.IsChain.singleton _
  | _, (_, _) :: (_, _) :: _, h =>
    isChain_cons_cons.mpr ⟨h.2.2.1.symm, isChain_of_canonical h.2.2⟩

theorem Keeps.canonicalForm (h : Keeps a rows) :
    CanonicalForm a := by
  have hrows : a.shape.rows = rows := by rw [h.shape, h.canonical.rows_ofRows]
  have hrects : a.rects = rowRects rows := by
    have hs : (Shape.ofRows rows).segments = [] ++ rowSegments rows := (nil_append _).symm
    rw [Region.rects, h.shape]
    exact rectsLoop_rowSpans hs h.canonical.ends
  have hsorted := h.canonical.changes.sorted
  have hends := h.canonical.ends
  constructor
  · have hmap : ((rowSpans 0 rows).map Span.y).Pairwise (· < ·) := by
      rw [positions_rowSpans]
      exact pairwise_map.mpr hsorted
    rw [h.shape]
    exact pairwise_map.mp hmap
  · rw [hrows]
    exact isChain_of_canonical h.canonical.changes
  · rw [hrows]
    exact h.canonical.segments
  · rintro ⟨y, segments⟩ hrow
    rw [hrows] at hrow
    obtain ⟨init, rfl⟩ := List.getLast?_eq_some_iff.mp hrow
    rwa [limit_append_singleton] at hends
  · rw [hrects]
    cases rows with
    | nil => exact List.Pairwise.nil
    | cons row rows => exact apart_rowRects hsorted h.canonical.segments hends
  · intro p
    rw [hrects, h.covers_iff]
    cases rows with
    | nil => simp [rowRects, covers]
    | cons row rows =>
      rw [exists_rowRects_contains hsorted h.canonical.segments hends, covers]
      rcases le_or_gt row.1 p.y with hy | hy
      · rw [valueAt_cons_of_le hy]
        exact (and_iff_right hy).symm
      · rw [valueAt_cons_of_lt hy]
        constructor
        · intro hp
          cases hp
        · omega

/-! ## Comparing regions -/

section Compare

variable {a b : Region} {rows rows' : List Row}

section

variable (ha : Keeps a rows) (hb : Keeps b rows')
include ha hb

/-- The shape is determined by the points. -/
theorem Keeps.shape_eq_iff : a.shape = b.shape ↔ a.points = b.points := by
  constructor
  · intro heq
    rw [Region.points, Region.points, heq]
  · intro heq
    have hcov : ∀ p, covers rows p = covers rows' p := fun p => by
      rw [Bool.eq_iff_iff, ← ha.covers_iff, ← hb.covers_iff, heq]
    rw [ha.shape, hb.shape, ha.canonical.unique hb.canonical hcov]

/-- So are the bounds, unless there are no points. -/
theorem Keeps.bounds_eq (hne : a.isEmpty = false)
    (heq : a.points = b.points) : a.bounds = b.bounds := by
  have hna : rows ≠ [] := fun hnil => by
    rw [ha.isEmpty_iff.mpr hnil] at hne
    cases hne
  have hnb : rows' ≠ [] := fun hnil => by
    have hempty := hb.isEmpty_iff_points.mp (hb.isEmpty_iff.mpr hnil)
    rw [← heq, ← ha.isEmpty_iff_points, hne] at hempty
    cases hempty
  have hhull := ha.hull hna
  rw [← ha.points, heq, hb.points] at hhull
  exact hhull.unique (hb.hull hnb)

theorem Keeps.eq_iff_of_not_isEmpty (hne : a.isEmpty = false) : a = b ↔ a.points = b.points := by
  constructor
  · rintro rfl
    rfl
  · intro heq
    have hbounds := ha.bounds_eq hb hne heq
    have hshape := (ha.shape_eq_iff hb).mpr heq
    obtain ⟨_, _⟩ := a
    cases hbounds
    cases hshape
    rfl

/-- Empty regions differ at most in their bounds. -/
theorem Keeps.eq_iff_of_isEmpty (hea : a.isEmpty = true)
    (heb : b.isEmpty = true) : a = b ↔ a.bounds = b.bounds := by
  have hshape : a.shape = b.shape := by
    rw [ha.shape, hb.shape, ha.isEmpty_iff.mp hea, hb.isEmpty_iff.mp heb]
  constructor
  · rintro rfl
    rfl
  · intro hbounds
    obtain ⟨_, _⟩ := a
    cases hbounds
    cases hshape
    rfl

end

/-- Two regions are compared and tested for inclusion by their points. -/
structure DecidesPoints (a b : Region) : Prop where
  eq_iff : (a == b) = true ↔ a.points = b.points
  contains_iff : a.contains b = true ↔ b.points ⊆ a.points

/-- What decides `contains` on a region that is not empty. -/
theorem Keeps.contains_iff_of_not_isEmpty (ha : Keeps a rows) (hb : Keeps b rows')
    (hne : b.isEmpty = false) : a.contains b = true ↔ b.points ⊆ a.points := by
  obtain ⟨_, hi, hip⟩ := hb.intersect ha
  rw [Region.contains, beq_iff_eq, eq_comm, hb.eq_iff_of_not_isEmpty hi hne, hip]
  exact Set.left_eq_inter

/-- What `contains` makes of an empty region. -/
theorem Keeps.contains_of_isEmpty (a : Region) (hb : Keeps b rows')
    (hempty : b.isEmpty = true) : a.contains b = true ↔ b.bounds = zero := by
  have hmeet : b.bounds.intersects a.bounds = false := by
    cases h : b.bounds.intersects a.bounds with
    | false => rfl
    | true =>
      have hbe := (Keeps.not_isEmpty_of_intersects h).1
      rw [Region.isEmpty, hbe] at hempty
      cases hempty
  have hnone : b.intersect a = ⟨zero, Shape.empty⟩ := by
    rw [Region.intersect, hmeet]
    rfl
  rw [Region.contains, hnone, beq_iff_eq, Keeps.emptyRegion.eq_iff_of_isEmpty hb rfl hempty]
  exact eq_comm

/-- `contains` on a point looks for the rectangle of the point. -/
theorem Keeps.containsPoint_iff (ha : Keeps a rows)
    (hfit : (Region.ofRect ⟨p, ⟨1, 1⟩⟩).Fits) : a.containsPoint p = true ↔ p ∈ a.points := by
  have hne : (⟨p, ⟨1, 1⟩⟩ : IntRect).isEmpty = false := rfl
  obtain ⟨hp, hpoints⟩ := Keeps.ofRect hne hfit
  have hone : (Region.ofRect ⟨p, ⟨1, 1⟩⟩).points = {p} := by
    rw [hpoints]
    ext ⟨x, y⟩
    rw [Set.mem_ofPred_eq, IntRect.contains_iff, Set.mem_singleton_iff, IntPoint.mk.injEq]
    simp only [IntRect.x, IntRect.y, IntRect.maxX, IntRect.maxY]
    omega
  rw [Region.containsPoint, ha.contains_iff_of_not_isEmpty hp hne, hone, Set.singleton_subset_iff]

end Compare

/-- The region is in canonical form, and finds its points. -/
structure IsCanonical (a : Region) : Prop where
  form : CanonicalForm a
  contains_point : ∀ p, (Region.ofRect ⟨p, ⟨1, 1⟩⟩).Fits → (a.containsPoint p = true ↔ p ∈ a.points)

theorem Region.Built.isCanonical (ha : a.Built) : IsCanonical a := by
  obtain ⟨rows, hka⟩ := ha.keeps
  constructor
  · exact hka.canonicalForm
  · exact fun p hfit => hka.containsPoint_iff hfit

/-- Every built region is canonical, and two of them are compared and tested for inclusion by
their points exactly when empty ones have the bounds they were made with. -/
theorem decidesPoints_iff {a b : Region} (ha : a.Built) (hb : b.Built) :
    (IsCanonical a ∧ DecidesPoints a b) ↔ (b.isEmpty = true → b.bounds = zero ∧
        (a.isEmpty = true → a.bounds = zero)) := by
  obtain ⟨rows, hka⟩ := ha.keeps
  obtain ⟨rows', hkb⟩ := hb.keeps
  constructor
  · rintro ⟨-, heq, hcontains⟩ heb
    have hnone := hkb.isEmpty_iff_points.mp heb
    have hzero : b.bounds = zero := by
      rw [← hkb.contains_of_isEmpty a heb, hcontains, hnone]
      exact Set.empty_subset _
    refine ⟨hzero, fun hea => ?_⟩
    rw [beq_iff_eq, hka.eq_iff_of_isEmpty hkb hea heb, hzero] at heq
    exact heq.mpr ((hka.isEmpty_iff_points.mp hea).trans hnone.symm)
  · intro h
    refine ⟨ha.isCanonical, ?_, ?_⟩
    · rw [beq_iff_eq]
      cases hea : a.isEmpty with
      | false => exact hka.eq_iff_of_not_isEmpty hkb hea
      | true =>
        cases heb : b.isEmpty with
        | false =>
          rw [eq_comm, hkb.eq_iff_of_not_isEmpty hka heb]
          exact eq_comm
        | true =>
          obtain ⟨hb0, ha0⟩ := h heb
          rw [hka.eq_iff_of_isEmpty hkb hea heb, hb0, ha0 hea, hka.isEmpty_iff_points.mp hea,
            hkb.isEmpty_iff_points.mp heb]
          exact iff_of_true rfl rfl
    · cases heb : b.isEmpty with
      | false => exact hka.contains_iff_of_not_isEmpty hkb heb
      | true =>
        rw [hkb.contains_of_isEmpty a heb, hkb.isEmpty_iff_points.mp heb]
        exact iff_of_true (h heb).1 (Set.empty_subset _)

theorem decidesPoints_points : (IsCanonical onePoint ∧ DecidesPoints onePoint otherPoint) ↔
      (otherPoint.isEmpty = true → otherPoint.bounds = zero ∧
        (onePoint.isEmpty = true → onePoint.bounds = zero)) :=
  decidesPoints_iff built_onePoint built_otherPoint

/-- What two disjoint regions have in common, moved. -/
def movedCommon : Region := (onePoint.intersect otherPoint).translate ⟨3, 3⟩

theorem built_movedCommon : movedCommon.Built := by
  refine (built_onePoint.intersect built_otherPoint).translate ⟨3, 3⟩ ?_
  constructor <;> decide +kernel

/-- An empty region that was moved is contained in no region, and differs from the empty region
it was. -/
theorem moved_empty_not_contained :
    onePoint.Built ∧ movedCommon.Built ∧ movedCommon.isEmpty = true ∧
      (movedCommon == onePoint.intersect otherPoint) = false ∧
      ¬DecidesPoints onePoint movedCommon := by
  refine ⟨built_onePoint, built_movedCommon, by decide +kernel, by decide +kernel, fun h => ?_⟩
  have hno : onePoint.contains movedCommon = false := by decide +kernel
  have hsub : movedCommon.points ⊆ onePoint.points := by
    intro p hp
    cases hp
  rw [← h.contains_iff, hno] at hsub
  cases hsub

end WebKit.Graphics
