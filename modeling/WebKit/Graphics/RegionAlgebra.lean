import WebKit.Graphics.RegionBounds

/-!
# The operations as set algebra

Every region built by the operations keeps canonical rows and the smallest rectangle around them
(`Keeps`), empty regions included.  `unite`, `intersect` and `translate` then act on the points as
their names say.  So does `subtract`, except that a region minus an empty one is empty: its early
exit takes an empty second shape for an empty result (`pointwiseAlgebra_iff`).
-/

namespace WebKit.Graphics

open Library.StepFunction
open Shape (Operation unionOperation intersectOperation subtractOperation)
open List IntRect

/-! ## The three operations -/

namespace Shape.Operation

theorem regular_union : unionOperation.Regular := ⟨rfl, rfl, rfl, rfl⟩

theorem regular_intersect : intersectOperation.Regular := ⟨rfl, rfl, rfl, rfl⟩

theorem regular_subtract : subtractOperation.Regular := ⟨rfl, rfl, rfl, rfl⟩

theorem member_union (b b' : Bool) : unionOperation.member b b' = (b || b') := by
  cases b <;> cases b' <;> rfl

theorem member_intersect (b b' : Bool) : intersectOperation.member b b' = (b && b') := by
  cases b <;> cases b' <;> rfl

theorem member_subtract (b b' : Bool) : subtractOperation.member b b' = (b && !b') := by
  cases b <;> cases b' <;> rfl

end Shape.Operation

/-! ## Built regions -/

/-- All coordinates of the region are in the range. -/
structure Region.Fits (a : Region) : Prop where
  bounds : InRange a.bounds.x ∧ InRange a.bounds.y ∧ InRange a.bounds.maxX ∧ InRange a.bounds.maxY
  segments : ∀ x ∈ a.shape.segments, InRange x
  spans : ∀ span ∈ a.shape.spans, InRange span.y

/-- The regions built from non-empty rectangles, with coordinates in the range. -/
inductive Region.Built : Region → Prop
  | ofRect (r : IntRect) : r.isEmpty = false → (ofRect r).Fits → Built (ofRect r)
  | unite {a b : Region} : Built a → Built b → Built (a.unite b)
  | intersect {a b : Region} : Built a → Built b → Built (a.intersect b)
  | subtract {a b : Region} : Built a → Built b → Built (a.subtract b)
  | translate {a : Region} (offset : IntSize) : Built a → (a.translate offset).Fits →
      Built (a.translate offset)

/-- What every built region keeps: its rows, and the smallest rectangle around them. -/
structure Keeps (a : Region) (rows : List Row) : Prop where
  canonical : CanonicalRows rows
  shape : a.shape = Shape.ofRows rows
  range : ∀ x ∈ rowSegments rows, InRange x
  empty : rows = [] → a.bounds.isEmpty = true
  hull : rows ≠ [] → Hull a.bounds {p | covers rows p = true}

namespace Keeps

variable {a b : Region} {rows rows' : List Row}

variable (h : Keeps a rows)

include h

theorem points : a.points = {p | covers rows p = true} := by
  rw [Region.points, h.shape, h.canonical.rows_ofRows]

theorem isEmpty_iff : a.isEmpty = true ↔ rows = [] := by
  constructor
  · intro hempty
    by_contra hne
    rw [Region.isEmpty, (h.hull hne).isEmpty] at hempty
    cases hempty
  · exact h.empty

/-- An empty region has no points, and the others have some. -/
theorem isEmpty_iff_points : a.isEmpty = true ↔ a.points = ∅ := by
  rw [h.isEmpty_iff, h.points]
  constructor
  · rintro rfl
    exact Set.eq_empty_of_forall_notMem fun p hp => by cases hp
  · intro hnone
    by_contra hne
    obtain ⟨p, hp, -⟩ := (h.hull hne).left
    rw [hnone] at hp
    exact hp

theorem smallest : IsSmallestRect a.bounds a.points := by
  rw [h.points]
  by_cases hne : rows = []
  · subst hne
    have hempty := IntRect.isEmpty_iff.mp (h.empty rfl)
    constructor
    · rintro p hp
      cases hp
    · intro r' _ p hp
      have hp := contains_iff.mp hp
      omega
  · exact (h.hull hne).smallest

omit h

/-- A shape with the bounds read off it. -/
theorem ofRows (h : CanonicalRows rows) (hrange : ∀ x ∈ rowSegments rows, InRange x) :
    Keeps ⟨(Shape.ofRows rows).bounds, Shape.ofRows rows⟩ rows := by
  constructor
  · exact h
  · rfl
  · exact hrange
  · rintro rfl
    rfl
  · exact fun hne => hull_bounds h hne hrange

/-- The rows of an operation that does not take its early exit. -/
theorem shapeOperation (hop : op.Regular) (ha : Keeps a rows)
    (hb : Keeps b rows') (hna : rows ≠ []) (hnb : rows' ≠ [])
    (hsimple : ∀ row rest row' rest', op.trySimpleOperation (Shape.ofRows (row :: rest))
      (Shape.ofRows (row' :: rest')) = none) :
    Shape.shapeOperation op a.shape b.shape =
      Shape.ofRows (merge (Shape.mergeSegments op) [] [] [] rows rows') := by
  obtain ⟨row, rest, rfl⟩ := exists_cons_of_ne_nil hna
  obtain ⟨row', rest', rfl⟩ := exists_cons_of_ne_nil hnb
  rw [Shape.shapeOperation, ha.shape, hb.shape, hsimple]
  exact spansLoop_ofRows hop ha.canonical hb.canonical

theorem range_merge (hop : op.Regular) (ha : Keeps a rows) (hb : Keeps b rows')
    (x : ℤ) (hx : x ∈ rowSegments (merge (Shape.mergeSegments op) [] [] [] rows rows')) :
    InRange x := by
  rcases mem_segments_merge hop ha.canonical hb.canonical hx with hx | hx
  · exact ha.range x hx
  · exact hb.range x hx

theorem covers_iff (h : Keeps a rows) (p : IntPoint) : p ∈ a.points ↔ covers rows p = true := by
  rw [h.points]
  rfl

/-- A region with the shape of an operation, and the bounds read off it. -/
theorem ofOperation (hop : op.Regular) (ha : Keeps a rows) (hb : Keeps b rows')
    (hna : rows ≠ []) (hnb : rows' ≠ [])
    (hsimple : ∀ row rest row' rest', op.trySimpleOperation (Shape.ofRows (row :: rest))
      (Shape.ofRows (row' :: rest')) = none)
    (hr : r = ⟨(Shape.shapeOperation op a.shape b.shape).bounds,
      Shape.shapeOperation op a.shape b.shape⟩) :
    ∃ rows'', Keeps r rows'' ∧
      ∀ p, p ∈ r.points ↔ op.member (covers rows p) (covers rows' p) = true := by
  have hcanonical := canonicalRows_merge hop ha.canonical hb.canonical
  rw [shapeOperation hop ha hb hna hnb hsimple] at hr
  refine ⟨_, hr ▸ Keeps.ofRows hcanonical (range_merge hop ha hb), fun p => ?_⟩
  rw [hr, hcanonical.points_ofRows, Set.mem_ofPred_eq, covers_merge hop ha.canonical hb.canonical]

/-! ### Union -/

/-- The union of two regions: an empty one leaves the other as it is. -/
theorem unite (ha : Keeps a rows) (hb : Keeps b rows') :
    ∃ rows'', Keeps (a.unite b) rows'' ∧ (a.unite b).points = a.points ∪ b.points := by
  by_cases hna : rows = []
  · subst hna
    have hshape : (a.unite b).shape = Shape.ofRows rows' := by
      rw [Region.unite, ha.shape, hb.shape]
      rfl
    have hpoints : (a.unite b).points = a.points ∪ b.points := by
      rw [ha.isEmpty_iff_points.mp (ha.isEmpty_iff.mpr rfl), Set.empty_union, hb.points,
        Region.points, hshape, hb.canonical.rows_ofRows]
    refine ⟨rows', ⟨hb.canonical, hshape, hb.range, fun hnb => ?_, fun hnb => ?_⟩, hpoints⟩
    · rw [Region.unite, IntRect.unite, if_pos (hb.empty hnb)]
      exact ha.empty rfl
    · rw [Region.unite, IntRect.unite, (hb.hull hnb).isEmpty, ha.empty rfl]
      exact hb.hull hnb
  · by_cases hnb : rows' = []
    · subst hnb
      have hbounds : (a.unite b).bounds = a.bounds := by
        rw [Region.unite, IntRect.unite, if_pos (hb.empty rfl)]
      have hshape : (a.unite b).shape = Shape.ofRows rows := by
        obtain ⟨row, rest, rfl⟩ := exists_cons_of_ne_nil hna
        rw [Region.unite, ha.shape, hb.shape]
        rfl
      have hpoints : (a.unite b).points = a.points ∪ b.points := by
        rw [hb.isEmpty_iff_points.mp (hb.isEmpty_iff.mpr rfl), Set.union_empty, ha.points,
          Region.points, hshape, ha.canonical.rows_ofRows]
      refine ⟨rows, ⟨ha.canonical, hshape, ha.range, fun hnil => absurd hnil hna, fun _ => ?_⟩,
        hpoints⟩
      rw [hbounds]
      exact ha.hull hna
    · have hop := Operation.regular_union
      have hshape : (a.unite b).shape = Shape.ofRows
          (merge (Shape.mergeSegments unionOperation) [] [] [] rows rows') :=
        shapeOperation hop ha hb hna hnb fun _ _ _ _ => rfl
      have hcanonical := canonicalRows_merge hop ha.canonical hb.canonical
      have hcovers : {p | covers (merge (Shape.mergeSegments unionOperation) [] [] [] rows rows')
          p = true} = {p | covers rows p = true} ∪ {p | covers rows' p = true} := by
        ext p
        rw [Set.mem_ofPred_eq, covers_merge hop ha.canonical hb.canonical, Operation.member_union,
          Bool.or_eq_true]
        rfl
      have hhull := (ha.hull hna).unite (hb.hull hnb)
      refine ⟨_, ⟨hcanonical, hshape, range_merge hop ha hb, fun hnil => ?_, fun _ => ?_⟩, ?_⟩
      · rw [← hcovers, hnil] at hhull
        obtain ⟨p, hp, -⟩ := hhull.left
        cases hp
      · rw [hcovers]
        exact hhull
      · rw [Region.points, hshape, hcanonical.rows_ofRows, hcovers, ha.points, hb.points]

/-! ### Intersection -/

/-- Rectangles with a common point intersect. -/
theorem intersects_of_contains {r : IntRect} (h : r.contains p = true)
    (h' : r'.contains p = true) : r.intersects r' = true := by
  rw [contains_iff] at h h'
  have hr : r.isEmpty = false := isEmpty_false_iff.mpr (by omega)
  have hr' : r'.isEmpty = false := isEmpty_false_iff.mpr (by omega)
  simp only [intersects, hr, hr', Bool.not_false, Bool.true_and, Bool.and_eq_true,
    decide_eq_true_eq]
  omega

theorem not_isEmpty_of_intersects {r : IntRect} (h : r.intersects r' = true) :
    r.isEmpty = false ∧ r'.isEmpty = false := by
  simp only [intersects, Bool.and_eq_true, Bool.not_eq_true'] at h
  exact ⟨h.1.1.1.1.1, h.1.1.1.1.2⟩

theorem contains_of_covers (h : Keeps a rows) (hp : p ∈ a.points) :
    a.bounds.contains p = true := h.smallest.contains p hp

/-- The intersection of two regions, empty when their bounds do not meet. -/
theorem intersect (ha : Keeps a rows) (hb : Keeps b rows') :
    ∃ rows'', Keeps (a.intersect b) rows'' ∧ (a.intersect b).points = a.points ∩ b.points := by
  cases hmeet : a.bounds.intersects b.bounds with
  | false =>
    have heq : a.intersect b = ⟨zero, Shape.empty⟩ := by
      rw [Region.intersect, hmeet]
      rfl
    refine ⟨[], ⟨CanonicalRows.nil, by rw [heq]; rfl, by simp, fun _ => by rw [heq]; rfl,
      fun h => absurd rfl h⟩, ?_⟩
    ext p
    constructor
    · intro hp
      rw [heq] at hp
      cases hp
    · rintro ⟨hp, hp'⟩
      rw [intersects_of_contains (ha.contains_of_covers hp) (hb.contains_of_covers hp')] at hmeet
      cases hmeet
  | true =>
    obtain ⟨hea, heb⟩ := not_isEmpty_of_intersects hmeet
    have hna : rows ≠ [] := fun hnil => by
      rw [ha.empty hnil] at hea
      cases hea
    have hnb : rows' ≠ [] := fun hnil => by
      rw [hb.empty hnil] at heb
      cases heb
    have heq : a.intersect b = ⟨(a.shape.intersectShapes b.shape).bounds,
        a.shape.intersectShapes b.shape⟩ := by
      rw [Region.intersect, hmeet]
      rfl
    obtain ⟨rows'', hkeeps, hpoints⟩ := ofOperation Operation.regular_intersect ha hb hna hnb
      (fun _ _ _ _ => rfl) heq
    refine ⟨rows'', hkeeps, Set.ext fun p => ?_⟩
    rw [hpoints, Operation.member_intersect, Bool.and_eq_true, ← ha.covers_iff, ← hb.covers_iff]
    rfl

/-! ### Difference -/

/-- The difference of two regions that are not empty. -/
theorem subtract (ha : Keeps a rows) (hb : Keeps b rows') (hna : rows ≠ []) (hnb : rows' ≠ []) :
    ∃ rows'', Keeps (a.subtract b) rows'' ∧ (a.subtract b).points = a.points \ b.points := by
  obtain ⟨rows'', hkeeps, hpoints⟩ := ofOperation Operation.regular_subtract ha hb hna hnb
    (fun _ _ _ _ => rfl) (r := a.subtract b) rfl
  refine ⟨rows'', hkeeps, Set.ext fun p => ?_⟩
  rw [hpoints, Operation.member_subtract, Bool.and_eq_true, ← ha.covers_iff, Bool.not_eq_true',
    ← Bool.not_eq_true, ← hb.covers_iff]
  rfl

/-- With an empty region on either side, `subtract` gives the empty region. -/
theorem subtract_of_empty (ha : Keeps a rows) (hb : Keeps b rows')
    (hempty : rows = [] ∨ rows' = []) : a.subtract b = ⟨zero, Shape.empty⟩ := by
  have hsimple : subtractOperation.trySimpleOperation a.shape b.shape = some Shape.empty := by
    rw [ha.shape, hb.shape]
    change (if (Shape.ofRows rows).isEmpty || (Shape.ofRows rows').isEmpty then _ else _) = _
    rw [ofRows_isEmpty, ofRows_isEmpty]
    rcases hempty with rfl | rfl
    · rfl
    · exact if_pos (by simp)
  rw [Region.subtract, Shape.subtractShapes, Shape.shapeOperation, hsimple]
  rfl

theorem emptyRegion : Keeps ⟨zero, Shape.empty⟩ [] :=
  ⟨CanonicalRows.nil, rfl, by simp, fun _ => rfl, fun h => absurd rfl h⟩

/-! ### Translation -/

/-- The rows moved by an offset. -/
def translateRows (rows : List Row) (offset : IntSize) : List Row :=
  rows.map fun row => (row.1 + offset.height, row.2.map (· + offset.width))

theorem rowSegments_translate (offset : IntSize) : ∀ rows : List Row,
    rowSegments (translateRows rows offset) = (rowSegments rows).map (· + offset.width)
  | [] => rfl
  | row :: rows => by
    rw [rowSegments_cons, map_append, ← rowSegments_translate offset rows]
    rfl

theorem rowSpans_translate (offset : IntSize) : ∀ (n : ℕ) (rows : List Row),
    rowSpans n (translateRows rows offset) =
      (rowSpans n rows).map fun span => { span with y := span.y + offset.height }
  | _, [] => rfl
  | n, (y, segments) :: rows => by
    have hrest := rowSpans_translate offset (n + segments.length) rows
    rw [rowSpans_cons, map_cons, ← hrest, translateRows, map_cons, rowSpans_cons, length_map]
    rfl

theorem isInside_translate (segments : List ℤ) (dx x : ℤ) :
    isInside (segments.map (· + dx)) x = isInside segments (x - dx) := by
  have hmap := valueAt_map_positions (g := (· + dx)) (f := id) (d := false) (x := x - dx)
    (fun p x => Int.add_le_add_iff_right dx) (toggles false segments)
  rw [isInside, toggles_map, ← Int.sub_add_cancel x dx]
  rw [Int.sub_add_cancel x dx] at hmap ⊢
  exact hmap

theorem isSegments_translate (h : IsSegments segments) (dx : ℤ) :
    IsSegments (segments.map (· + dx)) := by
  constructor
  · exact pairwise_map.mpr (h.increasing.imp fun hlt => Int.add_lt_add_right hlt dx)
  · rw [length_map, h.even]

theorem map_add_injective (dx : ℤ) : Function.Injective (List.map (· + dx) : List ℤ → List ℤ) :=
  map_injective_iff.mpr fun _ _ h => by simpa using h

theorem canonicalRows_translate (h : CanonicalRows rows) (offset : IntSize) :
    CanonicalRows (translateRows rows offset) := by
  constructor
  · exact h.changes.map_positions (g := (· + offset.height))
      (fun p x => Int.add_lt_add_iff_right offset.height) (map_add_injective offset.width)
  · have hlim := limit_map (g := (· + offset.height)) (f := List.map (· + offset.width))
      (d := []) rows
    rw [h.ends] at hlim
    exact hlim
  · intro row hrow
    obtain ⟨row', hrow', rfl⟩ := mem_map.mp hrow
    exact isSegments_translate (h.segments row' hrow') offset.width

/-- Moving the rows moves the points they cover. -/
theorem covers_translate (rows : List Row) (offset : IntSize) (p : IntPoint) :
    covers (translateRows rows offset) p =
      covers rows ⟨p.x - offset.width, p.y - offset.height⟩ := by
  have hmap := valueAt_map_positions (g := (· + offset.height)) (f := List.map (· + offset.width))
    (d := []) (x := p.y - offset.height) (fun p x => Int.add_le_add_iff_right offset.height) rows
  have hy : p.y - offset.height + offset.height = p.y := Int.sub_add_cancel _ _
  rw [hy] at hmap
  rw [covers, covers, ← isInside_translate, ← hmap]
  rfl

theorem hull_move {points : Set IntPoint} (h : Hull r points) (offset : IntSize) :
    Hull (r.move offset) {p | ⟨p.x - offset.width, p.y - offset.height⟩ ∈ points} := by
  -- a point of the set, moved
  have moved : ∀ p ∈ points, (⟨p.x + offset.width, p.y + offset.height⟩ : IntPoint) ∈
      {p : IntPoint | ⟨p.x - offset.width, p.y - offset.height⟩ ∈ points} := by
    simpa using hp
  have hx : (r.move offset).x = r.x + offset.width := rfl
  have hy : (r.move offset).y = r.y + offset.height := rfl
  have hX : (r.move offset).maxX = r.maxX + offset.width := by
    exact Int.add_right_comm _ _ _
  have hY : (r.move offset).maxY = r.maxY + offset.height := by
    exact Int.add_right_comm _ _ _
  constructor
  · intro p hp
    have hc := contains_iff.mp (h.contains _ hp)
    rw [contains_iff]
    dsimp only at hc
    omega
  · obtain ⟨p, hp, heq⟩ := h.left
    exact ⟨_, moved p hp, by rw [hx, ← heq]⟩
  · obtain ⟨p, hp, heq⟩ := h.top
    exact ⟨_, moved p hp, by rw [hy, ← heq]⟩
  · obtain ⟨p, hp, heq⟩ := h.right
    exact ⟨_, moved p hp, by rw [hX, ← heq]; exact Int.add_right_comm _ _ _⟩
  · obtain ⟨p, hp, heq⟩ := h.bottom
    exact ⟨_, moved p hp, by rw [hY, ← heq]; exact Int.add_right_comm _ _ _⟩

theorem translate (h : Keeps a rows) (offset : IntSize) (hfit : (a.translate offset).Fits) :
    Keeps (a.translate offset) (translateRows rows offset) ∧ (a.translate offset).points =
      {p | ⟨p.x - offset.width, p.y - offset.height⟩ ∈ a.points} := by
  have hcanonical := canonicalRows_translate h.canonical offset
  have hshape : (a.translate offset).shape = Shape.ofRows (translateRows rows offset) := by
    rw [Region.translate, h.shape, Shape.ofRows, Shape.ofRows, rowSegments_translate,
      rowSpans_translate]
    rfl
  have hcovers : {p | covers (translateRows rows offset) p = true} =
      {p | ⟨p.x - offset.width, p.y - offset.height⟩ ∈ {p | covers rows p = true}} := by
    ext p
    rw [Set.mem_ofPred_eq, covers_translate]
    rfl
  refine ⟨⟨hcanonical, hshape, fun x hx => ?_, fun hnil => ?_, fun hne => ?_⟩, ?_⟩
  · refine hfit.segments x ?_
    rw [hshape]
    exact hx
  · exact h.empty (map_eq_nil_iff.mp hnil)
  · rw [hcovers]
    exact hull_move (h.hull fun hnil => hne (by rw [hnil]; rfl)) offset
  · rw [Region.points, hshape, hcanonical.rows_ofRows, hcovers, h.points]

/-! ### Rectangles -/

/-- The region of a rectangle that is not empty. -/
theorem ofRect (hr : r.isEmpty = false) (hfit : (Region.ofRect r).Fits) :
    Keeps (Region.ofRect r) [(r.y, [r.x, r.maxX]), (r.maxY, [])] ∧
      (Region.ofRect r).points = {p | r.contains p = true} := by
  rw [isEmpty_false_iff] at hr
  have hcanonical : CanonicalRows [(r.y, [r.x, r.maxX]), (r.maxY, [])] := by
    constructor
    · refine ⟨cons_ne_nil _ _, ?_, (cons_ne_nil _ _).symm, by simp, trivial⟩
      intro e he
      rw [mem_singleton.mp he]
      exact hr.2
    · rfl
    · intro row hrow
      rcases mem_cons.mp hrow with rfl | hrow
      · exact ⟨pairwise_pair.mpr hr.1, by simp⟩
      · rw [mem_singleton.mp hrow]
        exact IsSegments.nil
  have hcovers : {p | covers [(r.y, [r.x, r.maxX]), (r.maxY, [])] p = true} =
      {p | r.contains p = true} := by
    ext p
    rw [Set.mem_ofPred_eq, Set.mem_ofPred_eq, contains_iff]
    have hline : valueAt [] [(r.y, [r.x, r.maxX]), (r.maxY, [])] p.y =
        if r.y ≤ p.y ∧ p.y < r.maxY then [r.x, r.maxX] else [] := by
      simp only [valueAt]
      split_ifs <;> first | rfl | omega
    have hin : isInside [r.x, r.maxX] p.x = decide (r.x ≤ p.x ∧ p.x < r.maxX) := by
      simp only [isInside, toggles, valueAt]
      split_ifs with h1 h2
      · exact (decide_eq_false (by omega)).symm
      · exact (decide_eq_true (by omega)).symm
      · exact (decide_eq_false (by omega)).symm
    rw [covers, hline]
    split_ifs with hy
    · rw [hin, decide_eq_true_eq]
      omega
    · constructor
      · intro h
        cases h
      · omega
  refine ⟨⟨hcanonical, rfl, hfit.segments, fun hnil => absurd hnil (cons_ne_nil _ _),
    fun _ => ?_⟩, ?_⟩
  · rw [hcovers]
    constructor
    · exact fun p hp => hp
    · exact ⟨⟨r.x, r.y⟩, contains_iff.mpr (by dsimp only; omega), rfl⟩
    · exact ⟨⟨r.x, r.y⟩, contains_iff.mpr (by dsimp only; omega), rfl⟩
    · exact ⟨⟨r.maxX - 1, r.y⟩, contains_iff.mpr (by dsimp only; omega), Int.sub_add_cancel _ _⟩
    · exact ⟨⟨r.x, r.maxY - 1⟩, contains_iff.mpr (by dsimp only; omega), Int.sub_add_cancel _ _⟩
  · rw [← hcovers]
    exact hcanonical.points_ofRows r

end Keeps

/-! ## Every built region -/

theorem Region.Built.keeps (ha : a.Built) : ∃ rows, Keeps a rows := by
  induction ha with
  | ofRect r hr hfit => exact ⟨_, (Keeps.ofRect hr hfit).1⟩
  | unite _ _ iha ihb =>
    obtain ⟨rows, ha⟩ := iha
    obtain ⟨rows', hb⟩ := ihb
    obtain ⟨rows'', h, -⟩ := ha.unite hb
    exact ⟨rows'', h⟩
  | intersect _ _ iha ihb =>
    obtain ⟨rows, ha⟩ := iha
    obtain ⟨rows', hb⟩ := ihb
    obtain ⟨rows'', h, -⟩ := ha.intersect hb
    exact ⟨rows'', h⟩
  | subtract _ _ iha ihb =>
    obtain ⟨rows, ha⟩ := iha
    obtain ⟨rows', hb⟩ := ihb
    by_cases hempty : rows = [] ∨ rows' = []
    · rw [ha.subtract_of_empty hb hempty]
      exact ⟨[], Keeps.emptyRegion⟩
    · rw [not_or] at hempty
      obtain ⟨rows'', h, -⟩ := ha.subtract hb hempty.1 hempty.2
      exact ⟨rows'', h⟩
  | translate offset _ hfit iha =>
    obtain ⟨rows, ha⟩ := iha
    exact ⟨_, (ha.translate offset hfit).1⟩

/-- Each operation on the two regions is the operation on their points, and the bounds of each
result are the smallest rectangle around it. -/
structure PointwiseAlgebra (a b : Region) : Prop where
  unite_points : (a.unite b).points = a.points ∪ b.points
  unite_bounds : IsSmallestRect (a.unite b).bounds (a.unite b).points
  intersect_points : (a.intersect b).points = a.points ∩ b.points
  intersect_bounds : IsSmallestRect (a.intersect b).bounds (a.intersect b).points
  subtract_points : (a.subtract b).points = a.points \ b.points
  subtract_bounds : IsSmallestRect (a.subtract b).bounds (a.subtract b).points
  translate_points : ∀ offset, (a.translate offset).Fits → (a.translate offset).points =
    {p | ⟨p.x - offset.width, p.y - offset.height⟩ ∈ a.points}
  translate_bounds : ∀ offset, (a.translate offset).Fits →
    IsSmallestRect (a.translate offset).bounds (a.translate offset).points

/-- The operations are set algebra exactly where no region that has points is diminished by an
empty one. -/
theorem pointwiseAlgebra_iff {a b : Region} (ha : a.Built) (hb : b.Built) :
    PointwiseAlgebra a b ↔ (b.isEmpty = true → a.isEmpty = true) := by
  obtain ⟨rows, hka⟩ := ha.keeps
  obtain ⟨rows', hkb⟩ := hb.keeps
  constructor
  · intro h hempty
    have hsub := h.subtract_points
    have hempty' := hkb.isEmpty_iff_points.mp hempty
    rw [hka.subtract_of_empty hkb (Or.inr (hkb.isEmpty_iff.mp hempty)), hempty',
      Set.diff_empty] at hsub
    rw [hka.isEmpty_iff_points, ← hsub]
    exact Keeps.emptyRegion.isEmpty_iff_points.mp rfl
  · intro h
    obtain ⟨_, hu, hup⟩ := hka.unite hkb
    obtain ⟨_, hi, hip⟩ := hka.intersect hkb
    have hs : ∃ rows'', Keeps (a.subtract b) rows'' ∧ (a.subtract b).points = a.points \ b.points := by
      by_cases hna : rows = []
      · rw [hka.subtract_of_empty hkb (Or.inl hna)]
        refine ⟨[], Keeps.emptyRegion, ?_⟩
        rw [hka.isEmpty_iff_points.mp (hka.isEmpty_iff.mpr hna), Set.empty_diff]
        exact Keeps.emptyRegion.isEmpty_iff_points.mp rfl
      · have hnb : rows' ≠ [] := fun hnil =>
          hna (hka.isEmpty_iff.mp (h (hkb.isEmpty_iff.mpr hnil)))
        exact hka.subtract hkb hna hnb
    obtain ⟨_, hs, hsp⟩ := hs
    exact ⟨hup, hu.smallest, hip, hi.smallest, hsp, hs.smallest,
      fun offset hfit => (hka.translate offset hfit).2,
      fun offset hfit => (hka.translate offset hfit).1.smallest⟩

/-! ### A region minus an empty one -/

/-- One point. -/
def onePoint : Region := Region.ofRect (mk4 0 0 1 1)

/-- Another point. -/
def otherPoint : Region := Region.ofRect (mk4 5 5 1 1)

theorem fits_onePoint : onePoint.Fits := by
  constructor <;> decide

theorem fits_otherPoint : otherPoint.Fits := by
  constructor <;> decide

theorem built_onePoint : onePoint.Built := Region.Built.ofRect _ rfl fits_onePoint

theorem built_otherPoint : otherPoint.Built := Region.Built.ofRect _ rfl fits_otherPoint

theorem pointwiseAlgebra_points :
    PointwiseAlgebra onePoint otherPoint ↔ (otherPoint.isEmpty = true → onePoint.isEmpty = true) :=
  pointwiseAlgebra_iff built_onePoint built_otherPoint

/-- Taking away what two disjoint regions have in common takes away everything. -/
theorem subtract_common_of_disjoint : onePoint.Built ∧ (onePoint.intersect otherPoint).Built ∧
      ¬PointwiseAlgebra onePoint (onePoint.intersect otherPoint) := by
  refine ⟨built_onePoint, built_onePoint.intersect built_otherPoint, fun h => ?_⟩
  have hin : (⟨0, 0⟩ : IntPoint) ∈ onePoint.points \ (onePoint.intersect otherPoint).points := by
    constructor
    · change covers onePoint.shape.rows ⟨0, 0⟩ = true
      decide +kernel
    · change ¬covers (onePoint.intersect otherPoint).shape.rows ⟨0, 0⟩ = true
      decide +kernel
  rw [← h.subtract_points] at hin
  have hout : covers (onePoint.subtract (onePoint.intersect otherPoint)).shape.rows ⟨0, 0⟩ =
      false := by decide +kernel
  exact absurd hin (by rw [Region.points, Set.mem_ofPred_eq, hout]; decide)

end WebKit.Graphics
