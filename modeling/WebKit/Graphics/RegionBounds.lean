import WebKit.Graphics.RegionPoints

/-!
# The bounds of a region

The bounds that the operations keep beside a shape contain every point and have a point at each of
the four edges (`Hull`); such a rectangle is the smallest one (`Hull.smallest`) and the only one
(`Hull.unique`).  `Shape.bounds` reads the first and last segments of every span but the last, also
those of spans without segments, where it reads the neighbouring spans instead;
`boundsLoop_spec` says why that changes nothing.
-/

namespace WebKit.Graphics

open Library.StepFunction
open List IntRect Shape

/-! ## Rectangles around a set of points -/

namespace IntRect

theorem contains_iff {r : IntRect} :
    r.contains p = true ↔ r.x ≤ p.x ∧ p.x < r.maxX ∧ r.y ≤ p.y ∧ p.y < r.maxY := by
  simp only [contains, Bool.and_eq_true, decide_eq_true_eq, and_assoc]

theorem isEmpty_iff {r : IntRect} : r.isEmpty = true ↔ r.maxX ≤ r.x ∨ r.maxY ≤ r.y := by
  simp only [isEmpty, IntSize.isEmpty, maxX, maxY, Bool.or_eq_true, decide_eq_true_eq]
  omega

theorem isEmpty_false_iff {r : IntRect} : r.isEmpty = false ↔ r.x < r.maxX ∧ r.y < r.maxY := by
  rw [← Bool.not_eq_true, isEmpty_iff]
  omega

@[simp] theorem mk4_x (x y w h : ℤ) : (mk4 x y w h).x = x := rfl
@[simp] theorem mk4_y (x y w h : ℤ) : (mk4 x y w h).y = y := rfl
@[simp] theorem mk4_maxX (x y w h : ℤ) : (mk4 x y w h).maxX = x + w := rfl
@[simp] theorem mk4_maxY (x y w h : ℤ) : (mk4 x y w h).maxY = y + h := rfl

/-- A rectangle is given by its edges. -/
theorem ext_edges {r' : IntRect} (hx : r.x = r'.x) (hy : r.y = r'.y) (hX : r.maxX = r'.maxX)
    (hY : r.maxY = r'.maxY) : r = r' := by
  obtain ⟨⟨x, y⟩, ⟨w, h⟩⟩ := r
  obtain ⟨⟨x', y'⟩, ⟨w', h'⟩⟩ := r'
  simp only [IntRect.x, IntRect.y, maxX, maxY] at hx hy hX hY
  subst hx hy
  have hw : w = w' := by omega
  have hh : h = h' := by omega
  rw [hw, hh]

end IntRect

/-- No rectangle around the points is smaller. -/
structure IsSmallestRect (r : IntRect) (points : Set IntPoint) : Prop where
  contains : ∀ p ∈ points, r.contains p = true
  smallest : ∀ r' : IntRect, (∀ p ∈ points, r'.contains p = true) →
    ∀ p, r.contains p = true → r'.contains p = true

/-- A rectangle around the points with one of them at each edge. -/
structure Hull (r : IntRect) (points : Set IntPoint) : Prop where
  contains : ∀ p ∈ points, r.contains p = true
  left : ∃ p ∈ points, p.x = r.x
  top : ∃ p ∈ points, p.y = r.y
  right : ∃ p ∈ points, p.x + 1 = r.maxX
  bottom : ∃ p ∈ points, p.y + 1 = r.maxY

namespace Hull

variable {r r' : IntRect} {points points' : Set IntPoint}

variable (h : Hull r points)

include h

theorem le_of_contains (h' : ∀ p ∈ points, r'.contains p = true) :
    r'.x ≤ r.x ∧ r'.y ≤ r.y ∧ r.maxX ≤ r'.maxX ∧ r.maxY ≤ r'.maxY := by
  obtain ⟨p1, hp1, hl⟩ := h.left
  obtain ⟨p2, hp2, ht⟩ := h.top
  obtain ⟨p3, hp3, hr⟩ := h.right
  obtain ⟨p4, hp4, hb⟩ := h.bottom
  have h1 := contains_iff.mp (h' p1 hp1)
  have h2 := contains_iff.mp (h' p2 hp2)
  have h3 := contains_iff.mp (h' p3 hp3)
  have h4 := contains_iff.mp (h' p4 hp4)
  refine ⟨by omega, by omega, by omega, by omega⟩

theorem smallest : IsSmallestRect r points := by
  constructor
  · exact h.contains
  · intro r' h' p hp
    have hle := h.le_of_contains h'
    rw [contains_iff] at hp ⊢
    omega

/-- There is one such rectangle. -/
theorem unique (h' : Hull r' points) : r = r' := by
  have hle := h.le_of_contains h'.contains
  have hge := h'.le_of_contains h.contains
  exact ext_edges (by omega) (by omega) (by omega) (by omega)

theorem isEmpty : r.isEmpty = false := by
  obtain ⟨p, hp, -⟩ := h.left
  have hc := contains_iff.mp (h.contains p hp)
  rw [isEmpty_false_iff]
  omega

/-- The bounds of a union are the union of the bounds. -/
theorem unite (h' : Hull r' points') : Hull (r.unite r') (points ∪ points') := by
  have hr : r.unite r' = mk4 (min r.x r'.x) (min r.y r'.y)
      (max r.maxX r'.maxX - min r.x r'.x) (max r.maxY r'.maxY - min r.y r'.y) := by
    rw [IntRect.unite, h.isEmpty, h'.isEmpty]
    rfl
  rw [hr]
  obtain ⟨p1, hp1, hl⟩ := h.left
  obtain ⟨p2, hp2, ht⟩ := h.top
  obtain ⟨p3, hp3, hr⟩ := h.right
  obtain ⟨p4, hp4, hb⟩ := h.bottom
  obtain ⟨q1, hq1, hl'⟩ := h'.left
  obtain ⟨q2, hq2, ht'⟩ := h'.top
  obtain ⟨q3, hq3, hr'⟩ := h'.right
  obtain ⟨q4, hq4, hb'⟩ := h'.bottom
  constructor
  · rintro p (hp | hp)
    · have hc := contains_iff.mp (h.contains p hp)
      rw [contains_iff, mk4_x, mk4_y, mk4_maxX, mk4_maxY]
      omega
    · have hc := contains_iff.mp (h'.contains p hp)
      rw [contains_iff, mk4_x, mk4_y, mk4_maxX, mk4_maxY]
      omega
  · rw [mk4_x]
    rcases le_total r.x r'.x with hle | hle
    · exact ⟨p1, Or.inl hp1, by omega⟩
    · exact ⟨q1, Or.inr hq1, by omega⟩
  · rw [mk4_y]
    rcases le_total r.y r'.y with hle | hle
    · exact ⟨p2, Or.inl hp2, by omega⟩
    · exact ⟨q2, Or.inr hq2, by omega⟩
  · rw [mk4_maxX]
    rcases le_total r.maxX r'.maxX with hle | hle
    · exact ⟨q3, Or.inr hq3, by omega⟩
    · exact ⟨p3, Or.inl hp3, by omega⟩
  · rw [mk4_maxY]
    rcases le_total r.maxY r'.maxY with hle | hle
    · exact ⟨q4, Or.inr hq4, by omega⟩
    · exact ⟨p4, Or.inl hp4, by omega⟩

end Hull

/-! ## The first and last points of a line -/

namespace IsSegments

variable {segments : List ℤ}

theorem isInside_head {x : ℤ} (h : IsSegments (x :: rest)) :
    isInside (x :: rest) x = true := by
  rw [isInside, toggles_cons, valueAt_cons_of_le le_rfl]
  exact valueAt_of_before fun e he =>
    (pairwise_cons.mp h.increasing).1 _ (mem_of_mem_toggles he)

theorem head_le {x : ℤ} {rest : List ℤ} (hin : isInside (x :: rest) x' = true) : x ≤ x' := by
  by_contra hlt
  rw [isInside, toggles_cons, valueAt_cons_of_lt (not_le.mp hlt)] at hin
  exact absurd hin (by decide)

theorem isInside_last {init : List ℤ} {z : ℤ} (h : IsSegments (init ++ [z])) :
    isInside (init ++ [z]) (z - 1) = true := by
  have hbefore : ∀ e ∈ toggles false init, e.1 ≤ z - 1 := fun e he =>
    Int.le_sub_one_of_lt
      ((pairwise_append.mp h.increasing).2.2 _ (mem_of_mem_toggles he) z (by simp))
  have hlim := h.limit
  rw [toggles_append, limit_append] at hlim
  rw [isInside, toggles_append, valueAt_append_of_after _ hbefore]
  cases hl : Library.StepFunction.limit false (toggles false init) with
  | false =>
    rw [hl] at hlim
    exact absurd hlim (by simp [toggles])
  | true =>
    exact valueAt_cons_of_lt (by omega)

theorem lt_last {x : ℤ} (h : IsSegments (init ++ [z]))
    (hin : isInside (init ++ [z]) x = true) : x < z := by
  by_contra hge
  have hafter : ∀ e ∈ toggles false (init ++ [z]), e.1 ≤ x := by
    intro e he
    rcases mem_append.mp (mem_of_mem_toggles he) with hm | hm
    · have := (pairwise_append.mp h.increasing).2.2 _ hm z (by simp)
      omega
    · rw [mem_singleton] at hm
      omega
  rw [isInside, valueAt_of_after hafter, h.limit] at hin
  exact absurd hin (by decide)

end IsSegments

/-! ## The loop of `bounds` -/

/-- What the loop makes of the least first and the greatest last segment so far. -/
structure BoundsSpec (minX maxX : ℤ) (rows : List Row) (r : ℤ × ℤ) : Prop where
  min_le : r.1 ≤ minX
  min_le_head : ∀ row ∈ rows, ∀ x ∈ row.2.head?, r.1 ≤ x
  min_eq : r.1 = minX ∨ ∃ row ∈ rows, r.1 ∈ row.2.head?
  le_max : maxX ≤ r.2
  last_le_max : ∀ row ∈ rows, ∀ x ∈ row.2.getLast?, x ≤ r.2
  max_eq : r.2 = maxX ∨ ∃ row ∈ rows, r.2 ∈ row.2.getLast?

theorem BoundsSpec.of_empty (minX maxX : ℤ) {rows : List Row} (h : ∀ row ∈ rows, row.2 = []) :
    BoundsSpec minX maxX rows (minX, maxX) := by
  constructor
  · exact le_rfl
  · intro row hrow x hx
    rw [h row hrow] at hx
    cases hx
  · exact Or.inl rfl
  · exact le_rfl
  · intro row hrow x hx
    rw [h row hrow] at hx
    cases hx
  · exact Or.inl rfl

/-- One row more in front. -/
theorem BoundsSpec.cons {minX maxX x : ℤ} {rows : List Row}
    (h : BoundsSpec (if x < minX then x else minX) (if z > maxX then z else maxX) rows r)
    (hhead : ∀ x' ∈ row.2.head?, x' = x) (hx : x ∈ row.2.head? ∨ ∃ row ∈ rows, x ∈ row.2.head?)
    (hlast : ∀ z' ∈ row.2.getLast?, z' = z) (hz : z ∈ row.2.getLast? ∨ z ≤ maxX) :
    BoundsSpec minX maxX (row :: rows) r := by
  have hmin := h.min_le
  have hmax := h.le_max
  constructor
  · split at hmin <;> omega
  · intro row' hrow' x' hx'
    rcases mem_cons.mp hrow' with rfl | hrow'
    · have := hhead x' hx'
      split at hmin <;> omega
    · exact h.min_le_head row' hrow' x' hx'
  · rcases h.min_eq with heq | ⟨row', hrow', heq⟩
    · split at heq
      · rw [heq]
        rcases hx with hx | ⟨row', hrow', hx⟩
        · exact Or.inr ⟨row, mem_cons_self, hx⟩
        · exact Or.inr ⟨row', mem_cons_of_mem _ hrow', hx⟩
      · exact Or.inl heq
    · exact Or.inr ⟨row', mem_cons_of_mem _ hrow', heq⟩
  · split at hmax <;> omega
  · intro row' hrow' z' hz'
    rcases mem_cons.mp hrow' with rfl | hrow'
    · have := hlast z' hz'
      split at hmax <;> omega
    · exact h.last_le_max row' hrow' z' hz'
  · rcases h.max_eq with heq | ⟨row', hrow', heq⟩
    · split at heq
      · rcases hz with hz | hz
        · exact Or.inr ⟨row, mem_cons_self, heq ▸ hz⟩
        · omega
      · exact Or.inl heq
    · exact Or.inr ⟨row', mem_cons_of_mem _ hrow', heq⟩

theorem getD_length_append (before : List ℤ) (x : ℤ) (rest : List ℤ) :
    (before ++ x :: rest).getD before.length 0 = x := by
  rw [getD_eq_getElem?_getD, List.getElem?_append_right le_rfl, Nat.sub_self]
  rfl

theorem getD_last_append {before : List ℤ} {z : ℤ} (hz : z ∈ before.getLast?) (rest : List ℤ) :
    (before ++ rest).getD (before.length - 1) 0 = z := by
  obtain ⟨init, rfl⟩ := List.getLast?_eq_some_iff.mp hz
  rw [length_append, append_assoc]
  exact getD_length_append init z rest

/-- The loop over the rows from some row on.  At a row without segments it reads the first segment
of the next row and the last one of the row before, which are taken into account anyway. -/
theorem boundsLoop_spec {shape : Shape} : ∀ {rows : List Row} {before d : List ℤ} (minX maxX : ℤ),
      shape.segments = before ++ rowSegments rows → Canonical d rows → limit d rows = [] →
      (d ≠ [] → ∃ z ∈ before.getLast?, z ≤ maxX) →
      BoundsSpec minX maxX rows (shape.boundsLoop minX maxX (rowSpans before.length rows))
  | [], _, _, minX, maxX, _, _, _, _ => BoundsSpec.of_empty minX maxX (by simp)
  | [(y, segments)], _, _, minX, maxX, _, _, hend, _ => by
    have hnil : segments = [] := hend
    subst hnil
    exact BoundsSpec.of_empty minX maxX (by simp)
  | (y, segments) :: (y', segments') :: rows, before, d, minX, maxX, hs, hc, hend, hbefore => by
    have hlt : before.length ≠ shape.segments.length := by
      intro hlen
      rw [hs, length_append] at hlen
      have hnil := length_eq_zero_iff.mp (show (rowSegments
        ((y, segments) :: (y', segments') :: rows)).length = 0 by omega)
      rw [rowSegments_cons, rowSegments_cons, append_eq_nil_iff, append_eq_nil_iff] at hnil
      exact hc.2.2.1 (hnil.2.1.trans hnil.1.symm)
    have hs' : shape.segments = (before ++ segments) ++ rowSegments ((y', segments') :: rows) := by
      rw [hs, append_assoc, rowSegments_cons]
    rw [rowSpans_cons, rowSpans_cons, boundsLoop, segmentsBegin, if_neg hlt,
      segmentsEnd, if_neg hlt]
    dsimp only
    rw [← length_append]
    cases segments with
    | nil =>
      obtain ⟨z, hz, hle⟩ := hbefore hc.1.symm
      obtain ⟨x, rest, rfl⟩ := exists_cons_of_ne_nil hc.2.2.1
      have hfirst : shape.segments.getD before.length 0 = x := by
        rw [hs]
        exact getD_length_append before x _
      have hlast : shape.segments.getD ((before ++ []).length - 1) 0 = z := by
        rw [hs, append_nil]
        exact getD_last_append hz _
      rw [hfirst, hlast]
      refine BoundsSpec.cons (boundsLoop_spec _ _ hs' hc.2.2 hend fun h => absurd rfl h)
        (by simp) (Or.inr ⟨_, mem_cons_self, rfl⟩) (by simp) (Or.inr hle)
    | cons x rest =>
      have hz := List.getLast?_eq_some_getLast (cons_ne_nil x rest)
      generalize (x :: rest).getLast (cons_ne_nil x rest) = z at hz
      have hz' : z ∈ (before ++ x :: rest).getLast? := by
        rw [List.getLast?_append, hz]
        rfl
      have hfirst : shape.segments.getD before.length 0 = x := by
        rw [hs]
        exact getD_length_append before x _
      have hlast : shape.segments.getD ((before ++ x :: rest).length - 1) 0 = z := by
        rw [hs']
        exact getD_last_append hz' _
      rw [hfirst, hlast]
      refine BoundsSpec.cons (boundsLoop_spec _ _ hs' hc.2.2 hend fun _ => ⟨z, hz', ?_⟩)
        (by simp) (Or.inl rfl) (fun z' hz' => by simpa [hz, eq_comm] using hz') (Or.inl hz)
      split <;> omega

/-! ## The bounds of canonical rows -/

/-- The range of the coordinates: sums and differences of two of them are in the range of an
`int`. -/
def InRange (c : ℤ) : Prop := -2 ^ 29 ≤ c ∧ c ≤ 2 ^ 29

instance (c : ℤ) : Decidable (InRange c) := inferInstanceAs (Decidable (_ ∧ _))

section Rows

variable {rows : List Row} (h : CanonicalRows rows)

include h

/-- The line of a row is covered where its segments are inside. -/
theorem covers_of_mem {y x : ℤ} {segments : List ℤ} (hrow : (y, segments) ∈ rows)
    (hx : isInside segments x = true) : covers rows ⟨x, y⟩ = true := by
  rw [covers, valueAt_of_mem h.changes.sorted hrow]
  exact hx

/-- Every covered point stands on the line of a row. -/
theorem exists_row_of_covers {p : IntPoint} (hp : covers rows p = true) :
    ∃ row ∈ rows, row.1 ≤ p.y ∧ isInside row.2 p.x = true := by
  rcases valueAt_eq_or_mem (x := p.y) [] rows with hnil | ⟨y, hrow, hy⟩
  · rw [covers, hnil] at hp
    cases hp
  · exact ⟨_, hrow, hy, hp⟩

/-- The loop keeps within the first and last points of the rows. -/
theorem hull_of_boundsSpec {maxX : ℤ} (hr : BoundsSpec minX maxX rows r)
    (hmin : r.1 < minX) (hmax : maxX < r.2) {y : ℤ} {segments : List ℤ}
    (hfirst : rows = (y, segments) :: rest) (hlast : rows = init ++ [(lastY, [])]) :
    Hull (mk4 r.1 y (r.2 - r.1) (lastY - y)) {p | covers rows p = true} := by
  have hsorted := h.changes.sorted
  have hedges : (mk4 r.1 y (r.2 - r.1) (lastY - y)).maxX = r.2 ∧
      (mk4 r.1 y (r.2 - r.1) (lastY - y)).maxY = lastY := by
    rw [mk4_maxX, mk4_maxY]
    omega
  -- the last line with segments
  have hbottom : ∃ x, isInside (valueAt [] rows (lastY - 1)) x = true := by
    have hc := h.changes
    rw [hlast] at hc hsorted ⊢
    have hne : limit [] init ≠ [] := hc.append_right.1.symm
    have hbefore : ∀ e ∈ init, e.1 ≤ lastY - 1 := fun e he => Int.le_sub_one_of_lt
      ((pairwise_append.mp hsorted).2.2 e he (lastY, []) (by simp))
    rw [valueAt_append_of_after _ hbefore, valueAt_cons_of_lt (by omega)]
    have hline : IsSegments (limit [] init) := by
      rcases limit_eq_or_mem [] init with hnil | ⟨y', hmem⟩
      · exact absurd hnil hne
      · exact h.segments _ (hlast ▸ mem_append_left _ hmem)
    obtain ⟨x, rest, hx⟩ := exists_cons_of_ne_nil hne
    rw [hx] at hline ⊢
    exact ⟨x, hline.isInside_head⟩
  constructor
  · intro p hp
    obtain ⟨row, hrow, hy, hin⟩ := exists_row_of_covers h hp
    have hne : row.2 ≠ [] := by
      intro hnil
      rw [hnil] at hin
      cases hin
    have hleft : r.1 ≤ p.x := by
      obtain ⟨x, rest, hx⟩ := exists_cons_of_ne_nil hne
      rw [hx] at hin
      have hhead := hr.min_le_head row hrow x (by rw [hx]; rfl)
      exact le_trans hhead (IsSegments.head_le hin)
    have hright : p.x < r.2 := by
      obtain ⟨init, z, hz⟩ := (eq_nil_or_concat row.2).resolve_left hne
      rw [concat_eq_append] at hz
      have hline := h.segments row hrow
      rw [hz] at hin hline
      have hzmax := hr.last_le_max row hrow z (by rw [hz]; simp)
      exact lt_of_lt_of_le (hline.lt_last hin) hzmax
    have htop : y ≤ p.y := by
      rw [hfirst] at hrow hsorted
      rcases mem_cons.mp hrow with rfl | hrow
      · exact hy
      · exact ((sorted_cons.mp hsorted).1 row hrow).le.trans hy
    have hbelow : p.y < lastY := by
      by_contra hge
      have hafter : ∀ e ∈ rows, e.1 ≤ p.y := by
        intro e he
        rw [hlast] at he hsorted
        rcases mem_append.mp he with he | he
        · have := (pairwise_append.mp hsorted).2.2 e he (lastY, []) (by simp)
          omega
        · rw [mem_singleton.mp he]
          omega
      have hcov : covers rows p = true := hp
      rw [covers, valueAt_of_after hafter, h.ends] at hcov
      cases hcov
    rw [contains_iff, hedges.1, hedges.2]
    exact ⟨hleft, hright, htop, hbelow⟩
  · obtain ⟨⟨y', segments'⟩, hrow, hx⟩ := hr.min_eq.resolve_left hmin.ne
    obtain ⟨rest, hx⟩ := List.head?_eq_some_iff.mp hx
    change segments' = r.1 :: rest at hx
    have hline := h.segments _ hrow
    simp only [hx] at hline
    exact ⟨⟨r.1, y'⟩, covers_of_mem h hrow (hx ▸ hline.isInside_head), rfl⟩
  · have hrow : (y, segments) ∈ rows := hfirst ▸ mem_cons_self
    have hne : segments ≠ [] := by
      have hc := h.changes
      rw [hfirst] at hc
      exact hc.1
    obtain ⟨x, rest, rfl⟩ := exists_cons_of_ne_nil hne
    exact ⟨⟨x, y⟩, covers_of_mem h hrow (h.segments _ hrow).isInside_head, rfl⟩
  · obtain ⟨⟨y', segments'⟩, hrow, hx⟩ := hr.max_eq.resolve_left hmax.ne'
    obtain ⟨init, hx⟩ := List.getLast?_eq_some_iff.mp hx
    change segments' = init ++ [r.2] at hx
    have hline := h.segments _ hrow
    simp only [hx] at hline
    refine ⟨⟨r.2 - 1, y'⟩, covers_of_mem h hrow (hx ▸ hline.isInside_last), ?_⟩
    rw [hedges.1]
    exact Int.sub_add_cancel r.2 1
  · obtain ⟨x, hx⟩ := hbottom
    refine ⟨⟨x, lastY - 1⟩, hx, ?_⟩
    rw [hedges.2]
    exact Int.sub_add_cancel lastY 1

/-- The bounds of a shape with rows. -/
theorem hull_bounds (hne : rows ≠ []) (hrange : ∀ x ∈ rowSegments rows, InRange x) :
    Hull (ofRows rows).bounds {p | covers rows p = true} := by
  obtain ⟨⟨y, segments⟩, rest, hfirst⟩ := exists_cons_of_ne_nil hne
  obtain ⟨init, ⟨lastY, segments'⟩, hlast⟩ := (eq_nil_or_concat rows).resolve_left hne
  rw [concat_eq_append] at hlast
  have hnil : segments' = [] := by
    have hends := h.ends
    rwa [hlast, limit_append_singleton] at hends
  subst hnil
  have hs : (ofRows rows).segments = [] ++ rowSegments rows := (nil_append _).symm
  have hr := boundsLoop_spec intMax intMin hs h.changes h.ends
    fun hd => absurd rfl hd
  have hbounds : (ofRows rows).bounds =
      mk4 ((ofRows rows).boundsLoop intMax intMin (rowSpans 0 rows)).1 y
        (((ofRows rows).boundsLoop intMax intMin (rowSpans 0 rows)).2 -
          ((ofRows rows).boundsLoop intMax intMin (rowSpans 0 rows)).1)
        (lastY - y) := by
    have hhead : (rowSpans 0 rows).head? = some ⟨y, 0⟩ := by rw [hfirst]; rfl
    have hgetLast : (rowSpans 0 rows).getLast? = some ⟨lastY, (rowSegments init).length⟩ := by
      rw [hlast, rowSpans_append]
      simp [rowSpans_cons]
    rw [bounds, show (ofRows rows).spans = rowSpans 0 rows from rfl, hhead, hgetLast]
  rw [hbounds]
  -- the first row has segments, and they are in the range
  have hrow : (y, segments) ∈ rows := hfirst ▸ mem_cons_self
  have hc := h.changes
  rw [hfirst] at hc
  have hin : ∀ x ∈ segments, InRange x := fun x hx =>
    hrange x (mem_flatten.mpr ⟨segments, mem_map_of_mem hrow, hx⟩)
  have hmin := hr.min_le_head _ hrow (segments.head hc.1) (List.head?_eq_some_head hc.1)
  have hmax := hr.last_le_max _ hrow (segments.getLast hc.1) (List.getLast?_eq_some_getLast hc.1)
  have hhead := hin _ (head_mem hc.1)
  have hlastx := hin _ (getLast_mem hc.1)
  rw [InRange] at hhead hlastx
  have hlo : intMin = -2 ^ 31 := rfl
  have hhi : intMax = 2 ^ 31 - 1 := rfl
  refine hull_of_boundsSpec h hr ?_ ?_ hfirst hlast
  · exact lt_of_le_of_lt hmin (by omega)
  · exact lt_of_lt_of_le (by omega) hmax

end Rows

end WebKit.Graphics
