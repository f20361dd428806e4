import WebKit.Graphics.Scanlines

/-!
# The points of a region

A point is in a region when the segments of its line have been entered and not left again at its
x coordinate (`Region.points`).  The rows that the operations build are canonical
(`CanonicalRows`): no row repeats the one above it, the last one is empty, and the segments of a
row increase and are even in number.  Such rows are determined by the points they cover
(`CanonicalRows.unique`), and the sweep combines them point by point (`covers_merge`).
-/

namespace WebKit.Graphics

open Library.StepFunction
open Shape (Operation)
open List Shape

/-! ## Lines -/

/-- Whether the segments have been entered and not left again at `x`. -/
def isInside (segments : List ℤ) (x : ℤ) : Bool := valueAt false (toggles false segments) x

/-- The segments of a line: strictly increasing, and even in number. -/
structure IsSegments (segments : List ℤ) : Prop where
  increasing : segments.Pairwise (· < ·)
  even : segments.length % 2 = 0

theorem IsSegments.nil : IsSegments [] := ⟨List.Pairwise.nil, rfl⟩

@[simp] theorem isInside_nil (x : ℤ) : isInside [] x = false := rfl

variable {segments s1 s2 : List ℤ} {op : Operation}

theorem IsSegments.canonical (h : IsSegments segments) :
    Canonical false (toggles false segments) := canonical_toggles false h.increasing

theorem IsSegments.limit (h : IsSegments segments) :
    limit false (toggles false segments) = false := by
  rw [limit_toggles, h.even]
  rfl

/-- The segments of a line are determined by the points inside. -/
theorem IsSegments.unique (h : IsSegments segments)
    (h' : IsSegments segments') (hin : ∀ x, isInside segments x = isInside segments' x) :
    segments = segments' := by
  have heq := h.canonical.unique h'.canonical hin
  rw [← positions_toggles false segments, heq, positions_toggles]

section

variable (hop : op.Regular) (h1 : IsSegments s1) (h2 : IsSegments s2)
include h1 h2 hop

/-- The line of a result, as the list of a two-valued function. -/
theorem toggles_mergeSegments : toggles false (mergeSegments op s1 s2) =
      merge op.member false false false (toggles false s1) (toggles false s2) := by
  have hloop := segmentsLoop_eq_merge hop false false s1 s2 h1.limit h2.limit
  rw [op.member_false] at hloop
  rw [mergeSegments, show (0 : ℕ) = flagOf false false from rfl, hloop]
  exact toggles_of_canonical (canonical_merge h1.canonical.sorted h2.canonical.sorted)

/-- The sweep of one line combines its points. -/
theorem isInside_mergeSegments (x : ℤ) :
    isInside (mergeSegments op s1 s2) x = op.member (isInside s1 x) (isInside s2 x) := by
  rw [isInside, toggles_mergeSegments hop h1 h2]
  exact valueAt_merge op.member_false.symm h1.canonical.sorted h2.canonical.sorted x

theorem isSegments_mergeSegments : IsSegments (mergeSegments op s1 s2) := by
  have htog := toggles_mergeSegments hop h1 h2
  have hpos : mergeSegments op s1 s2 = (merge op.member false false false
      (toggles false s1) (toggles false s2)).map Prod.fst := by
    rw [← htog, positions_toggles]
  constructor
  · have hc := canonical_merge (f := op.member) (w := false) (u := false) (v := false)
      h1.canonical.sorted h2.canonical.sorted
    rw [hpos]
    exact pairwise_map.mpr hc.sorted
  · have hlim := limit_toggles false (mergeSegments op s1 s2)
    rw [htog, limit_merge op.member_false.symm, h1.limit, h2.limit, op.member_false] at hlim
    rcases Nat.mod_two_eq_zero_or_one (mergeSegments op s1 s2).length with h | h
    · exact h
    · rw [h] at hlim
      exact absurd hlim (by decide)

end

theorem mergeSegments_nil (hop : op.Regular) : mergeSegments op [] [] = [] := by
  rw [mergeSegments_nil_right hop, ite_self]

/-- The sweep of one line makes no new coordinates. -/
theorem mem_mergeSegments (hop : op.Regular) (h1 : IsSegments s1) (h2 : IsSegments s2)
    (hx : x ∈ mergeSegments op s1 s2) : x ∈ s1 ∨ x ∈ s2 := by
  rw [← positions_toggles false (mergeSegments op s1 s2), toggles_mergeSegments hop h1 h2] at hx
  obtain ⟨e, he, rfl⟩ := mem_map.mp hx
  have hpos := mem_positions_merge he
  rwa [positions_toggles, positions_toggles] at hpos

/-! ## Rows -/

/-- The rows that the operations build. -/
structure CanonicalRows (rows : List Row) : Prop where
  changes : Canonical [] rows
  ends : limit [] rows = []
  segments : ∀ row ∈ rows, IsSegments row.2

/-- Whether the rows cover a point. -/
def covers (rows : List Row) (p : IntPoint) : Bool := isInside (valueAt [] rows p.y) p.x

theorem CanonicalRows.nil : CanonicalRows [] := by
  constructor
  · exact canonical_nil []
  · rfl
  · intro row hrow
    cases hrow

theorem CanonicalRows.line (h : CanonicalRows rows) (y : ℤ) :
    IsSegments (valueAt [] rows y) := by
  rcases valueAt_eq_or_mem (x := y) [] rows with hnil | ⟨y', hmem, -⟩
  · rw [hnil]
    exact IsSegments.nil
  · exact h.segments _ hmem

/-- Canonical rows are determined by the points they cover. -/
theorem CanonicalRows.unique (h : CanonicalRows rows)
    (h' : CanonicalRows rows') (hcov : ∀ p, covers rows p = covers rows' p) : rows = rows' :=
  h.changes.unique h'.changes fun y => (h.line y).unique (h'.line y) fun x => hcov ⟨x, y⟩

section Merge

variable {op : Operation} (hop : op.Regular) {rows rows' : List Row} (h : CanonicalRows rows)
  (h' : CanonicalRows rows')

include hop h h'

/-- The line of the result at any height. -/
theorem valueAt_mergeRows (y : ℤ) : valueAt [] (merge (mergeSegments op) [] [] [] rows rows') y =
      mergeSegments op (valueAt [] rows y) (valueAt [] rows' y) :=
  valueAt_merge (mergeSegments_nil hop).symm h.changes.sorted h'.changes.sorted y

/-- The sweep combines two shapes point by point. -/
theorem covers_merge (p : IntPoint) : covers (merge (mergeSegments op) [] [] [] rows rows') p =
      op.member (covers rows p) (covers rows' p) := by
  rw [covers, valueAt_mergeRows hop h h', isInside_mergeSegments hop (h.line p.y) (h'.line p.y)]
  rfl

theorem canonicalRows_merge : CanonicalRows (merge (mergeSegments op) [] [] [] rows rows') := by
  have hc : Canonical [] (merge (mergeSegments op) [] [] [] rows rows') :=
    canonical_merge h.changes.sorted h'.changes.sorted
  constructor
  · exact hc
  · rw [limit_merge (mergeSegments_nil hop).symm, h.ends, h'.ends, mergeSegments_nil hop]
  · rintro ⟨y, segments⟩ hrow
    have hval := valueAt_of_mem (d := []) hc.sorted hrow
    rw [valueAt_mergeRows hop h h'] at hval
    rw [← hval]
    exact isSegments_mergeSegments hop (h.line y) (h'.line y)

/-- The sweep makes no new x coordinates. -/
theorem mem_segments_merge (hx : x ∈ rowSegments (merge (mergeSegments op) [] [] [] rows rows')) :
    x ∈ rowSegments rows ∨ x ∈ rowSegments rows' := by
  have hc : Canonical [] (merge (mergeSegments op) [] [] [] rows rows') :=
    canonical_merge h.changes.sorted h'.changes.sorted
  -- the segments of a line are those of a row
  have line : ∀ {rows : List Row} {y x : ℤ}, x ∈ valueAt [] rows y → x ∈ rowSegments rows := by
    intro rows y x hx
    rcases valueAt_eq_or_mem (x := y) [] rows with hnil | ⟨y', hmem, -⟩
    · rw [hnil] at hx
      cases hx
    · exact mem_flatten.mpr ⟨_, mem_map_of_mem hmem, hx⟩
  obtain ⟨segments, hmem, hx⟩ := mem_flatten.mp hx
  obtain ⟨⟨y, segments⟩, hrow, rfl⟩ := mem_map.mp hmem
  have hval := valueAt_of_mem (d := []) hc.sorted hrow
  rw [valueAt_mergeRows hop h h'] at hval
  have hx' : x ∈ mergeSegments op (valueAt [] rows y) (valueAt [] rows' y) := hval ▸ hx
  rcases mem_mergeSegments hop (h.line y) (h'.line y) hx' with hx' | hx'
  · exact Or.inl (line hx')
  · exact Or.inr (line hx')

/-- The operation on two shapes that are not empty. -/
theorem spansLoop_ofRows : spansLoop op (ofRows rows) (ofRows rows') [] [] empty
        (ofRows rows).spans (ofRows rows').spans =
      ofRows (merge (mergeSegments op) [] [] [] rows rows') :=
  spansLoop_eq_merge hop [] [] [] [] rows rows' [] rfl h.changes h.ends rfl h'.changes h'.ends
    (mergeSegments_nil hop).symm

end Merge

/-! ## The rows and the points of a shape -/

/-- The height and the segments of each span from an iterator on. -/
def Shape.rowsFrom (shape : Shape) : List Span → List Row
  | [] => []
  | it :: rest => (it.y, shape.segmentsAt (it :: rest)) :: shape.rowsFrom rest

/-- The rows of a shape. -/
def Shape.rows (shape : Shape) : List Row := shape.rowsFrom shape.spans

/-- The points of a region. -/
def Region.points (a : Region) : Set IntPoint := {p | covers a.shape.rows p = true}

theorem rowsFrom_rowSpans {shape : Shape} :
    ∀ {rows : List Row} {before d : List ℤ}, shape.segments = before ++ rowSegments rows →
      limit d rows = [] → shape.rowsFrom (rowSpans before.length rows) = rows
  | [], _, _, _, _ => rfl
  | (y, segments) :: rows, before, _, hs, hend => by
    have hat := segmentsAt_rowSpans segments y hs hend
    have hs' : shape.segments = (before ++ segments) ++ rowSegments rows := by
      rw [hs, append_assoc, rowSegments_cons]
    have hrest := rowsFrom_rowSpans (d := segments) hs' hend
    rw [length_append] at hrest
    rw [rowSpans_cons] at hat ⊢
    rw [rowsFrom, hat, hrest]

/-- Storing rows and reading them back gives the same rows. -/
theorem CanonicalRows.rows_ofRows {rows : List Row} (h : CanonicalRows rows) :
    (ofRows rows).rows = rows := by
  have hs : (ofRows rows).segments = [] ++ rowSegments rows := (nil_append _).symm
  exact rowsFrom_rowSpans hs h.ends

theorem CanonicalRows.points_ofRows {rows : List Row} (h : CanonicalRows rows) (bounds : IntRect) :
    (⟨bounds, ofRows rows⟩ : Region).points = {p | covers rows p = true} := by
  rw [Region.points, h.rows_ofRows]

end WebKit.Graphics
