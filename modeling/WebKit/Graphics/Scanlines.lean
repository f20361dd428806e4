import WebKit.Library.StepFunction
import WebKit.Graphics.Region

/-!
# The scanline sweep as a merge of step functions

A shape is the list of its rows, each the height where it starts and the segments on its lines
(`Shape.ofRows`).  Read as step functions, rows give the segments of every line and segments give
the points of every line that are inside.  Both loops of the sweep are then the merge of two step
functions: `segmentsLoop_eq_merge` for one line, `spansLoop_eq_merge` for the whole shape.
-/

namespace WebKit.Graphics

open Library.StepFunction
open List Shape

/-! ## Rows -/

/-- A height, and the segments of the lines from there on. -/
abbrev Row := ℤ × List ℤ

/-- The spans of a list of rows whose first segment has index `n`. -/
def rowSpans : ℕ → List Row → List Span
  | _, [] => []
  | n, (y, segments) :: rows => ⟨y, n⟩ :: rowSpans (n + segments.length) rows

variable (rows : List Row)

/-- The segments of all rows. -/
def rowSegments : List ℤ := (rows.map Prod.snd).flatten

/-- The shape that stores the rows. -/
def Shape.ofRows : Shape := ⟨rowSegments rows, rowSpans 0 rows⟩

@[simp] theorem rowSegments_nil : rowSegments [] = [] := rfl

@[simp] theorem rowSegments_cons (row : Row) (rows : List Row) :
    rowSegments (row :: rows) = row.2 ++ rowSegments rows := rfl

@[simp] theorem rowSegments_append (rows rows' : List Row) :
    rowSegments (rows ++ rows') = rowSegments rows ++ rowSegments rows' := by
  rw [rowSegments, map_append, flatten_append]
  rfl

@[simp] theorem rowSpans_nil (n : ℕ) : rowSpans n [] = [] := rfl

theorem rowSpans_cons (n : ℕ) (y : ℤ) (segments : List ℤ) (rows : List Row) :
    rowSpans n ((y, segments) :: rows) = ⟨y, n⟩ :: rowSpans (n + segments.length) rows := rfl

theorem rowSpans_append : ∀ (n : ℕ) (rows rows' : List Row), rowSpans n (rows ++ rows') =
      rowSpans n rows ++ rowSpans (n + (rowSegments rows).length) rows'
  | n, [], rows' => by simp
  | n, (y, segments) :: rows, rows' => by
    rw [cons_append, rowSpans_cons, rowSpans_append, rowSpans_cons, cons_append,
      rowSegments_cons, length_append, Nat.add_assoc]

theorem isEmpty_rowSpans (n : ℕ) (rows : List Row) : (rowSpans n rows).isEmpty = rows.isEmpty := by
  cases rows <;> rfl

theorem ofRows_isEmpty : (ofRows rows).isEmpty = rows.isEmpty :=
  isEmpty_rowSpans 0 rows

/-- The rows can be read back from the shape that stores them. -/
theorem segmentsAt_rowSpans {shape : Shape} (segments : List ℤ) (y : ℤ) {rows : List Row}
    (hs : shape.segments = before ++ (segments ++ rowSegments rows))
    (hend : limit segments rows = []) :
    shape.segmentsAt (rowSpans before.length ((y, segments) :: rows)) = segments := by
  cases rows with
  | nil =>
    have hnil : segments = [] := hend
    subst hnil
    rw [rowSpans_cons, segmentsAt, segmentsBegin, if_pos (by rw [hs]; simp)]
  | cons row rows =>
    obtain ⟨y', segments'⟩ := row
    rw [rowSpans_cons, rowSpans_cons, segmentsAt, segmentsBegin, segmentsEnd]
    by_cases hfull : before.length = shape.segments.length
    · rw [if_pos hfull]
      have hnil : segments ++ rowSegments ((y', segments') :: rows) = [] := by
        rw [hs, length_append] at hfull
        exact length_eq_zero_iff.mp (by omega)
      exact (append_eq_nil_iff.mp hnil).1.symm
    · rw [if_neg hfull, if_neg hfull]
      simp only
      rw [hs, ← append_assoc, take_append_of_le_length (by simp),
        take_of_length_le (by simp), drop_left]

/-! ## Appending rows -/

theorem appendSpanSegments_ofRows (y : ℤ) (segments : List ℤ)
    (h : rows = [] ∨ segments ≠ limit [] rows) :
    (ofRows rows).appendSpanSegments y segments = ofRows (rows ++ [(y, segments)]) := by
  have hno : (ofRows rows).canCoalesce segments = false := by
    rcases eq_nil_or_concat rows with rfl | ⟨front, ⟨y', last⟩, rfl⟩
    · rfl
    · rw [concat_eq_append] at h ⊢
      have hne : last ≠ segments := by
        rcases h with h | h
        · simp at h
        · have hl : limit [] (front ++ [(y', last)]) = last := limit_append_singleton [] front y' last
          rw [hl] at h
          exact h.symm
      rw [canCoalesce, ofRows, rowSpans_append]
      simp only [rowSpans_cons, rowSpans_nil, List.getLast?_append, List.getLast?_singleton,
        Option.some_or, rowSegments_append, rowSegments_cons, rowSegments_nil, append_nil,
        Nat.zero_add, drop_left]
      exact beq_eq_false_iff_ne.mpr hne
  rw [appendSpanSegments, if_neg (by rw [hno]; simp), appendSpan, ofRows,
    ofRows, rowSpans_append, rowSegments_append, rowSpans_cons, rowSpans_nil, Nat.zero_add,
    rowSegments_cons, rowSegments_nil, append_nil]

theorem appendSpanSegments_ofRows_same (y : ℤ) (hne : rows ≠ []) :
    (ofRows rows).appendSpanSegments y (limit [] rows) = ofRows rows := by
  rcases eq_nil_or_concat rows with rfl | ⟨front, ⟨y', last⟩, rfl⟩
  · exact absurd rfl hne
  · rw [concat_eq_append, limit_append_singleton, appendSpanSegments]
    rw [canCoalesce, ofRows, rowSpans_append]
    simp [rowSpans_cons]

/-- A line is added to a shape when it differs from the line before. -/
theorem addSpan_ofRows (y : ℤ) (segments : List ℤ) : (ofRows rows).addSpan y segments =
      ofRows (rows ++ compress (limit [] rows) [(y, segments)]) := by
  rw [addSpan, ofRows_isEmpty]
  by_cases hsame : segments = limit [] rows
  · subst hsame
    rw [compress_cons_same, compress, append_nil]
    cases rows with
    | nil => rfl
    | cons row rows =>
      rw [if_pos (by simp)]
      exact appendSpanSegments_ofRows_same _ y (cons_ne_nil _ _)
  · rw [compress_cons_ne _ _ hsame, compress, if_pos,
      appendSpanSegments_ofRows rows y segments (Or.inr hsame)]
    cases rows with
    | nil =>
      have hne : segments ≠ [] := hsame
      simpa using hne
    | cons row rows => simp

/-- The rows of a shape that are left over, none of which repeats the one before. -/
theorem appendSpans_ofRows {other : Shape} :
    ∀ {rows : List Row} {before : List ℤ} (done : List Row),
      other.segments = before ++ rowSegments rows → Canonical (limit [] done) rows →
      limit (limit [] done) rows = [] →
      (ofRows done).appendSpans other (rowSpans before.length rows) = ofRows (done ++ rows)
  | [], _, done, _, _, _ => by rw [rowSpans_nil, appendSpans, append_nil]
  | (y, segments) :: rows, before, done, hs, hc, hend => by
    have hat := segmentsAt_rowSpans segments y hs hend
    rw [rowSpans_cons] at hat ⊢
    rw [appendSpans, hat, appendSpanSegments_ofRows done y segments (Or.inr hc.1)]
    have hlim : limit [] (done ++ [(y, segments)]) = segments :=
      limit_append_singleton [] done y segments
    have hs' : other.segments = (before ++ segments) ++ rowSegments rows := by
      rw [hs, append_assoc, rowSegments_cons]
    have hrest := appendSpans_ofRows (done ++ [(y, segments)]) hs' (hlim.symm ▸ hc.2.2)
      (hlim.symm ▸ hend)
    rw [length_append] at hrest
    rw [hrest, append_assoc]
    rfl

/-! ## The sweep of one line -/

/-- The flag inside the given ones of two spans. -/
def flagOf : Bool → Bool → ℕ
  | false, false => 0
  | true, false => 1
  | false, true => 2
  | true, true => 3

theorem flagOf_xor_one (b b' : Bool) : flagOf b b' ^^^ 1 = flagOf (!b) b' := by
  cases b <;> cases b' <;> rfl

theorem flagOf_xor_two (b b' : Bool) : flagOf b b' ^^^ 2 = flagOf b (!b') := by
  cases b <;> cases b' <;> rfl

theorem flagOf_injective (h : flagOf b b' = flagOf c c') : b = c ∧ b' = c' := by
  revert b b' c c'
  decide

namespace Shape.Operation

variable (op : Operation)

/-- Whether a point inside the given ones of two shapes has the operation's flag. -/
def keeps (b b' : Bool) : Bool := flagOf b b' = op.opCode

/-- Whether a point inside the given ones of two shapes is inside the result, where a point
outside of both is outside. -/
def member (b b' : Bool) : Bool := op.keeps b b' != op.keeps false false

@[simp] theorem member_false : op.member false false = false := by
  simp [member]

/-- An operation appends what is left of one shape when being inside that shape alone makes a
difference. -/
structure Regular (op : Operation) : Prop where
  segments1 : op.shouldAddRemainingSegmentsFromSpan1 = op.member true false
  segments2 : op.shouldAddRemainingSegmentsFromSpan2 = op.member false true
  spans1 : op.shouldAddRemainingSpansFromShape1 = op.shouldAddRemainingSegmentsFromSpan1
  spans2 : op.shouldAddRemainingSpansFromShape2 = op.shouldAddRemainingSegmentsFromSpan2

/-- Of two different flags, one is the operation's exactly when the result changes. -/
theorem emits_iff (hne : (c, c') ≠ (b, b')) :
    (decide (flagOf c c' = op.opCode) || decide (flagOf b b' = op.opCode)) = true ↔
      op.member c c' ≠ op.member b b' := by
  have hboth : ¬(op.keeps c c' = true ∧ op.keeps b b' = true) := by
    rintro ⟨hc, hb⟩
    obtain ⟨h, h'⟩ := flagOf_injective ((of_decide_eq_true hc).trans (of_decide_eq_true hb).symm)
    exact hne (Prod.ext h h')
  change (op.keeps c c' || op.keeps b b') = true ↔ _
  unfold member
  generalize op.keeps c c' = k, op.keeps b b' = k', op.keeps false false = k₀ at hboth ⊢
  revert k k' k₀
  decide

end Shape.Operation

open Shape (Operation)

/-- What is left of one span, when the other has ended, changes the result at every segment or at
none. -/
theorem leftover_segments {f : Bool → Bool} (hf : f false = false) (b : Bool) (segments : List ℤ) :
    (compress (f b) ((toggles b segments).map fun e => (e.1, f e.2))).map Prod.fst =
      if f true then segments else [] := by
  induction segments generalizing b with
  | nil => simp [toggles, compress]
  | cons x segments ih =>
    rw [toggles_cons, map_cons]
    cases ht : f true with
    | true =>
      have hne : f (!b) ≠ f b := by cases b <;> simp [hf, ht]
      rw [compress_cons_ne _ _ hne, map_cons, ih, ht]
      rfl
    | false =>
      have heq : f (!b) = f b := by cases b <;> simp [hf, ht]
      rw [heq, compress_cons_same, ← heq, ih, ht]
      rfl

variable {op : Operation}

/-- A step of the loop appends its position exactly when the merge does. -/
theorem positions_put {b b' c c' : Bool} (hne : (c, c') ≠ (b, b')) (x : ℤ)
    (rest : List (ℤ × Bool)) :
    (put (op.member b b') x (op.member c c') rest).map Prod.fst =
      if flagOf c c' = op.opCode || flagOf b b' = op.opCode then x :: rest.map Prod.fst
      else rest.map Prod.fst := by
  by_cases h : op.member c c' = op.member b b'
  · rw [put, if_pos h, if_neg fun hemit => (op.emits_iff hne).mp hemit h]
  · rw [put, if_neg h, if_pos ((op.emits_iff hne).mpr h), map_cons]

/-- The loop over the segments of two spans is the merge of the two lines. -/
theorem segmentsLoop_eq_merge (hop : op.Regular) : ∀ (b b' : Bool)
    (s1 s2 : List ℤ), limit b (toggles b s1) = false → limit b' (toggles b' s2) = false →
    segmentsLoop op (flagOf b b') (flagOf b b') s1 s2 =
      (merge op.member (op.member b b') b b' (toggles b s1) (toggles b' s2)).map Prod.fst
  | b, b', [], s2, h1, h2 => by
    have hb : b = false := h1
    subst hb
    have hleft := leftover_segments (f := fun c => op.member false c) op.member_false b' s2
    rw [toggles, merge_nil_left, hleft, segmentsLoop, hop.segments2]
    · cases s2 <;> simp
    · simp
  | b, b', x :: s1, [], h1, h2 => by
    have hb : b' = false := h2
    subst hb
    have hleft := leftover_segments (f := fun c => op.member c false) op.member_false b (x :: s1)
    rw [toggles.eq_1, merge_nil_right, hleft, segmentsLoop, hop.segments1]
    all_goals simp
  | b, b', x :: s1, x' :: s2, h1, h2 => by
    rw [segmentsLoop, toggles_cons, toggles_cons]
    rcases lt_trichotomy x x' with h | rfl | h
    · have ih := segmentsLoop_eq_merge hop (!b) b' s1 (x' :: s2) h1 h2
      have hne : ((!b, b') : Bool × Bool) ≠ (b, b') := by cases b <;> simp
      rw [merge_cons_lt h, positions_put hne, if_pos (by omega), flagOf_xor_one,
        ← toggles_cons, ← ih]
    · have ih := segmentsLoop_eq_merge hop (!b) (!b') s1 s2 h1 h2
      have hne : ((!b, !b') : Bool × Bool) ≠ (b, b') := by cases b <;> simp
      rw [merge_cons_eq, positions_put hne, if_neg (by omega), if_neg (by omega), flagOf_xor_one,
        flagOf_xor_two, ← ih]
    · have ih := segmentsLoop_eq_merge hop b (!b') (x :: s1) s2 h1 h2
      have hne : ((b, !b') : Bool × Bool) ≠ (b, b') := by cases b' <;> simp
      rw [merge_cons_gt h, positions_put hne, if_neg (by omega), if_pos (by omega),
        flagOf_xor_two, ← toggles_cons, ← ih]
  termination_by _ _ s1 s2 => s1.length + s2.length

/-! ## The sweep of two shapes -/

theorem mergeSegments_nil_right (hop : op.Regular) (segments : List ℤ) :
    mergeSegments op segments [] = if op.member true false then segments else [] := by
  rw [mergeSegments, segmentsLoop, hop.segments1]
  · cases segments <;> simp
  · simp

theorem mergeSegments_nil_left (hop : op.Regular) (segments : List ℤ) :
    mergeSegments op [] segments = if op.member false true then segments else [] := by
  rw [mergeSegments, segmentsLoop, hop.segments2]
  · cases segments <;> simp
  · simp

/-- What is left of one shape, when the other has ended, is appended whole or dropped whole, and
so does the merge. -/
theorem leftover_spans {f : List ℤ → List ℤ} {keep : Bool}
    (hf : ∀ segments, f segments = if keep then segments else []) {u : List ℤ} {rows : List Row}
    (hc : Canonical u rows) :
    compress (f u) (rows.map fun e => (e.1, f e.2)) = if keep then rows else [] := by
  cases keep with
  | true =>
    have hid : f = id := funext fun segments => (hf segments).trans (if_pos rfl)
    rw [hid]
    exact (congrArg _ (map_id' rows)).trans (compress_of_canonical hc)
  | false =>
    have hnil : ∀ segments, f segments = [] := fun segments => (hf segments).trans (if_neg (by simp))
    rw [hnil]
    refine compress_of_forall_eq fun e he => ?_
    obtain ⟨e', -, rfl⟩ := mem_map.mp he
    exact hnil e'.2

/-- The loop over the spans of two shapes is the merge of their rows. -/
theorem spansLoop_eq_merge (hop : op.Regular) {shape1 shape2 : Shape} :
    ∀ (u v : List ℤ) (before1 before2 : List ℤ) (rows1 rows2 done : List Row),
      shape1.segments = before1 ++ rowSegments rows1 → Canonical u rows1 → limit u rows1 = [] →
      shape2.segments = before2 ++ rowSegments rows2 → Canonical v rows2 → limit v rows2 = [] →
      limit [] done = mergeSegments op u v →
      spansLoop op shape1 shape2 u v (ofRows done) (rowSpans before1.length rows1)
          (rowSpans before2.length rows2) =
        ofRows (done ++ merge (mergeSegments op) (limit [] done) u v rows1 rows2)
  | u, v, before1, before2, [], rows2, done, _, _, hu, hs2, hc2, he2, hd => by
    have hnil : u = [] := hu
    subst hnil
    have hleft := leftover_spans (mergeSegments_nil_left hop) hc2
    rw [rowSpans_nil, merge_nil_left, hd, hleft, spansLoop, hop.spans2, hop.segments2]
    · rw [isEmpty_nil, Bool.not_true, Bool.and_false]
      cases hm : op.member false true with
      | false => simp
      | true =>
        have hdv : limit [] done = v := by
          rw [hd, mergeSegments_nil_left hop, hm, if_pos rfl]
        cases rows2 with
        | nil => simp
        | cons row rows2 =>
          exact appendSpans_ofRows done hs2 (hdv ▸ hc2) (hdv ▸ he2)
    · simp
  | u, v, before1, before2, (y, segments) :: rows1, [], done, hs1, hc1, he1, _, _, hv, hd => by
    have hnil : v = [] := hv
    subst hnil
    have hleft := leftover_spans (f := fun s => mergeSegments op s [])
      (mergeSegments_nil_right hop) hc1
    rw [merge_nil_right, hd, hleft, spansLoop, hop.spans1, hop.segments1]
    · cases hm : op.member true false with
      | false => simp
      | true =>
        have hdu : limit [] done = u := by
          rw [hd, mergeSegments_nil_right hop, hm, if_pos rfl]
        exact appendSpans_ofRows done hs1 (hdu ▸ hc1) (hdu ▸ he1)
    · simp
  | u, v, before1, before2, (y, segments) :: rows1, (y', segments') :: rows2, done,
      hs1, hc1, he1, hs2, hc2, he2, hd => by
    have hat1 := segmentsAt_rowSpans segments y hs1 he1
    have hat2 := segmentsAt_rowSpans segments' y' hs2 he2
    have hs1' : shape1.segments = (before1 ++ segments) ++ rowSegments rows1 := by
      rw [hs1, append_assoc, rowSegments_cons]
    have hs2' : shape2.segments = (before2 ++ segments') ++ rowSegments rows2 := by
      rw [hs2, append_assoc, rowSegments_cons]
    have hlim : ∀ (y : ℤ) (s : List ℤ),
        limit [] (done ++ compress (limit [] done) [(y, s)]) = s := fun y s => by
      rw [limit_append, limit_compress]
      rfl
    rw [rowSpans_cons] at hat1 hat2 ⊢
    rw [rowSpans_cons, spansLoop]
    rcases lt_trichotomy y y' with h | rfl | h
    · have ih := spansLoop_eq_merge hop segments v (before1 ++ segments) before2 rows1
        ((y', segments') :: rows2)
        (done ++ compress (limit [] done) [(y, mergeSegments op segments v)])
        hs1' hc1.2.2 he1 hs2 hc2 he2 (hlim y _)
      rw [hlim, length_append, rowSpans_cons] at ih
      rw [if_pos (show y - y' < 0 by omega), hat1]
      dsimp only
      rw [addSpan_ofRows, ih, merge_cons_lt h, put_eq_append, append_assoc]
    · have ih := spansLoop_eq_merge hop segments segments' (before1 ++ segments)
        (before2 ++ segments') rows1 rows2
        (done ++ compress (limit [] done) [(y, mergeSegments op segments segments')])
        hs1' hc1.2.2 he1 hs2' hc2.2.2 he2 (hlim y _)
      rw [hlim, length_append, length_append] at ih
      rw [if_neg (show ¬y - y < 0 by omega), if_neg (show ¬y - y > 0 by omega), hat1, hat2]
      dsimp only
      rw [addSpan_ofRows, ih, merge_cons_eq, put_eq_append, append_assoc]
    · have ih := spansLoop_eq_merge hop u segments' before1 (before2 ++ segments')
        ((y, segments) :: rows1) rows2
        (done ++ compress (limit [] done) [(y', mergeSegments op u segments')])
        hs1 hc1 he1 hs2' hc2.2.2 he2 (hlim y' _)
      rw [hlim, length_append, rowSpans_cons] at ih
      rw [if_neg (show ¬y - y' < 0 by omega), if_pos (show y - y' > 0 by omega), hat2]
      dsimp only
      rw [addSpan_ofRows, ih, merge_cons_gt h, put_eq_append, append_assoc]
  termination_by _ _ _ _ rows1 rows2 => rows1.length + rows2.length

end WebKit.Graphics
