import Mathlib

/-!
# Regions of the integer plane

A region is a set of integer points kept as a list of spans: from the height of a span to that of
the next one, the points covered on a line are given by the x coordinates of the span's segments,
which are entered and left in turn.  The segments of all spans lie in one vector, and each span
holds the index of its first one.

The coordinates are integers without a width: the regions considered keep their coordinates
within `2 ^ 29` of the origin (`Region.Fits`), where no sum or difference of two of them leaves
the range of an `int`.  An iterator over spans or segments is the list of what is left before
its end.

* `IntRect`: a rectangle, with `intersects` and `unite`.
* `Shape`: the two vectors, and `Shape.shapeOperation`, the scanline sweep shared by the three
  operations.
* `Region`: a shape with its bounds, and the public operations.
-/

namespace WebKit.Graphics

/-! ## Points and rectangles -/

structure IntPoint where
  x : ℤ
  y : ℤ
  deriving DecidableEq

structure IntSize where
  width : ℤ
  height : ℤ
  deriving DecidableEq

/-- `IntSize::isEmpty`. -/
def IntSize.isEmpty (s : IntSize) : Bool := s.width ≤ 0 || s.height ≤ 0

structure IntRect where
  location : IntPoint
  size : IntSize
  deriving DecidableEq

namespace IntRect

/-- The rectangle of the constructor without arguments. -/
def zero : IntRect := ⟨⟨0, 0⟩, ⟨0, 0⟩⟩

/-- The rectangle with the given corner, width and height. -/
def mk4 (x y width height : ℤ) : IntRect := ⟨⟨x, y⟩, ⟨width, height⟩⟩

variable (r : IntRect)

def x : ℤ := r.location.x

def y : ℤ := r.location.y

def maxX : ℤ := r.x + r.size.width

def maxY : ℤ := r.y + r.size.height

def isEmpty : Bool := r.size.isEmpty

/-- `IntRect::contains(const IntPoint&)`. -/
def contains (p : IntPoint) : Bool :=
  r.x ≤ p.x && p.x < r.maxX && r.y ≤ p.y && p.y < r.maxY

def intersects (other : IntRect) : Bool :=
  !r.isEmpty && !other.isEmpty && r.x < other.maxX && other.x < r.maxX && r.y < other.maxY &&
    other.y < r.maxY

def unite (other : IntRect) : IntRect :=
  if other.isEmpty then r
  else if r.isEmpty then other
  else
    let left := min r.x other.x
    let top := min r.y other.y
    let right := max r.maxX other.maxX
    let bottom := max r.maxY other.maxY
    mk4 left top (right - left) (bottom - top)

def move (offset : IntSize) : IntRect :=
  ⟨⟨r.location.x + offset.width, r.location.y + offset.height⟩, r.size⟩

end IntRect

/-! ## Shapes -/

/-- `Region::Span`. -/
structure Span where
  y : ℤ
  segmentIndex : ℕ
  deriving DecidableEq

/-- `Region::Shape`: the segments of all spans, and the spans. -/
structure Shape where
  segments : List ℤ
  spans : List Span
  deriving DecidableEq

namespace Shape

/-- The shape of the constructor without arguments. -/
def empty : Shape := ⟨[], []⟩

variable (shape : Shape)

def isEmpty : Bool := shape.spans.isEmpty

/-- `segments_begin`, as an offset into the segments; `none` is the null pointer. -/
def segmentsBegin : List Span → Option ℕ
  | [] => none
  | it :: _ =>
    if it.segmentIndex = shape.segments.length then none else some it.segmentIndex

/-- `segments_end`.  The last span has no segments, so the span after the iterator is there
whenever it is read. -/
def segmentsEnd : List Span → Option ℕ
  | it :: next :: _ =>
    if it.segmentIndex = shape.segments.length then none else some next.segmentIndex
  | _ => none

/-- The segments from `segments_begin(it)` to `segments_end(it)`. -/
def segmentsAt (it : List Span) : List ℤ :=
  match shape.segmentsBegin it, shape.segmentsEnd it with
  | some first, some last => (shape.segments.take last).drop first
  | _, _ => []

def appendSegment (x : ℤ) : Shape :=
  { shape with segments := shape.segments ++ [x] }

/-- `appendSpan(int y)`. -/
def appendSpan (y : ℤ) : Shape :=
  { shape with spans := shape.spans ++ [⟨y, shape.segments.length⟩] }

/-- Whether the given segments are those of the last span. -/
def canCoalesce (segments : List ℤ) : Bool :=
  match shape.spans.getLast? with
  | none => false
  | some last => shape.segments.drop last.segmentIndex == segments

/-- `appendSpan(int y, SegmentIterator begin, SegmentIterator end)`. -/
def appendSpanSegments (y : ℤ) (segments : List ℤ) : Shape :=
  if shape.canCoalesce segments then shape
  else
    let appended := shape.appendSpan y
    { appended with segments := appended.segments ++ segments }

/-- `appendSpans`: the spans of `other` from an iterator on. -/
def appendSpans (shape other : Shape) : List Span → Shape
  | [] => shape
  | it :: rest =>
    appendSpans (shape.appendSpanSegments it.y (other.segmentsAt (it :: rest))) other rest

/-- The shape of a rectangle. -/
def ofRect (r : IntRect) : Shape :=
  (((empty.appendSpan r.y).appendSegment r.x).appendSegment r.maxX).appendSpan r.maxY

def translate (offset : IntSize) : Shape :=
  ⟨shape.segments.map (· + offset.width),
    shape.spans.map fun span => { span with y := span.y + offset.height }⟩

/-- `std::numeric_limits<int>::max()`. -/
def intMax : ℤ := 2 ^ 31 - 1

/-- `std::numeric_limits<int>::min()`. -/
def intMin : ℤ := -2 ^ 31

/-- The loop of `bounds` over the spans before the last one, with `minX` and `maxX` so far. -/
def boundsLoop (shape : Shape) (minX maxX : ℤ) : List Span → ℤ × ℤ
  | it :: next :: rest =>
    match shape.segmentsBegin (it :: next :: rest), shape.segmentsEnd (it :: next :: rest) with
    | some first, some last =>
      let firstSegment := shape.segments.getD first 0
      let lastSegment := shape.segments.getD (last - 1) 0
      boundsLoop shape (if firstSegment < minX then firstSegment else minX)
        (if lastSegment > maxX then lastSegment else maxX) (next :: rest)
    | _, _ => boundsLoop shape minX maxX (next :: rest)
  | _ => (minX, maxX)

def bounds : IntRect :=
  match shape.spans.head?, shape.spans.getLast? with
  | some span, some lastSpan =>
    let r := shape.boundsLoop intMax intMin shape.spans
    IntRect.mk4 r.1 span.y (r.2 - r.1) (lastSpan.y - span.y)
  | _, _ => IntRect.zero

/-! ## The scanline sweep -/

/-- The parameters of one of the operations: its early exit, the flag of the points it keeps,
and which leftovers it appends. -/
structure Operation where
  trySimpleOperation : Shape → Shape → Option Shape
  opCode : ℕ
  shouldAddRemainingSegmentsFromSpan1 : Bool
  shouldAddRemainingSegmentsFromSpan2 : Bool
  shouldAddRemainingSpansFromShape1 : Bool
  shouldAddRemainingSpansFromShape2 : Bool

/-- The loop over the segments of two spans, and the segments left when one of them ends.  Bit 1
of the flag is set inside the first span, bit 2 inside the second. -/
def segmentsLoop (op : Operation) (flag oldFlag : ℕ) : List ℤ → List ℤ → List ℤ
  | x :: s1, x' :: s2 =>
    if x - x' < 0 then
      let flag' := flag ^^^ 1
      let rest := segmentsLoop op flag' flag' s1 (x' :: s2)
      if flag' = op.opCode || oldFlag = op.opCode then x :: rest else rest
    else if x - x' > 0 then
      let flag' := flag ^^^ 2
      let rest := segmentsLoop op flag' flag' (x :: s1) s2
      if flag' = op.opCode || oldFlag = op.opCode then x' :: rest else rest
    else
      let flag' := (flag ^^^ 1) ^^^ 2
      let rest := segmentsLoop op flag' flag' s1 s2
      if flag' = op.opCode || oldFlag = op.opCode then x' :: rest else rest
  | s1, s2 =>
    if op.shouldAddRemainingSegmentsFromSpan1 && !s1.isEmpty then s1
    else if op.shouldAddRemainingSegmentsFromSpan2 && !s2.isEmpty then s2
    else []
  termination_by s1 s2 => s1.length + s2.length

/-- The segments of one line of the result. -/
def mergeSegments (op : Operation) (segments1 segments2 : List ℤ) : List ℤ :=
  segmentsLoop op 0 0 segments1 segments2

/-- A span is added once something has been. -/
def addSpan (result : Shape) (y : ℤ) (segments : List ℤ) : Shape :=
  if !segments.isEmpty || !result.isEmpty then result.appendSpanSegments y segments else result

/-- The loop over the spans of two shapes, and the spans left when one of them ends.
`segments1` and `segments2` are the segments of the spans passed last. -/
def spansLoop (op : Operation) (shape1 shape2 : Shape) (segments1 segments2 : List ℤ)
    (result : Shape) : List Span → List Span → Shape
  | it :: spans1, it' :: spans2 =>
    if it.y - it'.y < 0 then
      let segments1' := shape1.segmentsAt (it :: spans1)
      spansLoop op shape1 shape2 segments1' segments2
        (result.addSpan it.y (mergeSegments op segments1' segments2)) spans1 (it' :: spans2)
    else if it.y - it'.y > 0 then
      let segments2' := shape2.segmentsAt (it' :: spans2)
      spansLoop op shape1 shape2 segments1 segments2'
        (result.addSpan it'.y (mergeSegments op segments1 segments2')) (it :: spans1) spans2
    else
      let segments1' := shape1.segmentsAt (it :: spans1)
      let segments2' := shape2.segmentsAt (it' :: spans2)
      spansLoop op shape1 shape2 segments1' segments2'
        (result.addSpan it'.y (mergeSegments op segments1' segments2')) spans1 spans2
  | spans1, spans2 =>
    if op.shouldAddRemainingSpansFromShape1 && !spans1.isEmpty then
      result.appendSpans shape1 spans1
    else if op.shouldAddRemainingSpansFromShape2 && !spans2.isEmpty then
      result.appendSpans shape2 spans2
    else result
  termination_by spans1 spans2 => spans1.length + spans2.length

def shapeOperation (op : Operation) (shape1 shape2 : Shape) : Shape :=
  match op.trySimpleOperation shape1 shape2 with
  | some result => result
  | none => spansLoop op shape1 shape2 [] [] empty shape1.spans shape2.spans

def unionOperation : Operation where
  trySimpleOperation shape1 shape2 :=
    if shape1.isEmpty then some shape2 else if shape2.isEmpty then some shape1 else none
  opCode := 0
  shouldAddRemainingSegmentsFromSpan1 := true
  shouldAddRemainingSegmentsFromSpan2 := true
  shouldAddRemainingSpansFromShape1 := true
  shouldAddRemainingSpansFromShape2 := true

def intersectOperation : Operation where
  trySimpleOperation shape1 shape2 :=
    if shape1.isEmpty then some empty else if shape2.isEmpty then some shape1 else none
  opCode := 3
  shouldAddRemainingSegmentsFromSpan1 := false
  shouldAddRemainingSegmentsFromSpan2 := false
  shouldAddRemainingSpansFromShape1 := false
  shouldAddRemainingSpansFromShape2 := false

def subtractOperation : Operation where
  trySimpleOperation shape1 shape2 :=
    if shape1.isEmpty || shape2.isEmpty then some empty else none
  opCode := 1
  shouldAddRemainingSegmentsFromSpan1 := true
  shouldAddRemainingSegmentsFromSpan2 := false
  shouldAddRemainingSpansFromShape1 := true
  shouldAddRemainingSpansFromShape2 := false

def unionShapes (shape1 shape2 : Shape) : Shape := shapeOperation unionOperation shape1 shape2

def intersectShapes (shape1 shape2 : Shape) : Shape :=
  shapeOperation intersectOperation shape1 shape2

def subtractShapes (shape1 shape2 : Shape) : Shape :=
  shapeOperation subtractOperation shape1 shape2

/-- The rectangles of one span: its segments in pairs. -/
def spanRects (y height : ℤ) : List ℤ → List IntRect
  | x :: next :: rest => IntRect.mk4 x y (next - x) height :: spanRects y height rest
  | _ => []

/-- The loop of `Region::rects`, which stops at the last span. -/
def rectsLoop (shape : Shape) : List Span → List IntRect
  | it :: next :: rest =>
    spanRects it.y (next.y - it.y) (shape.segmentsAt (it :: next :: rest)) ++
      rectsLoop shape (next :: rest)
  | _ => []

end Shape

/-! ## Regions -/

/-- A shape with the bounds kept beside it.  `operator==` compares both. -/
structure Region where
  bounds : IntRect
  shape : Shape
  deriving DecidableEq

namespace Region

def ofRect (r : IntRect) : Region := ⟨r, Shape.ofRect r⟩

def isEmpty (a : Region) : Bool := a.bounds.isEmpty

def rects (a : Region) : List IntRect := a.shape.rectsLoop a.shape.spans

def unite (a b : Region) : Region := ⟨a.bounds.unite b.bounds, a.shape.unionShapes b.shape⟩

def intersect (a b : Region) : Region :=
  if !a.bounds.intersects b.bounds then ⟨IntRect.zero, Shape.empty⟩
  else
    let intersectedShape := a.shape.intersectShapes b.shape
    ⟨intersectedShape.bounds, intersectedShape⟩

def subtract (a b : Region) : Region :=
  let subtractedShape := a.shape.subtractShapes b.shape
  ⟨subtractedShape.bounds, subtractedShape⟩

def translate (a : Region) (offset : IntSize) : Region :=
  ⟨a.bounds.move offset, a.shape.translate offset⟩

/-- `contains(const Region&)`. -/
def contains (a b : Region) : Bool := b.intersect a == b

/-- `contains(const IntPoint&)`. -/
def containsPoint (a : Region) (p : IntPoint) : Bool := a.contains (ofRect ⟨p, ⟨1, 1⟩⟩)

end Region

end WebKit.Graphics
