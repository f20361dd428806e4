import Mathlib.Data.Finset.Basic

/-!
# The details of document markers

`dom/DocumentMarkerController.cpp`.  `clearDescriptionOnMarkersIntersectingRange` counts up twice at
a marker that it skips and so passes over the next one; `setMarkersActive` takes a marker that ends
where the range starts for one that intersects it.

* `exact_iff_passesOver`: where the two change the markers that they are to change.
-/

namespace WebKit.DOM

inductive MarkerType
  | spelling
  | grammar
  | textMatch
  | replacement
  | correctionIndicator
  | rejectedCorrection
  | autocorrected
  | spellCheckingExemption
  | deletedAutocorrection
  deriving DecidableEq

/-- A set of types, as its mask in the source. -/
abbrev MarkerTypes := Finset MarkerType

inductive DocumentMarkerDetails
  | description (description : String)
  | textMatch (match_ : Bool)
  deriving DecidableEq

structure DocumentMarker where
  type : MarkerType
  startOffset : ℕ
  endOffset : ℕ
  /-- `m_details`, which may be null. -/
  details : Option DocumentMarkerDetails
  deriving DecidableEq

namespace DocumentMarker

def clearDetails (marker : DocumentMarker) : DocumentMarker := { marker with details := none }

def setActiveMatch (active : Bool) (marker : DocumentMarker) : DocumentMarker :=
  { marker with details := some (.textMatch active) }

/-- The test of `hasMarkers`. -/
def Intersects (startOffset endOffset : ℕ) (marker : DocumentMarker) : Prop :=
  marker.startOffset < endOffset ∧ startOffset < marker.endOffset

instance {s e : ℕ} {marker : DocumentMarker} : Decidable (marker.Intersects s e) :=
  inferInstanceAs (Decidable (_ ∧ _))

end DocumentMarker

namespace DocumentMarkerController

variable (s e : ℕ) (types : MarkerTypes) (active : Bool)

/-- The loop on the markers of a node; `passOver` after the `i++` at a marker that is skipped. -/
def clearLoop (passOver : Bool) : List DocumentMarker → List DocumentMarker
  | [] => []
  | marker :: rest =>
    if passOver then marker :: clearLoop false rest
    else if marker.startOffset ≥ e then marker :: rest
    else if marker.endOffset ≤ s ∨ marker.type ∉ types then marker :: clearLoop true rest
    else marker.clearDetails :: clearLoop false rest

/-- `possiblyExistingMarkerTypes` is the field that `possiblyHasMarkers` looks at. -/
def clearDescriptionOnMarkersIntersectingRange (possiblyExistingMarkerTypes : MarkerTypes)
    (list : List DocumentMarker) : List DocumentMarker :=
  if possiblyExistingMarkerTypes ∩ types = ∅ then list else clearLoop s e types false list

def setMarkersActive : List DocumentMarker → List DocumentMarker
  | [] => []
  | marker :: rest =>
    if marker.startOffset ≥ e then marker :: rest
    else
      (if marker.endOffset < s ∨ marker.type ≠ .textMatch then marker
        else marker.setActiveMatch active) :: setMarkersActive rest

/-- The markers whose details are to be cleared. -/
def IsWanted (marker : DocumentMarker) : Prop := marker.type ∈ types ∧ marker.Intersects s e

instance (marker : DocumentMarker) : Decidable (IsWanted s e types marker) :=
  inferInstanceAs (Decidable (_ ∧ _))

/-- What is to become of a list. -/
def changeWanted (change : DocumentMarker → DocumentMarker) (list : List DocumentMarker) :
    List DocumentMarker :=
  list.map fun marker => if IsWanted s e types marker then change marker else marker

/-- Whether an odd number of markers stands behind the last that is wanted. -/
def oddBehindWanted (odd : Bool) (markers : List DocumentMarker) : Bool :=
  markers.foldl (fun odd marker => !decide (IsWanted s e types marker) && !odd) odd

/-- No wanted marker with details stands behind an odd number of others. -/
def PassesOverNone (odd : Bool) (list : List DocumentMarker) : Prop :=
  ∀ before marker after, list = before ++ marker :: after → IsWanted s e types marker →
    marker.details ≠ none → oddBehindWanted s e types odd before = false

/-- No text match with another flag ends where the range starts. -/
def NoneTouches (list : List DocumentMarker) : Prop :=
  ∀ marker ∈ list, marker.type = .textMatch → marker.endOffset = s → marker.startOffset < e →
    marker = marker.setActiveMatch active

variable {s e types active} {list : List DocumentMarker}

theorem clearDetails_eq_iff {marker : DocumentMarker} :
    marker = marker.clearDetails ↔ marker.details = none := by
  cases marker
  simp [DocumentMarker.clearDetails]

theorem not_isWanted_of_le {marker : DocumentMarker} (h : e ≤ marker.startOffset) :
    ¬IsWanted s e types marker := fun hwanted => Nat.not_lt.mpr h hwanted.2.1

theorem forall_le_of_sorted {marker : DocumentMarker}
    (hsorted : (marker :: list).Pairwise (·.startOffset ≤ ·.startOffset))
    (h : e ≤ marker.startOffset) : ∀ other ∈ marker :: list, e ≤ other.startOffset :=
  List.forall_mem_cons.mpr
    ⟨h, fun other hmem => h.trans ((List.pairwise_cons.mp hsorted).1 other hmem)⟩

theorem changeWanted_of_not {change : DocumentMarker → DocumentMarker}
    (h : ∀ marker ∈ list, ¬IsWanted s e types marker) :
    changeWanted s e types change list = list := by
  rw [changeWanted, List.map_congr_left fun marker hmem => if_neg (h marker hmem), List.map_id']

theorem clearLoop_of_le (passOver : Bool) (h : ∀ marker ∈ list, e ≤ marker.startOffset) :
    clearLoop s e types passOver list = list := by
  fun_induction clearLoop s e types passOver list <;> simp_all

theorem clearLoop_cons {marker : DocumentMarker} (h : marker.startOffset < e) (passOver : Bool) :
    clearLoop s e types passOver (marker :: list) =
      (if IsWanted s e types marker ∧ passOver = false then marker.clearDetails else marker) ::
        clearLoop s e types (!decide (IsWanted s e types marker) && !passOver) list := by
  cases passOver <;> grind [clearLoop, IsWanted, DocumentMarker.Intersects]

theorem passesOverNone_cons {marker : DocumentMarker} (odd : Bool) :
    PassesOverNone s e types odd (marker :: list) ↔
      (IsWanted s e types marker → marker.details ≠ none → odd = false) ∧
        PassesOverNone s e types (!decide (IsWanted s e types marker) && !odd) list := by
  constructor
  · refine fun h => ⟨h [] marker list rfl, ?_⟩
    rintro before other after rfl
    exact h (marker :: before) other after rfl
  · rintro ⟨hfirst, hrest⟩ (_ | ⟨y, before⟩) other after heq
    · cases heq
      exact hfirst
    · cases heq
      exact hrest before other after rfl

theorem passesOverNone_of_not (h : ∀ marker ∈ list, ¬IsWanted s e types marker) (odd : Bool) :
    PassesOverNone s e types odd list := fun _ marker _ heq hwanted =>
  absurd hwanted (h marker (heq ▸ by simp))

variable (hsorted : list.Pairwise (·.startOffset ≤ ·.startOffset))

include hsorted

/-- The loop passes over a marker exactly when it is at an odd place behind the last wanted one. -/
theorem clearLoop_eq_iff (passOver : Bool) :
    clearLoop s e types passOver list = changeWanted s e types DocumentMarker.clearDetails list ↔
      PassesOverNone s e types passOver list := by
  induction list generalizing passOver with
  | nil => simp [clearLoop, changeWanted, PassesOverNone]
  | cons marker rest ih =>
    have hrest := (List.pairwise_cons.mp hsorted).2
    rcases Nat.lt_or_ge marker.startOffset e with hlt | hge
    · rw [passesOverNone_cons, clearLoop_cons hlt, changeWanted, List.map_cons, List.cons.injEq,
        ← changeWanted, ih hrest]
      refine and_congr ?_ Iff.rfl
      by_cases hwanted : IsWanted s e types marker <;> cases passOver <;>
        simp [hwanted, clearDetails_eq_iff]
    · have hpast := forall_le_of_sorted hsorted hge
      have hnone other hmem : ¬IsWanted s e types other := not_isWanted_of_le (hpast other hmem)
      rw [clearLoop_of_le passOver hpast, changeWanted_of_not hnone]
      exact iff_of_true rfl (passesOverNone_of_not hnone passOver)

/-- The loop sets the flag of a marker that ends where the range starts. -/
theorem setMarkersActive_eq_iff :
    setMarkersActive s e active list =
        changeWanted s e {.textMatch} (DocumentMarker.setActiveMatch active) list ↔
      NoneTouches s e active list := by
  induction list with
  | nil => simp [setMarkersActive, changeWanted, NoneTouches]
  | cons marker rest ih =>
    have hrest := (List.pairwise_cons.mp hsorted).2
    rcases Nat.lt_or_ge marker.startOffset e with hlt | hge
    · rw [NoneTouches, List.forall_mem_cons, ← NoneTouches, ← ih hrest, changeWanted, List.map_cons,
        ← changeWanted, setMarkersActive, if_neg (Nat.not_le.mpr hlt), List.cons.injEq]
      refine and_congr ?_ Iff.rfl
      grind [IsWanted, DocumentMarker.Intersects]
    · have hpast := forall_le_of_sorted hsorted hge
      rw [setMarkersActive, if_pos hge,
        changeWanted_of_not fun other hmem => not_isWanted_of_le (hpast other hmem)]
      exact iff_of_true rfl fun other hmem _ _ hlt =>
        absurd hlt (Nat.not_lt.mpr (hpast other hmem))

omit hsorted

/-- For a sorted list whose types the controller knows of: the details are cleared of the wanted
markers alone unless one with details is passed over, and the flag is set of the intersecting text
matches alone unless one with the other flag ends where the range starts. -/
theorem exact_iff_passesOver (s e : ℕ) (types possiblyExistingMarkerTypes : MarkerTypes)
    (active : Bool) (list : List DocumentMarker)
    (hsorted : list.Pairwise (·.startOffset ≤ ·.startOffset))
    (htypes : ∀ marker ∈ list, marker.type ∈ possiblyExistingMarkerTypes) :
    (clearDescriptionOnMarkersIntersectingRange s e types possiblyExistingMarkerTypes list =
        changeWanted s e types DocumentMarker.clearDetails list ↔
      PassesOverNone s e types false list) ∧
    (setMarkersActive s e active list =
        changeWanted s e {.textMatch} (DocumentMarker.setActiveMatch active) list ↔
      NoneTouches s e active list) := by
  refine ⟨?_, setMarkersActive_eq_iff hsorted⟩
  rw [clearDescriptionOnMarkersIntersectingRange]
  split_ifs with hempty
  · have hnone : ∀ marker ∈ list, ¬IsWanted s e types marker := fun marker hmem hwanted =>
      Finset.notMem_empty _ (hempty ▸ Finset.mem_inter.mpr ⟨htypes marker hmem, hwanted.1⟩)
    rw [changeWanted_of_not hnone]
    exact iff_of_true rfl (passesOverNone_of_not hnone false)
  · exact clearLoop_eq_iff hsorted false

def grammarSpelling : List DocumentMarker :=
  [⟨.grammar, 0, 3, none⟩, ⟨.spelling, 4, 7, some (.description "color")⟩]

/-- The spelling marker behind one of another type is passed over. -/
theorem not_clears_grammarSpelling :
    clearDescriptionOnMarkersIntersectingRange 0 9 {.spelling} {.spelling, .grammar}
      grammarSpelling ≠ changeWanted 0 9 {.spelling} DocumentMarker.clearDetails grammarSpelling := by
  decide

/-- So the spelling marker is one that is passed over. -/
theorem exact_iff_passesOver_spelling : ¬PassesOverNone 0 9 {.spelling} false grammarSpelling :=
  fun h => absurd ((exact_iff_passesOver 0 9 {.spelling} {.spelling, .grammar} true grammarSpelling
    (by decide) (by decide)).1.mpr h) (by decide)

end DocumentMarkerController
end WebKit.DOM
