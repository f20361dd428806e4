import Mathlib.Algebra.Order.Field.Basic
import Mathlib.Tactic.Linarith
import WebKit.HTML.TimeRangesMerging

/-!
# The nearest time of time ranges

`nearest` looks for a distance below 0, which its `closest` is to begin with, so that it never finds
one: it gives the time itself when a range has it and 0 otherwise, see `nearest_eq`.  `nearest_iff`
says when that is the nearest time nevertheless.
-/

namespace WebKit
namespace TimeRanges

variable {β : Type*} [Field β] [LinearOrder β] [IsStrictOrderedRing β]

/-- A time that is no infinity. -/
abbrev finite {β : Type*} (t : β) : WithBot (WithTop β) := ((t : WithTop β) : WithBot (WithTop β))

omit [IsStrictOrderedRing β] in
@[simp] theorem distance_finite (t time : β) : distance (finite t) time =
    ((|t - time| : β) : WithTop β) :=
  rfl

theorem distance_nonneg (a : WithBot (WithTop β)) (time : β) : 0 ≤ distance a time := by
  unfold distance
  split
  · exact WithTop.coe_le_coe.mpr (abs_nonneg _)
  · exact le_top

variable (l : List (Range (WithBot (WithTop β)))) (time : β)

/-- What `nearest` returns. -/
theorem nearest_eq : nearest l time = if contain l (finite time) = true then finite time
      else finite (0 : β) := by
  unfold nearest
  induction l with
  | nil => rfl
  | cons r l ih =>
    have hstart : ¬ distance r.m_start time < 0 := not_lt.mpr (distance_nonneg _ _)
    have hend : ¬ distance r.m_end time < 0 := not_lt.mpr (distance_nonneg _ _)
    have hcontain : contain (r :: l) (finite time) = true ↔
        (r.m_start ≤ (finite time) ∧ (finite time) ≤ r.m_end) ∨ contain l (finite time) = true := by
      simp [contain]
    rw [nearestLoop, if_neg hstart, if_neg hend, ih]
    by_cases hr : r.m_start ≤ (finite time) ∧ (finite time) ≤ r.m_end
    · rw [if_pos hr, if_pos (hcontain.mpr (Or.inl hr))]
    · rw [if_neg hr]
      refine if_congr ?_ rfl rfl
      rw [hcontain, or_iff_right hr]

/-- A covered time whose distance is the least of all covered times. -/
def IsNearest (u : WithBot (WithTop β)) : Prop :=
  contain l u = true ∧ ∀ v, contain l v = true → distance u time ≤ distance v time

/-- A time outside of the open interval from 0 to the double of a time is at least as far from that
time as 0 is. -/
theorem distance_zero_le {time : β} {v : WithBot (WithTop β)}
    (h : v ≤ finite (min 0 (time + time)) ∨ finite (max 0 (time + time)) ≤ v) :
    distance (finite (0 : β)) time ≤ distance v time := by
  rcases v with _ | _ | v
  · exact le_top
  · exact le_top
  · have h' : v ≤ min 0 (time + time) ∨ max 0 (time + time) ≤ v :=
      h.imp (fun h => WithTop.coe_le_coe.mp (WithBot.coe_le_coe.mp h))
        fun h => WithTop.coe_le_coe.mp (WithBot.coe_le_coe.mp h)
    rw [distance_finite, zero_sub]
    refine WithTop.coe_le_coe.mpr ?_
    rcases h' with h' | h'
    · obtain ⟨h₁, h₂⟩ := le_min_iff.mp h'
      rw [abs_sub_comm]
      exact (abs_le.mpr ⟨by linarith, by linarith⟩).trans (le_abs_self _)
    · obtain ⟨h₁, h₂⟩ := max_le_iff.mp h'
      exact (abs_le.mpr ⟨by linarith, by linarith⟩).trans (le_abs_self _)

/-- An end of a range inside of that interval is nearer to the time, when the range is wholly on one
side of it. -/
theorem distance_lt_zero {time v : β} (h₁ : min 0 (time + time) < v)
    (h₂ : v < max 0 (time + time)) :
    distance (finite v) time < distance (finite (0 : β)) time := by
  refine WithTop.coe_lt_coe.mpr ?_
  rw [zero_sub, abs_neg]
  rcases le_total 0 time with hle | hle
  · rw [min_eq_left (by linarith)] at h₁
    rw [max_eq_right (by linarith)] at h₂
    rw [abs_of_nonneg hle]
    exact abs_lt.mpr ⟨by linarith, by linarith⟩
  · rw [min_eq_right (by linarith)] at h₁
    rw [max_eq_left (by linarith)] at h₂
    rw [abs_of_nonpos hle]
    exact abs_lt.mpr ⟨by linarith, by linarith⟩

omit [Field β] [IsStrictOrderedRing β] in
theorem exists_coe_of_between {a : WithBot (WithTop β)} {x y : β} (h₁ : finite x < a)
    (h₂ : a < finite y) :
    ∃ v : β, a = finite v ∧ x < v ∧ v < y := by
  cases a with
  | bot => exact absurd h₁ not_lt_bot
  | coe a =>
    cases a with
    | top => exact absurd (WithBot.coe_lt_coe.mp h₂) not_top_lt
    | coe v =>
      exact ⟨v, rfl, WithTop.coe_lt_coe.mp (WithBot.coe_lt_coe.mp h₁),
        WithTop.coe_lt_coe.mp (WithBot.coe_lt_coe.mp h₂)⟩

/-- When 0 is the nearest time. -/
theorem isNearest_zero_iff {l : List (Range (WithBot (WithTop β)))} {time : β}
    (hl : ∀ r ∈ l, r.m_start ≤ r.m_end) (htime : ¬ contain l (finite time) = true) :
    IsNearest l time (finite (0 : β)) ↔ contain l (finite (0 : β)) = true ∧
      ∀ r ∈ l, r.m_end ≤ finite (min 0 (time + time)) ∨
        finite (max 0 (time + time)) ≤ r.m_start := by
  refine and_congr_right fun _ => ?_
  constructor
  · intro hnear r hr
    by_contra hcon
    rw [not_or, not_le, not_le] at hcon
    have hcovered : ∀ v, r.m_start ≤ v → v ≤ r.m_end → contain l v = true := fun v h₁ h₂ =>
      (contain_iff l v).mpr ⟨r, hr, h₁, h₂⟩
    have hle : min 0 (time + time) ≤ time ∧ time ≤ max 0 (time + time) := by
      rcases le_total 0 time with h | h
      · exact ⟨(min_le_left _ _).trans h, (by linarith : time ≤ time + time).trans (le_max_right _ _)⟩
      · exact ⟨(min_le_right _ _).trans (by linarith), h.trans (le_max_left _ _)⟩
    have hmin := WithBot.coe_le_coe.mpr (WithTop.coe_le_coe.mpr hle.1)
    have hmax := WithBot.coe_le_coe.mpr (WithTop.coe_le_coe.mpr hle.2)
    rcases lt_or_ge (finite time) r.m_start with hlt | hge
    · obtain ⟨v, hv, h₁, h₂⟩ := exists_coe_of_between (hmin.trans_lt hlt) hcon.2
      have hnear' := hnear r.m_start (hcovered _ le_rfl (hl r hr))
      rw [hv] at hnear'
      exact absurd hnear' (not_le.mpr (distance_lt_zero h₁ h₂))
    · rcases lt_or_ge r.m_end (finite time) with hlt | hge'
      · obtain ⟨v, hv, h₁, h₂⟩ := exists_coe_of_between hcon.1 (hlt.trans_le hmax)
        have hnear' := hnear r.m_end (hcovered _ (hl r hr) le_rfl)
        rw [hv] at hnear'
        exact absurd hnear' (not_le.mpr (distance_lt_zero h₁ h₂))
      · exact htime (hcovered _ hge hge')
  · intro hout v hv
    obtain ⟨r, hr, h₁, h₂⟩ := (contain_iff l v).mp hv
    exact distance_zero_le ((hout r hr).imp h₂.trans fun h => h.trans h₁)

/-- `nearest` gives the time itself when it is covered and a nearest covered time otherwise, exactly
when the time is covered, or 0 is and no range reaches between 0 and the double of the time. -/
theorem nearest_iff (adds : List (Range (WithBot (WithTop β))))
    (hadds : ∀ r ∈ adds, r.m_start ≤ r.m_end) (time : β) :
    ((contain (addAll [] adds) (finite time) = true →
        nearest (addAll [] adds) time = (finite time)) ∧
      (¬ contain (addAll [] adds) (finite time) = true →
        IsNearest (addAll [] adds) time (nearest (addAll [] adds) time))) ↔
    contain (addAll [] adds) (finite time) = true ∨
      contain (addAll [] adds) (finite (0 : β)) = true ∧
        ∀ r ∈ addAll [] adds, r.m_end ≤ finite (min 0 (time + time)) ∨
          finite (max 0 (time + time)) ≤ r.m_start := by
  have hl := (mergedFrom_addAll adds hadds).apart.le
  rw [nearest_eq]
  by_cases htime : contain (addAll [] adds) (finite time) = true
  · simp [htime]
  · rw [if_neg htime, ← isNearest_zero_iff hl htime]
    constructor
    · exact fun h => Or.inr (h.2 htime)
    · exact fun h => ⟨fun hcon => absurd hcon htime, fun _ => h.resolve_left htime⟩

/-- With the range from 1 to 2, the time 1 is as it should be. -/
theorem nearest_iff_one_two :
    let l := addAll [] [⟨finite (1 : ℚ), finite 2⟩]
    (contain l (finite 1) = true → nearest l 1 = finite 1) ∧
      (¬ contain l (finite 1) = true → IsNearest l 1 (nearest l 1)) := by
  refine (nearest_iff [⟨finite (1 : ℚ), finite 2⟩] ?_ 1).mpr (Or.inl ?_)
  · intro r hr
    rw [List.mem_singleton.mp hr]
    exact WithBot.coe_le_coe.mpr (WithTop.coe_le_coe.mpr (by norm_num))
  · refine (contain_iff _ _).mpr ⟨⟨finite 1, finite 2⟩, by simp [addAll], le_rfl, ?_⟩
    exact WithBot.coe_le_coe.mpr (WithTop.coe_le_coe.mpr (by norm_num))

/-- The time 3 is not covered by the range from 1 to 2, and what is found for it is not either. -/
theorem not_nearest_one_two :
    let l := addAll [] [⟨finite (1 : ℚ), finite 2⟩]
    ¬ contain l (finite 3) = true ∧ ¬ IsNearest l 3 (nearest l 3) := by
  have hl : addAll [] [⟨finite (1 : ℚ), finite 2⟩] = [⟨finite 1, finite 2⟩] := by simp [addAll]
  have hcovered : ∀ t : ℚ, contain [⟨finite (1 : ℚ), finite 2⟩] (finite t) = true ↔
      1 ≤ t ∧ t ≤ 2 := by
    intro t
    simp only [contain_iff, List.mem_singleton, exists_eq_left, WithBot.coe_le_coe,
      WithTop.coe_le_coe]
  have h3 : ¬ contain [⟨finite (1 : ℚ), finite 2⟩] (finite 3) = true := by
    rw [hcovered]
    norm_num
  intro l
  rw [show l = [⟨finite 1, finite 2⟩] from hl]
  refine ⟨h3, fun hnear => ?_⟩
  rw [nearest_eq, if_neg h3] at hnear
  have h0 := (hcovered 0).mp hnear.1
  norm_num at h0

end TimeRanges
end WebKit
